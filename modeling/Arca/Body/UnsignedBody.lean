import Arca.Body.SignedBody

/-!
# Unsigned aws-chunked bodies

When a body is cut the decoder notices it only inside the header or the data of a
chunk, and it does not look at the two bytes behind the data.
-/
namespace Arca.Body
open Auth Framed List Option Decoder

/-- The form of a body, but for the two bytes behind the data of a chunk. -/
structure Layout.Shaped (L : Layout) : Prop where
  chunks : ∀ c ∈ L.chunks, IsLine c.header ∧ c.data ≠ [] ∧ c.separator.length = 2 ∧
    ∃ signature, parseChunkHeader c.header = .ok (c.data.length, signature)
  final : IsLine L.final ∧ ∃ signature, parseChunkHeader L.final = .ok (0, signature)
  lines : ∀ line ∈ L.lines, line ≠ [] ∧ IsLine line
  unread : L.unread = []

structure UnsignedBody where
  layout : Layout
  frames : List Bytes
  shaped : layout.Shaped
  arrived : frames.flatten <+: layout.bytes

/-- The bytes end behind the first byte of a chunk and before the last byte of its data. -/
inductive CutInside (final : Bytes) : List Chunk → Bytes → Prop
  | here {c : Chunk} {cs : List Chunk} {p : Bytes} : p ≠ [] →
      p.length < (c.header ++ crlf ++ c.data).length → CutInside final (c :: cs) p
  | last {p : Bytes} : p ≠ [] → p.length < (final ++ crlf).length → CutInside final [] p
  | later {c : Chunk} {cs : List Chunk} {p : Bytes} :
      CutInside final cs p → CutInside final (c :: cs) (c.bytes ++ p)

section
variable {P : Primitives} {ts : List (Text × Text)} {b rest : Bytes} {line : Bytes}

lemma findCrlf_of_cut (hl : IsLine line) (cut : b <+: line ++ crlf)
    (short : b.length < (line ++ crlf).length) : findCrlf b = none := by
  by_contra found
  obtain ⟨pos, found⟩ := ne_none_iff_exists'.mp found
  obtain ⟨more, whole⟩ := cut
  have same := findCrlf_line hl []
  rw [append_nil, ← whole, findCrlf_append found, some.injEq] at same
  have within := findCrlf_le found
  simp only [length_append, crlf, length_cons, length_nil] at short
  omega

lemma whole_unsigned_header {size : ℕ} {signature : Option Text}
    (hl : IsLine line) (parsed : parseChunkHeader line = .ok (size, signature)) :
    (reader P).whole ⟨.readingHeader, ts, none⟩ (line ++ crlf ++ rest) =
      (reader P).whole ⟨afterHeader size, ts, none⟩ rest := by
  have turn : turn P ⟨.readingHeader, ts, none⟩ (line ++ crlf ++ rest) = _ := turn_header hl
  rw [parsed] at turn
  exact (whole_takeOr turn).trans (after_nil _)

lemma whole_unsigned_data {data : Bytes} {left : 0 < data.length} :
    (reader P).whole ⟨.readingData data.length left, ts, none⟩ (data ++ rest) =
      after data ((reader P).whole ⟨.readingTrailer 2 two_pos, ts, none⟩ rest) := by
  have some : data ++ rest ≠ [] := append_ne_nil_of_left_ne_nil (length_pos_iff.mp left) _
  rw [whole_takeOr (turn_data rfl some), take_left, drop_left, length_append,
    Nat.sub_eq_zero_of_le (Nat.le_add_right ..)]
  rfl

lemma whole_unsigned_short {n : ℕ} {left : 0 < n} (short : b.length < n) :
    (reader P).whole ⟨.readingData n left, ts, none⟩ b = .error .incompleteData := by
  have waits : ∀ (k : ℕ) (hk : 0 < k),
      (reader P).whole ⟨.readingData k hk, ts, none⟩ [] = .error .incompleteData :=
    fun k hk => Reader.whole_wait (R := reader P) (by simp [reader, turn])
  by_cases empty : b = []
  · rw [empty, waits]
  · have missing : n - b.length ≠ 0 := by omega
    rw [whole_takeOr (turn_data rfl empty), drop_of_length_le short.le]
    simp only [readData, whenSigned, map_some, elim_some,
      afterData, dif_neg missing, waits, after_error]

lemma turn_unsigned_trailing (hl : IsLine line) (nonempty : line ≠ []) :
    (reader P).turn ⟨.readingTrailingHeaders, ts, none⟩ (line ++ crlf ++ rest) =
      .take [] rest ⟨.readingTrailingHeaders, ts ++ (reportedTrailer line).toList, none⟩ := by
  have pos : line.length ≠ 0 := fun h => nonempty (length_eq_zero_iff.mp h)
  simp only [reader, turn, findCrlf_line hl, take_line, drop_line, pos, if_false]
  cases hp : parseTrailerLine line <;>
    simp [whenSigned, recordTrailer, takeOr, reportedTrailer, report, hp]

lemma turn_unsigned_blank :
    (reader P).turn ⟨.readingTrailingHeaders, ts, none⟩ (crlf ++ rest) = .stop (.ok ts) := by
  have found : findCrlf (crlf ++ rest) = some 0 := findCrlf_line isLine_nil rest
  simp only [reader, turn, found, if_true]

lemma whole_unsigned_trailing (b : Bytes) : ∃ t,
    (reader P).whole ⟨.readingTrailingHeaders, ts, none⟩ b = .ok ([], t) := by
  induction size : b.length using Nat.strong_induction_on generalizing ts b with
  | _ size ih =>
    cases found : findCrlf b with
    | none =>
      rw [Reader.whole_wait (R := reader P) (by simp [reader, turn, found])]
      exact ⟨_, rfl⟩
    | some pos =>
      obtain ⟨line, rest, rfl, hl, -⟩ := exists_line_of_findCrlf found
      by_cases blank : line = []
      · rw [blank, nil_append, Reader.whole_stop turn_unsigned_blank]
        exact ⟨_, rfl⟩
      · obtain ⟨t, read⟩ := ih rest.length (by rw [← size]; simp [crlf]; omega) rest rfl
        exact ⟨t, (steady.whole_take (turn_unsigned_trailing hl blank)).trans
          ((after_nil _).trans read)⟩

lemma whole_unsigned_lines {lines : List Bytes} (isLines : ∀ line ∈ lines, line ≠ [] ∧ IsLine line) :
    (reader P).whole ⟨.readingTrailingHeaders, ts, none⟩ (lines.flatMap (· ++ crlf) ++ (crlf ++ rest)) =
      .ok ([], ts ++ lines.filterMap reportedTrailer) := by
  induction lines generalizing ts with
  | nil =>
    rw [flatMap_nil, nil_append, Reader.whole_stop turn_unsigned_blank]
    simp [Except.map]
  | cons line lines ih =>
    obtain ⟨⟨nonempty, hl⟩, others⟩ := forall_mem_cons.mp isLines
    rw [flatMap_cons, append_assoc, steady.whole_take (turn_unsigned_trailing hl nonempty),
      after_nil, ih others]
    cases hp : reportedTrailer line <;> simp [hp]

lemma whole_unsigned_nil : (reader P).whole ⟨.readingHeader, ts, none⟩ [] = .ok ([], ts) :=
  Reader.whole_wait (R := reader P) rfl

lemma whole_unsigned_cut (hl : IsLine line) (cut : b <+: line ++ crlf) (some : b ≠ [])
    (short : b.length < (line ++ crlf).length) :
    (reader P).whole ⟨.readingHeader, ts, none⟩ b = .error .incompleteHeader := by
  have waits : (reader P).turn ⟨.readingHeader, ts, none⟩ b = .wait := by
    simp [reader, turn, findCrlf_of_cut hl cut short]
  rw [Reader.whole_wait waits]
  simp [reader, atEnd, some, Except.map]

structure PlainChunk (c : Chunk) : Prop where
  line : IsLine c.header
  some : 0 < c.data.length
  size : ∃ signature, parseChunkHeader c.header = .ok (c.data.length, signature)

namespace PlainChunk
variable {c : Chunk} (plain : PlainChunk c)
include plain

lemma whole_header : (reader P).whole ⟨.readingHeader, ts, none⟩ (c.header ++ crlf ++ rest) =
      (reader P).whole ⟨.readingData c.data.length plain.some, ts, none⟩ rest := by
  obtain ⟨signature, size⟩ := plain.size
  rw [whole_unsigned_header plain.line size, afterHeader, dif_neg plain.some.ne']

lemma whole_behind :
    (reader P).whole ⟨.readingHeader, ts, none⟩ (c.header ++ crlf ++ c.data ++ rest) =
      after c.data ((reader P).whole ⟨.readingTrailer 2 two_pos, ts, none⟩ rest) := by
  rw [append_assoc, plain.whole_header, whole_unsigned_data]

lemma whole_inside (cut : b <+: c.header ++ crlf ++ c.data) (some : b ≠ [])
    (short : b.length < (c.header ++ crlf ++ c.data).length) :
    ∃ e, (reader P).whole ⟨.readingHeader, ts, none⟩ b = .error e := by
  by_cases early : b.length < (c.header ++ crlf).length
  · have within := prefix_of_prefix_length_le cut (prefix_append ..) early.le
    exact ⟨_, whole_unsigned_cut plain.line within some early⟩
  · obtain ⟨d, rfl⟩ := prefix_of_prefix_length_le (prefix_append ..) cut (not_lt.mp early)
    rw [plain.whole_header]
    simp only [length_append, Nat.add_lt_add_iff_left] at short
    exact ⟨_, whole_unsigned_short short⟩

end PlainChunk

/-- A cut body is refused where the cut is inside a chunk, and nowhere else. -/
lemma whole_unsigned_iff {L : Layout} (shaped : L.Shaped) {p : Bytes} (cut : p <+: L.bytes) :
    ((∃ e, (reader P).whole ⟨.readingHeader, ts, none⟩ p = .error e) ↔
      CutInside L.final L.chunks p) ∧
    (p = L.bytes → (reader P).whole ⟨.readingHeader, ts, none⟩ p =
      .ok (L.data, ts ++ L.lines.filterMap reportedTrailer)) := by
  obtain ⟨chunks, final, lines, unread⟩ := L
  obtain ⟨isChunks, ⟨hl, _, parsed⟩, isLines, rfl⟩ := shaped
  dsimp only at isChunks hl parsed isLines ⊢
  have accepted : ∀ {r : Except BodyError (Bytes × List (Text × Text))} {out}, r = .ok out →
      ¬ ∃ e, r = .error e := by
    rintro r out rfl ⟨e, h⟩
    cases h
  have nothing : ∀ {cs}, ¬ CutInside final cs [] := by
    intro cs cut
    generalize none : ([] : Bytes) = p at cut
    rcases cut with ⟨some, -⟩ | ⟨some, -⟩ | _
    · exact some none.symm
    · exact some none.symm
    · simp [Chunk.bytes, crlf] at none
  induction chunks generalizing p with
  | nil =>
    have whole : Layout.bytes ⟨[], final, lines, []⟩ =
        final ++ crlf ++ (lines.flatMap (· ++ crlf) ++ (crlf ++ [])) := rfl
    rw [whole] at cut ⊢
    by_cases short : p.length < (final ++ crlf).length
    · refine ⟨?_, fun full => ?_⟩
      · by_cases none : p = []
        · subst none
          exact iff_of_false (accepted whole_unsigned_nil) nothing
        · have within := prefix_of_prefix_length_le cut (prefix_append ..) short.le
          exact iff_of_true ⟨_, whole_unsigned_cut hl within none short⟩ (.last none short)
      · rw [full, length_append] at short
        omega
    · obtain ⟨rest, rfl⟩ := prefix_of_prefix_length_le (prefix_append ..) cut (not_lt.mp short)
      rw [whole_unsigned_header hl parsed]
      refine ⟨?_, fun full => ?_⟩
      · refine iff_of_false (accepted (whole_unsigned_trailing rest).choose_spec) ?_
        rintro (_ | ⟨-, early⟩)
        exact short early
      · rw [append_cancel_left full]
        exact whole_unsigned_lines isLines
  | cons c cs ih =>
    obtain ⟨⟨hc, some, two, size⟩, others⟩ := forall_mem_cons.mp isChunks
    have plain : PlainChunk c := ⟨hc, length_pos_iff.mpr some, size⟩
    have parts : c.bytes = c.header ++ crlf ++ c.data ++ c.separator := rfl
    rw [Layout.bytes_cons] at cut ⊢
    by_cases whole : c.bytes.length ≤ p.length
    · obtain ⟨rest, rfl⟩ := prefix_of_prefix_length_le (prefix_append ..) cut whole
      obtain ⟨refused, full⟩ := ih ((prefix_append_right_inj _).mp cut) others
      rw [parts, append_assoc, plain.whole_behind, whole_separator two, ← append_assoc,
        ← parts]
      simp only [after_eq_error_iff, refused]
      refine ⟨⟨.later, ?_⟩, fun all => ?_⟩
      · generalize same : c.bytes ++ rest = q
        intro inside
        rcases inside with ⟨-, early⟩ | _ | inside
        · rw [← same, parts] at early
          simp at early
        · rwa [append_cancel_left same]
      · rw [full (append_cancel_left all)]
        simp [Layout.data]
    · have outside : ¬ ∃ rest, c.bytes ++ rest = p := by
        rintro ⟨rest, rfl⟩
        simp at whole
      refine ⟨?_, fun all => absurd ⟨_, all.symm⟩ outside⟩
      have within := prefix_of_prefix_length_le cut (prefix_append ..) (not_le.mp whole).le
      by_cases none : p = []
      · subst none
        exact iff_of_false (accepted whole_unsigned_nil) nothing
      by_cases short : p.length < (c.header ++ crlf ++ c.data).length
      · have inside := prefix_of_prefix_length_le within (prefix_append ..) short.le
        exact iff_of_true (plain.whole_inside inside none short) (.here none short)
      · obtain ⟨rest, rfl⟩ := prefix_of_prefix_length_le (prefix_append ..) within (not_lt.mp short)
        have behind : rest.length < 2 := by
          simp only [parts, length_append, two] at whole
          omega
        refine iff_of_false ?_ fun inside => ?_
        · rw [plain.whole_behind, Reader.whole_wait (R := reader P)
            (by simpa [reader, turn] using behind)]
          exact accepted rfl
        · generalize same : c.header ++ crlf ++ c.data ++ rest = q at *
          rcases inside with ⟨-, early⟩ | _ | inside
          · exact short early
          · exact outside ⟨_, rfl⟩

end

/-- **What arrives of an unsigned body is answered as its form asks exactly when all of it arrives
with CRLF behind the data of every chunk, or when it is cut inside a chunk.** -/
theorem unsigned_body_decoded_iff (P : Primitives) (u : UnsignedBody) :
    ((u.frames.flatten = u.layout.bytes ∧ u.layout.Strict →
        decode P none u.frames =
          .ok (u.layout.data, u.layout.lines.filterMap reportedTrailer)) ∧
      (¬ (u.frames.flatten = u.layout.bytes ∧ u.layout.Strict) →
        ∃ e, decode P none u.frames = .error e)) ↔
      u.frames.flatten = u.layout.bytes ∧ u.layout.Strict ∨
        CutInside u.layout.final u.layout.chunks u.frames.flatten := by
  obtain ⟨L, frames, shaped, arrived⟩ := u
  obtain ⟨refused, full⟩ := @whole_unsigned_iff P [] L shaped _ arrived
  have decoded : decode P none frames =
      (reader P).whole ⟨.readingHeader, [], none⟩ frames.flatten := decode_eq_whole ..
  rw [← decoded] at refused full
  rw [refused]
  refine ⟨fun ⟨_, other⟩ => or_iff_not_imp_left.mpr other, fun kept => ⟨fun all => full all.1, fun not => ?_⟩⟩
  exact kept.resolve_left not

/-- The chunk `1\r\na\r\n`, with other bytes in the place of its CRLF or with nothing behind it. -/
def oneByte (separator : Bytes) : Layout := ⟨[⟨[49], [97], separator⟩], [48], [], []⟩

lemma shaped_oneByte {separator : Bytes} (two : separator.length = 2) :
    (oneByte separator).Shaped :=
  have one : IsLine [49] := by unfold IsLine; decide
  have byte : parseChunkHeader [49] = .ok (1, none) := by decide +kernel
  have zero : IsLine [48] := by unfold IsLine; decide
  have last : parseChunkHeader [48] = .ok (0, none) := by decide +kernel
  { chunks := by
      rintro c (_ | ⟨_, ⟨⟩⟩)
      exact ⟨one, by simp, two, none, byte⟩
    final := ⟨zero, none, last⟩
    lines := nofun
    unread := rfl }

theorem cut_and_loose_bodies_accepted :
    (∃ u : UnsignedBody, u.layout.Strict ∧ u.frames.flatten ≠ u.layout.bytes ∧
      decode transparent none u.frames = .ok ([97], [])) ∧
    ∃ u : UnsignedBody, u.frames.flatten = u.layout.bytes ∧ ¬ u.layout.Strict ∧
      decode transparent none u.frames = .ok ([97], []) := by
  refine ⟨⟨⟨oneByte crlf, [(⟨[49], [97], crlf⟩ : Chunk).bytes], shaped_oneByte rfl, ?_⟩, ?_, ?_, ?_⟩,
    ⟨⟨oneByte [88, 88], [(oneByte [88, 88]).bytes], shaped_oneByte rfl, ?_⟩, ?_, ?_, ?_⟩⟩
  · decide
  · exact ⟨by decide, rfl⟩
  · decide
  · decide +kernel
  · decide
  · decide
  · exact fun strict => absurd strict.separators (by decide)
  · decide +kernel

end Arca.Body
