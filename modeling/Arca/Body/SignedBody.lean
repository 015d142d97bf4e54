import Arca.Body.ChunkedDecoder

/-!
# What a signed aws-chunked body is

A declarative description of the bodies the decoder accepts: data chunks whose
signatures chain from the signature of the request, a verified empty chunk, the
trailing headers with their signature, and a blank line.
-/
namespace Arca.Body
open Auth Framed Decoder SignedChunks Option

def crlf : Bytes := [13, 10]

def IsLine (line : Bytes) : Prop := ¬ crlf <:+: line

/-- A data chunk: header line, data, and the two bytes between it and the next. -/
structure Chunk where
  header : Bytes
  data : Bytes
  separator : Bytes

def Chunk.bytes (c : Chunk) : Bytes := c.header ++ crlf ++ c.data ++ c.separator

/-- The chain continues from `v` to `w` over the data chunk `c`. -/
structure SignedChunk (P : Primitives) (v : ChunkVerifier) (c : Chunk) (w : ChunkVerifier) :
    Prop where
  line : IsLine c.header
  data : c.data ≠ []
  separator : c.separator.length = 2
  verified : ∃ signature, parseChunkHeader c.header = .ok (c.data.length, some signature) ∧
    v.verifyChunk P (hexSha256 P c.data) signature = some w

inductive SignedChain (P : Primitives) : ChunkVerifier → List Chunk → ChunkVerifier → Prop
  | nil (v : ChunkVerifier) : SignedChain P v [] v
  | cons {v w u : ChunkVerifier} {c : Chunk} {cs : List Chunk} :
      SignedChunk P v c w → SignedChain P w cs u → SignedChain P v (c :: cs) u

/-- The header line of the empty chunk that ends the data. -/
structure FinalChunk (P : Primitives) (v : ChunkVerifier) (header : Bytes) (w : ChunkVerifier) :
    Prop where
  line : IsLine header
  verified : ∃ signature, parseChunkHeader header = .ok (0, some signature) ∧
    v.verifyChunk P (hexSha256 P []) signature = some w

def report (trailer : Text × Text) : Text × Text := (trailer.1.lower, trailer.2)

def reportedTrailer (line : Bytes) : Option (Text × Text) := (parseTrailerLine line).map report

def lastValue (name : Text) (trailers : List (Text × Text)) : Option Text :=
  (trailers.filter (·.1 = name)).getLast?.map Prod.snd

/-- A signed trailer covers the headers reported; an unsigned one is empty. -/
def TrailerVerified (P : Primitives) (v : ChunkVerifier) (withTrailer : Bool)
    (trailers : List (Text × Text)) : Prop :=
  if withTrailer then
    lastValue trailerSignatureName trailers =
      some (v.expectedTrailerSignature P (canonicalTrailer trailers))
  else trailers = []

/-- The parts of a body. What follows the closing blank line is never read. -/
structure Layout where
  chunks : List Chunk
  final : Bytes
  lines : List Bytes
  unread : Bytes

namespace Layout

def bytes (L : Layout) : Bytes :=
  L.chunks.flatMap Chunk.bytes ++ (L.final ++ crlf ++ (L.lines.flatMap (· ++ crlf) ++
    (crlf ++ L.unread)))

def data (L : Layout) : Bytes := L.chunks.flatMap Chunk.data

lemma bytes_cons (c : Chunk) (cs : List Chunk) (final : Bytes) (lines : List Bytes)
    (unread : Bytes) : bytes ⟨c :: cs, final, lines, unread⟩ =
      c.bytes ++ bytes ⟨cs, final, lines, unread⟩ := by
  simp [bytes]

structure Verified (P : Primitives) (v : ChunkVerifier) (withTrailer : Bool) (L : Layout)
    (trailers : List (Text × Text)) : Prop where
  chain : ∃ w u, SignedChain P v L.chunks w ∧ FinalChunk P w L.final u ∧
    TrailerVerified P u withTrailer trailers
  lines : ∀ line ∈ L.lines, line ≠ [] ∧ IsLine line
  reported : L.lines.mapM reportedTrailer = some trailers

end Layout

lemma findCrlf_line {line : Bytes} (h : IsLine line) (rest : Bytes) :
    findCrlf (line ++ crlf ++ rest) = some line.length := by
  induction line with
  | nil => rfl
  | cons x line ih =>
    have tail : IsLine line := fun inside => h (List.infix_cons inside)
    have elsewhere : ¬ (x = 13 ∧ (line ++ crlf ++ rest).head? = some 10) := by
      rintro ⟨rfl, next⟩
      cases line with
      | nil => simp [crlf] at next
      | cons y line =>
        simp only [List.cons_append, List.head?_cons, some.injEq] at next
        subst next
        exact h ⟨[], line, rfl⟩
    simp only [List.cons_append, findCrlf]
    rw [if_neg (by simpa using elsewhere), ih tail]
    rfl

lemma exists_line_of_findCrlf {b : Bytes} {pos : ℕ} (h : findCrlf b = some pos) :
    ∃ line rest, b = line ++ crlf ++ rest ∧ IsLine line ∧ line.length = pos := by
  induction b generalizing pos with
  | nil => cases h
  | cons x b ih =>
    simp only [findCrlf] at h
    split at h
    · next here =>
        obtain rfl := some.inj h
        obtain ⟨rfl, next⟩ := here
        cases b with
        | nil => cases next
        | cons y b =>
          obtain rfl := some.inj next
          exact ⟨[], b, rfl, by simp [IsLine, crlf], rfl⟩
    · next elsewhere =>
        obtain ⟨p, hp, rfl⟩ := map_eq_some_iff.mp h
        obtain ⟨line, rest, rfl, hline, rfl⟩ := ih hp
        refine ⟨x :: line, rest, rfl, ?_, rfl⟩
        intro inside
        obtain start | inside := List.infix_cons_iff.mp inside
        · obtain ⟨tail, eq⟩ := start
          obtain ⟨rfl, rfl⟩ := eq
          exact elsewhere ⟨rfl, rfl⟩
        · exact hline inside

section runs
variable {P : Primitives} {d : Decoder} {s : SignedChunks} {ts : List (Text × Text)} {b rest : Bytes}

lemma whole_wait (hs : d.signed = some s) (turn : d.turn P b = .wait) :
    (reader P).whole d b = .error .signatureMismatch := by
  have ended : d.atEnd b = .error .signatureMismatch := by simp [atEnd, hs]
  exact (Reader.whole_wait turn).trans (by rw [show (reader P).atEnd d b = _ from ended]; rfl)

variable {out line : Bytes}

lemma whole_takeOr {o : Option Decoder} (turn : d.turn P b = takeOr out rest o) :
    (reader P).whole d b = o.elim (.error .signatureMismatch)
      fun d' => after out ((reader P).whole d' rest) := by
  cases o with
  | none => exact Reader.whole_stop (R := reader P) turn
  | some d' => exact steady.whole_take turn

lemma whole_no_line (hs : d.signed = some s)
    (state : d.state = .readingHeader ∨ d.state = .readingTrailingHeaders)
    (none_found : findCrlf b = none) :
    (reader P).whole d b = .error .signatureMismatch := by
  apply whole_wait hs
  obtain h | h := state <;> simp [turn, h, none_found]

lemma take_line (line rest : Bytes) : (line ++ crlf ++ rest).take line.length = line := by
  simp

lemma drop_line (line rest : Bytes) : (line ++ crlf ++ rest).drop (line.length + 2) = rest := by
  rw [show line.length + 2 = (line ++ crlf).length by simp [crlf], List.drop_left]

lemma turn_header (hl : IsLine line) {signed : Option SignedChunks} :
    turn P ⟨.readingHeader, ts, signed⟩ (line ++ crlf ++ rest) =
      match parseChunkHeader line with
      | .error e => .stop (.error e)
      | .ok (size, signature) =>
        takeOr [] rest (startChunk P ⟨.readingHeader, ts, signed⟩ size signature) := by
  cases parsed : parseChunkHeader line <;>
    simp only [turn, findCrlf_line hl, take_line, drop_line, parsed]

lemma turn_trailing (hl : IsLine line) (nonempty : line ≠ []) :
    turn P ⟨.readingTrailingHeaders, ts, some s⟩ (line ++ crlf ++ rest) =
      takeOr [] rest ((parseTrailerLine line).map fun trailer =>
        ⟨.readingTrailingHeaders, ts ++ [report trailer], some (s.addTrailer trailer)⟩) := by
  have pos : line.length ≠ 0 := fun h => nonempty (List.length_eq_zero_iff.mp h)
  simp only [turn, findCrlf_line hl, take_line, drop_line, pos, if_false]
  cases hp : parseTrailerLine line with
  | none => simp [whenSigned, addTrailerLine, hp]
  | some trailer =>
    simp [whenSigned, addTrailerLine, recordTrailer, hp, report]

lemma isLine_nil : IsLine [] := by simp [IsLine, crlf]

lemma whole_blank : (reader P).whole ⟨.readingTrailingHeaders, ts, some s⟩ (crlf ++ rest) =
      if s.finishTrailer P then .ok ([], ts) else .error .signatureMismatch := by
  have found : findCrlf (crlf ++ rest) = some 0 := findCrlf_line isLine_nil rest
  have turn : (reader P).turn ⟨.readingTrailingHeaders, ts, some s⟩ (crlf ++ rest) =
      .stop (if s.finishTrailer P then .ok ts else .error .signatureMismatch) := by
    simp only [reader, turn, found, if_true]
    split <;> rfl
  rw [Reader.whole_stop turn]
  split <;> rfl

lemma whole_trailing_iff {t : List (Text × Text)} :
    (reader P).whole ⟨.readingTrailingHeaders, ts, some s⟩ b = .ok (out, t) ↔
    ∃ (lines : List Bytes) (trailers : List (Text × Text)) (unread : Bytes),
      b = lines.flatMap (· ++ crlf) ++ (crlf ++ unread) ∧
      (∀ line ∈ lines, line ≠ [] ∧ IsLine line) ∧
      lines.mapM parseTrailerLine = some trailers ∧ out = [] ∧
      t = ts ++ trailers.map report ∧
      (trailers.foldl addTrailer s).finishTrailer P = true := by
  constructor
  · intro h
    induction size : b.length using Nat.strong_induction_on generalizing ts s b with
    | _ size ih =>
      cases found : findCrlf b with
      | none => rw [whole_no_line rfl (.inr rfl) found] at h; cases h
      | some pos =>
        obtain ⟨line, rest, rfl, hl, -⟩ := exists_line_of_findCrlf found
        by_cases blank : line = []
        · subst blank
          rw [List.nil_append, whole_blank] at h
          split at h
          · next verified =>
              obtain ⟨rfl, rfl⟩ := Prod.mk.inj (Except.ok.inj h)
              exact ⟨[], [], rest, by simp, by simp, rfl, rfl, by simp, verified⟩
          · cases h
        · rw [whole_takeOr (turn_trailing hl blank)] at h
          cases parsed : parseTrailerLine line with
          | none => rw [parsed] at h; cases h
          | some trailer =>
            rw [parsed] at h
            obtain ⟨lines, trailers, unread, rfl, isLines, more, rfl, rfl, verified⟩ :=
              ih rest.length (by rw [← size]; simp [crlf]; omega) (by simpa using h) rfl
            refine ⟨line :: lines, trailer :: trailers, unread, by simp, ?_, ?_, rfl, ?_, verified⟩
            · rintro l (_ | ⟨_, hl'⟩)
              · exact ⟨blank, hl⟩
              · exact isLines l hl'
            · simp [List.mapM_cons, parsed, more]
            · simp
  · rintro ⟨lines, trailers, unread, rfl, isLines, parsed, rfl, rfl, verified⟩
    induction lines generalizing ts s trailers with
    | nil =>
      obtain rfl := some.inj parsed
      have verified : s.finishTrailer P = true := verified
      simp [whole_blank, verified]
    | cons line lines ih =>
      obtain ⟨blank, hl⟩ := isLines line (by simp)
      simp only [List.mapM_cons, bind_eq_bind, bind_eq_some_iff] at parsed
      obtain ⟨trailer, this, trailers, those, eq⟩ := parsed
      obtain rfl := some.inj eq
      rw [List.flatMap_cons, List.append_assoc, whole_takeOr (turn_trailing hl blank), this]
      have isRest : ∀ l ∈ lines, l ≠ [] ∧ IsLine l := fun l hl' => isLines l (by simp [hl'])
      simp only [map_some, elim_some]
      rw [ih trailers isRest those verified]
      simp

end runs

section trailer
variable {P : Primitives} {trailers : List (Text × Text)}

lemma foldl_addTrailer (s : SignedChunks) (trailers : List (Text × Text)) :
    trailers.foldl addTrailer s =
      { s with
        trailerLines := s.trailerLines ++ trailers.filter (·.1.lower ≠ trailerSignatureName)
        trailerSignature := ((trailers.filter (·.1.lower = trailerSignatureName)).getLast?.map
          Prod.snd).or s.trailerSignature } := by
  induction trailers generalizing s with
  | nil => simp
  | cons trailer trailers ih =>
    rw [List.foldl_cons, ih]
    by_cases signature : trailer.1.lower = trailerSignatureName
    · simp [addTrailer, signature, List.getLast?_cons]
    · simp [addTrailer, signature]

lemma lastValue_report : lastValue trailerSignatureName (trailers.map report) =
      (trailers.filter (·.1.lower = trailerSignatureName)).getLast?.map Prod.snd := by
  simp only [lastValue, List.filter_map, List.getLast?_map, map_map]
  rfl

lemma canonicalTrailer_report (trimmed : ∀ trailer ∈ trailers, trailer.1.trim = trailer.1) :
    canonicalTrailer (trailers.filter (·.1.lower ≠ trailerSignatureName)) =
      canonicalTrailer (trailers.map report) := by
  induction trailers with
  | nil => rfl
  | cons trailer trailers ih =>
    have own := trimmed trailer (by simp)
    have tail := ih fun t ht => trimmed t (by simp [ht])
    have reported : canonicalTrailerLine (report trailer) = canonicalTrailerLine trailer := by
      have low : Text.lower (Text.trim trailer.1.lower) = trailer.1.trim.lower := by
        rw [← own, Text.lower_trim, Text.lower_lower, Text.trim_trim]
      simp only [canonicalTrailerLine, report, low]
    simp only [canonicalTrailer, List.map_cons, List.flatMap_cons, reported] at tail ⊢
    rw [← tail]
    by_cases signature : trailer.1.lower = trailerSignatureName
    · have skipped : canonicalTrailerLine trailer = [] := by
        simp [canonicalTrailerLine, own, signature]
      simp [signature, skipped]
    · simp [signature]

lemma trim_parseTrailerLine {line : Bytes} {trailer : Text × Text}
    (h : parseTrailerLine line = some trailer) : trailer.1.trim = trailer.1 := by
  obtain ⟨text, -, h⟩ := bind_eq_some_iff.mp h
  obtain ⟨split, -, rfl⟩ := map_eq_some_iff.mp h
  exact Text.trim_trim _

lemma finishTrailer_iff {s : SignedChunks} (lines : s.trailerLines = [])
    (signature : s.trailerSignature = none)
    (trimmed : ∀ trailer ∈ trailers, trailer.1.trim = trailer.1) :
    (trailers.foldl addTrailer s).finishTrailer P = true ↔
      TrailerVerified P s.verifier s.withTrailer (trailers.map report) := by
  rw [foldl_addTrailer, TrailerVerified, lastValue_report, ← canonicalTrailer_report trimmed]
  simp only [finishTrailer, lines, signature, List.nil_append, or_none]
  cases s.withTrailer with
  | true =>
    simp only [if_true]
    cases (trailers.filter (·.1.lower = trailerSignatureName)).getLast?.map Prod.snd with
    | none => simp
    | some provided =>
      simp only [ChunkVerifier.verifyTrailer, ChunkVerifier.advance, some.injEq]
      split
      · next same => exact iff_of_true rfl same.symm
      · next differs => exact iff_of_false Bool.false_ne_true fun h => differs h.symm
  | false =>
    cases trailers with
    | nil => simp
    | cons trailer trailers =>
      by_cases own : trailer.1.lower = trailerSignatureName <;> simp [own, List.getLast?_cons]

end trailer

section runs
variable {P : Primitives} {d : Decoder} {s : SignedChunks} {ts : List (Text × Text)} {b rest : Bytes}

def announce (P : Primitives) (s : SignedChunks) (size : ℕ) (signature : Option Text) :
    Option SignedChunks :=
  signature.bind fun sig =>
    if size = 0 then { s with chunkSignature := sig }.finishChunk P
    else some { s with chunkSignature := sig }

variable {line out : Bytes} {v : ChunkVerifier} {withTrailer : Bool} {signature : Text}
  {t : List (Text × Text)}

lemma whole_header {size : ℕ} {signature : Option Text} (hl : IsLine line)
    (parsed : parseChunkHeader line = .ok (size, signature)) :
    (reader P).whole ⟨.readingHeader, ts, some s⟩ (line ++ crlf ++ rest) =
      (announce P s size signature).elim (.error .signatureMismatch)
        fun s => (reader P).whole ⟨afterHeader size, ts, some s⟩ rest := by
  have turn : turn P ⟨.readingHeader, ts, some s⟩ (line ++ crlf ++ rest) = _ := turn_header hl
  have start : startChunk P ⟨.readingHeader, ts, some s⟩ size signature =
      (announce P s size signature).map fun s => ⟨afterHeader size, ts, some s⟩ := by
    simp only [startChunk, whenSigned, map_map]
    rfl
  rw [parsed] at turn
  rw [whole_takeOr turn, start]
  cases announce P s size signature <;> simp

lemma whole_bad_header {e : BodyError} (hl : IsLine line)
    (parsed : parseChunkHeader line = .error e) :
    (reader P).whole ⟨.readingHeader, ts, some s⟩ (line ++ crlf ++ rest) = .error e := by
  have turn : (reader P).turn ⟨.readingHeader, ts, some s⟩ (line ++ crlf ++ rest) = _ :=
    turn_header hl
  rw [parsed] at turn
  rw [Reader.whole_stop turn]
  rfl

lemma whole_data {n : ℕ} {left : 0 < n} (enough : n ≤ b.length) :
    (reader P).whole ⟨.readingData n left, ts, some s⟩ b =
      ({ s with hashed := s.hashed ++ b.take n }.finishChunk P).elim (.error .signatureMismatch)
      fun s => after (b.take n)
        ((reader P).whole ⟨.readingTrailer 2 two_pos, ts, some s⟩ (b.drop n)) := by
  have nonempty : b ≠ [] := List.ne_nil_of_length_pos (by omega)
  rw [whole_takeOr (turn_data rfl nonempty), Nat.sub_eq_zero_of_le enough]
  simp only [readData, whenSigned, if_true, map_map]
  cases { s with hashed := s.hashed ++ b.take n }.finishChunk P <;> rfl

lemma whole_data_short {n : ℕ} {left : 0 < n} (short : b.length < n) :
    (reader P).whole ⟨.readingData n left, ts, some s⟩ b = .error .signatureMismatch := by
  have waits : ∀ (k : ℕ) (hk : 0 < k) (s : SignedChunks),
      (reader P).whole ⟨.readingData k hk, ts, some s⟩ [] = .error .signatureMismatch :=
    fun k hk s => whole_wait rfl (by simp [turn])
  by_cases empty : b = []
  · subst empty
    exact waits n left s
  · have missing : n - b.length ≠ 0 := by omega
    rw [whole_takeOr (turn_data rfl empty), List.drop_of_length_le short.le]
    simp only [readData, whenSigned, missing, if_false, map_some,
      elim_some, afterData, dif_neg, not_false_eq_true]
    rfl

lemma whole_separator {sep : Bytes} (two : sep.length = 2) {signed : Option SignedChunks} :
    (reader P).whole ⟨.readingTrailer 2 two_pos, ts, signed⟩ (sep ++ rest) =
      (reader P).whole ⟨.readingHeader, ts, signed⟩ rest := by
  have turn : (reader P).turn ⟨.readingTrailer 2 two_pos, ts, signed⟩ (sep ++ rest) =
      .take [] rest ⟨.readingHeader, ts, signed⟩ := by
    have fits : 2 ≤ (sep ++ rest).length := by simp [two]
    simp only [reader, turn, fits, if_true]
    rw [← two, List.drop_left]
  rw [steady.whole_take turn, after_nil]

lemma whole_separator_short (short : b.length < 2) :
    (reader P).whole ⟨.readingTrailer 2 two_pos, ts, some s⟩ b =
      .error .signatureMismatch :=
  whole_wait rfl (by simp [turn, short])

/-- A chain that has just been verified up to a chunk, before any trailer. -/
def chainAt (v : ChunkVerifier) (withTrailer : Bool) (signature : Text) : SignedChunks :=
  ⟨v, withTrailer, [], signature, [], none⟩

lemma mapM_reportedTrailer (lines : List Bytes) :
    lines.mapM reportedTrailer = (lines.mapM parseTrailerLine).map (List.map report) := by
  induction lines with
  | nil => rfl
  | cons line lines ih =>
    simp only [List.mapM_cons, ih, reportedTrailer]
    cases parseTrailerLine line with
    | none => rfl
    | some trailer => cases lines.mapM parseTrailerLine <;> rfl

lemma trimmed_of_mapM {lines : List Bytes} {trailers : List (Text × Text)}
    (h : lines.mapM parseTrailerLine = some trailers) :
    ∀ trailer ∈ trailers, trailer.1.trim = trailer.1 := by
  induction lines generalizing trailers with
  | nil =>
    obtain rfl := some.inj h
    simp
  | cons line lines ih =>
    simp only [List.mapM_cons, bind_eq_bind, bind_eq_some_iff] at h
    obtain ⟨first, this, others, those, eq⟩ := h
    obtain rfl := some.inj eq
    intro trailer member
    obtain rfl | member := List.mem_cons.mp member
    · exact trim_parseTrailerLine this
    · exact ih those trailer member

lemma whole_trailer_iff : (reader P).whole
      ⟨.readingTrailingHeaders, [], some (chainAt v withTrailer signature)⟩ b = .ok (out, t) ↔
    ∃ (lines : List Bytes) (unread : Bytes), b = lines.flatMap (· ++ crlf) ++ (crlf ++ unread) ∧
      (∀ line ∈ lines, line ≠ [] ∧ IsLine line) ∧ lines.mapM reportedTrailer = some t ∧
      out = [] ∧ TrailerVerified P v withTrailer t := by
  rw [whole_trailing_iff]
  constructor
  · rintro ⟨lines, trailers, unread, rfl, isLines, parsed, rfl, rfl, verified⟩
    refine ⟨lines, unread, rfl, isLines, ?_, rfl, ?_⟩
    · rw [mapM_reportedTrailer, parsed]
      rfl
    · exact (finishTrailer_iff rfl rfl (trimmed_of_mapM parsed)).mp verified
  · rintro ⟨lines, unread, rfl, isLines, reported, rfl, verified⟩
    rw [mapM_reportedTrailer] at reported
    obtain ⟨trailers, parsed, rfl⟩ := map_eq_some_iff.mp reported
    refine ⟨lines, trailers, unread, rfl, isLines, parsed, rfl, rfl, ?_⟩
    exact (finishTrailer_iff rfl rfl (trimmed_of_mapM parsed)).mpr verified

lemma finishChunk_chainAt (v : ChunkVerifier) (withTrailer : Bool) (signature : Text)
    (data : Bytes) :
    finishChunk P ⟨v, withTrailer, data, signature, [], none⟩ =
      (v.verifyChunk P (hexSha256 P data) signature).map (chainAt · withTrailer signature) := rfl

variable {old : Text}

lemma whole_chunk {c : Chunk}
    (line : IsLine c.header) (nonempty : c.data ≠ []) (two : c.separator.length = 2)
    (parsed : parseChunkHeader c.header = .ok (c.data.length, some signature)) :
    (reader P).whole ⟨.readingHeader, ts, some (chainAt v withTrailer old)⟩
        (c.bytes ++ rest) =
      (v.verifyChunk P (hexSha256 P c.data) signature).elim (.error .signatureMismatch) fun w =>
        after c.data ((reader P).whole
          ⟨.readingHeader, ts, some (chainAt w withTrailer signature)⟩ rest) := by
  have size : c.data.length ≠ 0 := fun h => nonempty (List.length_eq_zero_iff.mp h)
  have bytes : c.bytes ++ rest = c.header ++ crlf ++ (c.data ++ (c.separator ++ rest)) := by
    simp [Chunk.bytes]
  have announced : announce P (chainAt v withTrailer old) c.data.length (some signature) =
      some (chainAt v withTrailer signature) := by
    simp [announce, size, chainAt]
  rw [bytes, whole_header line parsed, announced, elim_some, afterHeader,
    dif_neg size, whole_data (by simp), List.take_left, List.drop_left]
  simp only [chainAt, List.nil_append]
  rw [finishChunk_chainAt]
  cases v.verifyChunk P (hexSha256 P c.data) signature with
  | none => rfl
  | some w =>
    simp only [map_some, elim_some]
    rw [whole_separator two]
    rfl

lemma whole_final
    (hl : IsLine line) (parsed : parseChunkHeader line = .ok (0, some signature)) :
    (reader P).whole ⟨.readingHeader, ts, some (chainAt v withTrailer old)⟩
        (line ++ crlf ++ rest) =
      (v.verifyChunk P (hexSha256 P []) signature).elim (.error .signatureMismatch) fun w =>
        (reader P).whole
          ⟨.readingTrailingHeaders, ts, some (chainAt w withTrailer signature)⟩ rest := by
  have announced : announce P (chainAt v withTrailer old) 0 (some signature) =
      (v.verifyChunk P (hexSha256 P []) signature).map (chainAt · withTrailer signature) := rfl
  rw [whole_header hl parsed, announced]
  cases v.verifyChunk P (hexSha256 P []) signature <;> rfl

lemma exists_header_of_whole {result : Bytes × List (Text × Text)}
    (h : (reader P).whole ⟨.readingHeader, ts, some (chainAt v withTrailer old)⟩ b =
      .ok result) :
    (∃ line rest signature, b = line ++ crlf ++ rest ∧ IsLine line ∧
      parseChunkHeader line = .ok (0, some signature)) ∨
    ∃ c rest signature, b = Chunk.bytes c ++ rest ∧ IsLine c.header ∧ c.data ≠ [] ∧
      c.separator.length = 2 ∧ parseChunkHeader c.header = .ok (c.data.length, some signature) := by
  cases found : findCrlf b with
  | none =>
    rw [whole_no_line rfl (.inl rfl) found] at h
    cases h
  | some pos =>
    obtain ⟨line, rest, rfl, hl, -⟩ := exists_line_of_findCrlf found
    cases parsed : parseChunkHeader line with
    | error e =>
      rw [whole_bad_header hl parsed] at h
      cases h
    | ok p =>
      obtain ⟨size, signature⟩ := p
      rw [whole_header hl parsed] at h
      cases signature with
      | none => cases h
      | some signature =>
        by_cases zero : size = 0
        · subst zero
          exact .inl ⟨line, rest, signature, rfl, hl, parsed⟩
        · right
          have announced : announce P (chainAt v withTrailer old) size (some signature) =
              some (chainAt v withTrailer signature) := by
            simp [announce, zero, chainAt]
          rw [announced, elim_some, afterHeader, dif_neg zero] at h
          by_cases enough : size ≤ rest.length
          · rw [whole_data enough] at h
            have separated : 2 ≤ (rest.drop size).length := by
              apply not_lt.mp
              intro short
              cases hf : { chainAt v withTrailer signature with
                  hashed := (chainAt v withTrailer signature).hashed ++ rest.take size }.finishChunk P with
              | none => rw [hf] at h; cases h
              | some s' =>
                rw [hf, elim_some, whole_separator_short short] at h
                cases h
            refine ⟨⟨line, rest.take size, (rest.drop size).take 2⟩, (rest.drop size).drop 2,
              signature, ?_, hl, ?_, ?_, ?_⟩
            · simp [Chunk.bytes]
            · intro empty
              have none_left : (rest.take size).length = 0 := congrArg List.length empty
              rw [List.length_take] at none_left
              omega
            · simpa using separated
            · simpa [enough] using parsed
          · rw [whole_data_short (not_le.mp enough)] at h
            cases h

/-- The decoder accepts exactly the bodies with a verified layout. -/
lemma whole_iff_layout :
    (reader P).whole ⟨.readingHeader, [], some (chainAt v withTrailer old)⟩ b =
        .ok (out, t) ↔
      ∃ L : Layout, L.bytes = b ∧ L.data = out ∧ L.Verified P v withTrailer t := by
  constructor
  · intro h
    -- on the size of the body: each chunk leaves a shorter one
    induction len : b.length using Nat.strong_induction_on generalizing v old b out with
    | _ size ih =>
      obtain ⟨line, rest, signature, rfl, hl, parsed⟩ |
        ⟨c, rest, signature, rfl, hl, nonempty, two, parsed⟩ := exists_header_of_whole h
      · rw [whole_final hl parsed] at h
        cases verified : v.verifyChunk P (hexSha256 P []) signature with
        | none => rw [verified] at h; cases h
        | some w =>
          rw [verified] at h
          obtain ⟨lines, unread, rfl, isLines, reported, rfl, trailer⟩ := whole_trailer_iff.mp h
          exact ⟨⟨[], line, lines, unread⟩, rfl, rfl,
            ⟨v, w, .nil v, ⟨hl, signature, parsed, verified⟩, trailer⟩, isLines, reported⟩
      · rw [whole_chunk hl nonempty two parsed] at h
        cases verified : v.verifyChunk P (hexSha256 P c.data) signature with
        | none => rw [verified] at h; cases h
        | some w =>
          rw [verified] at h
          obtain ⟨more, rest_ok, rfl⟩ := after_eq_ok_iff.mp h
          have shorter : rest.length < size := by
            rw [← len]
            simp only [List.length_append, Chunk.bytes, crlf, List.length_cons]
            omega
          obtain ⟨L, rfl, rfl, good⟩ := ih rest.length shorter rest_ok rfl
          obtain ⟨x, u, chain, final, trailer⟩ := good.chain
          refine ⟨{ L with chunks := c :: L.chunks }, ?_, ?_, ?_⟩
          · exact Layout.bytes_cons ..
          · simp [Layout.data]
          · exact ⟨⟨x, u, .cons ⟨hl, nonempty, two, signature, parsed, verified⟩ chain, final,
              trailer⟩, good.lines, good.reported⟩
  · rintro ⟨⟨chunks, final, lines, unread⟩, rfl, rfl, ⟨w, u, chain, last, trailer⟩, isLines, reported⟩
    dsimp only at chain last isLines reported
    induction chain generalizing old with
    | nil v =>
      obtain ⟨hl, signature, parsed, verified⟩ := last
      simp only [Layout.bytes, Layout.data, List.flatMap_nil, List.nil_append]
      rw [whole_final hl parsed, verified, elim_some, whole_trailer_iff]
      exact ⟨lines, unread, rfl, isLines, reported, rfl, trailer⟩
    | cons signed chain ih =>
      obtain ⟨hl, nonempty, two, signature, parsed, verified⟩ := signed
      rw [Layout.bytes_cons, whole_chunk hl nonempty two parsed, verified, elim_some]
      exact congrArg (after _) (ih last)

end runs

/-- A layout without loose ends: every chunk is followed by CRLF, the body ends
with the blank line. -/
structure Layout.Strict (L : Layout) : Prop where
  separators : ∀ c ∈ L.chunks, c.separator = crlf
  unread : L.unread = []

def seed : ChunkVerifier := ⟨[], "20130524T000000Z".toList, "s3".toList, "seed".toList⟩

def chunkHeader (size signature : Text) : Bytes :=
  Text.toUtf8 (size ++ ";chunk-signature=".toList ++ signature)

/-- Other bytes in the place of the CRLF after the data, and a byte after the end. -/
def looseBody : Bytes :=
  let first := seed.expectedChunkSignature transparent (hexSha256 transparent [97])
  let last := ChunkVerifier.expectedChunkSignature transparent { seed with previousSignature := first }
    (hexSha256 transparent [])
  chunkHeader "1".toList first ++ crlf ++ [97] ++ [88, 88] ++
    (chunkHeader "0".toList last ++ crlf ++ crlf ++ [88])

end Arca.Body
