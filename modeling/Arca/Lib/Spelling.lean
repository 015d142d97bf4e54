import Arca.Lib.FormQuery

/-!
# Spellings of a form-encoded query

One list of pairs has many spellings.
-/
namespace FormQuery
open List Percent Text

section spelling
variable {lossy : Bytes → Text} (bs : Bytes)

def IsRaw : Prop := ∀ b ∈ bs, b.toNat < 128 ∧ b ≠ 38 ∧ b ≠ 61 ∧ b ≠ 35

lemma IsRaw.append {bs cs : Bytes} (hb : IsRaw bs) (hc : IsRaw cs) : IsRaw (bs ++ cs) := by
  intro b member
  obtain member | member := mem_append.mp member
  · exact hb b member
  · exact hc b member

lemma IsWord.isRaw {w : Text} (h : IsWord w) : IsRaw w.toUtf8 := by
  intro b member
  have plain := h.not_special b member
  refine ⟨?_, fun e => plain (by simp [IsSpecial, e]), fun e => plain (by simp [IsSpecial, e]),
    fun e => plain (by simp [IsSpecial, e])⟩
  induction w with
  | nil => simp at member
  | cons c w ih =>
    obtain ⟨⟨ascii, -⟩, rest⟩ := isWord_cons.mp h
    rw [toUtf8_cons_of_ascii ascii] at member
    obtain rfl | member := mem_cons.mp member
    · exact UInt8.lt_iff_toNat_lt.mp (asciiByte_lt ascii)
    · exact ih rest member

def escapeAll : Bytes := encode (fun _ => false) bs

lemma mem_escapeAll {bs : Bytes} {b : UInt8} (h : b ∈ escapeAll bs) :
    b.toNat < 97 ∧ b ≠ 38 ∧ b ≠ 61 ∧ b ≠ 35 ∧ b ≠ 43 := by
  have digits : ∀ n : Fin 16, (hexUpper n).toNat < 97 ∧ hexUpper n ≠ 38 ∧
      hexUpper n ≠ 61 ∧ hexUpper n ≠ 35 ∧ hexUpper n ≠ 43 := by decide
  obtain ⟨absurd, -⟩ | rfl | ⟨n, small, rfl⟩ := mem_encode h
  · cases absurd
  · decide
  · exact digits ⟨n, small⟩

lemma isRaw_escapeAll : IsRaw (escapeAll bs) := by
  intro b member
  obtain ⟨small, amp, equals, hash, -⟩ := mem_escapeAll member
  exact ⟨by omega, amp, equals, hash⟩

lemma plusToBlank_append (bs cs : Bytes) : plusToBlank (bs ++ cs) = plusToBlank bs ++ plusToBlank cs :=
  map_append

lemma plusToBlank_escapeAll : plusToBlank (escapeAll bs) = escapeAll bs := by
  conv_rhs => rw [← map_id (escapeAll bs)]
  apply map_congr_left
  intro b member
  exact if_neg (mem_escapeAll member).2.2.2.2

lemma decode_escapeAll_append (bs rest : Bytes) :
    decode (escapeAll bs ++ rest) = bs ++ decode rest :=
  decode_encode_append rfl bs rest

lemma decode_escapeAll : decode (escapeAll bs) = bs := decode_encode rfl bs

lemma text_escapeAll (L : Lossy lossy) (t : Text) : text lossy (escapeAll t.toUtf8) = t := by
  rw [text, plusToBlank_escapeAll, decode_escapeAll, L.exact]

/-- A word that some spelling of a text contains: the text contains it, or its tail
stands behind bytes of which the last ends in the word's first character. -/
def Spelled (lossy : Bytes → Text) (w t : Text) : Prop :=
  w <:+: t ∨ ∃ c rest, w = c :: rest ∧ ∃ bs x, hexValue (asciiByte c) = some (x.toNat % 16) ∧
    lossy (bs ++ [x]) ++ rest <+: t

lemma spelled_of_infix (L : Lossy lossy) {c d : Char} {w : Text} (h : IsWord (c :: d :: w))
    (digit : hexValue (asciiByte c) = none ∨ hexValue (asciiByte d) = none)
    {raw : Bytes} (inside : toUtf8 (c :: d :: w) <:+: raw) :
    Spelled lossy (c :: d :: w) (text lossy raw) := by
  obtain ⟨left, right, rfl⟩ := inside
  rw [append_assoc]
  obtain digit | digit := digit
  · rw [text_append_word L h digit]
    exact .inl ⟨text lossy left, text lossy right, by simp⟩
  · obtain ⟨⟨ascii, percent, plus, -⟩, tail⟩ := isWord_cons.mp h
    have shape : left ++ (toUtf8 (c :: d :: w) ++ right) =
        (left ++ [asciiByte c]) ++ (toUtf8 (d :: w) ++ right) := by
      rw [toUtf8_cons_of_ascii ascii]
      simp
    have ne : asciiByte c ≠ 37 := asciiByte_ne ascii (by decide) percent
    have blank : plusToBlank (left ++ [asciiByte c]) = plusToBlank left ++ [asciiByte c] := by
      have no_plus : asciiByte c ≠ 43 := asciiByte_ne ascii (by decide) plus
      simp [plusToBlank, no_plus]
    rw [shape, text_append_word L tail digit, text, blank]
    obtain kept | ⟨bs, x, eq, value⟩ := decode_concat ne (plusToBlank left)
    · rw [kept, L.ascii _ _ c ascii, L.nil]
      exact .inl ⟨text lossy left, text lossy right, by simp [text]⟩
    · rw [eq]
      exact .inr ⟨c, d :: w, rfl, bs, x, value, text lossy right, by simp⟩

lemma exists_spelling (L : Lossy lossy) {c d : Char} {w t : Text} (h : IsWord (c :: d :: w))
    (spelled : Spelled lossy (c :: d :: w) t) :
    ∃ raw, IsRaw raw ∧ text lossy raw = t ∧ toUtf8 (c :: d :: w) <:+: raw := by
  obtain ⟨left, right, rfl⟩ | ⟨c', rest, eq, bs, x, value, right, rfl⟩ := spelled
  · refine ⟨escapeAll (toUtf8 left) ++ (toUtf8 (c :: d :: w) ++ escapeAll (toUtf8 right)),
      ?_, ?_, escapeAll (toUtf8 left), escapeAll (toUtf8 right), append_assoc ..⟩
    · exact (isRaw_escapeAll _).append (h.isRaw.append (isRaw_escapeAll _))
    · rw [text, plusToBlank_append, plusToBlank_append, plusToBlank_escapeAll, plusToBlank_escapeAll,
        plusToBlank_word h, decode_escapeAll_append, decode_word_append h, decode_escapeAll,
        ← toUtf8_append, ← toUtf8_append, L.exact, append_assoc]
  · obtain ⟨rfl, rfl⟩ := cons.inj eq
    obtain ⟨⟨ascii, percent, plus, amp, equals, hash⟩, tail⟩ := isWord_cons.mp h
    obtain ⟨⟨asciiTail, -⟩, tailRest⟩ := isWord_cons.mp tail
    -- the first character is the second digit of the escape of `x`
    let escape : Bytes := [37, hexUpper (x.toNat / 16), asciiByte c]
    have esc := escaped_of_low value
    have member : hexUpper (x.toNat / 16) ∈ escapeAll [x] := by simp [escapeAll, encode]
    obtain ⟨small, noAmp, noEquals, noHash, noPlus⟩ := mem_escapeAll member
    have rawEscape : IsRaw escape := by
      intro b member
      simp only [escape, mem_cons, not_mem_nil, or_false] at member
      obtain rfl | rfl | rfl := member
      · decide
      · exact ⟨by omega, noAmp, noEquals, noHash⟩
      · exact ⟨UInt8.lt_iff_toNat_lt.mp (asciiByte_lt ascii), asciiByte_ne ascii (by decide) amp,
          asciiByte_ne ascii (by decide) equals, asciiByte_ne ascii (by decide) hash⟩
    have blank : plusToBlank escape = escape := by
      have low : asciiByte c ≠ 43 := asciiByte_ne ascii (by decide) plus
      simp [plusToBlank, escape, noPlus, low]
    refine ⟨escapeAll bs ++ (escape ++ (toUtf8 (d :: w) ++ escapeAll (toUtf8 right))), ?_, ?_, ?_⟩
    · exact (isRaw_escapeAll _).append (rawEscape.append (tail.isRaw.append (isRaw_escapeAll _)))
    · rw [text, plusToBlank_append, plusToBlank_append, plusToBlank_append, plusToBlank_escapeAll,
        plusToBlank_escapeAll, plusToBlank_word tail, blank, decode_escapeAll_append]
      simp only [escape, cons_append, nil_append]
      rw [decode_escape esc, decode_word_append tail, decode_escapeAll, toUtf8_cons_of_ascii asciiTail,
        cons_append, ← singleton_append, ← append_assoc, L.ascii _ _ d asciiTail,
        L.word_append tailRest, L.exact]
      simp
    · rw [toUtf8_cons_of_ascii ascii]
      exact ⟨escapeAll bs ++ [37, hexUpper (x.toNat / 16)], escapeAll (toUtf8 right),
        by simp [escape]⟩

end spelling

section writing
variable {lossy : Bytes → Text} {pieces : List (Bytes × Bytes)} {pairs : List (Text × Text)}

def write (pieces : List (Bytes × Bytes)) : Bytes :=
  List.intercalate [38] (pieces.map fun p => p.1 ++ 61 :: p.2)

def IsRawPieces (pieces : List (Bytes × Bytes)) : Prop := ∀ p ∈ pieces, IsRaw p.1 ∧ IsRaw p.2

lemma parse_write (raw : IsRawPieces pieces) :
    parse lossy (write pieces) = pieces.map fun p => (text lossy p.1, text lossy p.2) := by
  cases pieces with
  | nil => rfl
  | cons first rest =>
    have amp : ∀ piece ∈ (first :: rest).map (fun p => p.1 ++ 61 :: p.2), 38 ∉ piece := by
      intro piece member
      obtain ⟨p, hp, rfl⟩ := mem_map.mp member
      intro inside
      obtain inKey | inValue := mem_append.mp inside
      · exact ((raw p hp).1 38 inKey).2.1 rfl
      · obtain absurd | inValue := mem_cons.mp inValue
        · cases absurd
        · exact ((raw p hp).2 38 inValue).2.1 rfl
    have split := splitOn_intercalate 38 amp (by simp)
    rw [parse, write, split, filter_eq_self.mpr, map_map]
    · apply map_congr_left
      intro p hp
      exact pair_write lossy (fun inside => ((raw p hp).1 61 inside).2.2.1 rfl) p.2
    · intro piece member
      obtain ⟨p, -, rfl⟩ := mem_map.mp member
      simp

lemma parse_amp_cons (query : Bytes) : parse lossy (38 :: query) = parse lossy query := by
  have split : (38 :: query).splitOn 38 = [] :: query.splitOn 38 :=
    splitOn_append_cons [] query
  simp [parse, split]

lemma write_cons_cons (first next : Bytes × Bytes) (rest : List (Bytes × Bytes)) :
    write (first :: next :: rest) = (first.1 ++ 61 :: first.2) ++ 38 :: write (next :: rest) := by
  simp only [write, map_cons, intercalate_cons_cons, append_assoc, singleton_append]

lemma mem_write {b : UInt8} (h : b ∈ write pieces) :
    b = 38 ∨ b = 61 ∨ ∃ p ∈ pieces, b ∈ p.1 ∨ b ∈ p.2 := by
  induction pieces with
  | nil => simp [write] at h
  | cons first rest ih =>
    have here : b ∈ first.1 ++ 61 :: first.2 → b = 38 ∨ b = 61 ∨ ∃ p ∈ first :: rest, b ∈ p.1 ∨ b ∈ p.2 := by
      intro member
      obtain inKey | rest := mem_append.mp member
      · exact .inr (.inr ⟨first, by simp, .inl inKey⟩)
      · obtain rfl | inValue := mem_cons.mp rest
        · exact .inr (.inl rfl)
        · exact .inr (.inr ⟨first, by simp, .inr inValue⟩)
    cases rest with
    | nil => exact here (by simpa [write] using h)
    | cons next rest =>
      rw [write_cons_cons, mem_append, mem_cons] at h
      obtain inFirst | rfl | later := h
      · exact here inFirst
      · exact .inl rfl
      · obtain amp | equals | ⟨p, member, inside⟩ := ih later
        · exact .inl amp
        · exact .inr (.inl equals)
        · exact .inr (.inr ⟨p, mem_cons_of_mem _ member, inside⟩)

lemma infix_write {p : Bytes × Bytes} (member : p ∈ pieces) : p.1 ++ 61 :: p.2 <:+: write pieces := by
  induction pieces with
  | nil => simp at member
  | cons first rest ih =>
    cases rest with
    | nil =>
      obtain rfl := mem_singleton.mp member
      simp [write]
    | cons next rest =>
      rw [write_cons_cons]
      obtain rfl | later := mem_cons.mp member
      · exact (prefix_append _ _).isInfix
      · exact (ih later).trans ⟨(first.1 ++ 61 :: first.2) ++ [38], [], by simp⟩

lemma prefix_write (p : Bytes × Bytes) (rest : List (Bytes × Bytes)) : p.1 <+: write (p :: rest) := by
  cases rest with
  | nil => exact ⟨61 :: p.2, by simp [write]⟩
  | cons next rest => exact ⟨61 :: p.2 ++ 38 :: write (next :: rest), by simp [write_cons_cons]⟩

end writing

section probes
variable {lossy : Bytes → Text} {w q : Text} {pairs : List (Text × Text)} {pieces : List (Bytes × Bytes)}

/-- A word with a small letter: where everything is escaped there is none. -/
def IsSmallWord (w : Text) : Prop := IsWord w ∧ (w.any fun x => 97 ≤ x.toNat) = true

instance : DecidablePred IsSmallWord := fun _ => inferInstanceAs (Decidable (_ ∧ _))

/-- Such a word of which one of the first two characters is no digit of an escape. -/
def IsProbe : Text → Prop
  | c :: d :: w => IsSmallWord (c :: d :: w) ∧
      (hexValue (asciiByte c) = none ∨ hexValue (asciiByte d) = none)
  | _ => False

instance : DecidablePred IsProbe
  | [] => isFalse id
  | [_] => isFalse id
  | _ :: _ :: _ => inferInstanceAs (Decidable (_ ∧ _))

lemma IsProbe.cases (probe : IsProbe w) : ∃ c d rest, w = c :: d :: rest ∧ IsSmallWord w ∧
    (hexValue (asciiByte c) = none ∨ hexValue (asciiByte d) = none) := by
  match w, probe with
  | c :: d :: rest, probe => exact ⟨c, d, rest, rfl, probe⟩

lemma IsProbe.isSmallWord (probe : IsProbe w) : IsSmallWord w := by
  obtain ⟨_, _, _, _, word, _⟩ := probe.cases
  exact word

lemma IsSmallWord.ne_nil (word : IsSmallWord w) : w ≠ [] := by
  obtain ⟨-, letter⟩ := word
  obtain ⟨x, member, -⟩ := any_eq_true.mp letter
  exact ne_nil_of_mem member

lemma toUtf8_ne_nil (h : w ≠ []) : w.toUtf8 ≠ [] := by
  intro empty
  exact h (toUtf8_injective empty)

lemma infix_toUtf8 (h : w <:+: q) : w.toUtf8 <:+: q.toUtf8 := by
  obtain ⟨left, right, rfl⟩ := h
  exact ⟨toUtf8 left, toUtf8 right, by simp⟩

lemma prefix_toUtf8 (h : w <+: q) : w.toUtf8 <+: q.toUtf8 := by
  obtain ⟨right, rfl⟩ := h
  exact ⟨toUtf8 right, by simp⟩

/-- A query that contains a word has a key or a value that can be spelled with it. -/
lemma spelled_of_contains (L : Lossy lossy) (probe : IsProbe w) (h : w <:+: q) :
    ∃ p ∈ parse lossy q.toUtf8, Spelled lossy w p.1 ∨ Spelled lossy w p.2 := by
  obtain ⟨c, d, rest, rfl, ⟨word, -⟩, digit⟩ := probe.cases
  have plain := word.not_special
  obtain ⟨raw, inside, p, member, read⟩ := exists_text_of_infix lossy (toUtf8_ne_nil (by simp))
    (fun h => plain 38 h (by simp [IsSpecial])) (fun h => plain 61 h (by simp [IsSpecial])) (infix_toUtf8 h)
  have spelled := spelled_of_infix L word digit inside
  obtain read | read := read
  · exact ⟨p, member, .inl (read ▸ spelled)⟩
  · exact ⟨p, member, .inr (read ▸ spelled)⟩

lemma key_of_piece (L : Lossy lossy) (word : IsSmallWord w) {piece : Bytes}
    (member : piece ∈ q.toUtf8.splitOn 38) (start : w.toUtf8 <+: piece) :
    ∃ p ∈ parse lossy q.toUtf8, w <+: p.1 := by
  obtain ⟨rest, p, member, read⟩ := exists_key_of_prefix lossy (toUtf8_ne_nil word.ne_nil)
    (fun h => word.1.not_special 61 h (by simp [IsSpecial])) member start
  exact ⟨p, member, text lossy rest, by rw [read, text_word_append L word.1]⟩

lemma key_of_prefix (L : Lossy lossy) (word : IsSmallWord w) (h : w <+: q) :
    ∃ p ∈ parse lossy q.toUtf8, w <+: p.1 := by
  obtain ⟨piece, member, start⟩ := exists_piece_of_prefix (c := 38)
    (fun h => word.1.not_special 38 h (by simp [IsSpecial])) (prefix_toUtf8 h)
  exact key_of_piece L word member start

lemma key_of_amp (L : Lossy lossy) (word : IsSmallWord w) (h : '&' :: w <:+: q) :
    ∃ p ∈ parse lossy q.toUtf8, w <+: p.1 := by
  have inside := infix_toUtf8 h
  obtain ⟨piece, member, start⟩ := exists_piece_of_infix_cons
    (fun h => word.1.not_special 38 h (by simp [IsSpecial])) inside
  exact key_of_piece L word member start

/-! The other way round: queries of given pairs. -/

lemma ascii_of_mem_write (raw : IsRawPieces pieces) {b : UInt8} (h : b ∈ write pieces) :
    b.toNat < 128 ∧ b ≠ 35 := by
  obtain rfl | rfl | ⟨p, member, inside | inside⟩ := mem_write h
  · decide
  · decide
  · have := (raw p member).1 b inside
    exact ⟨this.1, this.2.2.2⟩
  · have := (raw p member).2 b inside
    exact ⟨this.1, this.2.2.2⟩

def writeText (pieces : List (Bytes × Bytes)) : Text := asciiText (write pieces)

lemma toUtf8_writeText (raw : IsRawPieces pieces) : (writeText pieces).toUtf8 = write pieces :=
  toUtf8_asciiText fun _ h => (ascii_of_mem_write raw h).1

lemma hash_notMem_writeText (raw : IsRawPieces pieces) : '#' ∉ writeText pieces := by
  rw [← mem_toUtf8_iff (by decide), toUtf8_writeText raw]
  intro h
  exact (ascii_of_mem_write raw h).2 rfl

lemma asciiText_toUtf8 (word : IsWord w) : asciiText w.toUtf8 = w := by
  apply toUtf8_injective
  exact toUtf8_asciiText fun b h => (word.isRaw b h).1

lemma infix_writeText (word : IsWord w) (h : w.toUtf8 <:+: write pieces) : w <:+: writeText pieces := by
  rw [← asciiText_toUtf8 word]
  exact h.map _

lemma prefix_writeText (word : IsWord w) (h : w.toUtf8 <+: write pieces) : w <+: writeText pieces := by
  rw [← asciiText_toUtf8 word]
  exact h.map _

def escapePair (p : Text × Text) : Bytes × Bytes := (escapeAll p.1.toUtf8, escapeAll p.2.toUtf8)

lemma isRaw_escapePairs : IsRawPieces (pairs.map escapePair) := by
  intro p member
  obtain ⟨_, -, rfl⟩ := mem_map.mp member
  exact ⟨isRaw_escapeAll _, isRaw_escapeAll _⟩

lemma text_escapePairs (L : Lossy lossy) :
    ((pairs.map escapePair).map fun p => (text lossy p.1, text lossy p.2)) = pairs := by
  rw [map_map]
  conv_rhs => rw [← map_id pairs]
  apply map_congr_left
  intro p _
  exact Prod.ext (text_escapeAll L p.1) (text_escapeAll L p.2)

lemma exists_escaped (L : Lossy lossy) (pairs : List (Text × Text)) :
    ∃ q : Text, '#' ∉ q ∧ parse lossy q.toUtf8 = pairs ∧ ∀ w, IsSmallWord w → ¬ w <:+: q := by
  refine ⟨writeText (pairs.map escapePair), hash_notMem_writeText isRaw_escapePairs, ?_, ?_⟩
  · rw [toUtf8_writeText isRaw_escapePairs, parse_write isRaw_escapePairs, text_escapePairs L]
  · rintro w ⟨word, letter⟩ inside
    obtain ⟨x, letter, small⟩ := any_eq_true.mp letter
    have small : 97 ≤ x.toNat := of_decide_eq_true small
    have ascii : x.toNat < 128 := by
      have := all_eq_true.mp word x letter
      simp only [Bool.and_eq_true, decide_eq_true_eq] at this
      omega
    have member : asciiByte x ∈ write (pairs.map escapePair) := by
      rw [← toUtf8_writeText isRaw_escapePairs, mem_toUtf8_iff ascii]
      exact inside.subset letter
    have value : (asciiByte x).toNat = x.toNat := toNat_byte (by omega)
    have bound : (asciiByte x).toNat < 97 := by
      obtain e | e | ⟨p, hp, inside | inside⟩ := mem_write member
      · rw [e]; decide
      · rw [e]; decide
      all_goals
        obtain ⟨_, -, rfl⟩ := mem_map.mp hp
        exact (mem_escapeAll inside).1
    omega

variable {p : Text × Text}

/-- A query of given pairs that contains a word which is spelled in one of them. -/
lemma exists_containing (L : Lossy lossy) (probe : IsProbe w) (member : p ∈ pairs)
    (spelled : Spelled lossy w p.1 ∨ Spelled lossy w p.2) :
    ∃ q : Text, '#' ∉ q ∧ parse lossy q.toUtf8 = pairs ∧ w <:+: q := by
  obtain ⟨left, right, rfl⟩ := append_of_mem member
  obtain ⟨piece, raw, read, inside⟩ : ∃ piece : Bytes × Bytes, (IsRaw piece.1 ∧ IsRaw piece.2) ∧
      (text lossy piece.1, text lossy piece.2) = p ∧ w.toUtf8 <:+: piece.1 ++ 61 :: piece.2 := by
    obtain ⟨c, d, rest, rfl, ⟨word, -⟩, -⟩ := probe.cases
    obtain spelled | spelled := spelled
    · obtain ⟨key, raw, read, inside⟩ := exists_spelling L word spelled
      exact ⟨(key, escapeAll p.2.toUtf8), ⟨raw, isRaw_escapeAll _⟩, Prod.ext read (text_escapeAll L _),
        inside.trans (prefix_append _ _).isInfix⟩
    · obtain ⟨value, raw, read, inside⟩ := exists_spelling L word spelled
      exact ⟨(escapeAll p.1.toUtf8, value), ⟨isRaw_escapeAll _, raw⟩, Prod.ext (text_escapeAll L _) read,
        inside.trans ⟨escapeAll p.1.toUtf8 ++ [61], [], by simp⟩⟩
  let pieces := left.map escapePair ++ piece :: right.map escapePair
  have rawPieces : IsRawPieces pieces := by
    intro p member
    obtain member | member := mem_append.mp member
    · exact isRaw_escapePairs p member
    · obtain rfl | member := mem_cons.mp member
      · exact raw
      · exact isRaw_escapePairs p member
  refine ⟨writeText pieces, hash_notMem_writeText rawPieces, ?_, ?_⟩
  · rw [toUtf8_writeText rawPieces, parse_write rawPieces]
    rw [map_append, map_cons, text_escapePairs L, text_escapePairs L, read]
  · exact infix_writeText probe.isSmallWord.1 (inside.trans (infix_write (by simp [pieces])))

/-- A query of given pairs, in another order, that begins as one of the keys does. -/
lemma exists_starting (L : Lossy lossy) (word : IsWord w) (member : p ∈ pairs)
    (start : w <+: p.1) : ∃ q : Text, '#' ∉ q ∧ (parse lossy q.toUtf8).Perm pairs ∧ w <+: q := by
  obtain ⟨left, right, rfl⟩ := append_of_mem member
  obtain ⟨rest, key⟩ := start
  let piece : Bytes × Bytes := (w.toUtf8 ++ escapeAll (toUtf8 rest), escapeAll p.2.toUtf8)
  have read : (text lossy piece.1, text lossy piece.2) = p := by
    apply Prod.ext
    · simp only [piece]
      rw [text_word_append L word, text_escapeAll L, key]
    · exact text_escapeAll L p.2
  let pieces := piece :: (left ++ right).map escapePair
  have rawPieces : IsRawPieces pieces := by
    intro p member
    obtain rfl | member := mem_cons.mp member
    · exact ⟨word.isRaw.append (isRaw_escapeAll _), isRaw_escapeAll _⟩
    · exact isRaw_escapePairs p member
  refine ⟨writeText pieces, hash_notMem_writeText rawPieces, ?_, ?_⟩
  · rw [toUtf8_writeText rawPieces, parse_write rawPieces]
    rw [map_cons, text_escapePairs L, read]
    exact perm_middle.symm
  · exact prefix_writeText word ((prefix_append _ _).trans (prefix_write piece _))

end probes

end FormQuery
