import Arca.Lib.Percent

/-!
# Form-encoded queries

A query is cut at `&`, empty pieces are dropped, and each piece is cut at its first
`=`. The decoder of the resulting bytes replaces what is not UTF-8; it is a parameter
with two laws.
-/
namespace FormQuery
open List

/-- A decoder that is exact on UTF-8 and keeps ASCII bytes in their places. -/
structure Lossy (lossy : Bytes → Text) : Prop where
  exact : ∀ t : Text, lossy t.toUtf8 = t
  ascii : ∀ (left right : Bytes) (c : Char), c.toNat < 128 →
    lossy (left ++ Text.asciiByte c :: right) = lossy left ++ c :: lossy right

def plusToBlank (bs : Bytes) : Bytes := bs.map fun b => if b = 43 then 32 else b

section form
variable (lossy : Bytes → Text)

def text (bs : Bytes) : Text := lossy (Percent.decode (plusToBlank bs))

def pair (piece : Bytes) : Text × Text :=
  (text lossy (piece.takeWhile (· != 61)), text lossy (piece.dropWhile (· != 61)).tail)

def parse (query : Bytes) : List (Text × Text) :=
  ((query.splitOn 38).filter (· ≠ [])).map (pair lossy)

end form

def IsWord (w : Text) : Prop :=
  (w.all fun c => c.toNat < 128 && c != '%' && c != '+' && c != '&' && c != '=' && c != '#') = true

instance : DecidablePred IsWord := fun _ => inferInstanceAs (Decidable (_ = _))

/-- The bytes that structure a query or stand for others. -/
def IsSpecial (b : UInt8) : Prop := b = 37 ∨ b = 43 ∨ b = 38 ∨ b = 61 ∨ b = 35

section words
variable {lossy : Bytes → Text} {w : Text} {c : Char}

lemma isWord_cons : IsWord (c :: w) ↔
    (c.toNat < 128 ∧ c ≠ '%' ∧ c ≠ '+' ∧ c ≠ '&' ∧ c ≠ '=' ∧ c ≠ '#') ∧ IsWord w := by
  simp [IsWord, and_assoc]

lemma toUtf8_cons_of_ascii (ascii : c.toNat < 128) :
    Text.toUtf8 (c :: w) = Text.asciiByte c :: w.toUtf8 := by
  rw [show Text.toUtf8 (c :: w) = String.utf8EncodeChar c ++ w.toUtf8 from flatMap_cons ..,
    Text.utf8EncodeChar_of_ascii ascii]
  rfl

lemma asciiByte_ne {d : Char} (hc : c.toNat < 128) (hd : d.toNat < 128) (ne : c ≠ d) :
    Text.asciiByte c ≠ Text.asciiByte d := by
  intro h
  have := congrArg UInt8.toNat h
  rw [Text.asciiByte, Text.asciiByte, Text.toNat_byte (by omega), Text.toNat_byte (by omega)] at this
  exact ne (Char.toNat_inj.mp this)

lemma IsWord.not_special (h : IsWord w) : ∀ b ∈ w.toUtf8, ¬ IsSpecial b := by
  induction w with
  | nil => simp
  | cons c w ih =>
    obtain ⟨⟨ascii, percent, plus, amp, equals, hash⟩, rest⟩ := isWord_cons.mp h
    rw [toUtf8_cons_of_ascii ascii]
    intro b member
    obtain rfl | member := mem_cons.mp member
    · rintro (e | e | e | e | e)
      · exact asciiByte_ne ascii (by decide) percent e
      · exact asciiByte_ne ascii (by decide) plus e
      · exact asciiByte_ne ascii (by decide) amp e
      · exact asciiByte_ne ascii (by decide) equals e
      · exact asciiByte_ne ascii (by decide) hash e
    · exact ih rest b member

lemma Lossy.nil (L : Lossy lossy) : lossy [] = [] := L.exact []

lemma Lossy.word_append (L : Lossy lossy) (h : IsWord w) (right : Bytes) :
    lossy (w.toUtf8 ++ right) = w ++ lossy right := by
  induction w with
  | nil => rfl
  | cons c w ih =>
    obtain ⟨⟨ascii, -⟩, rest⟩ := isWord_cons.mp h
    have step := L.ascii [] (Text.toUtf8 w ++ right) c ascii
    rw [L.nil, ih rest] at step
    rw [toUtf8_cons_of_ascii ascii]
    exact step

lemma decode_word_append (h : IsWord w) (right : Bytes) :
    Percent.decode (w.toUtf8 ++ right) = w.toUtf8 ++ Percent.decode right := by
  have plain : ∀ bs : Bytes, 37 ∉ bs → Percent.decode (bs ++ right) = bs ++ Percent.decode right := by
    intro bs
    induction bs with
    | nil => simp
    | cons b bs ih =>
      intro free
      rw [cons_append, Percent.decode_cons_of_ne fun e => free (by simp [e]),
        ih fun member => free (by simp [member])]
      rfl
  exact plain _ fun member => h.not_special 37 member (.inl rfl)

lemma plusToBlank_word (h : IsWord w) : plusToBlank w.toUtf8 = w.toUtf8 := by
  conv_rhs => rw [← map_id w.toUtf8]
  apply map_congr_left
  intro b member
  exact if_neg fun e => h.not_special b member (.inr (.inl e))

lemma text_word_append (L : Lossy lossy) (h : IsWord w) (right : Bytes) :
    text lossy (w.toUtf8 ++ right) = w ++ text lossy right := by
  rw [text, plusToBlank, map_append, ← plusToBlank, plusToBlank_word h, decode_word_append h,
    L.word_append h]
  rfl

/-- A word whose first character is no hexadecimal digit is read as it is written,
whatever stands before it. -/
lemma text_append_word (L : Lossy lossy) (h : IsWord (c :: w))
    (digit : Percent.hexValue (Text.asciiByte c) = none) (left right : Bytes) :
    text lossy (left ++ (Text.toUtf8 (c :: w) ++ right)) =
      text lossy left ++ (c :: w ++ text lossy right) := by
  obtain ⟨⟨ascii, percent, -⟩, rest⟩ := isWord_cons.mp h
  have blank : plusToBlank (left ++ (Text.toUtf8 (c :: w) ++ right)) =
      plusToBlank left ++ (Text.toUtf8 (c :: w) ++ plusToBlank right) := by
    simp only [plusToBlank, map_append]
    rw [← plusToBlank, ← plusToBlank, plusToBlank_word h]
  have ne : Text.asciiByte c ≠ 37 := asciiByte_ne ascii (by decide) percent
  rw [text, blank, toUtf8_cons_of_ascii ascii, cons_append, Percent.decode_append_cons ne digit,
    decode_word_append rest, L.ascii _ _ c ascii, L.word_append rest]
  rfl

end words

section pieces
variable {α : Type} {c : α} {w x y q : List α}

/-- A word without the separator lies on one side of it. -/
lemma infix_append_cons (free : c ∉ w) (h : w <:+: x ++ c :: y) : w <:+: x ∨ w <:+: y := by
  obtain inLeft | inRight | ⟨u, v, rfl, left, right⟩ := infix_append_iff.mp h
  · exact .inl inLeft
  · obtain start | later := infix_cons_iff.mp inRight
    · cases w with
      | nil => exact .inl nil_infix
      | cons d w =>
        obtain ⟨rfl, -⟩ := cons_prefix_cons.mp start
        simp at free
    · exact .inr later
  · cases v with
    | nil => exact .inl (by simpa using left.isInfix)
    | cons d v =>
      obtain ⟨rfl, -⟩ := cons_prefix_cons.mp right
      simp at free

lemma exists_of_infix_intercalate {pieces : List (List α)} (free : c ∉ w) (nonempty : pieces ≠ [])
    (h : w <:+: [c].intercalate pieces) : ∃ piece ∈ pieces, w <:+: piece := by
  induction pieces with
  | nil => exact absurd rfl nonempty
  | cons piece pieces ih =>
    cases pieces with
    | nil => exact ⟨piece, by simp, by simpa using h⟩
    | cons next pieces =>
      obtain here | later := infix_append_cons free h
      · exact ⟨piece, by simp, here⟩
      · obtain ⟨found, member, inside⟩ := ih (by simp) later
        exact ⟨found, mem_cons_of_mem _ member, inside⟩

variable [DecidableEq α]

lemma exists_piece_of_infix (free : c ∉ w) (h : w <:+: q) : ∃ piece ∈ q.splitOn c, w <:+: piece := by
  apply exists_of_infix_intercalate free
  · exact splitOnP_ne_nil _ _
  · rwa [intercalate_splitOn]

lemma splitOn_append_cons (x y : List α) : (x ++ c :: y).splitOn c = x.splitOn c ++ y.splitOn c :=
  splitOnP_append_cons x y (by simp)

lemma splitOn_of_free (free : c ∉ q) : q.splitOn c = [q] := by
  have whole : ([c].intercalate [q]).splitOn c = [q] :=
    splitOn_intercalate c (by simpa using free) (by simp)
  simpa using whole

lemma exists_piece_of_prefix (free : c ∉ w) (h : w <+: q) : ∃ piece ∈ q.splitOn c, w <+: piece := by
  by_cases cut : c ∈ q
  · obtain ⟨x, y, rfl, first⟩ := eq_append_cons_of_mem cut
    refine ⟨x, by rw [splitOn_append_cons, splitOn_of_free first]; simp, ?_⟩
    obtain short | ⟨z, rfl⟩ := prefix_or_prefix_of_prefix h (prefix_append x _)
    · exact short
    · cases z with
      | nil => simp
      | cons d z =>
        obtain ⟨rfl, -⟩ := cons_prefix_cons.mp ((prefix_append_right_inj x).mp h)
        simp at free
  · exact ⟨q, by rw [splitOn_of_free cut]; simp, h⟩

lemma exists_piece_of_infix_cons (free : c ∉ w) (h : c :: w <:+: q) :
    ∃ piece ∈ q.splitOn c, w <+: piece := by
  obtain ⟨x, y, rfl⟩ := h
  rw [append_assoc, cons_append, splitOn_append_cons]
  obtain ⟨piece, member, start⟩ := exists_piece_of_prefix free (prefix_append w y)
  exact ⟨piece, mem_append_right _ member, start⟩

end pieces

section reading
variable (lossy : Bytes → Text) {w query : Bytes}

lemma mem_parse {piece : Bytes} (member : piece ∈ query.splitOn 38) (nonempty : piece ≠ []) :
    pair lossy piece ∈ parse lossy query :=
  mem_map_of_mem (mem_filter.mpr ⟨member, by simpa using nonempty⟩)

lemma pair_write {key : Bytes} (free : 61 ∉ key) (value : Bytes) :
    pair lossy (key ++ 61 :: value) = (text lossy key, text lossy value) := by
  have keep : ∀ b ∈ key, (b != 61) = true := by
    intro b member
    simpa using fun e : b = 61 => free (e ▸ member)
  rw [pair, takeWhile_append_of_pos keep, dropWhile_append_of_pos keep]
  simp

lemma pair_cases (piece : Bytes) :
    (61 ∉ piece ∧ pair lossy piece = (text lossy piece, text lossy [])) ∨
      ∃ key value, piece = key ++ 61 :: value ∧ 61 ∉ key ∧
        pair lossy piece = (text lossy key, text lossy value) := by
  by_cases cut : 61 ∈ piece
  · obtain ⟨key, value, rfl, free⟩ := eq_append_cons_of_mem cut
    exact .inr ⟨key, value, rfl, free, pair_write lossy free value⟩
  · have keep : ∀ b ∈ piece, (b != 61) = true := by
      intro b member
      simpa using fun e : b = 61 => cut (e ▸ member)
    refine .inl ⟨cut, ?_⟩
    rw [pair, takeWhile_eq_self_iff.mpr keep, dropWhile_eq_nil_iff.mpr keep]
    rfl

/-- A word of a query is written in one of its keys or values. -/
lemma exists_text_of_infix (nonempty : w ≠ []) (amp : 38 ∉ w) (equals : 61 ∉ w) (h : w <:+: query) :
    ∃ raw, w <:+: raw ∧ ∃ p ∈ parse lossy query, text lossy raw = p.1 ∨ text lossy raw = p.2 := by
  obtain ⟨piece, member, inside⟩ := exists_piece_of_infix amp h
  have piece_ne : piece ≠ [] := by
    rintro rfl
    exact nonempty (infix_nil.mp inside)
  have read := mem_parse lossy member piece_ne
  obtain ⟨-, eq⟩ | ⟨key, value, rfl, -, eq⟩ := pair_cases lossy piece
  · rw [eq] at read
    exact ⟨piece, inside, _, read, .inl rfl⟩
  · rw [eq] at read
    obtain inKey | inValue := infix_append_cons equals inside
    · exact ⟨key, inKey, _, read, .inl rfl⟩
    · exact ⟨value, inValue, _, read, .inr rfl⟩

lemma exists_key_of_prefix {piece : Bytes} (nonempty : w ≠ []) (equals : 61 ∉ w)
    (member : piece ∈ query.splitOn 38) (h : w <+: piece) :
    ∃ rest, ∃ p ∈ parse lossy query, p.1 = text lossy (w ++ rest) := by
  have piece_ne : piece ≠ [] := by
    rintro rfl
    exact nonempty (prefix_nil.mp h)
  have read := mem_parse lossy member piece_ne
  obtain ⟨-, eq⟩ | ⟨key, value, rfl, -, eq⟩ := pair_cases lossy piece
  · obtain ⟨rest, rfl⟩ := h
    rw [eq] at read
    exact ⟨rest, _, read, rfl⟩
  · -- the word ends before the first `=`
    have start : w <+: key := by
      obtain short | ⟨z, rfl⟩ := prefix_or_prefix_of_prefix h (prefix_append key _)
      · exact short
      · cases z with
        | nil => simp
        | cons d z =>
          obtain ⟨rfl, -⟩ := cons_prefix_cons.mp ((prefix_append_right_inj key).mp h)
          simp at equals
    obtain ⟨rest, rfl⟩ := start
    rw [eq] at read
    exact ⟨rest, _, read, rfl⟩

end reading

end FormQuery
