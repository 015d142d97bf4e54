import Arca.Lib.Text

/-!
# Percent encoding

Decoding replaces every `%` that two hexadecimal digits follow and leaves every
other byte, so it never fails and never lengthens its input.
-/
namespace Percent
open List Option

def hexValue (b : UInt8) : Option ℕ :=
  if 48 ≤ b ∧ b ≤ 57 then some (b.toNat - 48)
  else if 97 ≤ b ∧ b ≤ 102 then some (b.toNat - 87)
  else if 65 ≤ b ∧ b ≤ 70 then some (b.toNat - 55)
  else none

variable {b high low c : UInt8} {bs : Bytes}

lemma hexValue_lt {n : ℕ} (h : hexValue b = some n) : n < 16 := by
  unfold hexValue at h
  split_ifs at h with digit lower upper
  · obtain rfl := some.inj h
    have := UInt8.le_iff_toNat_le.mp digit.2
    simp only [UInt8.reduceToNat] at this
    omega
  · obtain rfl := some.inj h
    have := UInt8.le_iff_toNat_le.mp lower.2
    simp only [UInt8.reduceToNat] at this
    omega
  · obtain rfl := some.inj h
    have := UInt8.le_iff_toNat_le.mp upper.2
    simp only [UInt8.reduceToNat] at this
    omega

def hexUpper (n : ℕ) : UInt8 := UInt8.ofNat (if n < 10 then 48 + n else 55 + n)

def escaped (high low : UInt8) : Option UInt8 :=
  (hexValue high).bind fun h => (hexValue low).map fun l => UInt8.ofNat (16 * h + l)

def decode : Bytes → Bytes
  | b :: high :: low :: rest =>
    match (if b = 37 then escaped high low else none) with
    | some c => c :: decode rest
    | none => b :: decode (high :: low :: rest)
  | b :: rest => b :: decode rest
  | [] => []

lemma decode_escape (h : escaped high low = some c) (rest : Bytes) :
    decode (37 :: high :: low :: rest) = c :: decode rest := by
  simp [decode, h]

lemma decode_cons_of_ne (h : b ≠ 37) (rest : Bytes) : decode (b :: rest) = b :: decode rest := by
  cases rest with
  | nil => rfl
  | cons high rest =>
    cases rest with
    | nil => rfl
    | cons low rest => simp [decode, h]

lemma decode_cons_of_not_escaped {rest : Bytes}
    (h : b = 37 → ∀ high low t, rest = high :: low :: t → escaped high low = none) :
    decode (b :: rest) = b :: decode rest := by
  by_cases percent : b = 37
  · rcases rest with _ | ⟨high, _ | ⟨low, t⟩⟩
    · rfl
    · rfl
    · simp [decode, percent, h percent high low t rfl]
  · exact decode_cons_of_ne percent rest

lemma decode_induction {motive : Bytes → Prop} (nil : motive [])
    (keep : ∀ b rest, decode (b :: rest) = b :: decode rest → motive rest → motive (b :: rest))
    (escape : ∀ high low c rest, escaped high low = some c → motive rest →
      motive (37 :: high :: low :: rest)) (bs : Bytes) : motive bs := by
  fun_induction decode bs with
  | case1 b high low rest c h ih =>
    obtain ⟨rfl, h⟩ : b = 37 ∧ escaped high low = some c := by
      split at h
      · next percent => exact ⟨percent, h⟩
      · cases h
    exact escape high low c rest h ih
  | case2 b high low rest h ih => exact keep _ _ (by simp [decode, h]) ih
  | case3 b rest short ih => exact keep _ _ (by rw [decode]; exact short) ih
  | case4 => exact nil

lemma length_decode_le (bs : Bytes) : (decode bs).length ≤ bs.length := by
  induction bs using decode_induction with
  | nil => simp [decode]
  | keep b rest eq ih => simpa [eq] using ih
  | escape high low c rest h ih =>
    rw [decode_escape h]
    simp only [length_cons]
    omega

lemma decode_eq_self_of_length (h : (decode bs).length = bs.length) : decode bs = bs := by
  induction bs using decode_induction with
  | nil => rfl
  | keep b rest eq ih =>
    rw [eq] at h ⊢
    rw [ih (by simpa using h)]
  | escape high low c rest esc ih =>
    have := length_decode_le rest
    rw [decode_escape esc] at h
    simp only [length_cons] at h
    omega

lemma hexValue_of_escaped (h : escaped high low = some c) :
    hexValue high ≠ none ∧ hexValue low ≠ none := by
  obtain ⟨x, hx, rest⟩ := bind_eq_some_iff.mp h
  obtain ⟨y, hy, -⟩ := map_eq_some_iff.mp rest
  simp [hx, hy]

lemma escaped_eq_none (h : hexValue high = none ∨ hexValue low = none) :
    escaped high low = none := by
  obtain h | h := h
  · simp [escaped, h]
  · cases eq : hexValue high <;> simp [escaped, eq, h]

lemma decode_append_cons (percent : c ≠ 37) (digit : hexValue c = none)
    (left right : Bytes) : decode (left ++ c :: right) = decode left ++ c :: decode right := by
  induction left using decode_induction with
  | nil => simp [decode, decode_cons_of_ne percent]
  | keep b rest eq ih =>
    rw [eq, cons_append, cons_append, ← ih]
    apply decode_cons_of_not_escaped
    rintro rfl high low t shape
    -- either both digits stand before the separator, or it is one of them
    rcases rest with _ | ⟨x, _ | ⟨y, rest⟩⟩
    · obtain ⟨rfl, -⟩ := cons.inj shape
      exact escaped_eq_none (.inl digit)
    · obtain ⟨-, rfl, -⟩ : x = high ∧ c = low ∧ right = t := by simpa using shape
      exact escaped_eq_none (.inr digit)
    · obtain ⟨rfl, rfl, -⟩ : x = high ∧ y = low ∧ rest ++ c :: right = t := by simpa using shape
      cases esc : escaped x y with
      | none => rfl
      | some d =>
        have digits := hexValue_of_escaped esc
        have hx : x ≠ 37 := fun e => digits.1 (e ▸ rfl)
        have hy : y ≠ 37 := fun e => digits.2 (e ▸ rfl)
        rw [decode_escape esc, decode_cons_of_ne hx, decode_cons_of_ne hy] at eq
        simpa using congrArg List.length eq
  | escape high low d rest esc ih =>
    simp only [cons_append, decode_escape esc, ih]

lemma count_le_count_decode (percent : c ≠ 37) (digit : hexValue c = none)
    (bs : Bytes) : bs.count c ≤ (decode bs).count c := by
  induction bs using decode_induction with
  | nil => simp
  | keep b rest eq ih =>
    rw [eq, count_cons, count_cons]
    omega
  | escape high low d rest esc ih =>
    obtain ⟨hh, hl⟩ := hexValue_of_escaped esc
    have high_ne : high ≠ c := fun e => hh (e ▸ digit)
    have low_ne : low ≠ c := fun e => hl (e ▸ digit)
    rw [decode_escape esc, count_cons_of_ne percent.symm, count_cons_of_ne high_ne,
      count_cons_of_ne low_ne, count_cons]
    omega

def encode (keep : UInt8 → Bool) (bs : Bytes) : Bytes :=
  bs.flatMap fun b => if keep b then [b] else [37, hexUpper (b.toNat / 16), hexUpper (b.toNat % 16)]

lemma hexValue_hexUpper {n : ℕ} (h : n < 16) : hexValue (hexUpper n) = some n := by
  have digits : ∀ n : Fin 16, hexValue (hexUpper n) = some n.val := by decide
  exact digits ⟨n, h⟩

lemma escaped_of_low (h : hexValue low = some (b.toNat % 16)) :
    escaped (hexUpper (b.toNat / 16)) low = some b := by
  have size := b.toNat_lt
  rw [escaped, hexValue_hexUpper (by omega), h]
  simp only [bind_some, map_some, Nat.div_add_mod, UInt8.ofNat_toNat]

lemma escaped_hexUpper (b : UInt8) :
    escaped (hexUpper (b.toNat / 16)) (hexUpper (b.toNat % 16)) = some b :=
  escaped_of_low (hexValue_hexUpper (Nat.mod_lt _ (by decide)))

variable {keep : UInt8 → Bool}

lemma decode_encode_append (percent : keep 37 = false) (bs rest : Bytes) :
    decode (encode keep bs ++ rest) = bs ++ decode rest := by
  induction bs with
  | nil => rfl
  | cons b bs ih =>
    simp only [encode, flatMap_cons] at ih ⊢
    by_cases kept : keep b = true
    · have ne : b ≠ 37 := by
        rintro rfl
        simp [percent] at kept
      simp only [kept, if_true, cons_append, nil_append]
      rw [decode_cons_of_ne ne, ih]
    · simp only [kept, Bool.false_eq_true, if_false, cons_append, nil_append]
      rw [decode_escape (escaped_hexUpper b), ih]

lemma decode_encode (percent : keep 37 = false) (bs : Bytes) :
    decode (encode keep bs) = bs := by
  have whole := decode_encode_append percent bs []
  rwa [append_nil, show decode [] = [] from rfl, append_nil] at whole

/-- A byte at the end is kept, or it is the last digit of an escape. -/
lemma decode_concat (percent : c ≠ 37) (bs : Bytes) : decode (bs ++ [c]) = decode bs ++ [c] ∨
      ∃ left x, decode (bs ++ [c]) = left ++ [x] ∧ hexValue c = some (x.toNat % 16) := by
  induction bs using decode_induction with
  | nil => exact .inl (decode_cons_of_ne percent [])
  | keep b rest eq ih =>
    by_cases esc : b = 37 ∧ ∃ high low t x, rest ++ [c] = high :: low :: t ∧ escaped high low = some x
    · obtain ⟨rfl, high, low, t, x, shape, esc⟩ := esc
      rcases rest with _ | ⟨first, _ | ⟨second, rest⟩⟩
      · simp at shape
      · obtain ⟨rfl, rfl, rfl⟩ : first = high ∧ c = low ∧ [] = t := by simpa using shape
        refine .inr ⟨[], x, by simp [decode, esc], ?_⟩
        obtain ⟨h, hh, esc⟩ := bind_eq_some_iff.mp esc
        obtain ⟨l, hl, rfl⟩ := map_eq_some_iff.mp esc
        have small : l < 16 := hexValue_lt hl
        have high_small : h < 16 := hexValue_lt hh
        rw [hl, Text.toNat_byte (by omega)]
        congr 1
        omega
      · -- the escape would have been taken without the last byte
        obtain ⟨rfl, rfl, -⟩ : first = high ∧ second = low ∧ rest ++ [c] = t := by simpa using shape
        have digits := hexValue_of_escaped esc
        have hx : first ≠ 37 := fun e => digits.1 (e ▸ rfl)
        have hy : second ≠ 37 := fun e => digits.2 (e ▸ rfl)
        rw [decode_escape esc, decode_cons_of_ne hx, decode_cons_of_ne hy] at eq
        simpa using congrArg List.length eq
    · have kept : decode (b :: (rest ++ [c])) = b :: decode (rest ++ [c]) := by
        apply decode_cons_of_not_escaped
        intro percent high low t shape
        cases found : escaped high low with
        | none => rfl
        | some x => exact absurd ⟨percent, high, low, t, x, shape, found⟩ esc
      rw [cons_append, kept, eq]
      obtain same | ⟨left, x, shape, digit⟩ := ih
      · exact .inl (by rw [same]; rfl)
      · exact .inr ⟨b :: left, x, by rw [shape]; rfl, digit⟩
  | escape high low d rest esc ih =>
    simp only [cons_append, decode_escape esc]
    obtain same | ⟨left, x, shape, digit⟩ := ih
    · exact .inl (by rw [same])
    · exact .inr ⟨d :: left, x, by rw [shape]; rfl, digit⟩

/-- Bytes that are all ASCII as a text. -/
def asciiText (bs : Bytes) : Text := bs.map fun b => Char.ofNat b.toNat

def encodeText (keep : UInt8 → Bool) (t : Text) : Text := asciiText (encode keep t.toUtf8)

lemma toUtf8_asciiText (ascii : ∀ b ∈ bs, b.toNat < 128) : (asciiText bs).toUtf8 = bs := by
  induction bs with
  | nil => rfl
  | cons b bs ih =>
    have small := ascii b (by simp)
    have valid : (Char.ofNat b.toNat).toNat = b.toNat := by
      rw [Char.toNat_ofNat, if_pos (Or.inl (by omega))]
    rw [show (asciiText (b :: bs)).toUtf8 =
        String.utf8EncodeChar (Char.ofNat b.toNat) ++ (asciiText bs).toUtf8 from flatMap_cons ..,
      Text.utf8EncodeChar_of_ascii (by omega), ih fun c hc => ascii c (by simp [hc]), Text.asciiByte,
      valid, UInt8.ofNat_toNat]
    rfl

lemma mem_encode (h : b ∈ encode keep bs) :
    (keep b = true ∧ b ∈ bs) ∨ b = 37 ∨ ∃ n < 16, b = hexUpper n := by
  obtain ⟨c, member, h⟩ := mem_flatMap.mp h
  have size := c.toNat_lt
  split at h
  · next kept =>
      obtain rfl := mem_singleton.mp h
      exact .inl ⟨kept, member⟩
  · simp only [mem_cons, not_mem_nil, or_false] at h
    obtain rfl | rfl | rfl := h
    · exact .inr (.inl rfl)
    · exact .inr (.inr ⟨c.toNat / 16, by omega, rfl⟩)
    · exact .inr (.inr ⟨c.toNat % 16, by omega, rfl⟩)

end Percent
