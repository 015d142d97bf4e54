import Mathlib

/-!
# Text and its UTF-8 bytes

Texts are lists of characters and byte strings lists of bytes, so that both can
be taken apart by recursion and evaluated.
-/

abbrev Bytes := List UInt8

abbrev Text := List Char

namespace Text
open List Option

def toUtf8 (t : Text) : Bytes := t.flatMap String.utf8EncodeChar

def fromUtf8 (bs : Bytes) : Option Text := bs.toByteArray.utf8Decode?.map Array.toList

lemma fromUtf8_toUtf8 (t : Text) : fromUtf8 (toUtf8 t) = some t := by
  exact congrArg (Option.map Array.toList) utf8Decode?_utf8Encode

variable {t : Text} {c sep : Char}

lemma fromUtf8_eq_some_iff {bs : Bytes} : fromUtf8 bs = some t ↔ bs = toUtf8 t := by
  constructor
  · intro h
    obtain ⟨cs, hcs, rfl⟩ := map_eq_some_iff.mp h
    have some_cs : bs.toByteArray.utf8Decode?.isSome = true := by simp [hcs]
    have encode := ByteArray.utf8Encode_get_utf8Decode? (h := some_cs)
    simp only [hcs, get_some] at encode
    exact (toByteArray_inj.mp encode).symm
  · rintro rfl
    exact fromUtf8_toUtf8 t

lemma toUtf8_injective : Function.Injective toUtf8 := by
  intro t u h
  have same := congrArg fromUtf8 h
  rw [fromUtf8_toUtf8, fromUtf8_toUtf8] at same
  exact some.inj same

@[simp] lemma toUtf8_nil : toUtf8 [] = [] := rfl

@[simp] lemma toUtf8_append (t u : Text) : toUtf8 (t ++ u) = toUtf8 t ++ toUtf8 u :=
  flatMap_append ..

/-- A smaller character has the smaller bytes, whatever comes after. -/
lemma utf8EncodeChar_lt {c d : Char} (h : c < d) (x y : Bytes) :
    String.utf8EncodeChar c ++ x < String.utf8EncodeChar d ++ y := by
  have less : c.val.toNat < d.val.toNat := h
  have valid : d.val.toNat < 1114112 := by have := d.valid; omega
  have nested : ∀ v : ℕ, v / 64 / 64 = v / 4096 ∧ v / 4096 / 64 = v / 262144 := by omega
  have first := nested c.val.toNat
  have second := nested d.val.toNat
  unfold String.utf8EncodeChar
  dsimp only
  split_ifs <;>
    simp (disch := omega) only [cons_append, cons_lt_cons_iff, UInt8.lt_iff_toNat_lt,
      ← UInt8.toNat_inj, UInt8.toNat_ofNat', Nat.reducePow, Nat.mod_eq_of_lt] <;>
    omega

lemma toUtf8_lt_iff {t u : Text} : toUtf8 t < toUtf8 u ↔ t < u := by
  have mono : ∀ {t u : Text}, t < u → toUtf8 t < toUtf8 u := by
    intro t
    induction t with
    | nil =>
      intro u less
      cases u with
      | nil => exact absurd less (not_lt_nil _)
      | cons d u =>
        cases bytes : toUtf8 (d :: u) with
        | nil =>
          have none : d :: u = [] := toUtf8_injective bytes
          cases none
        | cons b bs => exact nil_lt_cons ..
    | cons c t ih =>
      intro u less
      cases u with
      | nil => exact absurd less (not_lt_nil _)
      | cons d u =>
        rw [toUtf8, toUtf8, flatMap_cons, flatMap_cons]
        rcases cons_lt_cons_iff.mp less with lt | ⟨rfl, lt⟩
        · exact utf8EncodeChar_lt lt _ _
        · exact append_left_lt (ih lt)
  refine ⟨fun less => ?_, mono⟩
  rcases lt_trichotomy t u with lt | rfl | gt
  · exact lt
  · exact absurd less (List.lt_irrefl _)
  · exact absurd less (List.lt_asymm (mono gt))

lemma toNat_byte {n : ℕ} (h : n < 256) : (UInt8.ofNat n).toNat = n := by
  exact Nat.mod_eq_of_lt h

def asciiByte (c : Char) : UInt8 := UInt8.ofNat c.toNat

lemma utf8EncodeChar_of_ascii (ascii : c.toNat < 128) :
    String.utf8EncodeChar c = [asciiByte c] := by
  have small : c.val.toNat ≤ 127 := Nat.lt_succ_iff.mp ascii
  simp only [String.utf8EncodeChar, small, if_true]
  rfl

lemma le_of_mem_utf8EncodeChar (large : 128 ≤ c.toNat) {b : UInt8}
    (h : b ∈ String.utf8EncodeChar c) : 128 ≤ b.toNat := by
  have large : ¬ c.val.toNat ≤ 127 := fun small => absurd (Nat.lt_succ_of_le small) (not_lt.mpr large)
  have byte : ∀ k m, 0 < m → 128 ≤ k → m + k ≤ 256 → ∀ v, 128 ≤ (UInt8.ofNat (v % m + k)).toNat := by
    intro k m pos low high v
    have := Nat.mod_lt v pos
    rw [toNat_byte (show v % m + k < 256 by omega)]
    omega
  simp only [String.utf8EncodeChar, large, if_false] at h
  split at h
  · fin_cases h
    · exact byte 192 32 (by omega) (by omega) (by omega) _
    · exact byte 128 64 (by omega) (by omega) (by omega) _
  · split at h
    · fin_cases h
      · exact byte 224 16 (by omega) (by omega) (by omega) _
      all_goals exact byte 128 64 (by omega) (by omega) (by omega) _
    · fin_cases h
      · exact byte 240 8 (by omega) (by omega) (by omega) _
      all_goals exact byte 128 64 (by omega) (by omega) (by omega) _

lemma count_toUtf8 (ascii : c.toNat < 128) (t : Text) :
    (toUtf8 t).count (asciiByte c) = t.count c := by
  have own : (asciiByte c).toNat = c.toNat := toNat_byte (by omega)
  induction t with
  | nil => rfl
  | cons d t ih =>
    simp only [toUtf8, flatMap_cons, count_append, count_cons] at ih ⊢
    rw [ih, add_comm]
    by_cases small : d.toNat < 128
    · rw [utf8EncodeChar_of_ascii small, count_singleton]
      by_cases same : d = c
      · simp [same]
      · have differ : asciiByte d ≠ asciiByte c := by
          intro h
          have := congrArg UInt8.toNat h
          rw [own, asciiByte, toNat_byte (show d.toNat < 256 by omega)] at this
          exact same (Char.toNat_inj.mp this)
        simp [same, differ]
    · have same : d ≠ c := by
        rintro rfl
        exact small ascii
      have absent : asciiByte c ∉ String.utf8EncodeChar d := by
        intro member
        have := le_of_mem_utf8EncodeChar (not_lt.mp small) member
        omega
      simp [same, count_eq_zero_of_not_mem absent]

lemma mem_toUtf8_iff (ascii : c.toNat < 128) : asciiByte c ∈ toUtf8 t ↔ c ∈ t := by
  rw [← count_pos_iff, count_toUtf8 ascii, count_pos_iff]

/-- A run of bytes between ASCII bytes: one replacement character if it is not UTF-8. -/
def lossyRun (run : Bytes) : Text := (fromUtf8 run).getD [Char.ofNat 0xFFFD]

/-- Decoding that replaces what is not UTF-8, run by run. -/
def lossyFrom (run : Bytes) : Bytes → Text
  | [] => lossyRun run
  | b :: bs =>
    if b < 128 then lossyRun run ++ Char.ofNat b.toNat :: lossyFrom [] bs
    else lossyFrom (run ++ [b]) bs

def lossy (bs : Bytes) : Text := lossyFrom [] bs

lemma lossyRun_toUtf8 (t : Text) : lossyRun (toUtf8 t) = t := by
  rw [lossyRun, fromUtf8_toUtf8, getD_some]

lemma asciiByte_lt (ascii : c.toNat < 128) : asciiByte c < 128 := by
  rw [UInt8.lt_iff_toNat_lt, asciiByte, toNat_byte (by omega)]
  exact ascii

lemma ofNat_asciiByte (ascii : c.toNat < 128) : Char.ofNat (asciiByte c).toNat = c := by
  rw [asciiByte, toNat_byte (by omega), Char.ofNat_toNat]

lemma lossyFrom_append_ascii (ascii : c.toNat < 128) (run left right : Bytes) :
    lossyFrom run (left ++ asciiByte c :: right) = lossyFrom run left ++ c :: lossyFrom [] right := by
  induction left generalizing run with
  | nil => simp [lossyFrom, asciiByte_lt ascii, ofNat_asciiByte ascii]
  | cons b left ih =>
    simp only [cons_append, lossyFrom]
    split
    · simp [ih]
    · exact ih _

lemma lossyFrom_append_large {left : Bytes} (large : ∀ b ∈ left, 128 ≤ b.toNat) (run right : Bytes) :
    lossyFrom run (left ++ right) = lossyFrom (run ++ left) right := by
  induction left generalizing run with
  | nil => simp
  | cons b left ih =>
    have high : ¬ b < 128 := by
      exact not_lt.mpr (large b (by simp))
    simp only [cons_append, lossyFrom, high, if_false]
    rw [ih fun c hc => large c (by simp [hc])]
    simp

lemma lossyFrom_toUtf8 (u t : Text) : lossyFrom (toUtf8 u) (toUtf8 t) = u ++ t := by
  induction t generalizing u with
  | nil => simp [lossyFrom, lossyRun_toUtf8]
  | cons c t ih =>
    rw [show toUtf8 (c :: t) = String.utf8EncodeChar c ++ toUtf8 t from flatMap_cons ..]
    by_cases ascii : c.toNat < 128
    · have rest := ih []
      rw [toUtf8_nil, nil_append] at rest
      rw [utf8EncodeChar_of_ascii ascii, singleton_append, ← nil_append (asciiByte c :: _),
        lossyFrom_append_ascii ascii, rest, lossyFrom, lossyRun_toUtf8]
    · rw [lossyFrom_append_large fun b => le_of_mem_utf8EncodeChar (not_lt.mp ascii)]
      have next := ih (u ++ [c])
      rwa [toUtf8_append, show toUtf8 [c] = String.utf8EncodeChar c from flatMap_singleton ..,
        append_assoc] at next

lemma lossy_toUtf8 (t : Text) : lossy (toUtf8 t) = t := lossyFrom_toUtf8 [] t

/-- The Unicode property White_Space. -/
def isWhite (c : Char) : Bool :=
  let v := c.toNat
  (9 ≤ v && v ≤ 13) || v == 32 || v == 0x85 || v == 0xA0 || v == 0x1680 ||
    (0x2000 ≤ v && v ≤ 0x200A) || v == 0x2028 || v == 0x2029 || v == 0x202F || v == 0x205F ||
    v == 0x3000

def trim (t : Text) : Text := (t.dropWhile isWhite).rdropWhile isWhite

lemma trim_of_ends (first : ∀ c, t.head? = some c → isWhite c = false)
    (last : ∀ c, t.getLast? = some c → isWhite c = false) : trim t = t := by
  have front : t.dropWhile isWhite = t := by
    cases t with
    | nil => rfl
    | cons c t => exact dropWhile_cons_of_neg (by simp [first c rfl])
  rw [trim, front, rdropWhile_eq_self_iff]
  intro ne
  simp [last _ (getLast?_eq_some_getLast ne)]

lemma head_trim (h : (trim t).head? = some c) : isWhite c = false := by
  have start : trim t <+: t.dropWhile isWhite := rdropWhile_prefix ..
  obtain ⟨rest, eq⟩ := start
  have head : (t.dropWhile isWhite).head? = some c := by
    rw [← eq, head?_append, h]
    rfl
  have first := head?_dropWhile_not isWhite t
  rwa [head] at first

lemma last_trim (h : (trim t).getLast? = some c) : isWhite c = false := by
  have ne : trim t ≠ [] := by
    intro e
    simp [e] at h
  have last := rdropWhile_last_not isWhite (t.dropWhile isWhite) ne
  rw [getLast?_eq_some_getLast ne] at h
  obtain rfl := some.inj h
  exact Bool.eq_false_iff.mpr last

lemma trim_trim (t : Text) : trim (trim t) = trim t :=
  trim_of_ends (fun _ => head_trim) fun _ => last_trim

def splitOnce (sep : Char) : Text → Option (Text × Text)
  | [] => none
  | c :: t => if c = sep then some ([], t) else (splitOnce sep t).map fun (a, b) => (c :: a, b)

lemma splitOnce_eq_none_iff : splitOnce sep t = none ↔ sep ∉ t := by
  induction t with
  | nil => simp [splitOnce]
  | cons c t ih =>
    by_cases same : c = sep
    · simp [splitOnce, same]
    · simp [splitOnce, same, ih, Ne.symm same]

lemma splitOnce_eq_some_iff {a b : Text} :
    splitOnce sep t = some (a, b) ↔ t = a ++ sep :: b ∧ sep ∉ a := by
  induction t generalizing a with
  | nil => simp [splitOnce]
  | cons c t ih =>
    by_cases same : c = sep
    · cases a with
      | nil => simp [splitOnce, same]
      | cons d a =>
        subst same
        simp only [splitOnce, if_true, some.injEq, Prod.mk.injEq, reduceCtorEq, false_and,
          cons_append, cons.injEq, mem_cons, not_or, false_iff]
        rintro ⟨⟨rfl, -⟩, ne, -⟩
        exact ne rfl
    · cases a with
      | nil => simp [splitOnce, same]
      | cons d a =>
        simp only [splitOnce, same, if_false, map_eq_some_iff, Prod.mk.injEq, Prod.exists,
          cons.injEq, cons_append, mem_cons, not_or]
        constructor
        · rintro ⟨a', b', split, ⟨rfl, rfl⟩, rfl⟩
          obtain ⟨eq, free⟩ := ih.mp split
          exact ⟨⟨rfl, eq⟩, Ne.symm same, free⟩
        · rintro ⟨⟨rfl, eq⟩, -, free⟩
          exact ⟨a, b, ih.mpr ⟨eq, free⟩, ⟨rfl, rfl⟩, rfl⟩

def stripPrefix (start t : Text) : Option Text :=
  if start.isPrefixOf t then some (t.drop start.length) else none

def stripSuffix (stop t : Text) : Option Text :=
  if stop.isSuffixOf t then some (t.take (t.length - stop.length)) else none

def lower (t : Text) : Text := t.map Char.toLower

lemma isWhite_of_letter (low : 65 ≤ c.toNat) (high : c.toNat ≤ 122) : isWhite c = false := by
  simp only [isWhite, Bool.or_eq_false_iff, Bool.and_eq_false_iff, decide_eq_false_iff_not,
    beq_eq_false_iff_ne]
  omega

lemma isWhite_toLower (c : Char) : isWhite c.toLower = isWhite c := by
  unfold Char.toLower
  split
  · next upper =>
      have low : 65 ≤ c.toNat := UInt32.le_iff_toNat_le.mp upper.1
      have high : c.toNat ≤ 90 := UInt32.le_iff_toNat_le.mp upper.2
      have shifted : (c.val + ('a'.val - 'A'.val)).toNat = c.toNat + 32 := by
        exact Nat.mod_eq_of_lt (show c.toNat + 32 < 2 ^ 32 by omega)
      rw [isWhite_of_letter low (by omega)]
      apply isWhite_of_letter
      · exact (by omega : 65 ≤ c.toNat + 32).trans_eq shifted.symm
      · exact shifted.trans_le (by omega : c.toNat + 32 ≤ 122)
  · rfl

lemma lower_trim (t : Text) : trim (lower (trim t)) = lower (trim t) := by
  apply trim_of_ends
  · intro c h
    obtain ⟨d, hd, rfl⟩ := map_eq_some_iff.mp (head?_map.symm.trans h)
    rw [isWhite_toLower]
    exact head_trim hd
  · intro c h
    obtain ⟨d, hd, rfl⟩ := map_eq_some_iff.mp (getLast?_map.symm.trans h)
    rw [isWhite_toLower]
    exact last_trim hd

lemma lower_lower (t : Text) : lower (lower t) = lower t := by
  simp [lower, Char.toLower_toLower_eq_toLower]

def hexDigit (n : ℕ) : Char := Char.ofNat (if n < 10 then 48 + n else 87 + n)

def hexEncode (bs : Bytes) : Text :=
  bs.flatMap fun b => [hexDigit (b.toNat / 16), hexDigit (b.toNat % 16)]

def hexValue (c : Char) : Option ℕ :=
  if '0' ≤ c ∧ c ≤ '9' then some (c.toNat - 48)
  else if 'a' ≤ c ∧ c ≤ 'f' then some (c.toNat - 87)
  else if 'A' ≤ c ∧ c ≤ 'F' then some (c.toNat - 55)
  else none

def decValue (c : Char) : Option ℕ :=
  if '0' ≤ c ∧ c ≤ '9' then some (c.toNat - 48) else none

/-- A number below `bound`, one leading plus sign allowed. -/
def parseNat (radix : ℕ) (digit : Char → Option ℕ) (bound : ℕ) (t : Text) : Option ℕ :=
  let digits := match t with
    | '+' :: rest => rest
    | _ => t
  if digits = [] then none
  else (digits.mapM digit).bind fun ds =>
    let n := ds.foldl (fun acc d => acc * radix + d) 0
    if n < bound then some n else none

def contains (t part : Text) : Bool := decide (part <:+: t)

end Text
