import Arca.Blob.Serves

/-!
# What a read of a composite touches

The program adds sizes as 64-bit numbers, once for the whole composite and once for
the place of each part; what it subtracts is compared before.
-/
namespace Arca.Blob
open List

/-- A read and the place of its part in the composite. -/
structure Slice where
  read : PartRead
  offset : ℕ

namespace Slice
variable (s : Slice)

def first : ℕ := (s.read.range.map ByteRange.start).getD 0

def last : ℕ := (s.read.range.map (·.lastIn s.read.part.plaintextSize)).getD
  (s.read.part.plaintextSize - 1)

def positions : List ℕ := range' (s.offset + s.first) (s.last + 1 - s.first)

def Proper : Prop := s.first ≤ s.last ∧ s.last < s.read.part.plaintextSize

end Slice

/-- The parts with the place of each in the composite. -/
def layout : ℕ → List CompositePart → List (CompositePart × ℕ)
  | _, [] => []
  | cum, part :: parts => (part, cum) :: layout (cum + part.plaintextSize) parts

/-- The reads are slices of parts that lie from `cum` on, in the order of the parts, and
cover `count` positions from `first` on, one after another. -/
def Covers (cum : ℕ) (parts : List CompositePart) (reads : List PartRead) (first count : ℕ) : Prop :=
  ∃ slices : List Slice, slices.map Slice.read = reads ∧
    slices.map (fun s => (s.read.part, s.offset)) <+ layout cum parts ∧
    (∀ s ∈ slices, s.Proper) ∧ slices.flatMap Slice.positions = range' first count

/-- A range that starts inside the composite. -/
structure Inside (parts : List CompositePart) where
  range : ByteRange
  inside : range.start < totalSize parts

lemma sums_lt_iff {cum bound : ℕ} (start : cum < bound) (parts : List CompositePart) :
    (∀ p ∈ layout cum parts, p.2 + p.1.plaintextSize < bound) ↔ cum + totalSize parts < bound := by
  induction parts generalizing cum with
  | nil => exact iff_of_true nofun start
  | cons part parts ih =>
    have size : cum + totalSize (part :: parts) = cum + part.plaintextSize + totalSize parts :=
      (Nat.add_assoc ..).symm
    rw [layout, forall_mem_cons, size]
    constructor
    · rintro ⟨here, rest⟩
      exact (ih here).mp rest
    · intro fits
      have here : cum + part.plaintextSize < bound := Nat.lt_of_le_of_lt (Nat.le_add_right ..) fits
      exact ⟨here, (ih here).mpr fits⟩

lemma range'_join {a b c : ℕ} (ab : a ≤ b) (bc : b ≤ c) :
    range' a (b - a) ++ range' b (c - b) = range' a (c - a) := by
  have joined := range'_append_1 (s := a) (m := b - a) (n := c - b)
  rw [Nat.add_sub_cancel' ab] at joined
  rw [joined]
  congr 1
  omega

/-- From any place on, the reads cover what is left of the range. -/
lemma covers_planParts {s e length : ℕ} (order : s ≤ e) (some_length : length ≠ 0) (cum : ℕ)
    (parts : List CompositePart) : Covers cum parts (planParts s e length cum parts) (max s cum)
      (min (e + 1) (cum + totalSize parts) - max s cum) := by
  induction parts generalizing cum with
  | nil =>
    refine ⟨[], rfl, .slnil, nofun, ?_⟩
    rw [show min (e + 1) (cum + totalSize []) - max s cum = 0 by simp [totalSize]]
    rfl
  | cons part parts ih =>
    obtain ⟨slices, reads, placed, proper, covered⟩ := ih (cum + part.plaintextSize)
    have size : cum + totalSize (part :: parts) = cum + part.plaintextSize + totalSize parts :=
      (Nat.add_assoc ..).symm
    rw [planParts, size]
    split
    · next apart =>
      refine ⟨slices, reads, placed.cons _, proper, covered.trans ?_⟩
      by_cases gone : e < cum
      · rw [Nat.sub_eq_zero_of_le (by omega), Nat.sub_eq_zero_of_le (by omega)]
        rfl
      · rw [show max s (cum + part.plaintextSize) = max s cum by omega]
    · next touched =>
      let range : Option ByteRange :=
        if s - cum = 0 ∧ min (e - cum) (part.plaintextSize - 1) = part.plaintextSize - 1 then none
        else some ⟨s - cum, some (min (e - cum) (part.plaintextSize - 1))⟩
      let slice : Slice := ⟨⟨part, range⟩, cum⟩
      have ends : slice.first = s - cum ∧
          slice.last = min (e - cum) (part.plaintextSize - 1) := by
        simp only [slice, Slice.first, Slice.last, range]
        split_ifs with whole
        · exact ⟨whole.1.symm, whole.2.symm⟩
        · simp [ByteRange.lastIn]
      refine ⟨slice :: slices, congrArg _ reads, placed.cons_cons _, ?_, ?_⟩
      · refine forall_mem_cons.mpr ⟨?_, proper⟩
        rw [Slice.Proper, ends.1, ends.2]
        exact ⟨by omega, by dsimp only [slice]; omega⟩
      · rw [flatMap_cons, covered, Slice.positions, ends.1, ends.2]
        have whole := range'_join (a := max s cum) (b := min (e + 1) (cum + part.plaintextSize))
          (c := min (e + 1) (cum + part.plaintextSize + totalSize parts)) (by omega) (by omega)
        rw [← whole]
        congr 1
        · rw [show slice.offset + (s - cum) = max s cum by dsimp only [slice]; omega,
            show min (e - cum) (part.plaintextSize - 1) + 1 - (s - cum) =
              min (e + 1) (cum + part.plaintextSize) - max s cum by omega]
        · by_cases last : e + 1 < cum + part.plaintextSize
          · rw [Nat.sub_eq_zero_of_le (by omega), Nat.sub_eq_zero_of_le (by omega)]
            rfl
          · rw [show max s (cum + part.plaintextSize) = min (e + 1) (cum + part.plaintextSize) by omega]

/-- A plan covers its range, and no sum leaves the 64-bit numbers, exactly when the size of
the composite is one of them. -/
theorem composite_plan_covers_iff (parts : List CompositePart) (r : Inside parts) :
    let (reads, contentLength) := planCompositeRead parts (some r.range)
    ((∀ p ∈ layout 0 parts, p.2 + p.1.plaintextSize < 2 ^ 64) ∧ contentLength < 2 ^ 64 ∧
      Covers 0 parts reads r.range.start (r.range.lastIn (totalSize parts) + 1 - r.range.start)) ↔
    totalSize parts < 2 ^ 64 := by
  obtain ⟨r, inside⟩ := r
  have bound : r.lastIn (totalSize parts) < totalSize parts := by
    unfold ByteRange.lastIn
    cases r.last with
    | none => exact Nat.sub_lt (by omega) Nat.one_pos
    | some last => simp; omega
  have covers : Covers 0 parts (planCompositeRead parts (some r)).1 r.start
      (r.lastIn (totalSize parts) + 1 - r.start) := by
    simp only [planCompositeRead, Option.map_some, Option.getD_some]
    rw [if_neg (by omega)]
    by_cases order : r.start ≤ r.lastIn (totalSize parts)
    · have planned := covers_planParts order
        (show r.lastIn (totalSize parts) + 1 - r.start ≠ 0 by omega) 0 parts
      rwa [Nat.max_zero, Nat.zero_add, Nat.min_eq_left bound] at planned
    · rw [Nat.sub_eq_zero_of_le (by omega), planParts_zero]
      exact ⟨[], rfl, nil_sublist _, by simp, rfl⟩
  have length : (planCompositeRead parts (some r)).2 ≤ totalSize parts := by
    simp only [planCompositeRead, Option.map_some, Option.getD_some]
    split_ifs <;> omega
  have sums := sums_lt_iff (show 0 < 2 ^ 64 by decide) parts
  rw [Nat.zero_add] at sums
  dsimp only
  rw [sums, and_iff_left_of_imp]
  exact fun fits => ⟨length.trans_lt fits, covers⟩

/-- Two parts of 2^63 bytes. -/
theorem composite_sum_overflows :
    ¬ ∀ p ∈ layout 0 [⟨"a", 2 ^ 63, "", none⟩, ⟨"b", 2 ^ 63, "", none⟩],
      p.2 + p.1.plaintextSize < 2 ^ 64 := by
  decide

end Arca.Blob
