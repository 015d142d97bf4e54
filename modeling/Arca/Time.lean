import Mathlib

/-!
# Timestamps

An instant is counted from the epoch. Where a timestamp may be absent, the
absent one sorts below every instant.
-/
namespace Arca

abbrev Instant := Int

/-- The order Rust derives for `Option`: `None` is below every `Some`. -/
def optionLt : Option Instant → Option Instant → Bool
  | none, some _ => true
  | some a, some b => a < b
  | _, none => false

/-- The same order as a linear one. -/
def stampOf : Option Instant → WithBot Instant
  | none => ⊥
  | some t => t

variable {a b : Option Instant}

lemma stampOf_inj : stampOf a = stampOf b ↔ a = b := by
  cases a <;> cases b <;> simp [stampOf]

lemma optionLt_iff (a b : Option Instant) : optionLt a b = true ↔ stampOf a < stampOf b := by
  cases a <;> cases b <;> simp [optionLt, stampOf]

def latest : Option Instant → Option Instant → Option Instant
  | some a, some b => some (max a b)
  | some a, none => some a
  | none, b => b

lemma stampOf_latest (a b : Option Instant) :
    stampOf (latest a b) = max (stampOf a) (stampOf b) := by
  cases a <;> cases b <;> simp [latest, stampOf]

lemma latest_eq_some {t : Instant} (h : latest a b = some t) : a = some t ∨ b = some t := by
  cases a with
  | none => exact .inr h
  | some x =>
    cases b with
    | none => exact .inl h
    | some y =>
      rcases max_choice x y with left | right
      · exact .inl (by rw [← h, latest, left])
      · exact .inr (by rw [← h, latest, right])

end Arca
