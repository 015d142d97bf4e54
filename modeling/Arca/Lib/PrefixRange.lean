import Mathlib

/-!
# The lists that start with a given one, as a range

In the lexicographic order the lists that start with `p` lie between `p` itself and a
bound that is `p` with its last entry raised, or with its last entry dropped and the
one before it raised when there is nothing above the last, and so on.
-/
namespace PrefixRange
open List Option
variable {α : Type*}

/-- Drops entries from the end until one can be raised; the list is given from its
end. -/
def raiseLast (next : α → Option α) : List α → Option (List α)
  | [] => none
  | last :: before =>
    match next last with
    | some raised => some (raised :: before)
    | none => raiseLast next before

def upperBound (next : α → Option α) (p : List α) : Option (List α) :=
  (raiseLast next p.reverse).map List.reverse

lemma raiseLast_append (next : α → Option α) (l : List α) (a : α) : raiseLast next (l ++ [a]) =
      (raiseLast next l).elim ((next a).map fun raised => [raised]) fun raised =>
        some (raised ++ [a]) := by
  induction l with
  | nil =>
    simp only [nil_append, raiseLast]
    cases next a <;> rfl
  | cons b l ih =>
    simp only [cons_append, raiseLast]
    cases next b with
    | some raised => rfl
    | none => exact ih

lemma upperBound_cons (next : α → Option α) (a : α) (p : List α) : upperBound next (a :: p) =
      (upperBound next p).elim ((next a).map fun raised => [raised]) fun bound =>
        some (a :: bound) := by
  simp only [upperBound, reverse_cons, raiseLast_append]
  cases raiseLast next p.reverse with
  | some raised => simp
  | none => cases next a <;> rfl

structure IsNext [LinearOrder α] (next : α → Option α) : Prop where
  lt_iff : ∀ {a b}, next a = some b → ∀ x, x < b ↔ x ≤ a
  top : ∀ {a}, next a = none → ∀ x, x ≤ a

variable [LinearOrder α] {next : α → Option α}

/-- For the order that `List` takes from the linear order of its entries. -/
lemma cons_le_cons_iff {a b : α} {l m : List α} : a :: l ≤ b :: m ↔ a < b ∨ a = b ∧ l ≤ m := by
  rw [← not_lt, cons_lt_cons_iff, not_or, not_and, not_lt]
  constructor
  · rintro ⟨le, same⟩
    obtain lt | eq := lt_or_eq_of_le le
    · exact .inl lt
    · exact .inr ⟨eq, not_lt.mp (same eq.symm)⟩
  · rintro (lt | ⟨rfl, le⟩)
    · exact ⟨lt.le, fun eq => absurd eq lt.ne'⟩
    · exact ⟨le_rfl, fun _ => not_lt.mpr le⟩

/-- The range holds exactly the lists that start with `p`. -/
lemma mem_range_iff (h : IsNext next) {p k : List α} :
    (p ≤ k ∧ ∀ bound, upperBound next p = some bound → k < bound) ↔ p <+: k := by
  induction p generalizing k with
  | nil =>
    refine iff_of_true ⟨?_, fun bound eq => nomatch eq⟩ nil_prefix
    exact not_lt.mp (not_lt_nil k)
  | cons a p ih =>
    cases k with
    | nil => simp [← not_lt]
    | cons x k =>
      rw [cons_le_cons_iff, cons_prefix_cons, ← ih, upperBound_cons]
      cases upperBound next p with
      | some bound =>
        simp only [elim_some, some.injEq, forall_eq', cons_lt_cons_iff]
        constructor
        · rintro ⟨lt | ⟨rfl, le⟩, below⟩
          · obtain below | ⟨rfl, -⟩ := below
            · exact absurd below lt.asymm
            · exact absurd lt (lt_irrefl x)
          · exact ⟨rfl, le, (below.resolve_left (lt_irrefl a)).2⟩
        · rintro ⟨rfl, le, below⟩
          exact ⟨.inr ⟨rfl, le⟩, .inr ⟨rfl, below⟩⟩
      | none =>
        simp only [elim_none, map_eq_some_iff, forall_exists_index, and_imp,
          forall_apply_eq_imp_iff₂, cons_lt_cons_iff, not_lt_nil, and_false, or_false, reduceCtorEq,
          IsEmpty.forall_iff, implies_true, and_true]
        have below : (∀ b, next a = some b → x < b) ↔ x ≤ a := by
          cases raised : next a with
          | none => exact iff_of_true (fun b eq => nomatch eq) (h.top raised x)
          | some b => simp [h.lt_iff raised]
        rw [below]
        constructor
        · rintro ⟨lt | ⟨rfl, le⟩, ge⟩
          · exact absurd lt (not_lt.mpr ge)
          · exact ⟨rfl, le⟩
        · rintro ⟨rfl, le⟩
          exact ⟨.inr ⟨rfl, le⟩, le_rfl⟩

lemma le_of_prefix {p k : List α} (h : p <+: k) : p ≤ k := by
  induction p generalizing k with
  | nil => exact not_lt.mp (not_lt_nil k)
  | cons a p ih =>
    obtain ⟨l, rfl⟩ := h
    exact cons_le_cons_iff.mpr (.inr ⟨rfl, ih (prefix_append ..)⟩)

/-- A list that does not start with `p` is on the same side of all that do. -/
lemma lt_iff_of_prefix {p a b k : List α} (ha : p <+: a) (hb : p <+: b) (hk : ¬ p <+: k) :
    (a < k ↔ b < k) ∧ (k < a ↔ k < b) := by
  induction p generalizing a b k with
  | nil => exact absurd nil_prefix hk
  | cons c p ih =>
    obtain ⟨a, rfl⟩ := ha
    obtain ⟨b, rfl⟩ := hb
    cases k with
    | nil => simp
    | cons x k =>
      simp only [cons_append, cons_lt_cons_iff]
      by_cases same : c = x
      · subst same
        have other : ¬ p <+: k := fun h => hk (cons_prefix_cons.mpr ⟨rfl, h⟩)
        have tails := ih (prefix_append p a) (prefix_append p b) other
        simp only [lt_irrefl, true_and, false_or, tails]
      · simp [same, Ne.symm same]

end PrefixRange
