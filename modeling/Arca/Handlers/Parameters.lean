import Arca.Handlers.Dispatch

/-!
# Parameters and the order of a query

An operation reads the first or the last value of a parameter. Its parameters are
the same in every order of the pairs exactly when no parameter has two values.
-/
namespace Arca.Handlers
open Auth List

section params
variable {pairs l : List (Text × Text)} {key v : Text}

def Occurs (pairs : List (Text × Text)) (key : Text) : Prop := ∃ v, (key, v) ∈ pairs

def SingleValued (pairs : List (Text × Text)) (key : Text) : Prop :=
  ∀ v v', (key, v) ∈ pairs → (key, v') ∈ pairs → v = v'

lemma not_occurs_iff : ¬ Occurs pairs key ↔ ∀ p ∈ pairs, p.1 ≠ key := by
  constructor
  · rintro absent ⟨k, v⟩ member rfl
    exact absent ⟨v, member⟩
  · rintro other ⟨v, member⟩
    exact other (key, v) member rfl

lemma hasKey_iff : hasKey pairs key = true ↔ Occurs pairs key := by
  simp [hasKey, Occurs]

instance (pairs : List (Text × Text)) (key : Text) : Decidable (Occurs pairs key) :=
  decidable_of_iff _ hasKey_iff

lemma hasKey_perm (perm : l.Perm pairs) (key : Text) : hasKey l key = hasKey pairs key := by
  rw [Bool.eq_iff_iff, hasKey_iff, hasKey_iff]
  exact exists_congr fun v => perm.mem_iff

lemma mem_of_firstParam (h : firstParam pairs key = some v) : (key, v) ∈ pairs := by
  obtain ⟨p, found, rfl⟩ := Option.map_eq_some_iff.mp h
  have same : p.1 = key := by simpa using find?_some found
  rw [← same]
  exact mem_of_find?_eq_some found

lemma firstParam_eq_none_iff : firstParam pairs key = none ↔ ¬ Occurs pairs key := by
  rw [not_occurs_iff, firstParam, Option.map_eq_none_iff, find?_eq_none]
  simp only [decide_eq_true_eq, ne_eq]

lemma firstParam_cons_self (pairs : List (Text × Text)) (key v : Text) :
    firstParam ((key, v) :: pairs) key = some v := by
  simp [firstParam]

lemma mem_of_lastParam (h : lastParam key pairs = some v) : (key, v) ∈ pairs := by
  obtain ⟨⟨k, w⟩, member, kept⟩ := mem_filterMap.mp (mem_of_getLast? h)
  simp_all

lemma lastParam_eq_none_iff : lastParam key pairs = none ↔ ¬ Occurs pairs key := by
  rw [not_occurs_iff, lastParam, getLast?_eq_none_iff, filterMap_eq_nil_iff]
  simp only [ite_eq_right_iff, reduceCtorEq, imp_false, ne_eq]

lemma lastParam_concat_self (pairs : List (Text × Text)) (key v : Text) :
    lastParam key (pairs ++ [(key, v)]) = some v := by
  simp [lastParam]

lemma perm_cons_of_mem (member : (key, v) ∈ pairs) : ∃ rest, ((key, v) :: rest).Perm pairs := by
  obtain ⟨left, right, rfl⟩ := append_of_mem member
  exact ⟨left ++ right, perm_middle.symm⟩

/-- A reading of the pairs that finds some value of the key, and any value of it in
some order, depends on the order unless there is only one. -/
lemma settled_iff (read : List (Text × Text) → Option Text)
    (sound : ∀ l v, read l = some v → (key, v) ∈ l) (empty : ∀ l, read l = none ↔ ¬ Occurs l key)
    (reach : ∀ l v, (key, v) ∈ l → ∃ l', l'.Perm l ∧ read l' = some v) :
    (∀ l, l.Perm pairs → read l = read pairs) ↔ SingleValued pairs key := by
  constructor
  · intro settled v v' member member'
    obtain ⟨l, perm, found⟩ := reach pairs v member
    obtain ⟨l', perm', found'⟩ := reach pairs v' member'
    rw [settled l perm] at found
    rw [settled l' perm', found] at found'
    exact Option.some.inj found'
  · intro single l perm
    cases found : read l with
    | none =>
      symm
      rw [empty] at found ⊢
      rintro ⟨v, member⟩
      exact found ⟨v, perm.mem_iff.mpr member⟩
    | some v =>
      have member := perm.mem_iff.mp (sound l v found)
      cases other : read pairs with
      | none => exact absurd ⟨v, member⟩ ((empty pairs).mp other)
      | some v' => rw [single v v' member (sound pairs v' other)]

lemma firstParam_settled_iff :
    (∀ l, l.Perm pairs → firstParam l key = firstParam pairs key) ↔ SingleValued pairs key := by
  apply settled_iff (firstParam · key) (fun _ _ => mem_of_firstParam) (fun _ => firstParam_eq_none_iff)
  intro l v member
  obtain ⟨rest, perm⟩ := perm_cons_of_mem member
  exact ⟨_, perm, firstParam_cons_self rest key v⟩

lemma lastParam_settled_iff :
    (∀ l, l.Perm pairs → lastParam key l = lastParam key pairs) ↔ SingleValued pairs key := by
  apply settled_iff (lastParam key ·) (fun _ _ => mem_of_lastParam) (fun _ => lastParam_eq_none_iff)
  intro l v member
  obtain ⟨rest, perm⟩ := perm_cons_of_mem member
  exact ⟨_, (perm_append_singleton _ rest).trans perm, lastParam_concat_self rest key v⟩

/-- No parameter that the operation reads has two values. -/
def Operation.ReadsOneValue (op : Operation) (pairs : List (Text × Text)) : Prop :=
  ∀ key ∈ op.firstParams ++ op.lastParams, SingleValued pairs key

lemma paramValues_settled_iff {op : Operation} :
    (∀ l, l.Perm pairs → op.paramValues l = op.paramValues pairs) ↔ op.ReadsOneValue pairs := by
  have parts : ∀ l, op.paramValues l = op.paramValues pairs ↔
      (∀ key ∈ op.firstParams, firstParam l key = firstParam pairs key) ∧
        ∀ key ∈ op.lastParams, lastParam key l = lastParam key pairs := by
    intro l
    rw [← map_inj_left, ← map_inj_left]
    constructor
    · intro same
      exact append_inj same (by simp)
    · rintro ⟨first, last⟩
      rw [Operation.paramValues, Operation.paramValues, first, last]
  simp only [parts, Operation.ReadsOneValue, forall_mem_append]
  constructor
  · intro settled
    constructor
    · intro key member
      exact firstParam_settled_iff.mp fun l perm => (settled l perm).1 key member
    · intro key member
      exact lastParam_settled_iff.mp fun l perm => (settled l perm).2 key member
  · rintro ⟨first, last⟩ l perm
    constructor
    · intro key member
      exact firstParam_settled_iff.mpr (first key member) l perm
    · intro key member
      exact lastParam_settled_iff.mpr (last key member) l perm

end params

end Arca.Handlers
