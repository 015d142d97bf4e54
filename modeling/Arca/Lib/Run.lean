import Mathlib

/-!
# Runs of a total step function

A run is a list of inputs. `Always` says that a property holds in every state a
run passes through, the first one included; `Each` says that every step of the
run meets a condition on the state it starts from.
-/
namespace Run
open List
variable {σ ι : Type*} (step : σ → ι → σ)

def Always (P : σ → Prop) : σ → List ι → Prop
  | s, [] => P s
  | s, i :: is => P s ∧ Always P (step s i) is

def Each (C : σ → ι → Prop) : σ → List ι → Prop
  | _, [] => True
  | s, i :: is => C s i ∧ Each C (step s i) is

variable {step} {P : σ → Prop} {C : σ → ι → Prop}

instance decidableEach [∀ s i, Decidable (C s i)] : ∀ s is, Decidable (Each step C s is)
  | _, [] => .isTrue trivial
  | s, i :: is => @instDecidableAnd _ _ inferInstance (decidableEach (step s i) is)

variable {s : σ} {is : List ι} {I Q B : σ → Prop} {D A W : σ → ι → Prop}

lemma Always.head (h : Always step P s is) : P s := by
  cases is with
  | nil => exact h
  | cons i is => exact h.1

lemma Always.last (h : Always step P s is) : P (is.foldl step s) := by
  induction is generalizing s with
  | nil => exact h
  | cons i is ih => exact ih h.2

/-- What no step restores holds throughout when it holds at the end. -/
lemma Always.of_last (keep : ∀ s i, I s → I (step s i))
    (back : ∀ s i, I s → P (step s i) → P s) (hs : I s)
    (last : P (is.foldl step s)) : Always step P s is := by
  induction is generalizing s with
  | nil => exact last
  | cons i is ih =>
    have rest := ih (keep s i hs) last
    exact ⟨back s i hs rest.head, rest⟩

lemma always_of_prefixes
    (h : ∀ before after, is = before ++ after → P (before.foldl step s)) : Always step P s is := by
  induction is generalizing s with
  | nil => exact h [] [] rfl
  | cons i is ih =>
    refine ⟨h [] (i :: is) rfl, ih fun before after split => ?_⟩
    exact h (i :: before) after (by rw [split]; rfl)

/-- When a step keeps `P` exactly under the condition `C`, a run keeps `P`
throughout exactly when each of its steps meets `C`. -/
lemma always_iff_each (exact_step : ∀ s i, P s → (P (step s i) ↔ C s i)) (hs : P s)
    (is : List ι) : Always step P s is ↔ Each step C s is := by
  induction is generalizing s with
  | nil => exact iff_of_true hs trivial
  | cons i is ih =>
    constructor
    · rintro ⟨_, rest⟩
      exact ⟨(exact_step s i hs).mp rest.head, (ih rest.head).mp rest⟩
    · rintro ⟨cond, rest⟩
      have next := (exact_step s i hs).mpr cond
      exact ⟨hs, (ih next).mpr rest⟩

/-- When an invariant that gives `P` is kept under `C`, and a step that does not meet
`C` breaks `P` at once, a run keeps `P` throughout exactly when each of its steps
meets `C`. -/
lemma always_iff_each_of_invariant (sound : ∀ s, I s → P s)
    (keep : ∀ s i, I s → C s i → I (step s i)) (breach : ∀ s i, I s → ¬ C s i → ¬ P (step s i))
    (hs : I s) (is : List ι) : Always step P s is ↔ Each step C s is := by
  induction is generalizing s with
  | nil => exact iff_of_true (sound s hs) trivial
  | cons i is ih =>
    constructor
    · rintro ⟨_, rest⟩
      have cond : C s i := by
        by_contra broken
        exact breach s i hs broken rest.head
      exact ⟨cond, (ih (keep s i hs cond)).mp rest⟩
    · rintro ⟨cond, rest⟩
      exact ⟨sound s hs, (ih (keep s i hs cond)).mpr rest⟩

/-- An invariant of the start that every step meeting `C` keeps holds throughout
a run whose steps all meet `C`. -/
lemma always_of_each (keep : ∀ s i, P s → C s i → P (step s i)) (hs : P s)
    (hc : Each step C s is) : Always step P s is := by
  induction is generalizing s with
  | nil => exact hs
  | cons i is ih => exact ⟨hs, ih (keep s i hs hc.1) hc.2⟩

lemma always_of_step (keep : ∀ s i, P s → P (step s i)) (hs : P s) (is : List ι) :
    Always step P s is := by
  induction is generalizing s with
  | nil => exact hs
  | cons i is ih => exact ⟨hs, ih (keep s i hs)⟩

lemma Always.mono (weaken : ∀ s, P s → Q s) (h : Always step P s is) : Always step Q s is := by
  induction is generalizing s with
  | nil => exact weaken s h
  | cons i is ih => exact ⟨weaken s h.1, ih h.2⟩

/-- An invariant of every step adds nothing to ask of a run that starts in it. -/
lemma always_and_iff (keep : ∀ s i, Q s → Q (step s i)) (hs : Q s)
    (is : List ι) : Always step (fun s => P s ∧ Q s) s is ↔ Always step P s is := by
  induction is generalizing s with
  | nil => exact and_iff_left hs
  | cons i is ih => exact and_congr (and_iff_left hs) (ih (keep s i hs))

lemma each_congr (keep : ∀ s i, P s → P (step s i))
    (same : ∀ s i, P s → (C s i ↔ D s i)) (hs : P s) (is : List ι) :
    Each step C s is ↔ Each step D s is := by
  induction is generalizing s with
  | nil => exact Iff.rfl
  | cons i is ih => exact and_congr (same s i hs) (ih (keep s i hs))

lemma each_congr_of_each (keep : ∀ s i, P s → P (step s i))
    (same : ∀ s i, P s → A s i → (C s i ↔ D s i)) (hs : P s)
    (ha : Each step A s is) : Each step C s is ↔ Each step D s is := by
  induction is generalizing s with
  | nil => exact Iff.rfl
  | cons i is ih => exact and_congr (same s i hs ha.1) (ih (keep s i hs) ha.2)

lemma each_append {js : List ι} :
    Each step C s (is ++ js) ↔ Each step C s is ∧ Each step C (is.foldl step s) js := by
  induction is generalizing s with
  | nil => exact ⟨fun h => ⟨trivial, h⟩, fun h => h.2⟩
  | cons i is ih => exact (and_congr_right fun _ => ih).trans and_assoc.symm

lemma Each.mono (weaken : ∀ s i, C s i → D s i) (h : Each step C s is) : Each step D s is := by
  induction is generalizing s with
  | nil => trivial
  | cons i is ih => exact ⟨weaken s i h.1, ih h.2⟩

lemma Each.and (hc : Each step C s is)
    (hd : Each step D s is) : Each step (fun s i => C s i ∧ D s i) s is := by
  induction is generalizing s with
  | nil => trivial
  | cons i is ih => exact ⟨⟨hc.1, hd.1⟩, ih hc.2 hd.2⟩

lemma foldl_of_each (keep : ∀ s i, P s → C s i → P (step s i)) (hs : P s)
    (hc : Each step C s is) : P (is.foldl step s) := by
  induction is generalizing s with
  | nil => exact hs
  | cons i is ih => exact ih (keep s i hs hc.1) hc.2

lemma each_of_forall {D : ι → Prop} (weaken : ∀ s i, D i → C s i)
    (h : ∀ i ∈ is, D i) (s : σ) : Each step C s is := by
  induction is generalizing s with
  | nil => trivial
  | cons i is ih =>
    exact ⟨weaken s i (h i (mem_cons_self ..)), ih (fun j hj => h j (mem_cons_of_mem i hj)) _⟩

/-- A condition whose first breach cannot be repaired: if a breach leads to `B`,
steps under `A` keep `B`, and the run does not end in `B`, no step breaches it. -/
lemma each_of_not_end
    (keep : ∀ s i, P s → A s i → P (step s i)) (breach : ∀ s i, P s → A s i → ¬ D s i → B (step s i))
    (stuck : ∀ s i, P s → A s i → B s → B (step s i)) (hs : P s)
    (ha : Each step A s is) (end_ok : ¬ B (is.foldl step s)) : Each step D s is := by
  have persists : ∀ (js : List ι) (s : σ), P s → Each step A s js → B s → B (js.foldl step s) := by
    intro js
    induction js with
    | nil => exact fun _ _ _ hb => hb
    | cons j js ih => exact fun s hs ha hb => ih _ (keep s j hs ha.1) ha.2 (stuck s j hs ha.1 hb)
  induction is generalizing s with
  | nil => trivial
  | cons i is ih =>
    have next := keep s i hs ha.1
    refine ⟨?_, ih next ha.2 end_ok⟩
    by_contra breached
    exact end_ok (persists is _ next ha.2 (breach s i hs ha.1 breached))

/-- An invariant of the allowed steps that rules out `B`, and whose absence lets
some allowed run reach `B`, is exactly what makes every allowed run avoid `B`. -/
lemma avoids_iff (keep : ∀ s i, P s → A s i → P (step s i)) (harmless : ∀ s, P s → ¬ B s)
    (attack : ¬ P s → ∃ is : List ι, Each step A s is ∧ B (is.foldl step s)) :
    (∀ is : List ι, Each step A s is → ¬ B (is.foldl step s)) ↔ P s := by
  constructor
  · intro avoids
    by_contra broken
    obtain ⟨is, allowed, reached⟩ := attack broken
    exact avoids is allowed reached
  · intro hs is allowed
    exact harmless _ (foldl_of_each keep hs allowed)

lemma sum_map_set_lt {α : Type*} (rank : α → ℕ) {l : List α} {i : ℕ} {a b : α}
    (here : l[i]? = some a) (lower : rank b < rank a) :
    ((l.set i b).map rank).sum < (l.map rank).sum := by
  induction l generalizing i with
  | nil => cases here
  | cons x l ih =>
    cases i with
    | zero =>
      cases here
      simpa using lower
    | succ i => simpa using ih here

/-- While some allowed input lowers a rank as long as `Q` does not hold, `Q` is
reached by allowed inputs. -/
lemma exists_rest (rank : σ → ℕ)
    (down : ∀ s, ¬ Q s → ∃ i, W s i ∧ rank (step s i) < rank s) (s : σ) :
    ∃ is : List ι, Each step W s is ∧ Q (is.foldl step s) := by
  by_cases rested : Q s
  · exact ⟨[], trivial, rested⟩
  · obtain ⟨i, allowed, lower⟩ := down s rested
    obtain ⟨is, each, quiet⟩ := exists_rest rank down (step s i)
    exact ⟨i :: is, ⟨allowed, each⟩, quiet⟩
termination_by rank s

lemma each_forall {D : ι → Prop} : Each step (fun _ i => D i) s is ↔ ∀ i ∈ is, D i := by
  induction is generalizing s with
  | nil => exact iff_of_true trivial (forall_mem_nil _)
  | cons i is ih => exact (and_congr_right fun _ => ih).trans forall_mem_cons.symm

/-- When winding down neither breaks nor mends `P` and can always come to rest,
`P` holds wherever a run is stopped and comes to rest exactly when each of its
steps meets `C`. -/
lemma at_rest_iff (exact_step : ∀ s i, P s → (P (step s i) ↔ C s i))
    (still : ∀ s i, W s i → (P (step s i) ↔ P s))
    (rest : ∀ s, ∃ js : List ι, Each step W s js ∧ Q (js.foldl step s)) (hs : P s) (is : List ι) :
    (∀ before after windDown, is = before ++ after → Each step W (before.foldl step s) windDown →
      Q ((before ++ windDown).foldl step s) → P ((before ++ windDown).foldl step s)) ↔
      Each step C s is := by
  have keeps : ∀ (js : List ι) (s : σ), Each step W s js → (P (js.foldl step s) ↔ P s) := by
    intro js
    induction js with
    | nil => exact fun _ _ => Iff.rfl
    | cons j js ih => exact fun s only => (ih _ only.2).trans (still s j only.1)
  constructor
  · intro rests
    refine (always_iff_each exact_step hs is).mp (always_of_prefixes fun before after split => ?_)
    obtain ⟨windDown, only, quiet⟩ := rest (before.foldl step s)
    rw [← foldl_append] at quiet
    have last := rests before after windDown split only quiet
    rwa [foldl_append, keeps windDown _ only] at last
  · rintro each before after windDown rfl only -
    rw [foldl_append, keeps windDown _ only]
    exact foldl_of_each (fun s i h c => (exact_step s i h).mpr c) hs (each_append.mp each).1

end Run
