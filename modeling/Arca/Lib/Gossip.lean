import Mathlib

/-!
# Nodes that merge each other's states

A node pulls from another one by merging the other's state into its own. What
every merge keeps holds on all nodes after any sequence of pulls; what some node
knows and a merge may only lose in favour of the other side stays known to some
node.
-/
namespace Gossip
open Function
variable {ν σ : Type*} [DecidableEq ν] (merge : σ → σ → σ)

def pull (s : ν → σ) (e : ν × ν) : ν → σ :=
  if e.1 = e.2 then s else update s e.1 (merge (s e.1) (s e.2))

variable {merge} {P Q : σ → Prop} {s : ν → σ}

section
variable (keep : ∀ x y, P x → P y → P (merge x y))
include keep

lemma forall_pull (h : ∀ n, P (s n)) (e : ν × ν) :
    ∀ n, P (pull merge s e n) := by
  intro n
  unfold pull
  split
  · exact h n
  · by_cases same : n = e.1
    · rw [same, update_self]
      exact keep _ _ (h _) (h _)
    · rw [update_of_ne same]
      exact h n

lemma forall_run (h : ∀ n, P (s n))
    (es : List (ν × ν)) : ∀ n, P (es.foldl (pull merge) s n) := by
  induction es generalizing s with
  | nil => exact h
  | cons e es ih => exact ih (forall_pull keep h e)

/-- What a node keeps in every merge it keeps in every run. -/
lemma node_run
    (stay : ∀ x y, P x → P y → Q x → Q (merge x y)) (h : ∀ n, P (s n)) {n : ν} (hn : Q (s n))
    (es : List (ν × ν)) : Q (es.foldl (pull merge) s n) := by
  induction es generalizing s with
  | nil => exact hn
  | cons e es ih =>
    refine ih (forall_pull keep h e) ?_
    unfold pull
    split
    · exact hn
    · by_cases same : n = e.1
      · subst same
        rw [update_self]
        exact stay _ _ (h _) (h _) hn
      · rwa [update_of_ne same]

end

lemma exists_pull (pass : ∀ x y, P x → P y → Q x → Q (merge x y) ∨ Q y) (h : ∀ n, P (s n))
    (known : ∃ n, Q (s n)) (e : ν × ν) : ∃ n, Q (pull merge s e n) := by
  obtain ⟨n, hn⟩ := known
  unfold pull
  split
  · exact ⟨n, hn⟩
  · next distinct =>
      by_cases same : n = e.1
      · subst same
        rcases pass _ _ (h _) (h e.2) hn with merged | other
        · exact ⟨e.1, by rwa [update_self]⟩
        · exact ⟨e.2, by rwa [update_of_ne (Ne.symm distinct)]⟩
      · exact ⟨n, by rwa [update_of_ne same]⟩

lemma exists_run (keep : ∀ x y, P x → P y → P (merge x y))
    (pass : ∀ x y, P x → P y → Q x → Q (merge x y) ∨ Q y) (h : ∀ n, P (s n))
    (known : ∃ n, Q (s n)) (es : List (ν × ν)) : ∃ n, Q (es.foldl (pull merge) s n) := by
  induction es generalizing s with
  | nil => exact known
  | cons e es ih => exact ih (forall_pull keep h e) (exists_pull pass h known e)

end Gossip
