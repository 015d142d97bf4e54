import Mathlib
/-!
# State behind a cache

A state that survives a crash, and the changes since the last synchronisation, of
which a crash keeps any selection in their order.
-/
namespace Volatile
open List
variable {σ ω : Type*} (apply : σ → ω → σ)

structure Cached (σ ω : Type*) where
  durable : σ
  unsynced : List ω

section
variable (c : Cached σ ω)

def Cached.visible : σ := c.unsynced.foldl apply c.durable

def Cached.push (o : ω) : Cached σ ω := { c with unsynced := c.unsynced ++ [o] }

def Cached.sync : Cached σ ω := ⟨c.visible apply, []⟩

def survivors (keep : Nat → Bool) : Nat → List ω → List ω
  | _, [] => []
  | i, o :: os => if keep i then o :: survivors keep (i + 1) os else survivors keep (i + 1) os

def Cached.crash (keep : Nat → Bool) : Cached σ ω :=
  ⟨(survivors keep 0 c.unsynced).foldl apply c.durable, []⟩

end

variable {apply} {c : Cached σ ω}

@[simp] lemma visible_push (o : ω) : (c.push o).visible apply = apply (c.visible apply) o :=
  foldl_append

lemma mem_of_mem_survivors {keep : Nat → Bool} {o : ω} {os : List ω} {i : Nat}
    (h : o ∈ survivors keep i os) : o ∈ os := by
  induction os generalizing i with
  | nil => cases h
  | cons x os ih =>
    unfold survivors at h
    split at h
    · obtain rfl | h := mem_cons.mp h
      · exact mem_cons_self
      · exact mem_cons_of_mem x (ih h)
    · exact mem_cons_of_mem x (ih h)

end Volatile
