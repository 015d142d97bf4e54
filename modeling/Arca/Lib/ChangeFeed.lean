import Mathlib

/-!
# Change feeds

A store stamps every row a transaction writes with the next value of a counter. A
reader remembers the highest stamp it has consumed and asks for the rows stamped
above it, a page at a time and in stamp order.
-/
namespace ChangeFeed
open List
variable {ρ : Type*}

structure Store (ρ : Type*) where
  rows : List (ℕ × ρ)
  counter : ℕ

/-- One transaction: rows it removes, rows it rewrites and rows it adds. All it
writes carries the same stamp. -/
structure Write (ρ : Type*) where
  delete : ρ → Bool
  rewrite : ρ → Option ρ
  insert : List ρ

def Write.restamp (w : Write ρ) (seq : ℕ) (e : ℕ × ρ) : ℕ × ρ :=
  match w.rewrite e.2 with
  | some r => (seq, r)
  | none => e

def Write.onRows (w : Write ρ) (rows : List ρ) : List ρ :=
  (rows.filter fun r => !w.delete r).map (fun r => (w.rewrite r).getD r) ++ w.insert

namespace Store

section
variable (s : Store ρ)

def write (w : Write ρ) : Store ρ where
  rows := (s.rows.filter fun e => !w.delete e.2).map (w.restamp (s.counter + 1)) ++
    w.insert.map fun r => (s.counter + 1, r)
  counter := s.counter + 1

def drop (p : ρ → Bool) : Store ρ :=
  { s with rows := s.rows.filter fun e => !p e.2 }

def above (since : ℕ) : List (ℕ × ρ) := s.rows.filter fun e => since < e.1

def page (since limit : ℕ) : List (ℕ × ρ) :=
  ((s.above since).insertionSort fun a b => a.1 ≤ b.1).take limit

def stamped (w : Write ρ) : List ρ :=
  (s.rows.filter fun e => !w.delete e.2).filterMap (fun e => w.rewrite e.2) ++ w.insert

/-- Stamps lie between one and the counter, and two rows with one stamp are the
same row. -/
structure Ordered (s : Store ρ) : Prop where
  pos : ∀ e ∈ s.rows, 0 < e.1
  le : ∀ e ∈ s.rows, e.1 ≤ s.counter
  unique : ∀ e ∈ s.rows, ∀ e' ∈ s.rows, e.1 = e'.1 → e = e'

/-- Every row stamped at most `c` is one that `seen` holds of. -/
def Covered (seen : ℕ × ρ → Prop) (c : ℕ) : Prop := ∀ e ∈ s.rows, e.1 ≤ c → seen e

end

variable {s : Store ρ} {w : Write ρ} {seen seen' : ℕ × ρ → Prop} {c c' : ℕ} {since limit : ℕ}
  {e x : ℕ × ρ}

lemma mem_write (h : e ∈ (s.write w).rows) :
    e ∈ s.rows ∨ e.1 = s.counter + 1 ∧ e.2 ∈ s.stamped w := by
  rcases mem_append.mp h with old | new
  · obtain ⟨x, hx, rfl⟩ := mem_map.mp old
    unfold Write.restamp
    cases rewritten : w.rewrite x.2 with
    | some r =>
      exact .inr ⟨rfl, mem_append_left _ (mem_filterMap.mpr ⟨x, hx, rewritten⟩)⟩
    | none => exact .inl (mem_filter.mp hx).1
  · obtain ⟨r, hr, rfl⟩ := mem_map.mp new
    exact .inr ⟨rfl, mem_append_right _ hr⟩

lemma Covered.write (h : s.Covered seen c) (hc : c ≤ s.counter) : (s.write w).Covered seen c := by
  intro e he le
  rcases mem_write he with old | new
  · exact h e old le
  · exact absurd new.1 (by omega)

lemma Covered.drop (h : s.Covered seen c) (p : ρ → Bool) : (s.drop p).Covered seen c :=
  fun e he le => h e (mem_filter.mp he).1 le

lemma Covered.mono (h : s.Covered seen c) (weaken : ∀ e, seen e → seen' e) : s.Covered seen' c :=
  fun e he le => weaken e (h e he le)

lemma Ordered.drop (h : s.Ordered) (p : ρ → Bool) : (s.drop p).Ordered where
  pos e he := h.pos e (mem_filter.mp he).1
  le e he := h.le e (mem_filter.mp he).1
  unique e he e' he' := h.unique e (mem_filter.mp he).1 e' (mem_filter.mp he').1

lemma Ordered.covered_zero (h : s.Ordered) : s.Covered seen 0 :=
  fun e he le => absurd (h.pos e he) (by omega)

lemma Ordered.write (h : s.Ordered) (single : (s.stamped w).length ≤ 1) : (s.write w).Ordered where
  pos e he := by
    rcases mem_write he with old | new
    · exact h.pos e old
    · omega
  le e he := by
    rcases mem_write he with old | new
    · exact (h.le e old).trans (Nat.le_succ _)
    · exact new.1.le
  unique e he e' he' same := by
    rcases mem_write he with old | ⟨seq, row⟩ <;> rcases mem_write he' with old' | ⟨seq', row'⟩
    · exact h.unique e old e' old' same
    · exact absurd (h.le e old) (by omega)
    · exact absurd (h.le e' old') (by omega)
    · refine Prod.ext same ?_
      match stamped : s.stamped w, single with
      | [r], _ =>
        rw [stamped] at row row'
        exact (mem_singleton.mp row).trans (mem_singleton.mp row').symm
      | [], _ => simp [stamped] at row

lemma mem_above : e ∈ s.above since ↔ e ∈ s.rows ∧ since < e.1 := by
  simp [above]

lemma mem_of_mem_page (h : e ∈ s.page since limit) : e ∈ s.rows ∧ since < e.1 :=
  mem_above.mp ((mem_insertionSort _).mp (mem_of_mem_take h))

lemma sorted_page : (s.page since limit).Pairwise fun a b => a.1 ≤ b.1 :=
  (pairwise_insertionSort _ _).sublist (take_sublist _ _)

lemma mem_page_of_short (short : (s.page since limit).length < limit)
    (he : e ∈ s.rows) (above : since < e.1) : e ∈ s.page since limit := by
  have all : s.page since limit = (s.above since).insertionSort fun a b => a.1 ≤ b.1 := by
    unfold page at short ⊢
    rw [length_take] at short
    exact take_of_length_le (by omega)
  rw [all, mem_insertionSort]
  exact mem_above.mpr ⟨he, above⟩

lemma page_le_of_not_mem (he : e ∈ s.rows) (above : since < e.1)
    (absent : e ∉ s.page since limit) (hx : x ∈ s.page since limit) : x.1 ≤ e.1 := by
  have sorted := pairwise_insertionSort (fun a b : ℕ × ρ => a.1 ≤ b.1) (s.above since)
  rw [← take_append_drop limit (List.insertionSort _ _), pairwise_append] at sorted
  have mem : e ∈ (s.above since).insertionSort fun a b => a.1 ≤ b.1 :=
    (mem_insertionSort _).mpr (mem_above.mpr ⟨he, above⟩)
  rw [← take_append_drop limit (List.insertionSort _ _)] at mem
  rcases mem_append.mp mem with held | later
  · exact absurd held absent
  · exact sorted.2.2 x hx e later

/-- Having seen the rows up to `since` and a beginning of the next page, a reader
has seen all rows up to the last stamp of that beginning. -/
lemma Covered.page (h : s.Covered seen since) (ordered : s.Ordered) {p q : List (ℕ × ρ)}
    (eq : s.page since limit = p ++ x :: q) (read : ∀ e ∈ p ++ [x], seen e) :
    s.Covered seen x.1 := by
  intro e he le
  by_cases above : since < e.1
  · have hx : x ∈ s.page since limit := by simp [eq]
    have xrow := (mem_of_mem_page hx).1
    by_cases same : e.1 = x.1
    · exact ordered.unique e he x xrow same ▸ read x (by simp)
    · have held : e ∈ s.page since limit := by
        by_contra absent
        exact same (le_antisymm le (page_le_of_not_mem he above absent hx))
      -- what comes after `x` in the page is stamped no lower than `x`
      rw [eq] at held
      rcases mem_append.mp held with before | rest
      · exact read e (mem_append_left _ before)
      · rcases mem_cons.mp rest with rfl | after
        · exact absurd rfl same
        · have sorted : (s.page since limit).Pairwise fun a b => a.1 ≤ b.1 := sorted_page
          rw [eq, pairwise_append, pairwise_cons] at sorted
          exact absurd (le_antisymm le (sorted.2.1.1 e after)) same
  · exact h e he (not_lt.mp above)

end Store
end ChangeFeed
