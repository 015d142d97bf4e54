import Mathlib

/-!
# One flagged greatest row

Rows carry a flag. A list of rows is `Current` when the flag marks exactly one
greatest live row, and no row at all when none is live.
-/
namespace CurrentRow
open List
variable {α κ : Type*} [LinearOrder κ]

/-- How the rows of a table are read: which are live, which carry the flag, and
the rank by which live rows are ordered. -/
structure Reading (α κ : Type*) where
  live : α → Bool
  flag : α → Bool
  rank : α → κ

variable {R : Reading α κ} {rows : List α}

structure Current (R : Reading α κ) (rows : List α) : Prop where
  unique : rows.countP R.flag ≤ 1
  greatest : ∀ r ∈ rows, R.flag r → R.live r ∧ ∀ x ∈ rows, R.live x → R.rank x ≤ R.rank r
  present : (∃ r ∈ rows, R.live r) → ∃ r ∈ rows, R.flag r

lemma Current.nil : Current R [] := ⟨by simp, by simp, by simp⟩

variable {r : α} {p : α → Bool}

lemma Current.filter (h : Current R rows) (hp : ∀ r ∈ rows, R.live r → p r) :
    Current R (rows.filter p) := by
  refine ⟨(filter_sublist.countP_le).trans h.unique, ?_, ?_⟩
  · intro r hr flag
    obtain ⟨live, le⟩ := h.greatest r (mem_of_mem_filter hr) flag
    exact ⟨live, fun x hx => le x (mem_of_mem_filter hx)⟩
  · rintro ⟨r, hr, live⟩
    obtain ⟨x, hx, flag⟩ := h.present ⟨r, mem_of_mem_filter hr, live⟩
    exact ⟨x, mem_filter.mpr ⟨hx, hp x hx (h.greatest x hx flag).1⟩, flag⟩

/-- Appending a flagged live row to unflagged ones is right exactly when the row
is a greatest one. -/
lemma current_append_iff (unflagged : ∀ x ∈ rows, R.flag x = false) (live : R.live r)
    (flag : R.flag r) : Current R (rows ++ [r]) ↔ ∀ x ∈ rows, R.live x → R.rank x ≤ R.rank r := by
  constructor
  · intro h x hx hlive
    exact (h.greatest r (by simp) flag).2 x (by simp [hx]) hlive
  · intro h
    have only : ∀ x ∈ rows ++ [r], R.flag x → x = r := by
      intro x hx hflag
      rcases mem_append.mp hx with hx | hx
      · exact absurd hflag (by simp [unflagged x hx])
      · exact mem_singleton.mp hx
    refine ⟨?_, ?_, fun _ => ⟨r, by simp, flag⟩⟩
    · have none : rows.countP R.flag = 0 :=
        countP_eq_zero.mpr fun x hx => by simp [unflagged x hx]
      simp [countP_append, none, flag]
    · intro x hx hflag
      obtain rfl := only x hx hflag
      refine ⟨live, fun y hy hlive => ?_⟩
      rcases mem_append.mp hy with hy | hy
      · exact h y hy hlive
      · rw [mem_singleton.mp hy]

/-- `f` on the first row that satisfies `p`, and on no other. -/
def updateFirst (p : α → Bool) (f : α → α) : List α → List α
  | [] => []
  | r :: rows => if p r then f r :: rows else r :: updateFirst p f rows

lemma updateFirst_concat (f : α → α) (others : ∀ x ∈ rows, p x = false)
    (hit : p r = true) : updateFirst p f (rows ++ [r]) = rows ++ [f r] := by
  induction rows with
  | nil => simp [updateFirst, hit]
  | cons x rows ih =>
    rw [forall_mem_cons] at others
    simp [updateFirst, others.1, ih others.2]

lemma updateFirst_eq_self {f : α → α} (h : ∀ r ∈ rows, p r = false) :
    updateFirst p f rows = rows := by
  induction rows with
  | nil => rfl
  | cons r rows ih =>
    rw [updateFirst, h r mem_cons_self, if_neg Bool.false_ne_true,
      ih fun x hx => h x (mem_cons_of_mem r hx)]

lemma updateFirst_split (f : α → α) (h : ∃ r ∈ rows, p r) :
    ∃ before r after, rows = before ++ r :: after ∧ p r ∧
      updateFirst p f rows = before ++ f r :: after := by
  induction rows with
  | nil => obtain ⟨r, hr, _⟩ := h; cases hr
  | cons a rows ih =>
    by_cases ha : p a
    · exact ⟨[], a, rows, rfl, ha, by rw [updateFirst, if_pos ha]; rfl⟩
    · have tail : ∃ r ∈ rows, p r := by
        simp_all
      obtain ⟨before, r, after, rfl, hr, eq⟩ := ih tail
      exact ⟨a :: before, r, after, rfl, hr, by rw [updateFirst, if_neg ha, eq]; rfl⟩

/-- Flagging the first greatest live row of unflagged rows makes them current. -/
lemma current_updateFirst {f : α → α} (unflagged : ∀ x ∈ rows, R.flag x = false)
    (hp : ∀ r ∈ rows, p r ↔ R.live r ∧ ∀ x ∈ rows, R.live x → R.rank x ≤ R.rank r)
    (flag : ∀ r, R.flag (f r)) (live : ∀ r, R.live (f r) = R.live r)
    (rank : ∀ r, R.rank (f r) = R.rank r) : Current R (updateFirst p f rows) := by
  by_cases some_live : ∃ r ∈ rows, R.live r
  · obtain ⟨a, ha, hal⟩ := some_live
    obtain ⟨m, ⟨hm, hml⟩, hmax⟩ := Set.exists_max_image {x | x ∈ rows ∧ R.live x} R.rank
      ((finite_toSet rows).subset fun x hx => hx.1) ⟨a, ha, hal⟩
    obtain ⟨before, r, after, rfl, hr, eq⟩ := updateFirst_split f
      ⟨m, hm, (hp m hm).mpr ⟨hml, fun x hx hxl => hmax x ⟨hx, hxl⟩⟩⟩
    obtain ⟨hrl, hrmax⟩ := (hp r (by simp)).mp hr
    have others : ∀ x, x ∈ before ∨ x ∈ after → x ∈ before ++ r :: after := by
      rintro x (hx | hx) <;> simp [hx]
    have mem : ∀ x ∈ before ++ f r :: after, x = f r ∨ x ∈ before ∨ x ∈ after := by
      intro x hx
      simp only [mem_append, mem_cons] at hx
      tauto
    rw [eq]
    refine ⟨?_, ?_, fun _ => ⟨f r, by simp, flag r⟩⟩
    · have none : ∀ l : List α, (∀ x ∈ l, x ∈ before ++ r :: after) → l.countP R.flag = 0 :=
        fun l hl => countP_eq_zero.mpr fun x hx => by simp [unflagged x (hl x hx)]
      rw [countP_append, countP_cons, none before fun x hx => others x (.inl hx),
        none after fun x hx => others x (.inr hx)]
      split <;> simp
    · intro x hx hflag
      rcases mem x hx with rfl | hx
      · refine ⟨(live r).trans hrl, fun y hy hyl => ?_⟩
        rw [rank]
        rcases mem y hy with rfl | hy
        · exact (rank r).le
        · exact hrmax y (others y hy) hyl
      · exact absurd hflag (by simp [unflagged x (others x hx)])
  · rw [updateFirst_eq_self fun r hr => Bool.eq_false_iff.mpr fun h =>
      some_live ⟨r, hr, ((hp r hr).mp h).1⟩]
    refine ⟨by rw [countP_eq_zero.mpr fun x hx => by simp [unflagged x hx]]; omega, ?_, ?_⟩
    · intro r hr hflag
      exact absurd hflag (by simp [unflagged r hr])
    · intro h
      exact absurd h some_live

end CurrentRow
