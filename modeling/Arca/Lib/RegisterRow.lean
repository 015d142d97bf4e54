import Mathlib

/-!
# Rows made of two timestamped registers

A row is ordered first by its own stamp. Two rows of one stamp and one tag are two
copies of the same write: each of their registers follows its own stamp. Two rows of
one stamp and different tags are rival writes, and the rank of the body value decides
between them.
-/
namespace RegisterRow
open List Option

structure Register (σ α : Type*) where
  stamp : σ
  value : α
  deriving DecidableEq, Repr

section Registers
variable {σ α : Type*} [LinearOrder σ]

/-- The incoming register is taken only when it is strictly newer. -/
def Register.newer (mine incoming : Register σ α) : Register σ α :=
  if mine.stamp < incoming.stamp then incoming else mine

lemma Register.newer_cases (a b : Register σ α) :
    (a.stamp < b.stamp ∧ a.newer b = b) ∨ (b.stamp ≤ a.stamp ∧ a.newer b = a) := by
  by_cases h : a.stamp < b.stamp
  · exact .inl ⟨h, if_pos h⟩
  · exact .inr ⟨not_lt.mp h, if_neg h⟩

variable {a b : Register σ α}

lemma Register.newer_of_le (h : b.stamp ≤ a.stamp) : a.newer b = a :=
  if_neg (not_lt.mpr h)

lemma Register.le_newer_left (a b : Register σ α) : a.stamp ≤ (a.newer b).stamp := by
  rcases a.newer_cases b with ⟨h, e⟩ | ⟨_, e⟩ <;> rw [e]
  exact h.le

lemma Register.le_newer_right (a b : Register σ α) : b.stamp ≤ (a.newer b).stamp := by
  rcases a.newer_cases b with ⟨_, e⟩ | ⟨h, e⟩ <;> rw [e]
  exact h

lemma Register.newer_lt {t : σ} (ha : a.stamp < t) (hb : b.stamp < t) :
    (a.newer b).stamp < t := by
  rcases a.newer_cases b with ⟨_, e⟩ | ⟨_, e⟩ <;> rw [e]
  · exact hb
  · exact ha

/-- The first of the elements of `l` with the greatest value of `f`. -/
def FirstGreatest {β : Type*} (f : β → σ) (l : List β) (b : β) : Prop :=
  ∃ before after, l = before ++ b :: after ∧ (∀ x ∈ before, f x < f b) ∧ ∀ x ∈ after, f x ≤ f b

variable {β : Type*} {f : β → σ} {l : List β} {x : β}

lemma FirstGreatest.singleton (x : β) : FirstGreatest f [x] x := ⟨[], [], rfl, by simp, by simp⟩

lemma FirstGreatest.append (h : FirstGreatest f l x) (y : β) :
    FirstGreatest f (l ++ [y]) (if f x < f y then y else x) := by
  obtain ⟨before, after, rfl, older, kept⟩ := h
  split_ifs with newer
  · refine ⟨before ++ x :: after, [], rfl, fun z hz => ?_, by simp⟩
    rcases mem_append.mp hz with hz | hz
    · exact (older z hz).trans newer
    · rcases mem_cons.mp hz with rfl | hz
      · exact newer
      · exact (kept z hz).trans_lt newer
  · refine ⟨before, after ++ [y], by simp, older, fun z hz => ?_⟩
    rcases mem_append.mp hz with hz | hz
    · exact kept z hz
    · rw [mem_singleton.mp hz]
      exact not_lt.mp newer

end Registers

/-- One row: `tag` tells rival writes of one stamp apart, `base` never changes
after the write, `side` and `body` are changed in place. -/
structure Row (τ η β σ L C : Type*) where
  stamp : τ
  tag : η
  base : β
  side : Register σ L
  body : Register σ C
  deriving DecidableEq

variable {τ η β σ L C κ : Type*} [LinearOrder τ] [DecidableEq η] [LinearOrder σ] [LinearOrder κ]

section
variable (rank : C → κ)

def merge (mine incoming : Row τ η β σ L C) : Row τ η β σ L C :=
  if mine.stamp < incoming.stamp then incoming
  else if incoming.stamp < mine.stamp then mine
  else if incoming.tag = mine.tag then
    { mine with side := mine.side.newer incoming.side, body := mine.body.newer incoming.body }
  else if rank mine.body.value < rank incoming.body.value then incoming
  else mine

def absorb : Option (Row τ η β σ L C) → Row τ η β σ L C → Option (Row τ η β σ L C)
  | none, r => some r
  | some s, r => some (merge rank s r)

def deliver (l : List (Row τ η β σ L C)) : Option (Row τ η β σ L C) :=
  l.foldl (absorb rank) none

/-- `l` delivers exactly the rows of `R`, each at least once. -/
def Covers (R l : List (Row τ η β σ L C)) : Prop := ∀ r, r ∈ l ↔ r ∈ R

def OrderIndependent (R : List (Row τ η β σ L C)) : Prop :=
  ∀ l l', Covers R l → Covers R l' → deliver rank l = deliver rank l'

end

variable {rank : C → κ} {s r : Row τ η β σ L C} {R l : List (Row τ η β σ L C)} {e : η}

lemma merge_newer (h : s.stamp < r.stamp) : merge rank s r = r := if_pos h

lemma merge_older (h : r.stamp < s.stamp) : merge rank s r = s := by
  rw [merge, if_neg (not_lt.mpr h.le), if_pos h]

lemma merge_same (hs : r.stamp = s.stamp) (ht : r.tag = s.tag) :
    merge rank s r = { s with side := s.side.newer r.side, body := s.body.newer r.body } := by
  rw [merge, if_neg hs.le.not_gt, if_neg hs.ge.not_gt, if_pos ht]

lemma merge_rival (hs : r.stamp = s.stamp) (ht : r.tag ≠ s.tag)
    (hr : rank s.body.value < rank r.body.value) : merge rank s r = r := by
  rw [merge, if_neg hs.le.not_gt, if_neg hs.ge.not_gt, if_neg ht, if_pos hr]

lemma merge_refused (hs : r.stamp = s.stamp) (ht : r.tag ≠ s.tag)
    (hr : rank r.body.value ≤ rank s.body.value) : merge rank s r = s := by
  rw [merge, if_neg hs.le.not_gt, if_neg hs.ge.not_gt, if_neg ht, if_neg (not_lt.mpr hr)]

@[simp] lemma foldl_absorb_some (s : Row τ η β σ L C) (l : List (Row τ η β σ L C)) :
    l.foldl (absorb rank) (some s) = some (l.foldl (merge rank) s) := by
  induction l generalizing s with
  | nil => rfl
  | cons r l ih => exact ih (merge rank s r)

lemma deliver_cons (r : Row τ η β σ L C) (l : List (Row τ η β σ L C)) :
    deliver rank (r :: l) = some (l.foldl (merge rank) r) := foldl_absorb_some r l

lemma merge_parts (rank : C → κ) (s r : Row τ η β σ L C) :
    merge rank s r = r ∨ merge rank s r = s ∨ (r.tag = s.tag ∧ merge rank s r =
      { s with side := s.side.newer r.side, body := s.body.newer r.body }) := by
  unfold merge
  split_ifs with _ _ tag
  · exact .inl rfl
  · exact .inr (.inl rfl)
  · exact .inr (.inr ⟨tag, rfl⟩)
  · exact .inl rfl
  · exact .inr (.inl rfl)

lemma merge_self (r : Row τ η β σ L C) : merge rank r r = r := by
  rw [merge_same rfl rfl, Register.newer_of_le le_rfl, Register.newer_of_le le_rfl]

/-- A second delivery of the same row changes nothing. -/
lemma merge_merge (s r : Row τ η β σ L C) : merge rank (merge rank s r) r = merge rank s r := by
  rcases merge_parts rank s r with h | h | ⟨tag, h⟩
  · rw [h, merge_self]
  · rw [h, h]
  · by_cases stamp : r.stamp = s.stamp
    · rw [merge_same stamp tag]
      have again : merge rank { s with side := s.side.newer r.side, body := s.body.newer r.body } r =
          _ := merge_same stamp tag
      rw [again]
      simp only [Register.newer_of_le (Register.le_newer_right _ _)]
    · rcases lt_or_gt_of_ne stamp with hlt | hlt
      · rw [merge_older hlt, merge_older hlt]
      · rw [merge_newer hlt, merge_self]

lemma absorb_absorb (o : Option (Row τ η β σ L C)) (r : Row τ η β σ L C) :
    absorb rank (absorb rank o r) r = absorb rank o r := by
  cases o with
  | none => exact congrArg some (merge_self r)
  | some s => exact congrArg some (merge_merge s r)

lemma deliver_flatMap_replicate (n : Row τ η β σ L C → ℕ) (l : List (Row τ η β σ L C))
    (hn : ∀ r ∈ l, n r ≠ 0) :
    deliver rank (l.flatMap fun r => List.replicate (n r) r) = deliver rank l := by
  have once : ∀ (k : ℕ) (o : Option (Row τ η β σ L C)) (r : Row τ η β σ L C), k ≠ 0 →
      (List.replicate k r).foldl (absorb rank) o = absorb rank o r := by
    intro k o r hk
    induction k generalizing o with
    | zero => exact absurd rfl hk
    | succ k ih =>
      cases k with
      | zero => rfl
      | succ k => rw [replicate_succ, foldl_cons, ih _ (by omega), absorb_absorb]
  unfold deliver
  generalize (none : Option (Row τ η β σ L C)) = o
  induction l generalizing o with
  | nil => rfl
  | cons r l ih =>
    rw [flatMap_cons, foldl_append, once _ _ _ (hn r mem_cons_self),
      ih (fun x hx => hn x (mem_cons_of_mem r hx)), foldl_cons]

variable {P : Row τ η β σ L C → Prop}

/-- An invariant of the held row: what every delivered row establishes on an
empty place and every merge preserves. -/
lemma deliver_invariant (first : ∀ r ∈ l, P r)
    (step : ∀ s r, P s → r ∈ l → P (merge rank s r)) {F : Row τ η β σ L C}
    (h : deliver rank l = some F) : P F := by
  cases l with
  | nil => cases h
  | cons a l =>
    rw [deliver_cons, some.injEq] at h
    subst h
    refine List.foldlRecOn l (merge rank) (first a mem_cons_self) ?_
    intro s hs r hr
    exact step s r hs (mem_cons_of_mem a hr)

/-- What copies of one write share is that of some row delivered. -/
lemma exists_of_deliver {α : Type*} (f : Row τ η β σ L C → α) {F : Row τ η β σ L C}
    (same : ∀ (s : Row τ η β σ L C) side body, f { s with side := side, body := body } = f s)
    (h : deliver rank l = some F) : ∃ r ∈ l, f r = f F := by
  refine deliver_invariant (P := fun s => ∃ r ∈ l, f r = f s) (fun r hr => ⟨r, hr, rfl⟩) ?_ h
  intro s r hs hr
  rcases merge_parts rank s r with e | e | ⟨_, e⟩ <;> rw [e]
  · exact ⟨r, hr, rfl⟩
  · exact hs
  · rwa [same]

/-- A property that delivering `a` establishes, whatever was held before, and
that later deliveries keep, holds of the final row. -/
lemma deliver_from_mem {D : Row τ η β σ L C → Prop} {a F : Row τ η β σ L C} (ha : a ∈ l)
    (first : ∀ r ∈ l, D r) (step : ∀ s r, D s → r ∈ l → D (merge rank s r)) (start : P a)
    (enter : ∀ s, D s → P (merge rank s a)) (keep : ∀ s r, P s → r ∈ l → P (merge rank s r))
    (h : deliver rank l = some F) : P F := by
  obtain ⟨p, q, rfl⟩ := append_of_mem ha
  have hq : ∀ s, P s → P (q.foldl (merge rank) s) := fun s hs =>
    List.foldlRecOn q (merge rank) hs fun s hs r hr => keep s r hs (by simp [hr])
  rw [deliver, foldl_append] at h
  change q.foldl (absorb rank) (absorb rank (deliver rank p) a) = some F at h
  cases hp : deliver rank p with
  | none =>
    rw [hp, absorb, foldl_absorb_some, some.injEq] at h
    exact h ▸ hq a start
  | some s =>
    rw [hp, absorb, foldl_absorb_some, some.injEq] at h
    have hs : D s := deliver_invariant (l := p) (fun r hr => first r (by simp [hr]))
      (fun s r hs hr => step s r hs (by simp [hr])) hp
    exact h ▸ hq _ (enter s hs)

section
variable (R : List (Row τ η β σ L C))

/-- No row of `R` is newer than `s`. -/
def Atop (s : Row τ η β σ L C) : Prop := ∀ x ∈ R, x.stamp ≤ s.stamp

structure Lead (R : List (Row τ η β σ L C)) (e : η) (r : Row τ η β σ L C) : Prop where
  mem : r ∈ R
  top : Atop R r
  tag : r.tag = e

structure Rival (R : List (Row τ η β σ L C)) (e : η) (r : Row τ η β σ L C) : Prop where
  mem : r ∈ R
  top : Atop R r
  tag : r.tag ≠ e

def SideMax (e : η) (r : Row τ η β σ L C) : Prop :=
  Lead R e r ∧ ∀ x, Lead R e x → x.side.stamp ≤ r.side.stamp

def BodyMax (e : η) (r : Row τ η β σ L C) : Prop :=
  Lead R e r ∧ ∀ x, Lead R e x → x.body.stamp ≤ r.body.stamp

end

/-- The writes of tag `e` survive every order of delivery, and come out alike. -/
structure Settles (rank : C → κ) (R : List (Row τ η β σ L C)) (e : η) : Prop where
  base : ∀ r x, Lead R e r → Lead R e x → r.base = x.base
  side : ∀ r x, SideMax R e r → SideMax R e x → r.side = x.side
  body : ∀ r x, BodyMax R e r → BodyMax R e x → r.body = x.body
  outranks : ∀ k z, BodyMax R e k → Rival R e z → rank z.body.value < rank k.body.value
  keeps : ∃ k, SideMax R e k ∧ ∀ z, Rival R e z → rank z.body.value < rank k.body.value ∧
    ∀ x, Lead R e x → k.body.stamp ≤ x.body.stamp → rank z.body.value ≤ rank x.body.value

/-- Where a held row can come from: its stamp from some row, and when that is the
newest stamp, each of its parts from a newest row on the same side of `e`. -/
structure Derived (R : List (Row τ η β σ L C)) (e : η) (s : Row τ η β σ L C) : Prop where
  stamp : ∃ r ∈ R, r.stamp = s.stamp
  lead : Atop R s → s.tag = e → (∃ r, Lead R e r ∧ r.base = s.base) ∧
    (∃ r, Lead R e r ∧ r.side = s.side) ∧ ∃ r, Lead R e r ∧ r.body = s.body
  rival : Atop R s → s.tag ≠ e → ∃ r, Rival R e r ∧ r.body = s.body

omit [DecidableEq η] [LinearOrder σ] in
lemma Derived.of_mem (h : r ∈ R) : Derived R e r where
  stamp := ⟨r, h, rfl⟩
  lead top tag := ⟨⟨r, ⟨h, top, tag⟩, rfl⟩, ⟨r, ⟨h, top, tag⟩, rfl⟩, ⟨r, ⟨h, top, tag⟩, rfl⟩⟩
  rival top tag := ⟨r, ⟨h, top, tag⟩, rfl⟩

omit [LinearOrder τ] [DecidableEq η] in
lemma Register.newer_derived {α : Type*}
    {f : Row τ η β σ L C → Register σ α} {a : Register σ α} (ha : ∃ x, P x ∧ f x = a) (hr : P r) :
    ∃ x, P x ∧ f x = a.newer (f r) := by
  rcases a.newer_cases (f r) with ⟨_, e⟩ | ⟨_, e⟩ <;> rw [e]
  · exact ⟨r, hr, rfl⟩
  · exact ha

lemma Derived.merge (rank : C → κ) (hs : Derived R e s) (hr : r ∈ R) : Derived R e (merge rank s r) := by
  rcases lt_trichotomy s.stamp r.stamp with h | h | h
  · rw [merge_newer h]
    exact .of_mem hr
  · by_cases ht : r.tag = s.tag
    · rw [merge_same h.symm ht]
      refine ⟨hs.stamp, ?_, ?_⟩
      · intro top tag
        have lead : Lead R e r := ⟨hr, fun x hx => h ▸ top x hx, ht.trans tag⟩
        obtain ⟨hb, hside, hbody⟩ := hs.lead top tag
        exact ⟨hb, Register.newer_derived hside lead, Register.newer_derived hbody lead⟩
      · intro top tag
        have rival : Rival R e r := ⟨hr, fun x hx => h ▸ top x hx, fun hc => tag (ht.symm.trans hc)⟩
        exact Register.newer_derived (f := Row.body) (hs.rival top tag) rival
    · rcases lt_or_ge (rank s.body.value) (rank r.body.value) with hk | hk
      · rw [merge_rival h.symm ht hk]
        exact .of_mem hr
      · rw [merge_refused h.symm ht hk]
        exact hs
  · rw [merge_older h]
    exact hs

/-- What one delivery can do to a held newest row of tag `e`: nothing, merge a
copy of the same write into it, or lose it to a rival of higher rank. -/
lemma merge_cases_of_atop (rank : C → κ) (top : Atop R s) (tag : s.tag = e) (hr : r ∈ R) :
    merge rank s r = s ∨
    (Lead R e r ∧ merge rank s r =
      { s with side := s.side.newer r.side, body := s.body.newer r.body }) ∨
    (Rival R e r ∧ rank s.body.value < rank r.body.value ∧ merge rank s r = r) := by
  rcases (top r hr).lt_or_eq with h | h
  · exact .inl (merge_older h)
  · have atop : Atop R r := fun x hx => h ▸ top x hx
    by_cases ht : r.tag = s.tag
    · exact .inr (.inl ⟨⟨hr, atop, ht.trans tag⟩, merge_same h ht⟩)
    · rcases lt_or_ge (rank s.body.value) (rank r.body.value) with hk | hk
      · exact .inr (.inr ⟨⟨hr, atop, fun hc => ht (hc.trans tag.symm)⟩, hk, merge_rival h ht hk⟩)
      · exact .inl (merge_refused h ht hk)

/-- What delivering a newest row of tag `e` does to any held row: it takes the
place over, is merged into a row of its tag, or is refused by a rival. -/
lemma merge_lead_cases (rank : C → κ) (hs : Derived R e s) (hr : Lead R e r) :
    merge rank s r = r ∨
    (Atop R s ∧ s.tag = e ∧ merge rank s r =
      { s with side := s.side.newer r.side, body := s.body.newer r.body }) ∨
    (∃ z, Rival R e z ∧ z.body = s.body ∧ rank r.body.value ≤ rank z.body.value) := by
  obtain ⟨x, hx, hxs⟩ := hs.stamp
  rcases (hxs ▸ hr.top x hx : s.stamp ≤ r.stamp).lt_or_eq with h | h
  · exact .inl (merge_newer h)
  · have top : Atop R s := fun y hy => h ▸ hr.top y hy
    by_cases tag : s.tag = e
    · exact .inr (.inl ⟨top, tag, merge_same h.symm (hr.tag.trans tag.symm)⟩)
    · obtain ⟨z, hz, hb⟩ := hs.rival top tag
      have ht : r.tag ≠ s.tag := fun hc => tag (hc.symm.trans hr.tag)
      rcases lt_or_ge (rank s.body.value) (rank r.body.value) with hk | hk
      · exact .inl (merge_rival h.symm ht hk)
      · exact .inr (.inr ⟨z, hz, hb, hb ▸ hk⟩)

/-- The newest body of the surviving write is held, for good. -/
structure HoldsBody (R : List (Row τ η β σ L C)) (e : η) (k s : Row τ η β σ L C) : Prop where
  derived : Derived R e s
  top : Atop R s
  tag : s.tag = e
  body : s.body = k.body

/-- The newest side is held together with a body no older than its own row's. -/
structure HoldsSide (R : List (Row τ η β σ L C)) (e : η) (k s : Row τ η β σ L C) : Prop where
  derived : Derived R e s
  top : Atop R s
  tag : s.tag = e
  side : s.side = k.side
  body : k.body.stamp ≤ s.body.stamp

section Settled
variable {k : Row τ η β σ L C}

omit [DecidableEq η] in
/-- A held register at least as new is that of another row with the newest one. -/
lemma newer_eq_of_max {α : Type*} {f : Row τ η β σ L C → Register σ α} {a : Register σ α}
    (hk : ∀ y, Lead R e y → (f y).stamp ≤ (f k).stamp) (held : ∃ x, Lead R e x ∧ f x = a)
    (tie : ∀ x, (Lead R e x ∧ ∀ y, Lead R e y → (f y).stamp ≤ (f x).stamp) → f x = f k) :
    a.newer (f k) = f k := by
  rcases a.newer_cases (f k) with ⟨_, eq⟩ | ⟨hle, eq⟩
  · exact eq
  · obtain ⟨x, hx, rfl⟩ := held
    exact eq.trans (tie x ⟨hx, fun y hy => (hk y hy).trans hle⟩)

lemma HoldsBody.enter (settled : Settles rank R e) (hk : BodyMax R e k) (hs : Derived R e s) :
    HoldsBody R e k (merge rank s k) := by
  have derived := hs.merge rank hk.1.mem
  rcases merge_lead_cases rank hs hk.1 with eq | ⟨top, tag, eq⟩ | ⟨z, hz, hb, hle⟩
  · rw [eq] at derived ⊢
    exact ⟨derived, hk.1.top, hk.1.tag, rfl⟩
  · rw [eq] at derived ⊢
    exact ⟨derived, top, tag, newer_eq_of_max hk.2 (hs.lead top tag).2.2
      fun x hx => settled.body x k hx hk⟩
  · exact absurd (settled.outranks k z hk hz) (not_lt.mpr hle)

lemma HoldsBody.keep (settled : Settles rank R e) (hk : BodyMax R e k)
    (hs : HoldsBody R e k s) (hr : r ∈ R) : HoldsBody R e k (merge rank s r) := by
  have derived := hs.derived.merge rank hr
  rcases merge_cases_of_atop rank hs.top hs.tag hr with eq | ⟨lead, eq⟩ | ⟨rival, hlt, _⟩
  · rw [eq]
    exact hs
  · rw [eq] at derived ⊢
    refine ⟨derived, hs.top, hs.tag, ?_⟩
    exact (Register.newer_of_le (hs.body ▸ hk.2 r lead)).trans hs.body
  · exact absurd (settled.outranks k r hk rival) (not_lt.mpr (hs.body ▸ hlt.le))

/-- The clause of `Settles.keeps` for one chosen row. -/
def Kept (rank : C → κ) (R : List (Row τ η β σ L C)) (e : η) (k : Row τ η β σ L C) : Prop :=
  ∀ z, Rival R e z → rank z.body.value < rank k.body.value ∧
    ∀ x, Lead R e x → k.body.stamp ≤ x.body.stamp → rank z.body.value ≤ rank x.body.value

lemma HoldsSide.enter (settled : Settles rank R e) (hk : SideMax R e k)
    (kept : Kept rank R e k) (hs : Derived R e s) : HoldsSide R e k (merge rank s k) := by
  have derived := hs.merge rank hk.1.mem
  rcases merge_lead_cases rank hs hk.1 with eq | ⟨top, tag, eq⟩ | ⟨z, hz, hb, hle⟩
  · rw [eq] at derived ⊢
    exact ⟨derived, hk.1.top, hk.1.tag, rfl, le_rfl⟩
  · rw [eq] at derived ⊢
    exact ⟨derived, top, tag, newer_eq_of_max hk.2 (hs.lead top tag).2.1
      fun x hx => settled.side x k hx hk, Register.le_newer_right _ _⟩
  · exact absurd (kept z hz).1 (not_lt.mpr hle)

lemma HoldsSide.keep (hk : SideMax R e k) (kept : Kept rank R e k) (hs : HoldsSide R e k s)
    (hr : r ∈ R) : HoldsSide R e k (merge rank s r) := by
  have derived := hs.derived.merge rank hr
  rcases merge_cases_of_atop rank hs.top hs.tag hr with eq | ⟨lead, eq⟩ | ⟨rival, hlt, _⟩
  · rw [eq]
    exact hs
  · rw [eq] at derived ⊢
    refine ⟨derived, hs.top, hs.tag, ?_, hs.body.trans (Register.le_newer_left _ _)⟩
    exact (Register.newer_of_le (hs.side ▸ hk.2 r lead)).trans hs.side
  · -- the held body is as new as the kept row's, so no rival outranks it
    obtain ⟨x, hx, hbody⟩ := (hs.derived.lead hs.top hs.tag).2.2
    have hle := (kept r rival).2 x hx (hbody ▸ hs.body)
    exact absurd hlt (not_lt.mpr (hbody ▸ hle))

omit [LinearOrder τ] [DecidableEq η] [LinearOrder σ] in
lemma exists_greatest {α : Type*} [LinearOrder α] (f : Row τ η β σ L C → α)
    (sub : ∀ x, P x → x ∈ R) {a : Row τ η β σ L C} (ha : P a) :
    ∃ m, P m ∧ ∀ x, P x → f x ≤ f m :=
  Set.exists_max_image {x | P x} f ((finite_toSet R).subset sub) ⟨a, ha⟩

lemma Settles.orderIndependent (settled : Settles rank R e) : OrderIndependent rank R := by
  obtain ⟨k, hk, kept⟩ := settled.keeps
  obtain ⟨b, hb, hmax⟩ := exists_greatest (fun x => x.body.stamp) (fun x (h : Lead R e x) => h.mem) hk.1
  have hbm : BodyMax R e b := ⟨hb, hmax⟩
  have outcome : ∀ l, Covers R l → deliver rank l = some { k with body := b.body } := by
    intro l hl
    have hkl := (hl k).mpr hk.1.mem
    obtain ⟨F, hF⟩ : ∃ F, deliver rank l = some F := by
      cases l with
      | nil => cases hkl
      | cons a l => exact ⟨_, deliver_cons a l⟩
    have first : ∀ r ∈ l, Derived R e r := fun r hr => .of_mem ((hl r).mp hr)
    have step : ∀ s r, Derived R e s → r ∈ l → Derived R e (merge rank s r) :=
      fun s r hs hr => hs.merge rank ((hl r).mp hr)
    have hbody : HoldsBody R e b F := deliver_from_mem ((hl b).mpr hb.mem) first step
      ⟨.of_mem hb.mem, hb.top, hb.tag, rfl⟩ (fun s hs => .enter settled hbm hs)
      (fun s r hs hr => hs.keep settled hbm ((hl r).mp hr)) hF
    have hside : HoldsSide R e k F := deliver_from_mem hkl first step
      ⟨.of_mem hk.1.mem, hk.1.top, hk.1.tag, rfl, le_rfl⟩ (fun s hs => .enter settled hk kept hs)
      (fun s r hs hr => hs.keep hk kept ((hl r).mp hr)) hF
    obtain ⟨x, hx, hbase⟩ := (hside.derived.lead hside.top hside.tag).1
    obtain ⟨y, hy, hstamp⟩ := hside.derived.stamp
    have stamp : F.stamp = k.stamp := le_antisymm (hstamp ▸ hk.1.top y hy) (hside.top k hk.1.mem)
    rw [hF, some.injEq]
    rcases F with ⟨fs, ft, fb, fside, fbody⟩
    simp only [Row.mk.injEq]
    exact ⟨stamp, hside.tag.trans hk.1.tag.symm, hbase.symm.trans (settled.base x _ hx hk.1),
      hside.side, hbody.body⟩
  intro l l' hl hl'
  rw [outcome l hl, outcome l' hl']

end Settled

/-- The newest rows, in some order and each at least once. -/
def TopCover (R c : List (Row τ η β σ L C)) : Prop := ∀ r, r ∈ c ↔ r ∈ R ∧ Atop R r

lemma deliver_append_top {p c : List (Row τ η β σ L C)} (hp : ∀ r ∈ p, r ∈ R ∧ ¬ Atop R r)
    (hc : ∀ r ∈ c, Atop R r) (hne : c ≠ []) : deliver rank (p ++ c) = deliver rank c := by
  cases c with
  | nil => exact absurd rfl hne
  | cons a c =>
    rw [deliver, foldl_append, deliver_cons]
    change c.foldl (absorb rank) (absorb rank (deliver rank p) a) = _
    cases hd : deliver rank p with
    | none => exact foldl_absorb_some a c
    | some s =>
      obtain ⟨r, hr, hrs⟩ := exists_of_deliver Row.stamp (fun _ _ _ => rfl) hd
      have hlow := (hp r hr).2
      simp only [Atop, not_forall, not_le] at hlow
      obtain ⟨x, hx, hlt⟩ := hlow
      have hsa : s.stamp < a.stamp := hrs ▸ hlt.trans_le (hc a mem_cons_self x hx)
      rw [absorb, merge_newer hsa, foldl_absorb_some]

lemma exists_outcome (h : OrderIndependent rank R) (hne : R ≠ []) :
    ∃ F, ∀ c, TopCover R c → deliver rank c = some F := by
  classical
  obtain ⟨a, ha⟩ := exists_mem_of_ne_nil R hne
  obtain ⟨t, ht, htop⟩ := exists_greatest (R := R) (fun x => x.stamp) (fun x hx => hx) ha
  have order : ∀ c, TopCover R c → deliver rank c = deliver rank R := by
    intro c hc
    have hmem : t ∈ c := (hc t).mpr ⟨ht, htop⟩
    rw [← deliver_append_top (p := R.filter (fun r => decide (¬ Atop R r)))
      (by simp) (fun r hr => ((hc r).mp hr).2) (ne_nil_of_mem hmem)]
    refine h _ _ ?_ (fun r => Iff.rfl)
    intro r
    by_cases hr : Atop R r <;> simp [hc r, hr]
  cases hR : R with
  | nil => exact absurd hR hne
  | cons b R' => exact ⟨_, fun c hc => (order c (hR ▸ hc)).trans (hR ▸ deliver_cons b R')⟩

section Outcome
variable {F x z : Row τ η β σ L C} {Z : List (Row τ η β σ L C)}

structure Newest (R : List (Row τ η β σ L C)) (s : Row τ η β σ L C) : Prop where
  stamp : ∃ r ∈ R, r.stamp = s.stamp
  top : Atop R s

omit [DecidableEq η] [LinearOrder σ] in
lemma Newest.of_mem (hr : r ∈ R) (top : Atop R r) : Newest R r := ⟨⟨r, hr, rfl⟩, top⟩

omit [DecidableEq η] [LinearOrder σ] in
lemma Newest.stamp_eq (hs : Newest R s) (hr : r ∈ R) (top : Atop R r) : r.stamp = s.stamp := by
  obtain ⟨x, hx, hxs⟩ := hs.stamp
  exact le_antisymm (hs.top r hr) (hxs ▸ top x hx)

/-- What the rows of tag `e` have, and copies merged of them keep, the result has. -/
lemma foldl_tagged (rank : C → κ) (hZ : ∀ r ∈ Z, r.tag = e → P r) (hs : s.tag = e → P s)
    (keep : ∀ s r, P s → P r → P { s with side := s.side.newer r.side, body := s.body.newer r.body }) :
    (Z.foldl (merge rank) s).tag = e → P (Z.foldl (merge rank) s) := by
  refine List.foldlRecOn Z (merge rank) (motive := fun s => s.tag = e → P s) hs ?_
  intro s hs r hr
  rcases merge_parts rank s r with h | h | ⟨tag, h⟩ <;> rw [h]
  · exact hZ r hr
  · exact hs
  · exact fun he => keep s r (hs he) (hZ r hr (tag.trans he))

lemma foldl_rivals_eq (hs : Newest R s) (tag : s.tag = e) (hZ : ∀ z ∈ Z, Rival R e z)
    (h : (Z.foldl (merge rank) s).tag = e) :
    Z.foldl (merge rank) s = s ∧ ∀ z ∈ Z, rank z.body.value ≤ rank s.body.value := by
  induction Z generalizing s with
  | nil => exact ⟨rfl, by simp⟩
  | cons z Z ih =>
    have hz := hZ z mem_cons_self
    have hrest := fun y hy => hZ y (mem_cons_of_mem z hy)
    have stamp := hs.stamp_eq hz.mem hz.top
    rcases lt_or_ge (rank s.body.value) (rank z.body.value) with hk | hk
    · rw [foldl_cons, merge_rival stamp (fun hc => hz.tag (hc.trans tag)) hk] at h
      exact (foldl_tagged (P := fun _ => False) rank (fun y hy => (hrest y hy).tag) hz.tag
        (fun _ _ h _ => h) h).elim
    · have refused := merge_refused stamp (fun hc => hz.tag (hc.trans tag)) hk
      rw [foldl_cons, refused] at h ⊢
      obtain ⟨heq, hall⟩ := ih hs tag hrest h
      refine ⟨heq, ?_⟩
      intro y hy
      rcases mem_cons.mp hy with rfl | hy
      · exact hk
      · exact hall y hy

variable {E : List (Row τ η β σ L C)}

/-- Copies of one write, delivered after `x`: the base stays, and a register of
`x` that is nowhere newer stays too. -/
lemma foldl_leads (rank : C → κ) (hE : ∀ r ∈ E, Lead R e r) (hx : Lead R e x) :
    Newest R (E.foldl (merge rank) x) ∧ (E.foldl (merge rank) x).tag = e ∧
    (E.foldl (merge rank) x).base = x.base ∧
    ((∀ r ∈ E, r.side.stamp ≤ x.side.stamp) → (E.foldl (merge rank) x).side = x.side) ∧
    ((∀ r ∈ E, r.body.stamp ≤ x.body.stamp) → (E.foldl (merge rank) x).body = x.body) := by
  refine List.foldlRecOn E (merge rank) (motive := fun s => Newest R s ∧ s.tag = e ∧
    s.base = x.base ∧ ((∀ r ∈ E, r.side.stamp ≤ x.side.stamp) → s.side = x.side) ∧
    ((∀ r ∈ E, r.body.stamp ≤ x.body.stamp) → s.body = x.body))
    ⟨.of_mem hx.mem hx.top, hx.tag, rfl, fun _ => rfl, fun _ => rfl⟩ ?_
  rintro s ⟨hs, tag, base, side, body⟩ r hr
  have lead := hE r hr
  rw [merge_same (hs.stamp_eq lead.mem lead.top) (lead.tag.trans tag.symm)]
  refine ⟨⟨hs.stamp, hs.top⟩, tag, base, ?_, ?_⟩
  · intro h
    exact (Register.newer_of_le (side h ▸ h r hr)).trans (side h)
  · intro h
    exact (Register.newer_of_le (body h ▸ h r hr)).trans (body h)

lemma foldl_refused (hz : Rival R e z) (hE : ∀ r ∈ E, Lead R e r)
    (hrank : ∀ r ∈ E, rank r.body.value ≤ rank z.body.value) : E.foldl (merge rank) z = z := by
  refine List.foldlRecOn E (merge rank) (motive := fun s => s = z) rfl ?_
  rintro s rfl r hr
  exact merge_refused ((Newest.of_mem hz.mem hz.top).stamp_eq (hE r hr).mem (hE r hr).top)
    (fun hc => hz.tag (hc.symm.trans (hE r hr).tag)) (hrank r hr)

end Outcome

section Necessary
variable {F k x z : Row τ η β σ L C}

omit [DecidableEq η] [LinearOrder σ] in
lemma Lead.lt_of_not_max {α : Type*} [LinearOrder α] {f : Row τ η β σ L C → α}
    (hk : ∀ y, Lead R e y → f y ≤ f k) (hx : Lead R e x)
    (h : ¬ (Lead R e x ∧ ∀ y, Lead R e y → f y ≤ f x)) : f x < f k :=
  lt_of_not_ge fun hle => h ⟨hx, fun y hy => (hk y hy).trans hle⟩

section
variable (hF : ∀ c, TopCover R c → deliver rank c = some F)
include hF

/-- The common outcome is the copy of one write that its own rows make. -/
lemma outcome_eq (hx : Lead R F.tag x) : x.base = F.base ∧ (SideMax R F.tag x → x.side = F.side) ∧
    (BodyMax R F.tag x → x.body = F.body) ∧
    ∀ z, Rival R F.tag z → rank z.body.value ≤ rank F.body.value := by
  classical
  let E := R.filter (fun r => decide (Lead R F.tag r))
  let Z := R.filter (fun r => decide (Rival R F.tag r))
  have hE : ∀ r ∈ E, Lead R F.tag r := fun r hr => of_decide_eq_true (mem_filter.mp hr).2
  have hZ : ∀ r ∈ Z, Rival R F.tag r := fun r hr => of_decide_eq_true (mem_filter.mp hr).2
  -- first all copies of the write, starting with `x`, then all rivals
  have cover : TopCover R (x :: (E ++ Z)) := by
    intro r
    constructor
    · intro hr
      rcases mem_cons.mp hr with rfl | hr
      · exact ⟨hx.mem, hx.top⟩
      · rcases mem_append.mp hr with hr | hr
        · exact ⟨(hE r hr).mem, (hE r hr).top⟩
        · exact ⟨(hZ r hr).mem, (hZ r hr).top⟩
    · rintro ⟨hr, top⟩
      by_cases tag : r.tag = F.tag
      · simp [E, hr, (⟨hr, top, tag⟩ : Lead R F.tag r)]
      · simp [Z, hr, (⟨hr, top, tag⟩ : Rival R F.tag r)]
  have run := hF _ cover
  rw [deliver_cons, foldl_append, some.injEq] at run
  obtain ⟨newest, tag, base, side, body⟩ := foldl_leads rank hE hx
  obtain ⟨stays, ranks⟩ := foldl_rivals_eq newest tag hZ (congrArg Row.tag run)
  rw [run] at stays
  rw [← stays] at base side body ranks
  refine ⟨base.symm, fun hm => (side fun r hr => hm.2 r (hE r hr)).symm,
    fun hm => (body fun r hr => hm.2 r (hE r hr)).symm, ?_⟩
  intro z hz
  exact ranks z (by simp [Z, hz.mem, hz])

lemma outcome_lead : ∃ x, Lead R F.tag x := by
  classical
  let T := R.filter (fun r => decide (Atop R r))
  have hT : TopCover R T := fun r => by simp [T]
  obtain ⟨r, hr, tag⟩ := exists_of_deliver Row.tag (fun _ _ _ => rfl) (hF T hT)
  exact ⟨r, ((hT r).mp hr).1, ((hT r).mp hr).2, tag⟩

/-- A rival that ties with the newest body would refuse it. -/
lemma outcome_outranks (hk : BodyMax R F.tag k) (hz : Rival R F.tag z) :
    rank z.body.value < rank k.body.value := by
  classical
  obtain ⟨_, _, hbody, hle⟩ := outcome_eq hF hk.1
  refine lt_of_le_of_ne (hbody hk ▸ hle z hz) fun htie => ?_
  let K := R.filter (fun r => decide (BodyMax R F.tag r))
  let rest := R.filter (fun r => decide (Atop R r ∧ ¬ BodyMax R F.tag r))
  have hK : ∀ r ∈ K, BodyMax R F.tag r := fun r hr => of_decide_eq_true (mem_filter.mp hr).2
  have cover : TopCover R (z :: (K ++ rest)) := by
    intro r
    by_cases hr : BodyMax R F.tag r
    · simp [K, rest, hr, hr.1.mem, hr.1.top]
    · simp only [mem_cons, mem_append, K, rest, mem_filter, hr, decide_false,
        Bool.false_eq_true, and_false, false_or, not_false_eq_true, and_true, decide_eq_true_eq]
      exact ⟨fun h => h.elim (fun h => h ▸ ⟨hz.mem, hz.top⟩) id, .inr⟩
  have run := hF _ cover
  rw [deliver_cons, foldl_append, some.injEq,
    foldl_refused hz (fun r hr => (hK r hr).1) (fun r hr => ?_)] at run
  · have hlt := foldl_tagged (P := fun r => r.body.stamp < k.body.stamp) rank (Z := rest) (s := z)
      (e := F.tag) (fun r hr tag => ?_) (fun tag => absurd tag hz.tag)
      fun _ _ => Register.newer_lt
    · rw [run] at hlt
      exact absurd (hlt rfl) (by rw [← hbody hk]; exact lt_irrefl _)
    · obtain ⟨hr, top, hn⟩ : r ∈ R ∧ Atop R r ∧ ¬ BodyMax R F.tag r := by simpa [rest] using hr
      exact Lead.lt_of_not_max hk.2 ⟨hr, top, tag⟩ hn
  · have := (outcome_eq hF (hK r hr).1).2.2.1 (hK r hr)
    rw [this, ← hbody hk]
    exact htie.ge

/-- Once the highest rival `z` holds the place and every newest side that
outranks it has been delivered, the newest side is lost for good. -/
lemma outcome_not_lost (hk : SideMax R F.tag k) (hz : Rival R F.tag z)
    (p : List (Row τ η β σ L C)) (hp : ∀ r ∈ p, Lead R F.tag r)
    (hmem : ∀ r, SideMax R F.tag r → rank z.body.value < rank r.body.value → r ∈ p)
    (lost : ∀ s, deliver rank p = some s → merge rank s z = z) : False := by
  classical
  let X := R.filter (fun r => decide (SideMax R F.tag r ∧ rank r.body.value ≤ rank z.body.value))
  let rest := R.filter (fun r => decide (Atop R r ∧ ¬ SideMax R F.tag r))
  have hX : ∀ r ∈ X, SideMax R F.tag r ∧ rank r.body.value ≤ rank z.body.value :=
    fun r hr => of_decide_eq_true (mem_filter.mp hr).2
  have hrest : ∀ r ∈ rest, r ∈ R ∧ Atop R r ∧ ¬ SideMax R F.tag r :=
    fun r hr => ⟨(mem_filter.mp hr).1, of_decide_eq_true (mem_filter.mp hr).2⟩
  have cover : TopCover R (p ++ z :: (X ++ rest)) := by
    intro r
    constructor
    · intro hr
      rcases mem_append.mp hr with hr | hr
      · exact ⟨(hp r hr).mem, (hp r hr).top⟩
      · rcases mem_cons.mp hr with rfl | hr
        · exact ⟨hz.mem, hz.top⟩
        · rcases mem_append.mp hr with hr | hr
          · exact ⟨(hX r hr).1.1.mem, (hX r hr).1.1.top⟩
          · exact ⟨(hrest r hr).1, (hrest r hr).2.1⟩
    · rintro ⟨hr, top⟩
      by_cases hs : SideMax R F.tag r
      · rcases lt_or_ge (rank z.body.value) (rank r.body.value) with hlt | hle
        · exact mem_append_left _ (hmem r hs hlt)
        · simp [X, hr, hs, hle]
      · simp [rest, hr, top, hs]
  have run := hF _ cover
  have enter : absorb rank (deliver rank p) z = some z := by
    cases hd : deliver rank p with
    | none => rfl
    | some s => exact congrArg some (lost s hd)
  rw [deliver, foldl_append] at run
  change (X ++ rest).foldl (absorb rank) (absorb rank (deliver rank p) z) = some F at run
  rw [enter, foldl_absorb_some, foldl_append, some.injEq,
    foldl_refused hz (fun r hr => (hX r hr).1.1) (fun r hr => (hX r hr).2)] at run
  have hlt := foldl_tagged (P := fun r => r.side.stamp < k.side.stamp) rank (Z := rest) (s := z)
    (e := F.tag) (fun r hr tag => Lead.lt_of_not_max hk.2 ⟨(hrest r hr).1, (hrest r hr).2.1, tag⟩
      (hrest r hr).2.2) (fun tag => absurd tag hz.tag) fun _ _ => Register.newer_lt
  rw [run, (outcome_eq hF hk.1).2.1 hk] at hlt
  exact lt_irrefl _ (hlt rfl)

lemma outcome_keeps : ∃ k, SideMax R F.tag k ∧ Kept rank R F.tag k := by
  classical
  obtain ⟨x, hx⟩ := outcome_lead hF
  obtain ⟨k, hk, hkmax⟩ :=
    exists_greatest (fun x => x.side.stamp) (fun x (h : Lead R F.tag x) => h.mem) hx
  have hkm : SideMax R F.tag k := ⟨hk, hkmax⟩
  by_cases hrival : ∃ z, Rival R F.tag z
  · obtain ⟨z₀, hz₀⟩ := hrival
    obtain ⟨z, hz, hzmax⟩ := exists_greatest (fun x => rank x.body.value)
      (fun x (h : Rival R F.tag x) => h.mem) hz₀
    by_cases hY : ∃ y, SideMax R F.tag y ∧ rank z.body.value < rank y.body.value
    · -- among the newest sides that outrank every rival, the one with the newest body
      obtain ⟨y₀, hy₀⟩ := hY
      obtain ⟨y, hy, hymax⟩ := exists_greatest (fun x => x.body.stamp)
        (fun x (h : SideMax R F.tag x ∧ rank z.body.value < rank x.body.value) => h.1.1.mem) hy₀
      refine ⟨y, hy.1, fun w hw => ⟨(hzmax w hw).trans_lt hy.2, ?_⟩⟩
      intro v hv hvbody
      by_contra hlow
      let Y := R.filter (fun r => decide (SideMax R F.tag r ∧ rank z.body.value < rank r.body.value))
      have hYmem : ∀ r ∈ Y, SideMax R F.tag r ∧ rank z.body.value < rank r.body.value :=
        fun r hr => of_decide_eq_true (mem_filter.mp hr).2
      refine outcome_not_lost hF hkm hz (v :: Y) ?_ ?_ ?_
      · intro r hr
        rcases mem_cons.mp hr with rfl | hr
        · exact hv
        · exact (hYmem r hr).1.1
      · intro r hr hlt
        exact mem_cons_of_mem v (by simp [Y, hr.1.mem, hr, hlt])
      · -- the body of `v` stays through `Y`, and `z` outranks it
        intro s hs
        rw [deliver_cons, some.injEq] at hs
        subst hs
        obtain ⟨newest, tag, _, _, body⟩ :=
          foldl_leads rank (fun r hr => (hYmem r hr).1.1) hv
        have hbody := body fun r hr => (hymax r (hYmem r hr)).trans hvbody
        refine merge_rival (newest.stamp_eq hz.mem hz.top) (fun hc => hz.tag (hc.trans tag)) ?_
        rw [hbody]
        exact (not_le.mp hlow).trans_le (hzmax w hw)
    · refine (outcome_not_lost hF hkm hz [] (by simp) ?_ (fun s hs => by cases hs)).elim
      intro r hr hlt
      exact absurd ⟨r, hr, hlt⟩ hY
  · exact ⟨k, hkm, fun z hz => absurd ⟨z, hz⟩ hrival⟩

end

end Necessary

/-- Order of delivery does not matter exactly for the collections that settle on
one write. -/
lemma orderIndependent_iff (rank : C → κ) (R : List (Row τ η β σ L C)) :
    OrderIndependent rank R ↔ R = [] ∨ ∃ e, Settles rank R e := by
  constructor
  · intro h
    by_cases hne : R = []
    · exact .inl hne
    · obtain ⟨F, hF⟩ := exists_outcome h hne
      have parts := fun {x} (hx : Lead R F.tag x) => outcome_eq hF hx
      refine .inr ⟨F.tag, ?_, ?_, ?_, fun k z => outcome_outranks hF, outcome_keeps hF⟩
      · intro r x hr hx
        exact (parts hr).1.trans (parts hx).1.symm
      · intro r x hr hx
        exact ((parts hr.1).2.1 hr).trans ((parts hx.1).2.1 hx).symm
      · intro r x hr hx
        exact ((parts hr.1).2.2.1 hr).trans ((parts hx.1).2.2.1 hx).symm
  · rintro (rfl | ⟨e, settled⟩)
    · intro l l' hl hl'
      have nil : ∀ l, Covers ([] : List (Row τ η β σ L C)) l → l = [] := fun l hl =>
        eq_nil_iff_forall_not_mem.mpr fun r hr => by simpa using (hl r).mp hr
      rw [nil l hl, nil l' hl']
    · exact settled.orderIndependent

end RegisterRow
