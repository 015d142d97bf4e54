import Arca.Cluster.ControlSnapshot
import Arca.Lib.Gossip

/-!
# Convergence of the control plane

Nodes pull each other's control snapshots in any order until no pull asks for
anything. The newest event of an entity without parents, a row counting above a
tombstone of its own instant, is then the same everywhere.
-/
namespace Arca.Cluster
open List Option Slot

/-- A row stands above a tombstone of the same instant. -/
abbrev EventOrder := WithBot (Instant ×ₗ Bool)

def aliveAt (t : WithBot Instant) : EventOrder := t.map fun t => toLex (t, true)

def deadAt (t : WithBot Instant) : EventOrder := t.map fun t => toLex (t, false)

variable {a b : WithBot Instant}

lemma aliveAt_le_aliveAt : aliveAt a ≤ aliveAt b ↔ a ≤ b := by
  cases a <;> cases b <;> simp [aliveAt, Prod.Lex.toLex_le_toLex, ← le_iff_lt_or_eq]

lemma deadAt_le_deadAt : deadAt a ≤ deadAt b ↔ a ≤ b := by
  cases a <;> cases b <;> simp [deadAt, Prod.Lex.toLex_le_toLex, ← le_iff_lt_or_eq]

lemma deadAt_le_aliveAt : deadAt a ≤ aliveAt b ↔ a ≤ b := by
  cases a <;> cases b <;> simp [aliveAt, deadAt, Prod.Lex.toLex_le_toLex, ← le_iff_lt_or_eq]

lemma aliveAt_le_deadAt : aliveAt a ≤ deadAt b ↔ a < b ∨ a = ⊥ := by
  cases a <;> cases b <;> simp [aliveAt, deadAt, Prod.Lex.toLex_le_toLex]

namespace Slot
variable {α : Type} {mine remote : Slot α}

def newest (x : Slot α) : EventOrder := max (aliveAt x.rowStamp) (deadAt x.deadStamp)

lemma newest_le_of_dead (h : mine.DeadWith remote) :
    mine.newest ≤ (⟨none, latest mine.dead remote.dead⟩ : Slot α).newest := by
  have stamp : (⟨none, latest mine.dead remote.dead⟩ : Slot α).deadStamp =
      max mine.deadStamp remote.deadStamp := stampOf_latest _ _
  refine le_trans (max_le ?_ ?_) (le_max_right _ _)
  · exact aliveAt_le_deadAt.mpr (.inl (stamp ▸ (le_max_left _ _).trans_lt h))
  · exact deadAt_le_deadAt.mpr (stamp ▸ le_max_left _ _)

/-- Where a row wins, no event is newer than the newer of the two rows. -/
lemma newest_le_of_alive (h : ¬ mine.DeadWith remote) :
    mine.newest ≤ aliveAt (max mine.rowStamp remote.rowStamp) :=
  max_le (aliveAt_le_aliveAt.mpr (le_max_left _ _))
    (deadAt_le_aliveAt.mpr ((le_max_left _ _).trans (not_lt.mp h)))

lemma agree_of_idle {p q : Bool} (here : (mine.planMerge p remote).isEmpty = true)
    (there : (remote.planMerge q mine).isEmpty = true) :
    (mine.row = none ∧ remote.row = none ∧ mine.dead = remote.dead) ∨
      (mine.dead = none ∧ remote.dead = none ∧ (p = true → remote.rowStamp ≤ mine.rowStamp) ∧
        (q = true → mine.rowStamp ≤ remote.rowStamp)) := by
  by_cases dead : mine.DeadWith remote
  · obtain ⟨row, behind⟩ := (isEmpty_of_dead_iff dead).mp here
    obtain ⟨row', behind'⟩ := (isEmpty_of_dead_iff (deadWith_comm.mp dead)).mp there
    exact .inl ⟨row, row', stampOf_inj.mp (le_antisymm behind' behind)⟩
  · obtain ⟨none, behind⟩ := (isEmpty_of_alive_iff dead).mp here
    obtain ⟨none', behind'⟩ :=
      (isEmpty_of_alive_iff fun h => dead (deadWith_comm.mp h)).mp there
    exact .inr ⟨none, none', behind, behind'⟩

end Slot

namespace ControlSnapshot
variable {ν : Type} {s : ν → ControlSnapshot}

/-- The nodes pull in this order. -/
def afterPulls [DecidableEq ν] (s : ν → ControlSnapshot) (pulls : List (ν × ν)) : ν → ControlSnapshot :=
  pulls.foldl (Gossip.pull merge) s

def Quiet (s : ν → ControlSnapshot) : Prop := ∀ n m, Idle (s n) (s m)

/-- Nothing that the initial snapshots do not hold. -/
structure Traced (s : ν → ControlSnapshot) (x : ControlSnapshot) : Prop where
  row : ∀ e r, (x e).row = some r → ∃ n, (s n e).row = some r
  dead : ∀ e t, (x e).dead = some t → ∃ n, (s n e).dead = some t

variable {x y : ControlSnapshot} {e : Entity} {t t' : Instant}

lemma Traced.merge (hx : Traced s x) (hy : Traced s y) : Traced s (merge x y) where
  row e r h := by
    rcases (row_merge h).2 with mine | ⟨remote, -⟩
    · exact hx.row e r mine
    · exact hy.row e r remote
  dead e t h := by
    rcases dead_merge h with mine | remote
    · exact hx.dead e t mine
    · exact hy.dead e t remote

lemma traced_run [DecidableEq ν] (s : ν → ControlSnapshot) (pulls : List (ν × ν)) (n : ν) :
    Traced s (afterPulls s pulls n) :=
  Gossip.forall_run (fun _ _ => Traced.merge)
    (fun n => ⟨fun _ _ h => ⟨n, h⟩, fun _ _ h => ⟨n, h⟩⟩) pulls n

lemma empty_run [DecidableEq ν] (h : ∀ n, s n e = Slot.empty)
    {pulls : List (ν × ν)} {n : ν} : afterPulls s pulls n e = Slot.empty :=
  Gossip.forall_run (P := fun x : ControlSnapshot => x e = Slot.empty) (fun _ _ => merge_empty) h
    pulls n

lemma Traced.rowStamp_le (h : Traced s x)
    (bound : ∀ n, (s n e).rowStamp ≤ t) : (x e).rowStamp ≤ t := by
  cases found : (x e).row with
  | none => simp [rowStamp, alive, found, stampOf]
  | some r =>
    obtain ⟨n, held⟩ := h.row e r found
    simpa [rowStamp, alive, found, held] using bound n

lemma Traced.deadStamp_le (h : Traced s x)
    (bound : ∀ n, (s n e).deadStamp ≤ t) : (x e).deadStamp ≤ t := by
  cases found : (x e).dead with
  | none => simp [deadStamp, found, stampOf]
  | some d =>
    obtain ⟨n, held⟩ := h.dead e d found
    simpa [deadStamp, found, held] using bound n

/-- **Merges make nothing up**: what a node holds after any pulls, some node held before them. -/
theorem merges_traced [DecidableEq ν] (s : ν → ControlSnapshot) (pulls : List (ν × ν)) :
    (∀ n e r, (afterPulls s pulls n e).row = some r → ∃ m, (s m e).row = some r) ∧
      ∀ n e t, (afterPulls s pulls n e).dead = some t → ∃ m, (s m e).dead = some t :=
  ⟨fun n => (traced_run s pulls n).row, fun n => (traced_run s pulls n).dead⟩

/-- No tombstone anywhere is newer than a row anywhere. -/
def NeverDies (s : ν → ControlSnapshot) (p : Entity) : Prop :=
  ∀ n m r t, (s n p).row = some (r, t) → (s m p).deadStamp ≤ t

/-- Some row is at least as new as every tombstone. -/
def Lives (s : ν → ControlSnapshot) (p : Entity) : Prop :=
  ∃ n r t, (s n p).row = some (r, t) ∧ ∀ m, (s m p).deadStamp ≤ t

lemma NeverDies.not_delete {p : Entity} (h : NeverDies s p)
    (hx : Traced s x) (hy : Traced s y) : (planControlMerge x y p).delete = false := by
  refine Bool.eq_false_iff.mpr fun delete => ?_
  obtain ⟨-, dead, some_row⟩ := delete_iff.mp delete
  obtain ⟨⟨r, t⟩, row⟩ := isSome_iff_exists.mp some_row
  obtain ⟨n, initial⟩ := hx.row p _ row
  have stamp : (x p).rowStamp = t := by simp [rowStamp, alive, row, stampOf]
  have bound : ∀ m, (s m p).deadStamp ≤ t := fun m => h n m r t initial
  exact absurd (dead.trans_le (max_le (hx.deadStamp_le bound) (hy.deadStamp_le bound)))
    (not_lt.mpr (stamp ▸ le_max_left _ _))

/-- An entity that resolves by its own slots: it has no parents, and what would
take its rows along never dies. -/
structure Independent (s : ν → ControlSnapshot) (e : Entity) : Prop where
  shared : e.nodeLocal = false
  root : e.parents = []
  owners : ∀ n r, (s n e).row = some r → ∀ o ∈ e.owners r.1, NeverDies s o

lemma Independent.merge_of_alive (h : Independent s e)
    (hx : Traced s x) (hy : Traced s y) (alive : ¬ (x e).DeadWith (y e)) :
    merge x y e = ⟨if optionLt (x e).alive (y e).alive && taking x y e then (y e).row
      else (x e).row, none⟩ := by
  rw [ControlSnapshot.merge_of_alive h.shared alive]
  generalize held : (if optionLt (x e).alive (y e).alive && taking x y e then (y e).row
    else (x e).row) = row
  cases row with
  | none => rfl
  | some r =>
    have initial : ∃ n, (s n e).row = some r := by
      split at held
      · exact hy.row e r held
      · exact hx.row e r held
    obtain ⟨n, first⟩ := initial
    have kept : ((e.owners r.1).any fun o => (planControlMerge x y o).delete) = false :=
      any_eq_false.mpr fun o mem => by simp [(h.owners n r first o mem).not_delete hx hy]
    simp [Option.filter, kept]

/-- An event is lost in a merge only to a peer that knows a newer one. -/
lemma newest_merge (h : Independent s e) (hx : Traced s x)
    (hy : Traced s y) : (x e).newest ≤ (merge x y e).newest ∨ (x e).newest ≤ (y e).newest := by
  by_cases dead : (x e).DeadWith (y e)
  · exact .inl (merge_of_dead h.shared dead ▸ newest_le_of_dead dead)
  · have bound := newest_le_of_alive dead
    by_cases newer : (x e).rowStamp < (y e).rowStamp
    · rw [max_eq_right newer.le] at bound
      -- whether the row is taken over or not, the peer has it
      exact .inr (bound.trans (le_max_left _ _))
    · rw [max_eq_left (not_lt.mp newer)] at bound
      have kept : optionLt (x e).alive (y e).alive = false :=
        Bool.eq_false_iff.mpr fun lt => newer ((optionLt_iff _ _).mp lt)
      rw [h.merge_of_alive hx hy dead, kept, Bool.false_and, if_neg Bool.false_ne_true]
      exact .inl (bound.trans (le_max_left _ _))

section QuietStates
variable {x : ν → ControlSnapshot} {e p : Entity}

lemma Quiet.slot (quiet : Quiet x) (shared : e.nodeLocal = false) (n m : ν) :
    ((x n e).planMerge (e.parents.all (aliveAfter (x n) (x m))) (x m e)).isEmpty = true := by
  simpa [planControlMerge, shared] using quiet n m e

lemma quiet_of_known (known : List Entity) (outside : ∀ e, e ∉ known → ∀ n, x n e = Slot.empty)
    (inside : ∀ e ∈ known, ∀ n m, (planControlMerge (x n) (x m) e).isEmpty = true) : Quiet x := by
  intro n m e
  by_cases mem : e ∈ known
  · exact inside e mem n m
  · unfold planControlMerge
    rw [outside e mem n, outside e mem m]
    cases e.nodeLocal
    · cases e.parents.all (aliveAfter (x n) (x m)) <;> rfl
    · rfl

lemma Quiet.stamps_root (quiet : Quiet x) (shared : e.nodeLocal = false) (root : e.parents = [])
    (n m : ν) : (x n e).rowStamp = (x m e).rowStamp ∧ (x n e).dead = (x m e).dead ∧
      ((x n e).row = none ∨ (x n e).dead = none) := by
  have here := quiet.slot shared n m
  have there := quiet.slot shared m n
  rw [root, all_nil] at here there
  rcases agree_of_idle here there with ⟨row, row', dead⟩ | ⟨none, none', le, ge⟩
  · exact ⟨by simp [rowStamp, alive, row, row'], dead, .inl row⟩
  · exact ⟨le_antisymm (ge rfl) (le rfl), none.trans none'.symm, .inr none⟩

lemma isSome_of_rowStamp_eq {α : Type} {y z : Slot α} (h : y.rowStamp = z.rowStamp)
    (some_row : y.row.isSome = true) : z.row.isSome = true := by
  have same : y.alive = z.alive := stampOf_inj.mp h
  rw [← isSome_alive, ← same, isSome_alive]
  exact some_row

lemma Quiet.aliveAfter_of_row (quiet : Quiet x) (child : p ∈ e.parents) {n : ν}
    (some_row : (x n p).row.isSome = true) (m : ν) :
    aliveAfter (x n) (x m) p = true ∧ aliveAfter (x m) (x n) p = true := by
  have root := Entity.isRoot_of_mem_parents child
  obtain ⟨stamp, dead, normal⟩ := quiet.stamps_root root.shared root.parents n m
  have none : (x n p).dead = none := normal.resolve_left fun row => by simp [row] at some_row
  have alive : ¬ (x n p).DeadWith (x m p) := by
    have bot : max (x n p).deadStamp (x m p).deadStamp = ⊥ := by
      simp [deadStamp, ← dead, none, stampOf]
    rw [Slot.DeadWith, bot]
    exact not_lt_bot
  exact ⟨aliveAfter_iff.mpr ⟨alive, .inl some_row⟩,
    aliveAfter_iff.mpr ⟨fun h => alive (deadWith_comm.mp h), .inr some_row⟩⟩

lemma Quiet.rowStamp_eq (quiet : Quiet x) (shared : e.nodeLocal = false) {n : ν}
    (present : ∀ p ∈ e.parents, (x n p).row.isSome = true) (m : ν) :
    (x n e).rowStamp = (x m e).rowStamp := by
  have here := quiet.slot shared n m
  have there := quiet.slot shared m n
  rcases agree_of_idle here there with ⟨row, row', -⟩ | ⟨-, -, le, ge⟩
  · simp [rowStamp, alive, row, row']
  · refine le_antisymm (ge ?_) (le ?_)
    · exact all_eq_true.mpr fun p mem => (quiet.aliveAfter_of_row mem (present p mem) m).2
    · exact all_eq_true.mpr fun p mem => (quiet.aliveAfter_of_row mem (present p mem) m).1

/-- Quiet nodes are equal if rows of one timestamp agree and no row stands
without its parents. -/
lemma Quiet.eq (quiet : Quiet x) (cluster : ∀ n e, e.nodeLocal = true → x n e = Slot.empty)
    (ties : ∀ n m e r r' t, (x n e).row = some (r, t) → (x m e).row = some (r', t) → r = r')
    (present : ∀ n e, (x n e).row.isSome = true → ∀ p ∈ e.parents, (x n p).row.isSome = true)
    (n m : ν) : x n = x m := by
  funext e
  cases shared : e.nodeLocal with
  | true => rw [cluster n e shared, cluster m e shared]
  | false =>
    have rows : ∀ n m r, (x n e).row = some r → (x m e).row = some r := by
      rintro n m ⟨r, t⟩ row
      have some_row : (x n e).row.isSome = true := by simp [row]
      have stamp := quiet.rowStamp_eq shared (present n e some_row) m
      obtain ⟨⟨r', t'⟩, row'⟩ :=
        isSome_iff_exists.mp (isSome_of_rowStamp_eq stamp some_row)
      have time : t = t' := by
        simpa [rowStamp, alive, row, row', stampOf] using stamp
      subst time
      rw [row', ties n m e r r' t row row']
    have row : (x n e).row = (x m e).row := by
      cases here : (x n e).row with
      | some r => exact (rows n m r here).symm
      | none =>
        cases there : (x m e).row with
        | none => rfl
        | some r => exact here.symm.trans (rows m n r there)
    have dead : (x n e).dead = (x m e).dead := by
      rcases agree_of_idle (quiet.slot shared n m) (quiet.slot shared m n) with
        ⟨-, -, same⟩ | ⟨none, none', -⟩
      · exact same
      · exact none.trans none'.symm
    exact congrArg₂ mk row dead

end QuietStates

def Newest {α : Type} (slots : ν → Slot α) (t : Instant) : Prop :=
  ∀ m, (slots m).rowStamp ≤ t ∧ (slots m).deadStamp ≤ t

inductive UnionOutcome {α : Type} (slots : ν → Slot α) : Slot α → Prop where
  | alive {r : α} {t : Instant} (n : ν) (held : (slots n).row = some (r, t))
      (newest : Newest slots t) : UnionOutcome slots ⟨some (r, t), none⟩
  | dead {t : Instant} (n : ν) (held : (slots n).dead = some t)
      (newest : ∀ m, (slots m).rowStamp < t ∧ (slots m).deadStamp ≤ t) :
      UnionOutcome slots ⟨none, some t⟩
  | absent (empty : ∀ m, slots m = Slot.empty) : UnionOutcome slots Slot.empty

lemma UnionOutcome.unique {α : Type} {slots : ν → Slot α} {y z : Slot α}
    (ties : ∀ n m r r' t, (slots n).row = some (r, t) → (slots m).row = some (r', t) →
      Newest slots t → r = r') (hy : UnionOutcome slots y) (hz : UnionOutcome slots z) : y = z := by
  have stamp : ∀ {n r t}, (slots n).row = some (r, t) → (slots n).rowStamp = t := fun row => by
    simp [Slot.rowStamp, Slot.alive, row, stampOf]
  have deadStamp : ∀ {n t}, (slots n).dead = some t → (slots n).deadStamp = t := fun dead => by
    simp [deadStamp, dead, stampOf]
  cases hy with
  | @alive r t n held newest =>
    cases hz with
    | @alive r' t' n' held' newest' =>
      have le := (newest n').1
      have ge := (newest' n).1
      rw [stamp held', WithBot.coe_le_coe] at le
      rw [stamp held, WithBot.coe_le_coe] at ge
      obtain rfl := le_antisymm ge le
      rw [ties n n' r r' t held held' newest]
    | @dead t' n' held' newest' =>
      have lt := (newest' n).1
      have le := (newest n').2
      rw [stamp held] at lt
      rw [deadStamp held'] at le
      exact absurd lt (not_lt.mpr le)
    | absent empty => simp [empty, Slot.empty] at held
  | @dead t n held newest =>
    cases hz with
    | @alive r' t' n' held' newest' =>
      have lt := (newest n').1
      have le := (newest' n).2
      rw [stamp held'] at lt
      rw [deadStamp held] at le
      exact absurd lt (not_lt.mpr le)
    | @dead t' n' held' newest' =>
      have le := (newest n').2
      have ge := (newest' n).2
      rw [deadStamp held', WithBot.coe_le_coe] at le
      rw [deadStamp held, WithBot.coe_le_coe] at ge
      rw [le_antisymm ge le]
    | absent empty => simp [empty, Slot.empty] at held
  | absent empty =>
    cases hz with
    | alive n held newest => simp [empty, Slot.empty] at held
    | dead n held newest => simp [empty, Slot.empty] at held
    | absent _ => rfl

section Outcomes
variable [DecidableEq ν] {pulls : List (ν × ν)} {e p : Entity}

lemma newest_le_of_quiet (h : Independent s e) (quiet : Quiet (afterPulls s pulls)) (m n : ν) :
    (s m e).newest ≤ (afterPulls s pulls n e).newest := by
  have keep : ∀ y z, Traced s y → Traced s z → Traced s (merge y z) := fun _ _ => Traced.merge
  have pass : ∀ y z, Traced s y → Traced s z → (s m e).newest ≤ (y e).newest →
      (s m e).newest ≤ (merge y z e).newest ∨ (s m e).newest ≤ (z e).newest :=
    fun y z hy hz known => (newest_merge h hy hz).imp known.trans known.trans
  obtain ⟨k, known⟩ := Gossip.exists_run (Q := fun y => (s m e).newest ≤ (y e).newest) keep pass
    (fun n => traced_run s [] n) ⟨m, le_rfl⟩ pulls
  obtain ⟨row, dead, -⟩ := quiet.stamps_root h.shared h.root k n
  have same : (afterPulls s pulls k e).newest = (afterPulls s pulls n e).newest := by
    simp only [newest, row, deadStamp, dead]
  exact same ▸ known

lemma newest_row {α : Type} (r : α) (t : Instant) :
    (⟨some (r, t), none⟩ : Slot α).newest = aliveAt t := max_eq_left bot_le

lemma newest_tombstone {α : Type} (dead : Option Instant) :
    (⟨none, dead⟩ : Slot α).newest = deadAt (stampOf dead) := max_eq_right bot_le

lemma unionOutcome_of_quiet (h : Independent s e) (quiet : Quiet (afterPulls s pulls)) (n : ν) :
    UnionOutcome (fun m => s m e) (afterPulls s pulls n e) := by
  have known := fun m => newest_le_of_quiet h quiet m n
  have rows := (traced_run s pulls n).row e
  have deads := (traced_run s pulls n).dead e
  obtain ⟨-, -, normal⟩ := quiet.stamps_root h.shared h.root n n
  generalize afterPulls s pulls n e = y at known rows deads normal
  obtain ⟨row, dead⟩ := y
  cases row with
  | some r =>
    obtain rfl : dead = none := normal.resolve_left (some_ne_none r)
    obtain ⟨m, held⟩ := rows r rfl
    refine .alive m held fun m => ?_
    have bound := known m
    rw [newest_row, newest, max_le_iff, aliveAt_le_aliveAt, deadAt_le_aliveAt] at bound
    exact bound
  | none =>
    have bound : ∀ m, aliveAt (s m e).rowStamp ≤ deadAt (stampOf dead) ∧
        deadAt (s m e).deadStamp ≤ deadAt (stampOf dead) := fun m => by
      rw [← max_le_iff, ← newest_tombstone (α := e.Payload)]
      exact known m
    cases dead with
    | some t =>
      obtain ⟨m, held⟩ := deads t rfl
      refine .dead m held fun m => ⟨?_, deadAt_le_deadAt.mp (bound m).2⟩
      rcases aliveAt_le_deadAt.mp (bound m).1 with lt | bot
      · exact lt
      · exact bot ▸ WithBot.bot_lt_coe t
    | none =>
      refine .absent fun m => ?_
      have row : (s m e).rowStamp = ⊥ :=
        (aliveAt_le_deadAt.mp (bound m).1).elim (fun lt => absurd lt not_lt_bot) id
      have dead : (s m e).deadStamp = ⊥ := le_bot_iff.mp (deadAt_le_deadAt.mp (bound m).2)
      have alive : (s m e).alive = none := stampOf_inj.mp row
      exact congrArg₂ mk (map_eq_none_iff.mp alive) (stampOf_inj.mp dead)

lemma present_of_lives (h : Independent s p) (lives : Lives s p)
    (quiet : Quiet (afterPulls s pulls)) (n : ν) : (afterPulls s pulls n p).row.isSome = true := by
  obtain ⟨m, r, t, held, newest⟩ := lives
  have outcome := unionOutcome_of_quiet h quiet n
  generalize afterPulls s pulls n p = y at outcome
  have stamp : (s m p).rowStamp = t := by simp [rowStamp, alive, held, stampOf]
  cases outcome with
  | alive => rfl
  | @dead d k tombstone later =>
    have le := newest k
    have lt := (later m).1
    simp only [deadStamp, tombstone, stampOf] at le
    rw [stamp] at lt
    exact absurd lt (not_lt.mpr le)
  | absent empty => simp [empty, Slot.empty] at held

end Outcomes

def Attached (x : ControlSnapshot) : Prop :=
  ∀ e r, (x e).row = some r → ∀ p ∈ e.parents, p ∈ e.owners r.1 → (x p).row.isSome = true

lemma Attached.merge (h : Attached x) : Attached (merge x y) := by
  intro e r row p child owner
  obtain ⟨kept, source⟩ := row_merge row
  have root := Entity.isRoot_of_mem_parents child
  apply isSome_merge_of_aliveAfter root
  rcases source with mine | ⟨-, -, alive⟩
  · have held := h e r mine p child owner
    refine aliveAfter_iff.mpr ⟨fun dead => ?_, .inl held⟩
    exact absurd (delete_iff.mpr ⟨root.shared, dead, held⟩) (by simp [kept p owner])
  · exact alive p child

/-- What the initial snapshots have to be sound in, beside the payloads of the
newest rows. -/
structure Sound (s : ν → ControlSnapshot) : Prop where
  clusterWide : ∀ n e, e.nodeLocal = true → s n e = Slot.empty
  attached : ∀ n, Attached (s n)
  configs : ∀ n b k, (s n (.bucketConfig b k)).row.isSome = true → Lives s (.bucket b)
  credentials : ∀ n k c t, (s n (.credential k)).row = some (c, t) → NeverDies s (.user c.userId)
  children : ∀ n m e r r' t, e.parents ≠ [] → (s n e).row = some (r, t) →
    (s m e).row = some (r', t) → r = r'

/-- Of an entity without parents, the newest rows of one timestamp agree. -/
def TiesAgree (s : ν → ControlSnapshot) : Prop :=
  ∀ e, e.nodeLocal = false → e.parents = [] → ∀ n m r r' t, (s n e).row = some (r, t) →
    (s m e).row = some (r', t) → Newest (fun k => s k e) t → r = r'

/-- All snapshots are equal, and every entity without parents has the outcome of
the union, the same as after any other pulls that end quiet. -/
def Converged [DecidableEq ν] (s : ν → ControlSnapshot) (pulls : List (ν × ν)) : Prop :=
  (∀ n m, afterPulls s pulls n = afterPulls s pulls m) ∧
  ∀ e, e.nodeLocal = false → e.parents = [] →
    (∀ n, UnionOutcome (fun m => s m e) (afterPulls s pulls n e)) ∧
    ∀ others, Quiet (afterPulls s others) →
      ∀ n m, afterPulls s pulls n e = afterPulls s others m e

namespace Sound

lemma independent (h : Sound s) (shared : e.nodeLocal = false)
    (root : e.parents = []) : Independent s e := by
  refine ⟨shared, root, fun n r row o owner => ?_⟩
  cases e with
  | credential k =>
    obtain rfl := mem_singleton.mp owner
    exact h.credentials n k r.1 r.2 row
  | user | team | grant | bucket | serverConfig | multipartUpload => cases owner
  | userGrant | teamGrant | teamMember | bucketConfig | bucketTags | part => cases root

variable [DecidableEq ν] {pulls : List (ν × ν)}

lemma present (h : Sound s) (quiet : Quiet (afterPulls s pulls)) (n : ν) (e : Entity)
    (some_row : (afterPulls s pulls n e).row.isSome = true) :
    ∀ p ∈ e.parents, (afterPulls s pulls n p).row.isSome = true := by
  intro p child
  obtain ⟨r, row⟩ := isSome_iff_exists.mp some_row
  have attached : Attached (afterPulls s pulls n) :=
    Gossip.forall_run (fun _ _ hx _ => Attached.merge hx) h.attached pulls n
  have cascades := attached e r row p child
  cases e with
  | bucketConfig b k =>
    obtain rfl := mem_singleton.mp child
    obtain ⟨m, held⟩ := (traced_run s pulls n).row _ r row
    exact present_of_lives (h.independent rfl rfl) (h.configs m b k (by simp [held])) quiet n
  | credential | user | team | grant | bucket | serverConfig | multipartUpload => cases child
  | userGrant | teamGrant | teamMember | bucketTags | part => exact cascades child

lemma ties_run (h : Sound s) (ties : TiesAgree s) (quiet : Quiet (afterPulls s pulls)) (n m : ν)
    (e : Entity) (r r' : e.Payload) (t : Instant) (row : (afterPulls s pulls n e).row = some (r, t))
    (row' : (afterPulls s pulls m e).row = some (r', t)) : r = r' := by
  obtain ⟨k, held⟩ := (traced_run s pulls n).row e _ row
  obtain ⟨k', held'⟩ := (traced_run s pulls m).row e _ row'
  cases shared : e.nodeLocal with
  | true => simp [h.clusterWide k e shared, Slot.empty] at held
  | false =>
    by_cases root : e.parents = []
    · have outcome := unionOutcome_of_quiet (h.independent shared root) quiet n
      generalize afterPulls s pulls n e = y at row outcome
      cases outcome with
      | alive _ _ newest =>
        cases row
        exact ties e shared root k k' r r' t held held' newest
      | dead => cases row
      | absent => cases row
    · exact h.children k k' e r r' t root held held'

lemma converged (h : Sound s) (ties : TiesAgree s) (quiet : Quiet (afterPulls s pulls)) :
    Converged s pulls := by
  refine ⟨quiet.eq (fun n e isLocal => empty_run fun m => h.clusterWide m e isLocal) (h.ties_run ties quiet) (h.present quiet),
    fun e shared root => ?_⟩
  have independent := h.independent shared root
  refine ⟨unionOutcome_of_quiet independent quiet, fun others quiet' n m => ?_⟩
  exact (unionOutcome_of_quiet independent quiet n).unique (ties e shared root)
    (unionOutcome_of_quiet independent quiet' m)

lemma row_stays (h : Sound s) (shared : e.nodeLocal = false) (root : e.parents = [])
    {n : ν} {r : e.Payload} (row : (s n e).row = some (r, t))
    (newest : Newest (fun k => s k e) t) : (afterPulls s pulls n e).row = some (r, t) := by
  have independent := h.independent shared root
  refine Gossip.node_run (P := Traced s) (Q := fun x => (x e).row = some (r, t))
    (fun _ _ => Traced.merge) ?_ (fun n => traced_run s [] n) row pulls
  intro x y hx hy here
  have stamp : (x e).rowStamp = t := by simp [rowStamp, alive, here, stampOf]
  have alive : ¬ (x e).DeadWith (y e) := by
    have deads := fun m => (newest m).2
    exact not_lt.mpr ((max_le (hx.deadStamp_le deads) (hy.deadStamp_le deads)).trans
      (stamp ▸ le_max_left _ _))
  have kept : optionLt (x e).alive (y e).alive = false := by
    refine Bool.eq_false_iff.mpr fun lt => not_lt.mpr ?_ ((optionLt_iff _ _).mp lt)
    exact (hy.rowStamp_le fun m => (newest m).1).trans stamp.ge
  rw [independent.merge_of_alive hx hy alive, kept, Bool.false_and, if_neg Bool.false_ne_true]
  exact here

lemma tiesAgree (h : Sound s) (converged : Converged s pulls) : TiesAgree s := by
  intro e shared root n m r r' t row row' newest
  have here : (afterPulls s pulls n e).row = some (r, t) := h.row_stays shared root row newest
  have there : (afterPulls s pulls m e).row = some (r', t) := h.row_stays shared root row' newest
  rw [converged.1 n m, there] at here
  cases here
  rfl

end Sound

/-- Sound snapshots that have nothing left to pull have converged exactly if the
newest rows of one timestamp agreed from the start. -/
theorem converged_iff [DecidableEq ν] (h : Sound s) {pulls : List (ν × ν)}
    (quiet : Quiet (afterPulls s pulls)) : Converged s pulls ↔ TiesAgree s :=
  ⟨h.tiesAgree, fun ties => h.converged ties quiet⟩

def userRow (username : String) (t : Instant) : Slot User :=
  ⟨some (⟨"u", username, "", false, 1⟩, t), none⟩

def twoRows (t t' : Instant) : Bool → ControlSnapshot
  | true => empty.set (.user "u") (userRow "alice" t)
  | false => empty.set (.user "u") (userRow "bob" t')

/-- One node holds a bucket with its versioning state, the other deleted it. -/
def bucketDropped : Bool → ControlSnapshot
  | true => (empty.set (.bucket "b") ⟨some ("root", 1), none⟩).set (.bucketConfig "b" "versioning")
      ⟨some ("Enabled", 2), none⟩
  | false => empty.set (.bucket "b") ⟨none, some 5⟩

lemma twoRows_empty (t t' : Instant) (other : e ≠ .user "u") (n : Bool) :
    twoRows t t' n e = Slot.empty := by
  cases n <;> exact Function.update_of_ne other _ _

lemma eq_user_of_twoRows {n : Bool} {r : e.Payload × Instant}
    (row : (twoRows t t' n e).row = some r) : e = .user "u" := by
  by_contra other
  rw [twoRows_empty t t' other n] at row
  cases row

lemma sound_twoRows (t t' : Instant) : Sound (twoRows t t') := by
  refine ⟨fun n e isLocal => twoRows_empty t t' ?_ n, fun n e r row p child => ?_,
    fun n b k row => ?_, fun n k c t row => ?_, fun n m e r r' t child row => ?_⟩
  · rintro rfl
    cases isLocal
  · cases eq_user_of_twoRows row
    cases child
  · obtain ⟨r, row⟩ := isSome_iff_exists.mp row
    cases eq_user_of_twoRows row
  · cases eq_user_of_twoRows row
  · cases eq_user_of_twoRows row
    exact absurd rfl child

lemma quiet_twoRows {pulls : List (Bool × Bool)}
    (user : ∀ n m, (planControlMerge (afterPulls (twoRows t t') pulls n)
      (afterPulls (twoRows t t') pulls m) (.user "u")).isEmpty = true) :
    Quiet (afterPulls (twoRows t t') pulls) := by
  refine quiet_of_known [.user "u"] (fun e other n => empty_run fun m => ?_) ?_
  · exact twoRows_empty t t' (fun same => other (mem_singleton.mpr same)) m
  · intro e mem
    obtain rfl := mem_singleton.mp mem
    exact user

/-- A row and an older one. -/
theorem converged_iff_olderRow :
    Quiet (afterPulls (twoRows 5 3) [(false, true)]) ∧ Converged (twoRows 5 3) [(false, true)] := by
  have quiet : Quiet (afterPulls (twoRows 5 3) [(false, true)]) := quiet_twoRows (by decide +kernel)
  refine ⟨quiet, (converged_iff (sound_twoRows 5 3) quiet).mpr ?_⟩
  intro e _ _ n m r r' t row row' _
  cases eq_user_of_twoRows row
  have stamps : ∀ n m, (twoRows 5 3 n (.user "u")).alive = (twoRows 5 3 m (.user "u")).alive →
      n = m := by decide +kernel
  obtain rfl := stamps n m (by simp [alive, row, row'])
  cases row.symm.trans row'
  rfl

/-- Two rows of one timestamp are both kept. A bucket's configuration outlives the
bucket on the node that had it and is not given to the other. -/
theorem ties_and_orphans_part : (Quiet (afterPulls (twoRows 5 5) []) ∧
      afterPulls (twoRows 5 5) [] true (.user "u") ≠ afterPulls (twoRows 5 5) [] false (.user "u")) ∧
    Quiet (afterPulls bucketDropped [(true, false)]) ∧
      afterPulls bucketDropped [(true, false)] true (.bucketConfig "b" "versioning") ≠
        afterPulls bucketDropped [(true, false)] false (.bucketConfig "b" "versioning") := by
  refine ⟨⟨quiet_twoRows (by decide +kernel), by decide +kernel⟩, ?_, by decide +kernel⟩
  refine quiet_of_known [.bucket "b", .bucketConfig "b" "versioning"]
    (fun e other n => empty_run fun m => ?_) (by decide +kernel)
  have bucket : e ≠ .bucket "b" := fun same => other (by simp [same])
  have config : e ≠ .bucketConfig "b" "versioning" := fun same => other (by simp [same])
  cases m
  · exact Function.update_of_ne bucket _ _
  · exact (Function.update_of_ne config _ _).trans (Function.update_of_ne bucket _ _)

end ControlSnapshot
end Arca.Cluster
