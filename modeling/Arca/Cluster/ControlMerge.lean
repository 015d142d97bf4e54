import Arca.Time

/-!
# Control-plane merge of one entity

What a node holds for one control-plane entity is a live row with its `updated_at`, a
deletion tombstone, both or neither.
-/
namespace Arca.Cluster

structure KeyResolution where
  alive : Bool
  upsertFromRemote : Bool
  deleteLocal : Bool
  adoptTombstoneAt : Option Instant
  clearTombstone : Bool
  deriving DecidableEq, Repr

/-- The newest event wins; a row and a tombstone of one instant leave the row. -/
def deadWins : Option Instant → Option Instant → Bool
  | some a, some d => a < d
  | none, some _ => true
  | _, none => false

def resolveKey (localAlive localDead remoteAlive remoteDead : Option Instant) : KeyResolution :=
  let globalAlive := latest localAlive remoteAlive
  let globalDead := latest localDead remoteDead
  if deadWins globalAlive globalDead then
    { alive := false
      upsertFromRemote := false
      deleteLocal := localAlive.isSome
      adoptTombstoneAt := if optionLt localDead globalDead then globalDead else none
      clearTombstone := false }
  else
    { alive := localAlive.isSome || remoteAlive.isSome
      upsertFromRemote := optionLt localAlive remoteAlive
      deleteLocal := false
      adoptTombstoneAt := none
      clearTombstone := localDead.isSome }

structure Slot (α : Type) where
  row : Option (α × Instant)
  dead : Option Instant
  deriving DecidableEq, Repr

/-- The local writes a merge asks for, on one entity. -/
structure KeyPlan (α : Type) where
  upsert : Option (α × Instant)
  delete : Bool
  adopt : Option Instant
  clear : Bool
  deriving DecidableEq, Repr

variable {α : Type}

namespace Slot

def empty : Slot α := ⟨none, none⟩

def alive (s : Slot α) : Option Instant := s.row.map Prod.snd

@[simp] lemma isSome_alive (s : Slot α) : s.alive.isSome = s.row.isSome :=
  Option.isSome_map

/-- The plan for this entity. A child row is taken over only while its parents
are alive after the merge. -/
def planMerge (parentsAlive : Bool) (mine remote : Slot α) : KeyPlan α :=
  let res := resolveKey mine.alive mine.dead remote.alive remote.dead
  { upsert := if res.upsertFromRemote && parentsAlive then remote.row else none
    delete := res.deleteLocal
    adopt := res.adoptTombstoneAt
    clear := res.clearTombstone }

def applyMerge (s : Slot α) (plan : KeyPlan α) : Slot α :=
  let s := match plan.adopt with
    | some deletedAt => { s with dead := latest s.dead (some deletedAt) }
    | none => s
  let s := match plan.upsert with
    | some row => { s with row := some row }
    | none => s
  let s := if plan.delete then { s with row := none } else s
  if plan.clear then { s with dead := none } else s

end Slot

def KeyPlan.isEmpty (plan : KeyPlan α) : Bool :=
  plan.upsert.isNone && !plan.delete && plan.adopt.isNone && !plan.clear

lemma deadWins_iff (a d : Option Instant) : deadWins a d = true ↔ stampOf a < stampOf d := by
  cases a <;> cases d <;> simp [deadWins, stampOf]

/-- The stamp of the newest row, below every instant when there is none. -/
def Slot.rowStamp (s : Slot α) : WithBot Instant := stampOf s.alive

def Slot.deadStamp (s : Slot α) : WithBot Instant := stampOf s.dead

variable {mine remote : Slot α}

def Slot.DeadWith (mine remote : Slot α) : Prop :=
  max mine.rowStamp remote.rowStamp < max mine.deadStamp remote.deadStamp

lemma Slot.deadWith_comm : mine.DeadWith remote ↔ remote.DeadWith mine := by
  rw [Slot.DeadWith, max_comm, max_comm mine.deadStamp]
  rfl

lemma deadWins_latest : deadWins (latest mine.alive remote.alive) (latest mine.dead remote.dead) =
    true ↔ mine.DeadWith remote := by
  rw [deadWins_iff, stampOf_latest, stampOf_latest]
  rfl

lemma latest_of_le {a b : Option Instant} (h : optionLt a (latest a b) = false) :
    latest a b = a := by
  cases a <;> cases b <;> simp_all [latest, optionLt]

lemma latest_latest (a b : Option Instant) : latest a (latest a b) = latest a b := by
  cases a <;> cases b <;> simp [latest]

variable {p : Bool}

lemma applyMerge_of_dead (h : mine.DeadWith remote) :
    mine.applyMerge (mine.planMerge p remote) = ⟨none, latest mine.dead remote.dead⟩ := by
  have wins := deadWins_latest.mpr h
  have dead_some : (latest mine.dead remote.dead).isSome = true := by
    cases hd : latest mine.dead remote.dead with
    | none => simp [hd, deadWins] at wins
    | some d => rfl
  obtain ⟨d, hd⟩ := Option.isSome_iff_exists.mp dead_some
  have tomb := latest_latest mine.dead remote.dead
  have keep : optionLt mine.dead (latest mine.dead remote.dead) = false → mine.dead = some d :=
    fun stale => (latest_of_le stale).symm.trans hd
  rcases mine with ⟨row, dead⟩
  cases row with
  | none | some r =>
    cases hlt : optionLt dead (some d) <;> simp_all [Slot.planMerge, Slot.applyMerge, resolveKey, Slot.alive]

/-- A live row that wins leaves no tombstone, and the newer row of the two; without
its parents the other side's row is not taken. -/
lemma applyMerge_of_alive (h : ¬ mine.DeadWith remote) :
    mine.applyMerge (mine.planMerge p remote) =
      ⟨if optionLt mine.alive remote.alive && p then remote.row else mine.row, none⟩ := by
  have wins : deadWins (latest mine.alive remote.alive) (latest mine.dead remote.dead) = false :=
    Bool.eq_false_iff.mpr fun hw => h (deadWins_latest.mp hw)
  rcases mine with ⟨row, dead⟩
  rcases remote with ⟨remoteRow, remoteDead⟩
  simp only [Slot.planMerge, resolveKey, wins, Slot.applyMerge]
  cases newer : optionLt (Slot.alive ⟨row, dead⟩) (Slot.alive ⟨remoteRow, remoteDead⟩) with
  | false => cases dead <;> simp
  | true =>
    -- a strictly newer remote stamp comes with a remote row
    cases remoteRow with
    | none => cases row <;> simp [Slot.alive, optionLt] at newer
    | some r => cases dead <;> cases p <;> simp

lemma isEmpty_of_dead_iff (h : mine.DeadWith remote) : (mine.planMerge p remote).isEmpty = true ↔
      mine.row = none ∧ remote.deadStamp ≤ mine.deadStamp := by
  have wins := deadWins_latest.mpr h
  have newest : stampOf (latest mine.dead remote.dead) = max mine.deadStamp remote.deadStamp :=
    stampOf_latest _ _
  have adopt : optionLt mine.dead (latest mine.dead remote.dead) = false ↔
      remote.deadStamp ≤ mine.deadStamp := by
    rw [Bool.eq_false_iff, ne_eq, optionLt_iff, newest, not_lt]
    exact ⟨fun le => (le_max_right _ _).trans le, fun le => max_le le_rfl le⟩
  rw [← adopt]
  have some_dead : latest mine.dead remote.dead ≠ none := by
    intro none
    rw [none] at wins
    simp [deadWins] at wins
  cases stale : optionLt mine.dead (latest mine.dead remote.dead) <;>
    simp [Slot.planMerge, resolveKey, wins, KeyPlan.isEmpty, stale, some_dead]

/-- Where a row wins nothing is left to do once there is no tombstone and the
other side has no newer row that may be taken. -/
lemma isEmpty_of_alive_iff (h : ¬ mine.DeadWith remote) :
    (mine.planMerge p remote).isEmpty = true ↔
      mine.dead = none ∧ (p = true → remote.rowStamp ≤ mine.rowStamp) := by
  have wins : deadWins (latest mine.alive remote.alive) (latest mine.dead remote.dead) = false :=
    Bool.eq_false_iff.mpr fun hw => h (deadWins_latest.mp hw)
  have newer : optionLt mine.alive remote.alive = false ↔ remote.rowStamp ≤ mine.rowStamp := by
    rw [Bool.eq_false_iff, ne_eq, optionLt_iff, not_lt]
    rfl
  rw [← newer]
  cases later : optionLt mine.alive remote.alive with
  | false => simp [Slot.planMerge, resolveKey, wins, KeyPlan.isEmpty, later]
  | true =>
    -- a strictly newer remote stamp comes with a remote row
    have some_row : remote.row ≠ none := by
      intro none
      simp [Slot.alive, none, optionLt] at later
    cases p <;> simp [Slot.planMerge, resolveKey, wins, KeyPlan.isEmpty, later, some_row]

end Arca.Cluster
