import Arca.Storage.Replica

/-!
# The registers of one write

A row and the copies of its write that peers send: each keeps the lock columns and the
content columns it was sent with, and the row follows the two apart from each other.
-/
namespace Arca.ObjectRecord
open RegisterRow List

/-- A received record of the write that `row` holds. -/
structure CopyOf (row : ObjectRecord) where
  record : ObjectRecord
  lastModified : record.lastModified = row.lastModified
  etag : record.etag = row.etag

/-- The row kept when `record` is resolved against it. -/
def resolved (held record : ObjectRecord) : ObjectRecord :=
  (record.resolveReplicated held).getD held

/-- The row after the copies of `l` came in, in this order. -/
def resolvedAll (row : ObjectRecord) (l : List (CopyOf row)) : ObjectRecord :=
  l.foldl (fun held copy => held.resolved copy.record) row

/-- The lock and content columns of `r`, the other ones of `row`. -/
def withRegisters (row r : ObjectRecord) : ObjectRecord :=
  { row with
    retentionMode := r.retentionMode, retainUntilDate := r.retainUntilDate
    legalHoldStatus := r.legalHoldStatus, lockUpdatedAt := r.lockUpdatedAt
    blobId := r.blobId, encryptionAlgorithm := r.encryptionAlgorithm
    encryptionKeyId := r.encryptionKeyId, contentUpdatedAt := r.contentUpdatedAt }

variable {row held r : ObjectRecord}

section
variable (time : r.lastModified = held.lastModified)
include time

lemma view_resolved (etag : r.etag = held.etag) : (held.resolved r).view = { held.view with
      side := held.view.side.newer r.view.side, body := held.view.body.newer r.view.body } := by
  have step := view_receive (some held) r
  simp only [receive, Option.map_some, absorb, Option.some.injEq] at step
  exact step.trans (merge_same time etag)

lemma resolved_eq_withRegisters
    (etag : r.etag = held.etag) : held.resolved r = held.withRegisters (held.resolved r) := by
  unfold resolved
  cases decision : r.resolveReplicated held with
  | none => rfl
  | some merged =>
    rcases ObjectTable.resolve_cases decision with ⟨-, newer | ⟨-, rival, -⟩⟩ | ⟨rfl, -⟩
    · exact absurd time newer.ne'
    · exact absurd etag rival
    · simp only [Option.getD_some, mergeRegisters]
      split_ifs <;> rfl

lemma resolved_eq_self_iff
    (etag : r.etag = held.etag) : held.resolved r = held ↔ r.resolveReplicated held = none := by
  unfold resolved
  cases decision : r.resolveReplicated held with
  | none => simp
  | some merged =>
    rcases ObjectTable.resolve_cases decision with ⟨-, newer | ⟨-, rival, -⟩⟩ | ⟨-, -, -, differs⟩
    · exact absurd time newer.ne'
    · exact absurd etag rival
    · simp only [Option.getD_some, reduceCtorEq, iff_false]
      rintro rfl
      exact differs rfl

end

lemma resolvedAll_append (l : List (CopyOf row)) (copy : CopyOf row) :
    resolvedAll row (l ++ [copy]) = (resolvedAll row l).resolved copy.record := foldl_append

lemma resolvedAll_eq_withRegisters (row : ObjectRecord) (l : List (CopyOf row)) :
    resolvedAll row l = row.withRegisters (resolvedAll row l) := by
  induction l using reverseRecOn with
  | nil => rfl
  | append_singleton l copy ih =>
    have next : (row.withRegisters (resolvedAll row l)).resolved copy.record = _ :=
      resolved_eq_withRegisters copy.lastModified copy.etag
    rw [← ih] at next
    rw [resolvedAll_append, next, ih]
    rfl

/-- A register that follows every received one keeps the first of the newest. -/
lemma exists_firstGreatest {α : Type*} (register : View → Register (WithBot Instant) α)
    (step : ∀ held r : ObjectRecord, r.lastModified = held.lastModified → r.etag = held.etag →
      register (held.resolved r).view = (register held.view).newer (register r.view))
    (row : ObjectRecord) (l : List (CopyOf row)) :
    ∃ r, FirstGreatest (fun x => (register (view x)).stamp) (row :: l.map CopyOf.record) r ∧
      register (resolvedAll row l).view = register r.view := by
  induction l using reverseRecOn with
  | nil => exact ⟨row, .singleton row, rfl⟩
  | append_singleton l copy ih =>
    obtain ⟨r, greatest, holds⟩ := ih
    have same := resolvedAll_eq_withRegisters row l
    have next := step (resolvedAll row l) copy.record
      (copy.lastModified.trans (congrArg ObjectRecord.lastModified same).symm)
      (copy.etag.trans (congrArg ObjectRecord.etag same).symm)
    refine ⟨_, by rw [map_append, ← cons_append]; exact greatest.append copy.record, ?_⟩
    rw [resolvedAll_append, next, holds, Register.newer, apply_ite (fun x => register (view x))]

/-- After each copy the lock columns are those of the first of the newest locks seen
and the content columns those of the first of the newest contents seen. No stamp goes
back, the other columns stay, and a copy that changes nothing resolves to nothing. -/
theorem copies_resolve_per_register (row : ObjectRecord) (l : List (CopyOf row))
    (next : CopyOf row) :
    (∃ r, FirstGreatest (fun x => stampOf x.lockUpdatedAt) (row :: l.map CopyOf.record) r ∧
      (resolvedAll row l).view.side = r.view.side) ∧
    (∃ r, FirstGreatest (fun x => stampOf x.contentUpdatedAt) (row :: l.map CopyOf.record) r ∧
      (resolvedAll row l).view.body = r.view.body) ∧
    stampOf (resolvedAll row l).lockUpdatedAt ≤
      stampOf (resolvedAll row (l ++ [next])).lockUpdatedAt ∧
    stampOf (resolvedAll row l).contentUpdatedAt ≤
      stampOf (resolvedAll row (l ++ [next])).contentUpdatedAt ∧
    resolvedAll row l = row.withRegisters (resolvedAll row l) ∧
    (resolvedAll row (l ++ [next]) = resolvedAll row l ↔
      next.record.resolveReplicated (resolvedAll row l) = none) := by
  have same := resolvedAll_eq_withRegisters row l
  have time := next.lastModified.trans (congrArg ObjectRecord.lastModified same).symm
  have etag := next.etag.trans (congrArg ObjectRecord.etag same).symm
  have step := view_resolved time etag
  rw [resolvedAll_append]
  refine ⟨exists_firstGreatest Row.side (fun _ _ time etag => congrArg Row.side
      (view_resolved time etag)) row l, exists_firstGreatest Row.body (fun _ _ time etag =>
      congrArg Row.body (view_resolved time etag)) row l, ?_, ?_, same,
    resolved_eq_self_iff time etag⟩
  · have kept : ((resolvedAll row l).resolved next.record).view.side = _ := congrArg Row.side step
    exact (Register.le_newer_left _ _).trans_eq (congrArg Register.stamp kept).symm
  · have kept : ((resolvedAll row l).resolved next.record).view.body = _ := congrArg Row.body step
    exact (Register.le_newer_left _ _).trans_eq (congrArg Register.stamp kept).symm

end Arca.ObjectRecord
