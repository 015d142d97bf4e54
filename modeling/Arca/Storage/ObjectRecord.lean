import Arca.Lib.RegisterRow
import Arca.Time

/-!
# Object rows and their replicated resolution

The metadata row of one object version, and `resolve_replicated`, which decides
what a row received from a peer does to the row already held. The metadata map
is kept as its list of entries in key order.
-/
namespace Arca
open RegisterRow List

structure ObjectPart where
  partNumber : Nat
  size : Nat
  checksum : Option String
  deriving DecidableEq, Repr

structure ObjectRecord where
  bucket : String
  key : String
  blobId : String
  size : Nat
  etag : String
  contentType : Option String
  lastModified : Instant
  metadata : List (String × String)
  encryptionAlgorithm : Option String
  encryptionKeyId : Option String
  owner : String
  versionId : Option String
  isLatest : Bool
  isDeleteMarker : Bool
  isTombstone : Bool
  retentionMode : Option String
  retainUntilDate : Option Instant
  legalHoldStatus : Option String
  storageClass : String
  checksumAlgorithm : Option String
  checksumValue : Option String
  parts : Option (List ObjectPart)
  replicationStatus : Option String
  lockUpdatedAt : Option Instant
  contentUpdatedAt : Option Instant
  deriving DecidableEq

namespace ObjectRecord

variable (r : ObjectRecord)

/-- The row without `is_latest`, which every node derives for itself. -/
def replicated : ObjectRecord := { r with isLatest := false }

def sameReplicatedContent (self other : ObjectRecord) : Bool :=
  self.replicated = other.replicated

/-- Two copies of one write: each in-place register adopts the received value
only when that is strictly newer. -/
def mergeRegisters (self held : ObjectRecord) : ObjectRecord :=
  let merged := held
  let merged := if optionLt held.lockUpdatedAt self.lockUpdatedAt then
      { merged with
        retentionMode := self.retentionMode
        retainUntilDate := self.retainUntilDate
        legalHoldStatus := self.legalHoldStatus
        lockUpdatedAt := self.lockUpdatedAt }
    else merged
  if optionLt held.contentUpdatedAt self.contentUpdatedAt then
    { merged with
      blobId := self.blobId
      encryptionAlgorithm := self.encryptionAlgorithm
      encryptionKeyId := self.encryptionKeyId
      contentUpdatedAt := self.contentUpdatedAt }
  else merged

def resolveReplicated (self held : ObjectRecord) : Option ObjectRecord :=
  if held.lastModified < self.lastModified then some self
  else if self.lastModified < held.lastModified then none
  else if self.etag ≠ held.etag then
    -- rival writes that share a timestamp: whole-row tiebreak
    if held.blobId < self.blobId then some self else none
  else
    let merged := self.mergeRegisters held
    if merged.sameReplicatedContent held then none else some merged

/-- The row a node holds for one version after `record` is received: the
decision part of `apply_remote_object`. -/
def receive : Option ObjectRecord → ObjectRecord → Option ObjectRecord
  | none, record => some record
  | some held, record => some ((record.resolveReplicated held).getD held)

def receiveAll (l : List ObjectRecord) : Option ObjectRecord := l.foldl receive none

structure LockState where
  retentionMode : Option String
  retainUntilDate : Option Instant
  legalHoldStatus : Option String
  deriving DecidableEq

structure ContentState where
  blobId : String
  encryptionAlgorithm : Option String
  encryptionKeyId : Option String
  deriving DecidableEq

/-- The columns that only a newer write changes, with the others blanked. -/
def fixedPart : ObjectRecord :=
  { r with
    isLatest := false, lastModified := 0, etag := ""
    retentionMode := none, retainUntilDate := none, legalHoldStatus := none, lockUpdatedAt := none
    blobId := "", encryptionAlgorithm := none, encryptionKeyId := none, contentUpdatedAt := none }

abbrev View := Row Instant String ObjectRecord (WithBot Instant) LockState ContentState

def view : View where
  stamp := r.lastModified
  tag := r.etag
  base := r.fixedPart
  side := ⟨stampOf r.lockUpdatedAt, r.retentionMode, r.retainUntilDate, r.legalHoldStatus⟩
  body := ⟨stampOf r.contentUpdatedAt, r.blobId, r.encryptionAlgorithm, r.encryptionKeyId⟩

lemma view_eq_iff (r x : ObjectRecord) : r.view = x.view ↔ r.replicated = x.replicated := by
  simp only [view, fixedPart, replicated, Row.mk.injEq, Register.mk.injEq, LockState.mk.injEq,
    ContentState.mk.injEq, mk.injEq, stampOf_inj, true_and, and_true]
  tauto

lemma view_mergeRegisters (r held : ObjectRecord) : (r.mergeRegisters held).view =
      { held.view with
        side := held.view.side.newer r.view.side
        body := held.view.body.newer r.view.body } := by
  by_cases lock : optionLt held.lockUpdatedAt r.lockUpdatedAt <;>
  by_cases content : optionLt held.contentUpdatedAt r.contentUpdatedAt <;>
  · simp only [mergeRegisters, lock, content, view, fixedPart, Register.newer, ← optionLt_iff]
    rfl

/-- One delivery acts on the two registers as the general merge does. -/
lemma view_receive (o : Option ObjectRecord) (r : ObjectRecord) :
    (receive o r).map view = absorb ContentState.blobId (o.map view) r.view := by
  cases o with
  | none => rfl
  | some held =>
    simp only [receive, Option.map_some, absorb, Option.some.injEq]
    unfold resolveReplicated
    split_ifs with newer older tag rank
    · exact (merge_newer newer).symm
    · exact (merge_older older).symm
    · exact (merge_rival (le_antisymm (not_lt.mp newer) (not_lt.mp older)) tag rank).symm
    · exact (merge_refused (le_antisymm (not_lt.mp newer) (not_lt.mp older)) tag
        (not_lt.mp rank)).symm
    · have stamp : r.view.stamp = held.view.stamp :=
        le_antisymm (not_lt.mp newer) (not_lt.mp older)
      rw [merge_same stamp (not_not.mp tag), ← view_mergeRegisters]
      dsimp only
      split_ifs with same
      · exact ((view_eq_iff _ _).mpr (of_decide_eq_true same)).symm
      · rfl

lemma view_receiveAll (l : List ObjectRecord) :
    (receiveAll l).map view = deliver ContentState.blobId (l.map view) := by
  have fold : ∀ o : Option ObjectRecord, (l.foldl receive o).map view =
      (l.map view).foldl (absorb ContentState.blobId) (o.map view) := by
    induction l with
    | nil => intro o; rfl
    | cons r l ih => intro o; rw [foldl_cons, ih, view_receive]; rfl
  exact fold none

/-- `l` delivers exactly the records of `R`, in some order and each at least once. -/
def DeliveryOrder (R l : List ObjectRecord) : Prop := ∀ r, r ∈ l ↔ r ∈ R

/-- All delivery orders of `R` leave rows that agree on every replicated column. -/
def DeliveriesAgree (R : List ObjectRecord) : Prop :=
  ∀ l l', DeliveryOrder R l → DeliveryOrder R l' →
    (receiveAll l).map replicated = (receiveAll l').map replicated

lemma map_replicated_eq_iff (o o' : Option ObjectRecord) :
    o.map replicated = o'.map replicated ↔ o.map view = o'.map view := by
  cases o <;> cases o' <;> simp [view_eq_iff]

/-- Each row of an order of views stands for all records with that view. -/
lemma exists_deliveryOrder (R : List ObjectRecord) (l : List View) (hl : Covers (R.map view) l) :
    ∃ l', DeliveryOrder R l' ∧
      deliver ContentState.blobId (l'.map view) = deliver ContentState.blobId l := by
  refine ⟨l.flatMap fun v => R.filter fun r => decide (r.view = v), ?_, ?_⟩
  · intro r
    simp only [mem_flatMap, mem_filter, decide_eq_true_eq]
    refine ⟨fun ⟨_, _, hr, _⟩ => hr, fun hr => ⟨r.view, (hl _).mpr (mem_map_of_mem hr), hr, rfl⟩⟩
  · rw [map_flatMap, ← deliver_flatMap_replicate
      (fun v => (R.filter fun r => decide (r.view = v)).length) l]
    · congr 2
      funext v
      refine map_eq_replicate_iff.mpr ?_
      intro r hr
      exact of_decide_eq_true (mem_filter.mp hr).2
    · intro v hv
      obtain ⟨r, hr, rfl⟩ := mem_map.mp ((hl v).mp hv)
      exact (length_pos_of_mem (mem_filter.mpr ⟨hr, decide_eq_true rfl⟩)).ne'

/-- The delivery orders of `R` agree exactly when its newest records settle on
one etag. -/
theorem deliveriesAgree_iff (R : List ObjectRecord) :
    DeliveriesAgree R ↔ R = [] ∨ ∃ etag, Settles ContentState.blobId (R.map view) etag := by
  rw [← map_eq_nil_iff (f := view), ← orderIndependent_iff]
  constructor
  · intro h l l' hl hl'
    obtain ⟨m, hm, em⟩ := exists_deliveryOrder R l hl
    obtain ⟨m', hm', em'⟩ := exists_deliveryOrder R l' hl'
    rw [← em, ← em', ← view_receiveAll, ← view_receiveAll, ← map_replicated_eq_iff]
    exact h m m' hm hm'
  · intro h l l' hl hl'
    rw [map_replicated_eq_iff, view_receiveAll, view_receiveAll]
    refine h _ _ ?_ ?_
    all_goals
      intro v
      simp only [mem_map]
    · simp only [hl _]
    · simp only [hl' _]

def written : ObjectRecord :=
  { bucket := "b", key := "k", blobId := "5", size := 3, etag := "e1", contentType := none
    lastModified := 100, metadata := [], encryptionAlgorithm := none, encryptionKeyId := none
    owner := "root", versionId := none, isLatest := true, isDeleteMarker := false
    isTombstone := false, retentionMode := none, retainUntilDate := none, legalHoldStatus := none
    storageClass := "STANDARD", checksumAlgorithm := none, checksumValue := none, parts := none
    replicationStatus := none, lockUpdatedAt := none, contentUpdatedAt := none }

/-- The same version after a copy-on-write re-encryption gave it another blob. -/
def reencrypted : ObjectRecord :=
  { written with
    blobId := "3", encryptionAlgorithm := some "AES256", encryptionKeyId := some "key"
    contentUpdatedAt := some 200 }

def overwrite : ObjectRecord := { written with blobId := "4", etag := "e2" }

/-- The re-encryption lowers the blob id the tiebreak compares, so one order ends
on the overwrite and another on the re-encrypted row. -/
theorem reencryption_breaks_tiebreak :
    (receiveAll [written, reencrypted, overwrite]).map replicated = some overwrite.replicated ∧
    (receiveAll [overwrite, written, reencrypted]).map replicated = some reencrypted.replicated ∧
    ¬ DeliveriesAgree [written, reencrypted, overwrite] := by
  have first : (receiveAll [written, reencrypted, overwrite]).map replicated =
      some overwrite.replicated := by decide
  have second : (receiveAll [overwrite, written, reencrypted]).map replicated =
      some reencrypted.replicated := by decide
  refine ⟨first, second, fun agree => ?_⟩
  have same := agree [written, reencrypted, overwrite] [overwrite, written, reencrypted]
    (fun r => Iff.rfl) (fun r => by simp only [mem_cons, not_mem_nil, or_false]; tauto)
  exact absurd same (by decide)

end ObjectRecord
end Arca
