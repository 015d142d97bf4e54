import Arca.Lib.CurrentRow
import Arca.Lib.Run
import Arca.Storage.ObjectRecord

/-!
# The objects table and its `is_latest` flag

A uuid drawn by the store and the reading of its clock are arguments of the
operation. Among rows that tie on every sort column the flag goes to the first one.
-/
namespace Arca
open CurrentRow

inductive VersioningState where
  | unversioned
  | enabled
  | suspended
  deriving DecidableEq, Repr

structure ObjectTable where
  rows : List ObjectRecord
  versioning : String → VersioningState
  clusterMode : Bool

namespace ObjectTable

variable (bucket key : String)

def atKey (r : ObjectRecord) : Bool := r.bucket = bucket && r.key = key

def updateWhere (p : ObjectRecord → Bool) (f : ObjectRecord → ObjectRecord)
    (rows : List ObjectRecord) : List ObjectRecord := rows.map fun r => if p r then f r else r

def deleteWhere (p : ObjectRecord → Bool) (rows : List ObjectRecord) : List ObjectRecord :=
  rows.filter fun r => !p r

def setLatest (flag : Bool) (r : ObjectRecord) : ObjectRecord := { r with isLatest := flag }

/-- `NULL` sorts below every version id. -/
def versionLt : Option String → Option String → Bool
  | none, some _ => true
  | some a, some b => a < b
  | _, none => false

/-- `a` comes after `b` in `ORDER BY last_modified DESC, version_id DESC, blob_id DESC`. -/
def sortsAfter (a b : ObjectRecord) : Bool :=
  a.lastModified < b.lastModified || (a.lastModified = b.lastModified &&
    (versionLt a.versionId b.versionId || (a.versionId = b.versionId && a.blobId < b.blobId)))

variable (rows : List ObjectRecord)

/-- `r` can head the rows of the key that are no tombstones. -/
def canHead (r : ObjectRecord) : Bool :=
  atKey bucket key r && !r.isTombstone &&
    rows.all fun x => !(atKey bucket key x && !x.isTombstone && sortsAfter r x)

def clearLatest : List ObjectRecord :=
  updateWhere (fun r => atKey bucket key r && r.isLatest) (setLatest false) rows

def recomputeIsLatest : List ObjectRecord :=
  let cleared := clearLatest bucket key rows
  updateFirst (canHead bucket key cleared) (setLatest true) cleared

def fetchLatestObject : Option ObjectRecord :=
  rows.find? fun r => atKey bucket key r && r.isLatest

def fetchCurrentObject : Option ObjectRecord :=
  rows.find? fun r => atKey bucket key r && r.isLatest && !r.isDeleteMarker

/-- What a hard delete leaves of a row in a cluster. -/
def tombstone (now : Instant) (r : ObjectRecord) : ObjectRecord :=
  { r with isTombstone := true, isDeleteMarker := false, blobId := "", size := 0, lastModified := now }

def deleteMarker (bucket key owner : String) (version : Option String) (now : Instant) :
    ObjectRecord :=
  { bucket, key, blobId := "", size := 0, etag := "", contentType := none, lastModified := now
    metadata := [], encryptionAlgorithm := none, encryptionKeyId := none, owner
    versionId := version, isLatest := true, isDeleteMarker := true, isTombstone := false
    retentionMode := none, retainUntilDate := none, legalHoldStatus := none
    storageClass := "STANDARD", checksumAlgorithm := none, checksumValue := none, parts := none
    replicationStatus := none, lockUpdatedAt := none, contentUpdatedAt := none }

/-- The version id of a request: `null` names the row without one. -/
def versionArg (version : String) : Option String := if version = "null" then none else some version

variable (t : ObjectTable)

/-- `none` when the precondition refuses the write, which then does not commit. -/
def installObject (record : ObjectRecord) (pre : Option ObjectRecord → Bool)
    (uuid : String) : Option ObjectTable :=
  let bucket := record.bucket
  let key := record.key
  if !pre (fetchCurrentObject bucket key t.rows) then none
  else match t.versioning bucket with
  | .unversioned =>
    let row := { record with versionId := none, isLatest := true, isDeleteMarker := false }
    let rows := deleteWhere (atKey bucket key) t.rows ++ [row]
    some { t with rows := if record.isTombstone then recomputeIsLatest bucket key rows else rows }
  | .enabled =>
    let row := { record with versionId := some uuid, isLatest := true, isDeleteMarker := false }
    some { t with rows := recomputeIsLatest bucket key (clearLatest bucket key t.rows ++ [row]) }
  | .suspended =>
    let row := { record with versionId := none, isLatest := true, isDeleteMarker := false }
    let rows := deleteWhere (fun r => atKey bucket key r && r.versionId = none) t.rows
    some { t with rows := recomputeIsLatest bucket key (clearLatest bucket key rows ++ [row]) }

section
variable (bucket key : String)

def deleteLatest (pre : Option ObjectRecord → Bool)
    (owner uuid : String) (now : Instant) : Option ObjectTable :=
  if !pre (fetchLatestObject bucket key t.rows) then none
  else match t.versioning bucket with
  | .unversioned =>
    if (fetchLatestObject bucket key t.rows).isNone then some t
    else if t.clusterMode then
      some { t with
        rows := recomputeIsLatest bucket key (updateWhere (atKey bucket key) (tombstone now) t.rows) }
    else some { t with rows := deleteWhere (atKey bucket key) t.rows }
  | .enabled =>
    some { t with
      rows := clearLatest bucket key t.rows ++ [deleteMarker bucket key owner (some uuid) now] }
  | .suspended =>
    let rows := deleteWhere (fun r => atKey bucket key r && r.versionId = none) t.rows
    some { t with rows := clearLatest bucket key rows ++ [deleteMarker bucket key owner none now] }

/-- The precondition is not asked about a delete marker. -/
def deleteVersion (bucket key version : String)
    (pre : Option ObjectRecord → Bool) (now : Instant) : Option ObjectTable :=
  let named := fun r => atKey bucket key r && r.versionId = versionArg version
  let deleted := t.rows.find? fun r => named r && !r.isTombstone
  if !(deleted.any fun r => r.isDeleteMarker) && !pre deleted then none
  else if deleted.isNone then some t
  else if t.clusterMode then
    some { t with rows := recomputeIsLatest bucket key (updateWhere named (tombstone now) t.rows) }
  else some { t with rows := recomputeIsLatest bucket key (deleteWhere named t.rows) }

def applyRemoteObject (record : ObjectRecord) : ObjectTable :=
  let named := fun r => atKey record.bucket record.key r && r.versionId = record.versionId
  let toWrite := match t.rows.find? named with
    | none => some record
    | some existing => record.resolveReplicated existing
  let rows := match toWrite with
    | some row => deleteWhere named t.rows ++ [setLatest false row]
    | none => t.rows
  { t with rows := recomputeIsLatest record.bucket record.key rows }

def applyRemoteVersionDelete (bucket key version : String) (now : Instant) : ObjectTable :=
  let named := fun r => atKey bucket key r && r.versionId = versionArg version && !r.isTombstone
  { t with rows := recomputeIsLatest bucket key (updateWhere named (tombstone now) t.rows) }

def purgeTombstones (before : Instant) : ObjectTable :=
  { t with rows := deleteWhere (fun r => r.isTombstone && r.lastModified < before) t.rows }

inductive MetaOp where
  | put (record : ObjectRecord) (pre : Option ObjectRecord → Bool) (uuid : String)
  | deleteLatest (bucket key : String) (pre : Option ObjectRecord → Bool) (owner uuid : String)
      (now : Instant)
  | deleteVersion (bucket key version : String) (pre : Option ObjectRecord → Bool) (now : Instant)
  | applyRemoteObject (record : ObjectRecord)
  | applyRemoteVersionDelete (bucket key version : String) (now : Instant)
  | purgeTombstones (before : Instant)
  | setVersioning (bucket : String) (state : VersioningState)

/-- One operation; a refused one leaves the table as it was. -/
def step : MetaOp → ObjectTable
  | .put record pre uuid => (t.installObject record pre uuid).getD t
  | .deleteLatest bucket key pre owner uuid now =>
    (t.deleteLatest bucket key pre owner uuid now).getD t
  | .deleteVersion bucket key version pre now => (t.deleteVersion bucket key version pre now).getD t
  | .applyRemoteObject record => t.applyRemoteObject record
  | .applyRemoteVersionDelete bucket key version now =>
    t.applyRemoteVersionDelete bucket key version now
  | .purgeTombstones before => t.purgeTombstones before
  | .setVersioning bucket state => { t with versioning := Function.update t.versioning bucket state }

def named (version : Option String) (r : ObjectRecord) : Bool :=
  atKey bucket key r && r.versionId = version

/-- The version id `install_object` gives a row. -/
def assignedVersion (bucket uuid : String) : Option String :=
  if t.versioning bucket = .enabled then some uuid else none

def storedRow (record : ObjectRecord) (uuid : String) : ObjectRecord :=
  { record with
    versionId := assignedVersion t record.bucket uuid, isLatest := true, isDeleteMarker := false }

def replaced (r : ObjectRecord) : Bool :=
  match t.versioning bucket with
  | .unversioned => atKey bucket key r
  | .enabled => false
  | .suspended => named bucket key none r

def cleared : List ObjectRecord :=
  clearLatest bucket key (deleteWhere (t.replaced bucket key) t.rows)

end

end ObjectTable
end Arca
