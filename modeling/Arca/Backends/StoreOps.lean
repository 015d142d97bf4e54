import Arca.Cluster.ObjectFanOut

/-!
# Store operations with their answers

The operations of the metadata store on object rows, the changes of the lock columns
included, and what each of them answers. A record given to a put has no
`replication_status`, which no put stores.
-/
namespace Arca
open ObjectTable Cluster

inductive RetainDate where
  | rfc3339 (date : Instant)
  | malformed (text : String)
  deriving DecidableEq

def RetainDate.instant : RetainDate → Option Instant
  | .rfc3339 date => some date
  | .malformed _ => none

inductive StoreOp where
  | put (record : ObjectRecord) (pre : Option ObjectRecord → Bool) (uuid : String)
  | deleteLatest (bucket key : String) (pre : Option ObjectRecord → Bool) (owner uuid : String)
      (now : Instant)
  | deleteVersion (bucket key version : String) (pre : Option ObjectRecord → Bool) (now : Instant)
  | applyRemoteObject (record : ObjectRecord)
  | applyRemoteVersionDelete (bucket key version : String) (now : Instant)
  | setObjectRetention (bucket key : String) (version mode : Option String)
      (date : Option RetainDate) (now : Instant)
  | setObjectLegalHold (bucket key : String) (version status : Option String) (now : Instant)
  | setVersioning (bucket : String) (state : VersioningState)

inductive Answer where
  | refused
  | stored (old : Option ObjectRecord) (version : Option String)
  | deleted (record : Option ObjectRecord)
  | changed (found : Bool)
  | done
  | failed
  deriving DecidableEq

namespace ObjectTable

/-- The rows a lock change updates. A tombstone of the version is one of them. -/
def lockTarget (bucket key : String) : Option String → ObjectRecord → Bool
  | some version, r => named bucket key (some version) r
  | none, r => atKey bucket key r && r.isLatest

def retain (mode : Option String) (date : Option Instant) (now : Instant) (r : ObjectRecord) :
    ObjectRecord :=
  { r with retentionMode := mode, retainUntilDate := date, lockUpdatedAt := some now }

def hold (status : Option String) (now : Instant) (r : ObjectRecord) : ObjectRecord :=
  { r with legalHoldStatus := status, lockUpdatedAt := some now }

variable (t : ObjectTable) (bucket key : String)

def changeLock (version : Option String) (change : ObjectRecord → ObjectRecord) : ObjectTable :=
  { t with rows := updateWhere (lockTarget bucket key version) change t.rows }

/-- The text is stored as it is; one that does not parse reads as no date. -/
def setObjectRetention (version mode : Option String)
    (date : Option RetainDate) (now : Instant) : ObjectTable :=
  t.changeLock bucket key version (retain mode (date.bind RetainDate.instant) now)

def setObjectLegalHold (version status : Option String) (now : Instant) : ObjectTable :=
  t.changeLock bucket key version (hold status now)

def nullVersion (rows : List ObjectRecord) : Option ObjectRecord :=
  rows.find? fun r => named bucket key none r && !r.isTombstone

def liveVersion (bucket key version : String) (rows : List ObjectRecord) : Option ObjectRecord :=
  rows.find? fun r => named bucket key (versionArg version) r && !r.isTombstone

/-- The object a put overwrites, whose blob the caller deletes. -/
def overwritten : Option ObjectRecord :=
  match t.versioning bucket with
  | .unversioned => fetchLatestObject bucket key t.rows
  | .enabled => none
  | .suspended => nullVersion bucket key t.rows

def selected (r : ObjectRecord) : ObjectRecord := { r with parts := none }

def perform : StoreOp → ObjectTable × Answer
  | .put record pre uuid => match t.installObject record pre uuid with
      | none => (t, .refused)
      | some t' => (t', .stored ((t.overwritten record.bucket record.key).map selected)
          (ObjectTable.assignedVersion t record.bucket uuid))
  | .deleteLatest bucket key pre owner uuid now =>
    match t.deleteLatest bucket key pre owner uuid now with
    | none => (t, .refused)
    | some t' => (t', .deleted ((ObjectMutation.deletedLatest t bucket key owner uuid now).map selected))
  | .deleteVersion bucket key version pre now =>
    match t.deleteVersion bucket key version pre now with
    | none => (t, .refused)
    | some t' => (t', .deleted ((liveVersion bucket key version t.rows).map selected))
  | .applyRemoteObject record => (t.applyRemoteObject record, .done)
  | .applyRemoteVersionDelete bucket key version now =>
    (t.applyRemoteVersionDelete bucket key version now, .done)
  | .setObjectRetention bucket key version mode date now =>
    (t.setObjectRetention bucket key version mode date now,
      .changed (t.rows.any (lockTarget bucket key version)))
  | .setObjectLegalHold bucket key version status now =>
    (t.setObjectLegalHold bucket key version status now,
      .changed (t.rows.any (lockTarget bucket key version)))
  | .setVersioning bucket state =>
    ({ t with versioning := Function.update t.versioning bucket state }, .done)

end ObjectTable
end Arca
