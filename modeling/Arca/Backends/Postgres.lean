import Arca.Backends.StoreOps

/-!
# The PostgreSQL store

The same operations as the PostgreSQL store writes them, run one after another. A
timestamp is kept in whole microseconds, so binding one drops its nanoseconds. The
column list of the queries does not name `is_tombstone`, and a row read through it
counts as live.
-/
namespace Arca.Postgres
open ObjectTable Cluster

def wholeMicros (t : Instant) : Instant := t / 1000 * 1000

variable (r : ObjectRecord)

def bound : ObjectRecord :=
  { r with
    lastModified := wholeMicros r.lastModified
    retainUntilDate := r.retainUntilDate.map wholeMicros
    lockUpdatedAt := r.lockUpdatedAt.map wholeMicros
    contentUpdatedAt := r.contentUpdatedAt.map wholeMicros }

/-- A row through `OBJECT_COLUMNS_FULL`. -/
def readRow : ObjectRecord := { r with isTombstone := false }

/-- A row through `OBJECT_COLUMNS`. -/
def selectedRow : ObjectRecord := selected (readRow r)

/-- The row of a put; the insert leaves `is_tombstone` to its default. -/
def insertObjectRow (record : ObjectRecord) (version : Option String) : ObjectRecord :=
  bound { record with
    versionId := version, isLatest := true, isDeleteMarker := false, isTombstone := false }

/-! A transaction is cut after its queries: what they found is an argument of the
part that writes. -/

def installWith (current : Option ObjectRecord) (versioning : VersioningState) (t : ObjectTable)
    (record : ObjectRecord) (pre : Option ObjectRecord → Bool) (uuid : String) :
    Option ObjectTable :=
  let bucket := record.bucket
  let key := record.key
  if !pre current then none
  else match versioning with
  | .unversioned =>
    let rows := deleteWhere (atKey bucket key) t.rows ++ [insertObjectRow record none]
    some { t with rows := if record.isTombstone then recomputeIsLatest bucket key rows else rows }
  | .enabled =>
    let rows := clearLatest bucket key t.rows ++ [insertObjectRow record (some uuid)]
    some { t with rows := recomputeIsLatest bucket key rows }
  | .suspended =>
    let rows := deleteWhere (fun r => atKey bucket key r && r.versionId = none) t.rows
    let rows := clearLatest bucket key rows ++ [insertObjectRow record none]
    some { t with rows := recomputeIsLatest bucket key rows }

variable (t : ObjectTable) (record : ObjectRecord)

def installObject (pre : Option ObjectRecord → Bool) (uuid : String) : Option ObjectTable :=
  installWith ((fetchCurrentObject record.bucket record.key t.rows).map readRow)
    (t.versioning record.bucket) t record pre uuid

def deleteLatestWith (latest : Option ObjectRecord) (versioning : VersioningState)
    (t : ObjectTable) (bucket key : String) (pre : Option ObjectRecord → Bool)
    (owner uuid : String) (now : Instant) : Option ObjectTable :=
  if !pre latest then none
  else match versioning with
  | .unversioned =>
    if latest.isNone then some t
    else if t.clusterMode then
      let rows := updateWhere (atKey bucket key) (tombstone (wholeMicros now)) t.rows
      some { t with rows := recomputeIsLatest bucket key rows }
    else some { t with rows := deleteWhere (atKey bucket key) t.rows }
  | .enabled =>
    some { t with rows := clearLatest bucket key t.rows ++
      [bound (deleteMarker bucket key owner (some uuid) now)] }
  | .suspended =>
    let rows := deleteWhere (fun r => atKey bucket key r && r.versionId = none) t.rows
    some { t with rows := clearLatest bucket key rows ++
      [bound (deleteMarker bucket key owner none now)] }

variable (bucket key : String)

def deleteLatest (pre : Option ObjectRecord → Bool)
    (owner uuid : String) (now : Instant) : Option ObjectTable :=
  deleteLatestWith ((fetchLatestObject bucket key t.rows).map readRow) (t.versioning bucket) t
    bucket key pre owner uuid now

def deleteVersionWith (deleted : Option ObjectRecord) (t : ObjectTable)
    (bucket key version : String) (pre : Option ObjectRecord → Bool) (now : Instant) :
    Option ObjectTable :=
  let target := named bucket key (versionArg version)
  if !(deleted.any fun r => r.isDeleteMarker) && !pre deleted then none
  else if deleted.isNone then some t
  else if t.clusterMode then
    let rows := updateWhere target (tombstone (wholeMicros now)) t.rows
    some { t with rows := recomputeIsLatest bucket key rows }
  else some { t with rows := recomputeIsLatest bucket key (deleteWhere target t.rows) }

def deleteVersion (bucket key version : String)
    (pre : Option ObjectRecord → Bool) (now : Instant) : Option ObjectTable :=
  deleteVersionWith ((liveVersion bucket key version t.rows).map readRow) t bucket key version pre now

def queryHeld : Option ObjectRecord :=
  (versionRow record.bucket record.key record.versionId t.rows).map readRow

def toWrite : Option ObjectRecord → Option ObjectRecord
  | none => some record
  | some held => record.resolveReplicated held

def writeRows (row : Option ObjectRecord) : ObjectTable :=
  let rows := writeRemote t.rows record (row.map bound)
  { t with rows := recomputeIsLatest record.bucket record.key rows }

def applyRemoteObject : ObjectTable :=
  writeRows t record (toWrite record (queryHeld t record))

def applyRemoteVersionDelete (bucket key version : String) (now : Instant) : ObjectTable :=
  t.applyRemoteVersionDelete bucket key version (wholeMicros now)

/-- The date is parsed before the transaction begins. -/
def setObjectRetention (version mode : Option String)
    (date : Option RetainDate) (now : Instant) : Option ObjectTable :=
  match date with
  | some (.malformed _) => none
  | some (.rfc3339 date) => some (t.changeLock bucket key version
      (retain mode (some (wholeMicros date)) (wholeMicros now)))
  | none => some (t.changeLock bucket key version (retain mode none (wholeMicros now)))

def setObjectLegalHold (version status : Option String) (now : Instant) : ObjectTable :=
  t.changeLock bucket key version (hold status (wholeMicros now))

/-- The marker of an enabled bucket is answered as built, before it is bound. -/
def deletedLatest (bucket key owner uuid : String) (now : Instant) : Option ObjectRecord :=
  match t.versioning bucket with
  | .unversioned => (fetchLatestObject bucket key t.rows).map selectedRow
  | .enabled => some (deleteMarker bucket key owner (some uuid) now)
  | .suspended => (nullVersion bucket key t.rows).map selectedRow

def perform : StoreOp → ObjectTable × Answer
  | .put record pre uuid => match installObject t record pre uuid with
      | none => (t, .refused)
      | some t' => (t', .stored ((t.overwritten record.bucket record.key).map selectedRow)
          (ObjectTable.assignedVersion t record.bucket uuid))
  | .deleteLatest bucket key pre owner uuid now =>
    match deleteLatest t bucket key pre owner uuid now with
    | none => (t, .refused)
    | some t' => (t', .deleted (deletedLatest t bucket key owner uuid now))
  | .deleteVersion bucket key version pre now =>
    match deleteVersion t bucket key version pre now with
    | none => (t, .refused)
    | some t' => (t', .deleted ((liveVersion bucket key version t.rows).map selectedRow))
  | .applyRemoteObject record => (applyRemoteObject t record, .done)
  | .applyRemoteVersionDelete bucket key version now =>
    (applyRemoteVersionDelete t bucket key version now, .done)
  | .setObjectRetention bucket key version mode date now =>
    match setObjectRetention t bucket key version mode date now with
    | none => (t, .failed)
    | some t' => (t', .changed (t.rows.any (lockTarget bucket key version)))
  | .setObjectLegalHold bucket key version status now =>
    (setObjectLegalHold t bucket key version status now,
      .changed (t.rows.any (lockTarget bucket key version)))
  | .setVersioning bucket state =>
    ({ t with versioning := Function.update t.versioning bucket state }, .done)

end Arca.Postgres
