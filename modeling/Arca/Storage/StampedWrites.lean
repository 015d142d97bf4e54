import Arca.Lib.ChangeFeed
import Arca.Storage.Replica

/-!
# The stamps of the objects table

Every transaction on the objects table stamps the rows it writes with one value of
the `object_seq` counter; only `is_latest` is changed without a stamp.
-/
namespace Arca
open ChangeFeed List Option

/-- The form `BlobId::new` mints: a lowercase hyphenated UUID. -/
def blobIdIsValid (id : String) : Bool :=
  id.toList.length = 36 && id.toList.zipIdx.all fun (c, i) =>
    if i ∈ [8, 13, 18, 23] then c = '-' else c.isDigit || ('a' ≤ c && c ≤ 'f')

def ObjectRecord.hasValidBlobRef (r : ObjectRecord) : Bool := r.blobId = "" || blobIdIsValid r.blobId

namespace ObjectTable

/-- Nothing is removed or rewritten. -/
def insertWrite (rows : List ObjectRecord) : Write ObjectRecord :=
  ⟨fun _ => false, fun _ => none, rows⟩

def tombstoneWrite (p : ObjectRecord → Bool) (now : Instant) : Write ObjectRecord :=
  ⟨fun _ => false, fun r => if p r then some (tombstone now r) else none, []⟩

def replaceWrite (p : ObjectRecord → Bool) (rows : List ObjectRecord) : Write ObjectRecord :=
  ⟨p, fun _ => none, rows⟩

/-- What a transaction stamps, `none` when it commits nothing with a stamp. -/
def writeOf (t : ObjectTable) : MetaOp → Option (Write ObjectRecord)
  | .put record pre uuid =>
    if !pre (fetchCurrentObject record.bucket record.key t.rows) then none
    else match t.versioning record.bucket with
    | .unversioned => some (replaceWrite (atKey record.bucket record.key)
        [{ record with versionId := none, isLatest := true, isDeleteMarker := false }])
    | .enabled => some (insertWrite
        [{ record with versionId := some uuid, isLatest := true, isDeleteMarker := false }])
    | .suspended => some (replaceWrite (named record.bucket record.key none)
        [{ record with versionId := none, isLatest := true, isDeleteMarker := false }])
  | .deleteLatest bucket key pre owner uuid now =>
    if !pre (fetchLatestObject bucket key t.rows) then none
    else match t.versioning bucket with
    | .unversioned =>
      if (fetchLatestObject bucket key t.rows).isNone then none
      else if t.clusterMode then some (tombstoneWrite (atKey bucket key) now)
      else none
    | .enabled => some (insertWrite [deleteMarker bucket key owner (some uuid) now])
    | .suspended =>
      some (replaceWrite (named bucket key none) [deleteMarker bucket key owner none now])
  | .deleteVersion bucket key version pre now =>
    let deleted := t.rows.find? fun r =>
      named bucket key (versionArg version) r && !r.isTombstone
    if !(deleted.any fun r => r.isDeleteMarker) && !pre deleted then none
    else if deleted.isNone then none
    else if t.clusterMode then some (tombstoneWrite (named bucket key (versionArg version)) now)
    else none
  | .applyRemoteObject record =>
    (remoteWrite t.rows record).map fun row =>
      replaceWrite (named record.bucket record.key record.versionId) [row]
  | .applyRemoteVersionDelete bucket key version now =>
    some (tombstoneWrite
      (fun r => named bucket key (versionArg version) r && !r.isTombstone) now)
  | .purgeTombstones _ => none
  | .setVersioning _ _ => none

open ObjectRecord

variable {rows : List ObjectRecord} {p : ObjectRecord → Bool}

lemma insertWrite_onRows (new : List ObjectRecord) : (insertWrite new).onRows rows = rows ++ new := by
  simp [insertWrite, Write.onRows]

lemma replaceWrite_onRows (new : List ObjectRecord) :
    (replaceWrite p new).onRows rows = deleteWhere p rows ++ new := by
  simp [replaceWrite, Write.onRows, deleteWhere]

lemma tombstoneWrite_onRows (now : Instant) :
    (tombstoneWrite p now).onRows rows = updateWhere p (tombstone now) rows := by
  simp only [tombstoneWrite, Write.onRows, updateWhere, Bool.not_false, filter_true,
    append_nil]
  refine map_congr_left fun r _ => ?_
  split <;> rfl

/-- The rows, up to `is_latest`, after what a transaction stamped. -/
def afterWrite (t : ObjectTable) : Option (Write ObjectRecord) → List ObjectRecord
  | some w => (w.onRows t.rows).map replicated
  | none => t.rows.map replicated

lemma stamped_insert (s : Store ObjectRecord) (new : List ObjectRecord) :
    s.stamped (insertWrite new) = new := by
  simp [Store.stamped, insertWrite]

end ObjectTable
end Arca
