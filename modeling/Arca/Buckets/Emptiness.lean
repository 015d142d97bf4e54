import Arca.Buckets.Tables

/-!
# An empty bucket

`DeleteBucket` looks whether the bucket has any row in the objects table. In a cluster a
delete leaves a tombstone in that table, which every listing hides.
-/
namespace Arca.BucketLife
open ObjectTable Lifecycle List

/-- `ORDER BY key ASC, last_modified DESC, COALESCE(version_id, '') DESC`. -/
def listsBefore (a b : ObjectRecord) : Prop :=
  a.key < b.key ∨ a.key = b.key ∧ newerFirst a b

instance : DecidableRel listsBefore := fun _ _ => inferInstanceAs (Decidable (_ ∨ _))

/-- A row is past the position a page resumes after. -/
def isPast (keyMarker : Option String) (after : Option VersionPosition) (r : ObjectRecord) : Bool :=
  match keyMarker, after with
  | none, _ => true
  | some marker, none => marker < r.key
  | some marker, some p => marker < r.key || (r.key = marker &&
      (r.lastModified < p.lastModified ||
        (r.lastModified = p.lastModified && tagVersion r < p.versionId)))

namespace Tables

def listObjectVersionsFrom (t : Tables) (bucket : String) (keyPrefix keyMarker : Option String)
    (after : Option VersionPosition) (maxKeys : Nat) : List ObjectRecord :=
  let keyMarker := keyMarker.filter (· ≠ "")
  (((t.objects.filter fun r => r.bucket = bucket && !r.isTombstone &&
      keyPrefix.all (inPrefixRange · r.key) && isPast keyMarker after r).insertionSort
    listsBefore).take maxKeys).map selected

def getObjectVersion (t : Tables) (bucket key version : String) : Option ObjectRecord :=
  (t.objects.find? fun r => atKey bucket key r && r.versionId = versionArg version &&
    !r.isTombstone).map selected

/-- A marker that is not there resumes at the start of its key: `keyStart` is before every
version. -/
def listObjectVersions (t : Tables) (keyStart : VersionPosition) (bucket : String)
    (keyPrefix keyMarker versionIdMarker : Option String) (maxKeys : Nat) : List ObjectRecord :=
  let keyMarker := keyMarker.filter (· ≠ "")
  let after := match keyMarker, versionIdMarker with
    | some key, some version =>
      some (((t.getObjectVersion bucket key version).map VersionPosition.of).getD keyStart)
    | _, _ => none
  t.listObjectVersionsFrom bucket keyPrefix keyMarker after maxKeys

end Tables

inductive Reply where
  | noContent
  | noSuchBucket
  | bucketNotEmpty
  | serviceUnavailable
  deriving DecidableEq

namespace Tables

def listVersionsFlat (t : Tables) (keyStart : VersionPosition) (bucket : String) :
    Option (List ObjectRecord) :=
  if (t.headBucket bucket).isNone then none
  else some ((t.listObjectVersions keyStart bucket none none none (1000 + 1)).take 1000)

/-- `DeleteBucket`; a node of a cluster asks first whether it may write. -/
def deleteBucketRequest (t : Tables) (bucket : String) (mayWrite : Bool) : Tables × Reply :=
  if (t.headBucket bucket).isNone then (t, .noSuchBucket)
  else if !t.bucketIsEmpty bucket then (t, .bucketNotEmpty)
  else if t.clusterMode && !mayWrite then (t, .serviceUnavailable)
  else ((t.deleteBucket bucket).1, if (t.deleteBucket bucket).2 then .noContent else .noSuchBucket)

variable {t : Tables} {bucket : String}

lemma deleteBucketRequest_noContent_iff {mayWrite : Bool} :
    (t.deleteBucketRequest bucket mayWrite).2 = .noContent ↔
      (t.headBucket bucket).isSome ∧ (∀ r ∈ t.objects, r.bucket ≠ bucket) ∧
        (t.clusterMode → mayWrite) := by
  rw [← bucketIsEmpty_iff]
  unfold deleteBucketRequest deleteBucket
  cases t.headBucket bucket <;> cases t.bucketIsEmpty bucket <;> cases t.clusterMode <;>
    cases mayWrite <;> simp

lemma listVersionsFlat_nil_iff {keyStart : VersionPosition} :
    t.listVersionsFlat keyStart bucket = some [] ↔
      (t.headBucket bucket).isSome ∧ ∀ r ∈ t.objects, r.bucket = bucket → r.isTombstone := by
  have page : ∀ rows : List ObjectRecord,
      ((rows.insertionSort listsBefore).take (1000 + 1)).map selected = [] ↔ rows = [] := by
    intro rows
    rw [map_eq_nil_iff, take_eq_nil_iff]
    constructor
    · rintro (none | none)
      · cases none
      · exact length_eq_zero_iff.mp (by rw [← length_insertionSort listsBefore, none]; rfl)
    · rintro rfl
      exact .inr rfl
  cases found : t.headBucket bucket with
  | none => simp [listVersionsFlat, found]
  | some info =>
    simp only [listVersionsFlat, found, listObjectVersions, listObjectVersionsFrom,
      Option.isNone_some, Option.isSome_some, true_and]
    rw [if_neg (by simp), Option.some.injEq, take_eq_nil_iff, page]
    simp [isPast, filter_eq_nil_iff]

end Tables

inductive Write where
  | createBucket (name owner : String) (now : Instant)
  | deleteBucket (name : String) (mayWrite : Bool)
  | setBucketConfig (bucket key value : String)
  | deleteBucketConfig (bucket key : String)
  | objects (op : MetaOp)

namespace Tables

def write (t : Tables) : Write → Tables
  | .createBucket name owner now => (t.createBucketOwned name owner now).getD t
  | .deleteBucket name mayWrite => (t.deleteBucketRequest name mayWrite).1
  | .setBucketConfig bucket key value => t.setBucketConfig bucket key value
  | .deleteBucketConfig bucket key => t.deleteBucketConfig bucket key
  | .objects op => t.runObjects op

def after (clusterMode : Bool) (history : List Write) : Tables :=
  history.foldl write (.new clusterMode)

/-- In a cluster an object is put and deleted again. -/
def putAndDelete : List Write :=
  [.createBucket "b" "root" 0,
    .objects (.put { deleteMarker "b" "k" "root" none 1 with blobId := "blob", isDeleteMarker := false }
      (fun _ => true) ""),
    .objects (.deleteLatest "b" "k" (fun _ => true) "root" "" 2)]

end Tables
end Arca.BucketLife
