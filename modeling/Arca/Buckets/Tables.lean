import Arca.Lifecycle.Selection
import Arca.Multipart.Uploads

/-!
# The tables of a bucket

`delete_bucket` removes the tags and the bucket's row and nothing else.
-/
namespace Arca.BucketLife
open ObjectTable Lifecycle

structure BucketInfo where
  name : String
  createdAt : Instant
  owner : String
  deriving DecidableEq

/-- A table is given by its primary key where only that is used to reach its rows. -/
structure Tables where
  buckets : List BucketInfo
  config : String → String → Option String
  bucketTags : String → List (String × String)
  objectTags : TagTable
  objects : List ObjectRecord
  multipart : MultipartTables
  clusterMode : Bool

namespace Tables

def new (clusterMode : Bool) : Tables where
  buckets := []
  config _ _ := none
  bucketTags _ := []
  objectTags _ _ _ _ := none
  objects := []
  multipart := ⟨[], []⟩
  clusterMode := clusterMode

variable (t : Tables)

def getVersioningState (bucket : String) : VersioningState :=
  match t.config bucket "versioning" with
  | some "Enabled" => .enabled
  | some "Suspended" => .suspended
  | _ => .unversioned

def objectTable : ObjectTable where
  rows := t.objects
  versioning := t.getVersioningState
  clusterMode := t.clusterMode

variable (name : String)

def headBucket : Option BucketInfo :=
  t.buckets.find? (·.name = name)

section
variable (name owner : String)

variable (now : Instant)

/-- `none` for a name that is taken. -/
def createBucketOwned : Option Tables :=
  if (t.headBucket name).isSome then none
  else some { t with buckets := t.buckets ++ [⟨name, now, owner⟩] }

/-- Also whether the bucket was there. -/
def deleteBucket : Tables × Bool :=
  ({ t with
      bucketTags := Function.update t.bucketTags name []
      objectTags := fun bucket key version tag =>
        if bucket = name then none else t.objectTags bucket key version tag
      buckets := t.buckets.filter (·.name ≠ name) }, (t.headBucket name).isSome)

def bucketIsEmpty : Bool :=
  !t.objects.any (·.bucket = name)

def setBucketConfig (bucket key value : String) : Tables :=
  { t with config := Function.update t.config bucket (Function.update (t.config bucket) key (some value)) }

def deleteBucketConfig (bucket key : String) : Tables :=
  { t with config := Function.update t.config bucket (Function.update (t.config bucket) key none) }

def putBucketTags (bucket : String) (tags : List (String × String)) : Tables :=
  { t with bucketTags := Function.update t.bucketTags bucket tags }

def runObjects (op : MetaOp) : Tables :=
  { t with objects := (t.objectTable.step op).rows }

@[simp] lemma deleteBucket_config : (t.deleteBucket name).1.config = t.config := rfl

@[simp] lemma deleteBucket_multipart : (t.deleteBucket name).1.multipart = t.multipart := rfl

@[simp] lemma deleteBucket_objects : (t.deleteBucket name).1.objects = t.objects := rfl

@[simp] lemma getD_createBucketOwned_config :
    ((t.createBucketOwned name owner now).getD t).config = t.config := by
  unfold createBucketOwned
  split <;> rfl

@[simp] lemma getD_createBucketOwned_multipart :
    ((t.createBucketOwned name owner now).getD t).multipart = t.multipart := by
  unfold createBucketOwned
  split <;> rfl

end

lemma headBucket_deleteBucket (name other : String) :
    (t.deleteBucket name).1.headBucket other = if other = name then none else t.headBucket other := by
  unfold headBucket deleteBucket
  rw [List.find?_filter]
  split
  next same =>
    subst same
    simp
  next differs =>
    refine congrArg (List.find? · t.buckets) (funext fun info => ?_)
    by_cases here : info.name = other <;> simp [here, differs]

lemma bucketIsEmpty_iff {t : Tables} {name : String} :
    t.bucketIsEmpty name = true ↔ ∀ r ∈ t.objects, r.bucket ≠ name := by
  simp [bucketIsEmpty]

end Tables
end Arca.BucketLife
