import Arca.Lifecycle.Filters
import Arca.Storage.LatestRow

/-!
# The tables a lifecycle pass works on

The tag table has one value for a tag key, so a transaction that would give it
two does not commit.
-/
namespace Arca.Lifecycle
open ObjectTable Conditional

namespace TagTable

/-- `DELETE FROM object_tags` of the versions of a key that `p` is about. -/
def drop (tags : TagTable) (bucket key : String) (p : String → Bool) : TagTable :=
  fun b k version tag => if b = bucket ∧ k = key ∧ p version then none else tags b k version tag

def write (tags : TagTable) (bucket key version : String) (given : List (String × String)) :
    Option TagTable :=
  if (given.map Prod.fst).Nodup then
    some fun b k v tag =>
      if b = bucket ∧ k = key ∧ v = version then given.lookup tag else tags b k v tag
  else none

variable (t : ObjectTable)

def uninstalled (tags : TagTable) (bucket key : String) : TagTable :=
  match t.versioning bucket with
  | .unversioned => tags.drop bucket key fun _ => true
  | .enabled => tags
  | .suspended => tags.drop bucket key (· = "")

def deletedLatest (tags : TagTable) (bucket key : String) : TagTable :=
  if t.versioning bucket = .unversioned ∧ fetchLatestObject bucket key t.rows = none then tags
  else uninstalled t tags bucket key

def deletedVersion (tags : TagTable) (bucket key version : String) : TagTable :=
  if liveVersion bucket key version t.rows = none then tags
  else tags.drop bucket key (· = (versionArg version).getD "")

end TagTable

def retag (w : Write) (given : List (String × String)) (d : Drawn) (t : ObjectTable)
    (tags : TagTable) : Option TagTable :=
  match w with
  | .put o .. | .complete _ o .. =>
    let left := TagTable.uninstalled t tags o.bucket o.key
    if given = [] then some left
    else left.write o.bucket o.key ((assignedVersion t o.bucket d.uuid).getD "") given
  | .deleteLatest bucket key .. => some (TagTable.deletedLatest t tags bucket key)
  | .deleteVersion bucket key version _ => some (TagTable.deletedVersion t tags bucket key version)
  | .setVersioning .. | .createUpload _ | .takeUpload _ => some tags

structure Metadata where
  store : Store
  tags : TagTable
  buckets : List String
  /-- `none` as well for a document that cannot be read back. -/
  rules : String → Option (List LifecycleRule)
  one : OneLatest store.objects.rows

inductive Client where
  | write (w : Write) (tags : List (String × String)) (d : Drawn)
  | putObjectTags (bucket key version : String) (tags : List (String × String))
  | deleteObjectTags (bucket key version : String)
  | setObjectRetention (bucket key : String) (version mode : Option String)
      (date : Option RetainDate) (now : Instant)
  | setObjectLegalHold (bucket key : String) (version status : Option String) (now : Instant)
  | createBucket (name : String)
  | deleteBucket (name : String)
  | putBucketLifecycle (bucket : String) (rules : Option (List LifecycleRule))

namespace Metadata

section
variable (m : Metadata)

def versions : Versions := ⟨m.store.objects.rows, m.tags⟩

lemma oneLatest_changeLock {t : ObjectTable} {bucket key : String} {version : Option String}
    {change : ObjectRecord → ObjectRecord} (keeps : KeepsKey change)
    (flag : ∀ r, (change r).isLatest = r.isLatest) (one : OneLatest t.rows) :
    OneLatest (t.changeLock bucket key version change).rows := by
  intro b k
  have same : ∀ rows : List ObjectRecord, (updateWhere (lockTarget bucket key version) change
      rows).countP ObjectRecord.isLatest = rows.countP ObjectRecord.isLatest := by
    intro rows
    rw [updateWhere, List.countP_map]
    refine List.countP_congr fun r _ => ?_
    rw [Function.comp_apply]
    split
    · rw [flag]
    · rfl
  rw [changeLock, rowsOf_updateWhere keeps, same]
  exact one b k

def changeLock (bucket key : String) (version : Option String)
    (change : ObjectRecord → ObjectRecord) (keeps : KeepsKey change)
    (flag : ∀ r, (change r).isLatest = r.isLatest) : Metadata :=
  { m with
    store := { m.store with objects := m.store.objects.changeLock bucket key version change }
    one := oneLatest_changeLock keeps flag m.one }

def write (w : Write) (given : List (String × String)) (d : Drawn) : Metadata :=
  match ran : w.run d m.store with
  | .error _ => m
  | .ok store => match retag w given d m.store.objects m.tags with
    | none => m
    | some tags => { m with store, tags, one := oneLatest_run ran m.one }

def serve : Client → Metadata
  | .write w given d => m.write w given d
  | .putObjectTags bucket key version given =>
    { m with tags := (m.tags.write bucket key version given).getD m.tags }
  | .deleteObjectTags bucket key version =>
    { m with tags := m.tags.drop bucket key (· = version) }
  | .setObjectRetention bucket key version mode date now =>
    m.changeLock bucket key version (retain mode (date.bind RetainDate.instant) now)
      (fun _ _ _ => rfl) fun _ => rfl
  | .setObjectLegalHold bucket key version status now =>
    m.changeLock bucket key version (hold status now) (fun _ _ _ => rfl) fun _ => rfl
  | .createBucket name => { m with buckets := m.buckets ++ [name] }
  | .deleteBucket name =>
    { m with
      buckets := m.buckets.filter (· ≠ name)
      tags := fun b k version tag => if b = name then none else m.tags b k version tag }
  | .putBucketLifecycle bucket rules => { m with rules := Function.update m.rules bucket rules }

end

end Metadata

def Client.touches (bucket key : String) : Client → Prop
  | .write w .. => w.place = some (bucket, key)
  | .putObjectTags b k .. | .deleteObjectTags b k _ | .setObjectRetention b k ..
  | .setObjectLegalHold b k .. => b = bucket ∧ k = key
  | .deleteBucket b => b = bucket
  | .createBucket _ | .putBucketLifecycle .. => False

structure SameAt (bucket key : String) (v v' : Versions) : Prop where
  rows : rowsOf bucket key v'.rows = rowsOf bucket key v.rows
  tags : v'.tags bucket key = v.tags bucket key

section
variable {bucket key b k : String} {tags : TagTable}

lemma SameAt.refl {v : Versions} : SameAt b k v v := ⟨rfl, rfl⟩

lemma tags_drop (other : ¬ (b = bucket ∧ k = key)) {p : String → Bool} :
    tags.drop bucket key p b k = tags b k := by
  funext version tag
  exact if_neg fun same => other ⟨same.1, same.2.1⟩

variable {tags' : TagTable} {given : List (String × String)}

lemma tags_write (other : ¬ (b = bucket ∧ k = key)) {version : String}
    (h : tags.write bucket key version given = some tags') : tags' b k = tags b k := by
  unfold TagTable.write at h
  split at h
  · cases h
    funext v tag
    exact if_neg fun same => other ⟨same.1, same.2.1⟩
  · cases h

lemma tags_uninstalled (other : ¬ (b = bucket ∧ k = key)) (t : ObjectTable) :
    TagTable.uninstalled t tags bucket key b k = tags b k := by
  unfold TagTable.uninstalled
  cases t.versioning bucket with
  | unversioned => exact tags_drop other
  | enabled => rfl
  | suspended => exact tags_drop other

lemma tags_retag {w : Write} {d : Drawn} {t : ObjectTable}
    (h : retag w given d t tags = some tags') (other : w.place ≠ some (b, k)) :
    tags' b k = tags b k := by
  have apart : ∀ {bucket key}, w.place = some (bucket, key) → ¬ (b = bucket ∧ k = key) := by
    rintro bucket key place ⟨rfl, rfl⟩
    exact other place
  have installed : ∀ (o : NewObject), w.place = some (o.bucket, o.key) →
      (if given = [] then some (TagTable.uninstalled t tags o.bucket o.key)
        else (TagTable.uninstalled t tags o.bucket o.key).write o.bucket o.key
          ((assignedVersion t o.bucket d.uuid).getD "") given) = some tags' →
      tags' b k = tags b k := by
    intro o place h
    split at h
    · cases h
      exact tags_uninstalled (apart place) t
    · exact (tags_write (apart place) h).trans (tags_uninstalled (apart place) t)
  cases w with
  | put o lock now pre => exact installed o rfl h
  | complete u o now pre => exact installed o rfl h
  | deleteLatest bucket key pre owner =>
    cases h
    unfold TagTable.deletedLatest
    split
    · rfl
    · exact tags_uninstalled (apart rfl) t
  | deleteVersion bucket key version pre =>
    cases h
    unfold TagTable.deletedVersion
    split
    · rfl
    · exact tags_drop (apart rfl)
  | setVersioning | createUpload | takeUpload =>
    cases h
    rfl

end

namespace Metadata
variable {m : Metadata} {b k : String}

lemma rows_run {w : Write} {d : Drawn} {s s' : Store} (h : w.run d s = .ok s')
    (other : w.place ≠ some (b, k)) : rowsOf b k s'.objects.rows = rowsOf b k s.objects.rows := by
  cases place : w.place with
  | none => rw [rows_run_of_no_place h place]
  | some at_key =>
    refine (touches_run h place).frame b k ?_
    rintro ⟨rfl, rfl⟩
    exact other place

lemma sameAt_write {w : Write} {given : List (String × String)} {d : Drawn}
    (other : w.place ≠ some (b, k)) : SameAt b k m.versions (m.write w given d).versions := by
  unfold write
  split
  · exact .refl
  · next store ran =>
      split
      · exact .refl
      · next tags retagged => exact ⟨rows_run ran other, tags_retag retagged other⟩

lemma sameAt_changeLock {bucket key : String} {version : Option String}
    {change : ObjectRecord → ObjectRecord} (keeps : KeepsKey change)
    (other : ¬ (bucket = b ∧ key = k)) :
    SameAt b k m.versions ⟨(m.store.objects.changeLock bucket key version change).rows, m.tags⟩ := by
  have frame : Frame bucket key m.store.objects.rows
      (updateWhere (lockTarget bucket key version) change m.store.objects.rows) := by
    refine frame_updateWhere keeps fun r target => ?_
    cases version with
    | none => exact (Bool.and_eq_true _ _ ▸ target).1
    | some version => exact (Bool.and_eq_true _ _ ▸ target).1
  exact ⟨frame b k fun same => other ⟨same.1.symm, same.2.symm⟩, rfl⟩

lemma sameAt_serve {c : Client} (elsewhere : ¬ c.touches b k) :
    SameAt b k m.versions (m.serve c).versions := by
  cases c with
  | write w given d => exact sameAt_write elsewhere
  | putObjectTags bucket key version given =>
    refine ⟨rfl, ?_⟩
    change ((m.tags.write bucket key version given).getD m.tags) b k = m.tags b k
    cases written : m.tags.write bucket key version given with
    | none => rfl
    | some tags => exact tags_write (fun same => elsewhere ⟨same.1.symm, same.2.symm⟩) written
  | deleteObjectTags bucket key version =>
    exact ⟨rfl, tags_drop fun same => elsewhere ⟨same.1.symm, same.2.symm⟩⟩
  | setObjectRetention | setObjectLegalHold => exact sameAt_changeLock (fun _ _ _ => rfl) elsewhere
  | deleteBucket name =>
    refine ⟨rfl, ?_⟩
    funext version tag
    exact if_neg fun same => elsewhere same.symm
  | createBucket | putBucketLifecycle => exact .refl

end Metadata
end Arca.Lifecycle
