import Arca.Storage.ConditionalWrites
import Arca.Storage.WriteGroups

/-!
# Batch deletes

`delete_objects_if` of the SQLite store runs every entry under a savepoint of one
transaction; the default one makes a transaction of every entry. What a delete draws,
a version id and a time, is given with its entry.
-/
namespace Arca.Conditional
open ObjectTable WriteGroups List

structure S3Error where
  code : S3ErrorCode
  resource : String

abbrev Deleted := Except S3Error (Option ObjectRecord)

variable (t : ObjectTable)

def deleteLatestInTx (bucket key : String) (pre : DeletePrecondition)
    (owner : String) (d : Drawn) : Except S3ErrorCode (ObjectTable × Option ObjectRecord) :=
  (pre.evaluate (fetchLatestObject bucket key t.rows)).map fun _ =>
    ((t.deleteLatest bucket key (fun _ => true) owner d.uuid d.now).getD t,
      (Cluster.ObjectMutation.deletedLatest t bucket key owner d.uuid d.now).map selected)

def deleteVersionInTx (bucket key version : String) (pre : DeletePrecondition)
    (d : Drawn) : Except S3ErrorCode (ObjectTable × Option ObjectRecord) :=
  (pre.evaluate (deleteTarget bucket key version t.rows)).map fun _ =>
    ((t.deleteVersion bucket key version (fun _ => true) d.now).getD t,
      (liveVersion bucket key version t.rows).map selected)

/-- One write of its own: an error leaves the table as it was. -/
def writeAlone (resource : String) :
    Except S3ErrorCode (ObjectTable × Option ObjectRecord) → ObjectTable × Deleted
  | .ok (t', record) => (t', .ok record)
  | .error code => (t, .error ⟨code, resource⟩)

def deleteObjectIf (bucket key : String) (pre : DeletePrecondition)
    (owner : String) (d : Drawn) : ObjectTable × Deleted :=
  writeAlone t ("/" ++ bucket ++ "/" ++ key) (deleteLatestInTx t bucket key pre owner d)

def deleteObjectVersionIf (bucket key version : String)
    (pre : DeletePrecondition) (d : Drawn) : ObjectTable × Deleted :=
  writeAlone t ("/" ++ bucket ++ "/" ++ key ++ "?versionId=" ++ version)
    (deleteVersionInTx t bucket key version pre d)

section Batch
variable (bucket owner : String)

def deleteAlone (t : ObjectTable) (entry : DeleteEntry × Drawn) : ObjectTable × Deleted :=
  match entry.1.version with
  | some version => deleteObjectVersionIf t bucket entry.1.key version entry.1.pre entry.2
  | none => deleteObjectIf t bucket entry.1.key entry.1.pre owner entry.2

/-- The default implementation. -/
def deleteOneByOne (t : ObjectTable) : List (DeleteEntry × Drawn) → ObjectTable × List Deleted
  | [] => (t, [])
  | entry :: entries =>
    let (t, result) := deleteAlone bucket owner t entry
    let (t, results) := deleteOneByOne t entries
    (t, result :: results)

def deleteInTx (t : ObjectTable) (entry : DeleteEntry × Drawn) :
    Except S3ErrorCode (ObjectTable × Option ObjectRecord) :=
  match entry.1.version with
  | some version => deleteVersionInTx t bucket entry.1.key version entry.1.pre entry.2
  | none => deleteLatestInTx t bucket entry.1.key entry.1.pre owner entry.2

/-- A savepoint dropped without commit rolls back. -/
def deleteUnderSavepoints (tx : Transaction ObjectTable) : List (DeleteEntry × Drawn) →
      Transaction ObjectTable × List (Except S3ErrorCode (Option ObjectRecord))
  | [] => (tx, [])
  | entry :: entries =>
    let sp := tx.savepoint
    match deleteInTx bucket owner sp.working entry with
    | .ok (t, record) =>
      let (tx, results) := deleteUnderSavepoints { sp with working := t }.release entries
      (tx, .ok record :: results)
    | .error code =>
      let (tx, results) := deleteUnderSavepoints sp.rollbackTo.release entries
      (tx, .error code :: results)

def batchResource (entry : DeleteEntry) : String :=
  match entry.version with
  | some version => "/" ++ bucket ++ "/" ++ entry.key ++ "?versionId=" ++ version
  | none => "/" ++ bucket ++ "/" ++ entry.key

def deleteObjectsIf (t : ObjectTable) (entries : List (DeleteEntry × Drawn)) :
    ObjectTable × List Deleted :=
  let (tx, results) := deleteUnderSavepoints bucket owner ⟨t, []⟩ entries
  (tx.working, (results.zip entries).map fun (result, entry) =>
    result.mapError fun code => ⟨code, batchResource bucket entry.1⟩)

variable {bucket owner}

lemma deleteAlone_eq (t : ObjectTable) (entry : DeleteEntry × Drawn) :
    deleteAlone bucket owner t entry =
      writeAlone t (batchResource bucket entry.1) (deleteInTx bucket owner t entry) := by
  unfold deleteAlone batchResource deleteInTx
  cases entry.1.version <;> rfl

/-- After each entry the transaction holds what the separate writes have left. -/
lemma deleteUnderSavepoints_eq (t : ObjectTable) (saved : List ObjectTable)
    (entries : List (DeleteEntry × Drawn)) :
    let (tx, results) := deleteUnderSavepoints bucket owner ⟨t, saved⟩ entries
    (tx.working, (results.zip entries).map fun (result, entry) =>
      result.mapError fun code => S3Error.mk code (batchResource bucket entry.1)) =
      deleteOneByOne bucket owner t entries := by
  induction entries generalizing t with
  | nil => rfl
  | cons entry entries ih =>
    rw [deleteUnderSavepoints, deleteOneByOne, deleteAlone_eq]
    dsimp only [Transaction.savepoint]
    cases deleteInTx bucket owner t entry with
    | ok deleted => simp only [writeAlone, ← ih]; rfl
    | error code => simp only [writeAlone, ← ih]; rfl

/-- Both implementations delete every entry as its own call would after the entries
before it, and answer the same. -/
theorem batch_deletes_like_singles (bucket owner : String) (t : ObjectTable)
    (entries : List (DeleteEntry × Drawn)) :
    let after := foldl (fun t entry => (deleteAlone bucket owner t entry).1) t
    deleteObjectsIf bucket owner t entries = deleteOneByOne bucket owner t entries ∧
    (deleteOneByOne bucket owner t entries).1 = after entries ∧
    ∀ i, (deleteOneByOne bucket owner t entries).2[i]? = entries[i]?.map fun entry =>
      (deleteAlone bucket owner (after (entries.take i)) entry).2 := by
  refine ⟨deleteUnderSavepoints_eq t [] entries, ?_⟩
  induction entries generalizing t with
  | nil => simp [deleteOneByOne]
  | cons entry entries ih =>
    obtain ⟨state, results⟩ := ih (deleteAlone bucket owner t entry).1
    refine ⟨state, fun i => ?_⟩
    cases i with
    | zero => rfl
    | succ i => exact results i

end Batch
end Arca.Conditional
