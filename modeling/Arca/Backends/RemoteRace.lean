import Arca.Lib.GatedWrites
import Arca.Backends.Postgres

/-!
# Interleaved writers on PostgreSQL

The object-writing transactions of a cluster node at READ COMMITTED. All take
the write gate as their first statement except `apply_remote_object`, which
selects the held row before it. If the decision is to write nothing that one
never takes the gate; its recomputation of the flags commits on its own.
-/
namespace Arca.Postgres
open ObjectTable ObjectRecord GatedWrites Option

inductive Writer where
  | put (record : ObjectRecord) (pre : Option ObjectRecord → Bool) (uuid : String)
  | deleteLatest (bucket key : String) (pre : Option ObjectRecord → Bool) (owner uuid : String)
      (now : Instant)
  | deleteVersion (bucket key version : String) (pre : Option ObjectRecord → Bool) (now : Instant)
  | setObjectRetention (bucket key : String) (version mode : Option String)
      (date : Option RetainDate) (now : Instant)
  | setObjectLegalHold (bucket key : String) (version status : Option String) (now : Instant)
  | applyRemoteObject (record : ObjectRecord)
  | applyRemoteVersionDelete (bucket key version : String) (now : Instant)

structure Seen where
  row : Option ObjectRecord
  versioning : VersioningState

namespace Writer

def op : Writer → StoreOp
  | .put record pre uuid => .put record pre uuid
  | .deleteLatest bucket key pre owner uuid now => .deleteLatest bucket key pre owner uuid now
  | .deleteVersion bucket key version pre now => .deleteVersion bucket key version pre now
  | .setObjectRetention bucket key version mode date now =>
    .setObjectRetention bucket key version mode date now
  | .setObjectLegalHold bucket key version status now =>
    .setObjectLegalHold bucket key version status now
  | .applyRemoteObject record => .applyRemoteObject record
  | .applyRemoteVersionDelete bucket key version now =>
    .applyRemoteVersionDelete bucket key version now

def query (t : ObjectTable) : Writer → Seen
  | .put record _ _ => ⟨(fetchCurrentObject record.bucket record.key t.rows).map readRow,
      t.versioning record.bucket⟩
  | .deleteLatest bucket key _ _ _ _ =>
    ⟨(fetchLatestObject bucket key t.rows).map readRow, t.versioning bucket⟩
  | .deleteVersion bucket key version _ _ =>
    ⟨(liveVersion bucket key version t.rows).map readRow, t.versioning bucket⟩
  | .applyRemoteObject record => ⟨queryHeld t record, t.versioning record.bucket⟩
  -- the others are one statement
  | .setObjectRetention bucket _ _ _ _ _ => ⟨none, t.versioning bucket⟩
  | .setObjectLegalHold bucket _ _ _ _ => ⟨none, t.versioning bucket⟩
  | .applyRemoteVersionDelete bucket _ _ _ => ⟨none, t.versioning bucket⟩

def write (seen : Seen) (t : ObjectTable) : Writer → ObjectTable
  | .put record pre uuid => (installWith seen.row seen.versioning t record pre uuid).getD t
  | .deleteLatest bucket key pre owner uuid now =>
    (deleteLatestWith seen.row seen.versioning t bucket key pre owner uuid now).getD t
  | .deleteVersion bucket key version pre now =>
    (deleteVersionWith seen.row t bucket key version pre now).getD t
  | .setObjectRetention bucket key version mode date now =>
    (Postgres.setObjectRetention t bucket key version mode date now).getD t
  | .setObjectLegalHold bucket key version status now =>
    Postgres.setObjectLegalHold t bucket key version status now
  | .applyRemoteObject record => writeRows t record (toWrite record seen.row)
  | .applyRemoteVersionDelete bucket key version now =>
    Postgres.applyRemoteVersionDelete t bucket key version now

def isEarly : Writer → Bool
  | .applyRemoteObject _ => true
  | _ => false

def takesGate (seen : Seen) : Writer → Bool
  | .applyRemoteObject record => (toWrite record seen.row).isSome
  | _ => true

def transaction (w : Writer) : Transaction ObjectTable Seen where
  early := w.isEarly
  query t := w.query t
  gated seen := w.takesGate seen
  write seen t := w.write seen t

/-- Alone, a transaction is the operation of the store. -/
lemma serial_eq (w : Writer) (t : ObjectTable) : w.transaction.serial t = (perform t w.op).1 := by
  cases w with
  | put record pre uuid =>
    cases eq : installObject t record pre uuid <;>
      simp only [op, perform, eq, Transaction.serial, transaction, query, write]
    all_goals
      unfold installObject at eq
      rw [eq]
      rfl
  | deleteLatest bucket key pre owner uuid now =>
    cases eq : Postgres.deleteLatest t bucket key pre owner uuid now <;>
      simp only [op, perform, eq, Transaction.serial, transaction, query, write]
    all_goals
      unfold Postgres.deleteLatest at eq
      rw [eq]
      rfl
  | deleteVersion bucket key version pre now =>
    cases eq : Postgres.deleteVersion t bucket key version pre now <;>
      simp only [op, perform, eq, Transaction.serial, transaction, query, write]
    all_goals
      unfold Postgres.deleteVersion at eq
      rw [eq]
      rfl
  | setObjectRetention bucket key version mode date now =>
    cases eq : Postgres.setObjectRetention t bucket key version mode date now <;>
      simp only [op, perform, eq, Transaction.serial, transaction, write, getD_none,
        getD_some]
  | setObjectLegalHold bucket key version status now => rfl
  | applyRemoteObject record => rfl
  | applyRemoteVersionDelete bucket key version now => rfl

end Writer

lemma resolve_setLatest (record held : ObjectRecord) (flag : Bool) :
    (record.resolveReplicated (setLatest flag held)).map (setLatest false) =
      (record.resolveReplicated held).map (setLatest false) := by
  have merge : record.mergeRegisters (setLatest flag held) =
      setLatest flag (record.mergeRegisters held) := by
    unfold mergeRegisters setLatest
    split_ifs <;> rfl
  have same : (setLatest flag (record.mergeRegisters held)).sameReplicatedContent
      (setLatest flag held) = (record.mergeRegisters held).sameReplicatedContent held := rfl
  have columns : (setLatest flag held).lastModified = held.lastModified ∧
      (setLatest flag held).etag = held.etag ∧ (setLatest flag held).blobId = held.blobId :=
    ⟨rfl, rfl, rfl⟩
  unfold resolveReplicated
  rw [merge, columns.1, columns.2.1, columns.2.2]
  dsimp only
  rw [same]
  split_ifs <;> rfl

lemma toWrite_congr {record : ObjectRecord} {held held' : Option ObjectRecord}
    (h : held.map replicated = held'.map replicated) :
    (toWrite record held).map (setLatest false) = (toWrite record held').map (setLatest false) := by
  cases held with
  | none =>
    cases held' with
    | none => rfl
    | some x => cases h
  | some x =>
    cases held' with
    | none => cases h
    | some y =>
      have same : setLatest false x = setLatest false y := some.inj h
      have left := resolve_setLatest record x false
      rw [same] at left
      exact left.symm.trans (resolve_setLatest record y false)

lemma writeRows_congr {record : ObjectRecord} {row row' : Option ObjectRecord} (t : ObjectTable)
    (h : row.map (setLatest false) = row'.map (setLatest false)) :
    writeRows t record row = writeRows t record row' := by
  cases row with
  | none =>
    cases row' with
    | none => rfl
    | some y => cases h
  | some x =>
    cases row' with
    | none => cases h
    | some y =>
      have same : bound (setLatest false x) = bound (setLatest false y) :=
        congrArg bound (some.inj h)
      have same : setLatest false (bound x) = setLatest false (bound y) := same
      unfold writeRows writeRemote
      simp only [map_some, same]

variable {ι : Type} (txs : ι → Writer)

def step [DecidableEq ι] (s : System ι ObjectTable Seen) (e : Event ι) : System ι ObjectTable Seen :=
  s.step (fun i => (txs i).transaction) e

section
variable (s : System ι ObjectTable Seen)

/-- The transaction has queried, behind the gate or before it, and found `seen`. -/
def Found (i : ι) (seen : Seen) : Prop :=
  s.phase i = .queried seen ∨ s.phase i = .holding seen

/-- When an `apply_remote_object` commits, the row of its version is the one it
selected; one that writes nothing finds the flags of the key as it would set
them. -/
def Unmoved : Event ι → Prop
  | .commit i => ∀ record seen, txs i = .applyRemoteObject record → Found s i seen →
      seen.row.map replicated = (queryHeld s.store record).map replicated ∧
      (toWrite record seen.row = none →
        recomputeIsLatest record.bucket record.key s.store.rows = s.store.rows)
  | _ => True

/-- An `apply_remote_object` that commits writes what the row it replaces calls
for, and replaces no row with a greater `last_modified`. -/
def ReplacesRight : Event ι → Prop
  | .commit i => ∀ record seen, txs i = .applyRemoteObject record → Found s i seen →
      (toWrite record seen.row).map replicated =
        (toWrite record (queryHeld s.store record)).map replicated ∧
      ∀ held row, versionRow record.bucket record.key record.versionId s.store.rows = some held →
        toWrite record seen.row = some row → held.lastModified ≤ record.lastModified
  | _ => True

end

def Serializable (t : ObjectTable) (s : System ι ObjectTable Seen) : Prop :=
  ∃ order : List ι, order.Nodup ∧ (∀ i, i ∈ order ↔ s.phase i = .committed) ∧
    s.store.rows = (order.foldl (fun t i => (perform t (txs i).op).1) t).rows

variable {txs}

lemma Writer.early_cases {w : Writer} (h : w.isEarly = true) :
    ∃ record, w = .applyRemoteObject record := by
  cases w with
  | applyRemoteObject record => exact ⟨record, rfl⟩
  | _ => cases h

variable {s : System ι ObjectTable Seen}

lemma fresh_of_unmoved {e : Event ι} (h : Unmoved txs s e) :
    System.Fresh (fun i => (txs i).transaction) s e := by
  cases e with
  | query i => trivial
  | gate i => trivial
  | commit i =>
    intro early
    obtain ⟨record, writer⟩ := Writer.early_cases early
    dsimp only
    rw [writer]
    have serves : ∀ seen, Found s i seen → writeRows s.store record (toWrite record seen.row) =
        writeRows s.store record (toWrite record (queryHeld s.store record)) :=
      fun seen found => writeRows_congr s.store (toWrite_congr (h record seen writer found).1)
    refine ⟨fun seen phase => serves seen (.inr phase), fun seen phase ungated => ?_⟩
    have nothing : toWrite record seen.row = none := isSome_eq_false_iff.mp ungated |>
      isNone_iff_eq_none.mp
    have quiet : writeRows s.store record (toWrite record seen.row) = s.store := by
      have flags := (h record seen writer (.inl phase)).2 nothing
      rw [nothing]
      unfold writeRows writeRemote
      simp only [map_none, flags]
    exact ⟨quiet, (serves seen (.inl phase)).symm.trans quiet⟩

lemma le_of_toWrite {record held row : ObjectRecord} (h : toWrite record (some held) = some row) :
    held.lastModified ≤ record.lastModified := by
  rcases resolve_cases h with ⟨-, later | ⟨tie, -⟩⟩ | ⟨-, tie, -⟩
  · exact later.le
  · exact tie.le
  · exact tie.le

lemma replacesRight_of_unmoved {e : Event ι} (h : Unmoved txs s e) : ReplacesRight txs s e := by
  cases e with
  | query i => trivial
  | gate i => trivial
  | commit i =>
    intro record seen writer found
    have same := (h record seen writer found).1
    refine ⟨toWrite_congr same, fun held row here written => ?_⟩
    unfold queryHeld at same
    rw [here] at same
    obtain ⟨selected, eq, columns⟩ := map_eq_some_iff.mp same
    rw [eq] at written
    have time := congrArg ObjectRecord.lastModified columns
    have time : selected.lastModified = held.lastModified := time
    exact time ▸ le_of_toWrite written

/-- A run in which no `apply_remote_object` acts on a row that has moved since
its query is serial, and each of them replaces only what it may. -/
theorem remote_apply_serial [DecidableEq ι] (t : ObjectTable) (events : List (Event ι))
    (unmoved : Run.Each (step txs) (Unmoved txs) (System.start t) events) :
    Serializable txs t (events.foldl (step txs) (System.start t)) ∧
      Run.Each (step txs) (ReplacesRight txs) (System.start t) events := by
  refine ⟨?_, unmoved.mono fun _ _ => replacesRight_of_unmoved⟩
  have serial := System.serial_run (fun i => (txs i).transaction) t
    (unmoved.mono fun _ _ => fresh_of_unmoved)
  refine ⟨_, serial.nodup, serial.committed, ?_⟩
  have store := congrArg ObjectTable.rows serial.store
  simp only [Writer.serial_eq] at store
  exact store

def replicatedPut : ObjectRecord := { written with lastModified := 2000000, blobId := "1", etag := "old" }

def localPut : ObjectRecord := { written with lastModified := 3000000, blobId := "2", etag := "new" }

def receiveAndPut : Bool → Writer
  | false => .applyRemoteObject replicatedPut
  | true => .put localPut (fun _ => true) "v"

def emptyNode : ObjectTable := ⟨[], fun _ => .unversioned, true⟩

theorem remote_apply_serial_receiveThenPut :
    Serializable receiveAndPut emptyNode (([.query false, .gate false, .commit false, .gate true,
      .query true, .commit true] : List (Event Bool)).foldl (step receiveAndPut)
        (System.start emptyNode)) := by
  refine (remote_apply_serial emptyNode [.query false, .gate false, .commit false, .gate true,
    .query true, .commit true] ⟨trivial, trivial, ?_, trivial, trivial, ?_, trivial⟩).1
  · intro record seen writer found
    rcases found with phase | phase
    · cases phase
    · obtain rfl := Phase.holding.inj phase
      exact ⟨rfl, fun nothing => by cases nothing⟩
  · intro record seen writer
    cases writer

/-- The put commits between the query and the gate of the received record, which
then replaces the newer row: no order of the two leaves that. -/
theorem stale_query_replaces_newer :
    let s := ([.query false, .gate true, .query true, .commit true, .gate false,
      .commit false] : List (Event Bool)).foldl (step receiveAndPut) (System.start emptyNode)
    s.phase false = .committed ∧ s.phase true = .committed ∧
    s.store.rows.map ObjectRecord.lastModified = [2000000] ∧
    ¬ Serializable receiveAndPut emptyNode s := by
  refine ⟨rfl, rfl, by decide +kernel, ?_⟩
  rintro ⟨order, nodup, all, rows⟩
  have both : order.Perm [false, true] := by
    refine (List.perm_ext_iff_of_nodup nodup (by decide)).mpr fun i => ?_
    rw [all]
    cases i <;> exact iff_of_true rfl (by decide)
  have orders : order = [false, true] ∨ order = [true, false] := by
    have mem := List.mem_permutations.mpr both
    simpa [List.permutations, List.permutationsAux, List.permutationsAux.rec] using mem
  rcases orders with rfl | rfl
  · exact absurd rows (by decide +kernel)
  · exact absurd rows (by decide +kernel)

end Arca.Postgres
