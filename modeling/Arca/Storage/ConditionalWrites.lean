import Arca.Handlers.ObjectLock
import Arca.Lib.GroupCommit
import Arca.Multipart.Uploads

/-!
# Conditional writes and deletes on a node

A put draws its `last_modified` before it submits its row; a delete draws the time of
its marker, and the store draws version ids, while the transaction runs.
-/
namespace Arca.Conditional
open ObjectTable GroupCommit List Option

structure Store where
  objects : ObjectTable
  multipart : MultipartTables

/-- What the store draws inside a transaction. -/
structure Drawn where
  uuid : String
  now : Instant

inductive Write where
  | put (object : NewObject) (lock : ObjectLock) (now : Instant) (pre : WritePrecondition)
  | complete (uploadId : String) (object : NewObject) (now : Instant) (pre : WritePrecondition)
  | deleteLatest (bucket key : String) (pre : DeletePrecondition) (owner : String)
  | deleteVersion (bucket key version : String) (pre : DeletePrecondition)
  | setVersioning (bucket : String) (state : VersioningState)
  | createUpload (record : MultipartUploadRecord)
  | takeUpload (uploadId : String)

/-- The version a delete names. Its precondition is not asked about a marker. -/
def deleteTarget (bucket key version : String) (rows : List ObjectRecord) : Option ObjectRecord :=
  (liveVersion bucket key version rows).filter (!·.isDeleteMarker)

def Write.run (w : Write) (d : Drawn) (s : Store) : Except S3ErrorCode Store :=
  match w with
  | .put o lock now pre =>
    (s.objects.installObjectIf (o.record lock now) pre d.uuid).map fun t => { s with objects := t }
  | .complete u o now pre =>
    if (s.multipart.getMultipartUpload u).isNone then .error .noSuchUpload
    else (s.objects.installObjectIf (o.record .unset now) pre d.uuid).map fun t =>
      ⟨t, s.multipart.takeUpload u⟩
  | .deleteLatest bucket key pre owner =>
    (pre.evaluate (fetchLatestObject bucket key s.objects.rows)).map fun _ =>
      { s with
        objects := (s.objects.deleteLatest bucket key (fun _ => true) owner d.uuid d.now).getD
          s.objects }
  | .deleteVersion bucket key version pre =>
    (pre.evaluate (deleteTarget bucket key version s.objects.rows)).map fun _ =>
      { s with
        objects := (s.objects.deleteVersion bucket key version (fun _ => true) d.now).getD
          s.objects }
  | .setVersioning bucket state =>
    .ok { s with
      objects := { s.objects with versioning := Function.update s.objects.versioning bucket state } }
  | .createUpload record => .ok { s with multipart := s.multipart.createMultipartUpload record }
  | .takeUpload u => .ok { s with multipart := s.multipart.takeUpload u }

/-- The precondition is true of the object the write is about. -/
def Write.accepts (w : Write) (t : ObjectTable) : Bool :=
  match w with
  | .put o _ _ pre | .complete _ o _ pre =>
    pre.accepts (fetchCurrentObject o.bucket o.key t.rows)
  | .deleteLatest bucket key pre _ => pre.accepts (fetchLatestObject bucket key t.rows)
  | .deleteVersion bucket key version pre => pre.accepts (deleteTarget bucket key version t.rows)
  | .setVersioning .. | .createUpload _ | .takeUpload _ => true

def Write.record : Write → Option ObjectRecord
  | .put o lock now _ => some (o.record lock now)
  | .complete _ o now _ => some (o.record .unset now)
  | _ => none

/-- The conditional headers of a put. One of the first two that is there with a
value that cannot be read is there all the same. -/
structure PutConditions where
  ifMatch : Option (Option Text)
  ifNoneMatch : Option (Option Text)
  ifUnmodifiedSince : Option Instant

namespace PutConditions

variable (c : PutConditions)

def given : Bool := c.ifMatch.isSome || c.ifNoneMatch.isSome

def pre : WritePrecondition := ⟨c.ifMatch.join, c.ifNoneMatch.join⟩

def check (r : ObjectRecord) : Except S3ErrorCode Unit :=
  if c.pre.ifMatch.any (fun v => !etagMatches v (quotedEtag r)) then .error .preconditionFailed
  else if c.pre.ifNoneMatch.any (etagMatches · (quotedEtag r)) then .error .preconditionFailed
  else if c.ifUnmodifiedSince.any (· < r.lastModified) then .error .preconditionFailed
  else .ok ()

end PutConditions

structure DeleteEntry where
  key : String
  version : Option String
  pre : DeletePrecondition

inductive Call where
  | putObject (object : NewObject) (lock : ObjectLock) (conditions : PutConditions)
  | copyObject (object : NewObject)
  | completeMultipartUpload (uploadId : String) (object : NewObject) (pre : WritePrecondition)
  | deleteObject (bucket key : String) (pre : DeletePrecondition) (owner : String)
  | deleteObjectVersion (bucket key version : String) (pre : DeletePrecondition)
  | deleteObjects (bucket : String) (entries : List DeleteEntry) (owner : String)
  | putBucketVersioning (bucket : String) (state : VersioningState)
  | createMultipartUpload (record : MultipartUploadRecord)
  | abortMultipartUpload (uploadId : String)

namespace Call

/-- The check a handler makes before the body arrives. -/
def look (call : Call) (s : Store) : Except S3ErrorCode Unit :=
  match call with
  | .putObject o _ c =>
    if !c.given then .ok ()
    else match fetchCurrentObject o.bucket o.key s.objects.rows with
    | some r => c.check r
    | none => if c.ifMatch.isSome then .error .noSuchKey else .ok ()
  | .completeMultipartUpload _ o pre => pre.evaluate (fetchCurrentObject o.bucket o.key s.objects.rows)
  | .deleteObject bucket key pre _ => pre.evaluate (fetchLatestObject bucket key s.objects.rows)
  | .deleteObjectVersion bucket key version pre =>
    pre.evaluate (deleteTarget bucket key version s.objects.rows)
  | _ => .ok ()

/-- A complete request and a delete of a version go on after a failed read. -/
def blind : Call → Bool
  | .putObject _ _ c => !c.given
  | .deleteObject _ _ pre _ => pre = ⟨none, none, none, none⟩
  | _ => true

def deleteWrite (bucket owner : String) (e : DeleteEntry) : Write :=
  match e.version with
  | some version => .deleteVersion bucket e.key version e.pre
  | none => .deleteLatest bucket e.key e.pre owner

def writes (call : Call) (now : Instant) : List Write :=
  match call with
  | .putObject o lock c => [.put o lock now c.pre]
  | .copyObject o => [.put o .unset now ⟨none, none⟩]
  | .completeMultipartUpload u o pre => [.complete u o now pre]
  | .deleteObject bucket key pre owner => [.deleteLatest bucket key pre owner]
  | .deleteObjectVersion bucket key version pre => [.deleteVersion bucket key version pre]
  | .deleteObjects bucket entries owner => entries.map (deleteWrite bucket owner)
  | .putBucketVersioning bucket state => [.setVersioning bucket state]
  | .createMultipartUpload record => [.createUpload record]
  | .abortMultipartUpload u => [.takeUpload u]

def isBatch : Call → Bool
  | .deleteObjects .. => true
  | _ => false

/-- The If-Match, If-None-Match or delete precondition of the request. -/
def accepts (call : Call) (t : ObjectTable) : Bool :=
  match call with
  | .putObject o _ c => c.pre.accepts (fetchCurrentObject o.bucket o.key t.rows)
  | .completeMultipartUpload _ o pre => pre.accepts (fetchCurrentObject o.bucket o.key t.rows)
  | .deleteObject bucket key pre _ => pre.accepts (fetchLatestObject bucket key t.rows)
  | .deleteObjectVersion bucket key version pre =>
    pre.accepts (deleteTarget bucket key version t.rows)
  | _ => true

end Call

def service : Service Call Write S3ErrorCode Drawn Instant Store where
  look := Call.look
  blind := Call.blind
  writes := Call.writes
  batch := Call.isBatch
  run := Write.run
  maxGroup := 64

abbrev Node := System Call Write S3ErrorCode Drawn Store
abbrev NodeEvent := Event Call Drawn Instant
abbrev Decided := Entry Call Write S3ErrorCode Drawn Store

/-- A success had its precondition true of the object just before, a
`PreconditionFailed` false, and a put is what a get then returns. -/
def Correct : Decided → Prop
  | .looked _ call x s => x = .preconditionFailed → call.accepts s.objects = false
  | .ran _ _ w d s (.ok s') => w.accepts s.objects = true ∧
      ∀ record, w.record = some record →
        fetchCurrentObject record.bucket record.key s'.objects.rows =
          some (s.objects.storedRow record d.uuid)
  | .ran _ _ w _ s (.error x) => x = .preconditionFailed → w.accepts s.objects = false
  | .undone _ _ w x s => x = .preconditionFailed → w.accepts s.objects = false

/-- No live row that the put leaves at its key comes before the new one. -/
def Heads (t : ObjectTable) (record : ObjectRecord) (uuid : String) : Prop :=
  ∀ r ∈ t.rows, atKey record.bucket record.key r = true → r.isTombstone = false →
    t.replaced record.bucket record.key r = false → sortsAfter r (t.storedRow record uuid) = true

/-- A committed put heads the rows of its key, and no refusal is for the date alone or on
account of a group that is rolled back. -/
def InOrder (s : Node) : NodeEvent → Prop
  | .look i => ∀ o lock c r, s.requests[i]? = some (.arrived (.putObject o lock c)) →
      c.given = true → fetchCurrentObject o.bucket o.key s.store.objects.rows = some r →
      c.pre.accepts (some r) = true → ∀ since, c.ifUnmodifiedSince = some since → r.lastModified ≤ since
  | .commit => ∀ g, s.group = some g → g.left = 0 → ∀ i k w d before after record,
      .ran i k w d before (.ok after) ∈ g.entries → w.record = some record →
      Heads before.objects record d.uuid
  | .abort => ∀ g, s.group = some g → ∀ t ∈ g.turns, t.job.batch = false →
      ∀ i k w d before, .ran i k w d before (.error .preconditionFailed) ∈ t.entries.getD [] →
      w.accepts s.store.objects = false
  | _ => True

def drewFresh : Decided → Bool
  | .ran _ _ _ d before (.ok _) => before.objects.rows.all (·.versionId ≠ some d.uuid)
  | _ => true

/-- A version id that the store draws is on no row yet. -/
def DrawsFresh (s : Node) (e : NodeEvent) : Prop := ∀ x ∈ s.added service e, drewFresh x = true

instance (s : Node) (e : NodeEvent) : Decidable (DrawsFresh s e) :=
  inferInstanceAs (Decidable (∀ x ∈ _, _))

variable {w : Write} {d : Drawn} {s s' : Store} {x y : ObjectRecord}

lemma accepts_of_ok (h : w.run d s = .ok s') : w.accepts s.objects = true := by
  have evaluated : ∀ {α β : Type} {f : α → β} {r : Except S3ErrorCode α} {y : β},
      r.map f = .ok y → ∃ x, r = .ok x := by
    intro α β f r y eq
    cases r with
    | error => cases eq
    | ok x => exact ⟨x, rfl⟩
  cases w with
  | put o lock now pre =>
    obtain ⟨t, installed⟩ := evaluated h
    exact (installObjectIf_ok installed).1
  | complete u o now pre =>
    simp only [Write.run] at h
    split at h
    · cases h
    · obtain ⟨t, installed⟩ := evaluated h
      exact (installObjectIf_ok installed).1
  | deleteLatest bucket key pre owner | deleteVersion bucket key version pre =>
    obtain ⟨x, verdict⟩ := evaluated h
    simp only [Write.accepts, DeletePrecondition.accepts, verdict]
    rfl
  | setVersioning | createUpload | takeUpload => rfl

lemma refused_of_error
    (h : w.run d s = .error .preconditionFailed) : w.accepts s.objects = false := by
  have evaluated : ∀ {α β : Type} {f : α → β} {r : Except S3ErrorCode α} {x : S3ErrorCode},
      r.map f = .error x → r = .error x := by
    intro α β f r x eq
    cases r with
    | error y => exact congrArg Except.error (Except.error.inj eq)
    | ok => cases eq
  have refused : ∀ {record : ObjectRecord} {pre : WritePrecondition} {x : S3ErrorCode},
      s.objects.installObjectIf record pre d.uuid = .error x →
      pre.accepts (fetchCurrentObject record.bucket record.key s.objects.rows) = false := by
    intro record pre x eq
    by_contra accepted
    obtain ⟨t, installed⟩ := installObjectIf_of_accepts d.uuid (Bool.not_eq_false _ ▸ accepted)
    cases installed.symm.trans eq
  cases w with
  | put o lock now pre => exact refused (evaluated h)
  | complete u o now pre =>
    simp only [Write.run] at h
    split at h
    · cases h
    · exact refused (evaluated h)
  | deleteLatest bucket key pre owner | deleteVersion bucket key version pre =>
    have verdict := evaluated h
    simp only [Write.accepts, DeletePrecondition.accepts, verdict]
    rfl
  | setVersioning | createUpload | takeUpload => cases h

lemma eq_of_replicated (same : x.replicated = y.replicated)
    (flag : x.isLatest = y.isLatest) : x = y := by
  have rebuilt : ∀ r : ObjectRecord, { r.replicated with isLatest := r.isLatest } = r := fun _ => rfl
  rw [← rebuilt x, ← rebuilt y, same, flag]

lemma sortKey_congr (same : x.replicated = y.replicated) : sortKey x = sortKey y := by
  change sortKey x.replicated = sortKey y.replicated
  rw [same]

variable {bucket key : String} {kept : List ObjectRecord} {row : ObjectRecord}

/-- Among rows none of which ties with it, the new row is the current object
exactly when all others come after it. -/
lemma current_recompute_iff (at_key : atKey bucket key row = true) (live : row.isTombstone = false)
    (latest : row.isLatest = true) (object : row.isDeleteMarker = false)
    (apart : ∀ r ∈ kept, atKey bucket key r = true → sortKey r ≠ sortKey row) :
    fetchCurrentObject bucket key (recomputeIsLatest bucket key (clearLatest bucket key kept ++ [row])) =
        some row ↔
      ∀ r ∈ kept, atKey bucket key r = true → r.isTombstone = false → sortsAfter r row = true := by
  have current : CurrentRow.Current reading (rowsOf bucket key
      (recomputeIsLatest bucket key (clearLatest bucket key kept ++ [row]))) := current_recompute _
  have image : (recomputeIsLatest bucket key (clearLatest bucket key kept ++ [row])).map
      ObjectRecord.replicated = kept.map ObjectRecord.replicated ++ [row.replicated] := by
    rw [map_replicated_recompute, map_append, map_replicated_clearLatest]
    rfl
  revert current image
  generalize recomputeIsLatest bucket key (clearLatest bucket key kept ++ [row]) = rows
  intro current image
  -- every row from before is there up to its flag, and so is the new one
  have stays : ∀ r, r ∈ kept ∨ r = row → ∃ x ∈ rows, x.replicated = r.replicated := by
    intro r mem
    have inside : r.replicated ∈ rows.map ObjectRecord.replicated := by
      rw [image, mem_append, mem_singleton]
      exact mem.imp (mem_map_of_mem ·) (congrArg _)
    exact mem_map.mp inside
  have same_key : ∀ {x r : ObjectRecord}, x.replicated = r.replicated →
      atKey bucket key x = atKey bucket key r := by
    intro x r same
    change atKey bucket key x.replicated = atKey bucket key r.replicated
    rw [same]
  have same_life : ∀ {x r : ObjectRecord}, x.replicated = r.replicated →
      x.isTombstone = r.isTombstone := by
    intro x r same
    change x.replicated.isTombstone = r.replicated.isTombstone
    rw [same]
  constructor
  · intro found r mem r_key r_live
    have inside := mem_rowsOf.mpr ⟨mem_of_find?_eq_some found, at_key⟩
    obtain ⟨x, x_mem, same⟩ := stays r (.inl mem)
    have le := (current.greatest row inside latest).2 x (mem_rowsOf.mpr ⟨x_mem, same_key same ▸ r_key⟩)
      (by simp [reading, same_life same, r_live])
    rw [sortsAfter_iff]
    refine lt_of_le_of_ne ?_ (apart r mem r_key)
    rw [← sortKey_congr same]
    exact le
  · intro below
    have only : ∀ x ∈ rows, atKey bucket key x = true → x.isLatest = true → x = row := by
      intro x mem x_key flag
      obtain ⟨x_live, greatest⟩ := current.greatest x (mem_rowsOf.mpr ⟨mem, x_key⟩) flag
      have inside : x.replicated ∈ rows.map ObjectRecord.replicated := mem_map_of_mem mem
      rw [image, List.mem_append, List.mem_singleton, List.mem_map] at inside
      rcases inside with ⟨r, r_mem, same⟩ | same
      · obtain ⟨y, y_mem, y_same⟩ := stays row (.inr rfl)
        have le := greatest y (mem_rowsOf.mpr ⟨y_mem, same_key y_same ▸ at_key⟩)
          (by simp [reading, same_life y_same, live])
        have lt := below r r_mem (same_key same ▸ x_key) (by
          rw [same_life same]
          simpa [reading] using x_live)
        rw [sortsAfter_iff, sortKey_congr same, ← sortKey_congr y_same] at lt
        exact absurd lt (not_lt.mpr le)
      · exact eq_of_replicated same (flag.trans latest.symm)
    obtain ⟨y, y_mem, y_same⟩ := stays row (.inr rfl)
    obtain ⟨x, x_mem, flag⟩ := current.present ⟨y, mem_rowsOf.mpr ⟨y_mem, same_key y_same ▸ at_key⟩,
      by simp [reading, same_life y_same, live]⟩
    obtain ⟨x_mem, x_key⟩ := mem_rowsOf.mp x_mem
    have x_row := only x x_mem x_key flag
    have some_current : (fetchCurrentObject bucket key rows).isSome := by
      unfold fetchCurrentObject
      rw [find?_isSome]
      exact ⟨x, x_mem, by simp [x_row, at_key, latest, object]⟩
    obtain ⟨z, found⟩ := isSome_iff_exists.mp some_current
    have z_ok := find?_some found
    simp only [Bool.and_eq_true, Bool.not_eq_true'] at z_ok
    rw [found, only z (mem_of_find?_eq_some found) z_ok.1.1 z_ok.1.2]

lemma heads_iff {t t' : ObjectTable} {record : ObjectRecord} {pre : Option ObjectRecord → Bool}
    {uuid : String} (h : t.installObject record pre uuid = some t') (live : record.isTombstone = false)
    (fresh : ∀ r ∈ t.rows, r.versionId ≠ some uuid) :
    fetchCurrentObject record.bucket record.key t'.rows = some (t.storedRow record uuid) ↔
      Heads t record uuid := by
  obtain ⟨-, rfl⟩ := installObject_eq_some_iff.mp h
  refine (current_recompute_iff (atKey_storedRow record uuid) live rfl rfl fun r mem at_key tie => ?_).trans ?_
  · -- a row that stays has another version id
    obtain ⟨old, stays⟩ := mem_filter.mp mem
    have version : r.versionId = t.assignedVersion record.bucket uuid :=
      versionRank_inj.mp (congrArg (fun key => (ofLex (ofLex key).2).1) tie)
    unfold replaced at stays
    unfold assignedVersion at version
    cases state : t.versioning record.bucket with
    | unversioned => simp [state, at_key] at stays
    | enabled => exact fresh r old (by simpa [state] using version)
    | suspended => simp_all [named]
  · unfold Heads
    simp only [deleteWhere, mem_filter, and_imp, Bool.not_eq_true']
    exact forall₂_congr fun r _ => ⟨fun h a b c => h c a b, fun h c a b => h a b c⟩

lemma installed_of_ok {record : ObjectRecord}
    (h : w.run d s = .ok s') (writes : w.record = some record) : record.isTombstone = false ∧
      ∃ pre, s.objects.installObject record pre d.uuid = some s'.objects := by
  have mapped : ∀ {r : ObjectRecord} {pre : WritePrecondition} {f : ObjectTable → Store},
      (∀ t, (f t).objects = t) → (s.objects.installObjectIf r pre d.uuid).map f = .ok s' →
      s.objects.installObject r pre.accepts d.uuid = some s'.objects := by
    intro r pre f objects eq
    cases verdict : s.objects.installObjectIf r pre d.uuid with
    | error => rw [verdict] at eq; cases eq
    | ok t =>
      rw [verdict] at eq
      cases eq
      rw [objects]
      exact (installObjectIf_ok verdict).2
  cases w with
  | put o lock now pre =>
    cases writes
    exact ⟨rfl, pre.accepts, mapped (fun _ => rfl) h⟩
  | complete u o now pre =>
    cases writes
    simp only [Write.run] at h
    split at h
    · cases h
    · exact ⟨rfl, pre.accepts, mapped (fun _ => rfl) h⟩
  | deleteLatest | deleteVersion | setVersioning | createUpload | takeUpload => cases writes

lemma check_eq (c : PutConditions) (r : ObjectRecord) : c.check r =
    if !c.pre.accepts (some r) || c.ifUnmodifiedSince.any (· < r.lastModified) then
      .error .preconditionFailed else .ok () := by
  obtain ⟨ifMatch, ifNoneMatch, since⟩ := c
  unfold PutConditions.check WritePrecondition.accepts WritePrecondition.evaluate PutConditions.pre
  cases matched : ifMatch.join <;>
    (dsimp only [any_none, any_some]; split_ifs <;> simp_all [Except.isOk, Except.toBool])

lemma correct_look_iff {s : Node} {i : Nat} {call : Call} (here : s.requests[i]? = some (.arrived call)) :
    (∀ x, call.look s.store = .error x → Correct (.looked i call x s.store)) ↔ InOrder s (.look i) := by
  have refused : ∀ {α : Type} {verdict : Except S3ErrorCode α} {x : S3ErrorCode},
      verdict = .error x → verdict.isOk = false := by
    rintro α verdict x rfl
    rfl
  cases call with
  | putObject o lock c =>
    have narrow : InOrder s (.look i) ↔ (c.given = true → ∀ r,
        fetchCurrentObject o.bucket o.key s.store.objects.rows = some r →
        c.pre.accepts (some r) = true → c.ifUnmodifiedSince.any (· < r.lastModified) = false) := by
      constructor
      · intro h given r current accepted
        rw [Bool.eq_false_iff, ne_eq, Option.any_eq_true]
        rintro ⟨since, at_since, later⟩
        have le := h o lock c r here given current accepted since at_since
        exact absurd (of_decide_eq_true later) (not_lt.mpr le)
      · intro h o' lock' c' r at_i given current accepted since at_since
        cases here.symm.trans at_i
        have none := h given r current accepted
        rw [at_since, any_some, decide_eq_false_iff_not] at none
        exact not_lt.mp none
    rw [narrow]
    unfold Call.look Correct Call.accepts
    dsimp only
    by_cases given : c.given = true
    · cases current : fetchCurrentObject o.bucket o.key s.store.objects.rows with
      | none =>
        refine iff_of_true (fun x refusal eq => ?_) fun _ r found => nomatch found
        subst eq
        simp only [given, Bool.not_true, Bool.false_eq_true, if_false] at refusal
        split at refusal <;> cases refusal
      | some r =>
        simp only [given, Bool.not_true, Bool.false_eq_true, if_false, check_eq, true_imp_iff,
          some.injEq, forall_eq']
        cases c.pre.accepts (some r) <;>
          cases c.ifUnmodifiedSince.any (· < r.lastModified) <;> simp
    · simp [given]
  | completeMultipartUpload u o pre =>
    refine iff_of_true (fun x refusal _ => refused refusal) fun o' lock c r at_i => ?_
    cases here.symm.trans at_i
  | deleteObject bucket key pre owner | deleteObjectVersion bucket key version pre =>
    refine iff_of_true (fun x refusal _ => refused refusal) fun o lock c r at_i => ?_
    cases here.symm.trans at_i
  | copyObject | deleteObjects | putBucketVersioning | createMultipartUpload | abortMultipartUpload =>
    refine iff_of_true (fun x refusal => nomatch refusal) fun o lock c r at_i => ?_
    cases here.symm.trans at_i

lemma correct_ran_iff {i k : Nat}
    (fresh : ∀ after, w.run d s = .ok after → ∀ r ∈ s.objects.rows, r.versionId ≠ some d.uuid) :
    Correct (.ran i k w d s (w.run d s)) ↔ ∀ after record, w.run d s = .ok after →
      w.record = some record → Heads s.objects record d.uuid := by
  cases result : w.run d s with
  | error x =>
    refine iff_of_true (fun eq => ?_) fun after record ok => nomatch ok
    subst eq
    exact refused_of_error result
  | ok after =>
    have heads : ∀ record, w.record = some record →
        (fetchCurrentObject record.bucket record.key after.objects.rows =
          some (s.objects.storedRow record d.uuid) ↔ Heads s.objects record d.uuid) := by
      intro record writes
      obtain ⟨live, pre, installed⟩ := installed_of_ok result writes
      exact heads_iff installed live (fresh after result)
    constructor
    · rintro ⟨-, returned⟩ after' record - writes
      exact (heads record writes).mp (returned record writes)
    · intro headed
      refine ⟨accepts_of_ok result, fun record writes => ?_⟩
      exact (heads record writes).mpr (headed after record rfl writes)

lemma correct_added_iff {start : Store} {s : Node} (serial : Serial service start s) {e : NodeEvent}
    (fresh : DrawsFresh s e) : (∀ x ∈ s.added service e, Correct x) ↔ InOrder s e := by
  cases e with
  | look i =>
    constructor
    · intro right o lock c r here
      refine (correct_look_iff here).mp (fun x refusal => ?_) o lock c r here
      exact right _ (mem_added_look.mpr ⟨_, x, here, refusal, rfl⟩)
    · intro dated x mem
      obtain ⟨call, error, here, refusal, rfl⟩ := mem_added_look.mp mem
      exact (correct_look_iff here).mpr dated error refusal
  | commit =>
    have ran : ∀ {g}, s.group = some g → g.left = 0 → ∀ {i k w d before},
        .ran i k w d before (w.run d before) ∈ g.entries →
        (Correct (.ran i k w d before (w.run d before)) ↔ ∀ after record,
          w.run d before = .ok after → w.record = some record →
          Heads before.objects record d.uuid) := by
      intro g group full i k w d before mem
      refine correct_ran_iff fun after ok => ?_
      rw [ok] at mem
      have drew := fresh _ (mem_added_commit.mpr ⟨g, group, full, mem⟩)
      simpa [drewFresh] using drew
    constructor
    · intro right g group full i k w d before after record mem writes
      obtain ⟨i', k', w', d', b', eq⟩ := (serial.group g group).ran mem
      obtain ⟨rfl, rfl, rfl, rfl, rfl, result⟩ := Entry.ran.inj eq
      have added := right _ (mem_added_commit.mpr ⟨g, group, full, mem⟩)
      rw [result] at mem added
      exact (ran group full mem).mp added after record result.symm writes
    · intro headed x mem
      obtain ⟨g, group, full, mem⟩ := mem_added_commit.mp mem
      obtain ⟨i, k, w, d, before, rfl⟩ := (serial.group g group).ran mem
      refine (ran group full mem).mpr fun after record ok writes => ?_
      have result : service.run w d before = .ok after := ok
      rw [result] at mem
      exact headed g group full i k w d before after record mem writes
  | abort =>
    constructor
    · intro right g group t turn single i k w d before refused
      refine right (.undone i k w .preconditionFailed s.store) ?_ rfl
      refine mem_added_abort.mpr ⟨g, group, mem_undone.mpr ?_⟩
      exact ⟨t, turn, single, i, k, w, d, before, _, refused, rfl⟩
    · intro still x mem
      obtain ⟨g, group, undone⟩ := mem_added_abort.mp mem
      obtain ⟨t, turn, single, i, k, w, d, b, error, refused, rfl⟩ := mem_undone.mp undone
      rintro rfl
      exact still g group t turn single i k w d b refused
  | _ => exact iff_of_true (forall_mem_nil _) trivial

def freshObject (blobId etag : String) : NewObject :=
  { bucket := "b", key := "k", blobId, size := 1, etag, contentType := none, metadata := []
    encryptionAlgorithm := none, encryptionKeyId := none, owner := "root", storageClass := "STANDARD"
    checksumAlgorithm := none, checksumValue := none, parts := none }

def emptyNode (state : VersioningState) : Node :=
  ⟨⟨⟨[], fun _ => state, false⟩, ⟨[], []⟩⟩, [], [], none, []⟩

def draws (uuid : String) : Option (Nat → Drawn) := some fun _ => ⟨uuid, 9⟩

def plainPut (blobId etag : String) : Call :=
  .putObject (freshObject blobId etag) .unset ⟨none, none, none⟩

/-- The put that drew its time first is committed last. -/
def staleStamps : List NodeEvent :=
  [.arrive (plainPut "A" "a"), .look 0, .arrive (plainPut "B" "b"), .look 1, .submit 1 2, .submit 0 1,
    .start 2, .turn (draws "v1"), .turn (draws "v2"), .commit]

/-- A put that asks for an absent object shares a group with another put, and
the group is rolled back. -/
def refusedAndUndone : List NodeEvent :=
  [.arrive (plainPut "A" "a"), .look 0,
    .arrive (.putObject (freshObject "B" "b") .unset ⟨none, some (some ['*']), none⟩), .look 1,
    .submit 0 1, .submit 1 2, .start 2, .turn (draws "v1"), .turn (draws "v2"), .abort]

lemma idle_emptyNode (state : VersioningState) : Idle (emptyNode state) := ⟨rfl, rfl, rfl⟩

end Arca.Conditional
