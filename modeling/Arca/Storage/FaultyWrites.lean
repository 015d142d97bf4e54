import Arca.Storage.ConditionalWrites

/-!
# Statements that fail inside a transaction

A statement that fails ends its transaction. One read is different: a bucket whose
versioning row cannot be read counts as unversioned, and the transaction goes on.
-/
namespace Arca.Conditional
open ObjectTable List Option ObjectRecord

inductive Statement where
  | selectUpload
  | selectCurrent
  | selectVersioning
  | selectOld
  | selectVersion
  | clearLatest
  | deleteRows
  | deleteTags
  | tombstoneRows
  | nextSeq
  | insertRow
  | recompute
  | writeTags
  | takeUpload
  | insertUpload
  | upsertConfig
  deriving DecidableEq

abbrev Faults := Statement → Bool

inductive TxError where
  | store
  | refused (code : S3ErrorCode)
  deriving DecidableEq

section
variable (fails : Faults)

def attempt (statements : List Statement) : Except TxError Unit :=
  if statements.any fails then .error .store else .ok ()

section
variable (t : ObjectTable)

def asSeen (bucket : String) : ObjectTable :=
  if fails .selectVersioning then
    { t with versioning := Function.update t.versioning bucket .unversioned }
  else t

def checkStatements (pre : WritePrecondition) : List Statement :=
  if pre = ⟨none, none⟩ then [] else [.selectCurrent]

def installStatements : VersioningState → List Statement
  | .unversioned => [.selectOld, .deleteRows, .deleteTags, .nextSeq, .insertRow]
  | .enabled => [.clearLatest, .nextSeq, .insertRow, .recompute]
  | .suspended => [.selectOld, .deleteRows, .deleteTags, .clearLatest, .nextSeq, .insertRow, .recompute]

def installFaulty (record : ObjectRecord) (pre : WritePrecondition)
    (uuid : String) : Except TxError ObjectTable :=
  match attempt fails (checkStatements pre) with
  | .error x => .error x
  | .ok () =>
    match pre.evaluate (fetchCurrentObject record.bucket record.key t.rows) with
    | .error code => .error (.refused code)
    | .ok () =>
      let seen := asSeen fails t record.bucket
      (attempt fails (installStatements (seen.versioning record.bucket) ++ [.writeTags])).map fun _ =>
        { (seen.installObject record (fun _ => true) uuid).getD seen with versioning := t.versioning }

def deleteStatements (found clusterMode : Bool) : VersioningState → List Statement
  | .unversioned =>
    .selectOld :: if !found then []
      else if clusterMode then [.nextSeq, .tombstoneRows, .deleteTags, .recompute]
      else [.deleteRows, .deleteTags]
  | .enabled => [.clearLatest, .nextSeq, .insertRow]
  | .suspended => [.selectOld, .deleteRows, .deleteTags, .clearLatest, .nextSeq, .insertRow]

def checkDelete (pre : DeletePrecondition) : List Statement :=
  if pre = ⟨none, none, none, none⟩ then [] else [.selectCurrent]

def deleteLatestFaulty (bucket key : String)
    (pre : DeletePrecondition) (owner : String) (d : Drawn) : Except TxError ObjectTable :=
  match attempt fails (checkDelete pre) with
  | .error x => .error x
  | .ok () =>
    match pre.evaluate (fetchLatestObject bucket key t.rows) with
    | .error code => .error (.refused code)
    | .ok () =>
      let seen := asSeen fails t bucket
      let found := (fetchLatestObject bucket key t.rows).isSome
      (attempt fails (deleteStatements found t.clusterMode (seen.versioning bucket))).map fun _ =>
        { (seen.deleteLatest bucket key (fun _ => true) owner d.uuid d.now).getD seen with
          versioning := t.versioning }

def deleteVersionFaulty (bucket key version : String)
    (pre : DeletePrecondition) (d : Drawn) : Except TxError ObjectTable :=
  match attempt fails [.selectVersion] with
  | .error x => .error x
  | .ok () =>
    match pre.evaluate (deleteTarget bucket key version t.rows) with
    | .error code => .error (.refused code)
    | .ok () =>
      let statements := if (liveVersion bucket key version t.rows).isNone then []
        else if t.clusterMode then [.nextSeq, .tombstoneRows, .deleteTags, .recompute]
        else [.deleteRows, .deleteTags, .recompute]
      (attempt fails statements).map fun _ =>
        (t.deleteVersion bucket key version (fun _ => true) d.now).getD t

end

end

namespace Write

def runFaulty (fails : Faults) (w : Write) (d : Drawn) (s : Store) : Except TxError Store :=
  match w with
  | .put o lock now pre =>
    (installFaulty fails s.objects (o.record lock now) pre d.uuid).map fun t => { s with objects := t }
  | .complete u o now pre =>
    match attempt fails [.selectUpload] with
    | .error x => .error x
    | .ok () =>
      if (s.multipart.getMultipartUpload u).isNone then .error (.refused .noSuchUpload)
      else match installFaulty fails s.objects (o.record .unset now) pre d.uuid with
      | .error x => .error x
      | .ok t => (attempt fails [.takeUpload]).map fun _ => ⟨t, s.multipart.takeUpload u⟩
  | .deleteLatest bucket key pre owner =>
    (deleteLatestFaulty fails s.objects bucket key pre owner d).map fun t => { s with objects := t }
  | .deleteVersion bucket key version pre =>
    (deleteVersionFaulty fails s.objects bucket key version pre d).map fun t => { s with objects := t }
  | .setVersioning bucket state =>
    (attempt fails [.upsertConfig]).map fun _ =>
      { s with objects :=
          { s.objects with versioning := Function.update s.objects.versioning bucket state } }
  | .createUpload record =>
    (attempt fails [.insertUpload]).map fun _ =>
      { s with multipart := s.multipart.createMultipartUpload record }
  | .takeUpload u =>
    (attempt fails [.takeUpload]).map fun _ => { s with multipart := s.multipart.takeUpload u }

end Write

lemma attempt_ok_iff {fails : Faults} {statements : List Statement} :
    attempt fails statements = .ok () ↔ ∀ st ∈ statements, fails st = false := by
  unfold attempt
  split
  · next some => simpa using some
  · next none => simpa using none

/-- The version is there and has the same blob. -/
def KeepsVersion (t : ObjectTable) (r : ObjectRecord) : Prop :=
  ∃ r' ∈ t.rows, r'.isTombstone = false ∧ named r.bucket r.key r.versionId r' = true ∧
    r'.blobId = r.blobId

def Survives (t t' : ObjectTable) : Prop :=
  ∀ r ∈ t.rows, r.isTombstone = false → KeepsVersion t' r

lemma keepsVersion_of_image {t : ObjectTable} {r : ObjectRecord} (live : r.isTombstone = false)
    (h : r.replicated ∈ t.rows.map replicated) : KeepsVersion t r := by
  obtain ⟨r', mem, same⟩ := mem_map.mp h
  have fields : ∀ {α : Type} (f : ObjectRecord → α), f r'.replicated = f r.replicated :=
    fun f => congrArg f same
  refine ⟨r', mem, (fields isTombstone).trans live, named_iff.mpr ⟨?_, ?_, ?_⟩, ?_⟩
  · exact fields bucket
  · exact fields key
  · exact fields versionId
  · exact fields blobId

variable {t' : ObjectTable} {uuid owner : String} {d : Drawn}

lemma survives_iff_of_cleared {t : ObjectTable} {bucket key : String}
    (others : ∀ r ∈ t.rows, atKey bucket key r = false →
      r.replicated ∈ t'.rows.map replicated)
    (cleared : ∀ r' ∈ t'.rows, atKey bucket key r' = true → r'.isTombstone = false →
      ∀ r ∈ t.rows, r'.blobId ≠ r.blobId) :
    Survives t t' ↔ ∀ r ∈ t.rows, atKey bucket key r = true → r.isTombstone = true := by
  constructor
  · intro survives r mem at_key
    by_contra live
    obtain ⟨r', mem', live', same, blob⟩ := survives r mem (Bool.not_eq_true _ ▸ live)
    have at_key' : atKey bucket key r' = true := by
      obtain ⟨hb, hk, -⟩ := named_iff.mp same
      rw [atKey_iff] at at_key ⊢
      exact ⟨hb.trans at_key.1, hk.trans at_key.2⟩
    exact cleared r' mem' at_key' live' r mem blob
  · intro dead r mem live
    refine keepsVersion_of_image live (others r mem (Bool.eq_false_iff.mpr fun at_key => ?_))
    rw [dead r mem at_key] at live
    cases live

variable {fails : Faults} {t : ObjectTable} {bucket key : String}

lemma versioning_asSeen (bucket : String) : (asSeen fails t bucket).versioning bucket =
    if fails .selectVersioning then .unversioned else t.versioning bucket := by
  unfold asSeen
  split
  · exact Function.update_self ..
  · rfl

lemma rows_asSeen : (asSeen fails t bucket).rows = t.rows := by
  unfold asSeen
  split <;> rfl

lemma clusterMode_asSeen : (asSeen fails t bucket).clusterMode = t.clusterMode := by
  unfold asSeen
  split <;> rfl

def installedAs (fails : Faults) (t : ObjectTable) (record : ObjectRecord) (uuid : String) :
    ObjectTable :=
  { ((asSeen fails t record.bucket).installObject record (fun _ => true) uuid).getD
      (asSeen fails t record.bucket) with versioning := t.versioning }

variable {record : ObjectRecord} {pre : WritePrecondition}

lemma installFaulty_ok_iff :
    installFaulty fails t record pre uuid = .ok t' ↔
      (∀ st ∈ checkStatements pre, fails st = false) ∧
      pre.accepts (fetchCurrentObject record.bucket record.key t.rows) = true ∧
      (∀ st ∈ installStatements ((asSeen fails t record.bucket).versioning record.bucket) ++ [.writeTags],
        fails st = false) ∧ t' = installedAs fails t record uuid := by
  unfold installFaulty WritePrecondition.accepts
  rw [← attempt_ok_iff, ← attempt_ok_iff]
  cases attempt fails (checkStatements pre) with
  | error => simp
  | ok =>
    cases pre.evaluate (fetchCurrentObject record.bucket record.key t.rows) with
    | error => simp [Except.isOk, Except.toBool]
    | ok =>
      dsimp only
      cases attempt fails (installStatements
        ((asSeen fails t record.bucket).versioning record.bucket) ++ [.writeTags]) with
      | error => simp [Except.map]
      | ok => simp [Except.map, Except.isOk, Except.toBool, installedAs, eq_comm]

lemma image_installedAs (record : ObjectRecord) (uuid : String) :
    (installedAs fails t record uuid).rows.map replicated =
      (deleteWhere ((asSeen fails t record.bucket).replaced record.bucket record.key) t.rows).map
        replicated ++
      [((asSeen fails t record.bucket).storedRow record uuid).replicated] := by
  obtain ⟨t', installed⟩ : ∃ t', (asSeen fails t record.bucket).installObject record
      (fun _ => true) uuid = some t' :=
    isSome_iff_exists.mp (installObject_of_accepts uuid rfl)
  have image := map_replicated_installObject installed
  rw [rows_asSeen] at image
  rw [installedAs, installed]
  exact image

lemma survives_installedAs_read
    (enabled : t.versioning record.bucket = .enabled) (read : fails .selectVersioning = false) :
    Survives t (installedAs fails t record uuid) := by
  have none : (asSeen fails t record.bucket).replaced record.bucket record.key = fun _ => false := by
    funext r
    simp [replaced, versioning_asSeen, read, enabled]
  intro r mem live
  refine keepsVersion_of_image live ?_
  rw [image_installedAs, none]
  exact mem_append_left _ (mem_map_of_mem (by simpa [deleteWhere] using mem))

lemma survives_installedAs
    (enabled : t.versioning record.bucket = .enabled)
    (fresh : ∀ r ∈ t.rows, record.blobId ≠ r.blobId) :
    Survives t (installedAs fails t record uuid) ↔ (fails .selectVersioning = true →
      ∀ r ∈ t.rows, atKey record.bucket record.key r = true → r.isTombstone = true) := by
  have image := @image_installedAs fails t record uuid
  cases misread : fails .selectVersioning with
  | false => exact iff_of_true (survives_installedAs_read enabled misread) (fun h => nomatch h)
  | true =>
    have all : (asSeen fails t record.bucket).replaced record.bucket record.key =
        atKey record.bucket record.key := by
      funext r
      simp [replaced, versioning_asSeen, misread]
    rw [all] at image
    rw [forall_prop_of_true rfl]
    refine survives_iff_of_cleared (fun r mem elsewhere => ?_) fun r' mem' at_key' _ r mem => ?_
    · rw [image]
      exact mem_append_left _ (mem_map_of_mem (mem_filter.mpr ⟨mem, by simp [elsewhere]⟩))
    · have inside := mem_map_of_mem (f := replicated) mem'
      rw [image, mem_append, mem_singleton] at inside
      rcases inside with old | new
      · obtain ⟨x, x_mem, same⟩ := mem_map.mp old
        have stays := (mem_filter.mp x_mem).2
        have at_x : atKey record.bucket record.key x.replicated = true := same ▸ at_key'
        simp [show atKey record.bucket record.key x = true from at_x] at stays
      · have blob := congrArg blobId new
        exact fun same => fresh r mem (blob.symm.trans same)

def deletedAs (fails : Faults) (t : ObjectTable) (bucket key owner : String) (d : Drawn) : ObjectTable :=
  { ((asSeen fails t bucket).deleteLatest bucket key (fun _ => true) owner d.uuid d.now).getD
      (asSeen fails t bucket) with versioning := t.versioning }

lemma deleteLatestFaulty_ok_iff {pre : DeletePrecondition} :
    deleteLatestFaulty fails t bucket key pre owner d = .ok t' ↔
      (∀ st ∈ checkDelete pre, fails st = false) ∧
      pre.accepts (fetchLatestObject bucket key t.rows) = true ∧
      (∀ st ∈ deleteStatements (fetchLatestObject bucket key t.rows).isSome t.clusterMode
        ((asSeen fails t bucket).versioning bucket), fails st = false) ∧
      t' = deletedAs fails t bucket key owner d := by
  unfold deleteLatestFaulty DeletePrecondition.accepts
  rw [← attempt_ok_iff, ← attempt_ok_iff]
  cases attempt fails (checkDelete pre) with
  | error => simp
  | ok =>
    cases pre.evaluate (fetchLatestObject bucket key t.rows) with
    | error => simp [Except.isOk, Except.toBool]
    | ok =>
      dsimp only
      cases attempt fails (deleteStatements (fetchLatestObject bucket key t.rows).isSome t.clusterMode
        ((asSeen fails t bucket).versioning bucket)) with
      | error => simp [Except.map]
      | ok => simp [Except.map, Except.isOk, Except.toBool, deletedAs, eq_comm]

lemma rows_deletedAs (owner : String) (d : Drawn) (read : fails .selectVersioning = false)
    (enabled : t.versioning bucket = .enabled) : (deletedAs fails t bucket key owner d).rows =
      clearLatest bucket key t.rows ++ [deleteMarker bucket key owner (some d.uuid) d.now] := by
  have state : (asSeen fails t bucket).versioning bucket = .enabled := by
    rw [versioning_asSeen, read, if_neg Bool.false_ne_true, enabled]
  unfold deletedAs deleteLatest
  simp [state, rows_asSeen]

lemma rows_deletedAs_misread (owner : String) (d : Drawn) (misread : fails .selectVersioning = true) :
    (deletedAs fails t bucket key owner d).rows =
      if (fetchLatestObject bucket key t.rows).isNone then t.rows
      else if t.clusterMode then
        recomputeIsLatest bucket key (updateWhere (atKey bucket key) (tombstone d.now) t.rows)
      else deleteWhere (atKey bucket key) t.rows := by
  have state : (asSeen fails t bucket).versioning bucket = .unversioned := by
    rw [versioning_asSeen, misread, if_pos rfl]
  unfold deletedAs deleteLatest
  simp only [state, rows_asSeen, clusterMode_asSeen, Bool.not_true, Bool.false_eq_true, if_false]
  split_ifs <;> simp [rows_asSeen]

lemma survives_deletedAs (enabled : t.versioning bucket = .enabled) :
    Survives t (deletedAs fails t bucket key owner d) ↔ (fails .selectVersioning = true →
      (fetchLatestObject bucket key t.rows).isSome = true →
      ∀ r ∈ t.rows, atKey bucket key r = true → r.isTombstone = true) := by
  cases misread : fails .selectVersioning with
  | false =>
    refine iff_of_true (fun r mem live => keepsVersion_of_image live ?_) (fun h => nomatch h)
    rw [rows_deletedAs owner d misread enabled, map_append, map_replicated_clearLatest]
    exact mem_append_left _ (mem_map_of_mem mem)
  | true =>
    have rows := @rows_deletedAs_misread fails t bucket key owner d misread
    rw [forall_prop_of_true rfl]
    cases latest : fetchLatestObject bucket key t.rows with
    | none =>
      rw [latest, isNone_none, if_pos rfl] at rows
      refine iff_of_true (fun r mem live => keepsVersion_of_image live ?_) (fun h => nomatch h)
      rw [rows]
      exact mem_map_of_mem mem
    | some old =>
      rw [latest, isNone_some, if_neg Bool.false_ne_true] at rows
      rw [isSome_some, forall_prop_of_true rfl]
      cases cluster : t.clusterMode with
      | true =>
        rw [cluster, if_pos rfl] at rows
        refine survives_iff_of_cleared (fun r mem elsewhere => ?_) fun r' mem' at_key' live' => ?_
        · rw [rows, map_replicated_recompute]
          refine mem_map_of_mem (mem_map.mpr ⟨r, mem, ?_⟩)
          rw [elsewhere, if_neg Bool.false_ne_true]
        · rw [rows] at mem'
          obtain ⟨x, x_mem, same⟩ := mem_recompute mem'
          obtain ⟨y, -, rfl⟩ := mem_map.mp x_mem
          have at_y := congrArg (atKey bucket key) same
          have dead := congrArg isTombstone same
          cases hit : atKey bucket key y with
          | true =>
            rw [hit, if_pos rfl] at dead
            cases live'.symm.trans dead
          | false =>
            rw [hit, if_neg Bool.false_ne_true] at at_y
            cases at_key'.symm.trans (at_y.trans hit)
      | false =>
        rw [cluster, if_neg Bool.false_ne_true] at rows
        refine survives_iff_of_cleared (fun r mem elsewhere => ?_) fun r' mem' at_key' => ?_
        · rw [rows]
          exact mem_map_of_mem (mem_filter.mpr ⟨mem, by simp [elsewhere]⟩)
        · rw [rows] at mem'
          have stays := (mem_filter.mp mem').2
          simp [at_key'] at stays

def Write.target : Write → Option (String × String)
  | .put o .. | .complete _ o .. => some (o.bucket, o.key)
  | .deleteLatest bucket key .. => some (bucket, key)
  | _ => none

/-- Nothing keeps the write from being committed as in an unversioned bucket. -/
def Write.Commits (fails : Faults) (s : Store) : Write → Prop
  | .put o _ _ pre =>
    pre.accepts (fetchCurrentObject o.bucket o.key s.objects.rows) = true ∧
    ∀ st ∈ checkStatements pre ++ installStatements .unversioned ++ [.writeTags], fails st = false
  | .complete u o _ pre =>
    (s.multipart.getMultipartUpload u).isSome ∧
    pre.accepts (fetchCurrentObject o.bucket o.key s.objects.rows) = true ∧
    ∀ st ∈ .selectUpload :: checkStatements pre ++ installStatements .unversioned ++
      [.writeTags, .takeUpload], fails st = false
  | .deleteLatest bucket key pre _ =>
    pre.accepts (fetchLatestObject bucket key s.objects.rows) = true ∧
    (fetchLatestObject bucket key s.objects.rows).isSome ∧
    ∀ st ∈ checkDelete pre ++ deleteStatements true s.objects.clusterMode .unversioned,
      fails st = false
  | _ => False

/-- A new version is written under a blob id that no row has. -/
def Write.FreshBlob (w : Write) (t : ObjectTable) : Prop :=
  ∀ record, w.record = some record → ∀ r ∈ t.rows, record.blobId ≠ r.blobId

lemma install_survives_iff
    (enabled : t.versioning record.bucket = .enabled)
    (fresh : ∀ r ∈ t.rows, record.blobId ≠ r.blobId) :
    (∀ t', installFaulty fails t record pre uuid = .ok t' → Survives t t') ↔
      (fails .selectVersioning = true →
        pre.accepts (fetchCurrentObject record.bucket record.key t.rows) = true →
        (∀ st ∈ checkStatements pre ++ installStatements .unversioned ++ [.writeTags],
          fails st = false) →
        ∀ r ∈ t.rows, atKey record.bucket record.key r = true → r.isTombstone = true) := by
  simp only [installFaulty_ok_iff, versioning_asSeen]
  constructor
  · intro survives misread accepted sound
    rw [append_assoc, forall_mem_append] at sound
    have kept := survives _ ⟨sound.1, accepted, by rw [misread, if_pos rfl]; exact sound.2, rfl⟩
    exact (survives_installedAs enabled fresh).mp kept misread
  · rintro spared t' ⟨checked, accepted, sound, rfl⟩
    refine (survives_installedAs enabled fresh).mpr fun misread => ?_
    rw [misread, if_pos rfl] at sound
    refine spared misread accepted ?_
    rw [append_assoc, forall_mem_append]
    exact ⟨checked, sound⟩

lemma map_ok_iff {α β : Type} {r : Except TxError α} {f : α → β} {y : β} :
    r.map f = .ok y ↔ ∃ x, r = .ok x ∧ f x = y := by
  cases r with
  | error => exact iff_of_false (fun h => nomatch h) fun ⟨_, h, _⟩ => nomatch h
  | ok x => simp [Except.map]

lemma forall_map_ok {α β : Type} {r : Except TxError α} {f : α → β} {P : β → Prop} :
    (∀ y, r.map f = .ok y → P y) ↔ ∀ x, r = .ok x → P (f x) := by
  simp only [map_ok_iff, forall_exists_index, and_imp]
  simp

lemma complete_ok_iff {u : String} {o : NewObject} {now : Instant}
    {s s' : Store} : (Write.complete u o now pre).runFaulty fails d s = .ok s' ↔
      fails .selectUpload = false ∧ (s.multipart.getMultipartUpload u).isSome ∧
      fails .takeUpload = false ∧ ∃ t, installFaulty fails s.objects (o.record .unset now) pre d.uuid = .ok t ∧
        s' = ⟨t, s.multipart.takeUpload u⟩ := by
  simp only [Write.runFaulty, attempt, any_cons, any_nil, Bool.or_false]
  cases fails .selectUpload with
  | true => simp
  | false =>
    cases s.multipart.getMultipartUpload u with
    | none => simp
    | some upload =>
      cases installFaulty fails s.objects (o.record .unset now) pre d.uuid with
      | error => simp
      | ok t =>
        cases fails .takeUpload with
        | true => simp [Except.map]
        | false => simp [Except.map, eq_comm]

/-- In a bucket with versioning every version survives every write, whichever statements fail,
unless the read of the versioning row fails and the write commits all the same. -/
theorem versions_survive_iff {fails : Faults} {w : Write} {d : Drawn} {s : Store} {bucket key : String}
    (target : w.target = some (bucket, key)) (enabled : s.objects.versioning bucket = .enabled)
    (fresh : w.FreshBlob s.objects) :
    (∀ s', w.runFaulty fails d s = .ok s' → Survives s.objects s'.objects) ↔
      (fails .selectVersioning = true → w.Commits fails s →
        ∀ r ∈ s.objects.rows, atKey bucket key r = true → r.isTombstone = true) := by
  cases w with
  | put o lock now pre =>
    cases target
    refine forall_map_ok.trans ((install_survives_iff enabled (fresh _ rfl)).trans ?_)
    exact imp_congr_right fun _ => and_imp.symm
  | complete u o now pre =>
    cases target
    have install := @install_survives_iff d.uuid fails s.objects (o.record .unset now) pre enabled
      (fresh _ rfl)
    simp only [complete_ok_iff]
    constructor
    · rintro survives misread ⟨there, accepted, sound⟩
      simp only [cons_append, forall_mem_cons, forall_mem_append] at sound
      obtain ⟨selected, ⟨checked, installed⟩, tagged, taken, -⟩ := sound
      refine install.mp (fun t ok => ?_) misread accepted ?_
      · exact survives ⟨t, _⟩ ⟨selected, there, taken, t, ok, rfl⟩
      · simp only [forall_mem_append, forall_mem_singleton]
        exact ⟨⟨checked, installed⟩, tagged⟩
    · rintro spared s' ⟨selected, there, taken, t, ok, rfl⟩
      refine install.mpr (fun misread accepted sound => spared misread ⟨there, accepted, ?_⟩) t ok
      simp only [forall_mem_append, forall_mem_singleton] at sound
      simp only [cons_append, forall_mem_cons, forall_mem_append]
      exact ⟨selected, sound.1, sound.2, taken, forall_mem_nil _⟩
  | deleteLatest b k pre owner =>
    cases target
    refine forall_map_ok.trans ?_
    simp only [deleteLatestFaulty_ok_iff, versioning_asSeen]
    constructor
    · rintro survives misread ⟨accepted, found, sound⟩
      rw [forall_mem_append] at sound
      refine (survives_deletedAs enabled).mp (survives _ ⟨sound.1, accepted, ?_, rfl⟩) misread found
      rw [misread, if_pos rfl, found]
      exact sound.2
    · rintro spared t' ⟨checked, accepted, sound, rfl⟩
      refine (survives_deletedAs enabled).mpr fun misread found => spared misread ⟨accepted, found, ?_⟩
      rw [misread, if_pos rfl, found] at sound
      exact forall_mem_append.mpr ⟨checked, sound⟩
  | deleteVersion | setVersioning | createUpload | takeUpload => cases target

def oldVersion : ObjectRecord :=
  { written with versionId := some "v1", blobId := "A" }

def oneVersion : Store := ⟨⟨[oldVersion], fun _ => .enabled, false⟩, ⟨[], []⟩⟩

def overwrite : Write := .put (freshObject "B" "b") .unset 200 ⟨none, none⟩

def versioningUnread : Faults := (· = .selectVersioning)

theorem versions_survive_iff_unread :
    overwrite.target = some ("b", "k") ∧ oneVersion.objects.versioning "b" = .enabled ∧
    overwrite.FreshBlob oneVersion.objects ∧
    ((∀ s', overwrite.runFaulty versioningUnread ⟨"v2", 200⟩ oneVersion = .ok s' →
        Survives oneVersion.objects s'.objects) ↔
      (versioningUnread .selectVersioning = true → overwrite.Commits versioningUnread oneVersion →
        ∀ r ∈ oneVersion.objects.rows, atKey "b" "k" r = true → r.isTombstone = true)) := by
  have fresh : overwrite.FreshBlob oneVersion.objects := by
    rintro record ⟨⟩
    decide
  exact ⟨rfl, rfl, fresh, versions_survive_iff rfl rfl fresh⟩

/-- The put commits and the old version is gone. -/
theorem unread_versioning_destroys :
    ((overwrite.runFaulty versioningUnread ⟨"v2", 200⟩ oneVersion).map fun s =>
        s.objects.rows.map fun r => (r.versionId, r.blobId)) = .ok [(none, "B")] ∧
      oneVersion.objects.rows.map (fun r => (r.versionId, r.blobId)) = [(some "v1", "A")] := by
  constructor <;> rfl

end Arca.Conditional
