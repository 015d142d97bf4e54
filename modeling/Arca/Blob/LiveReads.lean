import Arca.Blob.Accesses
import Arca.Storage.EncryptionSwap

/-!
# A GET among overwrites and re-encryptions

An overwrite and a re-encryption give the key another row and have the blob of the
old one removed in the background, file by file. The id of a blob is never used
again, so what is on disk is what was written and not removed.
-/
namespace Arca.Blob.LiveReads
open ObjectTable Readers List Option Function ObjectRecord

structure Request where
  bucket : String
  key : String
  range : Option ByteRange
  customerKey : Option Bytes

/-- What `delete` still has to do: read the sidecar for parts, or remove the file and then
the sidecar of each id. -/
inductive Removal where
  | started (id : String)
  | files (ids : List String)
  | sidecar (id : String) (ids : List String)
  deriving DecidableEq

/-- Where the GET is. `seen` is what it has taken from the disk, `todo` are the files it
still has to open. -/
inductive Phase where
  | asked
  | found (row : ObjectRecord)
  | opening (row : ObjectRecord) (seen : Disk) (todo : List String)
  | noSuchKey
  | answered (row : ObjectRecord) (body : Except Failure Bytes)

def Phase.finished : Phase → Bool
  | .noSuchKey | .answered .. => true
  | _ => false

structure State where
  table : ObjectTable
  /-- Whether the node is one of a cluster, where a swapped blob is left to the collector. -/
  clustered : Bool
  written : Disk
  goneFiles : List String
  goneSidecars : List String
  removals : List Removal
  phase : Phase
  /-- The current object of the key at each moment of the request. -/
  moments : List (Option ObjectRecord)

namespace State
variable (s : State)

def disk : Disk where
  files x := if x ∈ s.goneFiles then none else s.written.files x
  sidecars x := if x ∈ s.goneSidecars then none else s.written.sidecars x

def startRemoval (id : String) : State := { s with removals := s.removals ++ [.started id] }

/-- The parts of a composite first, each with its file before its sidecar. -/
def remove (i : ℕ) : State :=
  match s.removals[i]? with
  | some (.started id) =>
    let parts := ((s.disk.sidecars id).bind SidecarMeta.composite).getD []
    { s with removals := s.removals.set i (.files (parts.map CompositePart.blobId ++ [id])) }
  | some (.files (x :: ids)) =>
    { s with goneFiles := x :: s.goneFiles, removals := s.removals.set i (.sidecar x ids) }
  | some (.sidecar x ids) =>
    { s with goneSidecars := x :: s.goneSidecars, removals := s.removals.set i (.files ids) }
  | some (.files []) | none => s

def writeFile (id : String) (bytes : Bytes) : State :=
  if s.written.files id = none ∧ id ∉ s.goneFiles then
    { s with written := s.written.writeFile id bytes }
  else s

def writeSidecar (id : String) (m : SidecarMeta) : State :=
  if s.written.sidecars id = none ∧ id ∉ s.goneSidecars then
    { s with written := s.written.writeSidecar id m }
  else s

end State

def readRow (r : ObjectRecord) : Row := ⟨r.blobId, r.size, r.encryptionAlgorithm, r.encryptionKeyId⟩

def replacedRow (t : ObjectTable) (record : ObjectRecord) : Option ObjectRecord :=
  match t.versioning record.bucket with
  | .unversioned => fetchLatestObject record.bucket record.key t.rows
  | .enabled => none
  | .suspended => t.rows.find? fun r =>
    atKey record.bucket record.key r && r.versionId = none && !r.isTombstone

inductive Event where
  | writeFile (id : String) (bytes : Bytes)
  | writeSidecar (id : String) (m : SidecarMeta)
  | put (record : ObjectRecord) (pre : Option ObjectRecord → Bool) (uuid : String)
  | swap (record : ObjectRecord) (new : String) (algorithm keyId : Option String) (now : Instant)
  | remove (i : ℕ)
  | read

variable (L : Libraries) (config : Config) (q : Request)

section
variable (s : State)

def State.current : Option ObjectRecord := fetchCurrentObject q.bucket q.key s.table.rows

def getOn (d : Disk) (r : ObjectRecord) : Except Failure Bytes :=
  deliver L config d (readRow r) (.getObject q.range q.customerKey)

/-- All of the row's blob is there, and a GET that is not disturbed delivers it. -/
def whole (d : Disk) (r : ObjectRecord) : Bool :=
  (d.sidecars r.blobId).any (·.flat d) && (getOn L config q d r).isOk

def backed (r : ObjectRecord) : Bool :=
  !atKey q.bucket q.key r || whole L config q s.written r

def State.put (record : ObjectRecord) (pre : Option ObjectRecord → Bool) (uuid : String) : State :=
  if !backed L config q s record || record.isTombstone then s
  else match s.table.installObject record pre uuid with
    | none => s.startRemoval record.blobId
    | some t =>
      match replacedRow s.table record with
      | none => { s with table := t }
      | some old => { s with table := t }.startRemoval old.blobId

def State.swap (record : ObjectRecord) (new : String)
    (algorithm keyId : Option String) (now : Instant) : State :=
  let target := swaps record.bucket record.key record.versionId record.blobId
  if !(s.table.rows.filter target).all
      (fun r => backed L config q s (withBlob new algorithm keyId now r)) then s
  else
    let (t, swapped) := s.table.updateObjectEncryptionCas record.bucket record.key record.versionId
      record.blobId new algorithm keyId now
    if !swapped then s.startRemoval new
    else if s.clustered then { s with table := t }
    else { s with table := t }.startRemoval record.blobId

/-- The next step of the GET. The store for customers' keys reads no sidecar. -/
def State.read : State :=
  match s.phase with
  | .asked =>
    match s.current q with
    | none => { s with phase := .noSuchKey }
    | some r => { s with phase := .found r }
  | .found r =>
    if (readRow r).isSsec then
      { s with phase := .opening r ⟨fun _ => none, fun _ => none⟩ [r.blobId] }
    else
      let sidecar := s.disk.sidecars r.blobId
      let seen : Disk := ⟨fun _ => none, update (fun _ => none) r.blobId sidecar⟩
      { s with phase := .opening r seen (opens r.blobId sidecar q.range) }
  | .opening r seen (x :: todo) =>
    let seen := { seen with files := update seen.files x (s.disk.files x) }
    if (s.disk.files x).isSome then { s with phase := .opening r seen todo }
    else { s with phase := .answered r (getOn L config q seen r) }
  | .opening r seen [] => { s with phase := .answered r (getOn L config q seen r) }
  | .noSuchKey | .answered .. => s

def act : Event → State
  | .writeFile id bytes => s.writeFile id bytes
  | .writeSidecar id m => s.writeSidecar id m
  | .put record pre uuid => s.put L config q record pre uuid
  | .swap record new algorithm keyId now => s.swap L config q record new algorithm keyId now
  | .remove i => s.remove i
  | .read => s.read L config q

def step (e : Event) : State :=
  let s' := act L config q s e
  if s.phase.finished then s' else { s' with moments := s'.current q :: s.moments }

/-- If the key had a current object at every moment of the request, the answer is one of
them, with all the bytes asked for of what was written for it. -/
def Good : Prop :=
  none ∉ s.moments → match s.phase with
    | .noSuchKey => False
    | .answered r body => some r ∈ s.moments ∧ ∃ bytes, getOn L config q s.written r = .ok bytes ∧
        body = .ok bytes
    | _ => True

def Timely : Event → Prop
  | .read => match s.phase with
      | .opening _ _ (x :: _) => none ∉ s.moments → x ∉ s.goneFiles
      | _ => True
  | _ => True

end

section
variable {L config q} {d d' : Disk} {r : ObjectRecord}

def planned (q : Request) (d : Disk) (r : ObjectRecord) : List String :=
  if (readRow r).isSsec then [r.blobId] else opens r.blobId (d.sidecars r.blobId) q.range

variable {bytes : Bytes}

lemma getOn_ok (h : getOn L config q d r = .ok bytes) :
    ∃ badNonce, openObject L config d (readRow r) q.customerKey q.range badNonce = .ok bytes := by
  obtain ⟨_, -, h⟩ := ok_of_bind h
  obtain ⟨_, -, h⟩ := ok_of_bind h
  exact ⟨_, h⟩

lemma read_of_collect {reading : Reading} (h : collect reading = .ok bytes) :
    ∃ length, reading = .ok ⟨.ok bytes, length⟩ := by
  obtain ⟨⟨stream, length⟩, read, same⟩ := map_ok_iff.mp (collect_ok_iff.mp h)
  exact ⟨length, by rw [read]; exact congrArg _ (congrArg (BlobGetResult.mk · length) same)⟩

/-- **A GET that delivers has opened its files.** -/
lemma files_of_getOn (plain : (readRow r).isSsec = false → d.Plain r.blobId)
    (h : getOn L config q d r = .ok bytes) : ∀ x ∈ planned q d r, (d.files x).isSome := by
  obtain ⟨_, opened⟩ := getOn_ok h
  intro x mem
  unfold openObject at opened
  unfold planned at mem
  split at opened
  · next keyed =>
      rw [if_pos keyed] at mem
      rw [mem_singleton.mp mem]
      split at opened
      · cases opened
      · split at opened
        · cases opened
        · obtain ⟨_, read⟩ := read_of_collect opened
          obtain ⟨file, found, -⟩ := ok_of_bind read
          exact isSome_iff_exists.mpr ⟨file, file_of_open found⟩
  · next unkeyed =>
      rw [if_neg unkeyed] at mem
      obtain ⟨_, read⟩ := read_of_collect opened
      exact files_of_readBlob (plain (Bool.not_eq_true _ ▸ unkeyed)) read x mem

lemma getOn_congr (files : (readRow r).isSsec = true → d'.files r.blobId = d.files r.blobId)
    (agree : (readRow r).isSsec = false → Agree d d' r.blobId q.range) :
    getOn L config q d' r = getOn L config q d r := by
  have same : ∀ badNonce, openObject L config d' (readRow r) q.customerKey q.range badNonce =
      openObject L config d (readRow r) q.customerKey q.range badNonce := by
    intro badNonce
    unfold openObject
    cases keyed : (readRow r).isSsec with
    | true => simp only [if_true, getWithKey, readRow, open_congr (files keyed)]
    | false =>
      exact congrArg collect (readBlob_agree (agree keyed))
  simp only [getOn, deliver, same]

lemma flat_keep (keeps : d.Keeps d') {m : SidecarMeta} (flat : m.flat d = true) :
    m.flat d' = true := by
  unfold SidecarMeta.flat at flat ⊢
  split at flat
  · rfl
  · rw [Bool.and_eq_true, List.all_eq_true] at flat ⊢
    refine ⟨flat.1, fun p mem => ?_⟩
    have there := flat.2 p mem
    cases sidecar : d.sidecars p.blobId with
    | none => simp [sidecar] at there
    | some m =>
      rw [keeps.sidecars _ _ sidecar]
      rwa [sidecar] at there

structure Whole (L : Libraries) (config : Config) (q : Request) (d : Disk) (r : ObjectRecord) :
    Prop where
  sidecar : ∃ m, d.sidecars r.blobId = some m ∧ m.flat d = true
  delivers : ∃ bytes, getOn L config q d r = .ok bytes

lemma whole_iff : whole L config q d r = true ↔ Whole L config q d r := by
  have ok : (getOn L config q d r).isOk = true ↔ ∃ bytes, getOn L config q d r = .ok bytes := by
    cases getOn L config q d r <;> simp [Except.isOk, Except.toBool]
  have there : (d.sidecars r.blobId).any (·.flat d) = true ↔
      ∃ m, d.sidecars r.blobId = some m ∧ m.flat d = true := by
    cases d.sidecars r.blobId <;> simp
  rw [whole, Bool.and_eq_true, ok, there]
  exact ⟨fun ⟨a, b⟩ => ⟨a, b⟩, fun ⟨a, b⟩ => ⟨a, b⟩⟩

section
variable (h : Whole L config q d r)
include h

lemma Whole.plain : d.Plain r.blobId := by
  obtain ⟨m, sidecar, flat⟩ := h.sidecar
  refine plain_of_flat fun m' sidecar' => ?_
  rw [sidecar] at sidecar'
  exact some.inj sidecar' ▸ flat

lemma Whole.files : ∀ x ∈ planned q d r, (d.files x).isSome := by
  obtain ⟨bytes, delivered⟩ := h.delivers
  exact files_of_getOn (fun _ => h.plain) delivered

lemma Whole.planned_keep (keeps : d.Keeps d') :
    planned q d' r = planned q d r ∧ ∀ x ∈ planned q d r, d'.files x = d.files x := by
  obtain ⟨m, sidecar, -⟩ := h.sidecar
  refine ⟨by rw [planned, planned, keeps.sidecars _ _ sidecar, sidecar], fun x mem => ?_⟩
  obtain ⟨file, there⟩ := isSome_iff_exists.mp (h.files x mem)
  rw [there, keeps.files _ _ there]

lemma Whole.getOn_keep (keeps : d.Keeps d') : getOn L config q d' r = getOn L config q d r := by
  obtain ⟨m, sidecar, flat⟩ := h.sidecar
  have files := (h.planned_keep keeps).2
  unfold planned at files
  refine getOn_congr (fun keyed => ?_) fun unkeyed => ?_
  · rw [if_pos keyed] at files
    exact files _ (mem_singleton_self _)
  · rw [unkeyed] at files
    refine ⟨by rw [keeps.sidecars _ _ sidecar, sidecar], files, h.plain, plain_of_flat ?_⟩
    intro m' sidecar'
    rw [keeps.sidecars _ _ sidecar] at sidecar'
    exact some.inj sidecar' ▸ flat_keep keeps flat

lemma Whole.keep (keeps : d.Keeps d') : Whole L config q d' r := by
  obtain ⟨m, sidecar, flat⟩ := h.sidecar
  refine ⟨⟨m, keeps.sidecars _ _ sidecar, flat_keep keeps flat⟩, ?_⟩
  rw [h.getOn_keep keeps]
  exact h.delivers

end

/-- Tombstones are never latest. -/
def Live (rows : List ObjectRecord) : Prop := ∀ r ∈ rows, r.isLatest = true → r.isTombstone = false

lemma Live.recompute {rows rows' : List ObjectRecord} {bucket key : String} (h : Live rows)
    (frame : Frame bucket key rows rows') : Live (recomputeIsLatest bucket key rows') := by
  intro r mem latest
  by_cases own : r.bucket = bucket ∧ r.key = key
  · have flagged := (current_recompute rows').greatest r
      (mem_rowsOf.mpr ⟨mem, atKey_iff.mpr own⟩) latest
    simpa [reading] using flagged.1
  · have other : r ∈ rowsOf r.bucket r.key (recomputeIsLatest bucket key rows') :=
      mem_rowsOf.mpr ⟨mem, atKey_iff.mpr ⟨rfl, rfl⟩⟩
    rw [frame_recompute _ _ own, frame _ _ own] at other
    exact h r (mem_rowsOf.mp other).1 latest

variable {uuid x : String} {seen : Disk} {todo : List String} {e : Event}

variable {pre : Option ObjectRecord → Bool}

lemma Live.installObject {t t' : ObjectTable} (h : Live t.rows) {record : ObjectRecord}
    (done : t.installObject record pre uuid = some t') : Live t'.rows := by
  obtain ⟨-, rfl⟩ := installObject_eq_some_iff.mp done
  exact h.recompute (frame_cleared.trans (frame_append (atKey_storedRow record uuid)))

/-- What holds between the requests: every object of the key is whole, and a removal takes
the file of a blob before its sidecar. -/
structure Kept (L : Libraries) (config : Config) (q : Request) (s : State) : Prop where
  rows : ∀ r ∈ s.table.rows, atKey q.bucket q.key r = true → r.isDeleteMarker = false →
    r.isTombstone = false → Whole L config q s.written r
  live : Live s.table.rows
  halfway : ∀ x ids, Removal.sidecar x ids ∈ s.removals → x ∈ s.goneFiles
  ordered : ∀ x ∈ s.goneSidecars, x ∈ s.goneFiles

variable {s s' : State}

lemma Kept.current (h : Kept L config q s) (found : s.current q = some r) :
    Whole L config q s.written r := by
  have mem := mem_of_find?_eq_some found
  have flags := find?_some found
  simp only [Bool.and_eq_true, Bool.not_eq_true'] at flags
  exact h.rows r mem flags.1.1 flags.2 (h.live r mem flags.1.2)

lemma Kept.startRemoval (h : Kept L config q s) (id : String) :
    Kept L config q (s.startRemoval id) := by
  refine ⟨h.rows, h.live, fun x ids mem => ?_, h.ordered⟩
  rcases mem_append.mp mem with old | new
  · exact h.halfway x ids old
  · simp at new

lemma Kept.write (h : Kept L config q s) (keeps : s.written.Keeps d) :
    Kept L config q { s with written := d } :=
  ⟨fun r mem own object live => (h.rows r mem own object live).keep keeps, h.live, h.halfway,
    h.ordered⟩

structure Aside (s s' : State) : Prop where
  keeps : s.written.Keeps s'.written
  gone : s.goneFiles ⊆ s'.goneFiles
  moments : s'.moments = s.moments
  phase : s'.phase = s.phase

lemma Aside.of_eq (written : s'.written = s.written) (gone : s.goneFiles ⊆ s'.goneFiles)
    (moments : s'.moments = s.moments) (phase : s'.phase = s.phase) : Aside s s' :=
  ⟨written ▸ .refl _, gone, moments, phase⟩

lemma kept_writeFile (h : Kept L config q s) (id : String) (bytes : Bytes) :
    Kept L config q (s.writeFile id bytes) ∧ Aside s (s.writeFile id bytes) := by
  unfold State.writeFile
  split
  · next new =>
      have keeps := RangedReads.keeps_writeFile new.1 bytes
      exact ⟨h.write keeps, keeps, List.Subset.refl _, rfl, rfl⟩
  · exact ⟨h, .of_eq rfl (List.Subset.refl _) rfl rfl⟩

lemma kept_writeSidecar (h : Kept L config q s) (id : String) (m : SidecarMeta) :
    Kept L config q (s.writeSidecar id m) ∧ Aside s (s.writeSidecar id m) := by
  unfold State.writeSidecar
  split
  · next new =>
      have keeps := RangedReads.keeps_writeSidecar new.1 m
      exact ⟨h.write keeps, keeps, List.Subset.refl _, rfl, rfl⟩
  · exact ⟨h, .of_eq rfl (List.Subset.refl _) rfl rfl⟩

lemma kept_remove (h : Kept L config q s) (i : ℕ) :
    Kept L config q (s.remove i) ∧ Aside s (s.remove i) := by
  unfold State.remove
  split
  · refine ⟨⟨h.rows, h.live, fun x ids mem => ?_, h.ordered⟩, .of_eq rfl (List.Subset.refl _) rfl rfl⟩
    rcases mem_or_eq_of_mem_set mem with old | new
    · exact h.halfway x ids old
    · cases new
  · next y rest _ =>
      have more : s.goneFiles ⊆ y :: s.goneFiles := subset_cons_self ..
      refine ⟨⟨h.rows, h.live, fun x ids mem => ?_, fun x mem => more (h.ordered x mem)⟩,
        .of_eq rfl more rfl rfl⟩
      rcases mem_or_eq_of_mem_set mem with old | new
      · exact more (h.halfway x ids old)
      · cases new
        exact mem_cons_self
  · next y rest found =>
      have gone : y ∈ s.goneFiles := h.halfway y rest (mem_of_getElem? found)
      refine ⟨⟨h.rows, h.live, fun x ids mem => ?_, fun x mem => ?_⟩,
        .of_eq rfl (List.Subset.refl _) rfl rfl⟩
      · rcases mem_or_eq_of_mem_set mem with old | new
        · exact h.halfway x ids old
        · cases new
      · rcases mem_cons.mp mem with rfl | old
        · exact gone
        · exact h.ordered x old
  all_goals exact ⟨h, .of_eq rfl (List.Subset.refl _) rfl rfl⟩

lemma whole_congr {x : ObjectRecord} (same : readRow r = readRow x) :
    Whole L config q d r ↔ Whole L config q d x := by
  have blob : r.blobId = x.blobId := congrArg Row.blobId same
  have get : getOn L config q d r = getOn L config q d x := by rw [getOn, getOn, same]
  constructor
  · rintro ⟨sidecar, delivers⟩
    exact ⟨blob ▸ sidecar, get ▸ delivers⟩
  · rintro ⟨sidecar, delivers⟩
    exact ⟨blob ▸ sidecar, get ▸ delivers⟩

lemma whole_of_backed (h : backed L config q s r = true) (own : atKey q.bucket q.key r = true) :
    Whole L config q s.written r := by
  rw [backed, own] at h
  exact whole_iff.mp h

lemma Kept.installed (h : Kept L config q s) {record : ObjectRecord} {t : ObjectTable}
    (written : backed L config q s record = true)
    (done : s.table.installObject record pre uuid = some t) :
    Kept L config q { s with table := t } := by
  refine ⟨fun r mem own shown live => ?_, h.live.installObject done, h.halfway, h.ordered⟩
  have columns : ∀ {x : ObjectRecord}, r.replicated = x.replicated → readRow r = readRow x ∧
      atKey q.bucket q.key x = atKey q.bucket q.key r ∧ x.isDeleteMarker = r.isDeleteMarker ∧
      x.isTombstone = r.isTombstone := by
    intro x same
    have at_ := fun {β : Type} (f : ObjectRecord → β) => congrArg f same
    exact ⟨at_ readRow, (at_ (atKey q.bucket q.key)).symm, (at_ isDeleteMarker).symm,
      (at_ isTombstone).symm⟩
  rcases mem_installObject done mem with ⟨x, old, -, same⟩ | same
  · obtain ⟨columns, at_key, marker, dead⟩ := columns same
    exact (whole_congr columns).mpr
      (h.rows x old (at_key ▸ own) (marker ▸ shown) (dead ▸ live))
  · obtain ⟨columns, at_key, -, -⟩ := columns same
    have stored : readRow r = readRow record := columns
    exact (whole_congr stored).mpr (whole_of_backed written (at_key ▸ own))

lemma kept_put (h : Kept L config q s) (record : ObjectRecord)
    (pre : Option ObjectRecord → Bool) (uuid : String) :
    Kept L config q (s.put L config q record pre uuid) ∧ Aside s (s.put L config q record pre uuid) := by
  unfold State.put
  split
  · exact ⟨h, .of_eq rfl (List.Subset.refl _) rfl rfl⟩
  · next admitted =>
      simp only [Bool.or_eq_true, Bool.not_eq_true', not_or, Bool.not_eq_false, Bool.not_eq_true]
        at admitted
      split
      · exact ⟨h.startRemoval _, .of_eq rfl (List.Subset.refl _) rfl rfl⟩
      · next t done =>
          have next := h.installed admitted.1 done
          split
          · exact ⟨next, .of_eq rfl (List.Subset.refl _) rfl rfl⟩
          · exact ⟨next.startRemoval _, .of_eq rfl (List.Subset.refl _) rfl rfl⟩

lemma kept_swap (h : Kept L config q s) (record : ObjectRecord) (new : String)
    (algorithm keyId : Option String) (now : Instant) :
    Kept L config q (s.swap L config q record new algorithm keyId now) ∧
      Aside s (s.swap L config q record new algorithm keyId now) := by
  unfold State.swap
  dsimp only [updateObjectEncryptionCas]
  split
  · exact ⟨h, .of_eq rfl (List.Subset.refl _) rfl rfl⟩
  · next admitted =>
      simp only [Bool.not_eq_true', Bool.not_eq_false, List.all_eq_true, List.mem_filter] at admitted
      have next : Kept L config q { s with table := (s.table.updateObjectEncryptionCas record.bucket
          record.key record.versionId record.blobId new algorithm keyId now).1 } := by
        refine ⟨fun r mem own shown live => ?_, fun r mem latest => ?_, h.halfway, h.ordered⟩
        · rcases mem_updateWhere mem with old | ⟨x, old, hit, rfl⟩
          · exact h.rows r old own shown live
          · exact whole_of_backed (admitted x ⟨old, hit⟩) own
        · rcases mem_updateWhere mem with old | ⟨x, old, -, rfl⟩
          · exact h.live r old latest
          · exact h.live x old latest
      split
      · exact ⟨h.startRemoval _, .of_eq rfl (List.Subset.refl _) rfl rfl⟩
      · split
        · exact ⟨next, .of_eq rfl (List.Subset.refl _) rfl rfl⟩
        · exact ⟨next.startRemoval _, .of_eq rfl (List.Subset.refl _) rfl rfl⟩

/-- What the GET has taken from the disk is what was written. Or the sidecar was gone, and
then so is the file that it looks for instead. -/
inductive Tracks (q : Request) (s : State) (r : ObjectRecord) (seen : Disk) (todo : List String) :
    Prop where
  | found (opened : List String) (plan : planned q s.written r = opened ++ todo)
      (files : ∀ x ∈ opened, seen.files x = s.written.files x)
      (sidecar : (readRow r).isSsec = false → seen.sidecars =
        update (fun _ => none) r.blobId (s.written.sidecars r.blobId))
  | lost (unkeyed : (readRow r).isSsec = false) (missing : seen.sidecars r.blobId = none)
      (plan : todo = [r.blobId]) (gone : r.blobId ∈ s.goneFiles)

def Sees (L : Libraries) (config : Config) (q : Request) (s : State) : Prop :=
  match s.phase with
  | .asked => True
  | .found r => some r ∈ s.moments ∧ Whole L config q s.written r
  | .opening r seen todo =>
    some r ∈ s.moments ∧ Whole L config q s.written r ∧ Tracks q s r seen todo
  | .noSuchKey => False
  | .answered r body =>
    some r ∈ s.moments ∧ Whole L config q s.written r ∧ body = getOn L config q s.written r

lemma Tracks.mono (whole : Whole L config q s.written r)
    (keeps : s.written.Keeps s'.written) (gone : s.goneFiles ⊆ s'.goneFiles)
    (h : Tracks q s r seen todo) : Tracks q s' r seen todo := by
  cases h with
  | found opened plan files sidecar =>
    obtain ⟨same, kept⟩ := whole.planned_keep keeps
    refine .found opened (same.trans plan) (fun x mem => ?_) fun unkeyed => ?_
    · rw [kept x (plan ▸ mem_append_left _ mem)]
      exact files x mem
    · obtain ⟨m, there, -⟩ := whole.sidecar
      rw [sidecar unkeyed, keeps.sidecars _ _ there, there]
  | lost unkeyed missing plan there => exact .lost unkeyed missing plan (gone there)

lemma Sees.mono (keeps : s.written.Keeps s'.written) (gone : s.goneFiles ⊆ s'.goneFiles)
    (moments : s.moments ⊆ s'.moments) (phase : s'.phase = s.phase) (h : Sees L config q s) :
    Sees L config q s' := by
  unfold Sees at h ⊢
  rw [phase]
  split at h
  · trivial
  · exact ⟨moments h.1, h.2.keep keeps⟩
  · exact ⟨moments h.1, h.2.1.keep keeps, h.2.2.mono h.2.1 keeps gone⟩
  · exact h
  · exact ⟨moments h.1, h.2.1.keep keeps, h.2.2.trans (h.2.1.getOn_keep keeps).symm⟩

lemma opens_none (id : String) (range : Option ByteRange) : opens id none range = [id] := rfl

lemma planned_unkeyed (unkeyed : (readRow r).isSsec = false) :
    planned q d r = opens r.blobId (d.sidecars r.blobId) q.range := by
  rw [planned, unkeyed]
  rfl

lemma Sees.consult (kept : Kept L config q s) (h : Sees L config q s) (at_row : s.phase = .found r) :
    Sees L config q (s.read L config q) := by
  obtain ⟨mem, whole⟩ : some r ∈ s.moments ∧ Whole L config q s.written r := by
    simpa only [Sees, at_row] using h
  unfold State.read
  simp only [at_row]
  cases keyed : (readRow r).isSsec with
  | true =>
    refine ⟨mem, whole, .found [] ?_ (by simp) fun unkeyed => ?_⟩
    · simp [planned, keyed]
    · rw [keyed] at unkeyed
      cases unkeyed
  | false =>
    refine ⟨mem, whole, ?_⟩
    by_cases removed : r.blobId ∈ s.goneSidecars
    · have none_read : s.disk.sidecars r.blobId = none := if_pos removed
      rw [none_read]
      exact .lost keyed (by simp) rfl (kept.ordered _ removed)
    · have all_read : s.disk.sidecars r.blobId = s.written.sidecars r.blobId := if_neg removed
      rw [all_read]
      exact .found [] (planned_unkeyed keyed) (by simp) fun _ => rfl

lemma Sees.openFile (h : Sees L config q s)
    (at_file : s.phase = .opening r seen (x :: todo)) (there : x ∉ s.goneFiles) :
    Sees L config q (s.read L config q) := by
  obtain ⟨mem, whole, tracks⟩ : some r ∈ s.moments ∧ Whole L config q s.written r ∧
      Tracks q s r seen (x :: todo) := by simpa only [Sees, at_file] using h
  have file : s.disk.files x = s.written.files x := if_neg there
  cases tracks with
  | lost unkeyed missing plan gone =>
    cases plan
    exact absurd gone there
  | found opened plan files sidecar =>
    have in_plan : x ∈ planned q s.written r := by rw [plan]; simp
    unfold State.read
    simp only [at_file, file, whole.files x in_plan, if_true]
    refine ⟨mem, whole, .found (opened ++ [x]) (by rw [plan]; simp) (fun y old => ?_) sidecar⟩
    by_cases same : y = x
    · rw [same]
      exact update_self ..
    · have before : y ∈ opened := by simpa [same] using old
      exact (update_of_ne same ..).trans (files y before)

lemma plain_of_tracks (whole : Whole L config q s.written r)
    (sidecar : seen.sidecars = update (fun _ => none) r.blobId (s.written.sidecars r.blobId)) :
    seen.Plain r.blobId := by
  intro m parts found listed
  rw [sidecar, update_self] at found
  obtain ⟨raw, single⟩ := whole.plain m parts found listed
  refine ⟨raw, fun p mem => ?_⟩
  rw [sidecar]
  by_cases same : p.blobId = r.blobId
  · rw [same, update_self, ← same]
    exact single p mem
  · rw [update_of_ne same]
    rfl

lemma Sees.finish (h : Sees L config q s) (at_end : s.phase = .opening r seen []) :
    Sees L config q (s.read L config q) := by
  obtain ⟨mem, whole, tracks⟩ : some r ∈ s.moments ∧ Whole L config q s.written r ∧
      Tracks q s r seen [] := by simpa only [Sees, at_end] using h
  cases tracks with
  | lost unkeyed missing plan gone => cases plan
  | found opened plan files sidecar =>
    rw [append_nil] at plan
    unfold State.read
    simp only [at_end]
    refine ⟨mem, whole, getOn_congr (fun keyed => ?_) fun unkeyed => ?_⟩
    · refine files _ (plan ▸ ?_)
      simp [planned, keyed]
    · refine ⟨?_, fun x opens => files x ?_, whole.plain, plain_of_tracks whole (sidecar unkeyed)⟩
      · rw [sidecar unkeyed, update_self]
      · rw [← plan, planned_unkeyed unkeyed]
        exact opens

/-- **A GET that is in time stays on its way.** -/
lemma Sees.read (kept : Kept L config q s) (h : Sees L config q s)
    (now : s.phase.finished = false → s.current q ∈ s.moments) (present : none ∉ s.moments)
    (timely : Timely s .read) : Sees L config q (s.read L config q) := by
  cases at_phase : s.phase with
  | asked =>
    rw [at_phase] at now
    have seen := now rfl
    unfold State.read
    simp only [at_phase]
    cases current : s.current q with
    | none =>
      rw [current] at seen
      exact absurd seen present
    | some r =>
      rw [current] at seen
      exact ⟨seen, kept.current current⟩
  | found r => exact h.consult kept at_phase
  | opening r seen todo =>
    cases todo with
    | nil => exact h.finish at_phase
    | cons x todo =>
      simp only [Timely, at_phase] at timely
      exact h.openFile at_phase (timely present)
  | noSuchKey => simp only [Sees, at_phase] at h
  | answered r body =>
    unfold State.read
    simp only [at_phase]
    exact h

/-- **A GET that comes after a removal does not deliver.** -/
lemma not_delivered
    (whole : Whole L config q s.written r) (tracks : Tracks q s r seen (x :: todo)) (bytes : Bytes) :
    getOn L config q { seen with files := update seen.files x none } r ≠ .ok bytes := by
  intro delivered
  have there : ∀ y ∈ planned q { seen with files := update seen.files x none } r, y ≠ x := by
    rintro y mem rfl
    have found := files_of_getOn (fun unkeyed => ?_) delivered y mem
    · simp at found
    · cases tracks with
      | found opened plan files sidecar => exact plain_of_tracks whole (sidecar unkeyed)
      | lost _ missing _ _ =>
        intro m parts sidecar
        rw [missing] at sidecar
        cases sidecar
  refine there x ?_ rfl
  cases tracks with
  | found opened plan files sidecar =>
    have same : planned q { seen with files := update seen.files x none } r =
        planned q s.written r := by
      unfold planned
      cases keyed : (readRow r).isSsec with
      | true => rfl
      | false => simp only [Bool.false_eq_true, if_false, sidecar keyed, update_self]
    rw [same, plan]
    simp
  | lost unkeyed missing plan _ =>
    cases plan
    rw [planned_unkeyed unkeyed, missing, opens_none]
    exact mem_singleton_self _

structure Inv (L : Libraries) (config : Config) (q : Request) (s : State) : Prop where
  kept : Kept L config q s
  now : s.phase.finished = false → s.current q ∈ s.moments
  sees : none ∈ s.moments ∨ Sees L config q s

lemma Inv.good (inv : Inv L config q s) : Good L config q s := by
  intro present
  have sees := inv.sees.resolve_left present
  cases at_phase : s.phase with
  | noSuchKey => simp only [Sees, at_phase] at sees
  | answered r body =>
    simp only [Sees, at_phase] at sees
    obtain ⟨bytes, delivered⟩ := sees.2.1.delivers
    exact ⟨sees.1, bytes, delivered, sees.2.2.trans delivered⟩
  | _ => trivial

lemma read_frame : (s.read L config q).table = s.table ∧ (s.read L config q).written = s.written ∧
    (s.read L config q).goneFiles = s.goneFiles ∧ (s.read L config q).goneSidecars = s.goneSidecars ∧
    (s.read L config q).removals = s.removals ∧ (s.read L config q).moments = s.moments := by
  unfold State.read
  split
  · split <;> exact ⟨rfl, rfl, rfl, rfl, rfl, rfl⟩
  · split <;> exact ⟨rfl, rfl, rfl, rfl, rfl, rfl⟩
  · dsimp only
    split <;> exact ⟨rfl, rfl, rfl, rfl, rfl, rfl⟩
  all_goals exact ⟨rfl, rfl, rfl, rfl, rfl, rfl⟩

lemma finished_read (finished : s.phase.finished = true) : s.read L config q = s := by
  unfold State.read
  cases at_phase : s.phase <;> simp_all [Phase.finished]

lemma Kept.read (h : Kept L config q s) : Kept L config q (s.read L config q) := by
  obtain ⟨table, written, files, sidecars, removals, -⟩ := @read_frame L config q s
  refine ⟨?_, ?_, ?_, ?_⟩
  · rw [table, written]
    exact h.rows
  · rw [table]
    exact h.live
  · rw [removals, files]
    exact h.halfway
  · rw [sidecars, files]
    exact h.ordered

lemma Kept.act (h : Kept L config q s) (e : Event) :
    Kept L config q (act L config q s e) ∧ (e = .read ∨ Aside s (act L config q s e)) := by
  cases e with
  | writeFile id bytes => exact (kept_writeFile h id bytes).imp_right .inr
  | writeSidecar id m => exact (kept_writeSidecar h id m).imp_right .inr
  | put record pre uuid => exact (kept_put h record pre uuid).imp_right .inr
  | swap record new algorithm keyId now => exact (kept_swap h record new algorithm keyId now).imp_right .inr
  | remove i => exact (kept_remove h i).imp_right .inr
  | read => exact ⟨h.read, .inl rfl⟩

lemma Inv.acted (inv : Inv L config q s) (timely : Timely s e) :
    none ∈ s.moments ∨ Sees L config q (act L config q s e) := by
  by_cases present : none ∈ s.moments
  · exact .inl present
  · refine .inr ?_
    have sees := inv.sees.resolve_left present
    rcases (inv.kept.act e).2 with rfl | aside
    · exact sees.read inv.kept inv.now present timely
    · exact sees.mono aside.keeps aside.gone (aside.moments ▸ List.Subset.refl _) aside.phase

lemma act_moments (h : Kept L config q s) (e : Event) : (act L config q s e).moments = s.moments := by
  rcases (h.act e).2 with rfl | aside
  · exact read_frame.2.2.2.2.2
  · exact aside.moments

lemma Inv.next (inv : Inv L config q s) (timely : Timely s e) :
    Inv L config q (step L config q s e) := by
  have kept := (inv.kept.act e).1
  have sees := inv.acted timely
  have moments := act_moments inv.kept e
  unfold step
  split
  · next finished =>
      refine ⟨kept, fun running => ?_, by rw [moments]; exact sees⟩
      rcases (inv.kept.act e).2 with rfl | aside
      · rw [show act L config q s .read = s from finished_read finished, finished] at running
        cases running
      · rw [aside.phase, finished] at running
        cases running
  · refine ⟨⟨kept.rows, kept.live, kept.halfway, kept.ordered⟩, fun _ => mem_cons_self, ?_⟩
    refine sees.imp (mem_cons_of_mem _) fun h => ?_
    refine Sees.mono (s := act L config q s e) (.refl _) (List.Subset.refl _) ?_ rfl h
    rw [moments]
    exact subset_cons_self ..

lemma Inv.breach (inv : Inv L config q s) (late : ¬ Timely s e) :
    ¬ Good L config q (step L config q s e) := by
  cases e with
  | read =>
    cases at_phase : s.phase with
    | opening r seen todo =>
      cases todo with
      | nil => exact absurd (by simp [Timely, at_phase]) late
      | cons x todo =>
        simp only [Timely, at_phase, not_forall, not_not] at late
        obtain ⟨present, gone⟩ := late
        have sees := inv.sees.resolve_left present
        simp only [Sees, at_phase] at sees
        have current : s.current q ∈ s.moments := inv.now (by rw [at_phase]; rfl)
        have missing : s.disk.files x = none := if_pos gone
        intro good
        unfold step act State.read at good
        simp only [at_phase, Phase.finished, missing, isSome_none, Bool.false_eq_true,
          if_false] at good
        obtain ⟨-, bytes, -, delivered⟩ := good (by
          rw [mem_cons, not_or]
          exact ⟨fun absent => present (absent ▸ current), present⟩)
        exact not_delivered sees.2.1 sees.2.2 bytes delivered
    | _ => exact absurd (by simp [Timely, at_phase]) late
  | _ => exact absurd trivial late

end

/-- A store in which every object of the key is whole, at the moment the GET arrives. There may be
removals on their way. -/
structure Start where
  state : State
  kept : Kept L config q state
  asked : state.phase = .asked
  arrived : state.moments = [state.current q]

lemma Start.inv (start : Start L config q) : Inv L config q start.state := by
  refine ⟨start.kept, fun _ => ?_, .inr ?_⟩
  · rw [start.arrived]
    exact mem_singleton_self _
  · simp only [Sees, start.asked]

/-- **A GET returns all of an object that was current during the request, exactly when no
removal reaches a file of the blob before the GET opens it.** -/
theorem get_of_existing_key_whole_iff (start : Start L config q) (events : List Event) :
    Run.Always (step L config q) (Good L config q) start.state events ↔
      Run.Each (step L config q) Timely start.state events :=
  Run.always_iff_each_of_invariant (fun _ inv => inv.good) (fun _ _ inv timely => inv.next timely)
    (fun _ _ inv late => inv.breach late) start.inv events

def sampleSidecar (size : ℕ) : SidecarMeta where
  bucket := "b"
  key := "k"
  size := size
  etag := "e"
  contentType := none
  lastModified := "2026-01-01T00:00:00+00:00"
  metadata := []
  encryption := none
  compression := none
  versionId := none
  composite := none

def sampleRequest : Request := ⟨"b", "k", none, none⟩

def sampleState : State where
  table := ⟨[written], fun _ => .unversioned, false⟩
  clustered := false
  written := ⟨update (fun _ => none) "5" (some [1, 2, 3]),
    update (fun _ => none) "5" (some (sampleSidecar 3))⟩
  goneFiles := []
  goneSidecars := []
  removals := []
  phase := .asked
  moments := [some written]

def sampleStart : Start L ⟨none, false⟩ sampleRequest where
  state := sampleState
  kept := by
    refine ⟨fun r mem _ _ _ => ?_, fun r mem _ => ?_, by simp [sampleState], by simp [sampleState]⟩
    · obtain rfl := mem_singleton.mp mem
      exact ⟨⟨sampleSidecar 3, rfl, rfl⟩, [1, 2, 3], rfl⟩
    · obtain rfl := mem_singleton.mp mem
      rfl
  asked := rfl
  arrived := rfl

/-- The row is looked up, the key is overwritten, the old file is removed, and the GET opens it. -/
def overtaken : List Event :=
  [.read, .writeFile "4" [7, 8, 9], .writeSidecar "4" (sampleSidecar 3),
    .put overwrite (fun _ => true) "v", .remove 0, .remove 0, .read, .read]

/-- How the GET failed, if it did. -/
def Phase.failure : Phase → Option (ObjectRecord × Failure)
  | .answered r (.error e) => some (r, e)
  | _ => none

def sampleStep : State → Event → State := step sampleAuthentic.toLibraries ⟨none, false⟩ sampleRequest

/-- The key has an object at every moment, and the GET fails because a blob is missing. -/
theorem overtaken_get_misses_its_blob :
    (overtaken.foldl sampleStep sampleState).phase.failure = some (written,
      .store (.internal "open blob: No such file or directory (os error 2)")) ∧
    none ∉ (overtaken.foldl sampleStep sampleState).moments ∧
    ¬ Run.Always sampleStep (Good sampleAuthentic.toLibraries ⟨none, false⟩ sampleRequest)
      (sampleStart sampleAuthentic.toLibraries).state overtaken := by
  have failed : (overtaken.foldl sampleStep sampleState).phase.failure = some (written,
      .store (.internal "open blob: No such file or directory (os error 2)")) := by decide +kernel
  have present : none ∉ (overtaken.foldl sampleStep sampleState).moments := by decide +kernel
  refine ⟨failed, present, fun always => ?_⟩
  have good := always.last present
  unfold Phase.failure at failed
  split at failed
  · next answered =>
      obtain ⟨-, bytes, -, delivered⟩ := good
      cases delivered
  · cases failed

end Arca.Blob.LiveReads
