import Arca.Blob.LiveReads
import Arca.Maintenance.RecryptJob

/-!
# Rows under the re-encryption job

A row is known by the blob it was first seen with; a swap hands the name on. A row that
is there from the start of the job keeps its plaintext and every column but those of the
swap, whatever clients do to the store.
-/
namespace Arca.Recrypt
open ObjectTable BucketLife Lifecycle Blob List

section
variable (L : Libraries) (mk : MasterKey) (ssec : Bool)

def plaintext (customerKey : Option Bytes) (d : Disk) (r : ObjectRecord) :
    Except Readers.Failure Bytes :=
  LiveReads.getOn L ⟨some mk, ssec⟩ ⟨r.bucket, r.key, none, customerKey⟩ d r

def Reads (d : Disk) (id : String) (content : Bytes) : Prop :=
  ∃ length, readBlob L (some mk) d id none = .ok ⟨.ok content, length⟩

variable {L mk ssec} {d d' : Disk} {r x : ObjectRecord} {id : String}

lemma plaintext_congr (customerKey : Option Bytes) (same : d.SameOn d' (d.reach r.blobId))
    (plain : d.Plain r.blobId) :
    plaintext L mk ssec customerKey d' r = plaintext L mk ssec customerKey d r :=
  LiveReads.getOn_congr (fun _ => (same _ mem_cons_self).1) fun _ => same.agree plain none

lemma plaintext_unkeyed (customerKey : Option Bytes)
    (unkeyed : r.encryptionAlgorithm ≠ some "SSE-C") : plaintext L mk ssec customerKey d r =
      Readers.collect (readBlob L (some mk) d r.blobId none) := by
  have row : (LiveReads.readRow r).isSsec = false := decide_eq_false unkeyed
  simp only [plaintext, LiveReads.getOn, Readers.deliver, Readers.requireKey, Readers.checkRange,
    Readers.openObject, row, Bool.false_eq_true, false_and, if_false]
  rfl

variable {content : Bytes}

lemma Reads.collect (h : Reads L mk d id content) :
    Readers.collect (readBlob L (some mk) d id none) = .ok content := by
  obtain ⟨length, read⟩ := h
  rw [read]
  rfl

lemma Reads.congr (h : Reads L mk d id content)
    (same : d.SameOn d' (d.reach id)) (plain : d.Plain id) : Reads L mk d' id content := by
  obtain ⟨length, read⟩ := h
  exact ⟨length, (readBlob_agree (same.agree plain none)).trans read⟩

lemma decryptFull_size {key nonce4 file content : Bytes} {n length : ℕ} (m : ℕ)
    (h : decryptFull L key nonce4 n file = .ok ⟨.ok content, length⟩) :
    decryptFull L key nonce4 m file = .ok ⟨.ok content, m⟩ := by
  unfold decryptFull at h ⊢
  obtain ⟨chunkSize, header, h⟩ := ok_of_bind h
  obtain ⟨k, made, h⟩ := ok_of_bind h
  rw [header, ok_bind, made, ok_bind]
  have stream := congrArg BlobGetResult.stream (Except.ok.inj h)
  exact congrArg (fun s => Except.ok (BlobGetResult.mk s m)) stream

lemma reads_of_payload {m : Blob.SidecarMeta} (sidecar : d.sidecars id = some m)
    (no_parts : m.composite = none) (raw : m.compression = none)
    (payload : Payload L (some mk) d id m.encryption content) : Reads L mk d id content := by
  unfold Reads
  rw [readBlob_of_raw sidecar raw]
  generalize told : m.encryption = e at payload
  cases payload with
  | plain file =>
    rw [innerGet_file no_parts (.inr told) file]
    exact ⟨_, rfl⟩
  | @sealed _ dek nonce4 held info key dek_eq length nonce_eq file =>
    cases key
    rw [innerGet_sealed no_parts told, getEncrypted_eq dek_eq nonce_eq file]
    exact ⟨_, decryptFull_size _ (decryptFull_file length)⟩

end

def stripped (r : ObjectRecord) : ObjectRecord :=
  { settled r with
    blobId := "", encryptionAlgorithm := none, encryptionKeyId := none, contentUpdatedAt := none }

def inTarget (direction : RecryptDirection) (r : ObjectRecord) : Bool :=
  match direction with
  | .encrypt => r.encryptionAlgorithm.isSome
  | .decrypt => r.encryptionAlgorithm.isNone

def eligible (r : ObjectRecord) : Bool :=
  !r.isDeleteMarker && !r.isTombstone && r.blobId ≠ "" && r.encryptionAlgorithm ≠ some "SSE-C" &&
    !isMultipartEtag r.etag

/-- The row `r` of `s` is the row `r₀` of the start. -/
structure Lasts (s₀ s : State) (r₀ r : ObjectRecord) : Prop where
  first : r₀ ∈ s₀.tables.objects
  last : r ∈ s.tables.objects
  named : r₀.blobId ≠ ""
  object : r.blobId ≠ ""
  same : s.origin r.blobId = r₀.blobId

lemma Lasts.congr {s₀ s s' : State} {r₀ r : ObjectRecord}
    (h : Lasts s₀ s' r₀ r) (rows : s'.tables.objects = s.tables.objects)
    (origin : s'.origin = s.origin) : Lasts s₀ s r₀ r :=
  ⟨h.first, rows ▸ h.last, h.named, h.object, origin ▸ h.same⟩

variable (L : Libraries) (mk : MasterKey) (ssec : Bool) (job : Job) (clustered : Bool)

/-- What became of a row that lasts. -/
structure Carries (s₀ s : State) (r₀ r : ObjectRecord) : Prop where
  columns : stripped r = stripped r₀
  kept : r.blobId = r₀.blobId → settled r = settled r₀
  swapped : r.blobId ≠ r₀.blobId → isRecryptCandidate job.direction r₀ = true ∧
    inTarget job.direction r = true ∧ r.bucket ∈ s.listed
  missed : r₀.blobId ∈ s.demoted → r.blobId = r₀.blobId
  content : ∀ customerKey bytes, plaintext L mk ssec customerKey s₀.disk r₀ = .ok bytes →
    plaintext L mk ssec customerKey s.disk r = .ok bytes

structure Kept (s₀ s : State) : Prop where
  separate : Separate s.disk s.tables.objects
  owned : ∀ r ∈ s.tables.objects, r.blobId ≠ "" → ∀ x ∈ s.disk.reach r.blobId, x ∈ s.used
  fresh : ∀ b, b ∉ s.used → s.origin b = b
  traced : ∀ b ∈ s.used, s.origin b ∈ s.used
  one : ∀ a ∈ s.tables.objects, ∀ b ∈ s.tables.objects, a.blobId ≠ "" → b.blobId ≠ "" →
    s.origin a.blobId = s.origin b.blobId → a = b
  first : ∀ r ∈ s₀.tables.objects, r.blobId ≠ "" → r.blobId ∈ s.used
  carries : ∀ r₀ r, Lasts s₀ s r₀ r → Carries L mk ssec job s₀ s r₀ r

section
variable {L mk ssec job clustered} {s₀ s s' : State} {r r₀ x : ObjectRecord} {d : Disk}

/-- What `settled` does not blank is the same in rows that it makes equal. -/
lemma of_settled {β : Type} (f : ObjectRecord → β) (reads : ∀ r, f (settled r) = f r)
    (same : settled x = settled r) : f x = f r := by
  rw [← reads x, same, reads r]

lemma Separate.plain (h : Separate d s.tables.objects) (mem : r ∈ s.tables.objects)
    (object : r.blobId ≠ "") : d.Plain r.blobId := by
  refine plain_of_flat fun m sidecar => ?_
  have all := h.flat r mem object
  rwa [sidecar] at all

variable {rows : List ObjectRecord} {direction : RecryptDirection} {f : ObjectRecord → ObjectRecord}

lemma Separate.inj (h : Separate d rows) (memr : r ∈ rows)
    (memx : x ∈ rows) (object : r.blobId ≠ "") (same : x.blobId = r.blobId) : x = r :=
  h.blobs x memx r memr (same ▸ object) object ⟨x.blobId, mem_cons_self, by
    rw [same]
    exact mem_cons_self⟩

lemma Separate.onDisk (h : Separate s.disk rows)
    (same : ∀ r ∈ rows, r.blobId ≠ "" → s.disk.SameOn d (s.disk.reach r.blobId)) :
    Separate d rows := by
  refine ⟨fun a ha b hb na nb meet => ?_, h.versions, fun r mem object => ?_⟩
  · rw [(same a ha na).reach_eq, (same b hb nb).reach_eq] at meet
    exact h.blobs a ha b hb na nb meet
  · have all := h.flat r mem object
    rw [(same r mem object).sidecar]
    cases sidecar : s.disk.sidecars r.blobId with
    | none => rfl
    | some m =>
      rw [sidecar] at all
      exact (same r mem object).flat sidecar all

lemma Kept.onDisk (h : Kept L mk ssec job s₀ s) (d : Disk) (more : List String)
    (same : ∀ r ∈ s.tables.objects, r.blobId ≠ "" → s.disk.SameOn d (s.disk.reach r.blobId))
    (new : ∀ b ∈ more, s.origin b = b) (phase : Phase) (errors : ℕ) :
    Kept L mk ssec job s₀ { s with disk := d, used := more ++ s.used, phase, errors } := by
  refine ⟨h.separate.onDisk same, fun r mem object x reached => ?_, fun b unused => ?_,
    fun b used => ?_, h.one, fun r mem named => mem_append_right _ (h.first r mem named), ?_⟩
  · rw [(same r mem object).reach_eq] at reached
    exact mem_append_right _ (h.owned r mem object x reached)
  · exact h.fresh b fun used => unused (mem_append_right _ used)
  · rcases mem_append.mp used with drawn | old
    · rw [new b drawn]
      exact used
    · exact mem_append_right _ (h.traced b old)
  · intro r₀ r lasts
    have carried := h.carries r₀ r (lasts.congr rfl rfl)
    refine ⟨carried.columns, carried.kept, carried.swapped, carried.missed, ?_⟩
    intro customerKey bytes delivered
    rw [plaintext_congr customerKey (same r lasts.last lasts.object)
      (h.separate.plain lasts.last lasts.object)]
    exact carried.content customerKey bytes delivered

lemma Kept.onPhase (h : Kept L mk ssec job s₀ s) (phase : Phase) (errors : ℕ) :
    Kept L mk ssec job s₀ { s with phase, errors } :=
  h.onDisk s.disk [] (fun _ _ _ _ _ => ⟨rfl, rfl⟩) nofun phase errors

lemma mem_owned {y : String} :
    y ∈ s.owned ↔ ∃ r ∈ s.tables.objects, r.blobId ≠ "" ∧ y ∈ s.disk.reach r.blobId := by
  simp only [State.owned, mem_flatMap, mem_filter, decide_eq_true_eq, and_assoc]

lemma ClientRows.cases (h : ClientRows s.disk s.used s.tables.objects rows)
    (kept : Kept L mk ssec job s₀ s) (mem : r ∈ rows) (object : r.blobId ≠ "") :
    (∃ x ∈ s.tables.objects, x.blobId = r.blobId ∧ settled x = settled r ∧ r.blobId ∈ s.used) ∨
      r.blobId ∉ s.used := by
  rcases h.origin r mem object with ⟨x, old, blob, same⟩ | new
  · refine .inl ⟨x, old, blob, same, blob ▸ kept.owned x old (blob ▸ object) _ mem_cons_self⟩
  · exact .inr (new _ mem_cons_self)

/-- **Clients** leave what holds of the store. -/
lemma Kept.clientRows (h : Kept L mk ssec job s₀ s)
    (client : ClientRows s.disk s.used s.tables.objects rows) :
    Kept L mk ssec job s₀ (s.clientRows rows) := by
  unfold State.clientRows
  rw [if_pos client]
  refine ⟨client.separate, fun r mem object x reached => ?_, fun b unused => ?_, fun b used => ?_,
    fun a ha b hb na nb same => ?_, fun r mem named => mem_append_right _ (h.first r mem named), ?_⟩
  · exact mem_append_left _ (mem_owned.mpr ⟨r, mem, object, reached⟩)
  · exact h.fresh b fun used => unused (mem_append_right _ used)
  · by_cases old : b ∈ s.used
    · exact mem_append_right _ (h.traced b old)
    · rw [h.fresh b old]
      exact used
  · have origins : s.origin a.blobId = s.origin b.blobId := same
    refine client.separate.inj hb ha nb ?_
    rcases client.cases h ha na with ⟨x, hx, blob, -, used⟩ | new
    · rcases client.cases h hb nb with ⟨y, hy, blob', -, -⟩ | new'
      · rw [← blob, ← blob'] at origins ⊢
        rw [h.one x hx y hy (blob ▸ na) (blob' ▸ nb) origins]
      · rw [h.fresh _ new'] at origins
        exact absurd (origins ▸ h.traced _ used) new'
    · rw [h.fresh _ new] at origins
      by_cases used : b.blobId ∈ s.used
      · exact absurd (origins ▸ h.traced _ used) new
      · rw [h.fresh _ used] at origins
        exact origins
  · intro r₀ r lasts
    have same : s.origin r.blobId = r₀.blobId := lasts.same
    rcases client.cases h lasts.last lasts.object with ⟨x, old, blob, settled_eq, -⟩ | new
    · have before : Lasts s₀ s r₀ x :=
        ⟨lasts.first, old, lasts.named, blob ▸ lasts.object, blob ▸ same⟩
      have carried := h.carries r₀ x before
      have strip : stripped x = stripped r := by rw [stripped, stripped, settled_eq]
      have bucket := of_settled ObjectRecord.bucket (fun _ => rfl) settled_eq
      have target := of_settled (inTarget job.direction) (fun _ => rfl) settled_eq
      refine ⟨strip ▸ carried.columns, fun unswapped => ?_, fun swapped => ?_, fun missed => ?_, ?_⟩
      · exact settled_eq ▸ carried.kept (blob.trans unswapped)
      · obtain ⟨candidate, reached, listed⟩ := carried.swapped (blob ▸ swapped)
        exact ⟨candidate, target ▸ reached, bucket ▸ listed⟩
      · exact blob ▸ carried.missed missed
      · intro customerKey bytes delivered
        have read := of_settled (plaintext L mk ssec customerKey s.disk) (fun _ => rfl) settled_eq
        exact read ▸ carried.content customerKey bytes delivered
    · rw [h.fresh _ new] at same
      exact absurd (same ▸ h.first r₀ lasts.first lasts.named) new

def Phase.pending : Phase → List ObjectRecord
  | .scanning _ _ out => out
  | .next queue | .reclaiming _ queue => queue
  | .fetching record queue | .storing record _ queue | .swapping record _ _ queue => record :: queue
  | .listing | .completed | .ended => []

structure Queued (job : Job) (s : State) (x : ObjectRecord) : Prop where
  candidate : isRecryptCandidate job.direction x = true
  used : x.blobId ∈ s.used
  unswapped : s.origin x.blobId = x.blobId
  listed : x.bucket ∈ s.listed
  rows : ∀ r ∈ s.tables.objects, r.blobId = x.blobId → settled r = settled x

lemma Queued.congr (h : Queued job s x) (rows : s'.tables.objects = s.tables.objects)
    (origin : s'.origin = s.origin) (listed : s'.listed = s.listed) (more : s.used ⊆ s'.used) :
    Queued job s' x :=
  ⟨h.candidate, more h.used, origin ▸ h.unswapped, listed ▸ h.listed, rows ▸ h.rows⟩

/-- The new blob holds the content of the old one, and is nobody's yet. -/
structure Copied (L : Libraries) (mk : MasterKey) (job : Job) (s : State) (x : ObjectRecord)
    (new : String) (encryption : Option EncryptionInfo) (queue : List ObjectRecord) : Prop where
  used : new ∈ s.used
  named : new ≠ ""
  apart : ∀ y ∈ x :: queue, y.blobId ≠ new
  unowned : ∀ r ∈ s.tables.objects, r.blobId ≠ "" → new ∉ s.disk.reach r.blobId
  sidecar : ∃ m, s.disk.sidecars new = some m ∧ m.composite = none
  algorithm : encryption.map EncryptionInfo.algorithm = match job.direction with
    | .encrypt => some "AES256"
    | .decrypt => none
  reads : ∃ content, Reads L mk s.disk new content ∧
    ∀ r ∈ s.tables.objects, r.blobId = x.blobId → Reads L mk s.disk x.blobId content

lemma candidate_named (h : isRecryptCandidate direction x = true) : x.blobId ≠ "" := by
  intro unnamed
  simp [isRecryptCandidate, unnamed] at h

lemma candidate_unkeyed
    (h : isRecryptCandidate direction x = true) : x.encryptionAlgorithm ≠ some "SSE-C" := by
  intro keyed
  simp [isRecryptCandidate, keyed] at h

lemma mem_updateWhere_iff {p : ObjectRecord → Bool} : r ∈ updateWhere p f rows ↔
      (∃ y ∈ rows, p y = true ∧ r = f y) ∨ r ∈ rows ∧ p r = false := by
  simp only [updateWhere, mem_map]
  constructor
  · rintro ⟨y, mem, rfl⟩
    by_cases hit : p y = true
    · exact .inl ⟨y, mem, hit, by rw [if_pos hit]⟩
    · rw [if_neg hit]
      exact .inr ⟨mem, by simpa using hit⟩
  · rintro (⟨y, mem, hit, rfl⟩ | ⟨mem, miss⟩)
    · exact ⟨y, mem, if_pos hit⟩
    · exact ⟨r, mem, by simp [miss]⟩

lemma reach_single {new : String} {m : Blob.SidecarMeta} (sidecar : d.sidecars new = some m)
    (single : m.composite = none) : d.reach new = [new] := by
  simp [Disk.reach, sidecar, single]

lemma swaps_blobId (h : swaps x.bucket x.key x.versionId x.blobId r = true) : r.blobId = x.blobId := by
  simp only [swaps, Bool.and_eq_true, decide_eq_true_eq] at h
  exact h.2

/-- The rows after a swap that found `y`: that one with the new blob, and the others, which
have other blobs. -/
lemma mem_swapped (h : Kept L mk ssec job s₀ s) {y : ObjectRecord} (mem : y ∈ s.tables.objects)
    (hit : swaps x.bucket x.key x.versionId x.blobId y = true) (named : x.blobId ≠ "") :
    r ∈ updateWhere (swaps x.bucket x.key x.versionId x.blobId) f s.tables.objects ↔
      r = f y ∨ r ∈ s.tables.objects ∧ r.blobId ≠ x.blobId := by
  have blob := swaps_blobId hit
  have only : ∀ z ∈ s.tables.objects, z.blobId = x.blobId → z = y := fun z hz same =>
    h.separate.inj mem hz (blob ▸ named) (same.trans blob.symm)
  rw [mem_updateWhere_iff]
  constructor
  · rintro (⟨z, hz, found, rfl⟩ | ⟨hz, miss⟩)
    · rw [only z hz (swaps_blobId found)]
      exact .inl rfl
    · refine .inr ⟨hz, fun same => ?_⟩
      rw [only r hz same, hit] at miss
      cases miss
  · rintro (rfl | ⟨hz, other⟩)
    · exact .inl ⟨y, mem, hit, rfl⟩
    · refine .inr ⟨hz, ?_⟩
      rw [Bool.eq_false_iff]
      exact fun found => other (swaps_blobId found)

section Swap
variable {new : String} {encryption : Option EncryptionInfo} {queue : List ObjectRecord}
  {y : ObjectRecord} {now : Instant}

def renewed (new : String) (encryption : Option EncryptionInfo) (now : Instant) (r : ObjectRecord) :
    ObjectRecord :=
  withBlob new (encryption.map EncryptionInfo.algorithm) (encryption.map EncryptionInfo.keyId) now r

lemma separate_swap (h : Kept L mk ssec job s₀ s) (copied : Copied L mk job s x new encryption queue)
    (mem : y ∈ s.tables.objects) (hit : swaps x.bucket x.key x.versionId x.blobId y = true)
    (named : x.blobId ≠ "") : Separate s.disk (updateWhere
      (swaps x.bucket x.key x.versionId x.blobId) (renewed new encryption now) s.tables.objects) := by
  obtain ⟨m, sidecar, single⟩ := copied.sidecar
  have reach := reach_single sidecar single
  have swapped := fun r => mem_swapped (r := r) (f := renewed new encryption now) h mem hit named
  refine ⟨fun a ha b hb na nb meet => ?_, fun a ha b hb la lb bucket key version => ?_,
    fun r hr object => ?_⟩
  · obtain ⟨z, hza, hzb⟩ := meet
    rcases (swapped a).mp ha with rfl | ⟨ha, -⟩
    · rcases (swapped b).mp hb with rfl | ⟨hb, -⟩
      · rfl
      · have z_new : z = new := mem_singleton.mp (reach ▸ hza)
        exact absurd (z_new ▸ hzb) (copied.unowned b hb nb)
    · rcases (swapped b).mp hb with rfl | ⟨hb, -⟩
      · have z_new : z = new := mem_singleton.mp (reach ▸ hzb)
        exact absurd (z_new ▸ hza) (copied.unowned a ha na)
      · exact h.separate.blobs a ha b hb na nb ⟨z, hza, hzb⟩
  · rcases (swapped a).mp ha with rfl | ⟨ha, other⟩
    · rcases (swapped b).mp hb with rfl | ⟨hb, other⟩
      · rfl
      · have same := h.separate.versions y mem b hb la lb bucket key version
        exact absurd (same ▸ swaps_blobId hit) other
    · rcases (swapped b).mp hb with rfl | ⟨hb, -⟩
      · have same := h.separate.versions a ha y mem la lb bucket key version
        exact absurd (same ▸ swaps_blobId hit) other
      · exact h.separate.versions a ha b hb la lb bucket key version
  · rcases (swapped r).mp hr with rfl | ⟨hr, -⟩
    · have flat : m.flat s.disk = true := by simp [SidecarMeta.flat, single]
      rw [show (renewed new encryption now y).blobId = new from rfl, sidecar]
      exact flat
    · exact h.separate.flat r hr object

def State.swapped (s : State) (x : ObjectRecord) (new : String) (encryption : Option EncryptionInfo)
    (now : Instant) (phase : Phase) : State :=
  { s with
    tables := { s.tables with
      objects := updateWhere (swaps x.bucket x.key x.versionId x.blobId) (renewed new encryption now)
        s.tables.objects }
    origin := Function.update s.origin new (s.origin x.blobId)
    demoted := s.demoted.filter (· ≠ s.origin x.blobId)
    phase }

lemma origin_renewed (phase : Phase) :
    (s.swapped x new encryption now phase).origin new = s.origin x.blobId := Function.update_self ..

section
variable (copied : Copied L mk job s x new encryption queue)
include copied

lemma origin_other (phase : Phase) (mem : r ∈ s.tables.objects) (object : r.blobId ≠ "") :
    (s.swapped x new encryption now phase).origin r.blobId = s.origin r.blobId := by
  refine Function.update_of_ne (fun same => ?_) ..
  exact copied.unowned r mem object (same ▸ mem_cons_self)

lemma inTarget_renewed : inTarget job.direction (renewed new encryption now y) = true := by
  have algorithm : (renewed new encryption now y).encryptionAlgorithm = match job.direction with
    | .encrypt => some "AES256"
    | .decrypt => none := copied.algorithm
  unfold inTarget
  cases direction : job.direction <;> simp [algorithm, direction]

lemma unkeyed_renewed : (renewed new encryption now y).encryptionAlgorithm ≠ some "SSE-C" := by
  have algorithm : (renewed new encryption now y).encryptionAlgorithm = match job.direction with
    | .encrypt => some "AES256"
    | .decrypt => none := copied.algorithm
  rw [algorithm]
  cases job.direction <;> simp

end

lemma carries_renewed (h : Kept L mk ssec job s₀ s) (queued : Queued job s x)
    (copied : Copied L mk job s x new encryption queue) (mem : y ∈ s.tables.objects)
    (blob : y.blobId = x.blobId) (phase : Phase) (before : Lasts s₀ s r₀ y) :
    Carries L mk ssec job s₀ (s.swapped x new encryption now phase) r₀ (renewed new encryption now y) := by
  have carried := h.carries r₀ y before
  have same := queued.rows y mem blob
  have name : s.origin x.blobId = r₀.blobId := blob ▸ before.same
  have unkeyed : y.encryptionAlgorithm ≠ some "SSE-C" := by
    rw [of_settled ObjectRecord.encryptionAlgorithm (fun _ => rfl) same]
    exact candidate_unkeyed queued.candidate
  refine ⟨carried.columns, fun unswapped => ?_, fun _ => ⟨?_, inTarget_renewed copied, ?_⟩,
    fun missed => ?_, fun customerKey bytes delivered => ?_⟩
  · have drawn : new = r₀.blobId := unswapped
    exact absurd (queued.unswapped.symm.trans (name.trans drawn.symm))
      (copied.apart x mem_cons_self)
  · have first := carried.kept (blob.trans (queued.unswapped.symm.trans name))
    exact of_settled (isRecryptCandidate job.direction) (fun _ => rfl) (same.symm.trans first) ▸
      queued.candidate
  · have bucket := of_settled ObjectRecord.bucket (fun _ => rfl) same
    exact bucket ▸ queued.listed
  · have other : r₀.blobId ≠ s.origin x.blobId := by simpa using (mem_filter.mp missed).2
    exact absurd name.symm other
  · obtain ⟨content, new_reads, old_reads⟩ := copied.reads
    have old := carried.content customerKey bytes delivered
    rw [plaintext_unkeyed customerKey unkeyed, blob, (old_reads y mem blob).collect] at old
    rw [plaintext_unkeyed customerKey (unkeyed_renewed copied)]
    exact new_reads.collect.trans old

/-- **A swap that finds its row** leaves what holds of the store. -/
lemma Kept.swapped (h : Kept L mk ssec job s₀ s) (queued : Queued job s x)
    (copied : Copied L mk job s x new encryption queue) (mem : y ∈ s.tables.objects)
    (hit : swaps x.bucket x.key x.versionId x.blobId y = true) (phase : Phase) :
    Kept L mk ssec job s₀ (s.swapped x new encryption now phase) := by
  have named := candidate_named queued.candidate
  have blob := swaps_blobId hit
  obtain ⟨m, sidecar, single⟩ := copied.sidecar
  have reach := reach_single sidecar single
  have rows := fun r => mem_swapped (r := r) (f := renewed new encryption now) h mem hit named
  refine ⟨separate_swap h copied mem hit named, fun r hr object z reached => ?_, fun b unused => ?_,
    fun b used => ?_, fun a ha b hb na nb same => ?_, h.first, ?_⟩
  · rcases (rows r).mp hr with rfl | ⟨hr, -⟩
    · have z_new : z = new := mem_singleton.mp (reach ▸ reached)
      exact z_new ▸ copied.used
    · exact h.owned r hr object z reached
  · have other : b ≠ new := fun same => unused (same ▸ copied.used)
    exact (Function.update_of_ne other ..).trans (h.fresh b unused)
  · by_cases drawn : b = new
    · rw [drawn, origin_renewed]
      exact h.traced _ queued.used
    · rw [show (s.swapped x new encryption now phase).origin b = s.origin b from
        Function.update_of_ne drawn ..]
      exact h.traced b used
  · rcases (rows a).mp ha with rfl | ⟨ha, other⟩
    · rcases (rows b).mp hb with rfl | ⟨hb, other⟩
      · rfl
      · rw [show (renewed new encryption now y).blobId = new from rfl, origin_renewed,
          origin_other copied phase hb nb, ← blob] at same
        exact absurd (h.one y mem b hb (blob ▸ named) nb same ▸ blob) other
    · rcases (rows b).mp hb with rfl | ⟨hb, -⟩
      · rw [show (renewed new encryption now y).blobId = new from rfl, origin_renewed,
          origin_other copied phase ha na, ← blob] at same
        exact absurd (h.one a ha y mem na (blob ▸ named) same ▸ blob) other
      · rw [origin_other copied phase ha na, origin_other copied phase hb nb] at same
        exact h.one a ha b hb na nb same
  · intro r₀ r lasts
    rcases (rows r).mp lasts.last with rfl | ⟨hr, -⟩
    · have same : s.origin y.blobId = r₀.blobId := by
        rw [blob, ← lasts.same]
        exact (origin_renewed phase).symm
      exact carries_renewed h queued copied mem blob phase
        ⟨lasts.first, mem, lasts.named, blob ▸ named, same⟩
    · have before : Lasts s₀ s r₀ r :=
        ⟨lasts.first, hr, lasts.named, lasts.object, origin_other copied phase hr lasts.object ▸ lasts.same⟩
      have carried := h.carries r₀ r before
      exact ⟨carried.columns, carried.kept, carried.swapped,
        fun missed => carried.missed (mem_filter.mp missed).1, carried.content⟩

/-- **A swap that finds none** records whether its row was demoted. -/
lemma Kept.unswapped (h : Kept L mk ssec job s₀ s) (queued : Queued job s x) (phase : Phase)
    {demoted : List String} (recorded : ∀ b ∈ demoted, b ∈ s.demoted ∨
      b = s.origin x.blobId ∧ ∃ z ∈ s.tables.objects, z.blobId = x.blobId) :
    Kept L mk ssec job s₀ { s with demoted, phase } := by
  refine ⟨h.separate, h.owned, h.fresh, h.traced, h.one, h.first, fun r₀ r lasts => ?_⟩
  have before : Lasts s₀ s r₀ r := lasts.congr rfl rfl
  have carried := h.carries r₀ r before
  refine ⟨carried.columns, carried.kept, carried.swapped, fun missed => ?_, carried.content⟩
  rcases recorded _ missed with old | ⟨name, z, hz, blob⟩
  · exact carried.missed old
  · have named := candidate_named queued.candidate
    have same : z = r := h.one z hz r before.last (blob ▸ named) before.object
      (by rw [before.same, name, blob])
    rw [← same, blob, name, queued.unswapped]

end Swap

end
end Arca.Recrypt
