import Arca.Storage.FaultyWrites

/-!
# Default retention of new versions

A bucket may give a mode and a period that its new versions are kept for. Of the
three requests that store a version only `PutObject` looks at the lock headers and at
the bucket; the configuration it uses is the one it finds.
-/
namespace Arca.Retention
open Conditional ObjectTable Option

inductive Creation where
  | putObject (object : NewObject) (headers : LockHeaders) (readFails : Bool) (pre : WritePrecondition)
  | copyObject (object : NewObject) (headers : LockHeaders)
  | completeMultipartUpload (uploadId : String) (object : NewObject) (headers : LockHeaders)
      (pre : WritePrecondition)

namespace Creation

def object : Creation → NewObject
  | putObject o .. | copyObject o _ | completeMultipartUpload _ o .. => o

def headers : Creation → LockHeaders
  | putObject _ h .. | copyObject _ h | completeMultipartUpload _ _ h _ => h

def readConfig (fails : Bool) : Option ObjectLockConfiguration → ConfigRead
  | none => if fails then .failed else .absent
  | some config => if fails then .failed else .found config

def write (config : Option ObjectLockConfiguration) (now : Instant) : Creation → Write
  | putObject o h fails pre =>
    .put o (resolveObjectLockHeaders h (readConfig fails config) now) now pre
  | copyObject o _ => .put o .unset now ⟨none, none⟩
  | completeMultipartUpload u o _ pre => .complete u o now pre

end Creation

structure LockedStore where
  store : Store
  lockConfig : String → Option ObjectLockConfiguration

inductive Event where
  | configure (bucket : String) (document : XmlLockConfiguration)
  | create (request : Creation) (now : Instant) (drawn : Drawn)
  | other (write : Write) (drawn : Drawn)

section
variable (s : LockedStore)

def LockedStore.attempt (w : Write) (d : Drawn) : LockedStore :=
  match w.run d s.store with
  | .ok store => { s with store := store }
  | .error _ => s

def step : Event → LockedStore
  | .configure bucket document =>
    match parseObjectLockConfiguration document with
    | .ok config => { s with lockConfig := Function.update s.lockConfig bucket (some config) }
    | .error _ => s
  | .create request now d => s.attempt (request.write (s.lockConfig request.object.bucket) now) d
  | .other w d => s.attempt w d

def Kept (default : DefaultRetention) (headers : LockHeaders) (now : Instant) (r : ObjectRecord) :
    Prop :=
  (∃ mode date, headers.mode = some mode ∧ isRetentionMode mode = true ∧
      headers.until = some date ∧ r.retentionMode = some mode ∧ r.retainUntilDate = some date) ∨
    (r.retentionMode = some default.mode ∧
      ∃ date, r.retainUntilDate = some date ∧ now + default.periodDays * dayNanos ≤ date)

def LockedStore.default (bucket : String) : Option DefaultRetention :=
  (s.lockConfig bucket).bind ObjectLockConfiguration.defaultRetention

def StoresKept : Event → Prop
  | .create request now d => ∀ default, s.default request.object.bucket = some default →
      ∀ r ∈ (step s (.create request now d)).store.objects.rows,
        r.blobId = request.object.blobId → Kept default request.headers now r
  | _ => True

/-- The headers give both a valid mode and a date, or neither of the two and the
configuration is read. -/
def Creation.Retains : Creation → Prop
  | putObject _ h fails _ =>
    ((h.mode.any isRetentionMode = true ∧ h.until.isSome = true) ∨
      h.mode = none ∧ h.until = none ∧ fails = false)
  | copyObject .. | completeMultipartUpload .. => False

def Creation.Commits (s : Store) : Creation → Prop
  | putObject o _ _ pre => pre.accepts (fetchCurrentObject o.bucket o.key s.objects.rows) = true
  | copyObject .. => True
  | completeMultipartUpload u o _ pre => (s.multipart.getMultipartUpload u).isSome = true ∧
      pre.accepts (fetchCurrentObject o.bucket o.key s.objects.rows) = true

def CreatesKept : Event → Prop
  | .create request _ _ => (s.default request.object.bucket).isSome = true →
      request.Commits s.store → request.Retains
  | _ => True

/-- A new version is written under a blob id that no row has. -/
def FreshBlob : Event → Prop
  | .create request _ _ => ∀ r ∈ s.store.objects.rows, r.blobId ≠ request.object.blobId
  | _ => True

def Accepted : Prop :=
  ∀ bucket config, s.lockConfig bucket = some config →
    ∃ document, parseObjectLockConfiguration document = .ok config

end

variable {s : LockedStore} {request : Creation} {now : Instant} {d : Drawn}

variable {default : DefaultRetention}

lemma isRetentionMode_default (h : Accepted s) {bucket : String}
    (eq : s.default bucket = some default) : isRetentionMode default.mode = true := by
  obtain ⟨config, found, has⟩ := bind_eq_some_iff.mp eq
  obtain ⟨document, parsed⟩ := h bucket config found
  exact isRetentionMode_of_parse parsed has

lemma accepted_attempt (h : Accepted s) (w : Write) (d : Drawn) : Accepted (s.attempt w d) := by
  unfold LockedStore.attempt
  split <;> exact h

lemma accepted_step (s : LockedStore) (e : Event) (h : Accepted s) : Accepted (step s e) := by
  cases e with
  | configure bucket document =>
    simp only [step]
    cases parsed : parseObjectLockConfiguration document with
    | error => exact h
    | ok config =>
      intro b c found
      change Function.update s.lockConfig bucket (some config) b = some c at found
      by_cases same : b = bucket
      · subst same
        rw [Function.update_self] at found
        cases found
        exact ⟨document, parsed⟩
      · rw [Function.update_of_ne same] at found
        exact h b c found
  | create request now d => exact accepted_attempt h _ d
  | other w d => exact accepted_attempt h w d

variable {r : ObjectRecord} {default : DefaultRetention} {headers : LockHeaders}

lemma kept_resolve_iff {config : ObjectLockConfiguration}
    (has : config.defaultRetention = some default) (valid : isRetentionMode default.mode = true)
    {fails : Bool} {lock : ObjectLock}
    (resolved : resolveObjectLockHeaders headers (Creation.readConfig fails (some config)) now = lock)
    (mode : r.retentionMode = lock.mode) (date : r.retainUntilDate = lock.retainUntil) :
    Kept default headers now r ↔
      ((headers.mode.any isRetentionMode = true ∧ headers.until.isSome = true) ∨
        headers.mode = none ∧ headers.until = none ∧ fails = false) := by
  subst resolved
  obtain ⟨enabled, retention⟩ := config
  subst has
  unfold Kept
  rw [mode, date]
  cases given : headers.mode with
  | some m =>
    simp only [resolveObjectLockHeaders, given, isSome_some, Bool.true_or, if_true]
    cases headers.until with
    | none => simp
    | some u =>
      simp_all
  | none =>
    cases dated : headers.until with
    | some u => simp [resolveObjectLockHeaders, given, dated]
    | none =>
      cases fails with
      | true => simp [resolveObjectLockHeaders, given, dated, Creation.readConfig]
      | false =>
        simp [resolveObjectLockHeaders, given, dated, Creation.readConfig, computeRetainUntil_eq]

lemma not_kept_unset
    (unset : r.retentionMode = none) : ¬ Kept default headers now r := by
  rintro (⟨mode, -, -, -, -, is_mode, -⟩ | ⟨is_mode, -⟩) <;> cases unset.symm.trans is_mode

variable (config : Option ObjectLockConfiguration)

def Creation.lock (now : Instant) : Creation → ObjectLock
  | putObject _ h fails _ => resolveObjectLockHeaders h (readConfig fails config) now
  | copyObject .. | completeMultipartUpload .. => .unset

lemma record_write :
    (request.write config now).record = some (request.object.record (request.lock config now) now) := by
  cases request <;> rfl

lemma run_ok_iff {config : Option ObjectLockConfiguration} {store : Store} :
    (∃ store', (request.write config now).run d store = .ok store') ↔ request.Commits store := by
  have installs : ∀ {record : ObjectRecord} {pre : WritePrecondition} (f : ObjectTable → Store),
      (∃ store', (store.objects.installObjectIf record pre d.uuid).map f = .ok store') ↔
        pre.accepts (fetchCurrentObject record.bucket record.key store.objects.rows) = true := by
    intro record pre f
    constructor
    · rintro ⟨store', eq⟩
      cases installed : store.objects.installObjectIf record pre d.uuid with
      | error => rw [installed] at eq; cases eq
      | ok t => exact (installObjectIf_ok installed).1
    · intro accepted
      obtain ⟨t, installed⟩ := installObjectIf_of_accepts d.uuid accepted
      exact ⟨f t, by rw [installed]; rfl⟩
  cases request with
  | putObject o h fails pre => exact installs _
  | copyObject o h =>
    have unconditional : ∀ current, WritePrecondition.accepts ⟨none, none⟩ current = true := by
      intro current
      cases current <;> rfl
    exact (installs _).trans (iff_of_true (unconditional _) trivial)
  | completeMultipartUpload u o h pre =>
    simp only [Creation.write, Write.run, Creation.Commits]
    cases store.multipart.getMultipartUpload u with
    | none => simp
    | some upload => exact (installs _).trans (and_iff_right rfl).symm

lemma kept_iff {config : ObjectLockConfiguration}
    (has : config.defaultRetention = some default) (valid : isRetentionMode default.mode = true)
    (mode : r.retentionMode = (request.lock (some config) now).mode)
    (date : r.retainUntilDate = (request.lock (some config) now).retainUntil) :
    Kept default request.headers now r ↔ request.Retains := by
  cases request with
  | putObject o h fails pre => exact kept_resolve_iff has valid rfl mode date
  | copyObject | completeMultipartUpload => exact iff_of_false (not_kept_unset mode) not_false

lemma storesKept_iff (accepted : Accepted s) (fresh : FreshBlob s (.create request now d)) :
    StoresKept s (.create request now d) ↔ CreatesKept s (.create request now d) := by
  simp only [StoresKept, CreatesKept, isSome_iff_exists, forall_exists_index]
  refine forall₂_congr fun default has => ?_
  obtain ⟨config, found, retention⟩ := bind_eq_some_iff.mp has
  have valid := isRetentionMode_default accepted has
  simp only [step, LockedStore.attempt, found]
  cases result : (request.write (some config) now).run d s.store with
  | error =>
    refine iff_of_true (fun r mem new => absurd new (fresh r mem)) fun commits => ?_
    obtain ⟨store', ok⟩ := run_ok_iff.mpr commits
    cases result.symm.trans ok
  | ok store =>
    have commits : request.Commits s.store := run_ok_iff.mp ⟨store, result⟩
    obtain ⟨-, pre, installed⟩ := installed_of_ok result (record_write (some config))
    have row : ∀ r : ObjectRecord, r.replicated = (s.store.objects.storedRow
        (request.object.record (request.lock (some config) now) now) d.uuid).replicated →
        r.blobId = request.object.blobId ∧
          (Kept default request.headers now r ↔ request.Retains) := by
      intro r same
      have blob := congrArg ObjectRecord.blobId same
      have mode := congrArg ObjectRecord.retentionMode same
      have date := congrArg ObjectRecord.retainUntilDate same
      exact ⟨blob, kept_iff retention valid mode date⟩
    rw [forall_prop_of_true commits]
    constructor
    · intro kept
      obtain ⟨r, mem, same⟩ := exists_installObject installed
      exact (row r same).2.mp (kept r mem (row r same).1)
    · intro retains r mem new
      obtain ⟨x, there, -, same⟩ | same := mem_installObject installed mem
      · exact absurd ((congrArg ObjectRecord.blobId same).symm.trans new) (fresh x there)
      · exact (row r same).2.mpr retains

/-- Along every run each version stored under a default retention is kept, exactly when each
request that stores one is a `PutObject` whose headers give both or neither, and in the latter
case the configuration is read. -/
theorem default_retention_iff {s : LockedStore} (accepted : Accepted s) {es : List Event}
    (fresh : Run.Each step FreshBlob s es) :
    Run.Each step StoresKept s es ↔ Run.Each step CreatesKept s es := by
  refine Run.each_congr_of_each accepted_step (fun s e accepted fresh => ?_) accepted fresh
  cases e with
  | create request now d => exact storesKept_iff accepted fresh
  | configure | other => exact Iff.rfl

def noHeaders : LockHeaders := ⟨none, none, none⟩

def emptyStore : LockedStore := ⟨⟨⟨[], fun _ => .enabled, false⟩, ⟨[], []⟩⟩, fun _ => none⟩

def copied : List Event :=
  [.configure "b" ⟨some "Enabled", some (some ⟨some "COMPLIANCE", some 1, none⟩)⟩,
    .create (.copyObject (freshObject "A" "a") noHeaders) 0 ⟨"v1", 0⟩]

lemma accepted_emptyStore : Accepted emptyStore := fun _ _ found => nomatch found

theorem default_retention_iff_copied : Accepted emptyStore ∧
    Run.Each step FreshBlob emptyStore copied ∧
    (Run.Each step StoresKept emptyStore copied ↔ Run.Each step CreatesKept emptyStore copied) := by
  have fresh : Run.Each step FreshBlob emptyStore copied :=
    ⟨trivial, fun r mem => absurd mem (List.not_mem_nil), trivial⟩
  exact ⟨accepted_emptyStore, fresh, default_retention_iff accepted_emptyStore fresh⟩

/-- The copy is stored without any retention. -/
theorem copy_not_retained :
    (copied.foldl step emptyStore).default "b" = some ⟨"COMPLIANCE", some 1, none⟩ ∧
      (copied.foldl step emptyStore).store.objects.rows.map
          (fun r => (r.versionId, r.retentionMode, r.retainUntilDate)) =
        [(some "v1", none, none)] := by
  constructor <;> decide +kernel

end Arca.Retention
