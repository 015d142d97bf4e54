import Arca.Backends.StoreOps
import Arca.Types

/-!
# Object Lock

The configuration of a bucket, the lock fields of a new object, and the checks that a
handler makes before it deletes a version or changes its retention. Header values
that are no visible ASCII read as absent.
-/
namespace Arca

structure ObjectLock where
  mode : Option String
  retainUntil : Option Instant
  legalHold : Option String
  deriving DecidableEq

def ObjectLock.unset : ObjectLock := ⟨none, none, none⟩

structure NewObject where
  bucket : String
  key : String
  blobId : String
  size : Nat
  etag : String
  contentType : Option String
  metadata : List (String × String)
  encryptionAlgorithm : Option String
  encryptionKeyId : Option String
  owner : String
  storageClass : String
  checksumAlgorithm : Option String
  checksumValue : Option String
  parts : Option (List ObjectPart)
  deriving DecidableEq

def NewObject.record (o : NewObject) (lock : ObjectLock) (now : Instant) : ObjectRecord where
  bucket := o.bucket
  key := o.key
  blobId := o.blobId
  size := o.size
  etag := o.etag
  contentType := o.contentType
  lastModified := now
  metadata := o.metadata
  encryptionAlgorithm := o.encryptionAlgorithm
  encryptionKeyId := o.encryptionKeyId
  owner := o.owner
  versionId := none
  isLatest := true
  isDeleteMarker := false
  isTombstone := false
  retentionMode := lock.mode
  retainUntilDate := lock.retainUntil
  legalHoldStatus := lock.legalHold
  storageClass := o.storageClass
  checksumAlgorithm := o.checksumAlgorithm
  checksumValue := o.checksumValue
  parts := o.parts
  replicationStatus := none
  lockUpdatedAt := none
  contentUpdatedAt := none

structure DefaultRetention where
  mode : String
  days : Option Nat
  years : Option Nat
  deriving DecidableEq

structure ObjectLockConfiguration where
  enabled : Bool
  defaultRetention : Option DefaultRetention
  deriving DecidableEq

structure XmlDefaultRetention where
  mode : Option String
  days : Option Nat
  years : Option Nat
  deriving DecidableEq

structure XmlLockConfiguration where
  enabled : Option String
  rule : Option (Option XmlDefaultRetention)
  deriving DecidableEq

def isRetentionMode (mode : String) : Bool := mode = "GOVERNANCE" || mode = "COMPLIANCE"

def validateRetentionMode (mode : String) : Except S3Error Unit :=
  if isRetentionMode mode then .ok ()
  else .error (.withMessage .malformedXML "Retention mode must be GOVERNANCE or COMPLIANCE" [])

def validateRetentionPeriod : Option Nat → Option Nat → Except S3Error Unit
  | some days, none =>
    if days = 0 then
      .error (.withMessage .invalidRetentionPeriod "Retention days must be a positive integer" [])
    else .ok ()
  | none, some years =>
    if years = 0 then
      .error (.withMessage .invalidRetentionPeriod "Retention years must be a positive integer" [])
    else .ok ()
  | some _, some _ => .error (.withMessage .malformedXML
      "DefaultRetention must specify either Days or Years, not both" [])
  | none, none => .error (.withMessage .malformedXML
      "DefaultRetention must specify either Days or Years" [])

def parseDefaultRetention (x : XmlDefaultRetention) : Except S3Error DefaultRetention :=
  match x.mode with
  | none => .error (.withMessage .malformedXML "DefaultRetention must have Mode" [])
  | some mode => do
      validateRetentionMode mode
      validateRetentionPeriod x.days x.years
      pure ⟨mode, x.days, x.years⟩

def parseObjectLockConfiguration (x : XmlLockConfiguration) : Except S3Error ObjectLockConfiguration :=
  if x.enabled.any (· ≠ "Enabled") then
    .error (.withMessage .malformedXML "ObjectLockEnabled must be 'Enabled'" [])
  else match x.rule.join with
  | none => .ok ⟨true, none⟩
  | some retention => (parseDefaultRetention retention).map fun d => ⟨true, some d⟩

variable {x : XmlLockConfiguration} {c : ObjectLockConfiguration} {d : DefaultRetention}

lemma defaultRetention_of_parse (h : parseObjectLockConfiguration x = .ok c)
    (default : c.defaultRetention = some d) :
    validateRetentionMode d.mode = .ok () ∧ validateRetentionPeriod d.days d.years = .ok () := by
  unfold parseObjectLockConfiguration at h
  split at h
  · cases h
  · cases rule : x.rule.join with
    | none =>
      rw [rule] at h
      cases h
      cases default
    | some retention =>
      rw [rule] at h
      obtain ⟨mode, days, years⟩ := retention
      cases mode with
      | none => cases h
      | some mode =>
        obtain ⟨_, parsed, h⟩ := bind_eq_ok (show (parseDefaultRetention _ >>= fun d =>
          .ok ⟨true, some d⟩) = .ok c from h)
        obtain ⟨⟨⟩, known, parsed⟩ := bind_eq_ok parsed
        obtain ⟨⟨⟩, positive, parsed⟩ := bind_eq_ok parsed
        cases parsed
        cases h
        cases default
        exact ⟨known, positive⟩

lemma isRetentionMode_of_parse (h : parseObjectLockConfiguration x = .ok c)
    (default : c.defaultRetention = some d) : isRetentionMode d.mode = true := by
  have known := (defaultRetention_of_parse h default).1
  unfold validateRetentionMode at known
  split at known
  · assumption
  · cases known

/-- An instant is counted in nanoseconds. -/
def dayNanos : Int := 86400 * 1000000000

section
variable (d : DefaultRetention)

/-- A year counts 365 days. -/
def DefaultRetention.periodDays : Nat :=
  match d.days, d.years with
  | some days, _ => days
  | none, some years => years * 365
  | none, none => 0

def computeRetainUntil (now : Instant) : Instant :=
  match d.days, d.years with
  | some days, _ => now + days * dayNanos
  | none, some years => now + (years * 365 : Nat) * dayNanos
  | none, none => now

lemma computeRetainUntil_eq (now : Instant) :
    computeRetainUntil d now = now + d.periodDays * dayNanos := by
  unfold computeRetainUntil DefaultRetention.periodDays
  cases d.days with
  | some days => rfl
  | none =>
    cases d.years with
    | some years => rfl
    | none => simp

end

lemma periodDays_pos_of_parse (h : parseObjectLockConfiguration x = .ok c)
    (default : c.defaultRetention = some d) : 0 < d.periodDays := by
  have positive := (defaultRetention_of_parse h default).2
  obtain ⟨mode, days, years⟩ := d
  match days, years with
  | some 0, none => cases positive
  | none, some 0 => cases positive
  | some (n + 1), none => exact Nat.succ_pos n
  | none, some (n + 1) => exact Nat.mul_pos (Nat.succ_pos n) (by decide)

structure LockHeaders where
  mode : Option String
  retainUntil : Option RetainDate
  legalHold : Option String
  deriving DecidableEq

def LockHeaders.until (h : LockHeaders) : Option Instant := h.retainUntil.bind RetainDate.instant

/-- What the read of the bucket's `object_lock` row gives. -/
inductive ConfigRead where
  | failed
  | absent
  | unreadable
  | found (config : ObjectLockConfiguration)
  deriving DecidableEq

/-- One of the two retention headers is enough to leave the bucket default
unread; what they say is not checked. -/
def resolveObjectLockHeaders (headers : LockHeaders) (read : ConfigRead) (now : Instant) :
    ObjectLock :=
  let hold := headers.legalHold.filter (· = "ON")
  if headers.mode.isSome || headers.until.isSome then ⟨headers.mode, headers.until, hold⟩
  else match read with
  | .found ⟨_, some d⟩ => ⟨some d.mode, some (computeRetainUntil d now), hold⟩
  | _ => ⟨none, none, hold⟩

def isObjectLocked (r : ObjectRecord) (now : Instant) : Bool :=
  r.legalHoldStatus = some "ON" ||
    (r.retentionMode.isSome && r.retainUntilDate.any (now < ·))

end Arca
