import Arca.Blob.Accesses
import Arca.Maintenance.VersionPages
import Arca.Storage.EncryptionSwap

/-!
# The re-encryption job

The job lists the versions of every bucket, keeps those that its direction concerns,
and takes them one by one: it reads the blob, writes the bytes under a new id, and
swaps the row over if the row still has the blob that was read. What clients do to
the rows is left open as far as they can do anything: they remove rows, add rows for
new blobs, and change the columns of a row that no write of its content concerns.
-/
namespace Arca.Recrypt
open ObjectTable BucketLife Lifecycle Blob

inductive RecryptDirection where
  | encrypt
  | decrypt
  deriving DecidableEq

/-- The etag of a multipart object, `<32 hex>-<n>`. -/
def isMultipartEtag (etag : String) : Bool :=
  let back := etag.toList.reverse
  let count := back.takeWhile (· ≠ '-')
  match back.dropWhile (· ≠ '-') with
  | [] => false
  | _ :: hash => BlobDisk.isMd5Hex (String.ofList hash.reverse) && !count.isEmpty &&
      count.all Char.isDigit

def isRecryptCandidate (direction : RecryptDirection) (r : ObjectRecord) : Bool :=
  if r.isDeleteMarker || r.isTombstone || r.blobId = "" then false
  else if r.encryptionAlgorithm = some "SSE-C" then false
  else if isMultipartEtag r.etag then false
  else match direction with
    | .encrypt => r.encryptionAlgorithm = none
    | .decrypt => r.encryptionAlgorithm = some "AES256"

structure Job where
  direction : RecryptDirection
  bucket : Option String
  keyPrefix : Option String

def Job.includes (job : Job) (r : ObjectRecord) : Bool :=
  job.bucket.all (· = r.bucket) && job.keyPrefix.all (inPrefixRange · r.key)

/-- The columns of a row that only the write of another content changes, with the others blanked;
a listing does not read the parts. -/
def settled (r : ObjectRecord) : ObjectRecord :=
  { r with
    isLatest := false, retentionMode := none, retainUntilDate := none, legalHoldStatus := none
    lockUpdatedAt := none, replicationStatus := none, parts := none }

def Disk.delete (d : Disk) (id : String) : Disk where
  files x := if x ∈ d.reach id then none else d.files x
  sidecars x := if x ∈ d.reach id then none else d.sidecars x

/-- Every object has its own blob, and its own version. -/
structure Separate (d : Disk) (rows : List ObjectRecord) : Prop where
  blobs : ∀ a ∈ rows, ∀ b ∈ rows, a.blobId ≠ "" → b.blobId ≠ "" →
    (∃ x ∈ d.reach a.blobId, x ∈ d.reach b.blobId) → a = b
  versions : ∀ a ∈ rows, ∀ b ∈ rows, a.isTombstone = false → b.isTombstone = false →
    a.bucket = b.bucket → a.key = b.key → tagVersion a = tagVersion b → a = b
  flat : ∀ r ∈ rows, r.blobId ≠ "" → (d.sidecars r.blobId).all (·.flat d) = true

instance (d : Disk) (rows : List ObjectRecord) : Decidable (Separate d rows) :=
  decidable_of_iff (_ ∧ _ ∧ _) ⟨fun ⟨a, b, c⟩ => ⟨a, b, c⟩, fun ⟨a, b, c⟩ => ⟨a, b, c⟩⟩

/-- What clients leave of the rows: a row they had already, up to the columns that may
change, or one for a blob that is new. -/
structure ClientRows (d : Disk) (used : List String) (rows rows' : List ObjectRecord) : Prop where
  origin : ∀ r ∈ rows', r.blobId ≠ "" →
    (∃ x ∈ rows, x.blobId = r.blobId ∧ settled x = settled r) ∨ ∀ x ∈ d.reach r.blobId, x ∉ used
  separate : Separate d rows'

instance (d : Disk) (used : List String) (rows rows' : List ObjectRecord) :
    Decidable (ClientRows d used rows rows') :=
  decidable_of_iff (_ ∧ _) ⟨fun ⟨a, b⟩ => ⟨a, b⟩, fun ⟨a, b⟩ => ⟨a, b⟩⟩

/-- Where the job is, with the candidates it has found or still has to take. -/
inductive Phase where
  | listing
  | scanning (left : List String) (resume : Option (String × VersionPosition))
      (out : List ObjectRecord)
  | next (queue : List ObjectRecord)
  | fetching (record : ObjectRecord) (queue : List ObjectRecord)
  | storing (record : ObjectRecord) (content : Bytes) (queue : List ObjectRecord)
  | swapping (record : ObjectRecord) (new : String) (encryption : Option EncryptionInfo)
      (queue : List ObjectRecord)
  | reclaiming (id : String) (queue : List ObjectRecord)
  | completed
  | ended

def Phase.holds : Phase → Option String
  | .swapping _ new _ _ => some new
  | .reclaiming id _ => some id
  | _ => none

/-- The last four fields record what happened. -/
structure State where
  tables : Tables
  disk : Disk
  phase : Phase
  errors : ℕ
  used : List String
  origin : String → String
  listed : List String
  demoted : List String

def State.owned (s : State) : List String :=
  (s.tables.objects.filter (·.blobId ≠ "")).flatMap fun r => s.disk.reach r.blobId

inductive Event where
  | list
  | page
  | take
  | fetch
  | store (new : String) (entropy : Entropy) (stream : Upload) (lastModified : String)
  | swap (now : Instant)
  | reclaim (done : Bool)
  | fails
  | halt
  | clientRows (rows : List ObjectRecord)
  | clientBlob (id : String) (file : Option Bytes) (sidecar : Option Blob.SidecarMeta)
  | clientBuckets (buckets : List BucketInfo)

def Event.ofJob : Event → Bool
  | .clientRows _ | .clientBlob .. | .clientBuckets _ => false
  | _ => true

section
variable (L : Libraries) (mk : MasterKey) (job : Job) (clustered : Bool) (s : State)

def State.list : State :=
  match s.phase with
  | .listing =>
    let names := (s.tables.buckets.map BucketInfo.name).filter fun b => job.bucket.all (· = b)
    { s with phase := .scanning names none [], listed := names }
  | _ => s

def State.page : State :=
  match s.phase with
  | .scanning [] _ out => { s with phase := .next out }
  | .scanning (b :: left) resume out =>
    let page := s.tables.listObjectVersionsFrom b job.keyPrefix (resume.map Prod.fst)
      (resume.map Prod.snd) 1000
    let out := out ++ page.filter (isRecryptCandidate job.direction)
    match page.getLast? with
    | none => { s with phase := .scanning left none out }
    | some last =>
      if page.length = 1000 then
        { s with phase := .scanning (b :: left) (some (last.key, .of last)) out }
      else { s with phase := .scanning left none out }
  | _ => s

def State.take : State :=
  match s.phase with
  | .next [] => { s with phase := .completed }
  | .next (record :: queue) => { s with phase := .fetching record queue }
  | _ => s

/-- An error in the turn of an object is counted, and the job goes on. -/
def State.fails : State :=
  match s.phase with
  | .fetching _ queue | .storing _ _ queue | .swapping _ _ _ queue =>
    { s with phase := .next queue, errors := s.errors + 1 }
  | _ => s

def State.fetch : State :=
  match s.phase with
  | .fetching record queue =>
    match readBlob L (some mk) s.disk record.blobId none with
    | .ok ⟨.ok content, _⟩ => { s with phase := .storing record content queue }
    | _ => s.fails
  | _ => s

def sidecarFor (record : ObjectRecord) (lastModified : String) (encryption : Option EncryptionInfo) :
    Blob.SidecarMeta where
  bucket := record.bucket
  key := record.key
  size := record.size
  etag := record.etag
  contentType := record.contentType
  lastModified := lastModified
  metadata := record.metadata
  encryption := encryption
  compression := none
  versionId := record.versionId
  composite := none

/-- To encrypt is to write through the server's stack, to decrypt to write below it. -/
def State.store (new : String) (entropy : Entropy) (stream : Upload)
    (lastModified : String) : State :=
  match s.phase with
  | .storing record content queue =>
    if stream.content = content ∧ new ≠ "" ∧ new ∉ s.used ∧ s.disk.files new = none ∧
        s.disk.sidecars new = none then
      let through := match job.direction with
        | .encrypt => some entropy
        | .decrypt => none
      let (d, result) := putInner L (RangedReads.stackOf (some mk) through) s.disk new stream
      { s with
        disk := d.writeSidecar new (sidecarFor record lastModified result.encryption)
        used := new :: s.used
        phase := .swapping record new result.encryption queue }
    else s
  | _ => s

/-- A row that is found gets the new blob, and the old one is reclaimed on a single node.
Otherwise the new one is discarded. -/
def State.swap (now : Instant) : State :=
  match s.phase with
  | .swapping record new encryption queue =>
    let target := swaps record.bucket record.key record.versionId record.blobId
    if s.tables.objects.any target then
      { s with
        tables := { s.tables with
          objects := updateWhere target (withBlob new (encryption.map EncryptionInfo.algorithm)
            (encryption.map EncryptionInfo.keyId) now) s.tables.objects }
        origin := Function.update s.origin new (s.origin record.blobId)
        demoted := s.demoted.filter (· ≠ s.origin record.blobId)
        phase := if clustered then .next queue else .reclaiming record.blobId queue }
    else
      { s with
        demoted := if s.tables.objects.any fun r => r.blobId = record.blobId && r.versionId = none &&
            !r.isLatest then s.origin record.blobId :: s.demoted else s.demoted
        phase := .reclaiming new queue }
  | _ => s

def State.reclaim (done : Bool) : State :=
  match s.phase with
  | .reclaiming id queue =>
    { s with phase := .next queue, disk := if done then Disk.delete s.disk id else s.disk }
  | _ => s

def State.halt : State :=
  match s.phase with
  | .completed => s
  | _ => { s with phase := .ended }

def State.clientRows (rows : List ObjectRecord) : State :=
  if ClientRows s.disk s.used s.tables.objects rows then
    let s := { s with tables := { s.tables with objects := rows } }
    { s with used := s.owned ++ s.used }
  else s

/-- Clients write and remove blobs that are no object's. -/
def State.clientBlob (id : String) (file : Option Bytes)
    (sidecar : Option Blob.SidecarMeta) : State :=
  if id ∉ s.owned ∧ s.phase.holds ≠ some id then
    { s with disk := ⟨Function.update s.disk.files id file, Function.update s.disk.sidecars id sidecar⟩ }
  else s

def step : Event → State
  | .list => s.list job
  | .page => s.page job
  | .take => s.take
  | .fetch => s.fetch L mk
  | .store new entropy stream lastModified => s.store L mk job new entropy stream lastModified
  | .swap now => s.swap clustered now
  | .reclaim done => s.reclaim done
  | .fails => s.fails
  | .halt => s.halt
  | .clientRows rows => s.clientRows rows
  | .clientBlob id file sidecar => s.clientBlob id file sidecar
  | .clientBuckets buckets => { s with tables := { s.tables with buckets } }

end
end Arca.Recrypt
