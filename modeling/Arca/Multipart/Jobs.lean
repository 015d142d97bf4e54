import Arca.Multipart.Uploads

/-!
# Requests on multipart uploads, step by step

A request, or an abort by the lifecycle worker, is a job that goes through phases.
The blob ids that were ever drawn, and the complete requests that were committed, are
kept beside the state. The blobs of a job are removed in any order, and that does not
fail; before its commit a job may end with an error at any point, its blob then stays
behind.
-/
namespace Arca.Multipart
open ObjectTable List PartRecord

inductive Call where
  | uploadPart (bucket key uploadId : String) (partNumber : Nat)
  | uploadPartCopy (bucket key uploadId : String) (partNumber : Nat)
  | complete (bucket key uploadId : String) (request : CompleteRequest)
  | abort (uploadId : String)
  | expire (uploadId : String)
  deriving DecidableEq

def Call.uploadId : Call → String
  | uploadPart _ _ u _ | uploadPartCopy _ _ u _ | complete _ _ u _ | abort u | expire u => u

inductive Reply where
  | ok (etag : String)
  | noContent
  | error (code : S3ErrorCode)
  deriving DecidableEq

inductive Phase where
  | arrived
  | receiving (upload : MultipartUploadRecord)
  | stored (part : PartRecord)
  | retrying
  | checking (upload : MultipartUploadRecord)
  | listing (upload : MultipartUploadRecord)
  | assembling (upload : MultipartUploadRecord) (matched : List PartRecord)
      (checksum : Option ObjectChecksum)
  | assembled (matched : List PartRecord) (record : ObjectRecord) (composite : Bool)
  | refused (blobId : String) (code : S3ErrorCode)
  | closing
  | discarding (reply : Reply) (blobs : List String)
  | done (reply : Reply)
  deriving DecidableEq

structure Job where
  call : Call
  phase : Phase
  deriving DecidableEq

structure Completed where
  bucket : String
  key : String
  uploadId : String
  blobId : String
  etag : String
  request : CompleteRequest
  deriving DecidableEq

structure Node where
  table : ObjectTable
  multipart : MultipartTables
  disk : BlobDisk
  jobs : List Job
  issued : List String
  completed : List Completed

structure PartBody where
  file : Bytes
  size : Nat
  etag : String
  encryption : Bool
  checksumValue : Option String
  deriving DecidableEq

inductive Event where
  | arrive (call : Call)
  | read (i : Nat)
  | store (i : Nat) (blobId : String) (body : PartBody) (now : Instant)
  | assemble (i : Nat) (blobId : String) (masterKey : Option String) (now : Instant)
  | commit (i : Nat) (uuid : String)
  | discard (i : Nat) (blobId : String)
  | fail (i : Nat)
  | create (record : MultipartUploadRecord)
  | receivePart (part : PartRecord)
  | receiveUpload (record : MultipartUploadRecord)
  | receiveClose (uploadId : String)
  | objects (op : MetaOp)

def partKey (key uploadId : String) (partNumber : Nat) : String :=
  key ++ "#" ++ uploadId ++ "#" ++ toString partNumber

def partSidecar (bucket key uploadId : String) (partNumber : Nat) (body : PartBody) : SidecarMeta where
  bucket := bucket
  key := partKey key uploadId partNumber
  size := body.size
  etag := body.etag
  encryption := body.encryption
  compression := false
  versionId := none
  composite := none

def selectParts (a : Assembler) (stored : List PartRecord) (upload : MultipartUploadRecord)
    (request : CompleteRequest) : Except S3ErrorCode (List PartRecord × Option ObjectChecksum) :=
  if request.parts = [] then .error .malformedXML
  else
    match CompleteRequest.matchParts stored (CompleteRequest.namedParts request.parts) with
    | .error code => .error code
    | .ok matched =>
      if matched.dropLast.any (·.size < minPartSize) then .error .entityTooSmall
      else (a.planComplete upload matched request).map (matched, ·)

/-- The row of an assembled object. The upload keeps its tags in its metadata. -/
def assembledRecord (upload : MultipartUploadRecord) (request : CompleteRequest)
    (matched : List PartRecord) (checksum : Option ObjectChecksum) (blobId etag : String)
    (size : Nat) (masterKey : Option String) (now : Instant) : ObjectRecord where
  bucket := upload.bucket
  key := upload.key
  blobId := blobId
  size := size
  etag := etag
  contentType := upload.contentType
  lastModified := now
  metadata := upload.metadata.filter (·.1 ≠ "_arca_tagging")
  encryptionAlgorithm := masterKey.map fun _ => "AES256"
  encryptionKeyId := masterKey
  owner := request.owner
  versionId := none
  isLatest := true
  isDeleteMarker := false
  isTombstone := false
  retentionMode := none
  retainUntilDate := none
  legalHoldStatus := none
  storageClass := "STANDARD"
  checksumAlgorithm := checksum.map ObjectChecksum.algorithm
  checksumValue := checksum.map ObjectChecksum.value
  parts := some (matched.map fun p => ⟨p.partNumber, p.size, p.checksumValue⟩)
  replicationStatus := none
  lockUpdatedAt := none
  contentUpdatedAt := none

def assembledSidecar (record : ObjectRecord) (composite : Option (List CompositePart)) :
    SidecarMeta where
  bucket := record.bucket
  key := record.key
  size := record.size
  etag := record.etag
  encryption := record.encryptionAlgorithm.isSome
  compression := false
  versionId := none
  composite := composite

namespace Node

section
variable (s : Node) (i : Nat) (job : Job)

def setPhase (phase : Phase) : Node :=
  { s with jobs := s.jobs.set i { job with phase := phase } }

def findUpload (bucket key uploadId : String) (next : MultipartUploadRecord → Phase) : Phase :=
  match s.multipart.getMultipartUpload uploadId with
  | none => .done (.error .noSuchUpload)
  | some upload =>
    if upload.bucket ≠ bucket ∨ upload.key ≠ key then .done (.error .noSuchUpload)
    else next upload

/-- The reads of a job. A complete request whose upload is gone is taken for a
repeated one, and is answered from the current object of the key. -/
def look (a : Assembler) (s : Node) (job : Job) : Phase :=
  match job.phase with
  | .arrived =>
    match job.call with
    | .uploadPart bucket key u partNumber =>
      if partNumber < 1 ∨ maxPartNumber < partNumber then .done (.error .invalidArgument)
      else s.findUpload bucket key u .receiving
    | .uploadPartCopy bucket key u _ => s.findUpload bucket key u .receiving
    | .complete bucket key u _ =>
      if (s.multipart.getMultipartUpload u).isNone then .retrying
      else s.findUpload bucket key u .checking
    | .abort u =>
      if (s.multipart.getMultipartUpload u).isNone then .done (.error .noSuchUpload) else .closing
    | .expire _ => .closing
  | .retrying =>
    match job.call with
    | .complete bucket key _ _ =>
      match fetchCurrentObject bucket key s.table.rows with
      | none => .done (.error .noSuchUpload)
      | some r => .done (if '-' ∈ r.etag.toList then .ok r.etag else .error .noSuchUpload)
    | _ => .retrying
  | .checking upload =>
    match job.call with
    | .complete bucket key _ request =>
      match request.pre.evaluate (fetchCurrentObject bucket key s.table.rows) with
      | .error code => .done (.error code)
      | .ok () => .listing upload
    | _ => .checking upload
  | .listing upload =>
    match job.call with
    | .complete _ _ u request =>
      match selectParts a (s.multipart.listParts u) upload request with
      | .error code => .done (.error code)
      | .ok (matched, checksum) => .assembling upload matched checksum
    | _ => .listing upload
  | phase => phase

def storePart (bucket key uploadId : String) (partNumber : Nat)
    (blobId : String) (body : PartBody) (now : Instant) : Node :=
  let part : PartRecord :=
    ⟨uploadId, partNumber, blobId, body.size, body.etag, body.checksumValue, some now⟩
  { s.setPhase i job (.stored part) with
    disk := (s.disk.writeRaw blobId body.file).writeSidecar blobId
      (partSidecar bucket key uploadId partNumber body)
    issued := blobId :: s.issued }

def assemble (a : Assembler) (s : Node) (i : Nat) (job : Job) (upload : MultipartUploadRecord)
    (request : CompleteRequest) (matched : List PartRecord) (checksum : Option ObjectChecksum)
    (blobId : String) (masterKey : Option String) (now : Instant) : Node :=
  let blobs := matched.map PartRecord.blobId
  let assembled := if masterKey.isSome then s.disk.sealedConcat a blobs blobId
    else s.disk.concat blobs blobId
  match assembled with
  | none => { s.setPhase i job (.done (.error .internalError)) with issued := blobId :: s.issued }
  | some (disk, composite) =>
    match compositeEtag a matched with
    | none =>
      { s.setPhase i job (.done (.error .internalError)) with
        disk, issued := blobId :: s.issued }
    | some etag =>
      let size := s.disk.assembledSize a masterKey.isSome blobs composite
      let record := assembledRecord upload request matched checksum blobId etag size masterKey now
      { s.setPhase i job (.assembled matched record composite.isSome) with
        disk := disk.writeSidecar blobId (assembledSidecar record composite)
        issued := blobId :: s.issued }

def commitPart (part : PartRecord) : Node :=
  { s.setPhase i job (.discarding (.ok part.etag)
      ((s.multipart.oldPart part).map blobId).toList) with
    multipart := s.multipart.putPart part }

variable (uploadId : String)

/-- The state once the object row is in. The parts of a composite stay on disk. -/
def install (request : CompleteRequest)
    (record : ObjectRecord) (composite : Bool) (table : ObjectTable) : Node :=
  let old := (s.table.overwritten record.bucket record.key).map ObjectRecord.blobId
  let parts := if composite then [] else (s.multipart.partsOf uploadId).map blobId
  { s.setPhase i job (.discarding (.ok record.etag) (old.toList ++ parts)) with
    table
    multipart := s.multipart.takeUpload uploadId
    completed := s.completed ++
      [⟨record.bucket, record.key, uploadId, record.blobId, record.etag, request⟩] }

def commitObject (request : CompleteRequest)
    (record : ObjectRecord) (composite : Bool) (uuid : String) : Node :=
  if (s.multipart.getMultipartUpload uploadId).isNone then
    s.setPhase i job (.refused record.blobId .noSuchUpload)
  else
    match s.table.installObjectIf record request.pre uuid with
    | .error code => s.setPhase i job (.refused record.blobId code)
    | .ok table => s.install i job uploadId request record composite table

def close : Node :=
  { s.setPhase i job (.discarding .noContent
      ((s.multipart.partsOf uploadId).map blobId)) with
    multipart := s.multipart.takeUpload uploadId }

def discard (reply : Reply) (blobs : List String) (blobId : String) : Node :=
  { s.setPhase i job (.discarding reply (blobs.erase blobId)) with disk := s.disk.delete blobId }

def discardAssembled (blobId : String) (code : S3ErrorCode) : Node :=
  { s.setPhase i job (.done (.error code)) with disk := s.disk.deleteBlobFileRaw blobId }

end

end Node

def Call.part : Call → Option (String × String × Nat)
  | uploadPart bucket key _ n | uploadPartCopy bucket key _ n => some (bucket, key, n)
  | _ => none

def Phase.fail : Phase → Phase
  | discarding reply blobs => discarding reply blobs
  | done reply => done reply
  | _ => done (.error .internalError)

def step (a : Assembler) (s : Node) : Event → Node
  | .arrive call => { s with jobs := s.jobs ++ [⟨call, .arrived⟩] }
  | .read i =>
    match s.jobs[i]? with
    | none => s
    | some job => s.setPhase i job (s.look a job)
  | .store i blobId body now =>
    match s.jobs[i]? with
    | none => s
    | some job =>
      match job.phase, job.call.part with
      | .receiving _, some (bucket, key, n) =>
        s.storePart i job bucket key job.call.uploadId n blobId body now
      | _, _ => s
  | .assemble i blobId masterKey now =>
    match s.jobs[i]? with
    | none => s
    | some job =>
      match job.phase, job.call with
      | .assembling upload matched checksum, .complete _ _ _ request =>
        s.assemble a i job upload request matched checksum blobId masterKey now
      | _, _ => s
  | .commit i uuid =>
    match s.jobs[i]? with
    | none => s
    | some job =>
      match job.phase, job.call with
      | .stored part, _ => s.commitPart i job part
      | .assembled _ record composite, .complete _ _ u request =>
        s.commitObject i job u request record composite uuid
      | .closing, call => s.close i job call.uploadId
      | _, _ => s
  | .discard i blobId =>
    match s.jobs[i]? with
    | none => s
    | some job =>
      match job.phase with
      | .discarding reply blobs =>
        if blobId ∈ blobs then s.discard i job reply blobs blobId else s
      | .refused final code => s.discardAssembled i job final code
      | _ => s
  | .fail i =>
    match s.jobs[i]? with
    | none => s
    | some job => s.setPhase i job job.phase.fail
  | .create record => { s with multipart := s.multipart.createMultipartUpload record }
  | .receivePart part => { s with multipart := s.multipart.putPart part }
  | .receiveUpload record => { s with multipart := s.multipart.createMultipartUpload record }
  | .receiveClose uploadId => { s with multipart := s.multipart.takeUpload uploadId }
  | .objects op => { s with table := s.table.step op }

def LeavesBehind (d d' : BlobDisk) (blobId : String) : Prop :=
  d' = d ∨ ∃ body, d' = d.writeRaw blobId body

inductive Moves (a : Assembler) (s : Node) : Event → Node → Prop
  | stay (e : Event) : Moves a s e s
  | arrive (call : Call) : Moves a s (.arrive call) { s with jobs := s.jobs ++ [⟨call, .arrived⟩] }
  | read {i : Nat} {job : Job} (here : s.jobs[i]? = some job) :
      Moves a s (.read i) (s.setPhase i job (s.look a job))
  | store {i : Nat} {job : Job} {upload : MultipartUploadRecord} {bucket key : String} {n : Nat}
      (blobId : String) (body : PartBody) (now : Instant) (here : s.jobs[i]? = some job)
      (phase : job.phase = .receiving upload) (part : job.call.part = some (bucket, key, n)) :
      Moves a s (.store i blobId body now)
        (s.storePart i job bucket key job.call.uploadId n blobId body now)
  | giveUp {i : Nat} {job : Job} {upload : MultipartUploadRecord} {matched : List PartRecord}
      {checksum : Option ObjectChecksum} {blobId : String} {masterKey : Option String} {now : Instant}
      {disk : BlobDisk} (here : s.jobs[i]? = some job)
      (phase : job.phase = .assembling upload matched checksum)
      (left : LeavesBehind s.disk disk blobId) :
      Moves a s (.assemble i blobId masterKey now)
        { s.setPhase i job (.done (.error .internalError)) with disk, issued := blobId :: s.issued }
  | assemble {i : Nat} {job : Job} {upload : MultipartUploadRecord} {matched : List PartRecord}
      {checksum : Option ObjectChecksum} {bucket key u : String} {request : CompleteRequest}
      {blobId : String} {masterKey : Option String} {now : Instant} {disk : BlobDisk}
      {composite : Option (List CompositePart)} {record : ObjectRecord} {size : Nat} {etag : String}
      (here : s.jobs[i]? = some job) (phase : job.phase = .assembling upload matched checksum)
      (call : job.call = .complete bucket key u request)
      (assembled : s.disk.Assembles (matched.map PartRecord.blobId) blobId (disk, composite))
      (written : record =
        assembledRecord upload request matched checksum blobId etag size masterKey now)
      (tag : compositeEtag a matched = some etag) :
      Moves a s (.assemble i blobId masterKey now)
        { s.setPhase i job (.assembled matched record composite.isSome) with
          disk := disk.writeSidecar blobId (assembledSidecar record composite)
          issued := blobId :: s.issued }
  | commitPart {i : Nat} {job : Job} {part : PartRecord} (uuid : String)
      (here : s.jobs[i]? = some job) (phase : job.phase = .stored part) :
      Moves a s (.commit i uuid) (s.commitPart i job part)
  | commitObject {i : Nat} {job : Job} {matched : List PartRecord} {record : ObjectRecord}
      {composite : Bool} {bucket key u : String} {request : CompleteRequest} (uuid : String)
      (here : s.jobs[i]? = some job) (phase : job.phase = .assembled matched record composite)
      (call : job.call = .complete bucket key u request) :
      Moves a s (.commit i uuid) (s.commitObject i job u request record composite uuid)
  | close {i : Nat} {job : Job} (uuid : String) (here : s.jobs[i]? = some job)
      (phase : job.phase = .closing) : Moves a s (.commit i uuid) (s.close i job job.call.uploadId)
  | discard {i : Nat} {job : Job} {reply : Reply} {blobs : List String} {blobId : String}
      (here : s.jobs[i]? = some job) (phase : job.phase = .discarding reply blobs)
      (mem : blobId ∈ blobs) :
      Moves a s (.discard i blobId) (s.discard i job reply blobs blobId)
  | discardAssembled {i : Nat} {job : Job} {final : String} {code : S3ErrorCode} (blobId : String)
      (here : s.jobs[i]? = some job) (phase : job.phase = .refused final code) :
      Moves a s (.discard i blobId) (s.discardAssembled i job final code)
  | fail {i : Nat} {job : Job} (here : s.jobs[i]? = some job) :
      Moves a s (.fail i) (s.setPhase i job job.phase.fail)
  | create (record : MultipartUploadRecord) : Moves a s (.create record)
      { s with multipart := s.multipart.createMultipartUpload record }
  | receivePart (part : PartRecord) : Moves a s (.receivePart part)
      { s with multipart := s.multipart.putPart part }
  | receiveUpload (record : MultipartUploadRecord) : Moves a s (.receiveUpload record)
      { s with multipart := s.multipart.createMultipartUpload record }
  | receiveClose (u : String) : Moves a s (.receiveClose u)
      { s with multipart := s.multipart.takeUpload u }
  | objects (op : MetaOp) : Moves a s (.objects op) { s with table := s.table.step op }

variable {a : Assembler} {s : Node} {matched : List PartRecord} {checksum : Option ObjectChecksum}

variable {job : Job} {request : CompleteRequest} {upload : MultipartUploadRecord}

variable {bucket key u : String}

lemma moves_assemble {i : Nat} (blobId : String) (masterKey : Option String) (now : Instant)
    (here : s.jobs[i]? = some job) (phase : job.phase = .assembling upload matched checksum)
    (call : job.call = .complete bucket key u request) :
    Moves a s (.assemble i blobId masterKey now)
      (s.assemble a i job upload request matched checksum blobId masterKey now) := by
  unfold Node.assemble
  dsimp only
  cases result : (if masterKey.isSome then s.disk.sealedConcat a (matched.map PartRecord.blobId) blobId
      else s.disk.concat (matched.map PartRecord.blobId) blobId) with
  | none => exact .giveUp here phase (.inl rfl)
  | some outcome =>
    obtain ⟨disk, composite⟩ := outcome
    have assembled : s.disk.Assembles (matched.map PartRecord.blobId) blobId (disk, composite) := by
      split at result
      · exact BlobDisk.assembles_sealedConcat result
      · exact BlobDisk.assembles_concat result
    cases tag : compositeEtag a matched with
    | some etag => exact .assemble here phase call assembled rfl tag
    | none =>
      refine .giveUp here phase ?_
      rcases assembled with ⟨parts, eq, -⟩ | ⟨body, eq⟩
      · exact .inl (congrArg Prod.fst eq)
      · exact .inr ⟨body, congrArg Prod.fst eq⟩

lemma moves_step (e : Event) : Moves a s e (step a s e) := by
  cases e with
  | arrive call => exact .arrive call
  | create record => exact .create record
  | receivePart part => exact .receivePart part
  | receiveUpload record => exact .receiveUpload record
  | receiveClose u => exact .receiveClose u
  | objects op => exact .objects op
  | read i =>
    unfold step
    dsimp only
    cases here : s.jobs[i]? with
    | none => exact .stay _
    | some job => exact .read here
  | fail i =>
    unfold step
    dsimp only
    cases here : s.jobs[i]? with
    | none => exact .stay _
    | some job => exact .fail here
  | store i blobId body now =>
    unfold step
    dsimp only
    cases here : s.jobs[i]? with
    | none => exact .stay _
    | some job =>
      dsimp only
      split
      · next phase part => exact .store blobId body now here phase part
      · exact .stay _
  | assemble i blobId masterKey now =>
    unfold step
    dsimp only
    cases here : s.jobs[i]? with
    | none => exact .stay _
    | some job =>
      dsimp only
      split
      · next phase call => exact moves_assemble blobId masterKey now here phase call
      · exact .stay _
  | commit i uuid =>
    unfold step
    dsimp only
    cases here : s.jobs[i]? with
    | none => exact .stay _
    | some job =>
      dsimp only
      split
      · next phase => exact .commitPart uuid here phase
      · next phase call => exact .commitObject uuid here phase call
      · next phase => exact .close uuid here phase
      · exact .stay _
  | discard i blobId =>
    unfold step
    dsimp only
    cases here : s.jobs[i]? with
    | none => exact .stay _
    | some job =>
      dsimp only
      split
      · next phase =>
          split
          · next mem => exact .discard here phase mem
          · exact .stay _
      · next phase => exact .discardAssembled blobId here phase
      · exact .stay _

lemma getElem?_setPhase {i : Nat} (here : s.jobs[i]? = some job) (phase : Phase) (k : Nat) :
    (s.setPhase i job phase).jobs[k]? =
      if k = i then some { job with phase := phase } else s.jobs[k]? := by
  have inside : i < s.jobs.length := (List.getElem?_eq_some_iff.mp here).1
  unfold Node.setPhase
  by_cases same : i = k
  · simp [same, same ▸ inside]
  · simp [same, Ne.symm same]

lemma job_of_arrive {call : Call} {k : Nat}
    (h : (s.jobs ++ [⟨call, .arrived⟩])[k]? = some job) :
    s.jobs[k]? = some job ∨ job = ⟨call, .arrived⟩ := by
  rw [getElem?_append] at h
  split at h
  · exact .inl h
  · exact .inr (mem_singleton.mp (mem_of_getElem? h))

def Found (s : Node) (bucket key u : String) (upload : MultipartUploadRecord) : Prop :=
  s.multipart.getMultipartUpload u = some upload ∧ upload.bucket = bucket ∧ upload.key = key

inductive Looks (a : Assembler) (s : Node) (job : Job) : Phase → Prop
  | same : Looks a s job job.phase
  | refused (code : S3ErrorCode) : Looks a s job (.done (.error code))
  | receiving {bucket key : String} {n : Nat} {upload : MultipartUploadRecord}
      (part : job.call.part = some (bucket, key, n))
      (found : Found s bucket key job.call.uploadId upload) : Looks a s job (.receiving upload)
  | retrying {bucket key u : String} {request : CompleteRequest}
      (call : job.call = .complete bucket key u request)
      (gone : s.multipart.getMultipartUpload u = none) : Looks a s job .retrying
  | answered {bucket key u : String} {request : CompleteRequest} {r : ObjectRecord}
      (call : job.call = .complete bucket key u request) (phase : job.phase = .retrying)
      (current : fetchCurrentObject bucket key s.table.rows = some r) (dash : '-' ∈ r.etag.toList) :
      Looks a s job (.done (.ok r.etag))
  | checking {bucket key u : String} {request : CompleteRequest} {upload : MultipartUploadRecord}
      (call : job.call = .complete bucket key u request) (found : Found s bucket key u upload) :
      Looks a s job (.checking upload)
  | listing {bucket key u : String} {request : CompleteRequest} {upload : MultipartUploadRecord}
      (call : job.call = .complete bucket key u request) (phase : job.phase = .checking upload) :
      Looks a s job (.listing upload)
  | assembling {bucket key u : String} {request : CompleteRequest} {upload : MultipartUploadRecord}
      {matched : List PartRecord} {checksum : Option ObjectChecksum}
      (call : job.call = .complete bucket key u request) (phase : job.phase = .listing upload)
      (selected : selectParts a (s.multipart.listParts u) upload request = .ok (matched, checksum)) :
      Looks a s job (.assembling upload matched checksum)
  | closing : Looks a s job .closing

lemma looks_findUpload {next : MultipartUploadRecord → Phase}
    (found : ∀ upload, Found s bucket key u upload → Looks a s job (next upload)) :
    Looks a s job (s.findUpload bucket key u next) := by
  unfold Node.findUpload
  cases get : s.multipart.getMultipartUpload u with
  | none => exact .refused _
  | some upload =>
    dsimp only
    split
    · exact .refused _
    · next same =>
        simp only [not_or, not_ne_iff] at same
        exact found upload ⟨get, same.1, same.2⟩

lemma looks_look (job : Job) : Looks a s job (s.look a job) := by
  obtain ⟨call, phase⟩ := job
  unfold Node.look
  cases phase with
  | arrived =>
    cases call with
    | uploadPart bucket key u n =>
      dsimp only
      split
      · exact .refused _
      · exact looks_findUpload fun upload found => .receiving rfl found
    | uploadPartCopy bucket key u n =>
      exact looks_findUpload fun upload found => .receiving rfl found
    | complete bucket key u request =>
      dsimp only
      split
      · next gone => exact .retrying rfl (Option.isNone_iff_eq_none.mp gone)
      · exact looks_findUpload fun upload found => .checking rfl found
    | abort u =>
      dsimp only
      split
      · exact .refused _
      · exact .closing
    | expire u => exact .closing
  | retrying =>
    cases call with
    | complete bucket key u request =>
      dsimp only
      cases current : fetchCurrentObject bucket key s.table.rows with
      | none => exact .refused _
      | some r =>
        dsimp only
        split
        · next dash => exact .answered rfl rfl current dash
        · exact .refused _
    | uploadPart | uploadPartCopy | abort | expire => exact .same
  | checking upload =>
    cases call with
    | complete bucket key u request =>
      dsimp only
      split
      · exact .refused _
      · exact .listing rfl rfl
    | uploadPart | uploadPartCopy | abort | expire => exact .same
  | listing upload =>
    cases call with
    | complete bucket key u request =>
      dsimp only
      split
      · exact .refused _
      · next selected => exact .assembling rfl rfl selected
    | uploadPart | uploadPartCopy | abort | expire => exact .same
  | receiving | stored | assembling | assembled | refused | closing | discarding | done => exact .same

lemma forall₂_selectParts {stored : List PartRecord}
    (h : selectParts a stored upload request = .ok (matched, checksum)) :
    List.Forall₂ (fun p c => p ∈ stored ∧ p.partNumber = c.partNumber ∧
      p.etag.toList = trimQuotes c.etag) matched (CompleteRequest.namedParts request.parts) := by
  unfold selectParts at h
  split at h
  · cases h
  · split at h
    · cases h
    · next ps matching =>
        split at h
        · cases h
        · cases plan : a.planComplete upload ps request with
          | error => simp [plan, Except.map] at h
          | ok => 
              simp only [plan, Except.map, Except.ok.injEq, Prod.mk.injEq] at h
              exact h.1 ▸ CompleteRequest.forall₂_matchParts matching

def plainAssembler : Assembler := ⟨fun _ => [], fun _ => ([], 0), fun _ _ _ => .ok none⟩

def opened : MultipartUploadRecord := ⟨"u", "b", "k", none, 0, [], none, "o", none⟩

def emptyNode : Node :=
  ⟨⟨[], fun _ => .unversioned, false⟩, ⟨[opened], []⟩, .empty, [], [""], []⟩

def onePart : PartBody := ⟨[1], 1, "00000000000000000000000000000000", false, none⟩

def completePart : CompleteRequest :=
  ⟨[⟨1, "00000000000000000000000000000000".toList, []⟩], ⟨none, none⟩, "o"⟩

end Arca.Multipart
