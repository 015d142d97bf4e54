import Arca.Backends.StoreOps
import Arca.Storage.BlobStore
import Arca.Storage.Precondition

/-!
# Multipart uploads and their parts

The two tables of the SQLite store, the choice of parts that a complete request
names, and the assembly of the chosen parts into one blob. The digest of the
whole object and the cipher are parameters, and so is `plan_complete`, which can
only refuse a request or give the object its checksum. Tags are left out.
-/
namespace Arca
open List Option

structure MultipartUploadRecord where
  uploadId : String
  bucket : String
  key : String
  contentType : Option String
  initiatedAt : Instant
  metadata : List (String × String)
  checksumAlgorithm : Option String
  initiator : String
  checksumType : Option String
  deriving DecidableEq

structure PartRecord where
  uploadId : String
  partNumber : Nat
  blobId : String
  size : Nat
  etag : String
  checksumValue : Option String
  lastModified : Option Instant
  deriving DecidableEq

def PartRecord.isPart (uploadId : String) (partNumber : Nat) (p : PartRecord) : Bool :=
  p.uploadId = uploadId && p.partNumber = partNumber

structure MultipartTables where
  uploads : List MultipartUploadRecord
  parts : List PartRecord

namespace MultipartTables

section
variable (t : MultipartTables) (uploadId : String)

def getMultipartUpload : Option MultipartUploadRecord :=
  t.uploads.find? (·.uploadId = uploadId)

def createMultipartUpload (record : MultipartUploadRecord) : MultipartTables :=
  if (t.getMultipartUpload record.uploadId).isSome then t
  else { t with uploads := t.uploads ++ [record] }

/-- The upload of the part is not looked for. -/
def putPart (part : PartRecord) : MultipartTables :=
  { t with parts := t.parts.filter (!PartRecord.isPart part.uploadId part.partNumber ·) ++ [part] }

def oldPart (part : PartRecord) : Option PartRecord :=
  t.parts.find? (PartRecord.isPart part.uploadId part.partNumber)

def partsOf : List PartRecord :=
  t.parts.filter (·.uploadId = uploadId)

def listParts : List PartRecord :=
  (t.partsOf uploadId).insertionSort fun p q => p.partNumber ≤ q.partNumber

def takeUpload : MultipartTables :=
  ⟨t.uploads.filter (·.uploadId ≠ uploadId), t.parts.filter (·.uploadId ≠ uploadId)⟩

end

variable {t : MultipartTables} {u : String} {p q : PartRecord}

lemma mem_putPart : q ∈ (t.putPart p).parts ↔
    (q ∈ t.parts ∧ PartRecord.isPart p.uploadId p.partNumber q = false) ∨ q = p := by
  simp [putPart]

lemma mem_partsOf : p ∈ t.partsOf u ↔ p ∈ t.parts ∧ p.uploadId = u := by
  simp [partsOf]

lemma mem_listParts : p ∈ t.listParts u ↔ p ∈ t.parts ∧ p.uploadId = u := by
  simp [listParts, mem_partsOf]

lemma mem_takeUpload : p ∈ (t.takeUpload u).parts ↔ p ∈ t.parts ∧ p.uploadId ≠ u := by
  simp [takeUpload]

lemma getMultipartUpload_takeUpload {v : String} : (t.takeUpload u).getMultipartUpload v =
    if v = u then none else t.getMultipartUpload v := by
  unfold getMultipartUpload takeUpload
  rw [find?_filter]
  split
  · next same =>
      subst same
      simp
  · next other =>
      refine congrArg (List.find? · t.uploads) (funext fun r => ?_)
      by_cases named : r.uploadId = v <;> simp [named, other]

lemma uploadId_of_get {r : MultipartUploadRecord} (h : t.getMultipartUpload u = some r) :
    r.uploadId = u := by
  simpa using find?_some h

lemma oldPart_mem (h : t.oldPart p = some q) : q ∈ t.parts := mem_of_find?_eq_some h

lemma oldPart_isPart (h : t.oldPart p = some q) :
    q.uploadId = p.uploadId ∧ q.partNumber = p.partNumber := by
  simpa [PartRecord.isPart] using find?_some h

end MultipartTables

structure CompletePart where
  partNumber : Nat
  etag : Text
  checksums : List (String × String)
  deriving DecidableEq

structure CompleteRequest where
  parts : List CompletePart
  pre : WritePrecondition
  owner : String
  deriving DecidableEq

structure ObjectChecksum where
  algorithm : String
  value : String
  deriving DecidableEq

def minPartSize : Nat := 5242880

def maxPartNumber : Nat := 10000

namespace CompleteRequest

/-- Sorted by part number, of each number the entry given last. -/
def namedParts (parts : List CompletePart) : List CompletePart :=
  ((parts.insertionSort fun a b => a.partNumber ≤ b.partNumber).reverse.destutter
    fun a b => a.partNumber ≠ b.partNumber).reverse

def matchParts (stored : List PartRecord) : List CompletePart → Except S3ErrorCode (List PartRecord)
  | [] => .ok []
  | c :: cs =>
    match stored.find? (·.partNumber = c.partNumber) with
    | none => .error .invalidPart
    | some p =>
      if trimQuotes c.etag ≠ p.etag.toList then .error .invalidPart
      else (matchParts stored cs).map (p :: ·)

lemma forall₂_matchParts {stored : List PartRecord} {cs : List CompletePart}
    {ps : List PartRecord} (h : matchParts stored cs = .ok ps) :
    List.Forall₂ (fun p c => p ∈ stored ∧ p.partNumber = c.partNumber ∧
      p.etag.toList = trimQuotes c.etag) ps cs := by
  induction cs generalizing ps with
  | nil =>
    cases h
    exact .nil
  | cons c cs ih =>
    unfold matchParts at h
    cases found : stored.find? (·.partNumber = c.partNumber) with
    | none => simp [found] at h
    | some p =>
      simp only [found] at h
      split at h
      · cases h
      · next same =>
          cases rest : matchParts stored cs with
          | error => simp [rest, Except.map] at h
          | ok qs =>
            simp only [rest, Except.map, Except.ok.injEq] at h
            subst h
            refine .cons ⟨mem_of_find?_eq_some found, ?_, ?_⟩ (ih rest)
            · simpa using find?_some found
            · exact (not_ne_iff.mp same).symm

end CompleteRequest

structure Assembler where
  md5 : Bytes → Bytes
  /-- The parts in order, decrypted and written again as one encrypted file, and
  the size of their plaintext. -/
  reseal : List Bytes → Bytes × Nat
  planComplete : MultipartUploadRecord → List PartRecord → CompleteRequest →
    Except S3ErrorCode (Option ObjectChecksum)

namespace BlobDisk

/-- The parts of a composite of encrypted parts: `some none` when the parts have
to be encrypted again, `none` when a sidecar is missing or malformed. -/
def sealedParts (d : BlobDisk) : List String → Option (Option (List CompositePart))
  | [] => some (some [])
  | id :: ids =>
    match d.sidecars id with
    | none => none
    | some m =>
      if !m.encryption || m.compression then some none
      else if !isMd5Hex m.etag then none
      else (d.sealedParts ids).map (Option.map (⟨id, m.size, m.etag⟩ :: ·))

def sealedConcat (a : Assembler) (d : BlobDisk) (parts : List String) (output : String) :
    Option (BlobDisk × Option (List CompositePart)) :=
  match d.sealedParts parts with
  | none => none
  | some (some composite) => some (d, some composite)
  | some none => (parts.mapM d.files).map fun bodies => (d.writeRaw output (a.reseal bodies).1, none)

lemma lists_sealedParts {d : BlobDisk} {ids : List String} {parts : List CompositePart}
    (h : d.sealedParts ids = some (some parts)) : List.Forall₂ d.Lists parts ids := by
  induction ids generalizing parts with
  | nil =>
    cases h
    exact .nil
  | cons id ids ih =>
    unfold sealedParts at h
    cases sidecar : d.sidecars id with
    | none => simp [sidecar] at h
    | some m =>
      simp only [sidecar] at h
      split at h
      · cases h
      · split at h
        · cases h
        · obtain ⟨scan, found, eq⟩ := map_eq_some_iff.mp h
          obtain ⟨rest, rfl, rfl⟩ := map_eq_some_iff.mp eq
          exact .cons ⟨rfl, m, sidecar, rfl, rfl⟩ (ih found)

lemma assembles_sealedConcat {a : Assembler} {d : BlobDisk} {ids : List String} {output : String}
    {result : BlobDisk × Option (List CompositePart)}
    (h : d.sealedConcat a ids output = some result) : d.Assembles ids output result := by
  unfold sealedConcat at h
  cases scan : d.sealedParts ids with
  | none => simp [scan] at h
  | some outcome =>
    cases outcome with
    | some parts =>
      simp only [scan, some.injEq] at h
      exact .inl ⟨parts, h.symm, lists_sealedParts scan⟩
    | none =>
      simp only [scan] at h
      obtain ⟨bodies, -, rfl⟩ := map_eq_some_iff.mp h
      exact .inr ⟨_, rfl⟩

def assembledSize (a : Assembler) (d : BlobDisk) (encrypting : Bool) (parts : List String) :
    Option (List CompositePart) → Nat
  | some composite => (composite.map CompositePart.plaintextSize).sum
  | none =>
    let bodies := (parts.mapM d.files).getD []
    if encrypting then (a.reseal bodies).2 else bodies.flatten.length

end BlobDisk

def hexDecode : List Char → Option Bytes
  | [] => some []
  | a :: b :: rest => do
      let high ← Text.hexValue a
      let low ← Text.hexValue b
      (hexDecode rest).map (UInt8.ofNat (16 * high + low) :: ·)
  | [_] => none

/-- `hex(MD5(MD5 of part 1, MD5 of part 2, …))-count`; `none` when an ETag is no
hexadecimal text. -/
def compositeEtag (a : Assembler) (parts : List PartRecord) : Option String :=
  (parts.mapM fun p => hexDecode p.etag.toList).map fun digests =>
    String.ofList (Text.hexEncode (a.md5 digests.flatten)) ++ "-" ++ toString parts.length

end Arca
