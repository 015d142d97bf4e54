import Arca.Blob.Format
import Arca.Storage.BlobStore

/-!
# The blob stores of one node

`FsBlobStore` keeps a file and a sidecar for each blob. `EncryptingBlobStore` and
`CompressingBlobStore` are decorators over it: they write through a stream that
encodes and read by what the sidecar says. A composite blob has a sidecar that lists
its parts and no file.
-/
namespace Arca.Blob
open Chunked Framed Compression

structure EncryptionInfo where
  algorithm : String
  encryptedDek : String
  dekNonce : String
  noncePrefix : String
  keyId : String
  deriving DecidableEq

structure CompressionInfo where
  algorithm : CompressionAlgorithm
  chunkSize : ℕ
  originalSize : ℕ
  compressedSize : ℕ
  deriving DecidableEq

structure CompositePart where
  blobId : String
  plaintextSize : ℕ
  plaintextEtag : String
  encryption : Option EncryptionInfo
  deriving DecidableEq

structure SidecarMeta where
  bucket : String
  key : String
  size : ℕ
  etag : String
  contentType : Option String
  lastModified : String
  metadata : List (String × String)
  encryption : Option EncryptionInfo
  compression : Option CompressionInfo
  versionId : Option String
  composite : Option (List CompositePart)
  deriving DecidableEq

structure Disk where
  files : String → Option Bytes
  sidecars : String → Option SidecarMeta

/-- `aborted` is a panic: the task ends and the connection with it. -/
inductive StoreError where
  | internal (message : String)
  | decryptionFailed (message : String)
  | aborted
  deriving DecidableEq

def StoreError.toString : StoreError → String
  | .internal m => "internal error: " ++ m
  | .decryptionFailed m => "decryption failed: " ++ m
  | .aborted => "panicked"

structure ByteRange where
  start : ℕ
  last : Option ℕ
  deriving DecidableEq

def ByteRange.lastIn (r : ByteRange) (size : ℕ) : ℕ :=
  (r.last.map (min · (size - 1))).getD (size - 1)

structure BlobGetResult where
  stream : Except String Bytes
  contentLength : ℕ

abbrev Reading := Except StoreError BlobGetResult

def internalError {α : Type} (context : String) : Except String α → Except StoreError α
  | .ok a => .ok a
  | .error e => .error (.internal (context ++ ": " ++ e))

def Disk.open_ (d : Disk) (id context : String) : Except StoreError Bytes :=
  match d.files id with
  | some file => .ok file
  | none => .error (.internal (context ++ ": No such file or directory (os error 2)"))

/-- `seek` and `take`; the length is the one that unsigned arithmetic wraps to. -/
def readFile (file : Bytes) : Option ByteRange → BlobGetResult
  | none => ⟨.ok file, file.length⟩
  | some r =>
    let length := r.lastIn file.length + 1 - r.start
    ⟨.ok ((file.drop r.start).take length), length⟩

structure PartRead where
  part : CompositePart
  range : Option ByteRange

def planParts (rangeStart rangeEnd contentLength : ℕ) : ℕ → List CompositePart → List PartRead
  | _, [] => []
  | cum, part :: parts =>
    let stop := cum + part.plaintextSize
    if part.plaintextSize = 0 ∨ contentLength = 0 ∨ stop ≤ rangeStart ∨ rangeEnd < cum then
      planParts rangeStart rangeEnd contentLength stop parts
    else
      let subStart := rangeStart - cum
      let subEnd := min (rangeEnd - cum) (part.plaintextSize - 1)
      let range := if subStart = 0 ∧ subEnd = part.plaintextSize - 1 then none
        else some ⟨subStart, some subEnd⟩
      ⟨part, range⟩ :: planParts rangeStart rangeEnd contentLength stop parts

variable (parts : List CompositePart)

def totalSize : ℕ := (parts.map CompositePart.plaintextSize).sum

def planCompositeRead (range : Option ByteRange) : List PartRead × ℕ :=
  let total := totalSize parts
  let rangeStart := (range.map ByteRange.start).getD 0
  let rangeEnd := (range.map (·.lastIn total)).getD (total - 1)
  let contentLength := if total = 0 then 0 else rangeEnd + 1 - rangeStart
  (planParts rangeStart rangeEnd contentLength 0 parts, contentLength)

/-- The streams of parts that are opened when the one before has ended. -/
def chainStreams : List (Except StoreError (Except String Bytes)) → Except String Bytes
  | [] => .ok []
  | .error e :: _ => .error e.toString
  | .ok stream :: rest => do
      let bytes ← stream
      let more ← chainStreams rest
      return bytes ++ more

/-- The first part is opened before there is a stream at all. -/
def concatLazily : List (Except StoreError (Except String Bytes)) →
    Except StoreError (Except String Bytes)
  | .error e :: _ => .error e
  | opened => .ok (chainStreams opened)

def readComposite (range : Option ByteRange)
    (open_ : PartRead → Except StoreError BlobGetResult) : Reading := do
  let (reads, contentLength) := planCompositeRead parts range
  let stream ← concatLazily (reads.map fun read => (open_ read).map BlobGetResult.stream)
  return ⟨stream, contentLength⟩

namespace FsBlobStore
variable (d : Disk)

def getPartData (id : String) (range : Option ByteRange) : Reading := do
  let file ← d.open_ id "open part blob"
  return readFile file range

def getKnown (id : String) (sidecar : Option SidecarMeta) (range : Option ByteRange) : Reading :=
  match sidecar.bind SidecarMeta.composite with
  | some parts => readComposite parts range fun read => getPartData d read.part.blobId read.range
  | none => do
      let file ← d.open_ id "open blob"
      return readFile file range

def get (id : String) (range : Option ByteRange) : Reading := getKnown d id (d.sidecars id) range

end FsBlobStore

def makeAeadKey (key : Bytes) : Except StoreError Bytes :=
  if key.length = 32 then .ok key
  else .error (.internal "create AEAD key: invalid AES-256-GCM key")

variable (L : Libraries)

def encryptedHeader (file : Bytes) : Except StoreError ℕ :=
  if file.length < Encryption.headerSize then .error (.internal "read header: early eof")
  else internalError "parse header" (Encryption.parseHeader (file.take Encryption.headerSize))

variable (key nonce4 : Bytes)

def decryptFull (payloadSize : ℕ) (file : Bytes) : Reading := do
  let chunkSize ← encryptedHeader file
  let key ← makeAeadKey key
  let F := Encryption.framing L key nonce4 chunkSize
  let stream := (F.reader.run 0 [] (L.arriving (file.drop Encryption.headerSize))).map Prod.fst
  return ⟨stream, payloadSize⟩

/-- It reads from the first chunk the range touches to the end of the last one. -/
def decryptRange (payloadSize : ℕ) (file : Bytes) (range : ByteRange) : Reading := do
  let chunkSize ← encryptedHeader file
  let rangeStart := range.start
  let rangeEnd := range.lastIn payloadSize
  let contentLength := rangeEnd + 1 - rangeStart
  let firstChunk := rangeStart / chunkSize
  let lastChunk := rangeEnd / chunkSize
  let diskStart := Encryption.chunkDiskOffset firstChunk chunkSize
  let diskEnd := Encryption.slabEnd lastChunk payloadSize chunkSize file.length
  if diskEnd < diskStart then .error .aborted
  else if file.length < diskEnd then .error (.internal "read chunks: early eof")
  else
    let chunkData := (file.drop diskStart).take (diskEnd - diskStart)
    let key ← makeAeadKey key
    let F := Encryption.framing L key nonce4 chunkSize
    let plaintext ← internalError "decrypt range"
      (F.readRange rangeStart rangeEnd firstChunk chunkData)
    return ⟨.ok plaintext, contentLength⟩

def decrypt (payloadSize : ℕ) (file : Bytes) : Option ByteRange → Reading
  | none => decryptFull L key nonce4 payloadSize file
  | some range => decryptRange L key nonce4 payloadSize file range

structure MasterKey where
  keyBytes : Bytes
  keyId : String
  length_keyBytes : keyBytes.length = 32

namespace EncryptingBlobStore
variable (mk : MasterKey) (d : Disk)

def unwrapDek (info : EncryptionInfo) : Except StoreError Bytes :=
  match L.decode64 info.encryptedDek, L.decode64 info.dekNonce with
  | none, _ => .error (.internal "decode encrypted_dek")
  | some _, none => .error (.internal "decode dek_nonce")
  | some encryptedDek, some dekNonce =>
    match if dekNonce.length = 12 then L.openChunk mk.keyBytes dekNonce encryptedDek else none with
    | some dek => .ok dek
    | none => .error (.decryptionFailed "The object was encrypted with a different master key and cannot be decrypted with the current key")

def nonceOf (info : EncryptionInfo) : Except StoreError Bytes :=
  match L.decode64 info.noncePrefix with
  | none => .error (.internal "decode nonce_prefix")
  | some nonce4 =>
    if nonce4.length = 4 then .ok nonce4
    else .error (.internal "nonce_prefix must be 4 bytes")

def getEncrypted (id : String) (info : EncryptionInfo) (payloadSize : ℕ)
    (range : Option ByteRange) : Reading := do
  let dek ← unwrapDek L mk info
  let nonce4 ← nonceOf L info
  let file ← d.open_ id "open blob"
  decrypt L dek nonce4 payloadSize file range

def getPart (read : PartRead) : Reading :=
  match read.part.encryption with
  | some info => getEncrypted L mk d read.part.blobId info read.part.plaintextSize read.range
  | none => FsBlobStore.get d read.part.blobId read.range

def payloadSize (m : SidecarMeta) : ℕ :=
  match m.compression with
  | some c => c.compressedSize
  | none => m.size

def getKnown (id : String) (sidecar : Option SidecarMeta) (range : Option ByteRange) : Reading :=
  match sidecar.bind SidecarMeta.composite with
  | some parts => readComposite parts range (getPart L mk d)
  | none =>
    match sidecar, sidecar.bind SidecarMeta.encryption with
    | some m, some info => getEncrypted L mk d id info (payloadSize m) range
    | _, _ => FsBlobStore.getKnown d id sidecar range

def get (id : String) (range : Option ByteRange) : Reading := getKnown L mk d id (d.sidecars id) range

end EncryptingBlobStore

/-- Where a whole-blob decode stands beyond the chunks themselves. -/
structure WholeBlob where
  headerChecked : Bool
  remaining : ℕ
  chunkLens : List ℕ

namespace WholeBlob
variable (a : CompressionAlgorithm) (w : WholeBlob) (buf : Bytes)

abbrev Step := Turn WholeBlob UInt8 UInt8 String Unit

def checkHeader : Step :=
  if buf.length < headerSize then .wait
  else match parseHeader (buf.take headerSize) with
    | .error e => .stop (.error e)
    | .ok (algorithm, _) =>
      if algorithm ≠ a then
        .stop (.error ("compression header says " ++ algorithm.debug ++ ", expected " ++ a.debug))
      else .take [] (buf.drop headerSize) { w with headerChecked := true }

def awaitFooter : Step :=
  if w.chunkLens.length * 4 + footerCountSize < buf.length then
    .stop (.error "unexpected data after the last compressed chunk")
  else .wait

def decodeChunk : Step :=
  if buf.length < chunkLenHeader then .wait
  else
    let compressedLen := fromLe32 buf
    let plaintextLen := fromLe32 (buf.drop 4)
    let total := chunkLenHeader + compressedLen
    if buf.length < total then .wait
    else if w.remaining < plaintextLen then .stop (.error "compressed chunks exceed the object size")
    else match L.decompressChunk a ((buf.drop chunkLenHeader).take compressedLen)
        plaintextLen with
      | .error e => .stop (.error e)
      | .ok decoded =>
        if decoded.length ≠ plaintextLen then
          .stop (.error ("chunk plaintext length mismatch: expected " ++ toString plaintextLen ++
            ", got " ++ toString decoded.length))
        else .take decoded (buf.drop total)
          { w with remaining := w.remaining - plaintextLen, chunkLens := w.chunkLens ++ [total] }

/-- `DecompressingStream::whole_blob`: the header, the chunks until the plaintext is
complete, and then exactly the footer that they imply. -/
def reader : Reader WholeBlob UInt8 UInt8 String Unit where
  turn w buf :=
    if ¬w.headerChecked then checkHeader a w buf
    else if w.remaining = 0 then awaitFooter w buf
    else decodeChunk L a w buf
  atEnd w buf :=
    if ¬w.headerChecked ∨ 0 < w.remaining then .error "truncated compressed blob"
    else if buf ≠ writeFooter w.chunkLens then
      .error "compressed footer does not match its chunks"
    else .ok ()

end WholeBlob

def collectStream (stream : Except String Bytes) : Except StoreError Bytes :=
  internalError "read stream" stream

namespace CompressingBlobStore
variable (inner : Option ByteRange → Reading) (info : CompressionInfo)

def getCompressedFull : Reading :=
  if info.originalSize = 0 then .ok ⟨.ok [], 0⟩
  else do
    let data ← inner none
    let stream := data.stream.bind fun bytes =>
      ((WholeBlob.reader L info.algorithm).run ⟨false, info.originalSize, []⟩ []
        (L.arriving bytes)).map Prod.fst
    return ⟨stream, info.originalSize⟩

def fetch (start last : ℕ) : Except StoreError Bytes := do
  let got ← inner (some ⟨start, some last⟩)
  collectStream got.stream

/-- The lengths on disk, from the footer: the count, then the index before it. -/
def readChunkLens : Except StoreError (List ℕ) := do
  let countStart := info.compressedSize - footerCountSize
  let countBuf ← fetch inner countStart (info.compressedSize - 1)
  if countBuf.length < 4 then .error .aborted
  else
    let n := fromLe32 countBuf
    let indexBuf ← if 0 < n then fetch inner (countStart - n * 4) (countStart - 1) else .ok []
    if indexBuf.length < n * 4 then .error .aborted
    else return (List.range n).map fun i => fromLe32 (indexBuf.drop (i * 4))

def getCompressedRange (range : ByteRange) : Reading := do
  let lens ← readChunkLens inner info
  let rangeStart := range.start
  let rangeEnd := range.lastIn info.originalSize
  let contentLength := rangeEnd + 1 - rangeStart
  let firstChunk := rangeStart / info.chunkSize
  let lastChunk := min (rangeEnd / info.chunkSize) (lens.length - 1)
  let diskStart := headerSize + (lens.take firstChunk).sum
  -- the loop over `first ..= last` indexes a list that is empty
  if firstChunk ≤ lastChunk ∧ lens.length ≤ lastChunk then .error .aborted
  else
    let slabLen := ((lens.take (lastChunk + 1)).drop firstChunk).sum
    let data ← fetch inner diskStart (diskStart + slabLen - 1)
    -- reading takes no level
    let F := framing L info.algorithm 0 info.chunkSize
    let plaintext ← internalError "decompress range"
      (F.readRange rangeStart rangeEnd firstChunk data)
    return ⟨.ok plaintext, contentLength⟩

def getCompressed : Option ByteRange → Reading
  | none => getCompressedFull L inner info
  | some range => getCompressedRange L inner info range

/-- The decorator over a store that reads by the sidecar it is handed. -/
def getKnown (inner : Option SidecarMeta → Option ByteRange → Reading)
    (sidecar : Option SidecarMeta) (range : Option ByteRange) : Reading :=
  match sidecar.bind SidecarMeta.compression with
  | none => inner sidecar range
  | some info => getCompressed L (inner sidecar) info range

end CompressingBlobStore

/-- The store the server reads through: compression over encryption over files, or,
without a master key, compression over files. -/
def readBlob (masterKey : Option MasterKey) (d : Disk) (id : String) (range : Option ByteRange) :
    Reading :=
  let inner := match masterKey with
    | some mk => EncryptingBlobStore.getKnown L mk d id
    | none => FsBlobStore.getKnown d id
  CompressingBlobStore.getKnown L inner (d.sidecars id) range

/-- `SsecBlobStore::get_with_key`; the nonce and the size come from the object's row. -/
def getWithKey (d : Disk) (id : String) (range : Option ByteRange) (customerKey nonce4 : Bytes)
    (plaintextSize : ℕ) : Reading := do
  let file ← d.open_ id "open blob"
  decrypt L customerKey nonce4 plaintextSize file range

end Arca.Blob
