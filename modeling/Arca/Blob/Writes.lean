import Arca.Blob.Store
import Arca.Multipart.Uploads

/-!
# Writing blobs

The writes of each blob store, with the content as the stream it arrives in, and the
`concat` that assembles a multipart upload.
-/
namespace Arca.Blob
open Chunked

structure BlobPutResult where
  size : ℕ
  etag : String
  encryption : Option EncryptionInfo
  compression : Option CompressionInfo
  compositeParts : Option (List CompositePart)

/-- A body that arrives in pieces, with the places that are free in the pipeline of an
encrypting stream at each. -/
abbrev Upload := List (Bytes × ℕ)

def Upload.content (stream : Upload) : Bytes := (stream.map Prod.fst).flatten

/-- What an encrypted write draws at random: the key of the blob, the nonce under which
the master key wraps it, and the first four bytes of the chunks' nonces. -/
structure Entropy where
  dek : Bytes
  dekNonce : Bytes
  nonce4 : Bytes
  length_dek : dek.length = 32
  length_dekNonce : dekNonce.length = 12
  length_nonce4 : nonce4.length = 4

namespace Disk
variable (d : Disk) (id : String)

def writeFile (file : Bytes) : Disk := { d with files := Function.update d.files id (some file) }

def writeSidecar (m : SidecarMeta) : Disk :=
  { d with sidecars := Function.update d.sidecars id (some m) }

end Disk

variable (L : Libraries)

def etagOf (content : Bytes) : String := String.ofList (Text.hexEncode (L.md5 content))

def partsEtag (parts : List CompositePart) : String :=
  etagOf L (parts.flatMap fun p => (hexDecode p.plaintextEtag.toList).getD [])

namespace FsBlobStore

def put (d : Disk) (id : String) (stream : Upload) : Disk × BlobPutResult :=
  (d.writeFile id stream.content, ⟨stream.content.length, etagOf L stream.content, none, none, none⟩)

/-- The parts of a composite, if every one of them is plain. -/
def compositeParts (d : Disk) : List String → Option (List CompositePart)
  | [] => some []
  | id :: ids =>
    match d.sidecars id with
    | none => none
    | some m =>
      if m.encryption.isSome ∨ m.compression.isSome then none
      else if ¬Arca.BlobDisk.isMd5Hex m.etag then none
      else (compositeParts d ids).map (⟨id, m.size, m.etag, none⟩ :: ·)

def joinFiles (d : Disk) : List String → Except StoreError Bytes
  | [] => .ok []
  | id :: ids => do
      let file ← d.open_ id "open part blob"
      let rest ← joinFiles d ids
      return file ++ rest

def concat (d : Disk) (ids : List String) (output : String) :
    Except StoreError (Disk × BlobPutResult) :=
  match compositeParts d ids with
  | some parts => .ok (d, ⟨totalSize parts, partsEtag L parts, none, none, some parts⟩)
  | none => do
      let joined ← joinFiles d ids
      return (d.writeFile output joined, ⟨joined.length, etagOf L joined, none, none, none⟩)

end FsBlobStore

namespace EncryptingBlobStore
variable (mk : MasterKey) (entropy : Entropy)

def infoFor : EncryptionInfo where
  algorithm := "AES256"
  encryptedDek := L.encode64 (L.sealChunk mk.keyBytes entropy.dekNonce entropy.dek)
  dekNonce := L.encode64 entropy.dekNonce
  noncePrefix := L.encode64 entropy.nonce4
  keyId := mk.keyId

def put (d : Disk) (id : String) (stream : Upload) : Disk × BlobPutResult :=
  (d.writeFile id (Encryption.encryptingStream L entropy.dek entropy.nonce4 defaultChunkSize stream),
    ⟨stream.content.length, etagOf L stream.content, some (infoFor L mk entropy), none, none⟩)

/-- The parts of a composite of encrypted parts; `none` when one of them is not
encrypted or is compressed, and an error when there is none to be had. -/
def compositeParts (d : Disk) : List String → Except StoreError (Option (List CompositePart))
  | [] => .ok (some [])
  | id :: ids =>
    match d.sidecars id with
    | none => .error (.internal ("missing sidecar for multipart part " ++ id))
    | some m =>
      match m.encryption with
      | none => .ok none
      | some info =>
        if m.compression.isSome then .ok none
        else if ¬Arca.BlobDisk.isMd5Hex m.etag then
          .error (.internal ("part " ++ id ++ " has malformed etag (not 16 bytes)"))
        else do
          let rest ← compositeParts d ids
          return rest.map (⟨id, m.size, m.etag, some info⟩ :: ·)

/-- The encryption that marks a composite; its parts carry their own. -/
def marker : EncryptionInfo := ⟨"AES256", "", "", "", mk.keyId⟩

def concat (d : Disk) (ids : List String) (output : String) :
    Except StoreError (Disk × BlobPutResult) := do
  match ← compositeParts d ids with
  | some parts =>
    return (d, ⟨totalSize parts, partsEtag L parts, some (marker mk), none, some parts⟩)
  | none =>
    -- decrypts each part in order and encrypts the whole into a new blob
    let combined ← concatLazily (ids.map fun id => (get L mk d id none).map BlobGetResult.stream)
    let content ← internalError "read stream" combined
    return put L mk entropy d output ((L.arriving content).map (·, 4))

end EncryptingBlobStore

variable (encrypt : Option (MasterKey × Entropy))

def putInner (d : Disk) (id : String) (stream : Upload) : Disk × BlobPutResult :=
  match encrypt with
  | none => FsBlobStore.put L d id stream
  | some (mk, entropy) => EncryptingBlobStore.put L mk entropy d id stream

/-- `CompressingBlobStore::put_with_hints`, with what it resolved the hints to. -/
def putWithHints
    (resolved : Option (CompressionAlgorithm × Int)) (d : Disk) (id : String) (stream : Upload) :
    Disk × BlobPutResult :=
  match resolved with
  | none => putInner L encrypt d id stream
  | some (algorithm, level) =>
    let compressed := Compression.compressingStream L algorithm level (stream.map Prod.fst)
    let (d, inner) := putInner L encrypt d id ((L.arriving compressed).map (·, 4))
    (d, ⟨stream.content.length, etagOf L stream.content, inner.encryption,
      some ⟨algorithm, defaultChunkSize, stream.content.length, inner.size⟩, none⟩)

def concatInner (d : Disk) (ids : List String)
    (output : String) : Except StoreError (Disk × BlobPutResult) :=
  match encrypt with
  | none => FsBlobStore.concat L d ids output
  | some (mk, entropy) => EncryptingBlobStore.concat L mk entropy d ids output

def putWithKey (customerKey nonce4 : Bytes) (d : Disk) (id : String) (stream : Upload) :
    Disk × BlobPutResult :=
  (d.writeFile id (Encryption.encryptingStream L customerKey nonce4 defaultChunkSize stream),
    ⟨stream.content.length, etagOf L stream.content, none, none, none⟩)

structure Naming where
  bucket : String
  key : String
  contentType : Option String
  lastModified : String
  metadata : List (String × String)

/-- The sidecar of a blob, from the result of its store; no handler writes a version. -/
def sidecarOf (n : Naming) (etag : String) (r : BlobPutResult) : SidecarMeta where
  bucket := n.bucket
  key := n.key
  size := r.size
  etag := etag
  contentType := n.contentType
  lastModified := n.lastModified
  metadata := n.metadata
  encryption := r.encryption
  compression := r.compression
  versionId := none
  composite := r.compositeParts

end Arca.Blob
