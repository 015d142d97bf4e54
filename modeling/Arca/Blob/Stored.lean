import Arca.Blob.ServesCompressed
import Arca.Blob.Writes

/-!
# How a content is stored

What must lie on disk for a content to be served through the server's stack: its
payload, plain or sealed, under a sidecar that says which, possibly compressed; or
the parts of a composite.
-/
namespace Arca.Blob
open Chunked Option EncryptingBlobStore

variable (L : Libraries) (masterKey : Option MasterKey)

/-- What the layer over files finds under `id`, given the encryption it is told of. -/
inductive Payload (d : Disk) (id : String) : Option EncryptionInfo → Bytes → Prop where
  | plain {payload : Bytes} (file : d.files id = some payload) : Payload d id none payload
  | sealed {payload dek nonce4 : Bytes} {mk : MasterKey} {info : EncryptionInfo}
      (key : masterKey = some mk) (dek_eq : unwrapDek L mk info = .ok dek)
      (length : dek.length = 32) (nonce_eq : nonceOf L info = .ok nonce4)
      (file : d.files id = some (Encryption.file L dek nonce4 payload)) :
      Payload d id (some info) payload

/-- A part of a composite: the part itself has no parts. -/
structure PartStored (d : Disk) (part : CompositePart) (content : Bytes) : Prop where
  payload : Payload L masterKey d part.blobId part.encryption content
  size : part.plaintextSize = content.length
  single : ∃ m, d.sidecars part.blobId = some m ∧ m.composite = none

/-- An object that is read through the server's stack, with the number of its chunks if
it is compressed. -/
inductive Stored (d : Disk) (id : String) (content : Bytes) : Option ℕ → Prop where
  | single {m : SidecarMeta} (sidecar : d.sidecars id = some m) (no_parts : m.composite = none)
      (raw : m.compression = none) (size : m.size = content.length)
      (payload : Payload L masterKey d id m.encryption content) : Stored d id content none
  | compressed {m : SidecarMeta} (a : CompressionAlgorithm) (level : Int)
      (sidecar : d.sidecars id = some m) (no_parts : m.composite = none)
      (info : m.compression = some (CompressingBlobStore.infoOf L a level content))
      (payload : Payload L masterKey d id m.encryption (Compression.file L a level content)) :
      Stored d id content (some (Compression.chunkLens L a level content).length)
  | composite {m : SidecarMeta} (parts : List (CompositePart × Bytes))
      (sidecar : d.sidecars id = some m) (listed : m.composite = some (parts.map Prod.fst))
      (raw : m.compression = none) (joined : content = (parts.map Prod.snd).flatten)
      (all : ∀ p ∈ parts, PartStored L masterKey d p.1 p.2) : Stored d id content none

/-- Nothing that `d` has is gone or changed in `d'`. -/
structure Disk.Keeps (d d' : Disk) : Prop where
  files : ∀ id file, d.files id = some file → d'.files id = some file
  sidecars : ∀ id m, d.sidecars id = some m → d'.sidecars id = some m

section
variable {L masterKey} {d d' : Disk} {id : String}

lemma Payload.keep (keeps : d.Keeps d') {e : Option EncryptionInfo} {payload : Bytes}
    (h : Payload L masterKey d id e payload) : Payload L masterKey d' id e payload := by
  cases h with
  | plain file => exact .plain (keeps.files _ _ file)
  | sealed key dek length nonce file => exact .sealed key dek length nonce (keeps.files _ _ file)

lemma PartStored.keep (keeps : d.Keeps d') {part : CompositePart} {content : Bytes}
    (h : PartStored L masterKey d part content) : PartStored L masterKey d' part content := by
  obtain ⟨m, sidecar, single⟩ := h.single
  exact ⟨h.payload.keep keeps, h.size, m, keeps.sidecars _ _ sidecar, single⟩

lemma Stored.keep (keeps : d.Keeps d') {content : Bytes} {chunks : Option ℕ}
    (h : Stored L masterKey d id content chunks) : Stored L masterKey d' id content chunks := by
  cases h with
  | single sidecar no_parts raw size payload =>
    exact .single (keeps.sidecars _ _ sidecar) no_parts raw size (payload.keep keeps)
  | compressed a level sidecar no_parts info payload =>
    exact .compressed a level (keeps.sidecars _ _ sidecar) no_parts info (payload.keep keeps)
  | composite parts sidecar listed raw joined all =>
    exact .composite parts (keeps.sidecars _ _ sidecar) listed raw joined
      fun p mem => (all p mem).keep keeps

def innerGet (L : Libraries) (masterKey : Option MasterKey) (d : Disk) (id : String) :
    Option SidecarMeta → Option ByteRange → Reading :=
  match masterKey with
  | some mk => getKnown L mk d id
  | none => FsBlobStore.getKnown d id

lemma readBlob_eq (range : Option ByteRange) : readBlob L masterKey d id range =
    CompressingBlobStore.getKnown L (innerGet L masterKey d id) (d.sidecars id) range := by
  cases masterKey <;> rfl

variable {mk : MasterKey} {info : EncryptionInfo} {m : SidecarMeta}

lemma getEncrypted_eq {dek nonce4 file : Bytes}
    {size : ℕ} {range : Option ByteRange} (dek_eq : unwrapDek L mk info = .ok dek)
    (nonce_eq : nonceOf L info = .ok nonce4) (file_eq : d.files id = some file) :
    getEncrypted L mk d id info size range =
      decrypt L dek nonce4 size file range := by
  have opened : d.open_ id "open blob" = .ok file := by rw [Disk.open_, file_eq]
  rw [getEncrypted, dek_eq, ok_bind, nonce_eq, ok_bind, opened, ok_bind]

/-- A blob that is no composite and is not told to be encrypted, or for which there is no
key, is read as the file it is. -/
lemma innerGet_file {file : Bytes} (no_parts : m.composite = none)
    (told : masterKey = none ∨ m.encryption = none) (file_eq : d.files id = some file) :
    innerGet L masterKey d id (some m) = fun range => .ok (readFile file range) := by
  funext range
  have opened : d.open_ id "open blob" = .ok file := by rw [Disk.open_, file_eq]
  have raw : FsBlobStore.getKnown d id (some m) range = .ok (readFile file range) := by
    simp only [FsBlobStore.getKnown, bind_some, no_parts, opened, ok_bind]
    rfl
  cases masterKey with
  | none => exact raw
  | some mk =>
    have plain : m.encryption = none := told.resolve_left (by simp)
    simp only [innerGet, getKnown, bind_some, no_parts, plain, raw]

lemma innerGet_sealed (no_parts : m.composite = none) (told : m.encryption = some info) :
    innerGet L (some mk) d id (some m) =
      getEncrypted L mk d id info (payloadSize m) := by
  funext range
  simp only [innerGet, getKnown, bind_some, no_parts, told]

lemma Payload.innerGet_eq {payload : Bytes} (no_parts : m.composite = none)
    (size : payloadSize m = payload.length)
    (h : Payload L masterKey d id m.encryption payload) :
    Serves (innerGet L masterKey d id (some m)) payload ∧
      Empties (innerGet L masterKey d id (some m)) := by
  generalize told : m.encryption = e at h
  cases h with
  | plain file =>
    rw [innerGet_file no_parts (.inr told) file]
    exact ⟨readFile_serves payload, readFile_empties payload⟩
  | @sealed _ dek nonce4 mk info key dek_eq length nonce_eq file =>
    have same : innerGet L masterKey d id (some m) =
        decrypt L dek nonce4 payload.length (Encryption.file L dek nonce4 payload) := by
      funext range
      rw [key, innerGet_sealed no_parts told, getEncrypted_eq dek_eq nonce_eq file, size]
    rw [same]
    exact ⟨decrypt_serves length, decrypt_empties _ _⟩

def openPart (L : Libraries) (masterKey : Option MasterKey) (d : Disk) : PartRead → Reading :=
  match masterKey with
  | some mk => getPart L mk d
  | none => fun read => FsBlobStore.getPartData d read.part.blobId read.range

variable (id) in
lemma innerGet_composite {parts : List CompositePart}
    (listed : m.composite = some parts) : innerGet L masterKey d id (some m) =
      fun range => readComposite parts range (openPart L masterKey d) := by
  funext range
  cases masterKey <;>
    simp only [innerGet, openPart, getKnown, FsBlobStore.getKnown,
      bind_some, listed]

variable {part : CompositePart}

lemma openPart_file {file : Bytes}
    (sidecar : d.sidecars part.blobId = some m) (single : m.composite = none)
    (told : masterKey = none ∨ part.encryption = none) (file_eq : d.files part.blobId = some file) :
    (fun range => openPart L masterKey d ⟨part, range⟩) = fun range => .ok (readFile file range) := by
  cases masterKey with
  | none => simp only [openPart, FsBlobStore.getPartData, Disk.open_, file_eq, ok_bind]; rfl
  | some mk =>
    have plain : part.encryption = none := told.resolve_left (by simp)
    simp only [openPart, getPart, plain, FsBlobStore.get,
      FsBlobStore.getKnown, sidecar, bind_some, single, Disk.open_, file_eq, ok_bind]
    rfl

lemma openPart_sealed
    (told : part.encryption = some info) : (fun range => openPart L (some mk) d ⟨part, range⟩) =
      getEncrypted L mk d part.blobId info part.plaintextSize := by
  simp only [openPart, getPart, told]

variable {content : Bytes}

lemma PartStored.serves
    (h : PartStored L masterKey d part content) :
    PartReads Delivers (openPart L masterKey d) part content := by
  obtain ⟨payload, size, m, sidecar, single⟩ := h
  refine ⟨size, fun _ => ?_⟩
  generalize told : part.encryption = e at payload
  cases payload with
  | plain file =>
    rw [openPart_file sidecar single (.inr told) file]
    exact (readFile_serves content).delivers
  | @sealed _ dek nonce4 held info key dek_eq length nonce_eq file =>
    have same : (fun range => openPart L masterKey d ⟨part, range⟩) =
        decrypt L dek nonce4 content.length (Encryption.file L dek nonce4 content) := by
      rw [key, openPart_sealed told, size]
      funext range
      exact getEncrypted_eq dek_eq nonce_eq file
    rw [same]
    exact (decrypt_serves length).delivers

lemma readBlob_of_raw (sidecar : d.sidecars id = some m)
    (raw : m.compression = none) : readBlob L masterKey d id = innerGet L masterKey d id (some m) := by
  funext range
  simp only [readBlob_eq, CompressingBlobStore.getKnown, sidecar, bind_some, raw]

lemma readBlob_of_compressed {a : CompressionAlgorithm} {level : Int}
    (sidecar : d.sidecars id = some m) (no_parts : m.composite = none)
    (info : m.compression = some (CompressingBlobStore.infoOf L a level content))
    (payload : Payload L masterKey d id m.encryption (Compression.file L a level content)) :
    ∃ inner, Serves inner (Compression.file L a level content) ∧ Empties inner ∧
      readBlob L masterKey d id = CompressingBlobStore.getCompressed L inner
        (CompressingBlobStore.infoOf L a level content) := by
  have size : payloadSize m = (Compression.file L a level content).length := by
    rw [payloadSize, info]
    rfl
  obtain ⟨served, empties⟩ := payload.innerGet_eq no_parts size
  refine ⟨_, served, empties, funext fun range => ?_⟩
  simp only [readBlob_eq, CompressingBlobStore.getKnown, sidecar, bind_some, info]

/-- **What is stored is served**, unless it has more compressed chunks than 32 bits count;
the full read delivers it in any case. -/
lemma Stored.serves {chunks : Option ℕ}
    (h : Stored L masterKey d id content chunks) :
    readBlob L masterKey d id none = .ok ⟨.ok content, content.length⟩ ∧
    (Serves (readBlob L masterKey d id) content ↔ ∀ n, chunks = some n → n < 2 ^ 32) := by
  cases h with
  | @single m sidecar no_parts raw size payload =>
    have plain_size : payloadSize m = content.length := by
      rw [payloadSize, raw, size]
    have served := (payload.innerGet_eq no_parts plain_size).1
    rw [← readBlob_of_raw sidecar raw] at served
    exact ⟨served.full, iff_of_true served (by simp)⟩
  | compressed a level sidecar no_parts info payload =>
    obtain ⟨inner, served, empties, same⟩ :=
      readBlob_of_compressed sidecar no_parts info payload
    rw [same, CompressingBlobStore.getCompressed_serves_iff served empties]
    exact ⟨CompressingBlobStore.getCompressedFull_file served, by simp⟩
  | composite parts sidecar listed raw joined all =>
    have served := readComposite_serves fun p mem => (all p mem).serves
    rw [← innerGet_composite id listed, ← readBlob_of_raw sidecar raw, ← joined] at served
    exact ⟨served.full, iff_of_true served (by simp)⟩

end
end Arca.Blob
