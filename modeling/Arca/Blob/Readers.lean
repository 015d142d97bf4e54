import Arca.Blob.RangedReads

/-!
# No reader delivers ciphertext as content

Every operation that consumes an object's bytes opens its blob in one of two
ways. That stack decodes by the sidecar, but only with a master key does it look
at the encryption there.
-/
namespace Arca.Blob.Readers
open Chunked RangedReads List Option EncryptingBlobStore Function CompressingBlobStore Encryption BlobGetResult

structure Row where
  blobId : String
  size : ℕ
  encryptionAlgorithm : Option String
  encryptionKeyId : Option String

def Row.isSsec (row : Row) : Bool := row.encryptionAlgorithm = some "SSE-C"

structure Config where
  masterKey : Option MasterKey
  ssec : Bool

inductive Operation where
  | getObject (range : Option ByteRange) (customerKey : Option Bytes)
  | copyObject (customerKey : Option Bytes)
  | uploadPartCopy (range : Option (ℕ × ℕ))
  | archive
  | deliverPut

inductive Failure where
  | refused (message : String)
  | store (e : StoreError)
  | stream (message : String)
  deriving DecidableEq

def collect (reading : Reading) : Except Failure Bytes :=
  match reading with
  | .error e => .error (.store e)
  | .ok got =>
    match got.stream with
    | .error message => .error (.stream message)
    | .ok bytes => .ok bytes

variable (L : Libraries) (config : Config) (d : Disk)

/-- `decode_ssec_nonce_prefix` -/
def decodeSsecNonce (keyId : Option String) : Option Bytes :=
  (keyId.bind L.decode64).filter (·.length = 4)

def requireKey (row : Row) (customerKey : Option Bytes) (message : String) : Except Failure Unit :=
  if row.isSsec ∧ customerKey = none then .error (.refused message) else .ok ()

def checkRange (size : ℕ) : Option ByteRange → Except Failure Unit
  | none => .ok ()
  | some r => if r.Within size then .ok () else .error (.refused "InvalidRange")

def openObject (row : Row) (customerKey : Option Bytes) (range : Option ByteRange)
    (badNonce : String) : Except Failure Bytes :=
  if row.isSsec then
    if ¬config.ssec then .error (.refused "SSE-C is not available")
    else match decodeSsecNonce L row.encryptionKeyId with
      | none => .error (.store (.internal badNonce))
      | some nonce4 =>
        collect (getWithKey L d row.blobId range (customerKey.getD []) nonce4 row.size)
  else collect (readBlob L config.masterKey d row.blobId range)

def deliver (row : Row) : Operation → Except Failure Bytes
  | .getObject range customerKey => do
      requireKey row customerKey
        "The object was stored using SSE-C. You must provide the customer encryption key."
      checkRange row.size range
      openObject L config d row customerKey range "invalid SSE-C nonce prefix"
  | .copyObject customerKey => do
      requireKey row customerKey
        "The source object was stored using SSE-C. You must provide the source encryption key."
      openObject L config d row customerKey none "invalid SSE-C nonce prefix on source"
  | .uploadPartCopy none => collect (readBlob L config.masterKey d row.blobId none)
  | .uploadPartCopy (some (start, last)) =>
    if last < start ∨ row.size ≤ last then
      .error (.refused "The requested range is not satisfiable")
    else collect (readBlob L config.masterKey d row.blobId (some ⟨start, some last⟩))
  | .archive | .deliverPut => collect (readBlob L config.masterKey d row.blobId none)

def Operation.requested (plaintext : Bytes) : Operation → Bytes
  | .getObject (some r) _ => r.of plaintext
  | .uploadPartCopy (some (start, last)) => (⟨start, some last⟩ : ByteRange).of plaintext
  | _ => plaintext

/-- How an object was stored, and whether a master key sealed any of it: its file, a
part that is not empty, or a file that was joined. -/
inductive Storage where
  | single (isSealed : Bool)
  | compressed (isSealed : Bool) (chunks : ℕ)
  | customer
  | composite (isSealed : Bool)
  | joined (isSealed : Bool)
  deriving DecidableEq

structure Object where
  row : Row
  plaintext : Bytes
  storage : Storage

structure Part where
  id : String
  content : Bytes
  isSealed : Bool
  deriving DecidableEq

structure State where
  disk : Disk
  parts : List Part
  objects : List Object

def State.initial : State := ⟨⟨fun _ => none, fun _ => none⟩, [], []⟩

/-- The writes of servers that share the disk one after another, each with the master key
it was configured with at the time and the random bytes it draws. -/
inductive Event where
  | putObject (id : String) (stack : Option (MasterKey × Entropy))
      (resolved : Option (CompressionAlgorithm × Int)) (stream : Upload) (naming : Naming)
  | putWithKey (id : String) (customer : CustomerKey) (stream : Upload) (naming : Naming)
  | uploadPart (id : String) (stack : Option (MasterKey × Entropy)) (stream : Upload)
      (naming : Naming)
  | complete (id : String) (parts : List Part) (stack : Option (MasterKey × Entropy))
      (etag : String) (naming : Naming)

def Event.id : Event → String
  | .putObject id .. | .putWithKey id .. | .uploadPart id .. | .complete id .. => id

def Event.assembles : Event → List Part
  | .complete _ parts _ _ _ => parts
  | _ => []

def rowOf (id : String) (size : ℕ) (encryption : Option EncryptionInfo) : Row where
  blobId := id
  size := size
  encryptionAlgorithm := encryption.map EncryptionInfo.algorithm
  encryptionKeyId := encryption.map fun e => if e.algorithm = "SSE-C" then e.noncePrefix else e.keyId

/-- A composite if the store listed the parts; else their files, joined or sealed again. -/
def storageOf (stack : Option (MasterKey × Entropy)) (parts : List Part) (r : BlobPutResult) :
    Storage :=
  if r.compositeParts.isSome then .composite (parts.any fun p => p.isSealed ∧ p.content ≠ [])
  else if stack.isSome then .single true
  else .joined (parts.any Part.isSealed)

def apply (s : State) : Event → State
  | .putObject id stack resolved stream naming =>
    let (d, r) := putWithHints L stack resolved s.disk id stream
    let storage := match chunksOf resolved stream.content with
      | none => .single stack.isSome
      | some n => .compressed stack.isSome n
    { s with
      disk := d.writeSidecar id (sidecarOf naming r.etag r)
      objects := ⟨rowOf id r.size r.encryption, stream.content, storage⟩ :: s.objects }
  | .putWithKey id customer stream naming =>
    let (d, r) := putWithKey L customer.key customer.nonce4 s.disk id stream
    let info := ssecInfo L customer.nonce4
    { s with
      disk := d.writeSidecar id { sidecarOf naming r.etag r with encryption := some info }
      objects := ⟨rowOf id r.size (some info), stream.content, .customer⟩ :: s.objects }
  | .uploadPart id stack stream naming =>
    let (d, r) := putInner L stack s.disk id stream
    { s with
      disk := d.writeSidecar id (sidecarOf naming r.etag r)
      parts := ⟨id, stream.content, stack.isSome⟩ :: s.parts }
  | .complete id parts stack etag naming =>
    match concatInner L stack s.disk (parts.map Part.id) id with
    | .error _ => s
    | .ok (d, r) =>
      { s with
        disk := d.writeSidecar id (sidecarOf naming etag r)
        objects := ⟨rowOf id r.size r.encryption, (parts.map Part.content).flatten,
          storageOf stack parts r⟩ :: s.objects }

def step (s : State) (e : Event) : State :=
  if s.disk.files e.id = none ∧ s.disk.sidecars e.id = none ∧ ∀ p ∈ e.assembles, p ∈ s.parts then
    apply L s e
  else s

/-- Every operation that succeeds has delivered the bytes it was asked for. -/
def Faithful (o : Object) : Prop :=
  ∀ op bytes, deliver L config d o.row op = .ok bytes → bytes = op.requested o.plaintext

/-- It has a key for what is sealed, its footers count the chunks, and no sealed file was joined. -/
def Decodable : Storage → Prop
  | .single isSealed | .composite isSealed => isSealed = true → config.masterKey ≠ none
  | .compressed isSealed chunks =>
    (isSealed = true → config.masterKey ≠ none) ∧ chunks < 2 ^ 32
  | .customer => config.masterKey ≠ none
  | .joined isSealed => isSealed = false

/-- Whatever key unwraps it, the data key is the one the file was sealed with. -/
structure Sealing (info : EncryptionInfo) (dek nonce4 : Bytes) : Prop where
  length : dek.length = 32
  nonce : nonceOf L info = .ok nonce4
  only : ∀ mk got, unwrapDek L mk info = .ok got → got = dek

inductive Held (id : String) : Option EncryptionInfo → Bytes → Prop where
  | plain {payload : Bytes} (file : d.files id = some payload) : Held id none payload
  | sealed {info : EncryptionInfo} {payload dek nonce4 : Bytes} (sealing : Sealing L info dek nonce4)
      (file : d.files id = some (file L dek nonce4 payload)) : Held id (some info) payload

variable {L config d} {d' : Disk} {id : String} {payload content : Bytes}

lemma Held.keep {e : Option EncryptionInfo} (keeps : d.Keeps d') (h : Held L d id e payload) :
    Held L d' id e payload := by
  cases h with
  | plain file => exact .plain (keeps.files _ _ file)
  | sealed sealing file => exact .sealed sealing (keeps.files _ _ file)

/-- The read either serves the content or always fails. -/
def ServesOrFails (read : Option ByteRange → Reading) (content : Bytes) : Prop :=
  Serves read content ∨ ∃ e, ∀ range, read range = .error e

lemma ServesOrFails.honest {read : Option ByteRange → Reading} (h : ServesOrFails read content) :
    Honest read content := by
  rcases h with served | ⟨e, fails⟩
  · exact served.honest
  · refine ⟨?_, fun r _ => ?_⟩
    · rw [fails]
      exact tells_error e _
    · rw [fails]
      exact tells_error e _

lemma Sealing.getEncrypted {info : EncryptionInfo} {dek nonce4 : Bytes}
    (sealing : Sealing L info dek nonce4)
    (file : d.files id = some (file L dek nonce4 payload)) (mk : MasterKey) :
    ServesOrFails (getEncrypted L mk d id info payload.length) payload := by
  cases unwrapped : unwrapDek L mk info with
  | error e =>
    refine .inr ⟨e, fun range => ?_⟩
    rw [EncryptingBlobStore.getEncrypted, unwrapped]
    rfl
  | ok got =>
    obtain rfl := sealing.only mk got unwrapped
    refine .inl ?_
    have same : EncryptingBlobStore.getEncrypted L mk d id info payload.length =
        decrypt L got nonce4 payload.length (Encryption.file L got nonce4 payload) := by
      funext range
      exact getEncrypted_eq unwrapped sealing.nonce file
    rw [same]
    exact decrypt_serves sealing.length

variable {m : SidecarMeta} {masterKey : Option MasterKey} {p : Part} {c : CompositePart}
  {parts : List Part} {o : Object}

lemma Held.innerGet (held : Held L d id m.encryption payload)
    (no_parts : m.composite = none) (size : payloadSize m = payload.length)
    (key : m.encryption.isSome → masterKey ≠ none) :
    ServesOrFails (Blob.innerGet L masterKey d id (some m)) payload := by
  generalize told : m.encryption = e at held key
  cases held with
  | plain file =>
    rw [innerGet_file no_parts (.inr told) file]
    exact .inl (readFile_serves payload)
  | sealed sealing file =>
    obtain ⟨mk, rfl⟩ := ne_none_iff_exists'.mp (key rfl)
    rw [innerGet_sealed no_parts told, size]
    exact sealing.getEncrypted file mk

lemma ServesOrFails.compressed {inner : Option ByteRange → Reading} {a : CompressionAlgorithm}
    {level : Int} (h : ServesOrFails inner (Compression.file L a level content))
    (few : (Compression.chunkLens L a level content).length < 2 ^ 32) :
    Honest (getCompressed L inner
      (infoOf L a level content)) content := by
  rcases h with served | ⟨e, fails⟩
  · exact (getCompressed_serves few served).honest
  constructor
  · by_cases empty : content.length = 0
    · have none_of_it := length_eq_zero_iff.mp empty
      subst none_of_it
      exact Delivers.tells rfl
    · have some_size : ¬(infoOf L a level content).originalSize = 0 := empty
      dsimp only [getCompressed, getCompressedFull]
      rw [if_neg some_size, fails]
      exact tells_error e _
  · intro r _
    have count : readChunkLens inner
        (infoOf L a level content) = .error e := by
      dsimp only [readChunkLens, fetch]
      rw [fails]
      rfl
    dsimp only [getCompressed, getCompressedRange]
    rw [count]
    exact tells_error e _

structure Part.Sound (L : Libraries) (d : Disk) (p : Part) (m : SidecarMeta) : Prop where
  sidecar : d.sidecars p.id = some m
  single : m.composite = none
  raw : m.compression = none
  size : m.size = p.content.length
  held : Held L d p.id m.encryption p.content
  isSealed : m.encryption.isSome = p.isSealed

lemma Part.Sound.keep (keeps : d.Keeps d') (h : p.Sound L d m) : p.Sound L d' m :=
  { h with sidecar := keeps.sidecars _ _ h.sidecar, held := h.held.keep keeps }

structure Lists (L : Libraries) (d : Disk) (p : Part) (c : CompositePart) : Prop where
  blobId : c.blobId = p.id
  size : c.plaintextSize = p.content.length
  sound : ∃ m, p.Sound L d m ∧ c.encryption = m.encryption

lemma Lists.keep (keeps : d.Keeps d') (h : Lists L d p c) : Lists L d' p c := by
  obtain ⟨m, sound, told⟩ := h.sound
  exact ⟨h.blobId, h.size, m, sound.keep keeps, told⟩

variable {listed : List CompositePart}

lemma lists_of_describe (sound : ∀ p ∈ parts, ∃ m, p.Sound L d m)
    (h : describe d (parts.map Part.id) = some listed) : List.Forall₂ (Lists L d) parts listed := by
  induction parts generalizing listed with
  | nil =>
    cases h
    exact .nil
  | cons p parts ih =>
    obtain ⟨m, here⟩ := sound p mem_cons_self
    simp only [map_cons, describe, here.sidecar] at h
    obtain ⟨rest, found, rfl⟩ := map_eq_some_iff.mp h
    exact .cons ⟨rfl, here.size, m, here, rfl⟩
      (ih (fun q mem => sound q (mem_cons_of_mem _ mem)) found)

lemma Lists.reads (h : Lists L d p c) (key : p.isSealed ∧ p.content ≠ [] → masterKey ≠ none) :
    PartReads Tells (openPart L masterKey d) c p.content := by
  obtain ⟨blobId, size, m, sound, told⟩ := h
  refine ⟨size, fun some_part => ?_⟩
  have held := sound.held
  have isSealed := sound.isSealed
  rw [← told] at held isSealed
  generalize is : c.encryption = e at held isSealed
  cases held with
  | plain file =>
    rw [openPart_file (blobId ▸ sound.sidecar) sound.single (.inr is) (blobId ▸ file)]
    exact (readFile_serves p.content).honest
  | sealed sealing file =>
    obtain ⟨mk, rfl⟩ := ne_none_iff_exists'.mp (key ⟨isSealed.symm, some_part⟩)
    rw [openPart_sealed is, size, blobId]
    exact (sealing.getEncrypted file mk).honest

lemma Part.Sound.file (h : p.Sound L d m) :
    ∃ file, d.files p.id = some file ∧ (p.isSealed = false → file = p.content) ∧
      (p.isSealed = true → p.content.length < file.length) := by
  have held := h.held
  have isSealed := h.isSealed
  generalize m.encryption = e at held isSealed
  cases held with
  | plain file => exact ⟨_, file, fun _ => rfl, fun given => absurd (given.symm.trans isSealed.symm) nofun⟩
  | sealed sealing file =>
    exact ⟨_, file, fun given => absurd (given.symm.trans isSealed.symm) nofun,
      fun _ => length_lt_file ..⟩

/-- Without a key the full read of a composite joins the files of the parts, sealed or not. -/
lemma composite_raw
    (lists : List.Forall₂ (Lists L d) parts listed) :
    ∃ files, List.Forall₂ Delivers ((listed.filter (·.plaintextSize ≠ 0)).map
        fun c => (openPart L none d ⟨c, none⟩).map stream) files ∧
      (parts.map Part.content).flatten.length ≤ files.flatten.length ∧
      ((parts.any fun p => p.isSealed ∧ p.content ≠ []) = true →
        (parts.map Part.content).flatten.length < files.flatten.length) := by
  induction lists with
  | nil => exact ⟨[], .nil, le_rfl, nofun⟩
  | @cons p c parts listed here _ ih =>
    obtain ⟨files, delivers, atLeast, more⟩ := ih
    obtain ⟨blobId, size, m, sound, -⟩ := here
    obtain ⟨file, file_eq, same, longer⟩ := sound.file
    simp only [map_cons, flatten_cons, length_append, any_cons]
    by_cases empty : p.content = []
    · have none_of_it : c.plaintextSize = 0 := by rw [size, empty]; rfl
      rw [filter_cons_of_neg (by simpa using none_of_it), empty]
      refine ⟨files, delivers, by simpa using atLeast, fun given => ?_⟩
      simpa using more (by simpa using given)
    · have some_part : c.plaintextSize ≠ 0 := by
        rw [size]
        exact (length_pos_iff.mpr empty).ne'
      have opened : Delivers ((openPart L none d ⟨c, none⟩).map stream) file := by
        have read : (fun range => openPart L none d ⟨c, range⟩) =
            fun range => .ok (readFile file range) :=
          openPart_file (blobId ▸ sound.sidecar) sound.single (.inl rfl) (blobId ▸ file_eq)
        rw [Delivers, congrFun read none]
        rfl
      rw [filter_cons_of_pos (by simpa using some_part), map_cons]
      refine ⟨file :: files, .cons opened delivers, ?_⟩
      rw [flatten_cons, length_append]
      cases isSealed : p.isSealed with
      | true =>
        have := longer isSealed
        exact ⟨by omega, fun _ => by omega⟩
      | false =>
        rw [same isSealed]
        refine ⟨by omega, fun given => ?_⟩
        have := more (by simpa using given)
        omega

lemma joinFiles_parts {joined : Bytes} (sound : ∀ p ∈ parts, ∃ m, p.Sound L d m)
    (h : FsBlobStore.joinFiles d (parts.map Part.id) = .ok joined) :
    (parts.any Part.isSealed = false → joined = (parts.map Part.content).flatten) ∧
      (parts.map Part.content).flatten.length ≤ joined.length ∧
      (parts.any Part.isSealed = true →
        (parts.map Part.content).flatten.length < joined.length) := by
  induction parts generalizing joined with
  | nil =>
    cases h
    exact ⟨fun _ => rfl, le_rfl, by simp⟩
  | cons p parts ih =>
    obtain ⟨m, here⟩ := sound p mem_cons_self
    obtain ⟨file, file_eq, same, longer⟩ := here.file
    have opened : d.open_ p.id "open part blob" = .ok file := by rw [Disk.open_, file_eq]
    rw [map_cons, FsBlobStore.joinFiles, opened, ok_bind] at h
    obtain ⟨rest, found, result⟩ := ok_of_bind h
    obtain ⟨all_plain, atLeast, more⟩ := ih (fun q mem => sound q (mem_cons_of_mem _ mem)) found
    rw [← Except.ok.inj result, map_cons, flatten_cons, length_append,
      length_append, any_cons]
    cases isSealed : p.isSealed with
    | true =>
      have := longer isSealed
      exact ⟨by simp, by omega, fun _ => by omega⟩
    | false =>
      rw [same isSealed]
      refine ⟨fun given => by rw [all_plain (by simpa using given)], by omega, fun given => ?_⟩
      have := more (by simpa using given)
      omega

inductive Sound (L : Libraries) (d : Disk) : Object → Prop where
  | single {row : Row} {plaintext : Bytes} {m : SidecarMeta} {isSealed : Bool}
      (told : m.encryption.isSome = isSealed) (unkeyed : row.isSsec = false)
      (size : row.size = plaintext.length) (sidecar : d.sidecars row.blobId = some m)
      (no_parts : m.composite = none) (raw : m.compression = none)
      (length : m.size = plaintext.length) (held : Held L d row.blobId m.encryption plaintext) :
      Sound L d ⟨row, plaintext, .single isSealed⟩
  | compressed {row : Row} {plaintext : Bytes} {m : SidecarMeta} {isSealed : Bool}
      (a : CompressionAlgorithm) (level : Int) (told : m.encryption.isSome = isSealed)
      (unkeyed : row.isSsec = false) (size : row.size = plaintext.length)
      (sidecar : d.sidecars row.blobId = some m) (no_parts : m.composite = none)
      (info : m.compression = some (infoOf L a level plaintext))
      (held : Held L d row.blobId m.encryption (Compression.file L a level plaintext)) :
      Sound L d ⟨row, plaintext,
        .compressed isSealed (Compression.chunkLens L a level plaintext).length⟩
  | customer {row : Row} {plaintext : Bytes} {m : SidecarMeta} (c : CustomerKey)
      (keyed : row.isSsec = true) (size : row.size = plaintext.length)
      (nonce : row.encryptionKeyId = some (L.encode64 c.nonce4))
      (sidecar : d.sidecars row.blobId = some m) (no_parts : m.composite = none)
      (raw : m.compression = none) (info : m.encryption = some (ssecInfo L c.nonce4))
      (file : d.files row.blobId = some (file L c.key c.nonce4 plaintext)) :
      Sound L d ⟨row, plaintext, .customer⟩
  | composite {row : Row} {m : SidecarMeta} {parts : List Part} {listed : List CompositePart}
      (unkeyed : row.isSsec = false) (size : row.size = totalSize listed)
      (sidecar : d.sidecars row.blobId = some m) (composite : m.composite = some listed)
      (raw : m.compression = none) (lists : List.Forall₂ (Lists L d) parts listed) :
      Sound L d ⟨row, (parts.map Part.content).flatten,
        .composite (parts.any fun p => p.isSealed ∧ p.content ≠ [])⟩
  | joined {row : Row} {plaintext joined : Bytes} {m : SidecarMeta} {isSealed : Bool}
      (unkeyed : row.isSsec = false) (size : row.size = joined.length)
      (sidecar : d.sidecars row.blobId = some m) (no_parts : m.composite = none)
      (raw : m.compression = none) (plain : m.encryption = none)
      (file : d.files row.blobId = some joined) (same : isSealed = false → joined = plaintext)
      (longer : isSealed = true → plaintext.length < joined.length) :
      Sound L d ⟨row, plaintext, .joined isSealed⟩

lemma Sound.keep (keeps : d.Keeps d') (h : Sound L d o) : Sound L d' o := by
  cases h with
  | single told unkeyed size sidecar no_parts raw length held =>
    exact .single told unkeyed size (keeps.sidecars _ _ sidecar) no_parts raw length (held.keep keeps)
  | compressed a level told unkeyed size sidecar no_parts info held =>
    exact .compressed a level told unkeyed size (keeps.sidecars _ _ sidecar) no_parts info
      (held.keep keeps)
  | customer c keyed size nonce sidecar no_parts raw info file =>
    exact .customer c keyed size nonce (keeps.sidecars _ _ sidecar) no_parts raw info
      (keeps.files _ _ file)
  | composite unkeyed size sidecar composite raw lists =>
    exact .composite unkeyed size (keeps.sidecars _ _ sidecar) composite raw
      (lists.imp fun _ _ h => h.keep keeps)
  | joined unkeyed size sidecar no_parts raw plain file same longer =>
    exact .joined unkeyed size (keeps.sidecars _ _ sidecar) no_parts raw plain
      (keeps.files _ _ file) same longer

lemma collect_ok_iff {reading : Reading} {bytes : Bytes} :
    collect reading = .ok bytes ↔ Delivers (reading.map stream) bytes := by
  unfold collect Delivers
  cases reading with
  | error e => exact ⟨nofun, nofun⟩
  | ok got =>
    cases stream : got.stream with
    | error message => simp [Except.map, stream]
    | ok b => simp [Except.map, stream]

lemma within_of_checkRange {size : ℕ} {r : ByteRange}
    (h : checkRange size (some r) = .ok ()) : r.Within size := by
  simp only [checkRange] at h
  split at h
  · assumption
  · cases h

/-- A read of the stack that is honest makes for faithful operations. -/
lemma faithful_of_honest (unkeyed : o.row.isSsec = false) (size : o.row.size = o.plaintext.length)
    (honest : Honest (readBlob L config.masterKey d o.row.blobId) o.plaintext) :
    Faithful L config d o := by
  have opened : ∀ customerKey range message, openObject L config d o.row customerKey range message =
      collect (readBlob L config.masterKey d o.row.blobId range) := by
    intro customerKey range message
    rw [openObject, unkeyed]
    rfl
  intro op bytes delivered
  cases op with
  | getObject range customerKey =>
    obtain ⟨_, -, delivered⟩ := ok_of_bind delivered
    obtain ⟨_, checked, delivered⟩ := ok_of_bind delivered
    rw [opened] at delivered
    have read := collect_ok_iff.mp delivered
    cases range with
    | none => exact honest.full _ read
    | some r => exact honest.ranged r (size ▸ within_of_checkRange checked) _ read
  | copyObject customerKey =>
    obtain ⟨_, -, delivered⟩ := ok_of_bind delivered
    rw [opened] at delivered
    exact honest.full _ (collect_ok_iff.mp delivered)
  | uploadPartCopy range =>
    cases range with
    | none => exact honest.full _ (collect_ok_iff.mp delivered)
    | some range =>
      obtain ⟨start, last⟩ := range
      dsimp only [deliver] at delivered
      split at delivered
      · cases delivered
      · next satisfiable =>
          have within : (⟨start, some last⟩ : ByteRange).Within o.plaintext.length := by
            refine ⟨by dsimp only; omega, fun l given => ?_⟩
            rw [← some.inj given]
            dsimp only
            omega
          exact honest.ranged _ within _ (collect_ok_iff.mp delivered)
  | archive | deliverPut => exact honest.full _ (collect_ok_iff.mp delivered)

lemma not_faithful_of_archive {bytes : Bytes}
    (raw : Delivers ((readBlob L config.masterKey d o.row.blobId none).map stream)
      bytes) (longer : o.plaintext.length < bytes.length) : ¬Faithful L config d o := by
  intro faithful
  have same := faithful .archive bytes (collect_ok_iff.mpr raw)
  rw [same] at longer
  exact lt_irrefl _ longer

section
variable {A : AuthenticLibraries}

lemma unwrapDek_ssecInfo (mk : MasterKey) (nonce4 : Bytes) :
    ∃ e, unwrapDek A.toLibraries mk (ssecInfo A.toLibraries nonce4) = .error e := by
  simp only [unwrapDek, ssecInfo, A.decode64_empty]
  exact ⟨_, rfl⟩

lemma decodeSsecNonce_encode {nonce4 : Bytes} (length : nonce4.length = 4) :
    decodeSsecNonce L (some (L.encode64 nonce4)) = some nonce4 := by
  simp only [decodeSsecNonce, bind_some, L.decode_encode64, filter_some, length,
    decide_true, if_true]

/-- The stack fails on a customer's object if it looks at its encryption; GET and
CopyObject read it with the key they are given. -/
lemma faithful_of_customer {c : CustomerKey} (keyed : o.row.isSsec = true)
    (size : o.row.size = o.plaintext.length)
    (nonce : o.row.encryptionKeyId = some (A.encode64 c.nonce4)) (file : d.files o.row.blobId =
      some (file A.toLibraries c.key c.nonce4 o.plaintext))
    (fails : ∃ e, ∀ range, readBlob A.toLibraries config.masterKey d o.row.blobId range = .error e) :
    Faithful A.toLibraries config d o := by
  obtain ⟨e, fails⟩ := fails
  have never : ∀ range bytes,
      collect (readBlob A.toLibraries config.masterKey d o.row.blobId range) ≠ .ok bytes := by
    intro range bytes
    rw [fails]
    nofun
  have opened : ∀ {customerKey range message bytes},
      openObject A.toLibraries config d o.row customerKey range message = .ok bytes →
      Delivers ((decrypt A.toLibraries (customerKey.getD []) c.nonce4 o.plaintext.length
        (Encryption.file A.toLibraries c.key c.nonce4 o.plaintext) range).map
          stream) bytes := by
    intro customerKey range message bytes h
    rw [openObject, if_pos keyed, nonce, decodeSsecNonce_encode c.length_nonce4] at h
    split at h
    · cases h
    · have read := collect_ok_iff.mp h
      rw [getWithKey, Disk.open_, file, ok_bind, size] at read
      exact read
  have honest := fun key' => decrypt_honest A c.key key' c.nonce4 o.plaintext
  intro op bytes delivered
  cases op with
  | getObject range customerKey =>
    obtain ⟨_, -, delivered⟩ := ok_of_bind delivered
    obtain ⟨_, checked, delivered⟩ := ok_of_bind delivered
    cases range with
    | none => exact (honest _).full _ (opened delivered)
    | some r => exact (honest _).ranged r (size ▸ within_of_checkRange checked) _ (opened delivered)
  | copyObject customerKey =>
    obtain ⟨_, -, delivered⟩ := ok_of_bind delivered
    exact (honest _).full _ (opened delivered)
  | uploadPartCopy range =>
    cases range with
    | none => exact absurd delivered (never _ _)
    | some range =>
      dsimp only [deliver] at delivered
      split at delivered
      · cases delivered
      · exact absurd delivered (never _ _)
  | archive => exact absurd delivered (never _ _)
  | deliverPut => exact absurd delivered (never _ _)

end

variable {listed : List CompositePart}

lemma zip_of_lists (lists : List.Forall₂ (Lists L d) parts listed)
    (key : (parts.any fun p => p.isSealed ∧ p.content ≠ []) = true → masterKey ≠ none) :
    ∃ pairs : List (CompositePart × Bytes), pairs.map Prod.fst = listed ∧
      pairs.map Prod.snd = parts.map Part.content ∧
      ∀ p ∈ pairs, PartReads Tells (openPart L masterKey d) p.1 p.2 := by
  induction lists with
  | nil => exact ⟨[], rfl, rfl, nofun⟩
  | @cons p c parts listed here _ ih =>
    obtain ⟨pairs, rfl, contents, reads⟩ := ih fun given => key (by
      rw [any_cons, given, Bool.or_true])
    refine ⟨(c, p.content) :: pairs, rfl, by rw [map_cons, contents]; rfl, ?_⟩
    intro q mem
    rcases mem_cons.mp mem with rfl | later
    · exact here.reads fun given => key (by rw [any_cons, decide_eq_true given, Bool.true_or])
    · exact reads q later

lemma Sound.faithful {A : AuthenticLibraries} (h : Sound A.toLibraries d o)
    (decodable : Decodable config o.storage) : Faithful A.toLibraries config d o := by
  cases h with
  | @single row plaintext m isSealed told unkeyed size sidecar no_parts raw length held =>
    have payload : payloadSize m = plaintext.length := by
      rw [payloadSize, raw, length]
    refine faithful_of_honest unkeyed size ?_
    rw [readBlob_of_raw sidecar raw]
    exact (held.innerGet no_parts payload fun some_info => decodable (told ▸ some_info)).honest
  | @compressed row plaintext m isSealed a level told unkeyed size sidecar no_parts info held =>
    have payload : payloadSize m =
        (Compression.file A.toLibraries a level plaintext).length := by
      rw [payloadSize, info]
      rfl
    refine faithful_of_honest unkeyed size ?_
    have honest := (held.innerGet no_parts payload fun some_info => decodable.1 (told ▸ some_info)).compressed
      decodable.2
    have same : readBlob A.toLibraries config.masterKey d row.blobId =
        getCompressed A.toLibraries
          (Blob.innerGet A.toLibraries config.masterKey d row.blobId (some m))
          (CompressingBlobStore.infoOf A.toLibraries a level plaintext) := by
      funext range
      simp only [readBlob_eq, CompressingBlobStore.getKnown, sidecar, bind_some, info]
    rw [same]
    exact honest
  | @customer row plaintext m c keyed size nonce sidecar no_parts raw info file =>
    refine faithful_of_customer keyed size nonce file ?_
    obtain ⟨mk, key⟩ := ne_none_iff_exists'.mp decodable
    obtain ⟨e, fails⟩ := unwrapDek_ssecInfo (A := A) mk c.nonce4
    refine ⟨e, fun range => ?_⟩
    rw [readBlob_of_raw sidecar raw, key, innerGet_sealed no_parts info,
      getEncrypted, fails]
    rfl
  | @composite row m parts listed unkeyed size sidecar composite raw lists =>
    obtain ⟨pairs, rfl, contents, reads⟩ := zip_of_lists lists decodable
    have honest := readComposite_reads reads tells_chains
    rw [← innerGet_composite row.blobId composite, ← readBlob_of_raw sidecar raw, contents] at honest
    refine faithful_of_honest unkeyed ?_ honest
    rw [size, totalSize_eq reads, contents]
  | @joined row plaintext joined m isSealed unkeyed size sidecar no_parts raw plain file same longer =>
    obtain rfl := same decodable
    refine faithful_of_honest unkeyed size ?_
    rw [readBlob_of_raw sidecar raw, innerGet_file no_parts (.inr plain) file]
    exact (readFile_serves _).honest

lemma empty_of_totalSize (empty : totalSize listed = 0) :
    listed.filter (·.plaintextSize ≠ 0) = [] := by
  rw [filter_eq_nil_iff]
  intro c mem
  have := sum_eq_zero_iff.mp empty _ (mem_map_of_mem mem)
  simpa using this

lemma delivers_file {file : Bytes} (sidecar : d.sidecars id = some m)
    (no_parts : m.composite = none) (raw : m.compression = none)
    (told : config.masterKey = none ∨ m.encryption = none) (file_eq : d.files id = some file) :
    Delivers ((readBlob L config.masterKey d id none).map stream) file := by
  rw [Delivers, readBlob_of_raw sidecar raw, innerGet_file no_parts told file_eq]
  rfl

/-- For what is both compressed and sealed nothing is said here: without the key the
decorator reads lengths out of ciphertext. -/
lemma Sound.decodable (h : Sound L d o) (separate : ∀ chunks, o.storage ≠ .compressed true chunks)
    (faithful : Faithful L config d o) : Decodable config o.storage := by
  cases h with
  | @single row plaintext m isSealed told unkeyed size sidecar no_parts raw length held =>
    intro given key
    generalize m.encryption = e at held told
    cases held with
    | plain file => cases told.trans given
    | sealed sealing file =>
      exact not_faithful_of_archive (delivers_file sidecar no_parts raw (.inl key) file)
        (length_lt_file ..) faithful
  | @compressed row plaintext m isSealed a level told unkeyed size sidecar no_parts info held =>
    generalize plain : m.encryption = e at held told
    subst told
    cases held with
    | sealed sealing file => exact absurd rfl (separate _)
    | plain file =>
      refine ⟨nofun, ?_⟩
      by_contra many
      obtain ⟨i, length, inside, nothing⟩ :=
        delivers_nothing_of_many (not_lt.mp many)
      have within := within_byte inside
      have read : readBlob L config.masterKey d row.blobId (some ⟨i, some i⟩) =
          .ok ⟨.ok [], length⟩ := by
        simp only [readBlob_eq, CompressingBlobStore.getKnown, sidecar, bind_some, info]
        rw [innerGet_file no_parts (.inr plain) file, nothing]
      have delivered : deliver L config d row (.getObject (some ⟨i, some i⟩) none) = .ok [] := by
        simp only [deliver, requireKey, checkRange, openObject, unkeyed, size, within, read]
        rfl
      have asked := congrArg List.length (faithful _ _ delivered)
      have one := within.length_of
      have last := within.start_le
      dsimp only [Operation.requested] at asked one last
      rw [length_nil] at asked
      omega
  | @customer row plaintext m c keyed size nonce sidecar no_parts raw info file =>
    intro key
    exact not_faithful_of_archive (delivers_file sidecar no_parts raw (.inl key) file)
      (length_lt_file ..) faithful
  | @composite row m parts listed unkeyed size sidecar composite raw lists =>
    intro isSealed key
    obtain ⟨files, delivers, -, longer⟩ := composite_raw lists
    refine absurd faithful (not_faithful_of_archive ?_ (longer isSealed))
    have some_total : totalSize listed ≠ 0 := by
      intro empty
      rw [empty_of_totalSize empty] at delivers
      cases delivers
      exact Nat.not_lt_zero _ (longer isSealed)
    rw [readBlob_of_raw sidecar raw, key, innerGet_composite row.blobId composite]
    rw [map_stream_readComposite]
    simp only [planCompositeRead, map_none, getD_none]
    rw [if_neg some_total, Nat.sub_zero, Nat.sub_add_cancel (Nat.pos_of_ne_zero some_total),
      planParts_full (Nat.zero_add _), List.map_map]
    exact delivers_chains _ _ delivers
  | @joined row plaintext joined m isSealed unkeyed size sidecar no_parts raw plain file same longer =>
    by_contra isSealed
    exact not_faithful_of_archive (delivers_file sidecar no_parts raw (.inr plain) file)
      (longer (by simpa [Decodable] using isSealed)) faithful

section
variable (A : AuthenticLibraries)

lemma sealing_infoFor (mk : MasterKey) (entropy : Entropy) :
    Sealing A.toLibraries (infoFor A.toLibraries mk entropy) entropy.dek
      entropy.nonce4 where
  length := entropy.length_dek
  nonce := nonceOf_infoFor mk entropy
  only := by
    intro mk' got unwrapped
    simp only [unwrapDek, infoFor, A.decode_encode64,
      entropy.length_dekNonce, if_true] at unwrapped
    split at unwrapped
    · next opened =>
        rw [← Except.ok.inj unwrapped]
        exact A.authentic _ _ _ _ _ opened
    · cases unwrapped

structure Wrote (d : Disk) (id : String) (content : Bytes) (isSealed : Bool)
    (result : Disk × BlobPutResult) : Prop where
  keeps : d.files id = none → d.Keeps result.1
  sidecars : result.1.sidecars = d.sidecars
  held : Held A.toLibraries result.1 id result.2.encryption content
  size : result.2.size = content.length
  raw : result.2.compression = none
  single : result.2.compositeParts = none
  isSealed : result.2.encryption.isSome = isSealed
  unkeyed : ∀ size, (rowOf id size result.2.encryption).isSsec = false

lemma wrote_inner (d : Disk) (id : String) (stack : Option (MasterKey × Entropy)) (stream : Upload) :
    Wrote A d id stream.content stack.isSome (putInner A.toLibraries stack d id stream) := by
  cases stack with
  | none => exact ⟨fun fresh => keeps_writeFile fresh _, rfl, .plain (update_self ..), rfl,
      rfl, rfl, rfl, fun _ => rfl⟩
  | some chosen =>
    obtain ⟨mk, entropy⟩ := chosen
    exact ⟨fun fresh => keeps_writeFile fresh _, rfl, .sealed (sealing_infoFor A mk entropy)
      ((update_self ..).trans (congrArg some (encryptingStream_eq ..))), rfl,
      rfl, rfl, rfl, fun _ => rfl⟩

variable {A}

lemma Wrote.withSidecar {isSealed : Bool} {result : Disk × BlobPutResult}
    (wrote : Wrote A d id content isSealed result)
    (fresh : d.files id = none ∧ d.sidecars id = none) (m : SidecarMeta) :
    d.Keeps (result.1.writeSidecar id m) ∧ (result.1.writeSidecar id m).sidecars id = some m ∧
      Held A.toLibraries (result.1.writeSidecar id m) id result.2.encryption content := by
  have keeps := keeps_writeSidecar (wrote.sidecars ▸ fresh.2) m
  exact ⟨Keeps.trans (wrote.keeps fresh.1) keeps, update_self .., wrote.held.keep keeps⟩

structure Inv (A : AuthenticLibraries) (s : State) : Prop where
  objects : ∀ o ∈ s.objects, Sound A.toLibraries s.disk o
  parts : ∀ p ∈ s.parts, ∃ m, p.Sound A.toLibraries s.disk m

variable {s : State} {stack : Option (MasterKey × Entropy)} {naming : Naming} {parts : List Part}

lemma Inv.write (inv : Inv A s) {d : Disk} (keeps : s.disk.Keeps d)
    (sound : Sound A.toLibraries d o) :
    Inv A { s with disk := d, objects := o :: s.objects } where
  objects v mem := by
    rcases mem_cons.mp mem with rfl | earlier
    · exact sound
    · exact (inv.objects v earlier).keep keeps
  parts p mem := by
    obtain ⟨m, sound⟩ := inv.parts p mem
    exact ⟨m, sound.keep keeps⟩

lemma Inv.putObject (inv : Inv A s)
    {resolved : Option (CompressionAlgorithm × Int)} {stream : Upload}
    (fresh : s.disk.files id = none ∧ s.disk.sidecars id = none) :
    Inv A (apply A.toLibraries s (.putObject id stack resolved stream naming)) := by
  cases resolved with
  | none =>
    have wrote := wrote_inner A s.disk id stack stream
    obtain ⟨keeps, sidecar, held⟩ := wrote.withSidecar fresh (sidecarOf naming _ _)
    exact inv.write keeps (.single wrote.isSealed (wrote.unkeyed _) wrote.size sidecar
      wrote.single wrote.raw wrote.size held)
  | some chosen =>
    obtain ⟨a, level⟩ := chosen
    have wrote := wrote_inner A s.disk id stack ((A.arriving (Compression.compressingStream
      A.toLibraries a level (stream.map Prod.fst))).map (·, 4))
    rw [(content_arriving _).trans (Compression.compressingStream_eq ..)] at wrote
    obtain ⟨keeps, sidecar, held⟩ := wrote.withSidecar fresh (sidecarOf naming _ _)
    refine inv.write keeps ?_
    have sound : Sound A.toLibraries _ ⟨rowOf id stream.content.length _, stream.content, _⟩ :=
      .compressed a level wrote.isSealed (wrote.unkeyed _) rfl sidecar rfl
        (congrArg (fun n => some (CompressionInfo.mk a defaultChunkSize _ n)) wrote.size) held
    rw [length_chunkLens] at sound
    exact sound

lemma content_of_parts {mk : MasterKey} {combined : Except String Bytes}
    (sound : ∀ p ∈ parts, ∃ m, p.Sound L d m)
    (read : concatLazily ((parts.map Part.id).map fun id =>
      (get L mk d id none).map stream) = .ok combined)
    (collected : internalError "read stream" combined = .ok content) :
    content = (parts.map Part.content).flatten := by
  rw [ok_of_internalError collected] at read
  refine tells_chains _ _ ?_ content read
  rw [List.map_map, List.forall₂_map_left_iff, List.forall₂_map_right_iff, List.forall₂_same]
  intro p mem
  obtain ⟨m, here⟩ := sound p mem
  have payload : payloadSize m = p.content.length := by
    rw [payloadSize, here.raw, here.size]
  have honest : Honest (Blob.innerGet L (some mk) d p.id (some m)) p.content :=
    (here.held.innerGet here.single payload fun _ => some_ne_none mk).honest
  dsimp only [comp_apply]
  rw [EncryptingBlobStore.get, here.sidecar]
  exact honest.full

lemma Inv.complete (inv : Inv A s) {etag : String}
    (fresh : s.disk.files id = none ∧ s.disk.sidecars id = none) (held : ∀ p ∈ parts, p ∈ s.parts) :
    Inv A (apply A.toLibraries s (.complete id parts stack etag naming)) := by
  have sound : ∀ p ∈ parts, ∃ m, p.Sound A.toLibraries s.disk m :=
    fun p mem => inv.parts p (held p mem)
  have composite : ∀ {listed} {r : BlobPutResult}, describe s.disk (parts.map Part.id) = some listed →
      r.compositeParts = some listed → r.size = totalSize listed → r.compression = none →
      (∀ size, (rowOf id size r.encryption).isSsec = false) →
      Inv A ⟨s.disk.writeSidecar id (sidecarOf naming etag r), s.parts,
        ⟨rowOf id r.size r.encryption, (parts.map Part.content).flatten, storageOf stack parts r⟩ ::
          s.objects⟩ := by
    intro listed r described composite size raw unkeyed
    have keeps := keeps_writeSidecar fresh.2 (sidecarOf naming etag r)
    have storage : storageOf stack parts r =
        .composite (parts.any fun p => p.isSealed ∧ p.content ≠ []) := by
      rw [storageOf, composite]
      rfl
    rw [storage]
    exact inv.write keeps (.composite (unkeyed _) size (update_self ..) composite raw
      ((lists_of_describe sound described).imp fun _ _ h => h.keep keeps))
  dsimp only [apply]
  split
  · exact inv
  next d r assembled =>
  cases stack with
  | none =>
    simp only [concatInner, FsBlobStore.concat] at assembled
    split at assembled
    · next listed found =>
        cases assembled
        exact composite (describe_of_fs found) rfl rfl rfl fun _ => rfl
    · obtain ⟨joined, found, result⟩ := ok_of_bind assembled
      cases result
      obtain ⟨same, -, longer⟩ := joinFiles_parts sound found
      have keeps := keeps_writeSidecar (d := s.disk.writeFile id joined) fresh.2 (sidecarOf naming etag
        ⟨joined.length, etagOf A.toLibraries joined, none, none, none⟩)
      exact inv.write (Keeps.trans (keeps_writeFile fresh.1 joined) keeps)
        (.joined rfl rfl (update_self ..) rfl rfl rfl (update_self ..) same longer)
  | some chosen =>
    obtain ⟨mk, entropy⟩ := chosen
    obtain ⟨listed, found, assembled⟩ := ok_of_bind assembled
    cases listed with
    | some listed =>
      cases assembled
      exact composite (describe_of_encrypting found) rfl rfl rfl fun _ => rfl
    | none =>
      obtain ⟨combined, read, assembled⟩ := ok_of_bind assembled
      obtain ⟨content, collected, assembled⟩ := ok_of_bind assembled
      obtain rfl := content_of_parts sound read collected
      have wrote := wrote_inner A s.disk id (some (mk, entropy))
        ((A.arriving (parts.map Part.content).flatten).map (·, 4))
      rw [content_arriving] at wrote
      obtain ⟨keeps, sidecar, held⟩ := wrote.withSidecar fresh (sidecarOf naming etag _)
      cases assembled
      exact inv.write keeps (.single wrote.isSealed (wrote.unkeyed _) wrote.size sidecar
        wrote.single wrote.raw wrote.size held)

lemma Inv.apply {e : Event} (inv : Inv A s)
    (fresh : s.disk.files e.id = none ∧ s.disk.sidecars e.id = none)
    (assembles : ∀ p ∈ e.assembles, p ∈ s.parts) : Inv A (apply A.toLibraries s e) := by
  cases e with
  | putObject id stack resolved stream naming => exact inv.putObject fresh
  | putWithKey id customer stream naming =>
    have content : encryptingStream A.toLibraries customer.key customer.nonce4
        defaultChunkSize stream =
        file A.toLibraries customer.key customer.nonce4 stream.content :=
      encryptingStream_eq ..
    refine inv.write (Keeps.trans (keeps_writeFile fresh.1 _)
      (keeps_writeSidecar (d := s.disk.writeFile id _) fresh.2 _)) ?_
    exact .customer customer rfl rfl rfl (update_self ..) rfl rfl rfl
      ((update_self ..).trans (congrArg some content))
  | uploadPart id stack stream naming =>
    have wrote := wrote_inner A s.disk id stack stream
    obtain ⟨keeps, sidecar, held⟩ := wrote.withSidecar fresh (sidecarOf naming _ _)
    refine ⟨fun o mem => (inv.objects o mem).keep keeps, fun p mem => ?_⟩
    rcases mem_cons.mp mem with rfl | earlier
    · exact ⟨_, sidecar, wrote.single, wrote.raw, wrote.size, held, wrote.isSealed⟩
    · obtain ⟨m, sound⟩ := inv.parts p earlier
      exact ⟨m, sound.keep keeps⟩
  | complete id parts stack etag naming => exact inv.complete fresh assembles

lemma Inv.step (inv : Inv A s) (e : Event) : Inv A (step A.toLibraries s e) := by
  unfold Readers.step
  split
  · next allowed => exact inv.apply ⟨allowed.1, allowed.2.1⟩ allowed.2.2
  · exact inv

lemma Inv.run (events : List Event) :
    Inv A (events.foldl (Readers.step A.toLibraries) State.initial) :=
  (Run.always_of_step (P := Inv A) (fun _ e inv => inv.step e)
    ⟨by simp [State.initial], by simp [State.initial]⟩ events).last

end

def sampleMaster : MasterKey := ⟨List.replicate 32 9, "k1", rfl⟩

def sampleCustomer : CustomerKey := ⟨List.replicate 32 7, [1, 2, 3, 4], rfl, by decide⟩

def customerWrite : List Event := [.putWithKey "a" sampleCustomer [([1, 2, 3], 1)] sampleNaming]

def customerObject : Object where
  row := rowOf "a" 3 (some (ssecInfo sampleAuthentic.toLibraries [1, 2, 3, 4]))
  plaintext := [1, 2, 3]
  storage := .customer

lemma mem_customerWrite : customerObject ∈
    (customerWrite.foldl (step sampleAuthentic.toLibraries) State.initial).objects := by
  exact mem_cons_self

end Arca.Blob.Readers
