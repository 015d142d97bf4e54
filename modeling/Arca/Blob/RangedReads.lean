import Arca.Blob.Stored

/-!
# A ranged read is a slice of the full read

Every object that the server has written reads back with all its ranges, except a
compressed one of 2 ^ 32 chunks or more, whose footer counts its chunks with 32 bits.
-/
namespace Arca.Blob.RangedReads
open Chunked List Option Function EncryptingBlobStore

structure CustomerKey where
  key : Bytes
  nonce4 : Bytes
  length_key : key.length = 32
  length_nonce4 : nonce4.length = 4

/-- What is remembered of a write: the size of the object's row, the customer's key it
needs, and the number of chunks it was compressed in. -/
structure Written where
  id : String
  size : ℕ
  customer : Option CustomerKey
  chunks : Option ℕ

structure State where
  disk : Disk
  parts : List String
  written : List Written

def State.initial : State := ⟨⟨fun _ => none, fun _ => none⟩, [], []⟩

/-- The writes, with the random bytes they draw if they encrypt and what compression
resolved their hints to. `compose` is a composite of any mix of parts. -/
inductive Event where
  | putObject (id : String) (encrypt : Option Entropy)
      (resolved : Option (CompressionAlgorithm × Int)) (stream : Upload) (naming : Naming)
  | putWithKey (id : String) (customer : CustomerKey) (stream : Upload) (naming : Naming)
  | uploadPart (id : String) (encrypt : Option Entropy) (stream : Upload) (naming : Naming)
  | complete (id : String) (parts : List String) (encrypt : Option Entropy) (etag : String)
      (naming : Naming)
  | compose (id : String) (parts : List String) (etag : String) (naming : Naming)

def Event.id : Event → String
  | .putObject id .. | .putWithKey id .. | .uploadPart id .. | .complete id .. | .compose id .. => id

variable (L : Libraries) (masterKey : Option MasterKey)

def stackOf (encrypt : Option Entropy) : Option (MasterKey × Entropy) :=
  masterKey.bind fun mk => encrypt.map (mk, ·)

def chunksOf (resolved : Option (CompressionAlgorithm × Int)) (content : Bytes) : Option ℕ :=
  resolved.map fun _ => (content.length + defaultChunkSize - 1) / defaultChunkSize

def describe (d : Disk) : List String → Option (List CompositePart)
  | [] => some []
  | id :: ids =>
    match d.sidecars id with
    | none => none
    | some m => (describe d ids).map (⟨id, m.size, m.etag, m.encryption⟩ :: ·)

def ssecInfo (nonce4 : Bytes) : EncryptionInfo := ⟨"SSE-C", "", "", L.encode64 nonce4, ""⟩

def apply (s : State) : Event → State
  | .putObject id encrypt resolved stream naming =>
    let (d, r) := putWithHints L (stackOf masterKey encrypt) resolved s.disk id stream
    { s with
      disk := d.writeSidecar id (sidecarOf naming r.etag r)
      written := ⟨id, r.size, none, chunksOf resolved stream.content⟩ :: s.written }
  | .putWithKey id customer stream naming =>
    let (d, r) := putWithKey L customer.key customer.nonce4 s.disk id stream
    let m := { sidecarOf naming r.etag r with encryption := some (ssecInfo L customer.nonce4) }
    { s with
      disk := d.writeSidecar id m
      written := ⟨id, r.size, some customer, none⟩ :: s.written }
  | .uploadPart id encrypt stream naming =>
    let (d, r) := putInner L (stackOf masterKey encrypt) s.disk id stream
    { s with
      disk := d.writeSidecar id (sidecarOf naming r.etag r)
      parts := id :: s.parts }
  | .complete id parts encrypt etag naming =>
    match concatInner L (stackOf masterKey encrypt) s.disk parts id with
    | .error _ => s
    | .ok (d, r) =>
      { s with
        disk := d.writeSidecar id (sidecarOf naming etag r)
        written := ⟨id, r.size, none, none⟩ :: s.written }
  | .compose id parts etag naming =>
    match describe s.disk parts with
    | none => s
    | some listed =>
      let r : BlobPutResult := ⟨totalSize listed, etag, none, none, some listed⟩
      { s with
        disk := s.disk.writeSidecar id (sidecarOf naming etag r)
        written := ⟨id, r.size, none, none⟩ :: s.written }

def Event.assembles : Event → List String
  | .complete _ parts _ _ _ | .compose _ parts _ _ => parts
  | _ => []

/-- A write has an id of its own. -/
def step (s : State) (e : Event) : State :=
  if s.disk.files e.id = none ∧ s.disk.sidecars e.id = none ∧ ∀ p ∈ e.assembles, p ∈ s.parts then
    apply L masterKey s e
  else s

def Written.read (d : Disk) (w : Written) : Option ByteRange → Reading :=
  match w.customer with
  | some c => fun range => getWithKey L d w.id range c.key c.nonce4 w.size
  | none => readBlob L masterKey d w.id

/-- The full read delivers as many bytes as the object has, and every range that begins
inside it delivers those bytes of the full read. -/
def Sliced (read : Option ByteRange → Reading) (size : ℕ) : Prop :=
  ∃ content, content.length = size ∧ Serves read content

section
variable {L masterKey} {d : Disk} {id : String}

lemma keeps_writeFile (fresh : d.files id = none) (file : Bytes) : d.Keeps (d.writeFile id file) where
  files other held h := by
    by_cases same : other = id
    · rw [same, fresh] at h
      cases h
    · exact (update_of_ne same ..).trans h
  sidecars _ _ h := h

lemma keeps_writeSidecar (fresh : d.sidecars id = none) (m : SidecarMeta) :
    d.Keeps (d.writeSidecar id m) where
  files _ _ h := h
  sidecars other held h := by
    by_cases same : other = id
    · rw [same, fresh] at h
      cases h
    · exact (update_of_ne same ..).trans h

lemma Keeps.trans {d d' d'' : Disk} (h : d.Keeps d') (h' : d'.Keeps d'') : d.Keeps d'' :=
  ⟨fun _ _ held => h'.files _ _ (h.files _ _ held),
    fun _ _ held => h'.sidecars _ _ (h.sidecars _ _ held)⟩

lemma unwrapDek_infoFor (mk : MasterKey) (entropy : Entropy) :
    unwrapDek L mk (infoFor L mk entropy) =
      .ok entropy.dek := by
  simp only [unwrapDek, infoFor, L.decode_encode64,
    entropy.length_dekNonce, if_true, L.openChunk_sealChunk]

lemma nonceOf_infoFor (mk : MasterKey) (entropy : Entropy) :
    nonceOf L (infoFor L mk entropy) =
      .ok entropy.nonce4 := by
  simp only [nonceOf, infoFor, L.decode_encode64,
    entropy.length_nonce4, if_true]

structure Put (L : Libraries) (masterKey : Option MasterKey) (d : Disk) (id : String)
    (content : Bytes) (result : Disk × BlobPutResult) : Prop where
  keeps : d.files id = none → d.Keeps result.1
  sidecars : result.1.sidecars = d.sidecars
  payload : Payload L masterKey result.1 id result.2.encryption content
  size : result.2.size = content.length
  raw : result.2.compression = none
  single : result.2.compositeParts = none

variable {mk : MasterKey} {result : Disk × BlobPutResult} {m : SidecarMeta} {w : Written}
  {s : State}

lemma put_encrypting (key : masterKey = some mk) (entropy : Entropy)
    (stream : Upload) : Put L masterKey d id stream.content
      (put L mk entropy d id stream) where
  keeps fresh := keeps_writeFile fresh _
  sidecars := rfl
  payload := .sealed key (unwrapDek_infoFor mk entropy) entropy.length_dek
    (nonceOf_infoFor mk entropy) ((update_self ..).trans
      (congrArg some (Encryption.encryptingStream_eq ..)))
  size := rfl
  raw := rfl
  single := rfl

lemma masterKey_of_stackOf {encrypt : Option Entropy} {entropy : Entropy}
    (stack : stackOf masterKey encrypt = some (mk, entropy)) : masterKey = some mk := by
  obtain ⟨held, key, drawn⟩ := bind_eq_some_iff.mp stack
  obtain ⟨_, -, same⟩ := map_eq_some_iff.mp drawn
  rw [key, (Prod.mk.inj same).1]

variable (L masterKey d id) in
lemma put_inner (encrypt : Option Entropy) (stream : Upload) : Put L masterKey d id stream.content
      (putInner L (stackOf masterKey encrypt) d id stream) := by
  cases stack : stackOf masterKey encrypt with
  | none => exact ⟨fun fresh => keeps_writeFile fresh _, rfl, .plain (update_self ..),
      rfl, rfl, rfl⟩
  | some chosen =>
    exact put_encrypting (masterKey_of_stackOf stack) _ stream

lemma content_arriving (b : Bytes) : Upload.content ((L.arriving b).map (·, 4)) = b := by
  rw [Upload.content, List.map_map]
  exact (congrArg List.flatten (map_id _)).trans (L.flatten_arriving b)

variable {content : Bytes}

lemma Put.withSidecar
    (put : Put L masterKey d id content result) (fresh : d.files id = none ∧ d.sidecars id = none)
    (m : SidecarMeta) :
    d.Keeps (result.1.writeSidecar id m) ∧
      (result.1.writeSidecar id m).sidecars id = some m ∧
      Payload L masterKey (result.1.writeSidecar id m) id result.2.encryption content := by
  have keeps := keeps_writeSidecar (put.sidecars ▸ fresh.2) m
  exact ⟨Keeps.trans (put.keeps fresh.1) keeps, update_self .., put.payload.keep keeps⟩

lemma stored_putWithHints (encrypt : Option Entropy)
    (resolved : Option (CompressionAlgorithm × Int)) (stream : Upload) (naming : Naming)
    (fresh : d.files id = none ∧ d.sidecars id = none) :
    let result := putWithHints L (stackOf masterKey encrypt) resolved d id stream
    let d' := result.1.writeSidecar id (sidecarOf naming result.2.etag result.2)
    d.Keeps d' ∧ result.2.size = stream.content.length ∧
      Stored L masterKey d' id stream.content (chunksOf resolved stream.content) := by
  cases resolved with
  | none =>
    have put := put_inner L masterKey d id encrypt stream
    obtain ⟨keeps, sidecar, payload⟩ := put.withSidecar fresh (sidecarOf naming _ _)
    exact ⟨keeps, put.size, .single sidecar put.single put.raw put.size payload⟩
  | some chosen =>
    obtain ⟨a, level⟩ := chosen
    have put := put_inner L masterKey d id encrypt
      ((L.arriving (Compression.compressingStream L a level (stream.map Prod.fst))).map (·, 4))
    rw [(content_arriving _).trans (Compression.compressingStream_eq L a level _)] at put
    obtain ⟨keeps, sidecar, payload⟩ := put.withSidecar fresh (sidecarOf naming _ _)
    refine ⟨keeps, rfl, ?_⟩
    have count : chunksOf (some (a, level)) stream.content =
        some (Compression.chunkLens L a level stream.content).length := by
      rw [CompressingBlobStore.length_chunkLens]
      rfl
    rw [count]
    refine .compressed a level sidecar rfl ?_ payload
    exact congrArg (fun n => some (CompressionInfo.mk a defaultChunkSize _ n)) put.size

structure Part (L : Libraries) (masterKey : Option MasterKey) (d : Disk) (id : String)
    (m : SidecarMeta) (content : Bytes) : Prop where
  sidecar : d.sidecars id = some m
  single : m.composite = none
  raw : m.compression = none
  size : m.size = content.length
  payload : Payload L masterKey d id m.encryption content

def IsPart (L : Libraries) (masterKey : Option MasterKey) (d : Disk) (id : String) : Prop :=
  ∃ m content, Part L masterKey d id m content

def Listed (L : Libraries) (masterKey : Option MasterKey) (d : Disk) (listed : List CompositePart) :
    Prop :=
  ∃ contents : List (CompositePart × Bytes), contents.map Prod.fst = listed ∧
    ∀ p ∈ contents, PartStored L masterKey d p.1 p.2

variable {listed : List CompositePart}

lemma Listed.cons (h : Listed L masterKey d listed) (part : Part L masterKey d id m content)
    (etag : String) :
    Listed L masterKey d (⟨id, m.size, etag, m.encryption⟩ :: listed) := by
  obtain ⟨contents, rfl, all⟩ := h
  refine ⟨(⟨id, m.size, etag, m.encryption⟩, content) :: contents, rfl, fun p mem => ?_⟩
  rcases mem_cons.mp mem with rfl | later
  · exact ⟨part.payload, part.size, m, part.sidecar, part.single⟩
  · exact all p later

variable {ids : List String}

lemma describe_of_fs
    (h : FsBlobStore.compositeParts d ids = some listed) : describe d ids = some listed := by
  induction ids generalizing listed with
  | nil => exact h
  | cons id ids ih =>
    simp only [FsBlobStore.compositeParts] at h
    split at h
    · cases h
    next m sidecar =>
    split at h
    · cases h
    next plain =>
    split at h
    · cases h
    obtain ⟨rest, found, rfl⟩ := map_eq_some_iff.mp h
    have unencrypted : m.encryption = none := by simpa using fun given => plain (.inl given)
    simp only [describe, sidecar, ih found, unencrypted, map_some]

lemma describe_of_encrypting
    (h : compositeParts d ids = .ok (some listed)) :
    describe d ids = some listed := by
  induction ids generalizing listed with
  | nil => exact Except.ok.inj h
  | cons id ids ih =>
    simp only [compositeParts] at h
    split at h
    · cases h
    next m sidecar =>
    split at h
    · cases h
    next info encrypted =>
    split at h
    · cases h
    split at h
    · cases h
    obtain ⟨rest, found, given⟩ := ok_of_bind h
    obtain ⟨rest, rfl, rfl⟩ := map_eq_some_iff.mp (Except.ok.inj given)
    simp only [describe, sidecar, ih found, encrypted, map_some]

lemma listed_describe (parts : ∀ p ∈ ids, IsPart L masterKey d p) (h : describe d ids = some listed) :
    Listed L masterKey d listed := by
  induction ids generalizing listed with
  | nil =>
    cases h
    exact ⟨[], rfl, by simp⟩
  | cons id ids ih =>
    obtain ⟨m, content, part⟩ := parts id mem_cons_self
    simp only [describe, part.sidecar] at h
    obtain ⟨rest, found, rfl⟩ := map_eq_some_iff.mp h
    exact (ih (fun p mem => parts p (mem_cons_of_mem _ mem)) found).cons part m.etag

lemma Listed.stored (h : Listed L masterKey d listed)
    (fresh : d.sidecars id = none) (composite : m.composite = some listed)
    (raw : m.compression = none) :
    d.Keeps (d.writeSidecar id m) ∧ ∃ content, content.length = totalSize listed ∧
      Stored L masterKey (d.writeSidecar id m) id content none := by
  obtain ⟨contents, rfl, all⟩ := h
  have keeps := keeps_writeSidecar fresh m
  refine ⟨keeps, (contents.map Prod.snd).flatten, ?_, ?_⟩
  · rw [totalSize, List.length_flatten, List.map_map, List.map_map]
    exact congrArg List.sum (map_congr_left fun p mem => (all p mem).size.symm)
  · exact .composite contents (update_self ..) composite raw rfl
      fun p mem => (all p mem).keep keeps

lemma Put.stored
    (put : Put L masterKey d id content result) (fresh : d.files id = none ∧ d.sidecars id = none)
    (naming : Naming) (etag : String) :
    let d' := result.1.writeSidecar id (sidecarOf naming etag result.2)
    d.Keeps d' ∧ ∃ content, content.length = result.2.size ∧ Stored L masterKey d' id content none := by
  obtain ⟨keeps, sidecar, payload⟩ := put.withSidecar fresh (sidecarOf naming etag result.2)
  exact ⟨keeps, content, put.size.symm, .single sidecar put.single put.raw put.size payload⟩

lemma stored_concat {encrypt : Option Entropy}
    (parts : ∀ p ∈ ids, IsPart L masterKey d p) (fresh : d.files id = none ∧ d.sidecars id = none)
    (h : concatInner L (stackOf masterKey encrypt) d ids id = .ok result) (naming : Naming)
    (etag : String) :
    let d' := result.1.writeSidecar id (sidecarOf naming etag result.2)
    d.Keeps d' ∧ ∃ content, content.length = result.2.size ∧ Stored L masterKey d' id content none := by
  cases stack : stackOf masterKey encrypt with
  | none =>
    rw [stack] at h
    simp only [concatInner, FsBlobStore.concat] at h
    split at h
    · next listed found =>
        cases h
        exact (listed_describe parts (describe_of_fs found)).stored fresh.2 rfl rfl
    · obtain ⟨joined, -, given⟩ := ok_of_bind h
      have put : Put L masterKey d id joined
          (d.writeFile id joined, ⟨joined.length, etagOf L joined, none, none, none⟩) :=
        ⟨fun fresh => keeps_writeFile fresh _, rfl, .plain (update_self ..), rfl, rfl, rfl⟩
      rw [← Except.ok.inj given]
      exact put.stored fresh naming etag
  | some chosen =>
    obtain ⟨mk, entropy⟩ := chosen
    have key := masterKey_of_stackOf stack
    rw [stack] at h
    simp only [concatInner, EncryptingBlobStore.concat] at h
    obtain ⟨composite, found, h⟩ := ok_of_bind h
    cases composite with
    | some listed =>
      cases h
      exact (listed_describe parts (describe_of_encrypting found)).stored fresh.2 rfl rfl
    | none =>
      obtain ⟨combined, -, h⟩ := ok_of_bind h
      obtain ⟨content, -, h⟩ := ok_of_bind h
      rw [← Except.ok.inj h]
      exact (put_encrypting key _ _).stored fresh naming etag

inductive Sound (L : Libraries) (masterKey : Option MasterKey) (d : Disk) : Written → Prop where
  | keyed {id : String} {content : Bytes} (c : CustomerKey)
      (file : d.files id = some (Encryption.file L c.key c.nonce4 content)) :
      Sound L masterKey d ⟨id, content.length, some c, none⟩
  | stored {id : String} {content : Bytes} {size : ℕ} {chunks : Option ℕ}
      (length : content.length = size) (h : Stored L masterKey d id content chunks) :
      Sound L masterKey d ⟨id, size, none, chunks⟩

lemma Sound.keep {d d' : Disk} (keeps : d.Keeps d') (h : Sound L masterKey d w) :
    Sound L masterKey d' w := by
  cases h with
  | keyed c file => exact .keyed c (keeps.files _ _ file)
  | stored length h => exact .stored length (h.keep keeps)

lemma IsPart.keep {d d' : Disk} (keeps : d.Keeps d') (h : IsPart L masterKey d id) :
    IsPart L masterKey d' id := by
  obtain ⟨m, content, part⟩ := h
  exact ⟨m, content, keeps.sidecars _ _ part.sidecar, part.single, part.raw, part.size,
    part.payload.keep keeps⟩

structure Inv (L : Libraries) (masterKey : Option MasterKey) (s : State) : Prop where
  written : ∀ w ∈ s.written, Sound L masterKey s.disk w
  parts : ∀ p ∈ s.parts, IsPart L masterKey s.disk p

lemma Inv.write (inv : Inv L masterKey s) (keeps : s.disk.Keeps d)
    (sound : Sound L masterKey d w) :
    Inv L masterKey { s with disk := d, written := w :: s.written } where
  written v mem := by
    rcases mem_cons.mp mem with rfl | earlier
    · exact sound
    · exact (inv.written v earlier).keep keeps
  parts p mem := (inv.parts p mem).keep keeps

lemma Inv.apply {e : Event} (inv : Inv L masterKey s)
    (fresh : s.disk.files e.id = none ∧ s.disk.sidecars e.id = none)
    (assembles : ∀ p ∈ e.assembles, p ∈ s.parts) : Inv L masterKey (apply L masterKey s e) := by
  cases e with
  | putObject id encrypt resolved stream naming =>
    obtain ⟨keeps, size, stored⟩ := stored_putWithHints encrypt resolved stream naming fresh
    exact inv.write keeps (.stored size.symm stored)
  | putWithKey id customer stream naming =>
    have content : Encryption.encryptingStream L customer.key customer.nonce4 defaultChunkSize
        stream = Encryption.file L customer.key customer.nonce4 stream.content :=
      Encryption.encryptingStream_eq ..
    refine inv.write (Keeps.trans (keeps_writeFile fresh.1 _)
      (keeps_writeSidecar (d := s.disk.writeFile id _) fresh.2 _)) ?_
    exact .keyed customer ((update_self ..).trans (congrArg some content))
  | uploadPart id encrypt stream naming =>
    have put := put_inner L masterKey s.disk id encrypt stream
    obtain ⟨keeps, sidecar, payload⟩ := put.withSidecar fresh (sidecarOf naming _ _)
    refine ⟨fun w mem => (inv.written w mem).keep keeps, fun p mem => ?_⟩
    rcases mem_cons.mp mem with rfl | earlier
    · exact ⟨_, _, sidecar, put.single, put.raw, put.size, payload⟩
    · exact (inv.parts p earlier).keep keeps
  | complete id parts encrypt etag naming =>
    dsimp only [RangedReads.apply]
    split
    · exact inv
    · next result assembled =>
        obtain ⟨keeps, content, length, stored⟩ := stored_concat
          (fun p mem => inv.parts p (assembles p mem)) fresh assembled naming etag
        exact inv.write keeps (.stored length stored)
  | compose id parts etag naming =>
    dsimp only [RangedReads.apply]
    split
    · exact inv
    · next listed described =>
        obtain ⟨keeps, content, length, stored⟩ := (listed_describe
          (fun p mem => inv.parts p (assembles p mem)) described).stored fresh.2
          (m := sidecarOf naming etag ⟨totalSize listed, etag, none, none, some listed⟩) rfl rfl
        exact inv.write keeps (.stored length stored)

lemma Inv.step (inv : Inv L masterKey s) (e : Event) :
    Inv L masterKey (step L masterKey s e) := by
  unfold RangedReads.step
  split
  · next allowed => exact inv.apply ⟨allowed.1, allowed.2.1⟩ allowed.2.2
  · exact inv

lemma Inv.run (events : List Event) :
    Inv L masterKey (events.foldl (RangedReads.step L masterKey) State.initial) :=
  (Run.always_of_step (P := Inv L masterKey) (fun _ e inv => inv.step e)
    ⟨by simp [State.initial], by simp [State.initial]⟩ events).last

lemma Sound.sliced_iff (h : Sound L masterKey d w) :
    Sliced (w.read L masterKey d) w.size ↔ ∀ n, w.chunks = some n → n < 2 ^ 32 := by
  cases h with
  | @keyed id content c file =>
    refine iff_of_true ⟨content, rfl, ?_⟩ (by simp)
    have same : Written.read L masterKey d ⟨id, content.length, some c, none⟩ =
        decrypt L c.key c.nonce4 content.length (Encryption.file L c.key c.nonce4 content) := by
      simp only [Written.read, getWithKey, Disk.open_, file, ok_bind]
    rw [same]
    exact decrypt_serves c.length_key
  | @stored id content size chunks length stored =>
    obtain ⟨full, served⟩ := stored.serves
    rw [← served]
    constructor
    · rintro ⟨other, -, other_served⟩
      have same : content = other := by
        have := full.symm.trans other_served.full
        exact Except.ok.inj (BlobGetResult.mk.inj (Except.ok.inj this)).1
      rw [same]
      exact other_served
    · exact fun served => ⟨content, length, served⟩

end

/-- **A ranged read is a slice of the full read**, exactly if the object is not compressed or
its chunks can be counted with 32 bits. -/
theorem ranged_reads_sliced_iff (events : List Event) :
    ∀ w ∈ (events.foldl (step L masterKey) State.initial).written,
      Sliced (w.read L masterKey (events.foldl (step L masterKey) State.initial).disk) w.size ↔
        ∀ n, w.chunks = some n → n < 2 ^ 32 :=
  fun w mem => ((Inv.run events).written w mem).sliced_iff

def sampleNaming : Naming := ⟨"b", "k", none, "", []⟩

def compressedWrite (content : Bytes) : List Event :=
  [.putObject "a" none (some (.zstd, 3)) [(content, 1)] sampleNaming]

lemma mem_written_compressedWrite (content : Bytes) :
    ⟨"a", content.length, none, some ((content.length + defaultChunkSize - 1) / defaultChunkSize)⟩ ∈
      ((compressedWrite content).foldl (step L none) State.initial).written := by
  have one : Upload.content [(content, 1)] = content := append_nil content
  refine mem_cons.mpr (.inl ?_)
  simp only [chunksOf, one, map_some]

theorem five_bytes_sliced : Sliced (Written.read sampleLibraries none
      ((compressedWrite [1, 2, 3, 4, 5]).foldl (step sampleLibraries none) State.initial).disk
      ⟨"a", 5, none, some 1⟩) 5 :=
  (ranged_reads_sliced_iff sampleLibraries none (compressedWrite [1, 2, 3, 4, 5]) _
    (mem_written_compressedWrite sampleLibraries [1, 2, 3, 4, 5])).mpr (by simp [defaultChunkSize])

lemma not_sliced_of_uncounted {content : Bytes}
    (many : 2 ^ 32 ≤ (content.length + defaultChunkSize - 1) / defaultChunkSize) :
    ∃ w ∈ ((compressedWrite content).foldl (step L none) State.initial).written,
      ¬Sliced (w.read L none ((compressedWrite content).foldl (step L none) State.initial).disk)
        w.size := by
  have mem := mem_written_compressedWrite L content
  refine ⟨_, mem, fun sliced => ?_⟩
  exact absurd (((Inv.run _).written _ mem).sliced_iff.mp sliced _ rfl) (not_lt.mpr many)

/-- Of 2 ^ 48 bytes the footer counts no chunk: the object is stored and reads back, but the
ranged read of its first byte panics. -/
theorem uncounted_chunks_not_sliced :
    ∃ w ∈ ((compressedWrite (List.replicate (2 ^ 48) 0)).foldl (step sampleLibraries none)
        State.initial).written,
      ¬Sliced (w.read sampleLibraries none ((compressedWrite (List.replicate (2 ^ 48) 0)).foldl
        (step sampleLibraries none) State.initial).disk) w.size := by
  apply not_sliced_of_uncounted
  rw [length_replicate]
  decide

end Arca.Blob.RangedReads
