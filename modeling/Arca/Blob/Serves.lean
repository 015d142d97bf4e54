import Arca.Blob.Store

/-!
# What it is to serve a content

A reader serves a content if its full read delivers the content and every range that
begins inside it delivers that window of it, each with the length of what it
delivers.
-/
namespace Arca.Blob
open Chunked Framed List Option Encryption BlobGetResult

/-- The range begins inside a content of `size` bytes and does not end before it begins. -/
def ByteRange.Within (r : ByteRange) (size : ℕ) : Prop :=
  r.start < size ∧ ∀ last, r.last = some last → r.start ≤ last

instance (r : ByteRange) (size : ℕ) : Decidable (r.Within size) := by
  unfold ByteRange.Within
  cases r.last with
  | none => exact decidable_of_iff (r.start < size) (by simp)
  | some last => exact decidable_of_iff (r.start < size ∧ r.start ≤ last) (by simp)

def ByteRange.of (r : ByteRange) (content : Bytes) : Bytes :=
  window 0 r.start (r.lastIn content.length) content

structure Serves (read : Option ByteRange → Reading) (content : Bytes) : Prop where
  full : read none = .ok ⟨.ok content, content.length⟩
  ranged : ∀ r : ByteRange, r.Within content.length →
    read (some r) = .ok ⟨.ok (r.of content), r.lastIn content.length + 1 - r.start⟩

def Empties (read : Option ByteRange → Reading) : Prop :=
  ∀ start last length bytes, last < start →
    read (some ⟨start, some last⟩) = .ok ⟨.ok bytes, length⟩ → bytes = []

/-- The read of a stream: opening it may fail, and then the stream may. -/
abbrev Opened := Except StoreError (Except String Bytes)

/-- What every read of a content stands to the bytes that were asked for in. -/
structure ReadsAs (R : Opened → Bytes → Prop) (read : Option ByteRange → Reading)
    (content : Bytes) : Prop where
  full : R ((read none).map stream) content
  ranged : ∀ r : ByteRange, r.Within content.length →
    R ((read (some r)).map stream) (r.of content)

def Delivers (opened : Opened) (bytes : Bytes) : Prop := opened = .ok (.ok bytes)

/-- If it delivers, it delivers those bytes. -/
def Tells (opened : Opened) (bytes : Bytes) : Prop := ∀ got, Delivers opened got → got = bytes

/-- A reader that fails or serves the content. -/
abbrev Honest := ReadsAs Tells

lemma Delivers.tells {opened : Opened} {bytes : Bytes} (h : Delivers opened bytes) :
    Tells opened bytes := fun _ got => (Except.ok.inj (Except.ok.inj (h.symm.trans got))).symm

lemma tells_error (e : StoreError) (bytes : Bytes) : Tells (.error e) bytes := nofun

variable {read : Option ByteRange → Reading}

lemma Serves.delivers {content : Bytes}
    (h : Serves read content) : ReadsAs Delivers read content where
  full := congrArg _ h.full
  ranged r within := congrArg _ (h.ranged r within)

lemma Serves.honest {content : Bytes}
    (h : Serves read content) : Honest read content :=
  ⟨h.delivers.full.tells, fun r within => (h.delivers.ranged r within).tells⟩

section
variable {r : ByteRange} {content : Bytes}

lemma ByteRange.Within.start_le (within : r.Within content.length) :
    r.start ≤ r.lastIn content.length ∧ r.lastIn content.length < content.length := by
  obtain ⟨inside, order⟩ := within
  unfold ByteRange.lastIn
  cases given : r.last with
  | none =>
    dsimp only [map_none, getD_none]
    omega
  | some last =>
    have := order last given
    dsimp only [map_some, getD_some]
    omega

lemma ByteRange.Within.length_of (within : r.Within content.length) :
    (r.of content).length = r.lastIn content.length + 1 - r.start := by
  obtain ⟨order, inside⟩ := within.start_le
  rw [ByteRange.of, length_window_zero order (by omega)]
  omega

end

variable {ε α β : Type}

@[simp] lemma ok_bind (a : α) (f : α → Except ε β) : (Except.ok a >>= f) = f a := rfl

lemma ok_of_bind {x : Except ε α} {f : α → Except ε β} {b : β}
    (h : x >>= f = .ok b) : ∃ a, x = .ok a ∧ f a = .ok b := by
  cases x with
  | error e => cases h
  | ok a => exact ⟨a, rfl, h⟩

lemma map_ok_iff {x : Except ε α} {f : α → β} {b : β} :
    x.map f = .ok b ↔ ∃ a, x = .ok a ∧ f a = b := by
  cases x with
  | error e => exact ⟨nofun, nofun⟩
  | ok a => simp [Except.map]

lemma ok_of_internalError {context : String} {x : Except String α} {a : α}
    (h : internalError context x = .ok a) : x = .ok a := by
  cases x with
  | error e => cases h
  | ok b =>
    cases h
    rfl

lemma drop_take_eq_window (s e : ℕ) (l : Bytes) :
    (l.drop s).take (e + 1 - s) = window 0 s e l := by
  rw [window, Nat.sub_zero, Nat.sub_zero, drop_take]

lemma readFile_serves (file : Bytes) : Serves (fun range => .ok (readFile file range)) file where
  full := rfl
  ranged r _ := by
    dsimp only [readFile, ByteRange.of]
    rw [drop_take_eq_window]

lemma lastIn_lt (size : ℕ) {start last : ℕ} (empty : last < start) :
    (⟨start, some last⟩ : ByteRange).lastIn size < start := by
  dsimp only [ByteRange.lastIn, map_some, getD_some]
  omega

lemma readFile_empties (file : Bytes) : Empties fun range => .ok (readFile file range) := by
  intro start last length bytes empty read
  have none_of_it : (⟨start, some last⟩ : ByteRange).lastIn file.length + 1 - start = 0 :=
    Nat.sub_eq_zero_of_le (lastIn_lt _ empty)
  simp only [readFile, none_of_it, take_zero, Except.ok.injEq, mk.injEq] at read
  exact read.1.symm

section
variable (L : Libraries) (key nonce4 content : Bytes)

lemma encryptedHeader_file :
    encryptedHeader (file L key nonce4 content) = .ok defaultChunkSize := by
  have header : (file L key nonce4 content).take headerSize =
      writeHeader defaultChunkSize := take_left' rfl
  have long : ¬(file L key nonce4 content).length < headerSize := by
    have : (writeHeader defaultChunkSize).length = headerSize := rfl
    rw [file, length_append, this]
    omega
  rw [encryptedHeader, if_neg long, header,
    parseHeader_writeHeader (by decide) (by decide)]
  rfl

lemma drop_header_file : (file L key nonce4 content).drop headerSize =
    (framing L key nonce4 defaultChunkSize).frames 0 content := drop_left' rfl

lemma length_lt_file : content.length < (file L key nonce4 content).length := by
  have lawful := default_lawful L key nonce4
  have grows : ∀ i p, p.length ≤ ((framing L key nonce4 defaultChunkSize).frame i p).length := by
    intro i p
    have body : ((framing L key nonce4 defaultChunkSize).body i p).length = p.length + 16 :=
      L.length_sealChunk ..
    rw [Framing.frame, length_append, body]
    omega
  have frames := lawful.length_le_frames grows 0 content
  rw [file, length_append, length_writeHeader]
  have : headerSize = 9 := rfl
  omega

variable {L key nonce4 content} (length : key.length = 32)
include length

lemma makeAeadKey_eq : makeAeadKey key = .ok key := if_pos length

lemma decryptFull_file : decryptFull L key nonce4 content.length
    (file L key nonce4 content) = .ok ⟨.ok content, content.length⟩ := by
  have stream := (default_lawful L key nonce4).run_frames
    ((L.flatten_arriving _).trans (drop_header_file L key nonce4 content))
  simp only [decryptFull, encryptedHeader_file, makeAeadKey_eq length, bind, Except.bind, stream]
  rfl

omit length in
lemma length_frame_full (i : ℕ) (p : Bytes) (full : p.length = defaultChunkSize) :
    ((framing L key nonce4 defaultChunkSize).frame i p).length =
      onDiskChunkSize defaultChunkSize := by
  rw [(default_lawful L key nonce4).length_frame]
  change 4 + (L.sealChunk _ _ p).length = _
  rw [L.length_sealChunk, full, onDiskChunkSize, Nat.add_assoc]

omit length in
variable (L key nonce4) in
lemma file_slab {first last : ℕ} (order : first ≤ last)
    (inside : last * defaultChunkSize < content.length) :
    let diskStart := chunkDiskOffset first defaultChunkSize
    let diskEnd := slabEnd last content.length defaultChunkSize
      (file L key nonce4 content).length
    diskStart ≤ diskEnd ∧ diskEnd ≤ (file L key nonce4 content).length ∧
    ((file L key nonce4 content).drop diskStart).take (diskEnd - diskStart) =
      (framing L key nonce4 defaultChunkSize).frames first
        ((content.take ((last + 1) * defaultChunkSize)).drop (first * defaultChunkSize)) :=
  (default_lawful L key nonce4).slab_of_uniform
    (writeHeader defaultChunkSize) rfl length_frame_full order inside

omit length in
lemma around {s e : ℕ} : s / defaultChunkSize * defaultChunkSize ≤ s ∧
    e < (e / defaultChunkSize + 1) * defaultChunkSize :=
  ⟨Nat.div_mul_le_self .., Nat.lt_mul_of_div_lt (Nat.lt_succ_self _) (by decide)⟩

lemma decryptRange_file {r : ByteRange} (within : r.Within content.length) :
    decryptRange L key nonce4 content.length (file L key nonce4 content) r =
      .ok ⟨.ok (r.of content), r.lastIn content.length + 1 - r.start⟩ := by
  obtain ⟨order, inside⟩ := within.start_le
  obtain ⟨before, after⟩ := around (s := r.start) (e := r.lastIn content.length)
  obtain ⟨starts, ends, slab⟩ := file_slab L key nonce4
    (Nat.div_le_div_right (c := defaultChunkSize) order)
    (lt_of_le_of_lt (Nat.div_mul_le_self ..) inside)
  have read := (default_lawful L key nonce4).readRange_frames r.start
    (r.lastIn content.length) (r.start / defaultChunkSize)
    ((content.take ((r.lastIn content.length / defaultChunkSize + 1) * defaultChunkSize)).drop
      (r.start / defaultChunkSize * defaultChunkSize))
  have header := encryptedHeader_file L key nonce4 content
  rw [size_framing] at read
  generalize defaultChunkSize = c at *
  unfold decryptRange
  rw [header, makeAeadKey_eq length]
  rw [ok_bind]
  dsimp only
  rw [if_neg (not_lt.mpr starts), if_neg (not_lt.mpr ends), slab, ok_bind, read,
    window_slab before after]
  rfl

lemma decrypt_serves : Serves (decrypt L key nonce4 content.length
    (file L key nonce4 content)) content :=
  ⟨decryptFull_file length, fun _ within => decryptRange_file length within⟩

omit length in
lemma decrypt_empties (payload : ℕ) (file : Bytes) :
    Empties (decrypt L key nonce4 payload file) := by
  intro start last length bytes empty read
  have before := lastIn_lt payload empty
  simp only [decrypt, decryptRange] at read
  obtain ⟨chunkSize, -, read⟩ := ok_of_bind read
  split at read
  · cases read
  split at read
  · cases read
  obtain ⟨key', -, read⟩ := ok_of_bind read
  obtain ⟨plaintext, decoded, read⟩ := ok_of_bind read
  obtain ⟨same, -⟩ := mk.inj (Except.ok.inj read)
  rw [← Except.ok.inj same]
  exact Framing.readRangeFor_empty _ before (ok_of_internalError decoded)

end

section
variable (L : AuthenticLibraries) (key key' nonce4 content : Bytes)

lemma framing_agrees : (framing L.toLibraries key' nonce4 defaultChunkSize).Agrees
    (framing L.toLibraries key nonce4 defaultChunkSize) where
  size := rfl
  lead := rfl
  lengths := rfl
  decode := by
    intro i p got decoded
    dsimp only [framing] at decoded
    split at decoded
    · next opened => rw [← Except.ok.inj decoded, L.authentic _ _ _ _ _ opened]
    · cases decoded

lemma eq_of_makeAeadKey {key k : Bytes} (h : makeAeadKey key = .ok k) : k = key := by
  unfold makeAeadKey at h
  split at h
  · exact (Except.ok.inj h).symm
  · cases h

lemma decryptFull_tells : Tells ((decryptFull L.toLibraries key' nonce4 content.length
    (file L.toLibraries key nonce4 content)).map stream) content := by
  unfold decryptFull
  rw [encryptedHeader_file, ok_bind]
  cases opened : makeAeadKey key' with
  | error e => exact tells_error e content
  | ok k =>
    obtain rfl := eq_of_makeAeadKey opened
    rw [ok_bind]
    intro got delivered
    obtain ⟨⟨out, _⟩, read, rfl⟩ := map_ok_iff.mp (Except.ok.inj delivered)
    exact (framing_agrees L key k nonce4).run_frames (default_lawful ..)
      ((L.flatten_arriving _).trans (drop_header_file ..)) read

lemma decryptRange_tells {r : ByteRange} (within : r.Within content.length) :
    Tells ((decryptRange L.toLibraries key' nonce4 content.length
      (file L.toLibraries key nonce4 content) r).map stream)
      (r.of content) := by
  obtain ⟨order, inside⟩ := within.start_le
  obtain ⟨before, after⟩ := around (s := r.start) (e := r.lastIn content.length)
  obtain ⟨starts, ends, slab⟩ := file_slab L.toLibraries key nonce4
    (Nat.div_le_div_right (c := defaultChunkSize) order)
    (lt_of_le_of_lt (Nat.div_mul_le_self ..) inside)
  have header := encryptedHeader_file L.toLibraries key nonce4 content
  have agrees := framing_agrees L key key' nonce4
  have lawful := default_lawful L.toLibraries key nonce4
  have size := size_framing L.toLibraries key nonce4 (c := defaultChunkSize)
  generalize defaultChunkSize = c at *
  unfold decryptRange
  rw [header, ok_bind]
  dsimp only
  rw [if_neg (not_lt.mpr starts), if_neg (not_lt.mpr ends), slab]
  cases opened : makeAeadKey key' with
  | error e => exact tells_error e _
  | ok k =>
    obtain rfl := eq_of_makeAeadKey opened
    rw [ok_bind]
    intro got delivered
    obtain ⟨read, decrypted, same⟩ := map_ok_iff.mp delivered
    obtain ⟨plaintext, decoded, result⟩ := ok_of_bind decrypted
    have out := agrees.readRange_frames lawful (ok_of_internalError decoded)
    rw [size, window_slab before after] at out
    rw [← Except.ok.inj result] at same
    exact (Except.ok.inj same).symm.trans out

/-- **With another key an encrypted file is not read, or it is read right.** -/
lemma decrypt_honest : Honest (decrypt L.toLibraries key' nonce4 content.length
    (file L.toLibraries key nonce4 content)) content :=
  ⟨decryptFull_tells L key key' nonce4 content,
    fun _ within => decryptRange_tells L key key' nonce4 content within⟩

end

/-- A part whose reader reads its content, of the size the composite gives; a part with
nothing in it is not read. -/
structure PartReads (R : Opened → Bytes → Prop) (open_ : PartRead → Reading) (part : CompositePart)
    (content : Bytes) : Prop where
  size : part.plaintextSize = content.length
  reads : content ≠ [] → ReadsAs R (fun range => open_ ⟨part, range⟩) content

def Chains (R : Opened → Bytes → Prop) : Prop :=
  ∀ streams contents, List.Forall₂ R streams contents → R (concatLazily streams) contents.flatten

lemma chainStreams_tells {streams : List Opened} {contents : List Bytes}
    (each : List.Forall₂ Tells streams contents) {got : Bytes}
    (chained : chainStreams streams = .ok got) : got = contents.flatten := by
  induction each generalizing got with
  | nil => exact (Except.ok.inj chained).symm
  | @cons opened content streams contents tells _ ih =>
    cases opened with
    | error e => cases chained
    | ok stream =>
      rw [chainStreams] at chained
      obtain ⟨bytes, rfl, behind⟩ := ok_of_bind chained
      obtain ⟨more, rest, joined⟩ := ok_of_bind behind
      rw [flatten_cons, ← tells bytes rfl, ← ih rest, ← Except.ok.inj joined]

lemma tells_chains : Chains Tells := by
  intro streams contents each got delivered
  refine chainStreams_tells each ?_
  match streams, delivered with
  | [], delivered => exact Except.ok.inj delivered
  | .ok _ :: _, delivered => exact Except.ok.inj delivered

lemma delivers_chains : Chains Delivers := by
  intro streams contents each
  have chained : chainStreams streams = .ok contents.flatten := by
    induction each with
    | nil => rfl
    | @cons opened content streams contents delivers _ ih =>
      rw [delivers, chainStreams, ok_bind, ih, ok_bind]
      rfl
  cases each with
  | nil => rfl
  | cons delivers _ =>
    rw [delivers] at chained ⊢
    exact congrArg Except.ok chained

section
variable {R : Opened → Bytes → Prop} {open_ : PartRead → Reading}

lemma planParts_zero (s e cum : ℕ) (parts : List CompositePart) :
    planParts s e 0 cum parts = [] := by
  induction parts generalizing cum with
  | nil => rfl
  | cons part parts ih => rw [planParts, if_pos (.inr (.inl rfl)), ih]

lemma PartReads.at_window {part : CompositePart} {content : Bytes}
    (h : PartReads R open_ part content) {s e cum : ℕ} (some_part : part.plaintextSize ≠ 0)
    (starts : s < cum + part.plaintextSize) (ends : cum ≤ e) (order : s ≤ e) :
    R ((open_ ⟨part, if s - cum = 0 ∧ min (e - cum) (part.plaintextSize - 1) = part.plaintextSize - 1
      then none else some ⟨s - cum, some (min (e - cum) (part.plaintextSize - 1))⟩⟩).map
        stream) (window cum s e content) := by
  obtain ⟨size, reads⟩ := h
  rw [size] at starts some_part ⊢
  have reads := reads (length_pos_iff.mp (Nat.pos_of_ne_zero some_part))
  by_cases whole : s - cum = 0 ∧ min (e - cum) (content.length - 1) = content.length - 1
  · have all : window cum s e content = content := by
      rw [window, whole.1, drop_zero, take_of_length_le (by omega)]
    rw [if_pos whole, all]
    exact reads.full
  · have within : (⟨s - cum, some (min (e - cum) (content.length - 1))⟩ : ByteRange).Within
        content.length := by
      refine ⟨by dsimp only; omega, fun last given => ?_⟩
      rw [← some.inj given]
      dsimp only
      omega
    have part_eq : (⟨s - cum, some (min (e - cum) (content.length - 1))⟩ : ByteRange).of content =
        window cum s e content := by
      simp only [ByteRange.of, ByteRange.lastIn, map_some, getD_some,
        Nat.min_assoc, Nat.min_self, window_min]
      rw [window, window, Nat.sub_zero, Nat.sub_zero, show e - cum + 1 = e + 1 - cum by omega]
    rw [if_neg whole, ← part_eq]
    exact reads.ranged _ within

variable {parts : List CompositePart}

lemma planParts_full {cum total : ℕ}
    (size : cum + totalSize parts = total) : planParts 0 (total - 1) total cum parts =
      (parts.filter (·.plaintextSize ≠ 0)).map fun part => ⟨part, none⟩ := by
  induction parts generalizing cum with
  | nil => rfl
  | cons part parts ih =>
    have rest : cum + part.plaintextSize + totalSize parts = total := by
      rw [← size, totalSize, totalSize, map_cons, sum_cons, Nat.add_assoc]
    rw [planParts, ih rest]
    by_cases empty : part.plaintextSize = 0
    · rw [if_pos (.inl empty), filter_cons_of_neg (by simpa using empty)]
    · rw [if_neg (by omega)]
      dsimp only
      rw [if_pos ⟨Nat.zero_sub _, by omega⟩, filter_cons_of_pos (by simpa using empty),
        map_cons]

lemma map_stream_readComposite (parts : List CompositePart) (range : Option ByteRange) :
    (readComposite parts range open_).map stream =
      concatLazily ((planCompositeRead parts range).1.map
        fun read => (open_ read).map stream) := by
  dsimp only [readComposite]
  cases concatLazily _ <;> rfl

lemma readComposite_of_delivers {range : Option ByteRange}
    {bytes : Bytes} (h : Delivers ((readComposite parts range open_).map stream) bytes) :
    readComposite parts range open_ = .ok ⟨.ok bytes, (planCompositeRead parts range).2⟩ := by
  rw [map_stream_readComposite] at h
  dsimp only [readComposite]
  rw [h, ok_bind]
  rfl

variable {parts : List (CompositePart × Bytes)} (all : ∀ p ∈ parts, PartReads R open_ p.1 p.2)
include all

lemma planParts_streams {s e length : ℕ} (order : s ≤ e) (some_length : length ≠ 0) (cum : ℕ) :
    ∃ contents : List Bytes, contents.flatten = window cum s e (parts.map Prod.snd).flatten ∧
      List.Forall₂ R ((planParts s e length cum (parts.map Prod.fst)).map
        fun read => (open_ read).map stream) contents := by
  induction parts generalizing cum with
  | nil => exact ⟨[], by simp [window], .nil⟩
  | cons p parts ih =>
    obtain ⟨part, content⟩ := p
    have here : PartReads R open_ part content := all _ mem_cons_self
    obtain ⟨contents, flat, opened⟩ := ih (fun q mem => all q (mem_cons_of_mem _ mem))
      (cum + part.plaintextSize)
    simp only [map_cons, flatten_cons, planParts]
    rw [window_append]
    split
    · next apart =>
        refine ⟨contents, ?_, opened⟩
        have nothing : window cum s e content = [] := by
          rcases apart with empty | none | before | after
          · rw [here.size, length_eq_zero_iff] at empty
            rw [empty, window, take_nil, drop_nil]
          · exact absurd none some_length
          · exact window_of_before (here.size ▸ before)
          · exact window_of_after after
        rw [nothing, nil_append, flat, here.size]
    · next touched =>
        push Not at touched
        obtain ⟨some_part, -, starts, ends⟩ := touched
        refine ⟨window cum s e content :: contents, ?_,
          .cons (here.at_window some_part starts ends order) opened⟩
        rw [flatten_cons, flat, here.size]

lemma totalSize_eq : totalSize (parts.map Prod.fst) = (parts.map Prod.snd).flatten.length := by
  rw [totalSize, List.length_flatten, List.map_map, List.map_map]
  exact congrArg List.sum (map_congr_left fun p mem => (all p mem).size)

/-- **A composite reads as its parts do, one after another.** -/
lemma readComposite_reads (chains : Chains R) :
    ReadsAs R (fun range => readComposite (parts.map Prod.fst) range open_)
      (parts.map Prod.snd).flatten := by
  have total := totalSize_eq all
  have planned : ∀ s e, s ≤ e →
      R (concatLazily ((planParts s e (e + 1 - s) 0 (parts.map Prod.fst)).map
        fun read => (open_ read).map stream))
        (window 0 s e (parts.map Prod.snd).flatten) := by
    intro s e order
    obtain ⟨contents, joined, opened⟩ := planParts_streams all order (show e + 1 - s ≠ 0 by omega) 0
    rw [← joined]
    exact chains _ _ opened
  constructor
  · rw [map_stream_readComposite]
    simp only [planCompositeRead, total, map_none, getD_none]
    by_cases empty : (parts.map Prod.snd).flatten = []
    · rw [empty, length_nil, if_pos rfl, planParts_zero]
      exact chains [] [] .nil
    · have pos := length_pos_iff.mpr empty
      have read := planned 0 ((parts.map Prod.snd).flatten.length - 1) (by omega)
      rw [window_zero_of_le (by omega)] at read
      rw [if_neg (by omega)]
      exact read
  · intro r within
    obtain ⟨order, inside⟩ := within.start_le
    rw [map_stream_readComposite]
    simp only [planCompositeRead, total, map_some, getD_some]
    rw [if_neg (by omega)]
    exact planned _ _ order

end

/-- **A composite serves what its parts serve, one after another.** -/
lemma readComposite_serves {open_ : PartRead → Reading} {parts : List (CompositePart × Bytes)}
    (all : ∀ p ∈ parts, PartReads Delivers open_ p.1 p.2) :
    Serves (fun range => readComposite (parts.map Prod.fst) range open_)
      (parts.map Prod.snd).flatten := by
  have reads := readComposite_reads all delivers_chains
  have total := totalSize_eq all
  constructor
  · rw [readComposite_of_delivers reads.full]
    simp only [planCompositeRead, total, map_none, getD_none]
    by_cases empty : (parts.map Prod.snd).flatten.length = 0
    · rw [if_pos empty, empty]
    · rw [if_neg empty, Nat.sub_zero, Nat.sub_add_cancel (Nat.pos_of_ne_zero empty)]
  · intro r within
    obtain ⟨order, inside⟩ := within.start_le
    rw [readComposite_of_delivers (reads.ranged r within)]
    simp only [planCompositeRead, total, map_some, getD_some]
    rw [if_neg (by omega)]

end Arca.Blob
