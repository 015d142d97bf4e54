import Arca.Blob.Nonces
import Arca.Blob.Serves

/-!
# Encrypted files written and read as they arrive

Whatever the source and the workers do, what `EncryptingStream` has yielded in the
end is the header and the frames of the content. Of a file that was changed on disk,
`DecryptingStream` opens nothing but the chunks that were sealed, in order; it does
not know how many there are.
-/
namespace Arca.Blob.EncryptedStreams
open Encryption Chunked Framed List

/-- What a stream is made with. The chunk size is a number of 32 bits. -/
structure Cipher where
  L : Libraries
  key : Bytes
  nonce4 : Bytes
  chunkSize : ℕ
  batchFactor : ℕ
  pos : 0 < chunkSize
  small : chunkSize < 2 ^ 32

def Cipher.framing (e : Cipher) : Framing := Encryption.framing e.L e.key e.nonce4 e.chunkSize

lemma Cipher.lawful (e : Cipher) : e.framing.Lawful := framing_lawful _ _ _ e.pos e.small

/-- The stream, with the pieces its source has still to give and what it has yielded. A
worker under way stands for the frames that it comes back with. -/
structure Encrypting where
  inner : List Bytes
  chunkIndex : ℕ
  buffer : Bytes
  headerEmitted : Bool
  innerDone : Bool
  pending : List Bytes
  yielded : List Bytes
  ended : Bool

def start (pieces : List Bytes) : Encrypting := ⟨pieces, 0, [], false, false, [], [], false⟩

section
variable (e : Cipher)

def batchCapacity : ℕ := e.chunkSize * max e.batchFactor 1

/-- Of the counter, which has 64 bits, only the last 64 bits are used. -/
def flushBatch (s : Encrypting) : Encrypting :=
  if s.buffer = [] then s
  else { s with
    buffer := []
    chunkIndex := s.chunkIndex + (s.buffer.length + e.chunkSize - 1) / e.chunkSize
    pending := s.pending ++ [e.framing.frames s.chunkIndex s.buffer] }

def flushFull : ℕ → Encrypting → Encrypting
  | 0, s => s
  | turns + 1, s =>
    if batchCapacity e ≤ s.buffer.length ∧ s.pending.length < Nonces.pipelineDepth then
      let remainder := s.buffer.drop (batchCapacity e)
      let s := flushBatch e { s with buffer := s.buffer.take (batchCapacity e) }
      flushFull turns { s with buffer := s.buffer ++ remainder }
    else s

/-- One turn of `poll_next`: whether the first worker is done, and whether the source has
an answer. -/
def turn (s : Encrypting) (now : Bool × Bool) : Encrypting :=
  if s.ended then s
  else if !s.headerEmitted then
    { s with headerEmitted := true, yielded := s.yielded ++ [writeHeader e.chunkSize] }
  else match s.pending, now.1 with
    | batch :: pending, true => { s with pending := pending, yielded := s.yielded ++ [batch] }
    | _, _ =>
      if Nonces.pipelineDepth ≤ s.pending.length then s
      else if s.innerDone then { s with ended := s.pending.isEmpty }
      else if !now.2 then s
      else match s.inner with
        | piece :: inner => flushFull e Nonces.pipelineDepth
            { s with inner := inner, buffer := s.buffer ++ piece }
        | [] =>
          let s := { s with innerDone := true }
          if s.buffer ≠ [] ∧ s.pending.length < Nonces.pipelineDepth then flushBatch e s
          else s

def total (s : Encrypting) : Bytes :=
  s.yielded.flatten ++ (if s.headerEmitted then [] else writeHeader e.chunkSize) ++ s.pending.flatten ++
    e.framing.frames s.chunkIndex (s.buffer ++ s.inner.flatten)

structure Accounts (content : Bytes) (s : Encrypting) : Prop where
  total : total e s = writeHeader e.chunkSize ++ e.framing.frames 0 content
  done : s.innerDone = true → s.inner = [] ∧ s.buffer = []
  ended : s.ended = true → s.headerEmitted = true ∧ s.innerDone = true ∧ s.pending = []

variable {e} {content : Bytes} {s : Encrypting}

/-- A bound on the turns that are left, once workers and source do not keep it waiting. -/
def rank (s : Encrypting) : ℕ :=
  5 * s.inner.length + (if s.innerDone then 0 else 2) + s.pending.length +
    (if s.headerEmitted then 0 else 1) + if s.ended then 0 else 1

lemma frames_flush {i : ℕ} {a b : Bytes} (whole : e.chunkSize ∣ a.length ∨ b = []) :
    e.framing.frames i (a ++ b) =
      e.framing.frames i a ++ e.framing.frames (i + (a.length + e.chunkSize - 1) / e.chunkSize) b := by
  rcases whole with ⟨k, length⟩ | rfl
  · have count : (a.length + e.chunkSize - 1) / e.chunkSize = k := by
      have pos := e.pos
      rw [length, show e.chunkSize * k + e.chunkSize - 1 = e.chunkSize - 1 + e.chunkSize * k by omega,
        Nat.add_mul_div_left _ _ e.pos, Nat.div_eq_of_lt (Nat.sub_lt e.pos one_pos), Nat.zero_add]
    rw [count]
    exact e.lawful.frames_append b (length.trans (Nat.mul_comm ..))
  · rw [append_nil, Framing.frames_nil, append_nil]

lemma total_flush {a b : Bytes} (held : s.buffer = a ++ b) (some : a ≠ [])
    (whole : e.chunkSize ∣ a.length ∨ b ++ s.inner.flatten = []) :
    total e { flushBatch e { s with buffer := a } with buffer := b } = total e s := by
  simp only [flushBatch, if_neg some, total, held, append_assoc, frames_flush whole,
    flatten_append, flatten_singleton]

lemma batchCapacity_pos : 0 < batchCapacity e :=
  Nat.mul_pos e.pos (lt_max_of_lt_right one_pos)

variable (e) in
lemma flushFull_spec (turns : ℕ) (s : Encrypting) : total e (flushFull e turns s) = total e s ∧
    (flushFull e turns s).inner = s.inner ∧
    (flushFull e turns s).innerDone = s.innerDone ∧
    (flushFull e turns s).ended = s.ended ∧
    (flushFull e turns s).headerEmitted = s.headerEmitted ∧
    (flushFull e turns s).pending.length ≤
      max s.pending.length Nonces.pipelineDepth := by
  induction turns generalizing s with
  | zero => exact ⟨rfl, rfl, rfl, rfl, rfl, le_max_left _ _⟩
  | succ turns ih =>
    unfold flushFull
    split
    next full =>
      have length := length_take_of_le full.1
      have cut := (take_append_drop (batchCapacity e) s.buffer).symm
      generalize s.buffer.take (batchCapacity e) = a at length cut
      generalize s.buffer.drop (batchCapacity e) = b at cut
      have some : a ≠ [] := length_pos_iff.mp (length.symm ▸ batchCapacity_pos)
      have flushed : total e _ = _ := total_flush cut some (.inl (length ▸ dvd_mul_right ..))
      simp only [flushBatch, if_neg some, nil_append] at flushed ⊢
      obtain ⟨same, inner, done, ended, header, pending⟩ := ih { s with
        buffer := b
        chunkIndex := s.chunkIndex + (a.length + e.chunkSize - 1) / e.chunkSize
        pending := s.pending ++ [e.framing.frames s.chunkIndex a] }
      refine ⟨same.trans flushed, inner, done, ended, header, pending.trans ?_⟩
      rw [length_append, length_singleton]
      omega
    · exact ⟨rfl, rfl, rfl, rfl, rfl, le_max_left _ _⟩

variable (e) in
lemma turn_spec (h : Accounts e content s) (now : Bool × Bool) :
    Accounts e content (turn e s now) ∧
    (now = (true, true) → s.ended = false → rank (turn e s now) < rank s) := by
  obtain ⟨total, done, ended⟩ := h
  unfold turn
  split
  next stopped => exact ⟨⟨total, done, ended⟩, fun _ running => absurd stopped (by simp [running])⟩
  next running =>
  split
  next first =>
    rw [Bool.not_eq_true'] at first
    refine ⟨⟨?_, done, fun stopped => absurd stopped running⟩, fun _ _ => by simp [rank, first]⟩
    simpa [EncryptedStreams.total, first] using total
  next header =>
  have header : s.headerEmitted = true := by simpa using header
  split
  next batch pending queue _ =>
    refine ⟨⟨?_, done, fun stopped => absurd stopped running⟩, fun _ _ => ?_⟩
    · simpa [EncryptedStreams.total, header, queue] using total
    · simp only [rank, queue, length_cons]
      omega
  next pending worker idle =>
  have empty : now = (true, true) → s.pending = [] := by
    rintro rfl
    cases queue : s.pending with
    | nil => rfl
    | cons batch pending => exact (idle batch pending queue rfl).elim
  split
  next full =>
    refine ⟨⟨total, done, ended⟩, fun awake _ => absurd full ?_⟩
    simp [empty awake, Nonces.pipelineDepth]
  next room =>
  split
  next drained =>
    refine ⟨⟨total, done, fun stopped => ⟨header, drained, isEmpty_iff.mp stopped⟩⟩,
      fun awake _ => ?_⟩
    simp [rank, empty awake, running]
  next unfinished =>
  split
  next asleep =>
    refine ⟨⟨total, done, ended⟩, ?_⟩
    rintro rfl
    cases asleep
  split
  next piece inner source =>
    obtain ⟨same, inner', done', ended', header', pending⟩ := flushFull_spec e
      Nonces.pipelineDepth { s with inner := inner, buffer := s.buffer ++ piece }
    refine ⟨⟨same.trans ?_, fun all => absurd (done' ▸ all) unfinished,
      fun stopped => absurd (ended' ▸ stopped) running⟩, fun awake _ => ?_⟩
    · simpa [EncryptedStreams.total, source] using total
    · have depth : Nonces.pipelineDepth = 4 := rfl
      simp only [rank, inner', done', ended', header', source, length_cons]
      dsimp only at pending
      omega
  next source =>
    dsimp only
    split
    next some =>
      have flushed : EncryptedStreams.total e _ = _ := total_flush
        (s := { s with innerDone := true }) (a := s.buffer) (b := []) (append_nil _).symm some.1
        (.inr (by rw [source]; rfl))
      rw [flushBatch, if_neg some.1] at flushed ⊢
      refine ⟨⟨flushed.trans total, fun _ => ⟨source, rfl⟩, fun stopped => absurd stopped running⟩,
        fun _ _ => ?_⟩
      simp only [rank, length_append, length_singleton, if_true, if_neg unfinished]
      omega
    next none =>
      refine ⟨⟨total, fun _ => ⟨source, ?_⟩, fun stopped => absurd stopped running⟩, fun _ _ => ?_⟩
      · by_contra some
        exact none ⟨some, not_le.mp room⟩
      · simp only [rank, if_true, if_neg unfinished]
        omega

end

/-- **An encrypted stream can always come to its end, and what it has yielded then is read
back**, whenever workers and source answer. -/
theorem encrypted_stream_round_trip (e : Cipher) (pieces : List Bytes)
    (polls : List (Bool × Bool)) :
    (∃ more, ((polls ++ more).foldl (turn e) (start pieces)).ended = true) ∧
    ∀ s, s = polls.foldl (turn e) (start pieces) → s.ended = true →
      s.yielded.flatten = writeHeader e.chunkSize ++
        e.framing.frames 0 pieces.flatten ∧
      parseHeader (s.yielded.flatten.take headerSize) = .ok e.chunkSize ∧
      ∀ arriving : List Bytes, arriving.flatten = s.yielded.flatten.drop headerSize →
        e.framing.reader.run 0 [] arriving = .ok (pieces.flatten, ()) := by
  have begins : Accounts e pieces.flatten (start pieces) :=
    ⟨rfl, fun all => (Bool.false_ne_true all).elim, fun stopped => (Bool.false_ne_true stopped).elim⟩
  have accounts := (Run.always_of_step (P := Accounts e pieces.flatten)
    (fun s now h => (turn_spec e h now).1) begins polls).last
  constructor
  · simp only [foldl_append]
    generalize polls.foldl (turn e) (start pieces) = s at accounts
    induction left : rank s using Nat.strong_induction_on generalizing s with
    | _ n ih =>
      cases stopped : s.ended with
      | true => exact ⟨[], stopped⟩
      | false =>
        obtain ⟨after, lower⟩ := turn_spec e accounts (true, true)
        obtain ⟨more, ends⟩ := ih _ (left ▸ lower rfl stopped) _ after rfl
        exact ⟨(true, true) :: more, ends⟩
  · rintro s rfl stopped
    obtain ⟨total, done, ended⟩ := accounts
    generalize polls.foldl (turn e) (start pieces) = s at *
    obtain ⟨header, all, queue⟩ := ended stopped
    have file : s.yielded.flatten = writeHeader e.chunkSize ++
        e.framing.frames 0 pieces.flatten := by
      simpa [EncryptedStreams.total, header, queue, done all] using total
    refine ⟨file, ?_, fun arriving arrived => e.lawful.run_frames ?_⟩
    · rw [file, take_left' length_writeHeader]
      exact parseHeader_writeHeader e.pos e.small
    · rw [arrived, file, drop_left' length_writeHeader]

structure Object extends Cipher where
  content : Bytes
  length_key : key.length = 32
  size : content.length < 2 ^ 64

def Object.chunk (o : Object) (i : ℕ) : Bytes :=
  (o.content.drop (i * o.chunkSize)).take o.chunkSize

/-- What may be found in the place of an object's file. The AEAD is unforgeable. -/
structure Found (o : Object) where
  file : Bytes
  unforged : ∀ nonce body p, body <:+: file → o.L.openChunk o.key nonce body = some p →
    ∃ i, i * o.chunkSize < o.content.length ∧ nonce = buildNonce o.nonce4 i ∧
      body = o.L.sealChunk o.key nonce (o.chunk i)

lemma parseHeader_eq_ok {data : Bytes} {n : ℕ} (h : parseHeader data = .ok n) :
    0 < n ∧ n < 2 ^ 32 ∧ data.take headerSize = writeHeader n := by
  unfold parseHeader at h
  split_ifs at h with short magic version zero
  obtain rfl := Except.ok.inj h
  have long : 9 ≤ data.length := not_lt.mp short
  have size : 4 ≤ (data.drop 5).length := by rw [length_drop]; omega
  refine ⟨Nat.pos_of_ne_zero zero, fromLe32_lt _, ?_⟩
  rw [writeHeader, le32_fromLe32 size, ← not_not.mp magic, ← not_not.mp version, ← take_add]
  exact take_add (i := 5) (j := 4)

section
variable {o : Object}

/-- **Chunks are read in their order**: a reader that comes to the end of what it is given has
found the chunks from `i` up to some other one. -/
lemma chunks_of_whole (g : Found o) {i : ℕ} {buf out : Bytes} (inside : buf <:+: g.file)
    (reached : i * o.chunkSize < o.content.length + o.chunkSize)
    (read : o.framing.reader.whole i buf = .ok (out, ())) :
    ∃ k ≥ i, out = (o.content.take (k * o.chunkSize)).drop (i * o.chunkSize) ∧
      buf = o.framing.frames i out := by
  have lawful := o.lawful
  have steady := o.framing.reader_steady
  induction length : buf.length using Nat.strong_induction_on generalizing i buf out with
  | _ n ih =>
    cases turn : o.framing.reader.turn i buf with
    | stop result =>
      rw [Reader.whole_stop turn] at read
      dsimp only [Framing.reader] at turn
      split_ifs at turn
      split at turn
      · cases turn
      · cases turn
        cases read
    | wait =>
      rw [Reader.whole_wait turn] at read
      by_cases rest : buf = []
      · rw [rest] at read ⊢
        obtain rfl := congrArg Prod.fst (Except.ok.inj read)
        refine ⟨i, le_rfl, ?_, rfl⟩
        rw [drop_eq_nil_of_le (length_take_le ..)]
      · simp [Framing.reader, rest, Except.map] at read
    | take p rest next =>
      obtain ⟨whole, rfl, rfl, decoded⟩ := Framing.frame_of_turn _ turn
      rw [steady.whole_take turn, after_eq_ok_iff] at read
      obtain ⟨more, read, rfl⟩ := read
      dsimp only [Cipher.framing, framing] at whole decoded
      split at decoded
      next opened =>
        obtain rfl := Except.ok.inj decoded
        generalize taken : (buf.drop 4).take (fromLe32 buf + 16) = body at opened
        have within : body <:+: g.file := taken ▸
          (( take_prefix _ _).isInfix.trans (drop_suffix _ _).isInfix).trans inside
        obtain ⟨j, below, nonce, sealed⟩ := g.unforged _ body _ within opened
        have counted : i < 2 ^ 64 ∧ j < 2 ^ 64 := by
          have size := o.size
          have least := Nat.le_mul_of_pos_right j o.pos
          have least' := Nat.le_mul_of_pos_right (i - 1) o.pos
          rw [Nat.sub_mul, Nat.one_mul] at least'
          omega
        obtain rfl : i = j := Nonces.EncryptingStream.be64_inj counted.1 counted.2
          (append_cancel_left nonce)
        rw [sealed, o.L.openChunk_sealChunk, Option.some.injEq] at opened
        subst opened
        have size : fromLe32 buf = (o.chunk i).length := by
          have := congrArg List.length (taken.trans sealed)
          rw [o.L.length_sealChunk, length_take, length_drop] at this
          omega
        have framed : buf = o.framing.frame i (o.chunk i) ++
            buf.drop (4 + (fromLe32 buf + 16)) := by
          have lead : le32 (o.chunk i).length = buf.take 4 := size ▸ le32_fromLe32 (by omega)
          change buf = le32 (o.chunk i).length ++ o.L.sealChunk _ _ (o.chunk i) ++ _
          rw [lead, ← sealed, ← taken, ← take_add, take_append_drop]
        obtain ⟨k, after, rfl, rest⟩ := ih _ (length ▸ steady.shrinks turn)
          ((drop_suffix _ _).isInfix.trans inside) (by rw [Nat.succ_mul]; omega) read rfl
        have upTo : (i + 1) * o.chunkSize ≤ k * o.chunkSize := Nat.mul_le_mul_right _ after
        rw [Nat.succ_mul] at upTo
        -- the chunk and what follows it are the two parts of what lies from the chunk on
        have tail := drop_drop (i := o.chunkSize) (j := i * o.chunkSize)
          (l := o.content.take (k * o.chunkSize))
        have head : ((o.content.take (k * o.chunkSize)).drop (i * o.chunkSize)).take
            o.chunkSize = o.chunk i := by
          rw [drop_take, take_take, Nat.min_eq_left (by omega)]
          rfl
        have some : (o.content.take (k * o.chunkSize)).drop (i * o.chunkSize) ≠ [] := by
          refine length_pos_iff.mp ?_
          rw [length_drop, length_take]
          have pos := o.pos
          omega
        rw [Nat.succ_mul, ← tail] at rest
        refine ⟨k, by omega, ?_, framed.trans ?_⟩
        · rw [Nat.succ_mul, ← tail, ← head, take_append_drop]
        · rw [Nat.succ_mul, ← tail, ← head, take_append_drop, lawful.frames_of_ne_nil some]
          exact congrArg _ rest
      · cases decoded

/-- **A full read that succeeds returns the content, exactly when what is found is not the file
cut after some of its chunks.** -/
theorem full_read_authentic_iff (g : Found o) (payloadSize : ℕ) :
    Tells ((decryptFull o.L o.key o.nonce4 payloadSize g.file).map BlobGetResult.stream) o.content ↔
      ∀ n k, 0 < n → n < 2 ^ 32 → k * o.chunkSize < o.content.length →
        g.file ≠ writeHeader n ++ o.framing.frames 0
          (o.content.take (k * o.chunkSize)) := by
  have lawful := o.lawful
  constructor
  · intro tells n k pos small short cut
    have header : encryptedHeader g.file = .ok n := by
      rw [encryptedHeader, cut, take_left' length_writeHeader, parseHeader_writeHeader pos small,
        if_neg (by simp [headerSize])]
      rfl
    have stream := lawful.run_frames (i := 0) (l := o.content.take (k * o.chunkSize))
      ((o.L.flatten_arriving (g.file.drop headerSize)).trans
        (by rw [cut, drop_left' length_writeHeader]))
    have got := tells (o.content.take (k * o.chunkSize)) (by
      rw [decryptFull, header, makeAeadKey_eq o.length_key, ok_bind, ok_bind]
      exact congrArg (fun read => Except.ok (read.map Prod.fst)) stream)
    have length := congrArg List.length got
    rw [length_take] at length
    omega
  · intro uncut got delivered
    obtain ⟨result, read, same⟩ := map_ok_iff.mp delivered
    obtain ⟨size, header, read⟩ := ok_of_bind read
    obtain ⟨key, opened, read⟩ := ok_of_bind read
    obtain rfl := eq_of_makeAeadKey opened
    obtain rfl := Except.ok.inj read
    obtain ⟨⟨out, _⟩, read, rfl⟩ := map_ok_iff.mp same
    rw [Framing.reader_steady _ |>.run_eq_whole, o.L.flatten_arriving] at read
    obtain ⟨k, -, rfl, frames⟩ := chunks_of_whole g (drop_suffix _ _).isInfix
      (by rw [Nat.zero_mul]; exact Nat.lt_add_left _ o.pos) read
    rw [encryptedHeader] at header
    split at header
    · cases header
    obtain ⟨pos, small, nine⟩ := parseHeader_eq_ok (ok_of_internalError header)
    rw [take_take, Nat.min_self] at nine
    rw [Nat.zero_mul, drop_zero] at frames ⊢
    refine take_of_length_le (not_lt.mp fun short => uncut size k pos small short ?_)
    rw [← nine, ← frames, take_append_drop]

end

/-- A file of one chunk that is cut to its header is read as an empty object. -/
theorem file_cut_to_header_reads_empty : let key := List.replicate 32 0
    let file := Encryption.file sampleLibraries key [1, 2, 3, 4] [7]
    file.length = 30 ∧
      decryptFull sampleLibraries key [1, 2, 3, 4] 1 (file.take 9) = .ok ⟨.ok [], 1⟩ :=
  ⟨by decide +kernel, rfl⟩

end Arca.Blob.EncryptedStreams
