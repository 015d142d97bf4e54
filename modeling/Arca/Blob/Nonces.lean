import Arca.Blob.Format
import Arca.Lib.Run

/-!
# The nonces of an encrypted write

`EncryptingStream` gathers what it pulls into batches of chunks and hands each batch
to a worker, which seals its chunks under consecutive nonces: four random bytes drawn
for the stream, and the number of the chunk.
-/
namespace Arca.Blob.Nonces
open Encryption List

inductive Source where
  | pending
  | piece (bytes : Bytes)
  | failed
  | ended

def pipelineDepth : ℕ := 4

def defaultBatchFactor : ℕ := 4

/-- The nonces under which the chunks of the batches so far are sealed, and the length of
those batches, are kept beside the fields of the stream. -/
structure EncryptingStream where
  key : Bytes
  nonce4 : Bytes
  chunkSize : ℕ
  batchFactor : ℕ
  chunkIndex : ℕ
  buffer : Bytes
  headerEmitted : Bool
  innerDone : Bool
  pending : ℕ
  nonces : List Bytes
  flushed : ℕ
  length_nonce4 : nonce4.length = 4
  chunkSize_pos : 0 < chunkSize

namespace EncryptingStream

def withBatchFactor (key nonce4 : Bytes) (chunkSize batchFactor : ℕ)
    (length_nonce4 : nonce4.length = 4) (chunkSize_pos : 0 < chunkSize) : EncryptingStream where
  key := key
  nonce4 := nonce4
  chunkSize := chunkSize
  batchFactor := max batchFactor 1
  chunkIndex := 0
  buffer := []
  headerEmitted := false
  innerDone := false
  pending := 0
  nonces := []
  flushed := 0
  length_nonce4 := length_nonce4
  chunkSize_pos := chunkSize_pos

section
variable (s : EncryptingStream)

def batchCapacity : ℕ := s.chunkSize * s.batchFactor

/-- The loop of a worker. Its counter is one of 64 bits. -/
def sealBatch (nonce4 : Bytes) (chunkSize : ℕ) : ℕ → ℕ → Bytes → List Bytes
  | 0, _, _ => []
  | turns + 1, chunkIdx, plaintext =>
    if plaintext = [] then []
    else buildNonce nonce4 chunkIdx ::
      sealBatch nonce4 chunkSize turns ((chunkIdx + 1) % 2 ^ 64) (plaintext.drop chunkSize)

def nChunks (chunkSize len : ℕ) : ℕ := (len + chunkSize - 1) / chunkSize

def flushBatch : EncryptingStream :=
  if s.buffer = [] then s
  else { s with
    buffer := []
    chunkIndex := (s.chunkIndex + nChunks s.chunkSize s.buffer.length) % 2 ^ 64
    pending := s.pending + 1
    nonces := s.nonces ++ sealBatch s.nonce4 s.chunkSize s.buffer.length s.chunkIndex s.buffer
    flushed := s.flushed + s.buffer.length }

/-- Whole batches go to workers while there are any to be had; every turn takes one. -/
def flushFull : ℕ → EncryptingStream → EncryptingStream
  | 0, s => s
  | turns + 1, s =>
    if s.batchCapacity ≤ s.buffer.length ∧ s.pending < pipelineDepth then
      let remainder := s.buffer.drop s.batchCapacity
      let s := flushBatch { s with buffer := s.buffer.take s.batchCapacity }
      flushFull turns { s with buffer := s.buffer ++ remainder }
    else s

/-- One turn of `poll_next`: whether the first worker is done, and what the source would
answer. -/
def turn (headDone : Bool) (source : Source) : EncryptingStream :=
  if !s.headerEmitted then { s with headerEmitted := true }
  else if 0 < s.pending ∧ headDone then { s with pending := s.pending - 1 }
  else if pipelineDepth ≤ s.pending ∧ 0 < s.pending then s
  else if s.innerDone then s
  else match source with
    | .piece bytes => flushFull pipelineDepth { s with buffer := s.buffer ++ bytes }
    | .failed | .pending => s
    | .ended =>
      let s := { s with innerDone := true }
      if s.buffer ≠ [] ∧ s.pending < pipelineDepth then s.flushBatch else s

def count : ℕ := nChunks s.chunkSize s.flushed

end

/-- The chunks have been sealed under consecutive numbers, cut to 64 bits, and until the
source ends every batch is one of whole chunks. -/
structure Counted (s : EncryptingStream) : Prop where
  nonces : s.nonces = (List.range s.count).map fun i => buildNonce s.nonce4 (i % 2 ^ 64)
  index : s.chunkIndex = s.count % 2 ^ 64
  whole : s.innerDone = false → s.chunkSize ∣ s.flushed

variable {c n : ℕ}

lemma nChunks_zero (pos : 0 < c) : nChunks c 0 = 0 :=
  Nat.div_eq_of_lt (by omega)

lemma nChunks_of_pos {len : ℕ} (pos : 0 < c) (more : 0 < len) :
    nChunks c len = nChunks c (len - c) + 1 := by
  unfold nChunks
  by_cases whole : c ≤ len
  · rw [show len + c - 1 = (len - c + c - 1) + c by omega, Nat.add_div_right _ pos]
  · rw [show len - c = 0 by omega, Nat.zero_add, Nat.div_eq_of_lt (show c - 1 < c by omega)]
    exact Nat.div_eq_of_lt_le (by omega) (by omega)

lemma nChunks_add {a b : ℕ} (pos : 0 < c) (whole : c ∣ a) :
    nChunks c (a + b) = nChunks c a + nChunks c b := by
  obtain ⟨k, rfl⟩ := whole
  unfold nChunks
  have first : (c * k + c - 1) / c = k := by
    rw [show c * k + c - 1 = c - 1 + c * k by omega, Nat.add_mul_div_left _ _ pos,
      Nat.div_eq_of_lt (by omega), Nat.zero_add]
  rw [first, show c * k + b + c - 1 = b + c - 1 + c * k by omega, Nat.add_mul_div_left _ _ pos,
    Nat.add_comm]

lemma sealBatch_eq {nonce4 : Bytes} (pos : 0 < c) (turns start : ℕ) (plaintext : Bytes)
    (enough : plaintext.length ≤ turns) :
    sealBatch nonce4 c turns (start % 2 ^ 64) plaintext =
      (List.range (nChunks c plaintext.length)).map fun i => buildNonce nonce4 ((start + i) % 2 ^ 64) := by
  induction turns generalizing start plaintext with
  | zero =>
    rw [Nat.le_zero.mp enough, nChunks_zero pos]
    rfl
  | succ turns ih =>
    unfold sealBatch
    split
    next none =>
      rw [none, length_nil, nChunks_zero pos]
      rfl
    next some =>
      have more : 0 < plaintext.length := length_pos_iff.mpr some
      rw [Nat.mod_add_mod, ih (start + 1) (plaintext.drop c) (by rw [length_drop]; omega),
        nChunks_of_pos pos more, range_succ_eq_map, map_cons, map_map,
        length_drop]
      simp only [Nat.add_zero, cons.injEq, true_and]
      refine map_congr_left fun i _ => ?_
      rw [Function.comp_apply, Nat.succ_eq_add_one, Nat.add_assoc, Nat.add_comm 1 i]

variable {s : EncryptingStream}

lemma counted_new {key nonce4 : Bytes} {f : ℕ} (four : nonce4.length = 4) (pos : 0 < c) :
    Counted (withBatchFactor key nonce4 c f four pos) where
  nonces := by
    have none : (withBatchFactor key nonce4 c f four pos).count = 0 := nChunks_zero pos
    rw [none]
    rfl
  index := by
    have none : (withBatchFactor key nonce4 c f four pos).count = 0 := nChunks_zero pos
    rw [none]
    rfl
  whole _ := dvd_zero c

lemma flushBatch_eq (some : s.buffer ≠ []) : s.flushBatch = { s with
    buffer := []
    chunkIndex := (s.chunkIndex + nChunks s.chunkSize s.buffer.length) % 2 ^ 64
    pending := s.pending + 1
    nonces := s.nonces ++ sealBatch s.nonce4 s.chunkSize s.buffer.length s.chunkIndex s.buffer
    flushed := s.flushed + s.buffer.length } := if_neg some

/-- A batch behind whole chunks; it may itself end in a short one when it is the last. -/
lemma Counted.flushBatch (counted : Counted s) (before : s.chunkSize ∣ s.flushed)
    (last : s.innerDone = false → s.chunkSize ∣ s.buffer.length) : Counted s.flushBatch := by
  by_cases none : s.buffer = []
  · rw [EncryptingStream.flushBatch, if_pos none]
    exact counted
  · rw [flushBatch_eq none]
    have total : nChunks s.chunkSize (s.flushed + s.buffer.length) =
        s.count + nChunks s.chunkSize s.buffer.length := nChunks_add s.chunkSize_pos before
    refine ⟨?_, ?_, fun unfinished => dvd_add before (last unfinished)⟩
    · dsimp only [count]
      rw [total, counted.nonces, counted.index, sealBatch_eq s.chunkSize_pos _ _ _ le_rfl,
        range_add, map_append, map_map]
      rfl
    · dsimp only [count]
      rw [total, counted.index, Nat.mod_add_mod]

lemma Counted.setBuffer (counted : Counted s) (bytes : Bytes) : Counted { s with buffer := bytes } :=
  ⟨counted.nonces, counted.index, counted.whole⟩

lemma counted_flushFull (turns : ℕ) (counted : Counted s) (unfinished : s.innerDone = false) :
    Counted (flushFull turns s) := by
  induction turns generalizing s with
  | zero => exact counted
  | succ turns ih =>
    unfold flushFull
    split
    next full =>
      have taken : (s.buffer.take s.batchCapacity).length = s.chunkSize * s.batchFactor :=
        length_take_of_le full.1
      set batch : EncryptingStream := { s with buffer := s.buffer.take s.batchCapacity }
      have flushed : Counted batch.flushBatch := by
        refine (counted.setBuffer _).flushBatch (counted.whole unfinished) fun _ => ?_
        exact taken ▸ dvd_mul_right s.chunkSize s.batchFactor
      refine ih (flushed.setBuffer _) ?_
      unfold EncryptingStream.flushBatch
      split <;> exact unfinished
    · exact counted

lemma counted_turn (headDone : Bool) (source : Source) (counted : Counted s) :
    Counted (s.turn headDone source) := by
  unfold turn
  split
  · exact ⟨counted.nonces, counted.index, counted.whole⟩
  split
  · exact ⟨counted.nonces, counted.index, counted.whole⟩
  split
  · exact counted
  split
  · exact counted
  next unfinished =>
    have unfinished : s.innerDone = false := Bool.eq_false_iff.mpr unfinished
    cases source with
    | pending | failed => exact counted
    | piece bytes => exact counted_flushFull _ (counted.setBuffer _) unfinished
    | ended =>
      have ended : Counted { s with innerDone := true } :=
        ⟨counted.nonces, counted.index, fun done => by cases done⟩
      dsimp only
      split
      · exact ended.flushBatch (counted.whole unfinished) fun done => by cases done
      · exact ended

lemma be64_inj {m : ℕ} (small : n < 2 ^ 64) (small' : m < 2 ^ 64) (same : be64 n = be64 m) :
    n = m := by
  have digit : ∀ k < 8, n / 256 ^ k % 256 = m / 256 ^ k % 256 := by
    intro k below
    have each : ∀ k ∈ (List.range 8).reverse, UInt8.ofNat (n / 256 ^ k) = UInt8.ofNat (m / 256 ^ k) :=
      map_inj_left.mp same
    simpa using congrArg UInt8.toNat (each k (by simpa using below))
  have d0 := digit 0 (by decide)
  have d1 := digit 1 (by decide)
  have d2 := digit 2 (by decide)
  have d3 := digit 3 (by decide)
  have d4 := digit 4 (by decide)
  have d5 := digit 5 (by decide)
  have d6 := digit 6 (by decide)
  have d7 := digit 7 (by decide)
  norm_num at d0 d1 d2 d3 d4 d5 d6 d7
  omega

/-- Within a stream no nonce comes twice as long as the counter does not start again. -/
lemma Counted.nodup_iff (counted : Counted s) : s.nonces.Nodup ↔ s.count ≤ 2 ^ 64 := by
  rw [counted.nonces]
  constructor
  · intro unique
    by_contra long
    have again := inj_on_of_nodup_map unique (x := 0) (y := 2 ^ 64)
      (mem_range.mpr (by omega)) (mem_range.mpr (by omega)) (by rw [Nat.mod_self, Nat.zero_mod])
    exact absurd again (by decide)
  · intro short
    refine List.Nodup.map_on (fun i here j there same => ?_) nodup_range
    have low : ∀ k ∈ List.range s.count, k < 2 ^ 64 := fun k mem =>
      (mem_range.mp mem).trans_le short
    rw [Nat.mod_eq_of_lt (low i here), Nat.mod_eq_of_lt (low j there)] at same
    exact be64_inj (low i here) (low j there) (append_cancel_left same)

lemma count_le_iff : s.count ≤ n ↔ s.flushed ≤ n * s.chunkSize := by
  have pos := s.chunkSize_pos
  rw [count, nChunks, Nat.div_le_iff_le_mul_add_pred pos, Nat.mul_comm]
  omega

lemma count_pos_iff : 0 < s.count ↔ 0 < s.flushed := by
  rw [← not_le, ← not_le, count_le_iff, Nat.zero_mul]

lemma Counted.disjoint_iff {t : EncryptingStream} (counted : Counted s) (counted' : Counted t) :
    s.nonces.Disjoint t.nonces ↔ (0 < s.flushed → 0 < t.flushed → s.nonce4 ≠ t.nonce4) := by
  rw [counted.nonces, counted'.nonces]
  constructor
  · intro disjoint some some' same
    have first : ∀ {u : EncryptingStream}, 0 < u.flushed → buildNonce u.nonce4 0 ∈
        (List.range u.count).map fun i => buildNonce u.nonce4 (i % 2 ^ 64) := fun positive =>
      mem_map.mpr ⟨0, mem_range.mpr (count_pos_iff.mpr positive), rfl⟩
    exact disjoint (first some) (same ▸ first some')
  · intro differ nonce here there
    obtain ⟨i, inside, rfl⟩ := mem_map.mp here
    obtain ⟨j, inside', same⟩ := mem_map.mp there
    have halves := append_inj same (by rw [t.length_nonce4, s.length_nonce4])
    refine differ ?_ ?_ halves.1.symm
    · exact count_pos_iff.mp (Nat.zero_lt_of_lt (mem_range.mp inside))
    · exact count_pos_iff.mp (Nat.zero_lt_of_lt (mem_range.mp inside'))

end EncryptingStream

inductive Write where
  | ssec (customerKey : Bytes)
  | encrypted

structure Drawn where
  dek : Bytes
  nonce4 : Bytes
  length_nonce4 : nonce4.length = 4

def Write.key (d : Drawn) : Write → Bytes
  | ssec customerKey => customerKey
  | encrypted => d.dek

def Write.stream (w : Write) (d : Drawn) : EncryptingStream :=
  .withBatchFactor (w.key d) d.nonce4 defaultChunkSize defaultBatchFactor d.length_nonce4 (by decide)

inductive Event where
  | start (w : Write) (d : Drawn)
  | turn (i : ℕ) (headDone : Bool) (source : Source)

variable (streams : List EncryptingStream)

def step : Event → List EncryptingStream
  | .start w d => streams ++ [w.stream d]
  | .turn i headDone source => streams.modify i fun s => s.turn headDone source

def sealedWith : List (Bytes × Bytes) :=
  streams.flatMap fun s => s.nonces.map fun nonce => (s.key, nonce)

lemma counted_step {streams : List EncryptingStream} (e : Event)
    (counted : ∀ s ∈ streams, s.Counted) : ∀ s ∈ step streams e, s.Counted := by
  cases e with
  | start w d =>
    intro s mem
    rcases mem_append.mp mem with old | new
    · exact counted s old
    · rw [mem_singleton.mp new]
      exact EncryptingStream.counted_new _ _
  | turn i headDone source =>
    intro s mem
    obtain ⟨j, here⟩ := mem_iff_getElem?.mp mem
    rw [step, getElem?_modify] at here
    obtain ⟨old, there, rfl⟩ := Option.map_eq_some_iff.mp here
    have was := counted old (mem_of_getElem? there)
    split
    · exact EncryptingStream.counted_turn _ _ was
    · exact was

lemma disjoint_map_iff {s t : EncryptingStream} :
    (s.nonces.map fun nonce => (s.key, nonce)).Disjoint (t.nonces.map fun nonce => (t.key, nonce)) ↔
      (s.key = t.key → s.nonces.Disjoint t.nonces) := by
  constructor
  · intro disjoint same nonce here there
    exact disjoint (mem_map_of_mem here) (mem_map.mpr ⟨nonce, there, by rw [same]⟩)
  · intro disjoint pair here there
    obtain ⟨nonce, mem, rfl⟩ := mem_map.mp here
    obtain ⟨nonce', mem', same⟩ := mem_map.mp there
    obtain ⟨key, rfl⟩ := Prod.mk.inj same
    exact disjoint key.symm mem mem'

/-- **No two chunks are sealed with one key and one nonce, exactly when no counter runs over
and no two streams with one key drew the same bytes.** -/
theorem nonces_unique_iff (events : List Event) : (sealedWith (events.foldl step [])).Nodup ↔
      (∀ s ∈ events.foldl step [], s.flushed ≤ 2 ^ 64 * s.chunkSize) ∧
        (events.foldl step []).Pairwise fun s t =>
          s.key = t.key → 0 < s.flushed → 0 < t.flushed → s.nonce4 ≠ t.nonce4 := by
  have counted : ∀ s ∈ events.foldl step [], s.Counted :=
    (Run.always_of_step (P := fun streams => ∀ s ∈ streams, EncryptingStream.Counted s)
      (fun _ e => counted_step e) (forall_mem_nil _) events).last
  rw [sealedWith, nodup_flatMap]
  refine and_congr (forall₂_congr fun s mem => ?_) ?_
  · rw [nodup_map_iff fun a b same => (Prod.mk.inj same).2, (counted s mem).nodup_iff,
      EncryptingStream.count_le_iff]
  · refine List.Pairwise.iff_of_mem fun {s t} mem mem' => ?_
    refine disjoint_map_iff.trans (forall_congr' fun _ => ?_)
    exact (counted s mem).disjoint_iff (counted t mem')

/-- Two objects of one byte each under one customer key, for which the generator returns
the same four bytes. -/
def drawnTwice : List Event :=
  let d : Drawn := ⟨[], [1, 2, 3, 4], rfl⟩
  [.start (.ssec [7]) d, .turn 0 false .pending, .turn 0 false (.piece [10]), .turn 0 false .ended,
    .start (.ssec [7]) d, .turn 1 false .pending, .turn 1 false (.piece [20]), .turn 1 false .ended]

theorem same_draw_repeats_nonce : sealedWith (drawnTwice.foldl step []) =
      [([7], [1, 2, 3, 4, 0, 0, 0, 0, 0, 0, 0, 0]), ([7], [1, 2, 3, 4, 0, 0, 0, 0, 0, 0, 0, 0])] ∧
      ¬ (sealedWith (drawnTwice.foldl step [])).Nodup := by
  decide

end Arca.Blob.Nonces
