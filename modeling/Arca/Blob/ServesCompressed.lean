import Arca.Blob.Serves

/-!
# Compressed files serve their content

The decorator reads a whole file in one pass and a range by way of the footer: the
number of chunks, the lengths on disk, and then the slab of the chunks it needs.
-/
namespace Arca.Blob
open Chunked Framed List Option Compression

namespace WholeBlob
variable (L : Libraries) (a : CompressionAlgorithm) {w : WholeBlob} {buf : Bytes} (more : Bytes)

lemma checkHeader_append (turn : checkHeader a w buf ≠ .wait) :
    checkHeader a w (buf ++ more) = (checkHeader a w buf).extend more := by
  unfold checkHeader at turn ⊢
  by_cases short : buf.length < headerSize
  · exact absurd (if_pos short) turn
  rw [if_neg short, length_append, if_neg (by omega),
    take_append_of_le_length (by omega), drop_append_of_le_length (by omega)]
  split
  · rfl
  · split <;> rfl

lemma awaitFooter_append (turn : awaitFooter w buf ≠ .wait) :
    awaitFooter w (buf ++ more) = (awaitFooter w buf).extend more := by
  unfold awaitFooter at turn ⊢
  by_cases longer : w.chunkLens.length * 4 + footerCountSize < buf.length
  · rw [if_pos longer, length_append, if_pos (by omega)]
    rfl
  · exact absurd (if_neg longer) turn

lemma decodeChunk_append (turn : decodeChunk L a w buf ≠ .wait) :
    decodeChunk L a w (buf ++ more) = (decodeChunk L a w buf).extend more := by
  unfold decodeChunk at turn ⊢
  by_cases lead : buf.length < chunkLenHeader
  · exact absurd (if_pos lead) turn
  have long : 8 ≤ buf.length := not_lt.mp lead
  by_cases body : buf.length < chunkLenHeader + fromLe32 buf
  · rw [if_neg lead] at turn
    exact absurd (if_pos body) turn
  rw [if_neg lead, length_append, if_neg (by omega), lengths_le32_append more (by omega),
    drop_append_of_le_length (by omega), lengths_le32_append more (by
      rw [length_drop]; omega)]
  dsimp only
  rw [if_neg body, if_neg (by omega), drop_append_of_le_length (by omega),
    take_append_of_le_length (by rw [length_drop]; omega),
    drop_append_of_le_length (by omega)]
  split
  · rfl
  split
  · rfl
  · split <;> rfl

lemma turn_append (turn : (reader L a).turn w buf ≠ .wait) :
    (reader L a).turn w (buf ++ more) = ((reader L a).turn w buf).extend more := by
  dsimp only [reader] at turn ⊢
  split
  · next unchecked =>
      rw [if_pos unchecked] at turn
      exact checkHeader_append a more turn
  next checked =>
    rw [if_neg checked] at turn
    split
    · next complete =>
        rw [if_pos complete] at turn
        exact awaitFooter_append more turn
    · next incomplete =>
        rw [if_neg incomplete] at turn
        exact decodeChunk_append L a more turn

lemma reader_shrinks {out rest : Bytes} {next : WholeBlob}
    (turn : (reader L a).turn w buf = .take out rest next) : rest.length < buf.length := by
  dsimp only [reader, checkHeader, awaitFooter, decodeChunk] at turn
  split at turn
  · split at turn
    · cases turn
    · next long =>
      split at turn
      · cases turn
      · split at turn
        · cases turn
        · cases turn
          have : headerSize = 10 := rfl
          rw [length_drop]
          omega
  split at turn
  · split at turn <;> cases turn
  split at turn
  · cases turn
  split at turn
  · cases turn
  split at turn
  · cases turn
  split at turn
  · cases turn
  split at turn
  · cases turn
  · cases turn
    have : chunkLenHeader = 8 := rfl
    rw [length_drop]
    omega

lemma reader_steady : (reader L a).Steady :=
  .of_extend (reader_shrinks L a) (turn_append L a)

variable (level : Int) {content : Bytes}

lemma turn_frame {i remaining : ℕ} {lens : List ℕ} {p : Bytes} (fits : p.length ≤ defaultChunkSize)
    (some_p : p ≠ []) (rest : Bytes) (expected : p.length ≤ remaining) :
    (reader L a).turn ⟨true, remaining, lens⟩
        ((framing L a level defaultChunkSize).frame i p ++ rest) =
      .take p rest ⟨true, remaining - p.length,
        lens ++ [((framing L a level defaultChunkSize).frame i p).length]⟩ := by
  have lawful := default_lawful L a level
  have pos := length_pos_iff.mpr some_p
  have long := lawful.lead_le_frame (i := i) p rest
  have lengths := lawful.lengths_frame (i := i) fits rest
  have body := lawful.take_body_frame (i := i) p rest
  have behind := lawful.drop_frame (i := i) p rest
  have length := lawful.length_frame (i := i) p
  obtain ⟨plain, compressed⟩ := Prod.mk.inj lengths
  have decoded : L.decompressChunk a _ p.length = .ok p := lawful.decode_body i p fits
  dsimp only [reader]
  rw [if_neg (by simp), if_neg (by omega), decodeChunk]
  dsimp only
  rw [lead_framing] at long body behind length
  rw [plain, compressed, if_neg (by omega), if_neg (not_lt.mpr long), if_neg (not_lt.mpr expected),
    body, decoded]
  dsimp only
  rw [if_neg (not_not.mpr rfl), behind, length]

lemma whole_chunks {i : ℕ} (lens : List ℕ) (l : Bytes) : (reader L a).whole ⟨true, l.length, lens⟩
      ((framing L a level defaultChunkSize).frames i l ++
        writeFooter (lens ++
          ((framing L a level defaultChunkSize).chunks i l).map List.length)) =
      .ok (l, ()) := by
  have lawful := default_lawful L a level
  induction i, l using lawful.chunk_induction generalizing lens with
  | nil i =>
    have waits : (reader L a).turn ⟨true, 0, lens⟩ (writeFooter lens) = .wait := by
      have length : (writeFooter lens).length =
          lens.length * 4 + footerCountSize := by
        rw [writeFooter, length_append, length_flatMap_le32]
        rfl
      dsimp only [reader, awaitFooter]
      rw [if_neg (by simp), if_pos rfl, length, if_neg (lt_irrefl _)]
    rw [Framing.frames_nil, nil_append, Framing.chunks_nil, map_nil, append_nil]
    refine (Reader.whole_wait waits).trans ?_
    dsimp only [reader]
    rw [if_neg (by simp), if_neg (not_not.mpr rfl)]
    rfl
  | chunk i l some_l ih =>
    have some_length := length_pos_iff.mpr some_l
    have some_take : l.take defaultChunkSize ≠ [] := by
      refine length_pos_iff.mp ?_
      rw [length_take]
      exact lt_min (by decide) some_length
    have left : (l.drop defaultChunkSize).length = l.length - (l.take defaultChunkSize).length := by
      rw [length_drop, length_take]
      omega
    rw [lawful.frames_of_ne_nil some_l, lawful.chunks_of_ne_nil some_l, map_cons,
      append_cons, append_assoc]
    refine ((reader_steady L a).whole_take (turn_frame L a level (length_take_le _ _)
      some_take _ (length_take_le' _ _))).trans ?_
    rw [← left]
    refine (congrArg _ (ih _)).trans ?_
    rw [after_ok, size_framing, take_append_drop]

lemma run_file (content : Bytes) : (reader L a).run ⟨false, content.length, []⟩ []
      (L.arriving (Compression.file L a level content)) = .ok (content, ()) := by
  have header : (reader L a).turn ⟨false, content.length, []⟩ (file L a level content) =
      .take [] ((framing L a level defaultChunkSize).frames 0 content ++
        Compression.writeFooter (Compression.chunkLens L a level content))
        ⟨true, content.length, []⟩ := by
    have take : (file L a level content).take headerSize =
        writeHeader a defaultChunkSize := by
      rw [file, append_assoc]
      exact take_left' rfl
    have drop : (file L a level content).drop headerSize =
        (framing L a level defaultChunkSize).frames 0 content ++
          Compression.writeFooter (Compression.chunkLens L a level content) := by
      rw [file, append_assoc]
      exact drop_left' rfl
    have long : ¬(file L a level content).length < headerSize := by
      have : (writeHeader a defaultChunkSize).length = headerSize := rfl
      rw [file, length_append, length_append, this]
      omega
    dsimp only [reader, checkHeader]
    rw [if_pos (by simp), if_neg long, take,
      parseHeader_writeHeader a (by decide) (by decide), drop]
    exact if_neg (not_not.mpr rfl)
  rw [(reader_steady L a).run_eq_whole, nil_append, L.flatten_arriving,
    (reader_steady L a).whole_take header, after_nil]
  exact whole_chunks L a level [] content

end WholeBlob

namespace CompressingBlobStore
variable {L : Libraries} {a : CompressionAlgorithm} {level : Int} {content : Bytes}
  {inner : Option ByteRange → Reading}

def infoOf (L : Libraries) (a : CompressionAlgorithm) (level : Int) (content : Bytes) :
    CompressionInfo :=
  ⟨a, defaultChunkSize, content.length, (file L a level content).length⟩

lemma fetch_middle {before middle : Bytes} (behind : Bytes) (some_middle : middle ≠ [])
    (serves : Serves inner (before ++ (middle ++ behind))) :
    fetch inner before.length (before.length + middle.length - 1) = .ok middle := by
  have pos := length_pos_iff.mpr some_middle
  have within : (⟨before.length, some (before.length + middle.length - 1)⟩ : ByteRange).Within
      (before ++ (middle ++ behind)).length := by
    refine ⟨by simp only [length_append]; omega, fun last given => ?_⟩
    rw [← some.inj given]
    dsimp only
    omega
  have last : (⟨before.length, some (before.length + middle.length - 1)⟩ : ByteRange).lastIn
      (before ++ (middle ++ behind)).length = before.length + middle.length - 1 := by
    simp only [ByteRange.lastIn, map_some, getD_some, length_append]
    omega
  have part : window 0 before.length (before.length + middle.length - 1)
      (before ++ (middle ++ behind)) = middle := by
    rw [← drop_take_eq_window, drop_left, show before.length + middle.length - 1 + 1 -
      before.length = middle.length by omega, take_left]
  unfold fetch
  rw [serves.ranged _ within, ByteRange.of, last, part]
  rfl

/-- What a footer tells, whose count says `told`: the lengths that stand last. -/
lemma readChunkLens_footer (body : Bytes) (skipped : List ℕ) {told : List ℕ} {info : CompressionInfo}
    (small : ∀ n ∈ told, n < 2 ^ 32) (count : told.length = (skipped ++ told).length % 2 ^ 32)
    (serves : Serves inner (body ++ writeFooter (skipped ++ told)))
    (size : info.compressedSize = (body ++ writeFooter (skipped ++ told)).length) :
    readChunkLens inner info = .ok told := by
  have file_eq : body ++ writeFooter (skipped ++ told) =
      (body ++ skipped.flatMap le32) ++ (told.flatMap le32 ++ le32 (skipped ++ told).length) := by
    rw [writeFooter, flatMap_append]
    simp only [append_assoc]
  generalize body ++ skipped.flatMap le32 = before at file_eq
  generalize counted : (skipped ++ told).length = n at file_eq count
  rw [file_eq] at serves size
  have index_length : (told.flatMap le32).length = told.length * 4 := length_flatMap_le32 told
  have countStart : info.compressedSize - footerCountSize =
      (before ++ told.flatMap le32).length := by
    rw [size, ← append_assoc, length_append, length_le32]
    rfl
  have countEnd : info.compressedSize - 1 =
      (before ++ told.flatMap le32).length + (le32 n).length - 1 := by
    rw [size, ← append_assoc, length_append]
  have fetched : fetch inner (info.compressedSize - footerCountSize)
      (info.compressedSize - 1) = .ok (le32 n) := by
    rw [countStart, countEnd]
    refine fetch_middle [] (by simp [le32]) ?_
    rwa [append_nil, append_assoc]
  have number : fromLe32 (le32 n) = told.length := by
    rw [count, ← fromLe32_le32_mod n [], append_nil]
  unfold readChunkLens
  dsimp only
  rw [fetched, ok_bind, if_neg (by simp), number]
  by_cases none_told : told = []
  · rw [none_told]
    rfl
  · have pos := length_pos_iff.mpr none_told
    have index : fetch inner (info.compressedSize - footerCountSize - told.length * 4)
        (info.compressedSize - footerCountSize - 1) = .ok (told.flatMap le32) := by
      rw [countStart, length_append, index_length, Nat.add_sub_cancel, ← index_length]
      exact fetch_middle _ (length_pos_iff.mp (by omega)) serves
    rw [if_pos pos, index, ok_bind, if_neg (by omega), map_fromLe32_flatMap small]
    rfl

lemma chunkLens_small : ∀ n ∈ chunkLens L a level content, n < 2 ^ 32 := by
  intro n mem
  obtain ⟨chunk, chunk_mem, rfl⟩ := mem_map.mp mem
  have lawful := default_lawful L a level
  obtain ⟨i, p, fits, rfl⟩ := lawful.mem_chunks chunk_mem
  have compressed := L.length_compress a level p fits
  rw [lawful.length_frame]
  change 8 + (L.compressChunk a level p).length < 2 ^ 32
  omega

section
variable (L a level content)

lemma length_chunkLens : (chunkLens L a level content).length =
    (content.length + defaultChunkSize - 1) / defaultChunkSize := by
  rw [chunkLens, length_map, (default_lawful L a level).length_chunks]
  rfl

lemma lt_length_chunkLens {e : ℕ} (inside : e < content.length) :
    e / defaultChunkSize < (chunkLens L a level content).length := by
  have pos : 0 < defaultChunkSize := by decide
  rw [length_chunkLens]
  calc e / defaultChunkSize < (e + defaultChunkSize) / defaultChunkSize := by
        rw [Nat.add_div_right e pos]
        exact Nat.lt_succ_self _
    _ ≤ (content.length + defaultChunkSize - 1) / defaultChunkSize :=
        Nat.div_le_div_right (by omega)

lemma inside_of_lt_length {k : ℕ} (some_chunk : k < (chunkLens L a level content).length) :
    k * defaultChunkSize < content.length := by
  have pos : 0 < defaultChunkSize := by decide
  have count := Nat.div_mul_le_self (content.length + defaultChunkSize - 1) defaultChunkSize
  have more : (k + 1) * defaultChunkSize ≤
      (chunkLens L a level content).length * defaultChunkSize :=
    Nat.mul_le_mul_right _ some_chunk
  rw [length_chunkLens, Nat.succ_mul] at more
  omega

lemma readChunkLens_file (serves : Serves inner (file L a level content)) :
    readChunkLens inner (infoOf L a level content) =
      .ok ((chunkLens L a level content).drop
        ((chunkLens L a level content).length -
          (chunkLens L a level content).length % 2 ^ 32)) := by
  generalize hidden : (chunkLens L a level content).length -
    (chunkLens L a level content).length % 2 ^ 32 = skip
  have fewer := Nat.mod_le (chunkLens L a level content).length (2 ^ 32)
  have cut := take_append_drop skip (chunkLens L a level content)
  refine readChunkLens_footer (writeHeader a defaultChunkSize ++
    (framing L a level defaultChunkSize).frames 0 content)
    ((chunkLens L a level content).take skip)
    (fun n mem => chunkLens_small n (mem_of_mem_drop mem)) ?_ ?_ ?_
  · rw [cut, length_drop]
    omega
  · rw [cut]
    exact serves
  · rw [cut]
    rfl

lemma sum_take_chunkLens (k : ℕ) : ((chunkLens L a level content).take k).sum =
    ((framing L a level defaultChunkSize).frames 0
      (content.take (k * defaultChunkSize))).length := by
  rw [chunkLens, ← map_take, (default_lawful L a level).take_chunks,
    Framing.frames, length_flatten, size_framing]

lemma sum_slab_chunkLens {first last : ℕ} (order : first ≤ last)
    (inside : last * defaultChunkSize < content.length) :
    (((chunkLens L a level content).take (last + 1)).drop first).sum =
      ((framing L a level defaultChunkSize).frames first
        ((content.take ((last + 1) * defaultChunkSize)).drop (first * defaultChunkSize))).length := by
  have first_le : first * defaultChunkSize ≤ last * defaultChunkSize := Nat.mul_le_mul_right _ order
  have within : first * (framing L a level defaultChunkSize).size ≤
      (content.take ((last + 1) * defaultChunkSize)).length := by
    rw [size_framing, length_take, Nat.succ_mul]
    omega
  rw [chunkLens, ← map_take, ← map_drop,
    (default_lawful L a level).take_chunks, size_framing,
    (default_lawful L a level).drop_chunks within, Framing.frames, length_flatten,
    size_framing, Nat.zero_add]

variable {L a level content}

lemma fetch_slab {first last : ℕ} (order : first ≤ last)
    (inside : last * defaultChunkSize < content.length)
    (serves : Serves inner (file L a level content)) :
    let diskStart := headerSize +
      ((chunkLens L a level content).take first).sum
    fetch inner diskStart (diskStart +
      (((chunkLens L a level content).take (last + 1)).drop first).sum - 1) =
      .ok ((framing L a level defaultChunkSize).frames first
        ((content.take ((last + 1) * defaultChunkSize)).drop (first * defaultChunkSize))) := by
  have lawful := default_lawful L a level
  have first_le : first * defaultChunkSize ≤ last * defaultChunkSize := Nat.mul_le_mul_right _ order
  have some_slab : (content.take ((last + 1) * defaultChunkSize)).drop (first * defaultChunkSize) ≠
      [] := by
    refine length_pos_iff.mp ?_
    have pos : 0 < defaultChunkSize := by decide
    rw [length_drop, length_take, Nat.succ_mul]
    omega
  have some_frames : (framing L a level defaultChunkSize).frames first
      ((content.take ((last + 1) * defaultChunkSize)).drop (first * defaultChunkSize)) ≠ [] := by
    refine length_pos_iff.mp ?_
    have pos := (framing L a level defaultChunkSize).lead_pos
    rw [lawful.frames_of_ne_nil some_slab, length_append, lawful.length_frame]
    omega
  rw [file, lawful.frames_slab order content, size_framing] at serves
  simp only [append_assoc] at serves
  rw [← append_assoc] at serves
  intro diskStart
  have starts : diskStart = (writeHeader a defaultChunkSize ++
      (framing L a level defaultChunkSize).frames 0
        (content.take (first * defaultChunkSize))).length := by
    rw [length_append, ← sum_take_chunkLens]
    rfl
  rw [starts, sum_slab_chunkLens L a level content order inside]
  exact fetch_middle _ some_frames serves

lemma readRange_level (l l' : Int) (s e i : ℕ) (data : Bytes) :
    (framing L a l defaultChunkSize).readRange s e i data =
      (framing L a l' defaultChunkSize).readRange s e i data := by
  have steps : ∀ n i data, (framing L a l defaultChunkSize).readRangeFor s e n i data =
      (framing L a l' defaultChunkSize).readRangeFor s e n i data := by
    intro n
    induction n with
    | zero => exact fun _ _ => rfl
    | succ n ih =>
      intro i data
      simp only [Framing.readRangeFor, ih]
      rfl
  exact steps _ i data

lemma getCompressedRange_file {r : ByteRange} (within : r.Within content.length)
    (few : (chunkLens L a level content).length < 2 ^ 32)
    (serves : Serves inner (file L a level content)) :
    getCompressedRange L inner (infoOf L a level content) r =
      .ok ⟨.ok (r.of content), r.lastIn content.length + 1 - r.start⟩ := by
  obtain ⟨order, inside⟩ := within.start_le
  obtain ⟨before, after⟩ := around (s := r.start) (e := r.lastIn content.length)
  have touched := Nat.div_le_div_right (c := defaultChunkSize) order
  have last_le := Nat.div_mul_le_self (r.lastIn content.length) defaultChunkSize
  have slab := fetch_slab touched (lt_of_le_of_lt last_le inside) serves
  have read := (default_lawful L a level).readRange_frames r.start
    (r.lastIn content.length) (r.start / defaultChunkSize)
    ((content.take ((r.lastIn content.length / defaultChunkSize + 1) * defaultChunkSize)).drop
      (r.start / defaultChunkSize * defaultChunkSize))
  have exists_last := lt_length_chunkLens L a level content inside
  have last_eq : min (r.lastIn content.length / defaultChunkSize)
      ((chunkLens L a level content).length - 1) =
      r.lastIn content.length / defaultChunkSize := Nat.min_eq_left (by omega)
  rw [readRange_level level 0, size_framing, window_slab before after] at read
  unfold getCompressedRange
  rw [readChunkLens_file L a level content serves, Nat.mod_eq_of_lt few, Nat.sub_self, drop_zero,
    ok_bind]
  dsimp only [infoOf]
  rw [last_eq, if_neg (by omega), slab, ok_bind, read]
  rfl

lemma getCompressedFull_file (serves : Serves inner (file L a level content)) :
    getCompressedFull L inner (infoOf L a level content) =
      .ok ⟨.ok content, content.length⟩ := by
  by_cases empty : content = []
  · rw [empty]
    rfl
  · have some_size : ¬(infoOf L a level content).originalSize = 0 :=
      fun none => empty (length_eq_zero_iff.mp none)
    have stream := WholeBlob.run_file L a level content
    rw [getCompressedFull, if_neg some_size, serves.full, ok_bind]
    simp only [infoOf, Except.bind, stream]
    rfl

/-- **A compressed content is served**, when its chunks can be counted with 32 bits. -/
lemma getCompressed_serves (few : (chunkLens L a level content).length < 2 ^ 32)
    (serves : Serves inner (file L a level content)) :
    Serves (getCompressed L inner (infoOf L a level content)) content :=
  ⟨getCompressedFull_file serves, fun _ within => getCompressedRange_file within few serves⟩

lemma fetch_empties (empties : Empties inner) {start : ℕ} {data : Bytes} (pos : 0 < start)
    (fetched : fetch inner start (start - 1) = .ok data) : data = [] := by
  unfold fetch at fetched
  obtain ⟨⟨stream, length⟩, read, collected⟩ := ok_of_bind fetched
  have delivered : stream = .ok data := ok_of_internalError collected
  rw [delivered] at read
  exact empties _ _ _ _ (Nat.sub_lt pos Nat.one_pos) read

/-- Of more chunks the footer tells too few lengths: the read of a chunk it does not know
fetches a range that ends before it begins. -/
lemma getCompressedRange_untold (many : 2 ^ 32 ≤ (chunkLens L a level content).length)
    (serves : Serves inner (file L a level content)) :
    ∃ k start, 0 < start ∧ k * defaultChunkSize < content.length ∧
      getCompressedRange L inner (infoOf L a level content)
        ⟨k * defaultChunkSize, some (k * defaultChunkSize)⟩ = do
          let data ← fetch inner start (start - 1)
          let plaintext ← internalError "decompress range"
            ((framing L a 0 defaultChunkSize).readRange (k * defaultChunkSize)
              (k * defaultChunkSize) k data)
          return ⟨.ok plaintext, k * defaultChunkSize + 1 - k * defaultChunkSize⟩ := by
  have told := readChunkLens_file L a level content serves
  have few := Nat.mod_lt (chunkLens L a level content).length
    (show 0 < 2 ^ 32 by decide)
  have told_length := length_drop (i := (chunkLens L a level content).length -
    (chunkLens L a level content).length % 2 ^ 32)
    (l := chunkLens L a level content)
  rw [Nat.sub_sub_self (Nat.mod_le _ _)] at told_length
  generalize (chunkLens L a level content).drop _ = lens at told told_length
  -- the first chunk behind those that are told, but not the first of all
  obtain ⟨k, chosen⟩ : ∃ k, k = max lens.length 1 := ⟨_, rfl⟩
  have inside := inside_of_lt_length L a level content (k := k) (by omega)
  have last : (⟨k * defaultChunkSize, some (k * defaultChunkSize)⟩ : ByteRange).lastIn
      content.length = k * defaultChunkSize := by
    dsimp only [ByteRange.lastIn, map_some, getD_some]
    omega
  have first : k * defaultChunkSize / defaultChunkSize = k := Nat.mul_div_cancel _ (by decide)
  have nothing : (lens.take (min k (lens.length - 1) + 1)).drop k = [] := by
    refine drop_eq_nil_of_le ?_
    rw [length_take]
    omega
  refine ⟨k, headerSize + (lens.take k).sum, Nat.add_pos_left (by decide) _, inside, ?_⟩
  unfold getCompressedRange
  rw [told, ok_bind]
  dsimp only [infoOf]
  rw [last, first, if_neg (by omega), nothing, sum_nil, Nat.add_zero]

lemma within_byte {i size : ℕ} (inside : i < size) :
    (⟨i, some i⟩ : ByteRange).Within size := ⟨inside, fun _ given => (some.inj given).le⟩

lemma not_serves_of_many (many : 2 ^ 32 ≤ (chunkLens L a level content).length)
    (serves : Serves inner (file L a level content)) (empties : Empties inner) :
    ¬Serves (getCompressed L inner (infoOf L a level content)) content := by
  intro served
  obtain ⟨k, start, pos, inside, untold⟩ := getCompressedRange_untold many serves
  have one := (within_byte inside).length_of
  have read := served.ranged _ (within_byte inside)
  dsimp only [getCompressed] at read
  rw [untold] at read
  obtain ⟨data, fetched, read⟩ := ok_of_bind read
  obtain ⟨plaintext, decoded, read⟩ := ok_of_bind read
  rw [fetch_empties empties pos fetched] at decoded
  have delivered : plaintext = [] := (Except.ok.inj (ok_of_internalError decoded)).symm
  obtain ⟨same, length⟩ := BlobGetResult.mk.inj (Except.ok.inj read)
  rw [← Except.ok.inj same, delivered, length_nil] at one
  dsimp only at one length
  omega

/-- Over a plain file that read succeeds, with nothing in it. -/
lemma delivers_nothing_of_many (many : 2 ^ 32 ≤ (chunkLens L a level content).length) :
    ∃ i length, i < content.length ∧
      getCompressed L (fun range => .ok (readFile (file L a level content) range))
        (infoOf L a level content) (some ⟨i, some i⟩) = .ok ⟨.ok [], length⟩ := by
  obtain ⟨k, start, pos, inside, untold⟩ := getCompressedRange_untold many (readFile_serves _)
  refine ⟨k * defaultChunkSize, k * defaultChunkSize + 1 - k * defaultChunkSize, inside, ?_⟩
  have fetched : fetch (fun range => .ok (readFile (file L a level content) range))
      start (start - 1) = .ok [] := by
    have none_of_it : (⟨start, some (start - 1)⟩ : ByteRange).lastIn
        (file L a level content).length + 1 - start = 0 :=
      Nat.sub_eq_zero_of_le (lastIn_lt _ (Nat.sub_lt pos Nat.one_pos))
    rw [fetch, ok_bind]
    dsimp only [readFile]
    rw [none_of_it, take_zero]
    rfl
  dsimp only [getCompressed]
  rw [untold, fetched]
  rfl

/-- **A compressed content is served iff the footer can count its chunks.** -/
lemma getCompressed_serves_iff (serves : Serves inner (file L a level content))
    (empties : Empties inner) :
    Serves (getCompressed L inner (infoOf L a level content)) content ↔
      (chunkLens L a level content).length < 2 ^ 32 := by
  constructor
  · intro served
    by_contra many
    exact not_serves_of_many (not_lt.mp many) serves empties served
  · exact fun few => getCompressed_serves few serves

end

end CompressingBlobStore
end Arca.Blob
