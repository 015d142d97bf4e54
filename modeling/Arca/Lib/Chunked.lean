import Arca.Lib.Framed
import Arca.Lib.Text

/-!
# Contents stored in framed chunks

A content is cut into chunks of one size, the last of which may be shorter. Each
chunk is stored as a lead, which says how long the chunk and its body are, and a
body, from which the chunk is got back.
-/
namespace Chunked
open Framed List Nat

def le32 (n : ℕ) : Bytes :=
  [UInt8.ofNat n, UInt8.ofNat (n / 256), UInt8.ofNat (n / 65536), UInt8.ofNat (n / 16777216)]

def fromLe32 : Bytes → ℕ
  | a :: b :: c :: d :: _ => a.toNat + 256 * b.toNat + 65536 * c.toNat + 16777216 * d.toNat
  | _ => 0

@[simp] lemma length_le32 (n : ℕ) : (le32 n).length = 4 := rfl

lemma fromLe32_le32_mod (n : ℕ) (rest : Bytes) : fromLe32 (le32 n ++ rest) = n % 2 ^ 32 := by
  simp only [le32, cons_append, fromLe32, UInt8.toNat_ofNat']
  omega

lemma fromLe32_le32 {n : ℕ} (small : n < 2 ^ 32) (rest : Bytes) :
    fromLe32 (le32 n ++ rest) = n := by
  rw [fromLe32_le32_mod, mod_eq_of_lt small]

lemma fromLe32_lt (b : Bytes) : fromLe32 b < 2 ^ 32 := by
  unfold fromLe32
  split
  next a b c d _ =>
    have small := And.intro (And.intro a.toNat_lt b.toNat_lt) (And.intro c.toNat_lt d.toNat_lt)
    omega
  · decide

lemma le32_fromLe32 {b : Bytes} (long : 4 ≤ b.length) : le32 (fromLe32 b) = b.take 4 := by
  match b, long with
  | a :: b :: c :: d :: _, _ =>
    have small := And.intro (And.intro a.toNat_lt b.toNat_lt) (And.intro c.toNat_lt d.toNat_lt)
    simp only [le32, fromLe32, take_succ_cons, take_zero, cons.injEq, and_true]
    simp only [← UInt8.toNat_inj, UInt8.toNat_ofNat']
    omega

lemma map_fromLe32_flatMap {ns : List ℕ} (small : ∀ n ∈ ns, n < 2 ^ 32) :
    ((List.range ns.length).map fun i => fromLe32 ((ns.flatMap le32).drop (i * 4))) = ns := by
  induction ns with
  | nil => rfl
  | cons n ns ih =>
    have rest : ∀ i, ((n :: ns).flatMap le32).drop ((i + 1) * 4) =
        (ns.flatMap le32).drop (i * 4) := by
      intro i
      rw [succ_mul, add_comm, ← drop_drop]
      rfl
    rw [length_cons, range_succ_eq_map, map_cons, map_map]
    congr 1
    · exact fromLe32_le32 (small n mem_cons_self) _
    · refine Eq.trans (map_congr_left fun i _ => ?_)
        (ih fun m mem => small m (mem_cons_of_mem n mem))
      exact congrArg fromLe32 (rest i)

lemma length_flatMap_le32 (ns : List ℕ) : (ns.flatMap le32).length = ns.length * 4 := by
  simp [length_flatMap]

section
variable {α : Type*} {pos s e : ℕ} {l a b : List α}

/-- What lies in `s ..= e` of a list that begins at `pos`. -/
def window (pos s e : ℕ) (l : List α) : List α := (l.take (e + 1 - pos)).drop (s - pos)

lemma window_append : window pos s e (a ++ b) =
    window pos s e a ++ window (pos + a.length) s e b := by
  rw [window, take_append, drop_append, ← window, window,
    show e + 1 - pos - a.length = e + 1 - (pos + a.length) by omega, length_take]
  by_cases whole : a.length ≤ e + 1 - pos
  · rw [min_eq_right whole, show s - pos - a.length = s - (pos + a.length) by omega]
    rfl
  · rw [show e + 1 - (pos + a.length) = 0 by omega, window,
      show e + 1 - (pos + a.length) = 0 by omega, take_zero, drop_nil, drop_nil]

lemma window_of_before (before : pos + l.length ≤ s) : window pos s e l = [] := by
  refine drop_eq_nil_of_le ?_
  rw [length_take]
  omega

lemma window_of_after (after : e < pos) : window pos s e l = [] := by
  rw [window, show e + 1 - pos = 0 by omega, take_zero, drop_nil]

lemma length_window_zero (order : s ≤ e) (inside : s < l.length) :
    (window 0 s e l).length = min e (l.length - 1) - s + 1 := by
  rw [window, length_drop, length_take]
  omega

lemma window_zero_of_le (all : l.length ≤ e + 1) : window 0 0 e l = l := by
  rw [window, Nat.sub_zero, Nat.sub_zero, take_of_length_le all, drop_zero]

lemma window_slab {from' to' : ℕ} (before : from' ≤ s) (after : e < to') :
    window from' s e ((l.take to').drop from') = window 0 s e l := by
  rw [window, window, ← drop_take, take_take, drop_drop, Nat.sub_zero,
    Nat.sub_zero, Nat.min_eq_left (by omega), Nat.add_sub_cancel' before]

lemma window_min : window 0 s (min e (l.length - 1)) l = window 0 s e l := by
  simp only [window]
  by_cases within : e ≤ l.length - 1
  · rw [min_eq_left within]
  · rw [min_eq_right (by omega), take_of_length_le (by omega),
      take_of_length_le (by omega)]

end

/-- How one chunk is stored, by its number and its bytes, and read again. -/
structure Framing where
  size : ℕ
  lead : ℕ
  leading : ℕ → Bytes → Bytes
  body : ℕ → Bytes → Bytes
  lengths : Bytes → ℕ × ℕ
  decode : ℕ → ℕ → Bytes → Except String Bytes
  shortLead : String
  shortBody : String
  lead_pos : 0 < lead
  lengths_append : ∀ buf more, lead ≤ buf.length → lengths (buf ++ more) = lengths buf

namespace Framing

structure Lawful (F : Framing) : Prop where
  size_pos : 0 < F.size
  length_leading : ∀ i p, (F.leading i p).length = F.lead
  lengths_leading : ∀ i p, p.length ≤ F.size →
    F.lengths (F.leading i p) = (p.length, (F.body i p).length)
  decode_body : ∀ i p, p.length ≤ F.size → F.decode i p.length (F.body i p) = .ok p

variable (F : Framing)

def frame (i : ℕ) (p : Bytes) : Bytes := F.leading i p ++ F.body i p

def chunksFor : ℕ → ℕ → Bytes → List Bytes
  | 0, _, _ => []
  | n + 1, i, l =>
    if l = [] then [] else F.frame i (l.take F.size) :: chunksFor n (i + 1) (l.drop F.size)

def chunks (i : ℕ) (l : Bytes) : List Bytes := F.chunksFor l.length i l

def frames (i : ℕ) (l : Bytes) : Bytes := (F.chunks i l).flatten

@[simp] lemma chunks_nil (i : ℕ) : F.chunks i [] = [] := rfl

@[simp] lemma frames_nil (i : ℕ) : F.frames i [] = [] := rfl

namespace Lawful
variable {F} (lawful : F.Lawful) {i : ℕ}
include lawful

variable {n k first : ℕ} {l a : Bytes}

lemma chunksFor_eq {m : ℕ} (hn : l.length ≤ n) (hm : l.length ≤ m) :
    F.chunksFor n i l = F.chunksFor m i l := by
  have pos := lawful.size_pos
  induction n generalizing m i l with
  | zero =>
    rw [length_eq_zero_iff.mp (le_zero.mp hn)]
    cases m <;> rfl
  | succ n ih =>
    cases m with
    | zero =>
      rw [length_eq_zero_iff.mp (le_zero.mp hm)]
      rfl
    | succ m =>
      simp only [chunksFor]
      split
      · rfl
      · rw [ih (m := m) (by rw [length_drop]; omega) (by rw [length_drop]; omega)]

lemma chunks_of_ne_nil (h : l ≠ []) :
    F.chunks i l = F.frame i (l.take F.size) :: F.chunks (i + 1) (l.drop F.size) := by
  have pos := lawful.size_pos
  obtain ⟨n, hn⟩ := exists_eq_add_one_of_ne_zero (length_pos_iff.mpr h).ne'
  rw [chunks, hn, chunksFor, if_neg h, chunks]
  congr 1
  exact lawful.chunksFor_eq (by rw [length_drop]; omega) le_rfl

lemma frames_of_ne_nil (h : l ≠ []) :
    F.frames i l = F.frame i (l.take F.size) ++ F.frames (i + 1) (l.drop F.size) := by
  rw [frames, lawful.chunks_of_ne_nil h, flatten_cons, frames]

lemma chunk_induction {P : ℕ → Bytes → Prop} (nil : ∀ i, P i [])
    (chunk : ∀ i l, l ≠ [] → P (i + 1) (l.drop F.size) → P i l) (i : ℕ) (l : Bytes) : P i l := by
  have pos := lawful.size_pos
  induction length : l.length using Nat.strong_induction_on generalizing i l with
  | _ n ih =>
    by_cases h : l = []
    · rw [h]
      exact nil i
    · have some_l := length_pos_iff.mpr h
      exact chunk i l h (ih _ (by rw [length_drop]; omega) _ _ rfl)

lemma mem_chunks {chunk : Bytes} (mem : chunk ∈ F.chunks i l) :
    ∃ j p, p.length ≤ F.size ∧ chunk = F.frame j p := by
  induction i, l using lawful.chunk_induction with
  | nil i => cases mem
  | chunk i l some_l ih =>
    rw [lawful.chunks_of_ne_nil some_l] at mem
    rcases mem_cons.mp mem with rfl | later
    · exact ⟨i, l.take F.size, length_take_le _ _, rfl⟩
    · exact ih later

lemma length_chunks (l : Bytes) : (F.chunks i l).length = (l.length + F.size - 1) / F.size := by
  have pos := lawful.size_pos
  induction i, l using lawful.chunk_induction with
  | nil i =>
    rw [chunks_nil, length_nil, div_eq_of_lt (by rw [length_nil]; omega)]
  | chunk i l some_l ih =>
    have some_length := length_pos_iff.mpr some_l
    rw [lawful.chunks_of_ne_nil some_l, length_cons, ih, length_drop,
      div_eq_sub_div pos (show F.size ≤ l.length + F.size - 1 by omega)]
    by_cases whole : l.length ≤ F.size
    · rw [div_eq_of_lt (by omega), div_eq_of_lt (by omega)]
    · rw [show l.length - F.size + F.size - 1 = l.length + F.size - 1 - F.size by omega]

lemma chunks_split (k : ℕ) (l : Bytes) :
    F.chunks i l = F.chunks i (l.take (k * F.size)) ++ F.chunks (i + k) (l.drop (k * F.size)) := by
  have pos := lawful.size_pos
  induction k generalizing i l with
  | zero => simp
  | succ k ih =>
    by_cases h : l = []
    · rw [h, take_nil, drop_nil, chunks_nil, chunks_nil]
      rfl
    · have some_l := length_pos_iff.mpr h
      have some_take : l.take ((k + 1) * F.size) ≠ [] := by
        refine length_pos_iff.mp ?_
        rw [length_take, succ_mul]
        omega
      rw [lawful.chunks_of_ne_nil h, lawful.chunks_of_ne_nil some_take, take_take,
        min_eq_left (by rw [succ_mul]; omega), cons_append, ih, drop_take,
        drop_drop, Nat.succ_mul, Nat.add_sub_cancel, Nat.add_comm F.size,
        add_right_comm i]
      rfl

lemma frames_split (k : ℕ) (l : Bytes) :
    F.frames i l = F.frames i (l.take (k * F.size)) ++ F.frames (i + k) (l.drop (k * F.size)) := by
  rw [frames, lawful.chunks_split k l, flatten_append, frames, frames]

lemma length_chunks_take (within : k * F.size ≤ l.length) :
    (F.chunks i (l.take (k * F.size))).length = k := by
  have pos := lawful.size_pos
  rw [lawful.length_chunks, length_take, Nat.min_eq_left within, Nat.add_sub_assoc pos,
    mul_comm, mul_add_div pos, div_eq_of_lt (by omega)]
  rfl

lemma take_chunks (k : ℕ) (l : Bytes) :
    (F.chunks i l).take k = F.chunks i (l.take (k * F.size)) := by
  have pos := lawful.size_pos
  rw [lawful.chunks_split k l]
  by_cases whole : l.length ≤ k * F.size
  · rw [take_of_length_le whole, drop_eq_nil_of_le whole, chunks_nil, append_nil]
    refine take_of_length_le ?_
    rw [lawful.length_chunks]
    exact Nat.lt_succ_iff.mp (Nat.div_lt_of_lt_mul (by
      rw [mul_succ, mul_comm]; omega))
  · exact take_left' (lawful.length_chunks_take (not_le.mp whole).le)

lemma drop_chunks (within : k * F.size ≤ l.length) :
    (F.chunks i l).drop k = F.chunks (i + k) (l.drop (k * F.size)) := by
  rw [lawful.chunks_split k l]
  exact drop_left' (lawful.length_chunks_take within)

lemma frames_slab {last : ℕ} (order : first ≤ last) (l : Bytes) :
    F.frames 0 l = F.frames 0 (l.take (first * F.size)) ++
      (F.frames first ((l.take ((last + 1) * F.size)).drop (first * F.size)) ++
        F.frames (last + 1) (l.drop ((last + 1) * F.size))) := by
  have before : first * F.size ≤ (last + 1) * F.size := mul_le_mul_right _ (by omega)
  rw [lawful.frames_split (last + 1) l, lawful.frames_split first (l.take _), take_take,
    min_eq_left before, zero_add, zero_add, append_assoc]

lemma frames_append (b : Bytes) (length : a.length = k * F.size) :
    F.frames i (a ++ b) = F.frames i a ++ F.frames (i + k) b := by
  rw [lawful.frames_split k, take_left' length, drop_left' length]

lemma length_frame (p : Bytes) : (F.frame i p).length = F.lead + (F.body i p).length := by
  rw [frame, length_append, lawful.length_leading]

lemma length_frames (length : a.length = k * F.size)
    (uniform : ∀ i p, p.length = F.size → (F.frame i p).length = n) :
    (F.frames i a).length = k * n := by
  have pos := lawful.size_pos
  induction k generalizing i a with
  | zero =>
    rw [zero_mul, length_eq_zero_iff] at length
    rw [length, frames_nil, zero_mul]
    rfl
  | succ k ih =>
    rw [succ_mul] at length
    have some_a : a ≠ [] := length_pos_iff.mp (by omega)
    have left : (a.drop F.size).length = k * F.size := by rw [length_drop]; omega
    rw [lawful.frames_of_ne_nil some_a, length_append, ih left,
      uniform i _ (by rw [length_take]; omega), succ_mul, add_comm]

/-- Behind a header, full frames of one length put the slab of the chunks
`first ..= last` where arithmetic finds it; the last chunk of all ends with the file. -/
lemma slab_of_uniform {c last : ℕ} (header : Bytes) (size : F.size = c)
    (uniform : ∀ i p, p.length = c → (F.frame i p).length = n)
    (order : first ≤ last) (inside : last * c < l.length) :
    let diskStart := header.length + first * n
    let diskEnd := if last < (l.length + c - 1) / c - 1
      then header.length + (last + 1) * n else (header ++ F.frames 0 l).length
    diskStart ≤ diskEnd ∧ diskEnd ≤ (header ++ F.frames 0 l).length ∧
    ((header ++ F.frames 0 l).drop diskStart).take (diskEnd - diskStart) =
      F.frames first ((l.take ((last + 1) * c)).drop (first * c)) := by
  subst size
  intro diskStart diskEnd
  have pos := lawful.size_pos
  have first_le : first * F.size ≤ last * F.size := mul_le_mul_right _ order
  rw [lawful.frames_slab order l, ← append_assoc header]
  have start_eq : (header ++ F.frames 0 (l.take (first * F.size))).length = diskStart := by
    rw [length_append, lawful.length_frames (length_take_of_le (by omega)) uniform]
  have end_eq : diskEnd = diskStart +
      (F.frames first ((l.take ((last + 1) * F.size)).drop (first * F.size))).length := by
    by_cases more : last < (l.length + F.size - 1) / F.size - 1
    · -- all chunks up to `last` are full
      have full : (last + 1) * F.size ≤ l.length := by
        have count := div_mul_le_self (l.length + F.size - 1) F.size
        have two : (last + 2) * F.size ≤ (l.length + F.size - 1) / F.size * F.size :=
          mul_le_mul_right _ (by omega)
        rw [add_mul] at two ⊢
        omega
      have touched : ((l.take ((last + 1) * F.size)).drop (first * F.size)).length =
          (last + 1 - first) * F.size := by
        rw [length_drop, length_take_of_le full, Nat.sub_mul]
      have joined : first * n + (last + 1 - first) * n = (last + 1) * n := by
        rw [← Nat.add_mul, Nat.add_sub_cancel' (by omega)]
      rw [lawful.length_frames touched uniform]
      dsimp only [diskEnd, diskStart]
      rw [if_pos more]
      omega
    · have reaches : l.length ≤ (last + 1) * F.size := by
        have : l.length + F.size - 1 < (last + 2) * F.size :=
          lt_mul_of_div_lt (by omega) pos
        rw [add_mul] at this ⊢
        omega
      dsimp only [diskEnd]
      rw [if_neg more, lawful.frames_slab order l, drop_eq_nil_of_le reaches, frames_nil,
        append_nil, ← append_assoc, length_append, start_eq]
  refine ⟨by omega, ?_, ?_⟩
  · rw [end_eq, ← start_eq]
    simp only [length_append]
    omega
  · rw [end_eq, Nat.add_sub_cancel_left, ← start_eq, drop_left, take_left]

lemma drop_frame (p rest : Bytes) :
    (F.frame i p ++ rest).drop (F.lead + (F.body i p).length) = rest := by
  rw [← lawful.length_frame p, drop_left]

lemma lead_le_frame (p rest : Bytes) :
    F.lead + (F.body i p).length ≤ (F.frame i p ++ rest).length := by
  rw [length_append, lawful.length_frame]
  omega

lemma take_body_frame (p rest : Bytes) :
    ((F.frame i p ++ rest).drop F.lead).take (F.body i p).length = F.body i p := by
  rw [frame, append_assoc, drop_append_of_le_length (lawful.length_leading i p).ge,
    drop_eq_nil_of_le (lawful.length_leading i p).le, nil_append,
    take_append_of_le_length le_rfl, take_length]

lemma lengths_frame {p : Bytes} (fits : p.length ≤ F.size) (rest : Bytes) :
    F.lengths (F.frame i p ++ rest) = (p.length, (F.body i p).length) := by
  rw [frame, append_assoc, F.lengths_append _ _ (lawful.length_leading i p).ge]
  exact lawful.lengths_leading i p fits

end Lawful

/-- The frames written of a content that arrives in pieces, each with the flushes there is room
for. -/
def written (batch : ℕ) : ℕ → Bytes → List (Bytes × ℕ) → Bytes
  | i, buf, [] => F.frames i buf
  | i, buf, (piece, room) :: pieces =>
    let buf' := buf ++ piece
    let chunks := min room (buf'.length / (batch * F.size)) * batch
    F.frames i (buf'.take (chunks * F.size)) ++
      written batch (i + chunks) (buf'.drop (chunks * F.size)) pieces

/-- **What is written does not depend on how the content arrived.** -/
lemma Lawful.written_eq {F : Framing} (lawful : F.Lawful) (batch i : ℕ) (buf : Bytes)
    (pieces : List (Bytes × ℕ)) :
    F.written batch i buf pieces = F.frames i (buf ++ (pieces.map Prod.fst).flatten) := by
  induction pieces generalizing i buf with
  | nil => simp [written]
  | cons piece pieces ih =>
    obtain ⟨piece, room⟩ := piece
    dsimp only [written]
    generalize held : buf ++ piece = buf'
    have fits : min room (buf'.length / (batch * F.size)) * batch * F.size ≤ buf'.length := by
      calc min room (buf'.length / (batch * F.size)) * batch * F.size
          ≤ buf'.length / (batch * F.size) * batch * F.size :=
            mul_le_mul_right _ (mul_le_mul_right _ (min_le_right _ _))
        _ = buf'.length / (batch * F.size) * (batch * F.size) := mul_assoc ..
        _ ≤ buf'.length := div_mul_le_self ..
    rw [ih, ← lawful.frames_append _ (length_take_of_le fits), ← append_assoc,
      take_append_drop, ← held, map_cons, flatten_cons, append_assoc]

def reader : Reader ℕ UInt8 UInt8 String Unit where
  turn i buf :=
    if buf.length < F.lead then .wait
    else if buf.length < F.lead + (F.lengths buf).2 then .wait
    else match F.decode i (F.lengths buf).1 ((buf.drop F.lead).take (F.lengths buf).2) with
      | .ok p => .take p (buf.drop (F.lead + (F.lengths buf).2)) (i + 1)
      | .error message => .stop (.error message)
  atEnd _ buf := if buf = [] then .ok () else .error F.shortBody

variable {buf out rest : Bytes}

lemma turn_append {i : ℕ} (more : Bytes) (turn : F.reader.turn i buf ≠ .wait) :
    F.reader.turn i (buf ++ more) = (F.reader.turn i buf).extend more := by
  dsimp only [reader] at turn ⊢
  by_cases lead : buf.length < F.lead
  · exact absurd (if_pos lead) turn
  by_cases body : buf.length < F.lead + (F.lengths buf).2
  · rw [if_neg lead, if_pos body] at turn
    exact absurd rfl turn
  rw [if_neg lead, if_neg body, F.lengths_append buf more (not_lt.mp lead), length_append,
    if_neg (by omega), if_neg (by omega), drop_append_of_le_length (by omega),
    drop_append_of_le_length (by omega), take_append_of_le_length (by
      rw [length_drop]; omega)]
  cases F.decode i (F.lengths buf).1 ((buf.drop F.lead).take (F.lengths buf).2) <;> rfl

lemma frame_of_turn {i next : ℕ} (turn : F.reader.turn i buf = .take out rest next) :
    F.lead + (F.lengths buf).2 ≤ buf.length ∧ rest = buf.drop (F.lead + (F.lengths buf).2) ∧
    next = i + 1 ∧
    F.decode i (F.lengths buf).1 ((buf.drop F.lead).take (F.lengths buf).2) = .ok out := by
  dsimp only [reader] at turn
  split at turn
  · cases turn
  split at turn
  · cases turn
  next whole =>
  split at turn
  next decoded =>
    cases turn
    exact ⟨not_lt.mp whole, rfl, rfl, decoded⟩
  · cases turn

lemma reader_shrinks {i next : ℕ}
    (turn : F.reader.turn i buf = .take out rest next) : rest.length < buf.length := by
  obtain ⟨whole, rfl, -, -⟩ := F.frame_of_turn turn
  have pos := F.lead_pos
  rw [length_drop]
  omega

lemma reader_steady : F.reader.Steady := .of_extend F.reader_shrinks F.turn_append

namespace Lawful
variable {F} (lawful : F.Lawful)
include lawful

lemma turn_frame {i : ℕ} {p : Bytes} (fits : p.length ≤ F.size) (rest : Bytes) :
    F.reader.turn i (F.frame i p ++ rest) = .take p rest (i + 1) := by
  have long := lawful.lead_le_frame (i := i) p rest
  dsimp only [reader]
  rw [lawful.lengths_frame fits rest, if_neg (by omega), if_neg (by omega),
    lawful.take_body_frame p rest, lawful.decode_body i p fits, lawful.drop_frame p rest]

lemma length_le_frames (grows : ∀ i p, p.length ≤ (F.frame i p).length) (i : ℕ) (l : Bytes) :
    l.length ≤ (F.frames i l).length := by
  induction i, l using lawful.chunk_induction with
  | nil i => exact zero_le _
  | chunk i l some_l ih =>
    have first := grows i (l.take F.size)
    rw [lawful.frames_of_ne_nil some_l, length_append]
    rw [length_take, length_drop] at *
    omega

/-- **The reader gives back what was framed**, however the frames reach it. -/
lemma run_frames {i : ℕ} {l : Bytes} {pieces : List Bytes}
    (arrived : pieces.flatten = F.frames i l) : F.reader.run i [] pieces = .ok (l, ()) := by
  rw [F.reader_steady.run_eq_whole, nil_append, arrived]
  clear arrived
  induction i, l using lawful.chunk_induction with
  | nil i =>
    have waits : F.reader.turn i [] = .wait := if_pos F.lead_pos
    rw [frames_nil, Reader.whole_wait waits]
    rfl
  | chunk i l some_l ih =>
    rw [lawful.frames_of_ne_nil some_l, F.reader_steady.whole_take
      (lawful.turn_frame (length_take_le _ _) _), ih, after_ok, take_append_drop]

end Lawful

/-- One chunk's share of the range `s ..= e`; `start` is where the chunk begins. -/
def share (s e start stop : ℕ) (decoded : Bytes) : Bytes :=
  let from' := if s > start then s - start else 0
  let to' := if e + 1 < stop then e + 1 - start else decoded.length
  (decoded.take to').drop from'

def readRangeFor (s e : ℕ) : ℕ → ℕ → Bytes → Except String Bytes
  | 0, _, _ => .ok []
  | n + 1, i, data =>
    if data = [] then .ok []
    else if data.length < F.lead then .error F.shortLead
    else if data.length < F.lead + (F.lengths data).2 then .error F.shortBody
    else
      let start := i * F.size
      let stop := start + (F.lengths data).1
      let rest := data.drop (F.lead + (F.lengths data).2)
      if stop ≤ s ∨ e < start then readRangeFor s e n (i + 1) rest
      else do
        let decoded ← F.decode i (F.lengths data).1 ((data.drop F.lead).take (F.lengths data).2)
        let more ← readRangeFor s e n (i + 1) rest
        return share s e start stop decoded ++ more

/-- What lies in `s ..= e`, of frames the first of which has the number `i`. -/
def readRange (s e i : ℕ) (data : Bytes) : Except String Bytes :=
  F.readRangeFor s e data.length i data

lemma share_eq_window {s e start : ℕ} {p : Bytes} :
    share s e start (start + p.length) p = window start s e p := by
  dsimp only [share, window]
  congr 1
  · split <;> omega
  · split
    · rfl
    · rw [take_length, take_of_length_le (by omega)]

lemma readRangeFor_empty {s e n i : ℕ} {data : Bytes} (empty : e < s)
    (read : F.readRangeFor s e n i data = .ok out) : out = [] := by
  induction n generalizing i data out with
  | zero => cases read; rfl
  | succ n ih =>
    simp only [readRangeFor] at read
    split at read
    · cases read; rfl
    split at read
    · cases read
    split at read
    · cases read
    split at read
    · exact ih read
    · next touched =>
        obtain ⟨decoded, more, rest, rfl⟩ : ∃ decoded more, F.readRangeFor s e n (i + 1)
            (data.drop (F.lead + (F.lengths data).2)) = .ok more ∧
            share s e (i * F.size) (i * F.size + (F.lengths data).1) decoded ++ more = out := by
          cases h : F.decode i (F.lengths data).1 ((data.drop F.lead).take (F.lengths data).2) with
          | error => rw [h] at read; cases read
          | ok decoded =>
            rw [h] at read
            cases h' : F.readRangeFor s e n (i + 1)
              (data.drop (F.lead + (F.lengths data).2)) with
            | error => simp only [h'] at read; cases read
            | ok more => simp only [h'] at read; cases read; exact ⟨decoded, more, rfl, rfl⟩
        rw [ih rest, append_nil, share]
        refine drop_eq_nil_of_le ?_
        rw [length_take]
        split <;> split <;> omega

namespace Lawful
variable {F} (lawful : F.Lawful)
include lawful

lemma readRangeFor_frame {s e n i : ℕ} {p : Bytes} (fits : p.length ≤ F.size) (rest : Bytes) :
    F.readRangeFor s e (n + 1) i (F.frame i p ++ rest) =
      (F.readRangeFor s e n (i + 1) rest).map (window (i * F.size) s e p ++ ·) := by
  have long := lawful.lead_le_frame (i := i) p rest
  have pos := F.lead_pos
  have some_data : F.frame i p ++ rest ≠ [] := length_pos_iff.mp (by omega)
  simp only [readRangeFor]
  rw [lawful.lengths_frame fits rest, if_neg some_data, if_neg (by omega), if_neg (by omega),
    lawful.drop_frame p rest]
  split
  · next apart =>
      have none_of_it : window (i * F.size) s e p = [] := by
        rcases apart with before | after
        · exact window_of_before before
        · exact window_of_after after
      rw [none_of_it]
      cases F.readRangeFor s e n (i + 1) rest <;> rfl
  · rw [lawful.take_body_frame p rest, lawful.decode_body i p fits]
    change (do
      let more ← F.readRangeFor s e n (i + 1) rest
      return share s e (i * F.size) (i * F.size + p.length) p ++ more) = _
    rw [share_eq_window]
    cases F.readRangeFor s e n (i + 1) rest <;> rfl

/-- **A ranged read of frames is the window of what was framed.** -/
lemma readRange_frames (s e i : ℕ) (l : Bytes) :
    F.readRange s e i (F.frames i l) = .ok (window (i * F.size) s e l) := by
  have enough : ∀ n, (F.frames i l).length ≤ n →
      F.readRangeFor s e n i (F.frames i l) = .ok (window (i * F.size) s e l) := by
    induction i, l using lawful.chunk_induction with
    | nil i =>
      intro n _
      rw [frames_nil, window, take_nil, drop_nil]
      cases n <;> rfl
    | chunk i l some_l ih =>
      intro n long
      have fits : (l.take F.size).length ≤ F.size := length_take_le _ _
      rw [lawful.frames_of_ne_nil some_l] at long ⊢
      have pos := F.lead_pos
      have frame := lawful.lead_le_frame (i := i) (l.take F.size) []
      rw [append_nil] at frame
      rw [length_append] at long
      obtain ⟨n, rfl⟩ := exists_eq_add_one_of_ne_zero (show n ≠ 0 by omega)
      rw [lawful.readRangeFor_frame fits, ih n (by omega)]
      change Except.ok (_ ++ _) = _
      by_cases whole : l.length ≤ F.size
      · rw [take_of_length_le whole, drop_eq_nil_of_le whole, window, window,
          take_nil, drop_nil, append_nil]
      · have length : (l.take F.size).length = F.size := length_take_of_le (by omega)
        conv_rhs => rw [← take_append_drop F.size l, window_append, length]
        rw [succ_mul]
  exact enough _ le_rfl

end Lawful

/-- A framing of the same shape that decodes what the other does, or fails. -/
structure Under (F G : Framing) : Prop where
  size : F.size = G.size
  lead : F.lead = G.lead
  lengths : F.lengths = G.lengths
  decode : ∀ {i n body p}, F.decode i n body = .ok p → G.decode i n body = .ok p

namespace Under
variable {F G : Framing} (under : F.Under G)
include under

lemma readRangeFor {s e n i : ℕ} {data out : Bytes}
    (read : F.readRangeFor s e n i data = .ok out) : G.readRangeFor s e n i data = .ok out := by
  induction n generalizing i data out with
  | zero => exact read
  | succ n ih =>
    simp only [Framing.readRangeFor, ← under.size, ← under.lead, ← under.lengths] at read ⊢
    split at read
    · next empty => rw [if_pos empty, ← read]
    next some_data =>
    rw [if_neg some_data]
    split at read
    · cases read
    next lead =>
    rw [if_neg lead]
    split at read
    · cases read
    next body =>
    rw [if_neg body]
    split at read
    · next apart =>
        rw [if_pos apart]
        exact ih read
    · next touched =>
        rw [if_neg touched]
        cases decoded : F.decode i (F.lengths data).1
            ((data.drop F.lead).take (F.lengths data).2) with
        | error message => rw [decoded] at read; cases read
        | ok p =>
          rw [decoded] at read
          rw [under.decode decoded]
          cases rest : F.readRangeFor s e n (i + 1)
              (data.drop (F.lead + (F.lengths data).2)) with
          | error message => simp only [rest] at read; cases read
          | ok more =>
            simp only [rest] at read
            simp only [ih rest]
            exact read

lemma turn (i : ℕ) (buf : Bytes) : (∃ message, F.reader.turn i buf = .stop (.error message)) ∨
      F.reader.turn i buf = G.reader.turn i buf := by
  dsimp only [reader]
  rw [← under.lead, ← under.lengths]
  by_cases lead : buf.length < F.lead
  · exact .inr (by rw [if_pos lead, if_pos lead])
  by_cases body : buf.length < F.lead + (F.lengths buf).2
  · exact .inr (by rw [if_neg lead, if_neg lead, if_pos body, if_pos body])
  rw [if_neg lead, if_neg lead, if_neg body, if_neg body]
  cases decoded : F.decode i (F.lengths buf).1 ((buf.drop F.lead).take (F.lengths buf).2) with
  | error message => exact .inl ⟨message, rfl⟩
  | ok p => exact .inr (by rw [under.decode decoded])

lemma whole {i : ℕ} {data out : Bytes} (read : F.reader.whole i data = .ok (out, ())) :
    G.reader.whole i data = .ok (out, ()) := by
  induction size : data.length using Nat.strong_induction_on generalizing i data out with
  | _ size ih =>
    rcases under.turn i data with ⟨message, stopped⟩ | same
    · rw [Reader.whole_stop stopped] at read
      cases read
    cases turn : F.reader.turn i data with
    | wait =>
      rw [Reader.whole_wait turn] at read
      rw [Reader.whole_wait (same ▸ turn)]
      dsimp only [reader] at read ⊢
      split at read
      · next empty => rw [if_pos empty, ← read]
      · cases read
    | stop result =>
      rw [Reader.whole_stop turn] at read
      rw [Reader.whole_stop (same ▸ turn), ← read]
    | take p rest next =>
      have shorter := F.reader_shrinks turn
      rw [F.reader_steady.whole_take turn] at read
      obtain ⟨more, rest_read, rfl⟩ := after_eq_ok_iff.mp read
      rw [G.reader_steady.whole_take (same ▸ turn), ih _ (size ▸ shorter) rest_read rfl]
      rfl

end Under

/-- Decodes as `F`, and where that fails as `G`, the framing that wrote. -/
def orElse (F G : Framing) : Framing :=
  { G with
    decode i n body := match F.decode i n body with
      | .ok p => .ok p
      | .error _ => G.decode i n body }

@[simp] lemma frames_orElse (F G : Framing) (i : ℕ) (l : Bytes) :
    (F.orElse G).frames i l = G.frames i l := by
  have same : ∀ n i l, (F.orElse G).chunksFor n i l = G.chunksFor n i l := by
    intro n
    induction n with
    | zero => exact fun _ _ => rfl
    | succ n ih =>
      intro i l
      simp only [chunksFor, ih]
      rfl
  exact congrArg List.flatten (same _ i l)

/-- `F` reads frames of `G`, and what it decodes of them is what `G` framed. -/
structure Agrees (F G : Framing) : Prop where
  size : F.size = G.size
  lead : F.lead = G.lead
  lengths : F.lengths = G.lengths
  decode : ∀ {i p got}, F.decode i p.length (G.body i p) = .ok got → got = p

namespace Agrees
variable {F G : Framing} (agrees : F.Agrees G)
include agrees

lemma under : F.Under (F.orElse G) where
  size := agrees.size
  lead := agrees.lead
  lengths := agrees.lengths
  decode := by
    intro i n body p decoded
    simp only [orElse, decoded]

lemma lawful (lawful : G.Lawful) : (F.orElse G).Lawful where
  size_pos := lawful.size_pos
  length_leading := lawful.length_leading
  lengths_leading := lawful.lengths_leading
  decode_body := by
    intro i p fits
    dsimp only [orElse]
    cases decoded : F.decode i p.length (G.body i p) with
    | ok got => rw [agrees.decode decoded]
    | error message => exact lawful.decode_body i p fits

lemma run_frames (written : G.Lawful) {i : ℕ} {l out : Bytes} {pieces : List Bytes}
    (arrived : pieces.flatten = G.frames i l) (read : F.reader.run i [] pieces = .ok (out, ())) :
    out = l := by
  have all := (agrees.lawful written).run_frames (arrived.trans (frames_orElse F G i l).symm)
  rw [Framing.reader_steady _ |>.run_eq_whole, nil_append] at read all
  exact (Prod.mk.inj (Except.ok.inj ((agrees.under.whole read).symm.trans all))).1

lemma readRange_frames (written : G.Lawful) {s e i : ℕ} {l out : Bytes}
    (read : F.readRange s e i (G.frames i l) = .ok out) : out = window (i * G.size) s e l := by
  have all := (agrees.lawful written).readRange_frames s e i l
  rw [frames_orElse] at all
  exact Except.ok.inj ((agrees.under.readRangeFor read).symm.trans all)

end Agrees
end Framing
end Chunked
