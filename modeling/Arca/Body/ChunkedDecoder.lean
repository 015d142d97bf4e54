import Arca.Auth.Signing
import Arca.Lib.Framed

/-!
# The aws-chunked decoder

One turn of the decoder's polling loop is a function of its state and of the bytes it
has buffered. A state waits for the next transport frame exactly where the loop polls
the inner stream.
-/
namespace Arca.Body
open Auth Framed List Option

inductive BodyError where
  | signatureMismatch
  | nonUtf8Header
  | invalidChunkSize
  | incompleteHeader
  | incompleteData
  deriving DecidableEq, Repr

structure SignedChunks where
  verifier : ChunkVerifier
  withTrailer : Bool
  /-- The data of the chunk being read that was given to the hasher. -/
  hashed : Bytes
  chunkSignature : Text
  trailerLines : List (Text × Text)
  trailerSignature : Option Text
  deriving DecidableEq, Repr

inductive DecoderState where
  | readingHeader
  | readingData (remaining : ℕ) (left : 0 < remaining)
  | readingTrailer (toSkip : ℕ) (left : 0 < toSkip)
  | readingTrailingHeaders
  | done
  deriving DecidableEq, Repr

structure Decoder where
  state : DecoderState
  trailers : List (Text × Text)
  /-- Set when the body's chunks are signed. -/
  signed : Option SignedChunks
  deriving DecidableEq, Repr

def findCrlf : Bytes → Option ℕ
  | [] => none
  | b :: rest => if b = 13 ∧ rest.head? = some 10 then some 0 else (findCrlf rest).map (· + 1)

lemma findCrlf_le {b : Bytes} {pos : ℕ} (h : findCrlf b = some pos) : pos + 2 ≤ b.length := by
  induction b generalizing pos with
  | nil => cases h
  | cons x rest ih =>
    simp only [findCrlf] at h
    split at h
    · next here =>
        obtain rfl := some.inj h
        cases rest with
        | nil => cases here.2
        | cons y rest => simp
    · obtain ⟨p, hp, rfl⟩ := map_eq_some_iff.mp h
      have := ih hp
      simp only [length_cons]
      omega

lemma findCrlf_append {b : Bytes} {pos : ℕ} (h : findCrlf b = some pos) (more : Bytes) :
    findCrlf (b ++ more) = some pos := by
  induction b generalizing pos with
  | nil => cases h
  | cons x rest ih =>
    simp only [findCrlf] at h
    simp only [cons_append, findCrlf]
    cases rest with
    | nil => simp [findCrlf] at h
    | cons y rest =>
      split at h
      · next here => exact (if_pos here).trans h
      · next elsewhere =>
          obtain ⟨p, hp, rfl⟩ := map_eq_some_iff.mp h
          refine (if_neg elsewhere).trans ?_
          rw [ih hp]
          rfl

def parseChunkHeader (line : Bytes) : Except BodyError (ℕ × Option Text) :=
  match Text.fromUtf8 line with
  | none => .error .nonUtf8Header
  | some line =>
    let (hexPart, extension) := match line.splitOnce ';' with
      | some (size, extension) => (size.trim, some extension)
      | none => (line.trim, none)
    match hexPart.parseNat 16 Text.hexValue (2 ^ 64) with
    | none => .error .invalidChunkSize
    | some size =>
      .ok (size, (extension.bind fun e =>
        Text.stripPrefix "chunk-signature=".toList e.trim).map Text.trim)

def parseTrailerLine (line : Bytes) : Option (Text × Text) :=
  (Text.fromUtf8 line).bind fun line =>
    (line.splitOnce ':').map fun (name, value) => (name.trim, value.trim)

namespace SignedChunks
variable (P : Primitives) (s : SignedChunks)

def finishChunk : Option SignedChunks :=
  (s.verifier.verifyChunk P (hexSha256 P s.hashed) s.chunkSignature).map fun verifier =>
    { s with verifier := verifier, hashed := [] }

def addTrailer (trailer : Text × Text) : SignedChunks :=
  if trailer.1.lower = trailerSignatureName then { s with trailerSignature := some trailer.2 }
  else { s with trailerLines := s.trailerLines ++ [trailer] }

def addTrailerLine (line : Bytes) : Option SignedChunks :=
  (parseTrailerLine line).map s.addTrailer

def finishTrailer : Bool :=
  if s.withTrailer then
    match s.trailerSignature with
    | none => false
    | some signature => (s.verifier.verifyTrailer P (canonicalTrailer s.trailerLines) signature).isSome
  else s.trailerLines.isEmpty && s.trailerSignature.isNone

end SignedChunks

namespace Decoder
variable (P : Primitives)

def new (signed : Option SignedChunks) : Decoder := ⟨.readingHeader, [], signed⟩

def startSigned (verifier : ChunkVerifier) (withTrailer : Bool) : SignedChunks :=
  ⟨verifier, withTrailer, [], [], [], none⟩

section
variable (d : Decoder)

/-- Runs a check of the signature chain, of which there is none in an unsigned body. -/
def whenSigned (check : SignedChunks → Option SignedChunks) : Option Decoder :=
  match d.signed with
  | none => some d
  | some s => (check s).map fun s => { d with signed := some s }

def recordTrailer (line : Bytes) : Decoder :=
  match parseTrailerLine line with
  | none => d
  | some (name, value) => { d with trailers := d.trailers ++ [(name.lower, value)] }

def afterHeader (size : ℕ) : DecoderState :=
  if h : size = 0 then .readingTrailingHeaders else .readingData size (Nat.pos_of_ne_zero h)

def afterData (left : ℕ) : DecoderState :=
  if h : left = 0 then .readingTrailer 2 two_pos else .readingData left (Nat.pos_of_ne_zero h)

/-- A chunk header was parsed: the announced signature is kept, and the final,
empty chunk is verified at once. -/
def startChunk (size : ℕ) (signature : Option Text) : Option Decoder :=
  (d.whenSigned fun s => signature.bind fun sig =>
    let s := { s with chunkSignature := sig }
    if size = 0 then s.finishChunk P else some s).map
  fun d => { d with state := afterHeader size }

/-- Data of the current chunk was read; with its last byte the chunk is verified. -/
def readData (data : Bytes) (left : ℕ) : Option Decoder :=
  (d.whenSigned fun s =>
    let s := { s with hashed := s.hashed ++ data }
    if left = 0 then s.finishChunk P else some s).map
  fun d => { d with state := afterData left }

/-- A check that fails ends the stream with a signature mismatch. -/
def takeOr (out rest : Bytes) :
    Option Decoder → Turn Decoder UInt8 UInt8 BodyError (List (Text × Text))
  | none => .stop (.error .signatureMismatch)
  | some d => .take out rest d

def turn (buf : Bytes) : Turn Decoder UInt8 UInt8 BodyError (List (Text × Text)) :=
  match d.state with
  | .done => .stop (.ok d.trailers)
  | .readingHeader =>
    match findCrlf buf with
    | none => .wait
    | some pos =>
      match parseChunkHeader (buf.take pos) with
      | .error e => .stop (.error e)
      | .ok (size, signature) => takeOr [] (buf.drop (pos + 2)) (d.startChunk P size signature)
  | .readingData remaining _ =>
    if buf = [] then .wait
    else
      let toTake := min remaining buf.length
      takeOr (buf.take toTake) (buf.drop toTake)
        (d.readData P (buf.take toTake) (remaining - toTake))
  | .readingTrailer toSkip _ =>
    -- the skipped bytes are not looked at
    if toSkip ≤ buf.length then .take [] (buf.drop toSkip) { d with state := .readingHeader }
    else .wait
  | .readingTrailingHeaders =>
    match findCrlf buf with
    | none => .wait
    | some pos =>
      if pos = 0 then
        match d.signed with
        | none => .stop (.ok d.trailers)
        | some s =>
          if s.finishTrailer P then .stop (.ok d.trailers)
          else .stop (.error .signatureMismatch)
      else
        takeOr [] (buf.drop (pos + 2))
          ((d.whenSigned (·.addTrailerLine (buf.take pos))).map (·.recordTrailer (buf.take pos)))

/-- The transport ends while the decoder waits: an error for a signed body. -/
def atEnd (buf : Bytes) : Except BodyError (List (Text × Text)) :=
  if d.signed.isSome then .error .signatureMismatch
  else match d.state with
    | .done => .ok d.trailers
    | .readingHeader => if buf = [] then .ok d.trailers else .error .incompleteHeader
    | .readingData .. => .error .incompleteData
    | .readingTrailer .. => .ok d.trailers
    | .readingTrailingHeaders => .ok (if buf = [] then d.trailers else (d.recordTrailer buf).trailers)

end

def reader : Reader Decoder UInt8 UInt8 BodyError (List (Text × Text)) := ⟨turn P, atEnd⟩

section steady
variable {P} {d d' : Decoder} {buf rest out : Bytes}

lemma takeOr_eq_take {o : Option Decoder} {out' rest' : Bytes}
    (h : takeOr out rest o = .take out' rest' d') : out = out' ∧ rest = rest' ∧ o = some d' := by
  cases o with
  | none => cases h
  | some e =>
    injection h with h₁ h₂ h₃
    exact ⟨h₁, h₂, congrArg some h₃⟩

variable {k remaining : ℕ}

lemma readData_state {a : Bytes} (h : d.readData P a k = some d') : d'.state = afterData k := by
  obtain ⟨e, -, rfl⟩ := map_eq_some_iff.mp h
  rfl

lemma readData_readData {a b : Bytes} {l : ℕ} (left : k ≠ 0)
    (h : d.readData P a k = some d') : d'.readData P b l = d.readData P (a ++ b) l := by
  cases hs : d.signed with
  | none =>
    simp only [readData, whenSigned, hs, map_some, some.injEq] at h
    subst h
    simp [readData, whenSigned, hs]
  | some s =>
    simp only [readData, whenSigned, hs, left, if_false, map_some, some.injEq] at h
    subst h
    simp only [readData, whenSigned, hs, Option.map_map, List.append_assoc]
    rfl

lemma turn_shrinks (h : d.turn P buf = .take out rest d') : rest.length < buf.length := by
  unfold turn at h
  split at h
  · cases h
  · -- reading a header
    split at h
    · cases h
    · next pos found =>
        split at h
        · cases h
        · obtain ⟨-, rfl, -⟩ := takeOr_eq_take h
          have := findCrlf_le found
          simp only [length_drop]
          omega
  · next remaining left _ =>
      split at h
      · cases h
      · next nonempty =>
          obtain ⟨-, rfl, -⟩ := takeOr_eq_take h
          have := length_pos_iff.mpr nonempty
          simp only [length_drop]
          omega
  · next toSkip left _ =>
      split at h
      · injection h with _ rest_eq _
          
        subst rest_eq
        simp only [length_drop]
        omega
      · cases h
  · -- reading trailing headers
    split at h
    · cases h
    · next pos found =>
        have := findCrlf_le found
        split at h
        · split at h
          · cases h
          · split at h <;> cases h
        · obtain ⟨-, rfl, -⟩ := takeOr_eq_take h
          simp only [length_drop]
          omega

lemma takeOr_extend (out rest more : Bytes) (o : Option Decoder) :
    takeOr out (rest ++ more) o = (takeOr out rest o).extend more := by
  cases o <;> rfl

lemma turn_data {left : 0 < remaining}
    (hs : d.state = .readingData remaining left) (nonempty : buf ≠ []) :
    d.turn P buf = takeOr (buf.take remaining) (buf.drop remaining)
      (d.readData P (buf.take remaining) (remaining - buf.length)) := by
  have missing : remaining - min remaining buf.length = remaining - buf.length := by omega
  simp only [turn, hs, nonempty, if_false, missing]
  rw [← take_eq_take_min, ← drop_eq_drop_min]

/-- A turn that is not short of data does not depend on what lies behind the
bytes it uses. -/
lemma turn_append (enough : ∀ remaining left, d.state = .readingData remaining left →
      remaining ≤ buf.length) (busy : d.turn P buf ≠ .wait) (more : Bytes) :
    d.turn P (buf ++ more) = (d.turn P buf).extend more := by
  cases hs : d.state with
  | done => simp [turn, hs, Turn.extend]
  | readingData remaining left =>
    have fits := enough remaining left hs
    have nonempty : buf ≠ [] := ne_nil_of_length_pos (by omega)
    rw [turn_data hs nonempty, turn_data hs (by simp [nonempty]), ← takeOr_extend,
      take_append_of_le_length fits, drop_append_of_le_length fits, length_append,
      Nat.sub_eq_zero_of_le fits, Nat.sub_eq_zero_of_le (by omega)]
  | readingHeader =>
    cases found : findCrlf buf with
    | none => simp [turn, hs, found] at busy
    | some pos =>
      have fits := findCrlf_le found
      simp only [turn, hs, found, findCrlf_append found more, take_append_of_le_length (show pos ≤ buf.length by omega),
        drop_append_of_le_length fits]
      cases parseChunkHeader (buf.take pos) with
      | error e => rfl
      | ok p => exact takeOr_extend ..
  | readingTrailer toSkip left =>
    by_cases fits : toSkip ≤ buf.length
    · have more_fits : toSkip ≤ (buf ++ more).length := by
        simp only [length_append]
        omega
      simp only [turn, hs, fits, more_fits, if_true, drop_append_of_le_length fits]
      rfl
    · simp [turn, hs, fits] at busy
  | readingTrailingHeaders =>
    cases found : findCrlf buf with
    | none => simp [turn, hs, found] at busy
    | some pos =>
      have fits := findCrlf_le found
      simp only [turn, hs, found, findCrlf_append found more, take_append_of_le_length (show pos ≤ buf.length by omega),
        drop_append_of_le_length fits]
      split
      · cases d.signed with
        | none => rfl
        | some s => cases hf : s.finishTrailer P <;> simp [hf, Turn.extend]
      · exact takeOr_extend ..

/-- Inside the data of a chunk a turn takes what there is; with more at hand it
does what the next turn would have done as well. -/
lemma turn_data_append {left : 0 < remaining}
    (hs : d.state = .readingData remaining left) (short : buf.length < remaining)
    (nonempty : buf ≠ []) (next : d.readData P buf (remaining - buf.length) = some d')
    {more : Bytes} (again : more ≠ []) :
    ∃ o, d'.turn P more = takeOr (more.take (remaining - buf.length))
        (more.drop (remaining - buf.length)) o ∧
      d.turn P (buf ++ more) = takeOr (buf ++ more.take (remaining - buf.length))
        (more.drop (remaining - buf.length)) o := by
  have missing : remaining - buf.length ≠ 0 := by omega
  have state : d'.state = .readingData (remaining - buf.length) (Nat.pos_of_ne_zero missing) := by
    rw [readData_state next, afterData, dif_neg missing]
  refine ⟨_, turn_data state again, ?_⟩
  rw [turn_data hs (by simp [nonempty]), readData_readData missing next, take_append,
    drop_append, take_of_length_le short.le, drop_of_length_le short.le,
    length_append, Nat.sub_sub]
  rfl

lemma readData_ne_none {a : Bytes} (missing : k ≠ 0) : d.readData P a k ≠ none := by
  cases hs : d.signed <;> simp [readData, whenSigned, hs, missing]

lemma steady : (reader P).Steady where
  shrinks := turn_shrinks
  stop_append := by
    intro d buf result more (h : d.turn P buf = _)
    refine (turn_append ?_ (by simp [h]) more).trans (congrArg (Turn.extend more) h)
    -- a turn that is short of data does not stop
    intro remaining left hs
    apply not_lt.mp
    intro short
    have nonempty : buf ≠ [] := by
      rintro rfl
      simp [turn, hs] at h
    rw [turn_data hs nonempty] at h
    obtain ⟨e, he⟩ := ne_none_iff_exists'.mp
      (readData_ne_none (d := d) (P := P) (a := buf.take remaining) (k := remaining - buf.length)
        (by omega))
    rw [he] at h
    cases h
  take_append := by
    intro d buf out rest next more (h : d.turn P buf = _)
    by_cases enough : ∀ remaining left, d.state = .readingData remaining left →
        remaining ≤ buf.length
    · exact .inl ((turn_append enough (by simp [h]) more).trans (congrArg (Turn.extend more) h))
    · simp only [not_forall, not_le] at enough
      obtain ⟨remaining, left, hs, short⟩ := enough
      have nonempty : buf ≠ [] := by
        rintro rfl
        simp [turn, hs] at h
      rw [turn_data hs nonempty, take_of_length_le short.le,
        drop_of_length_le short.le] at h
      obtain ⟨rfl, rfl, step⟩ := takeOr_eq_take h
      by_cases again : more = []
      · subst again
        left
        rw [append_nil]
        exact (turn_data hs nonempty).trans (by
          rw [take_of_length_le short.le, drop_of_length_le short.le, step]; rfl)
      · obtain ⟨o, later, joined⟩ := turn_data_append hs short nonempty step again
        right
        cases o with
        | none => exact .inr ⟨rfl, _, later, joined⟩
        | some e => exact .inl ⟨rfl, _, _, _, later, joined⟩

end steady

/-- All the data a decoder yields until the stream ends, with the trailing
headers it has collected, or the error that ends the stream. -/
def decode (signed : Option SignedChunks) (frames : List Bytes) :
    Except BodyError (Bytes × List (Text × Text)) :=
  (reader P).run (new signed) [] frames

/-- The outcome depends on the bytes of the body only. -/
lemma decode_eq_whole (P : Primitives) (signed : Option SignedChunks) (frames : List Bytes) :
    decode P signed frames = (reader P).whole (new signed) frames.flatten := by
  rw [decode, steady.run_eq_whole, nil_append]

end Decoder

end Arca.Body
