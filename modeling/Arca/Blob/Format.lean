import Arca.Lib.Chunked

/-!
# The file formats of encrypted and compressed blobs

Both store a content in chunks of 64 KiB behind a header.
-/
namespace Arca.Blob
open Chunked Framed List

inductive CompressionAlgorithm where
  | zstd
  | lz4
  | snappy
  | gzip
  | brotli
  | xz
  deriving DecidableEq

namespace CompressionAlgorithm

def code : CompressionAlgorithm → UInt8
  | zstd => 1
  | lz4 => 2
  | snappy => 3
  | gzip => 4
  | brotli => 5
  | xz => 6

def fromCode (c : UInt8) : Option CompressionAlgorithm :=
  [zstd, lz4, snappy, gzip, brotli, xz].find? (·.code = c)

def debug : CompressionAlgorithm → String
  | zstd => "Zstd"
  | lz4 => "Lz4"
  | snappy => "Snappy"
  | gzip => "Gzip"
  | brotli => "Brotli"
  | xz => "Xz"

@[simp] lemma fromCode_code (a : CompressionAlgorithm) : fromCode a.code = some a := by
  cases a <;> decide

end CompressionAlgorithm

/-- The libraries the blob stores call, with what they document. -/
structure Libraries where
  sealChunk : Bytes → Bytes → Bytes → Bytes
  openChunk : Bytes → Bytes → Bytes → Option Bytes
  length_sealChunk : ∀ key nonce p, (sealChunk key nonce p).length = p.length + 16
  openChunk_sealChunk : ∀ key nonce p, openChunk key nonce (sealChunk key nonce p) = some p
  compressChunk : CompressionAlgorithm → Int → Bytes → Bytes
  decompressChunk : CompressionAlgorithm → Bytes → ℕ → Except String Bytes
  decompress_compress : ∀ a level p,
    decompressChunk a (compressChunk a level p) p.length = .ok p
  length_compress : ∀ a level p, p.length ≤ 65536 → (compressChunk a level p).length < 2 ^ 31
  encode64 : Bytes → String
  decode64 : String → Option Bytes
  decode_encode64 : ∀ b, decode64 (encode64 b) = some b
  md5 : Bytes → Bytes
  arriving : Bytes → List Bytes
  flatten_arriving : ∀ b, (arriving b).flatten = b

/-- Libraries that keep these laws, to evaluate runs with. -/
def sampleLibraries : Libraries where
  sealChunk key _ p := p.map (· + 1) ++ (key ++ List.replicate 16 0).take 16
  openChunk key _ c :=
    if c.drop (c.length - 16) = (key ++ List.replicate 16 0).take 16 then
      some ((c.take (c.length - 16)).map (· - 1))
    else none
  length_sealChunk key _ p := by simp
  openChunk_sealChunk key _ p := by
    have length : (p.map (· + 1) ++ (key ++ List.replicate 16 0).take 16).length - 16 =
        (p.map (· + 1)).length := by simp
    rw [length, drop_left, if_pos rfl, take_left, map_map]
    simp [Function.comp_def]
  compressChunk _ _ p := p
  decompressChunk _ b n := if b.length = n then .ok b else .error "wrong length"
  decompress_compress _ _ p := if_pos rfl
  length_compress _ _ p h := by omega
  encode64 b := String.ofList (b.map fun x => Char.ofNat x.toNat)
  decode64 s := some (s.toList.map fun c => UInt8.ofNat c.toNat)
  decode_encode64 b := by
    have each : ∀ x : UInt8, UInt8.ofNat (Char.ofNat x.toNat).toNat = x := by
      intro x
      have small := x.toNat_lt
      have valid : x.toNat.isValidChar := .inl (by omega)
      rw [Char.ofNat, dif_pos valid]
      exact UInt8.ofNat_toNat
    simp [Function.comp_def, each]
  md5 b := (b ++ List.replicate 16 0).take 16
  arriving b := [b]
  flatten_arriving b := by simp

/-- An AEAD does not open a ciphertext to another plaintext than was sealed, whatever the
key, and the empty text is base64 of nothing. -/
structure AuthenticLibraries extends Libraries where
  authentic : ∀ key key' nonce p got, openChunk key' nonce (sealChunk key nonce p) = some got → got = p
  decode64_empty : decode64 "" = some []

def sampleAuthentic : AuthenticLibraries where
  toLibraries := sampleLibraries
  authentic key key' nonce p got h := by
    dsimp only [sampleLibraries] at h
    have length : (p.map (· + 1) ++ (key ++ List.replicate 16 0).take 16).length - 16 =
        (p.map (· + 1)).length := by simp
    rw [length, take_left, map_map] at h
    split at h
    · rw [← Option.some.inj h]
      simp [Function.comp_def]
    · cases h
  decode64_empty := rfl

def defaultChunkSize : ℕ := 64 * 1024

lemma lengths_le32_append {buf : Bytes} (more : Bytes) (long : 4 ≤ buf.length) :
    fromLe32 (buf ++ more) = fromLe32 buf := by
  obtain ⟨a, b, c, d, rest, rfl⟩ : ∃ a b c d rest, buf = a :: b :: c :: d :: rest := by
    match buf, long with
    | a :: b :: c :: d :: rest, _ => exact ⟨a, b, c, d, rest, rfl⟩
  rfl

namespace Encryption

def magic : Bytes := [0x41, 0x45, 0x4E, 0x43]

def headerSize : ℕ := 9

def writeHeader (chunkSize : ℕ) : Bytes := magic ++ [0x01] ++ le32 chunkSize

def parseHeader (data : Bytes) : Except String ℕ :=
  if data.length < headerSize then .error "header too short"
  else if data.take 4 ≠ magic then .error "invalid magic bytes"
  else if (data.drop 4).take 1 ≠ [0x01] then .error "unsupported format version"
  else if fromLe32 (data.drop 5) = 0 then .error "chunk_size must be > 0"
  else .ok (fromLe32 (data.drop 5))

lemma parseHeader_writeHeader {c : ℕ} (pos : 0 < c) (small : c < 2 ^ 32) :
    parseHeader (writeHeader c) = .ok c := by
  have size : fromLe32 ((writeHeader c).drop 5) = c := by
    have := fromLe32_le32 small []
    rwa [append_nil] at this
  rw [parseHeader, size, if_neg (by simp [writeHeader, magic, headerSize]), if_neg (by simp [writeHeader, magic]),
    if_neg (by simp [writeHeader, magic]), if_neg pos.ne']

def be64 (n : ℕ) : Bytes :=
  (List.range 8).reverse.map fun k => UInt8.ofNat (n / 256 ^ k)

def buildNonce (nonce4 : Bytes) (chunkIndex : ℕ) : Bytes := nonce4 ++ be64 chunkIndex

variable (L : Libraries) (key nonce4 : Bytes)

def framing (chunkSize : ℕ) : Framing where
  size := chunkSize
  lead := 4
  leading _ p := le32 p.length
  body i p := L.sealChunk key (buildNonce nonce4 i) p
  lengths buf := (fromLe32 buf, fromLe32 buf + 16)
  decode i _ body :=
    match L.openChunk key (buildNonce nonce4 i) body with
    | some p => .ok p
    | none => .error "chunk decryption failed (corrupted or wrong key)"
  shortLead := "truncated chunk length prefix"
  shortBody := "truncated encrypted chunk"
  lead_pos := by decide
  lengths_append buf more long := by rw [lengths_le32_append more long]

variable {c : ℕ}

@[simp] lemma size_framing : (framing L key nonce4 c).size = c := rfl

@[simp] lemma length_writeHeader : (writeHeader c).length = headerSize := rfl

lemma framing_lawful (pos : 0 < c) (small : c < 2 ^ 32) : (framing L key nonce4 c).Lawful where
  size_pos := pos
  length_leading _ _ := rfl
  lengths_leading := by
    intro i p fits
    have read := fromLe32_le32 (lt_of_le_of_lt fits small) []
    rw [append_nil] at read
    simp only [framing, read, L.length_sealChunk]
  decode_body := by
    intro i p _
    simp only [framing, L.openChunk_sealChunk]

/-- What `EncryptingStream` puts on disk for a content that arrives in pieces, with the
free places of its pipeline at each; it seals batches of four chunks. -/
def encryptingStream (chunkSize : ℕ) (pieces : List (Bytes × ℕ)) : Bytes :=
  writeHeader chunkSize ++ (framing L key nonce4 chunkSize).written 4 0 [] pieces

def file (content : Bytes) : Bytes :=
  writeHeader defaultChunkSize ++ (framing L key nonce4 defaultChunkSize).frames 0 content

lemma default_lawful : (framing L key nonce4 defaultChunkSize).Lawful :=
  framing_lawful L key nonce4 (by decide) (by decide)

lemma encryptingStream_eq (pieces : List (Bytes × ℕ)) :
    encryptingStream L key nonce4 defaultChunkSize pieces =
      file L key nonce4 (pieces.map Prod.fst).flatten := by
  rw [encryptingStream, (default_lawful L key nonce4).written_eq, nil_append, file]

def onDiskChunkSize (plaintextLen : ℕ) : ℕ := 4 + plaintextLen + 16

def chunkDiskOffset (chunkIndex chunkSize : ℕ) : ℕ :=
  headerSize + chunkIndex * onDiskChunkSize chunkSize

/-- Where the last chunk a range touches ends: only the last of all may be short, and it
ends with the file. -/
def slabEnd (lastChunk payloadSize chunkSize fileSize : ℕ) : ℕ :=
  if lastChunk < (payloadSize + chunkSize - 1) / chunkSize - 1 then
    chunkDiskOffset (lastChunk + 1) chunkSize
  else fileSize

end Encryption

namespace Compression

def magic : Bytes := [0x41, 0x43, 0x4D, 0x50]

def headerSize : ℕ := 10

def chunkLenHeader : ℕ := 8

def footerCountSize : ℕ := 4

def writeHeader (a : CompressionAlgorithm) (chunkSize : ℕ) : Bytes :=
  magic ++ [0x01, a.code] ++ le32 chunkSize

def parseHeader (data : Bytes) : Except String (CompressionAlgorithm × ℕ) :=
  if data.length < headerSize then .error "compression header too short"
  else if data.take 4 ≠ magic then .error "invalid compression magic bytes"
  else if (data.drop 4).take 1 ≠ [0x01] then .error "unsupported compression format version"
  else match CompressionAlgorithm.fromCode ((data.drop 5).headD 0) with
    | none => .error "unknown compression algorithm code"
    | some a =>
      if fromLe32 (data.drop 6) = 0 then .error "chunk_size must be > 0"
      else .ok (a, fromLe32 (data.drop 6))

variable {c : ℕ}

lemma parseHeader_writeHeader (a : CompressionAlgorithm) (pos : 0 < c)
    (small : c < 2 ^ 32) : parseHeader (writeHeader a c) = .ok (a, c) := by
  have size : fromLe32 ((writeHeader a c).drop 6) = c := by
    have := fromLe32_le32 small []
    rwa [append_nil] at this
  have known : CompressionAlgorithm.fromCode (((writeHeader a c).drop 5).headD 0) = some a :=
    CompressionAlgorithm.fromCode_code a
  rw [parseHeader, size, known, if_neg (by simp [writeHeader, magic, headerSize]),
    if_neg (by simp [writeHeader, magic]), if_neg (by simp [writeHeader, magic])]
  exact if_neg pos.ne'

/-- The lengths on disk of all chunks, and their number; both are cut to 32 bits. -/
def writeFooter (lens : List ℕ) : Bytes := lens.flatMap le32 ++ le32 lens.length

variable (L : Libraries) (a : CompressionAlgorithm) (level : Int)

def framing (chunkSize : ℕ) : Framing where
  size := chunkSize
  lead := 8
  leading _ p := le32 (L.compressChunk a level p).length ++ le32 p.length
  body _ p := L.compressChunk a level p
  lengths buf := (fromLe32 (buf.drop 4), fromLe32 buf)
  decode _ plaintextLen body := L.decompressChunk a body plaintextLen
  shortLead := "truncated chunk length prefix"
  shortBody := "truncated compressed chunk"
  lead_pos := by decide
  lengths_append buf more long := by
    rw [lengths_le32_append more (by omega), drop_append_of_le_length (by omega),
      lengths_le32_append more (by rw [length_drop]; omega)]

@[simp] lemma size_framing : (framing L a level c).size = c := rfl

@[simp] lemma lead_framing : (framing L a level c).lead = chunkLenHeader := rfl

lemma framing_lawful (pos : 0 < c) (small : c ≤ 65536) : (framing L a level c).Lawful where
  size_pos := pos
  length_leading _ _ := rfl
  lengths_leading := by
    intro i p (fits : p.length ≤ c)
    have compressed := L.length_compress a level p (by omega)
    have second : ((framing L a level c).leading i p).drop 4 = le32 p.length ++ [] := rfl
    simp only [framing] at second ⊢
    rw [second, fromLe32_le32 (by omega), fromLe32_le32 (by omega)]
  decode_body _ p _ := L.decompress_compress a level p

lemma default_lawful : (framing L a level defaultChunkSize).Lawful :=
  framing_lawful L a level (by decide) (by decide)

def chunkLens (content : Bytes) : List ℕ :=
  ((framing L a level defaultChunkSize).chunks 0 content).map List.length

def file (content : Bytes) : Bytes :=
  writeHeader a defaultChunkSize ++ (framing L a level defaultChunkSize).frames 0 content ++
    writeFooter (chunkLens L a level content)

/-- What `CompressingStream` puts on disk for a content that arrives in pieces: it
compresses a chunk as soon as its buffer holds one. -/
def compressingStream (pieces : List Bytes) : Bytes :=
  writeHeader a defaultChunkSize ++
    (framing L a level defaultChunkSize).written 1 0 []
      (pieces.map fun piece => (piece, piece.length)) ++
    writeFooter (chunkLens L a level pieces.flatten)

lemma compressingStream_eq (pieces : List Bytes) :
    compressingStream L a level pieces = file L a level pieces.flatten := by
  have same : (pieces.map fun piece => (piece, piece.length)).map Prod.fst = pieces := by
    rw [map_map]
    exact map_id pieces
  rw [compressingStream, (default_lawful L a level).written_eq, nil_append, same, file]

end Compression
end Arca.Blob
