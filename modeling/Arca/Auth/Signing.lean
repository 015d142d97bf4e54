import Arca.Lib.Text

/-!
# Signing keys and the signature chain of a chunked upload

The hash and HMAC functions are parameters: nothing about them is used but that
they are functions.
-/
namespace Arca.Auth

/-- The library functions the signature code calls. Lower-casing is known on ASCII only. -/
structure Primitives where
  sha256 : Bytes → Bytes
  hmacSha256 : Bytes → Bytes → Bytes
  toLowercase : Text → Text
  toLowercase_ascii : ∀ t : Text, (∀ c ∈ t, c.toNat < 128) → toLowercase t = t.lower
  fromUtf8Lossy : Bytes → Text
  fromUtf8Lossy_toUtf8 : ∀ t : Text, fromUtf8Lossy t.toUtf8 = t
  fromUtf8Lossy_ascii : ∀ (left right : Bytes) (c : Char), c.toNat < 128 →
    fromUtf8Lossy (left ++ Text.asciiByte c :: right) = fromUtf8Lossy left ++ c :: fromUtf8Lossy right

/-- Functions under which a signature is the text it covers. -/
def transparent : Primitives where
  sha256 := id
  hmacSha256 _ message := message
  toLowercase := Text.lower
  toLowercase_ascii _ _ := rfl
  fromUtf8Lossy := Text.lossy
  fromUtf8Lossy_toUtf8 := Text.lossy_toUtf8
  fromUtf8Lossy_ascii left right _ ascii := Text.lossyFrom_append_ascii ascii [] left right

variable (P : Primitives)

def hexSha256 (data : Bytes) : Text := Text.hexEncode (P.sha256 data)

def signingKey (secret date region service : Text) : Bytes :=
  let kDate := P.hmacSha256 (Text.toUtf8 ("AWS4".toList ++ secret)) date.toUtf8
  let kRegion := P.hmacSha256 kDate region.toUtf8
  let kService := P.hmacSha256 kRegion service.toUtf8
  P.hmacSha256 kService (Text.toUtf8 "aws4_request".toList)

def computeSignature (key : Bytes) (stringToSign : Text) : Text :=
  Text.hexEncode (P.hmacSha256 key stringToSign.toUtf8)

structure ParsedAuthorization where
  accessKeyId : Text
  date : Text
  region : Text
  service : Text
  signedHeaders : List Text
  signature : Text
  deriving DecidableEq, Repr

def credentialScope (date region service : Text) : Text :=
  date ++ "/".toList ++ region ++ "/".toList ++ service ++ "/aws4_request".toList

structure ChunkVerifier where
  signingKey : Bytes
  datetime : Text
  scope : Text
  previousSignature : Text
  deriving DecidableEq, Repr

namespace ChunkVerifier

/-- The chain starts from the signature of the request itself. -/
def new (secret : Text) (auth : ParsedAuthorization) (requestDatetime : Text) : ChunkVerifier where
  signingKey := Auth.signingKey P secret auth.date auth.region auth.service
  datetime := requestDatetime
  scope := credentialScope auth.date auth.region auth.service
  previousSignature := auth.signature

variable (v : ChunkVerifier)

def expectedChunkSignature (chunkSha256Hex : Text) : Text :=
  computeSignature P v.signingKey
    ("AWS4-HMAC-SHA256-PAYLOAD\n".toList ++ v.datetime ++ "\n".toList ++ v.scope ++ "\n".toList ++
      v.previousSignature ++ "\n".toList ++ hexSha256 P [] ++ "\n".toList ++ chunkSha256Hex)

def expectedTrailerSignature (canonicalTrailer : Bytes) : Text :=
  computeSignature P v.signingKey
    ("AWS4-HMAC-SHA256-TRAILER\n".toList ++ v.datetime ++ "\n".toList ++ v.scope ++ "\n".toList ++
      v.previousSignature ++ "\n".toList ++ hexSha256 P canonicalTrailer)

/-- `none` is a signature that does not match; the chain then stays where it is. -/
def advance (expected provided : Text) : Option ChunkVerifier :=
  if expected = provided then some { v with previousSignature := expected } else none

def verifyChunk (chunkSha256Hex signature : Text) : Option ChunkVerifier :=
  v.advance (v.expectedChunkSignature P chunkSha256Hex) signature

def verifyTrailer (canonicalTrailer : Bytes) (signature : Text) : Option ChunkVerifier :=
  v.advance (v.expectedTrailerSignature P canonicalTrailer) signature

variable {v} {w : ChunkVerifier}

end ChunkVerifier

def trailerSignatureName : Text := "x-amz-trailer-signature".toList

def canonicalTrailerLine (header : Text × Text) : Bytes :=
  let name := Text.lower header.1.trim
  if name = trailerSignatureName then []
  else Text.toUtf8 (name ++ ":".toList ++ header.2.trim ++ "\n".toList)

def canonicalTrailer (headers : List (Text × Text)) : Bytes := headers.flatMap canonicalTrailerLine

end Arca.Auth
