import Arca.Auth.Signing
import Arca.Lib.FormQuery

/-!
# Signature Version 4

Parsing of the two forms of authorization, the canonical request, and the comparison
of signatures.
-/
namespace Arca.Auth

inductive AuthError where
  | malformedHeader (message : Text)
  | malformedQueryAuth (message : Text)
  | signatureDoesNotMatch
  deriving DecidableEq, Repr

def lastField (name : Text) (parts : List Text) : Option Text :=
  (parts.filterMap fun part => (Text.stripPrefix name part.trim).map Text.trim).getLast?

def orElse {ε α : Type} (error : ε) : Option α → Except ε α
  | some a => .ok a
  | none => .error error

def parseScope (error : Text → AuthError) (credential : Text) :
    Except AuthError (Text × Text × Text × Text) :=
  match credential.splitOn '/' with
  | [key, date, region, service, terminator] =>
    if terminator = "aws4_request".toList then .ok (key, date, region, service)
    else .error (error "credential scope must end with aws4_request".toList)
  | parts => .error (error ("credential scope must have 5 parts, got ".toList ++
      (toString parts.length).toList))

variable (P : Primitives)

/-- The names of the signed headers; there is always at least one. -/
def parseSignedHeaders (t : Text) : List Text :=
  (t.splitOn ';').map fun name => P.toLowercase (Text.trim name)

def parseAuthorization (header : Text) : Except AuthError ParsedAuthorization := do
  let error := fun message : String => AuthError.malformedHeader message.toList
  let rest ← orElse (error "missing AWS4-HMAC-SHA256 algorithm")
    (Text.stripPrefix "AWS4-HMAC-SHA256".toList header.trim)
  -- blanks in front of the first part are trimmed with the part itself
  let parts := rest.splitOn ','
  let credential ← orElse (error "missing Credential") (lastField "Credential=".toList parts)
  let (key, date, region, service) ← parseScope .malformedHeader credential
  let signedHeaders ← orElse (error "missing SignedHeaders") (lastField "SignedHeaders=".toList parts)
  let signature ← orElse (error "missing Signature") (lastField "Signature=".toList parts)
  if signature = [] then .error (error "empty Signature")
  else .ok ⟨key, date, region, service, parseSignedHeaders P signedHeaders, signature⟩

structure ParsedQueryAuth where
  accessKeyId : Text
  date : Text
  region : Text
  service : Text
  signedHeaders : List Text
  signature : Text
  expires : ℕ
  requestDatetime : Text
  deriving DecidableEq, Repr

variable (query : Text)

def queryPairs : List (Text × Text) :=
  FormQuery.parse P.fromUtf8Lossy query.toUtf8

def lastParam (key : Text) (pairs : List (Text × Text)) : Option Text :=
  (pairs.filterMap fun (k, v) => if k = key then some v else none).getLast?

def parseQueryStringAuth : Except AuthError ParsedQueryAuth := do
  let error := fun message : String => AuthError.malformedQueryAuth message.toList
  let pairs := queryPairs P query
  let algorithm ← orElse (error "missing X-Amz-Algorithm") (lastParam "X-Amz-Algorithm".toList pairs)
  if algorithm ≠ "AWS4-HMAC-SHA256".toList then
    .error (.malformedQueryAuth ("unsupported algorithm: ".toList ++ algorithm))
  else do
  let credential ← orElse (error "missing X-Amz-Credential") (lastParam "X-Amz-Credential".toList pairs)
  let (key, date, region, service) ← parseScope .malformedQueryAuth credential
  let requestDatetime ← orElse (error "missing X-Amz-Date") (lastParam "X-Amz-Date".toList pairs)
  if requestDatetime = [] then .error (error "empty X-Amz-Date")
  else do
  let expiresStr ← orElse (error "missing X-Amz-Expires") (lastParam "X-Amz-Expires".toList pairs)
  let expires ← orElse (.malformedQueryAuth ("invalid X-Amz-Expires: ".toList ++ expiresStr))
    (expiresStr.parseNat 10 Text.decValue (2 ^ 64))
  let signedHeaders ← orElse (error "missing X-Amz-SignedHeaders")
    (lastParam "X-Amz-SignedHeaders".toList pairs)
  let signature ← orElse (error "missing X-Amz-Signature") (lastParam "X-Amz-Signature".toList pairs)
  if signature = [] then .error (error "empty X-Amz-Signature")
  else .ok ⟨key, date, region, service, parseSignedHeaders P signedHeaders, signature, expires,
    requestDatetime⟩

def isUnreserved (b : UInt8) : Bool :=
  (65 ≤ b && b ≤ 90) || (97 ≤ b && b ≤ 122) || (48 ≤ b && b ≤ 57) || b == 45 || b == 46 || b == 95 ||
    b == 126

def uriEncode (t : Text) : Text := Percent.encodeText isUnreserved t

def canonicalUri (path : Text) : Text := if path = [] then "/".toList else path

def pairLe (a b : Text × Text) : Prop := a.1 < b.1 ∨ a.1 = b.1 ∧ a.2 ≤ b.2

instance : DecidableRel pairLe := fun _ _ => inferInstanceAs (Decidable (_ ∨ _))

def joinPairs (pairs : List (Text × Text)) : Text :=
  List.intercalate "&".toList (pairs.map fun (k, v) => k ++ '=' :: v)

def canonicalPairs (pairs : List (Text × Text)) : Text :=
  joinPairs ((pairs.map fun (k, v) => (uriEncode k, uriEncode v)).insertionSort pairLe)

def canonicalQueryString : Text := canonicalPairs (queryPairs P query)

/-- Everything but the signature itself is signed. -/
def canonicalQueryStringPresigned : Text :=
  canonicalPairs ((queryPairs P query).filter fun (k, _) => k ≠ "X-Amz-Signature".toList)

def collapseSpaces (prevSpace : Bool) : Text → Text
  | [] => []
  | c :: t =>
    if c = ' ' then (if prevSpace then collapseSpaces true t else ' ' :: collapseSpaces true t)
    else c :: collapseSpaces false t

def trimHeaderValue (value : Text) : Text := collapseSpaces false value.trim

variable (allHeaders : List (Text × Text)) (names : List Text)

def selectHeaders : List (Text × Text) :=
  names.flatMap fun name =>
    allHeaders.filterMap fun (n, v) =>
      if P.toLowercase n = P.toLowercase name then some (P.toLowercase name, trimHeaderValue v)
      else none

def canonicalHeaders : Text :=
  ((selectHeaders P allHeaders names).insertionSort fun a b => a.1 ≤ b.1).flatMap
    fun (n, v) => n ++ ':' :: v ++ "\n".toList

def signedHeadersStr : Text :=
  List.intercalate ";".toList (names.insertionSort (· ≤ ·))

def canonicalRequest (method path canonicalQuery : Text)
    (allHeaders : List (Text × Text)) (names : List Text) (payloadHash : Text) : Text :=
  method ++ '\n' :: canonicalUri path ++ '\n' :: canonicalQuery ++
    '\n' :: canonicalHeaders P allHeaders names ++ '\n' :: signedHeadersStr names ++
    '\n' :: payloadHash

def stringToSign (datetime scope canonicalRequestHash : Text) : Text :=
  "AWS4-HMAC-SHA256\n".toList ++ datetime ++ '\n' :: scope ++ '\n' :: canonicalRequestHash

def signatureOf (secret date region service datetime canonical : Text) : Text :=
  computeSignature P (signingKey P secret date region service)
    (stringToSign datetime (credentialScope date region service) (hexSha256 P canonical.toUtf8))

structure SignedParts where
  method : Text
  path : Text
  query : Text
  headers : List (Text × Text)

variable (parts : SignedParts)

def verifyRequest (payloadHash : Text)
    (auth : ParsedAuthorization) (secret requestDatetime : Text) : Bool :=
  signatureOf P secret auth.date auth.region auth.service requestDatetime
    (canonicalRequest P parts.method parts.path (canonicalQueryString P parts.query) parts.headers
      auth.signedHeaders payloadHash) == auth.signature

def verifyPresignedRequest (auth : ParsedQueryAuth) (secret : Text) : Bool :=
  signatureOf P secret auth.date auth.region auth.service auth.requestDatetime
    (canonicalRequest P parts.method parts.path (canonicalQueryStringPresigned P parts.query)
      parts.headers auth.signedHeaders "UNSIGNED-PAYLOAD".toList) == auth.signature

def outboundNames (headers : List (Text × Text)) : List Text :=
  ((headers.map fun (n, _) => P.toLowercase n).insertionSort (· ≤ ·)).destutter (· ≠ ·)

def signOutboundRequest
    (payloadHash accessKeyId secret region service requestDatetime : Text) : Text :=
  let date := requestDatetime.take 8
  let names := outboundNames P parts.headers
  let canonical := canonicalRequest P parts.method parts.path (canonicalQueryString P parts.query)
    parts.headers names payloadHash
  "AWS4-HMAC-SHA256 Credential=".toList ++ accessKeyId ++ '/' :: credentialScope date region service ++
    ", SignedHeaders=".toList ++ signedHeadersStr names ++
    ", Signature=".toList ++ signatureOf P secret date region service requestDatetime canonical

end Arca.Auth
