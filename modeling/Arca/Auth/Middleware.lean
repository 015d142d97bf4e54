import Arca.Auth.Policy
import Arca.Auth.Sigv4
import Arca.Http.Request
import Arca.Types

/-!
# The authentication middleware

A request is authenticated by its `Authorization` header or, without one, by its
query string; the owner of the credential is resolved, and the policies of an owner
who is not root are evaluated for the action and the resource that the method, the
path and the query name.
-/
namespace Arca.Auth
open Http

/-- What the middleware reads besides the request: the library functions, the
clock, and the stores, whose failure is an error without data. -/
structure Environment where
  primitives : Primitives
  now : Instant
  parseAmzDatetime : Text → Option Instant
  getCredential : String → Except Unit (Option Credential)
  getUser : String → Except Unit (Option User)
  getEffectivePolicies : String → Except Unit (List PolicyDocument)

inductive Rejection where
  | s3 (error : S3Error)
  | internal
  deriving DecidableEq, Repr

def arnScheme : Text := "arn:aws:s3:::".toList

/-- The resource a target names; the service itself is not a resource of its own. -/
def arn : Target → Text
  | .service => "*".toList
  | .bucket b => arnScheme ++ b
  | .object b k => arnScheme ++ b ++ '/' :: k

variable (method : Method)

def bucketAction (query : Text) : Action :=
  match method with
  | .put => if query.contains "encryption".toList then .putBucketEncryption else .createBucket
  | .get | .head =>
    if query.contains "encryption".toList then .getBucketEncryption
    else if query.contains "location".toList then .getBucketLocation
    else .listBucket
  | .delete => if query.contains "encryption".toList then .deleteBucketEncryption else .deleteBucket
  | .post => if query.contains "delete".toList then .deleteObject else .listBucket
  | .other _ => .listBucket

def objectAction : Method → Action
  | .get | .head => .getObject
  | .put | .post => .putObject
  | .delete => .deleteObject
  | .other _ => .getObject

def determineAction (query : Text) : Target → Action
  | .service => .listAllMyBuckets
  | .bucket _ => bucketAction method query
  | .object _ _ => objectAction method

def determineS3ActionResource (path query : Text) : Action × Text :=
  let target := Target.ofPath path
  (determineAction method query target, arn target)

structure AuthenticatedIdentity where
  credential : Credential
  user : User
  effectivePolicies : List PolicyDocument
  deriving DecidableEq, Repr

def AuthenticatedIdentity.isRoot (id : AuthenticatedIdentity) : Bool := id.user.isRoot

def second : Int := 1000000000

def replayWindowSecs : Int := 900

def maxPresignExpires : ℕ := 604800

variable (env : Environment)

def withinReplayWindow (amzDate : Text) : Bool :=
  match env.parseAmzDatetime amzDate with
  | some t => |(env.now - t).tdiv second| ≤ replayWindowSecs
  | none => false

def activeCredential (accessKeyId uriPath : Text) : Except Rejection Credential :=
  match env.getCredential (String.ofList accessKeyId) with
  | .ok (some cred) =>
    if cred.active then .ok cred else .error (.s3 (.new .invalidAccessKeyId uriPath))
  | .ok none => .error (.s3 (.new .invalidAccessKeyId uriPath))
  | .error _ => .error .internal

def headerValueToString (value : Bytes) : Text :=
  (toStr value).getD (env.primitives.fromUtf8Lossy value)

/-- All headers as text; without a host header the authority of the target is
taken for one. -/
def headerTexts (r : Request) : List (Text × Text) :=
  let headers := r.headers.map fun (n, v) => (n.val, headerValueToString env v)
  if headers.any (·.1 = "host".toList) then headers
  else match r.uri.authority with
    | some authority => headers ++ [("host".toList, authority)]
    | none => headers

def requestDatetime (headers : Headers) : Text :=
  (((headers.get "x-amz-date".toList).or (headers.get "date".toList)).bind toStr).getD []

def payloadHash (headers : Headers) : Text :=
  (headers.getStr "x-amz-content-sha256".toList).getD "UNSIGNED-PAYLOAD".toList

section
variable (original : Uri) (r : Request)

def signedParts : SignedParts where
  method := r.method.asStr
  path := original.path
  query := original.query.getD []
  headers := headerTexts env r

/-- Authentication by the `Authorization` header. A signed chunked body goes on
from the signature of the request. -/
def headerAuth (authHeader : Text) : Except Rejection (Credential × Option ChunkVerifier) :=
  let fail := fun code => Except.error (Rejection.s3 (.new code original.path))
  match parseAuthorization env.primitives authHeader with
  | .error _ => fail .signatureDoesNotMatch
  | .ok auth =>
    match activeCredential env auth.accessKeyId original.path with
    | .error e => .error e
    | .ok cred =>
      let datetime := requestDatetime r.headers
      let secret := cred.secretAccessKey.toList
      if datetime = [] then fail .accessDenied
      else if !withinReplayWindow env datetime then fail .accessDenied
      else if !verifyRequest env.primitives (signedParts env original r) (payloadHash r.headers)
          auth secret datetime then fail .signatureDoesNotMatch
      else .ok (cred,
        if "STREAMING-AWS4-HMAC-SHA256-PAYLOAD".toList.isPrefixOf (payloadHash r.headers) then
          some (ChunkVerifier.new env.primitives secret auth datetime)
        else none)

def queryAuth : Except Rejection (Credential × Option ChunkVerifier) :=
  let fail := fun code => Except.error (Rejection.s3 (.new code original.path))
  let deny := fun message => Except.error (Rejection.s3 ⟨.accessDenied, message, original.path⟩)
  match parseQueryStringAuth env.primitives (original.query.getD []) with
  | .error _ => fail .accessDenied
  | .ok auth =>
    if maxPresignExpires < auth.expires then
      deny ("X-Amz-Expires must be less than a week (604800 seconds), got ".toList ++
        (toString auth.expires).toList)
    else match env.parseAmzDatetime auth.requestDatetime with
      | none => fail .accessDenied
      | some signedAt =>
        if signedAt + auth.expires * second < env.now then deny "Request has expired".toList
        else match activeCredential env auth.accessKeyId original.path with
          | .error e => .error e
          | .ok cred =>
            if !verifyPresignedRequest env.primitives (signedParts env original r) auth
                cred.secretAccessKey.toList then fail .signatureDoesNotMatch
            else .ok (cred, none)

def authenticate : Except Rejection (Credential × Option ChunkVerifier) :=
  match r.headers.getStr "authorization".toList with
  | some authHeader => headerAuth env original r authHeader
  | none =>
    if (Text.contains (original.query.getD []) "X-Amz-Algorithm".toList) then queryAuth env original r
    else .error (.s3 (.new .accessDenied original.path))

def resolveIdentity (cred : Credential) : Except Unit (Option AuthenticatedIdentity) :=
  match env.getUser cred.userId with
  | .error e => .error e
  | .ok none => .ok none
  | .ok (some user) =>
    if user.isRoot then .ok (some ⟨cred, user, []⟩)
    else match env.getEffectivePolicies user.userId with
      | .error e => .error e
      | .ok policies => .ok (some ⟨cred, user, policies⟩)

/-- A call of `evaluate_grants` and its answer. -/
structure GrantCheck where
  action : Action
  resource : Text
  result : Evaluation
  deriving DecidableEq, Repr

def authorize (id : AuthenticatedIdentity) (original : Uri) (method : Method) :
    Except Rejection (Option GrantCheck) :=
  if id.isRoot then .ok none
  else
    let (action, resource) := determineS3ActionResource method original.path (original.query.getD [])
    let result := evaluateGrants id.effectivePolicies action.name resource
    if result = .allow then .ok (some ⟨action, resource, result⟩)
    else .error (.s3 (.new .accessDenied original.path))

/-- What the middleware hands on with a request, and the evaluation that was made. -/
structure Accepted where
  identity : AuthenticatedIdentity
  chunkVerifier : Option ChunkVerifier
  evaluated : Option GrantCheck
  deriving DecidableEq, Repr

def authMiddleware : Except Rejection Accepted :=
  match authenticate env original r with
  | .error e => .error e
  | .ok (cred, verifier) =>
    match resolveIdentity env cred with
    | .error _ => .error .internal
    | .ok none => .error (.s3 (.new .accessDenied original.path))
    | .ok (some id) =>
      match authorize id original r.method with
      | .error e => .error e
      | .ok check => .ok ⟨id, verifier, check⟩

end

variable {env} {original : Uri}

lemma authMiddleware_eq_ok_iff {r : Request} {a : Accepted} :
    authMiddleware env original r = .ok a ↔
      ∃ cred, authenticate env original r = .ok (cred, a.chunkVerifier) ∧
        resolveIdentity env cred = .ok (some a.identity) ∧
        authorize a.identity original r.method = .ok a.evaluated := by
  unfold authMiddleware
  constructor
  · intro h
    split at h
    · cases h
    · next cred verifier authentic =>
        split at h
        · cases h
        · cases h
        · next id resolved =>
            split at h
            · cases h
            · next check authorized =>
                obtain rfl := Except.ok.inj h
                exact ⟨cred, authentic, resolved, authorized⟩
  · rintro ⟨cred, authentic, resolved, authorized⟩
    simp only [authentic, resolved, authorized]

lemma authorize_eq_ok_iff {id : AuthenticatedIdentity} (plain : id.isRoot = false)
    {method : Method} {check : Option GrantCheck} :
    authorize id original method = .ok check ↔
      let named := determineS3ActionResource method original.path (original.query.getD [])
      evaluateGrants id.effectivePolicies named.1.name named.2 = .allow ∧
        check = some ⟨named.1, named.2, .allow⟩ := by
  simp only [authorize, plain, Bool.false_eq_true, if_false]
  split
  · next allowed => simp [allowed, eq_comm]
  · next denied => simp [denied]

/-- A server: the environment of its middleware, its domain, the paths its other
routers take, and what its other layers (validation, rate limits, draining) admit. -/
structure Server where
  env : Environment
  domain : Option Text
  reserved : Text → Bool
  admits : Request → Bool

structure Served where
  request : Request
  target : Target
  accepted : Accepted
  deriving DecidableEq

def Server.routed (server : Server) (r : Request) : Option Target :=
  let path := (r.normalize server.domain).uri.path
  if server.reserved path then none else route path

def Server.serve (server : Server) (r : Request) : Option Served :=
  (server.routed r).bind fun raw =>
    if server.admits r && raw.serves r.method then
      (authMiddleware server.env r.uri (r.normalize server.domain)).toOption.bind fun accepted =>
        raw.decode.map fun target => ⟨r.normalize server.domain, target, accepted⟩
    else none

lemma serve_eq_some_iff {server : Server} {r : Request} {s : Served} : server.serve r = some s ↔
      server.admits r = true ∧ s.request = r.normalize server.domain ∧
        authMiddleware server.env r.uri s.request = .ok s.accepted ∧
        ∃ raw, server.routed r = some raw ∧ raw.serves r.method = true ∧
          raw.decode = some s.target := by
  constructor
  · intro h
    obtain ⟨raw, routed, h⟩ := Option.bind_eq_some_iff.mp h
    split at h
    · next admitted =>
        obtain ⟨accepted, authorized, h⟩ := Option.bind_eq_some_iff.mp h
        obtain ⟨target, decoded, rfl⟩ := Option.map_eq_some_iff.mp h
        simp only [Bool.and_eq_true] at admitted
        refine ⟨admitted.1, rfl, ?_, raw, routed, admitted.2, decoded⟩
        cases eq : authMiddleware server.env r.uri (r.normalize server.domain) with
        | error e => simp [eq, Except.toOption] at authorized
        | ok a => simpa [eq, Except.toOption] using authorized
    · cases h
  · rintro ⟨admitted, same, authorized, raw, routed, serves, decoded⟩
    rw [same] at authorized
    obtain ⟨request, target, accepted⟩ := s
    simp only at same authorized decoded
    simp [Server.serve, routed, admitted, serves, authorized, decoded, same, Except.toOption]

def tenant : User := ⟨"u-1", "tenant", "", false, 0⟩

def tenantCredential : Credential := ⟨"AKIATENANT", "secret", "", 0, true, "u-1"⟩

def allowExcept (resources : List Text) : List PolicyDocument :=
  [⟨[⟨.allow, ["s3:*".toList], ["*".toList]⟩, ⟨.deny, ["*".toList], resources⟩]⟩]

def tenantDate : Text := "20260101T000000Z".toList

def tenantServer (domain : Option Text) (policies : List PolicyDocument) : Server where
  env :=
    { primitives := transparent
      now := 0
      parseAmzDatetime := fun t => if t = tenantDate then some 0 else none
      getCredential := fun _ => .ok (some tenantCredential)
      getUser := fun _ => .ok (some tenant)
      getEffectivePolicies := fun _ => .ok policies }
  domain := domain
  reserved _ := false
  admits _ := true

def tenantRequest (method : Method) (uri : Uri) (signed unsigned : List (HeaderName × Text)) : Request :=
  let signed := signed ++ [(header "x-amz-date" (by decide), tenantDate)]
  let raw : Headers := signed.map fun (n, v) => (n, v.toUtf8)
  let authorization := signOutboundRequest transparent
    ⟨method.asStr, uri.path, uri.query.getD [], signed.map fun (n, v) => (n.val, v)⟩ (payloadHash raw)
    "AKIATENANT".toList "secret".toList "us-east-1".toList "s3".toList tenantDate
  ⟨method, uri, (header "authorization" (by decide), authorization.toUtf8) ::
    (raw ++ unsigned.map fun (n, v) => (n, v.toUtf8))⟩

def tenantServed (policies : List PolicyDocument) (request : Request) (target : Target)
    (action : Action) (resource : Text) : Served :=
  ⟨request, target, ⟨⟨tenantCredential, tenant, policies⟩, none, some ⟨action, resource, .allow⟩⟩⟩

end Arca.Auth
