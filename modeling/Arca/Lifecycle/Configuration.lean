import Arca.Types

/-!
# Lifecycle configurations

A configuration passes through three forms: the elements of the document, the record
that they deserialize into, and the rule that is stored. An element the deserializer
has no field for is skipped, as the `Prefix` that older documents have directly in
their `Rule` is.
-/
namespace Arca.Lifecycle

structure XmlTag where
  key : String
  value : String
  deriving DecidableEq

structure XmlAnd where
  keyPrefix : Option String
  tags : List XmlTag
  deriving DecidableEq

structure XmlFilter where
  keyPrefix : Option String
  tag : Option XmlTag
  and : Option XmlAnd
  deriving DecidableEq

structure XmlExpiration where
  days : Option Nat
  date : Option String
  expiredObjectDeleteMarker : Option String
  deriving DecidableEq

structure XmlNoncurrentVersionExpiration where
  noncurrentDays : Option Nat
  newerNoncurrentVersions : Option Nat
  deriving DecidableEq

structure XmlAbortIncompleteMultipartUpload where
  daysAfterInitiation : Option Nat
  deriving DecidableEq

structure XmlRule where
  id : Option String
  status : String
  filter : Option XmlFilter
  expiration : Option XmlExpiration
  noncurrentVersionExpiration : Option XmlNoncurrentVersionExpiration
  abortIncompleteMultipartUpload : Option XmlAbortIncompleteMultipartUpload
  deriving DecidableEq

structure RuleElement extends XmlRule where
  rulePrefixes : List String
  deriving DecidableEq

def RuleElement.prefixes (e : RuleElement) : List String :=
  e.rulePrefixes ++ (e.filter.bind XmlFilter.keyPrefix).toList ++
    ((e.filter.bind XmlFilter.and).bind XmlAnd.keyPrefix).toList

def RuleElement.tags (e : RuleElement) : List XmlTag :=
  (e.filter.bind XmlFilter.tag).toList ++
    ((e.filter.bind XmlFilter.and).map XmlAnd.tags).getD []

inductive RuleStatus where
  | enabled
  | disabled
  deriving DecidableEq

inductive LifecycleFilter where
  | keyPrefix (value : String)
  | tag (key value : String)
  | and (keyPrefix : Option String) (tags : List (String × String))
  | empty
  deriving DecidableEq

inductive Expiration where
  | days (days : Nat)
  | date (date : String)
  | expiredObjectDeleteMarker (flag : Bool)
  deriving DecidableEq

structure NoncurrentVersionExpiration where
  noncurrentDays : Nat
  newerNoncurrentVersions : Option Nat
  deriving DecidableEq

structure LifecycleRule where
  id : String
  status : RuleStatus
  filter : LifecycleFilter
  expiration : Option Expiration
  noncurrentVersionExpiration : Option NoncurrentVersionExpiration
  abortDaysAfterInitiation : Option Nat
  deriving DecidableEq

/-- The prefix that the worker asks for. -/
def LifecycleFilter.requiredPrefix : LifecycleFilter → Option String
  | keyPrefix p | and (some p) _ => if p = "" then none else some p
  | and none _ | tag .. | empty => none

def LifecycleFilter.requiredTags : LifecycleFilter → List (String × String)
  | tag key value => [(key, value)]
  | and _ tags => tags
  | keyPrefix _ | empty => []

def malformed (message : String) : S3Error := .withMessage .malformedXML message []

def invalid (message : String) : S3Error := .withMessage .invalidArgument message []

def parseStatus (status : String) : Except S3Error RuleStatus :=
  if status = "Enabled" then .ok .enabled
  else if status = "Disabled" then .ok .disabled
  else .error (malformed
    ("Invalid rule status: " ++ status ++ ". Must be 'Enabled' or 'Disabled'"))

/-- The first of `And`, `Tag` and `Prefix` that is there hides the others. -/
def parseFilter : Option XmlFilter → LifecycleFilter
  | none => .empty
  | some ⟨_, _, some and⟩ => .and and.keyPrefix (and.tags.map fun t => (t.key, t.value))
  | some ⟨_, some tag, none⟩ => .tag tag.key tag.value
  | some ⟨some p, none, none⟩ => if p = "" then .empty else .keyPrefix p
  | some ⟨none, none, none⟩ => .empty

def parseExpiration : Option XmlExpiration → Except S3Error (Option Expiration)
  | none => .ok none
  | some ⟨some days, _, _⟩ => .ok (some (.days days))
  | some ⟨none, some date, _⟩ => .ok (some (.date date))
  | some ⟨none, none, some flag⟩ =>
    .ok (some (.expiredObjectDeleteMarker (Text.lower flag.toList = "true".toList)))
  | some ⟨none, none, none⟩ => .error (malformed
      "Expiration element must contain Days, Date, or ExpiredObjectDeleteMarker")

def parseNoncurrent : Option XmlNoncurrentVersionExpiration →
    Except S3Error (Option NoncurrentVersionExpiration)
  | none => .ok none
  | some ⟨none, none⟩ => .error (malformed
      "NoncurrentVersionExpiration must contain NoncurrentDays or NewerNoncurrentVersions")
  | some ⟨days, newer⟩ => .ok (some ⟨days.getD 0, newer⟩)

def parseAbort : Option XmlAbortIncompleteMultipartUpload → Except S3Error (Option Nat)
  | none => .ok none
  | some ⟨some days⟩ => .ok (some days)
  | some ⟨none⟩ => .error (malformed
      "AbortIncompleteMultipartUpload must contain DaysAfterInitiation")

def parseRule (x : XmlRule) : Except S3Error LifecycleRule := do
  let status ← parseStatus x.status
  let expiration ← parseExpiration x.expiration
  let noncurrent ← parseNoncurrent x.noncurrentVersionExpiration
  let abort ← parseAbort x.abortIncompleteMultipartUpload
  pure ⟨x.id.getD "", status, parseFilter x.filter, expiration, noncurrent, abort⟩

def parseRules : List XmlRule → Except S3Error (List LifecycleRule)
  | [] => .ok []
  | x :: xs => do
      let rule ← parseRule x
      let rules ← parseRules xs
      pure (rule :: rules)

/-- A call that comes back with an error, or not at all. -/
inductive Failure where
  | refused (error : S3Error)
  | panic
  deriving DecidableEq

/-- The first `n` bytes of a text, when they end with a character. -/
def takeBytes : Nat → Text → Option Text
  | 0, _ => some []
  | _ + 1, [] => none
  | n + 1, c :: text =>
    if c.utf8Size ≤ n + 1 then (takeBytes (n + 1 - c.utf8Size) text).map (c :: ·) else none

def sliceTo (n : Nat) (s : String) : Except Failure String :=
  match takeBytes n s.toList with
  | some text => .ok (String.ofList text)
  | none => .error .panic

/-- The rules before are known by their ids. -/
def validateRule (seen : List String) (r : LifecycleRule) : Except Failure Unit :=
  if r.expiration.isNone && r.noncurrentVersionExpiration.isNone && r.abortDaysAfterInitiation.isNone then
    .error (.refused (invalid ("Rule '" ++ r.id ++ "' must have at least one action (Expiration, " ++
      "NoncurrentVersionExpiration, or AbortIncompleteMultipartUpload)")))
  else if r.expiration = some (.days 0) then
    .error (.refused (invalid "'Days' in Expiration must be a positive integer"))
  else if r.noncurrentVersionExpiration.any (·.noncurrentDays = 0) then
    .error (.refused (invalid
      "'NoncurrentDays' in NoncurrentVersionExpiration must be a positive integer"))
  else if r.abortDaysAfterInitiation = some 0 then
    .error (.refused (invalid
      "'DaysAfterInitiation' in AbortIncompleteMultipartUpload must be a positive integer"))
  else if 255 < r.id.utf8ByteSize then do
    let start ← sliceTo 50 r.id
    .error (.refused (invalid
      ("Rule ID '" ++ start ++ "...' exceeds maximum length of 255 characters")))
  else if r.id ≠ "" && r.id ∈ seen then
    .error (.refused (invalid ("Duplicate rule ID: '" ++ r.id ++ "'")))
  else .ok ()

def validateRules (seen : List String) : List LifecycleRule → Except Failure Unit
  | [] => .ok ()
  | r :: rules => do
      validateRule seen r
      validateRules (r.id :: seen) rules

def validateLifecycleConfiguration (rules : List LifecycleRule) : Except Failure Unit :=
  if rules.isEmpty then
    .error (.refused (malformed "Lifecycle configuration must contain at least one rule"))
  else if 1000 < rules.length then
    .error (.refused (malformed "Lifecycle configuration cannot have more than 1000 rules"))
  else validateRules [] rules

def parseLifecycleConfiguration (rules : List XmlRule) : Except Failure (List LifecycleRule) := do
  let rules ← (parseRules rules).mapError .refused
  validateLifecycleConfiguration rules
  pure rules

variable {xs : List XmlRule} {rules : List LifecycleRule}

lemma forall₂_of_parseRules
    (h : parseRules xs = .ok rules) : List.Forall₂ (fun x rule => parseRule x = .ok rule) xs rules := by
  induction xs generalizing rules with
  | nil =>
    cases h
    exact .nil
  | cons x xs ih =>
    obtain ⟨rule, first, h⟩ := bind_eq_ok h
    obtain ⟨rest, others, h⟩ := bind_eq_ok h
    cases h
    exact .cons first (ih others)

lemma forall₂_of_parse
    (h : parseLifecycleConfiguration xs = .ok rules) :
    List.Forall₂ (fun x rule => parseRule x = .ok rule) xs rules := by
  obtain ⟨parsed, first, h⟩ := bind_eq_ok h
  obtain ⟨-, -, h⟩ := bind_eq_ok h
  cases h
  cases read : parseRules xs with
  | error => rw [read] at first; cases first
  | ok =>
    rw [read] at first
    cases first
    exact forall₂_of_parseRules read

structure Parsed (x : XmlRule) (rule : LifecycleRule) : Prop where
  status : parseStatus x.status = .ok rule.status
  filter : rule.filter = parseFilter x.filter
  expiration : parseExpiration x.expiration = .ok rule.expiration
  noncurrent : parseNoncurrent x.noncurrentVersionExpiration = .ok rule.noncurrentVersionExpiration

lemma parsed_of_parseRule {x : XmlRule} {rule : LifecycleRule} (h : parseRule x = .ok rule) :
    Parsed x rule := by
  obtain ⟨status, first, h⟩ := bind_eq_ok h
  obtain ⟨expiration, second, h⟩ := bind_eq_ok h
  obtain ⟨noncurrent, third, h⟩ := bind_eq_ok h
  obtain ⟨abort, -, h⟩ := bind_eq_ok h
  cases h
  exact ⟨first, rfl, second, third⟩

end Arca.Lifecycle
