import Arca.Handlers.Dispatch
import Arca.Security.ResourceAgreement

/-!
# The action that is authorised and the operation that runs

The middleware looks for `encryption`, `location` and `delete` anywhere in the query;
the handlers look at decoded keys, at the beginning of the query or at other words in
it.
-/
namespace Arca.Security
open Auth Http Handlers List Option BucketConfig

def ownAction : Operation → Option Action
  | .listBuckets => some .listAllMyBuckets
  | .headBucket | .listObjectsV2 | .listObjectsV1 => some .listBucket
  | .createBucket => some .createBucket
  | .deleteBucket => some .deleteBucket
  | .getBucketLocation => some .getBucketLocation
  | .getBucketConfig .encryption => some .getBucketEncryption
  | .putBucketConfig .encryption => some .putBucketEncryption
  | .deleteBucketConfig .encryption => some .deleteBucketEncryption
  | .getBucketConfig .objectLock => some .getBucketObjectLockConfiguration
  | .putBucketConfig .objectLock => some .putBucketObjectLockConfiguration
  | .getObject | .headObject => some .getObject
  | .putObject | .copyObject | .uploadPart | .uploadPartCopy | .createMultipartUpload
  | .completeMultipartUpload => some .putObject
  | .deleteObject | .deleteObjects => some .deleteObject
  | .getObjectConfig .retention => some .getObjectRetention
  | .putObjectConfig .retention => some .putObjectRetention
  | .getObjectConfig .legalHold => some .getObjectLegalHold
  | .putObjectConfig .legalHold => some .putObjectLegalHold
  | _ => none

/-- An operation runs under its own action, if it has one. -/
def Authorizes (action : Action) (op : Operation) : Prop := ∀ own ∈ ownAction op, own = action

instance (action : Action) (op : Operation) : Decidable (Authorizes action op) :=
  inferInstanceAs (Decidable (∀ _ ∈ _, _))

section table
variable (pairs : List (Text × Text)) (query : Text)

def encryptionIn : Bool := query.contains "encryption".toList

def locationIn : Bool := query.contains "location".toList

/-- The subresources of a bucket's GET whose operations have no action of their own,
in the places where `get_bucket` tries them. -/
def silentBeforeLock : List Text :=
  [compression, .tagging, .lifecycle, .replication].map name

def silentAfterLock : List Text :=
  notification.name :: unimplementedGetOps ++
    [versioning.name, "uploads".toList, "versions".toList]

def getBucketAgrees : Bool :=
  if hasKey pairs "location".toList then !encryptionIn query && locationIn query
  else if hasKey pairs encryption.name then encryptionIn query
  else if silentBeforeLock.any (hasKey pairs) then true
  else if hasKey pairs objectLock.name then false
  else if silentAfterLock.any (hasKey pairs) then true
  else match firstParam pairs "list-type".toList with
    | some version => version ≠ "2".toList || (!encryptionIn query && !locationIn query)
    | none => !encryptionIn query && !locationIn query

def putBucketAgrees : Bool :=
  if objectLock.name.isPrefixOf query then false
  else (putConfigs.map name ++ unimplementedPutOps).any (·.isPrefixOf query) ||
    !encryptionIn query

def deleteBucketAgrees : Bool :=
  (deleteConfigs.map name).any (·.isPrefixOf query) || !encryptionIn query

/-- Retention and legal hold have actions of their own, which are never evaluated. -/
def objectAgrees : Bool :=
  query.contains ObjectConfig.tagging.name ||
    (!query.contains ObjectConfig.retention.name && !query.contains ObjectConfig.legalHold.name)

end table

/-- The queries for which the evaluated action is that of the operation. -/
def actionAgrees (P : Primitives) (target : Target) (method : Method) (query : Text) : Bool :=
  match target, method with
  | .bucket _, .get => getBucketAgrees (queryPairs P query) query
  | .bucket _, .head => !encryptionIn query && !locationIn query
  | .bucket _, .put => putBucketAgrees query
  | .bucket _, .delete => deleteBucketAgrees query
  | .object _ _, .get | .object _ _, .put => objectAgrees query
  | _, _ => true

lemma contains_of_isPrefixOf {word query : Text} (h : word.isPrefixOf query = true) :
    query.contains word = true :=
  decide_eq_true ( isPrefixOf_iff_prefix.mp h).isInfix

lemma not_isPrefixOf_of_isPrefixOf {word other query : Text} (h : word.isPrefixOf query = true)
    (apart : word.isPrefixOf other = false ∧ other.isPrefixOf word = false) :
    other.isPrefixOf query = false := by
  by_contra begins
  rw [Bool.not_eq_false] at begins
  obtain left | right := prefix_or_prefix_of_prefix ( isPrefixOf_iff_prefix.mp h)
    ( isPrefixOf_iff_prefix.mp begins)
  · rw [ isPrefixOf_iff_prefix.mpr left] at apart
    exact absurd apart.1 (by simp)
  · rw [ isPrefixOf_iff_prefix.mpr right] at apart
    exact absurd apart.2 (by simp)

lemma contains_of_namesSubresource {query name : Text} (h : namesSubresource query name = true) :
    query.contains name = true := by
  apply decide_eq_true
  simp only [namesSubresource, Bool.or_eq_true, decide_eq_true_eq] at h
  obtain (((rfl | rfl) | start) | start) | inside := h
  · exact infix_rfl
  · exact (prefix_append ..).isInfix
  · exact ((prefix_append ..).trans ( isPrefixOf_iff_prefix.mp start)).isInfix
  · exact ((prefix_append ..).trans ( isPrefixOf_iff_prefix.mp start)).isInfix
  · exact (suffix_cons ..).isInfix.trans (of_decide_eq_true inside)

section handlers
variable {pairs : List (Text × Text)} {query : Text}

lemma bucketAction_get (query : Text) : bucketAction .get query =
    if encryptionIn query then .getBucketEncryption
    else if locationIn query then .getBucketLocation else .listBucket := rfl

lemma authorizes_listing_iff {op : Operation} (listing : ownAction op = some .listBucket) :
    Authorizes (bucketAction .get query) op ↔ (!encryptionIn query && !locationIn query) = true := by
  rw [Authorizes, bucketAction_get, listing]
  cases encryptionIn query <;> cases locationIn query <;> simp

lemma authorizes_of_silent {action : Action} {op : Operation} (silent : ownAction op = none) :
    Authorizes action op := by
  rw [Authorizes, silent]
  simp

lemma getBucket_authorized_iff :
    Authorizes (bucketAction .get query) (getBucket pairs) ↔ getBucketAgrees pairs query = true := by
  unfold getBucket getBucketAgrees
  by_cases location : hasKey pairs "location".toList = true
  · simp only [location, if_true, Authorizes, ownAction, bucketAction_get]
    cases encryptionIn query <;> cases locationIn query <;> simp
  by_cases encryption : hasKey pairs encryption.name = true
  · simp only [location, encryption, if_true, if_false, getConfigs, find?_cons, Authorizes, ownAction,
      bucketAction_get, Bool.false_eq_true]
    cases encryptionIn query <;> cases locationIn query <;> simp
  simp only [location, encryption, if_false, getConfigs, find?_cons, silentBeforeLock, map_cons,
    map_nil, any_cons, any_nil, Bool.or_false, Bool.false_eq_true]
  cases compression : hasKey pairs compression.name
  case true => exact iff_of_true (authorizes_of_silent rfl) rfl
  cases tagging : hasKey pairs tagging.name
  case true => exact iff_of_true (authorizes_of_silent rfl) rfl
  cases lifecycle : hasKey pairs lifecycle.name
  case true => exact iff_of_true (authorizes_of_silent rfl) rfl
  cases replication : hasKey pairs replication.name
  case true => exact iff_of_true (authorizes_of_silent rfl) rfl
  cases lock : hasKey pairs objectLock.name
  case true =>
    simp only [Authorizes, ownAction, bucketAction_get]
    cases encryptionIn query <;> cases locationIn query <;> simp
  simp only [Bool.or_false, Bool.false_eq_true, if_false, silentAfterLock, any_cons, any_append,
    cons_append, any_nil]
  cases notification : hasKey pairs notification.name
  case true => exact iff_of_true (authorizes_of_silent rfl) rfl
  cases unimplemented : unimplementedGetOps.any (hasKey pairs)
  case true => exact iff_of_true (authorizes_of_silent rfl) rfl
  cases versioning : hasKey pairs versioning.name
  case true => exact iff_of_true (authorizes_of_silent rfl) rfl
  cases uploads : hasKey pairs "uploads".toList
  case true => exact iff_of_true (authorizes_of_silent rfl) rfl
  cases versions : hasKey pairs "versions".toList
  case true => exact iff_of_true (authorizes_of_silent rfl) rfl
  simp only [Bool.or_false, Bool.false_eq_true, if_false, listObjects]
  cases firstParam pairs "list-type".toList with
  | none => exact authorizes_listing_iff rfl
  | some version =>
    by_cases two : version = "2".toList
    · simp only [two, if_true, ne_eq, not_true_eq_false, decide_false, Bool.false_or]
      exact authorizes_listing_iff rfl
    · simp only [two, if_false, ne_eq, not_false_eq_true, decide_true, Bool.true_or]
      exact iff_of_true (authorizes_of_silent rfl) trivial

-- an escaped key selects the operation but not the action
example : getBucketAgrees [("location".toList, [])] "%6Cocation".toList = false := by decide +kernel

lemma any_begins (configs : List BucketConfig) : configs.any ((·.isPrefixOf query) ∘ name) =
    (configs.find? (·.name.isPrefixOf query)).isSome := isSome_find?.symm

lemma createBucket_authorized_iff :
    Authorizes (bucketAction .put query) (createBucket query) ↔ putBucketAgrees query = true := by
  have evaluated : bucketAction .put query =
      if encryptionIn query then .putBucketEncryption else .createBucket := rfl
  unfold createBucket putBucketAgrees
  by_cases lock : objectLock.name.isPrefixOf query = true
  · -- no other configuration is tried with success before this one
    have others : ∀ config ∈ putConfigs, config ≠ .objectLock → config.name.isPrefixOf query = false := by
      intro config _ other
      apply not_isPrefixOf_of_isPrefixOf lock
      revert other
      cases config <;> decide
    have found : putConfigs.find? (·.name.isPrefixOf query) = some .objectLock := by
      simp [putConfigs, lock, others .encryption (by decide) (by decide),
        others .compression (by decide) (by decide), others .versioning (by decide) (by decide),
        others .tagging (by decide) (by decide), others .replication (by decide) (by decide),
        others .lifecycle (by decide) (by decide)]
    simp only [found, lock, if_true, Authorizes, ownAction, evaluated]
    cases encryptionIn query <;> simp
  · simp only [lock, Bool.false_eq_true, if_false, List.any_append, List.any_map, any_begins]
    cases found : putConfigs.find? (·.name.isPrefixOf query) with
    | some config =>
      have begins := find?_some found
      simp only [isSome_some, Bool.true_or, iff_true]
      -- of the others only encryption has an action of its own
      cases config with
      | encryption =>
        have inside : encryptionIn query = true := contains_of_isPrefixOf begins
        simp [Authorizes, ownAction, evaluated, inside]
      | objectLock => exact absurd begins lock
      | _ => exact authorizes_of_silent rfl
    | none =>
      cases unimplementedPutOps.any (·.isPrefixOf query)
      · simp only [Bool.false_eq_true, if_false, Authorizes, ownAction, evaluated]
        cases encryptionIn query <;> simp
      · exact iff_of_true (authorizes_of_silent rfl) rfl

lemma deleteBucket_authorized_iff :
    Authorizes (bucketAction .delete query) (deleteBucket query) ↔ deleteBucketAgrees query = true := by
  have evaluated : bucketAction .delete query =
      if encryptionIn query then .deleteBucketEncryption else .deleteBucket := rfl
  unfold deleteBucket deleteBucketAgrees
  rw [List.any_map, any_begins]
  cases found : deleteConfigs.find? (·.name.isPrefixOf query) with
  | some config =>
    have begins := find?_some found
    simp only [isSome_some, Bool.true_or, iff_true]
    cases config with
    | encryption =>
      have inside : encryptionIn query = true := contains_of_isPrefixOf begins
      simp [Authorizes, ownAction, evaluated, inside]
    | _ => exact authorizes_of_silent rfl
  | none =>
    simp only [isSome_none, Bool.false_or, Authorizes, ownAction, evaluated]
    cases encryptionIn query <;> simp

/-- A POST that deletes objects is always evaluated as a deletion. -/
lemma postBucket_authorized : Authorizes (bucketAction .post query) (postBucket query) := by
  unfold postBucket
  split
  · next named =>
      have inside : query.contains "delete".toList = true := contains_of_namesSubresource named
      simp only [Authorizes, ownAction, bucketAction, inside, if_true]
      simp
  · exact authorizes_of_silent rfl

lemma getObject_authorized_iff :
    Authorizes .getObject (Handlers.getObject query) ↔ objectAgrees query = true := by
  unfold Handlers.getObject objectAgrees
  cases query.contains ObjectConfig.tagging.name
  case true => exact iff_of_true (authorizes_of_silent rfl) rfl
  cases query.contains ObjectConfig.retention.name
  case true => simp [Authorizes, ownAction]
  cases query.contains ObjectConfig.legalHold.name
  case true => simp [Authorizes, ownAction]
  cases query.contains "uploadId".toList
  case true => exact iff_of_true (authorizes_of_silent rfl) rfl
  cases query.contains "attributes".toList
  case true => exact iff_of_true (authorizes_of_silent rfl) rfl
  simp [Authorizes, ownAction]

lemma putContent_authorized (copySource : Bool) : Authorizes .putObject (putContent pairs copySource) := by
  unfold putContent
  split
  · split
    · exact authorizes_of_silent rfl
    · split <;> simp [Authorizes, ownAction]
  · split <;> simp [Authorizes, ownAction]

lemma putObject_authorized_iff (copySource : Bool) :
    Authorizes .putObject (Handlers.putObject query pairs copySource) ↔ objectAgrees query = true := by
  unfold Handlers.putObject objectAgrees
  cases query.contains ObjectConfig.tagging.name
  case true => exact iff_of_true (authorizes_of_silent rfl) rfl
  cases query.contains ObjectConfig.retention.name
  case true => simp [Authorizes, ownAction]
  cases query.contains ObjectConfig.legalHold.name
  case true => simp [Authorizes, ownAction]
  exact iff_of_true (putContent_authorized copySource) rfl

lemma deleteObject_authorized : Authorizes .deleteObject (Handlers.deleteObject query pairs) := by
  unfold Handlers.deleteObject
  split
  · exact authorizes_of_silent rfl
  · split
    · exact authorizes_of_silent rfl
    · simp [Authorizes, ownAction]

lemma postObject_authorized : Authorizes .putObject (Handlers.postObject query pairs) := by
  unfold Handlers.postObject
  split
  · simp [Authorizes, ownAction]
  · split
    · simp [Authorizes, ownAction]
    · exact authorizes_of_silent rfl

end handlers

/-- One comparison of the two classifiers, over every method and query. -/
lemma dispatch_authorized_iff {P : Primitives} {target : Target} {method : Method} {query : Text}
    {copySource : Bool} {op : Operation} (selected : dispatch P target method query copySource = some op) :
    Authorizes (determineAction method query target) op ↔
      actionAgrees P target method query = true := by
  cases target with
  | service =>
    have only : op = .listBuckets := by
      simp only [dispatch] at selected
      split at selected
      · exact (some.inj selected).symm
      · cases selected
    subst only
    simp [Authorizes, ownAction, determineAction, actionAgrees]
  | bucket b =>
    cases method with
    | get =>
      obtain rfl := some.inj selected
      exact getBucket_authorized_iff
    | head =>
      obtain rfl := some.inj selected
      exact authorizes_listing_iff rfl
    | put =>
      obtain rfl := some.inj selected
      exact createBucket_authorized_iff
    | delete =>
      obtain rfl := some.inj selected
      exact deleteBucket_authorized_iff
    | post =>
      obtain rfl := some.inj selected
      exact iff_of_true postBucket_authorized rfl
    | other name => cases selected
  | object b k =>
    cases method with
    | get =>
      obtain rfl := some.inj selected
      exact getObject_authorized_iff
    | head =>
      obtain rfl := some.inj selected
      exact iff_of_true (by simp [Authorizes, ownAction, determineAction, objectAction]) rfl
    | put =>
      obtain rfl := some.inj selected
      exact putObject_authorized_iff copySource
    | delete =>
      obtain rfl := some.inj selected
      exact iff_of_true deleteObject_authorized rfl
    | post =>
      obtain rfl := some.inj selected
      exact iff_of_true postObject_authorized rfl
    | other name => cases selected

def SameKind : Target → Target → Prop
  | .service, .service => True
  | .bucket _, .bucket _ => True
  | .object _ _, .object _ _ => True
  | _, _ => False

variable {raw t : Target}

lemma sameKind_of_decode (h : raw.decode = some t) : SameKind raw t := by
  cases raw with
  | service =>
    obtain rfl := some.inj h
    trivial
  | bucket b =>
    obtain ⟨b', -, rfl⟩ := map_eq_some_iff.mp h
    trivial
  | object b k =>
    obtain ⟨b', -, rest⟩ := bind_eq_some_iff.mp h
    obtain ⟨k', -, rfl⟩ := map_eq_some_iff.mp rest
    trivial

lemma dispatch_of_sameKind (h : SameKind raw t) (P : Primitives) (method : Method)
    (query : Text) (copySource : Bool) :
    dispatch P raw method query copySource = dispatch P t method query copySource := by
  cases raw <;> cases t <;> first | rfl | cases h

def photosBucket : Target := .bucket "photos".toList

def photosArn : Text := "arn:aws:s3:::photos".toList

def bucketUri : Uri :=
  { plainKey with path := "/photos".toList, rooted := by decide, unmarked := by decide }

def plainDelete : Request := tenantRequest .delete bucketUri [localhost] []

def plainDeleteServed : Served :=
  tenantServed (allowExcept []) plainDelete photosBucket .deleteBucket photosArn

def hiddenDelete : Uri :=
  ⟨"/photos".toList, some "x=encryption".toList, none, by decide, by decide, by decide⟩

def encryptionOnly : List PolicyDocument :=
  [⟨[⟨.allow, [Action.deleteBucketEncryption.name], ["*".toList]⟩]⟩]

end Arca.Security
