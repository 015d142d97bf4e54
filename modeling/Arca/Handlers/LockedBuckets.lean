import Arca.Handlers.ObjectLock

/-!
# Buckets with Object Lock

The `object_lock` and `versioning` settings of a bucket are two rows, and each of the
three requests that write them reads or writes one row at a time, between which any
other request can go.
-/
namespace Arca
open List

def looksLikeIp (name : Text) : Bool :=
  let parts := name.splitOn '.'
  parts.length = 4 && parts.all fun p => !p.isEmpty && p.length ≤ 3 && p.all Char.isDigit

def isNameEnd (c : Char) : Bool := c.isLower || c.isDigit

/-- Lengths count bytes; a name beyond ASCII is refused whatever its length. -/
def validateBucketName (name : Text) : Except S3Error Unit :=
  let size := (Text.toUtf8 name).length
  if 3 ≤ size && size ≤ 63 && name.head?.all isNameEnd && name.getLast?.all isNameEnd &&
      name.all (fun c => isNameEnd c || c = '-' || c = '.') &&
      !(Text.contains name "..".toList || Text.contains name ".-".toList ||
        Text.contains name "-.".toList) &&
      !looksLikeIp name && !"xn--".toList.isPrefixOf name &&
      !("-s3alias".toList.isSuffixOf name || "--ol-s3".toList.isSuffixOf name) then
    .ok ()
  else .error ⟨.invalidBucketName, "Invalid bucket name: ".toList ++ name, '/' :: name⟩

def splitOnceAt (part : Text) : Text → Option (Text × Text)
  | [] => if part.isEmpty then some ([], []) else none
  | c :: t =>
    match Text.stripPrefix part (c :: t) with
    | some after => some ([], after)
    | none => (splitOnceAt part t).map fun (before, after) => (c :: before, after)

def parseVersioningStatus (xml : Text) : Option Text := do
  let (_, rest) ← splitOnceAt "<Status>".toList xml
  let (status, _) ← splitOnceAt "</Status>".toList rest
  pure (Text.trim status)

namespace Buckets

structure Settings where
  owners : String → Option String
  objectLock : String → Option ObjectLockConfiguration
  versioning : String → Option String
  occupied : String → Bool

abbrev Reply := Except S3Error Unit

/-- What a request is about to ask the store. The body of a lock configuration is
given by what reading and deserializing it yields. -/
inductive Request where
  | createBucket (bucket owner : String) (lockHeader : Option Text)
  | lockNew (bucket : String)
  | enableNew (bucket : String)
  | putBucketVersioning (bucket : String) (body : Bytes)
  | checkLock (bucket : String)
  | storeVersioning (bucket status : String)
  | putObjectLock (bucket : String) (body : Except S3Error XmlLockConfiguration)
  | readLock (bucket : String) (body : Except S3Error XmlLockConfiguration)
  | checkEmpty (bucket : String) (body : Except S3Error XmlLockConfiguration)
  | readVersioning (bucket : String) (config : ObjectLockConfiguration)
  | enableFirst (bucket : String) (config : ObjectLockConfiguration)
  | storeLock (bucket : String) (config : ObjectLockConfiguration)
  | answered (reply : Reply)
  deriving DecidableEq

variable (bucket : String)

def resource : Text := '/' :: bucket.toList

def Request.internal : Request :=
  .answered (.error (.new .internalError (resource bucket)))

def Request.refuse (code : S3ErrorCode) (message bucket : String) : Request :=
  .answered (.error (.withMessage code message (resource bucket)))

def lockRequested (header : Option Text) : Bool :=
  header.any fun v => Text.lower v = "true".toList

section
variable (s : Settings)

def Settings.head (bucket : String) (ok : Bool) (next : Request) : Request :=
  if !ok then .internal bucket
  else if (s.owners bucket).isNone then .answered (.error (.new .noSuchBucket (resource bucket)))
  else next

/-- The body of `PutBucketVersioning` after the bucket was found. -/
def Request.afterVersioningBody (body : Bytes) : Request :=
  if 65536 < body.length then
    refuse .invalidArgument "Request body too large or invalid" bucket
  else match Text.fromUtf8 body with
  | none => refuse .invalidArgument "Request body is not valid UTF-8" bucket
  | some xml =>
    if parseVersioningStatus xml = some "Enabled".toList then storeVersioning bucket "Enabled"
    else if parseVersioningStatus xml = some "Suspended".toList then checkLock bucket
    else refuse .malformedXML
      "Invalid or missing Status element (expected Enabled or Suspended)" bucket

def Request.afterLockBody (body : Except S3Error XmlLockConfiguration) : Request :=
  match body >>= parseObjectLockConfiguration with
  | .error e => .answered (.error e)
  | .ok config => readVersioning bucket config

def Settings.lock (bucket : String) (config : ObjectLockConfiguration) : Settings :=
  { s with objectLock := Function.update s.objectLock bucket (some config) }

def Settings.setVersioning (bucket status : String) : Settings :=
  { s with versioning := Function.update s.versioning bucket (some status) }

def Settings.create (bucket owner : String) (lockHeader : Option Text) (ok : Bool) :
    Settings × Request :=
  match validateBucketName bucket.toList with
  | .error e => (s, .answered (.error e))
  | .ok () =>
    if !ok then (s, .internal bucket)
    else if (s.owners bucket).isSome then (s, .answered (.ok ()))
    else ({ s with owners := Function.update s.owners bucket (some owner) },
      if lockRequested lockHeader then .lockNew bucket else .answered (.ok ()))

/-- The next operation of the store, which fails unless `ok`. -/
def Request.next (ok : Bool) : Request → Settings × Request
  | createBucket bucket owner lockHeader => s.create bucket owner lockHeader ok
  -- neither write of a new bucket reports its failure
  | lockNew bucket => (if ok then s.lock bucket ⟨true, none⟩ else s, enableNew bucket)
  | enableNew bucket =>
    (if ok then s.setVersioning bucket "Enabled" else s, answered (.ok ()))
  | putBucketVersioning bucket body => (s, s.head bucket ok (afterVersioningBody bucket body))
  -- a read that fails counts as no lock
  | checkLock bucket =>
    (s, if ok && (s.objectLock bucket).isSome then
        refuse .invalidBucketState
          "Cannot suspend versioning on a bucket with Object Lock enabled" bucket
      else storeVersioning bucket "Suspended")
  | storeVersioning bucket status =>
    if ok then (s.setVersioning bucket status, answered (.ok ())) else (s, internal bucket)
  | putObjectLock bucket body => (s, s.head bucket ok (readLock bucket body))
  | readLock bucket body =>
    (s, if ok && (s.objectLock bucket).isSome then afterLockBody bucket body
      else checkEmpty bucket body)
  | checkEmpty bucket body =>
    (s, if !ok then internal bucket
      else if s.occupied bucket then
        refuse .invalidBucketState ("Object Lock configuration can only be enabled on empty " ++
          "buckets or at bucket creation") bucket
      else afterLockBody bucket body)
  | readVersioning bucket config =>
    (s, if ok && s.versioning bucket = some "Enabled" then storeLock bucket config
      else enableFirst bucket config)
  | enableFirst bucket config =>
    if ok then (s.setVersioning bucket "Enabled", storeLock bucket config) else (s, internal bucket)
  | storeLock bucket config =>
    if ok then (s.lock bucket config, answered (.ok ())) else (s, internal bucket)
  | answered reply => (s, answered reply)

structure Node where
  settings : Settings
  requests : List Request

inductive Event where
  | arrive (request : Request)
  | advance (i : Nat) (ok : Bool)
  | objects (bucket : String) (occupied : Bool)

def Request.isCall : Request → Bool
  | createBucket .. | putBucketVersioning .. | putObjectLock .. => true
  | _ => false

def step (n : Node) : Event → Node
  | .arrive request => if request.isCall then { n with requests := n.requests ++ [request] } else n
  | .advance i ok =>
    match n.requests[i]? with
    | none => n
    | some request =>
      let (settings, next) := request.next n.settings ok
      ⟨settings, n.requests.set i next⟩
  | .objects bucket occupied =>
    { n with settings := { n.settings with
        occupied := Function.update n.settings.occupied bucket occupied } }

lemma step_advance {n : Node} {i : Nat} {request : Request} (here : n.requests[i]? = some request)
    (ok : Bool) : step n (.advance i ok) =
      ⟨(request.next n.settings ok).1, n.requests.set i (request.next n.settings ok).2⟩ := by
  simp [step, here]

def Quiescent (n : Node) : Prop := ∀ r ∈ n.requests, ∃ reply, r = .answered reply

def LockedAreVersioned (n : Node) : Prop :=
  ∀ b, (n.settings.objectLock b).isSome → n.settings.versioning b = some "Enabled"

/-- The request is a `CreateBucket` with its versioning row still to write. -/
def Request.willEnable : Request → Bool
  | lockNew b | enableNew b => b = bucket
  | _ => false

def Awaited (n : Node) (i : Nat) (bucket : String) : Prop :=
  ∃ k request, k ≠ i ∧ n.requests[k]? = some request ∧ request.willEnable bucket

def Covered (bucket : String) (waits : Prop) : Prop :=
  (s.objectLock bucket).isSome → s.versioning bucket = some "Enabled" ∨ waits

end

/-- A locked bucket has versioning, or is about to get it. -/
def Expected (n : Node) : Prop :=
  ∀ b, Covered n.settings b (∃ r ∈ n.requests, r.willEnable b)

/-- The write finds the other row as it should be, or that row is still to come. -/
def Request.Ordered (n : Node) (i : Nat) (ok : Bool) : Request → Prop
  | enableNew b => ok = false → Covered n.settings b (Awaited n i b)
  | storeVersioning b status =>
    ok = true → (n.settings.objectLock b).isSome → status = "Enabled" ∨ Awaited n i b
  | storeLock b _ => ok = true → n.settings.versioning b = some "Enabled" ∨ Awaited n i b
  | _ => True

def Ordered (n : Node) : Event → Prop
  | .advance i ok => ∀ request, n.requests[i]? = some request → request.Ordered n i ok
  | _ => True

variable {n : Node} {i : Nat} {request : Request}

section
variable (here : n.requests[i]? = some request)
include here

lemma exists_mem_set_iff (next : Request) (b : String) :
    (∃ r ∈ n.requests.set i next, r.willEnable b) ↔ next.willEnable b ∨ Awaited n i b := by
  have inside : i < n.requests.length := (List.getElem?_eq_some_iff.mp here).1
  simp only [mem_iff_getElem?, getElem?_set]
  constructor
  · rintro ⟨r, ⟨k, at_k⟩, will⟩
    by_cases same : i = k
    · rw [if_pos same, if_pos (same ▸ inside)] at at_k
      cases at_k
      exact .inl will
    · rw [if_neg same] at at_k
      exact .inr ⟨k, r, Ne.symm same, at_k, will⟩
  · rintro (will | ⟨k, r, other, at_k, will⟩)
    · exact ⟨next, ⟨i, by simp [inside]⟩, will⟩
    · exact ⟨r, ⟨k, by rw [if_neg (Ne.symm other), at_k]⟩, will⟩

lemma expected_iff :
    Expected n ↔ ∀ b, Covered n.settings b (request.willEnable b ∨ Awaited n i b) := by
  obtain ⟨inside, rfl⟩ := List.getElem?_eq_some_iff.mp here
  refine forall_congr' fun b => imp_congr_right fun _ => or_congr_right ?_
  rw [← exists_mem_set_iff here, set_getElem_self inside]

lemma expected_advance_iff (ok : Bool) :
    Expected (step n (.advance i ok)) ↔ ∀ b, Covered (request.next n.settings ok).1 b
      ((request.next n.settings ok).2.willEnable b ∨ Awaited n i b) := by
  rw [step_advance here]
  exact forall_congr' fun b => imp_congr_right fun _ => or_congr_right (exists_mem_set_iff here _ b)

end

def Request.isReader : Request → Bool
  | lockNew _ | enableNew _ | storeVersioning .. | enableFirst .. | storeLock .. => false
  | _ => true

lemma settings_create (s : Settings) (bucket owner : String) (lockHeader : Option Text) (ok : Bool) :
    (s.create bucket owner lockHeader ok).1.objectLock = s.objectLock ∧
      (s.create bucket owner lockHeader ok).1.versioning = s.versioning := by
  unfold Settings.create
  cases validateBucketName bucket.toList with
  | error => exact ⟨rfl, rfl⟩
  | ok =>
    split_ifs <;> exact ⟨rfl, rfl⟩

lemma settings_of_isReader (reads : request.isReader) (s : Settings) (ok : Bool) :
    (request.next s ok).1.objectLock = s.objectLock ∧
      (request.next s ok).1.versioning = s.versioning := by
  cases request with
  | createBucket bucket owner lockHeader => exact settings_create s bucket owner lockHeader ok
  | lockNew | enableNew | storeVersioning | enableFirst | storeLock => cases reads
  | _ => exact ⟨rfl, rfl⟩

lemma willEnable_of_isReader (reads : request.isReader) (b : String) :
    request.willEnable b = false := by
  cases request with
  | lockNew | enableNew => cases reads
  | _ => rfl

lemma ordered_of_isReader (reads : request.isReader) (ok : Bool) : request.Ordered n i ok := by
  cases request with
  | enableNew | storeVersioning | storeLock => cases reads
  | _ => trivial

variable {s s' : Settings}

lemma Covered.mono {b : String} {p q : Prop} (h : Covered s b p) (weaken : p → q) :
    Covered s b q :=
  fun locked => (h locked).imp_right weaken

lemma Covered.congr {b : String} {p : Prop} (h : Covered s b p)
    (lock : s'.objectLock b = s.objectLock b) (versioning : s'.versioning b = s.versioning b) :
    Covered s' b p := by
  unfold Covered
  rw [lock, versioning]
  exact h

lemma forall_covered_iff {p q : String → Prop} (bucket : String)
    (h : ∀ b, Covered s b (p b)) (other : ∀ b, b ≠ bucket →
      s'.objectLock b = s.objectLock b ∧ s'.versioning b = s.versioning b ∧ (p b → q b)) :
    (∀ b, Covered s' b (q b)) ↔ Covered s' bucket (q bucket) := by
  refine ⟨fun all => all bucket, fun here b => ?_⟩
  by_cases same : b = bucket
  · exact same ▸ here
  · obtain ⟨lock, versioning, weaken⟩ := other b same
    exact ((h b).mono weaken).congr lock versioning

lemma expected_of_isReader (h : Expected n) (here : n.requests[i]? = some request)
    (reads : request.isReader) (ok : Bool) : Expected (step n (.advance i ok)) := by
  rw [expected_advance_iff here]
  rw [expected_iff here] at h
  obtain ⟨lock, versioning⟩ := settings_of_isReader reads n.settings ok
  refine fun b => ((h b).mono fun waits => ?_).congr (congrFun lock b) (congrFun versioning b)
  exact .inr (waits.resolve_left (Bool.eq_false_iff.mp (willEnable_of_isReader reads b)))

lemma expected_advance (h : Expected n) (here : n.requests[i]? = some request) (ok : Bool) :
    Expected (step n (.advance i ok)) ↔ request.Ordered n i ok := by
  by_cases reads : request.isReader
  · exact iff_of_true (expected_of_isReader h here reads ok) (ordered_of_isReader reads ok)
  rw [expected_advance_iff here]
  rw [expected_iff here] at h
  cases request with
  | lockNew bucket =>
    refine iff_of_true ((forall_covered_iff bucket h fun b other => ?_).mpr ?_) trivial
    · cases ok <;> simp [Request.next, Settings.lock, Request.willEnable, other]
    · exact fun _ => .inr (.inl (by simp [Request.next, Request.willEnable]))
  | enableNew bucket =>
    rw [forall_covered_iff bucket h fun b other => ?_]
    · cases ok <;>
        simp [Request.next, Settings.setVersioning, Request.willEnable, Request.Ordered, Covered]
    · cases ok <;> simp [Request.next, Settings.setVersioning, Request.willEnable, other, Ne.symm other]
  | storeVersioning bucket status =>
    rw [forall_covered_iff bucket h fun b other => ?_]
    · cases ok with
      | true => simp [Request.next, Settings.setVersioning, Request.willEnable, Request.Ordered, Covered]
      | false => exact iff_of_true (h bucket) (fun wrote => nomatch wrote)
    · cases ok <;> simp [Request.next, Settings.setVersioning, Request.willEnable, Request.internal, other]
  | enableFirst bucket config =>
    refine iff_of_true ((forall_covered_iff bucket h fun b other => ?_).mpr ?_) trivial
    · cases ok <;> simp [Request.next, Settings.setVersioning, Request.willEnable, Request.internal, other]
    · cases ok with
      | true => exact fun _ => .inl (by simp [Request.next, Settings.setVersioning])
      | false => exact h bucket
  | storeLock bucket config =>
    rw [forall_covered_iff bucket h fun b other => ?_]
    · cases ok with
      | true => simp [Request.next, Settings.lock, Request.willEnable, Request.Ordered, Covered]
      | false => exact iff_of_true (h bucket) (fun wrote => nomatch wrote)
    · cases ok <;> simp [Request.next, Settings.lock, Request.willEnable, Request.internal, other]
  | _ => exact absurd rfl reads

section
variable (n : Node)

lemma expected_step (e : Event) (h : Expected n) :
    Expected (step n e) ↔ Ordered n e := by
  cases e with
  | arrive request =>
    refine iff_of_true ?_ trivial
    unfold step
    dsimp only
    split
    · exact fun b => (h b).mono fun ⟨r, mem, will⟩ => ⟨r, mem_append_left _ mem, will⟩
    · exact h
  | advance i ok =>
    cases here : n.requests[i]? with
    | none =>
      have unchanged : step n (.advance i ok) = n := by simp [step, here]
      rw [unchanged]
      exact iff_of_true h fun request at_i => nomatch here.symm.trans at_i
    | some request =>
      rw [expected_advance h here]
      constructor
      · intro ordered request' at_i
        cases here.symm.trans at_i
        exact ordered
      · exact fun ordered => ordered request here
  | objects => exact iff_of_true h trivial

def Request.isEnabling : Request → Bool
  | enableNew _ => true
  | _ => false

/-- The requests under way end: a `CreateBucket` completes, every other
operation fails. -/
def Settles : Event → Prop
  | .advance i ok => ∃ request, n.requests[i]? = some request ∧ ok = request.isEnabling
  | _ => False

def Request.rank : Request → Nat
  | answered _ => 0
  | lockNew _ | checkLock _ | readLock .. | readVersioning .. => 2
  | _ => 1

def rank : Nat := (n.requests.map Request.rank).sum

lemma rank_next_lt (busy : ∀ reply, request ≠ .answered reply) (s : Settings) :
    (request.next s request.isEnabling).2.rank < request.rank := by
  cases request with
  | createBucket bucket owner lockHeader =>
    change (s.create bucket owner lockHeader false).2.rank < 1
    unfold Settings.create
    cases validateBucketName bucket.toList <;> exact Nat.zero_lt_one
  | answered reply => exact absurd rfl (busy reply)
  | lockNew | checkLock | readLock | readVersioning => exact Nat.one_lt_two
  | _ => exact Nat.zero_lt_one

lemma exists_rest :
    ∃ es : List Event, Run.Each step Settles n es ∧ Quiescent (es.foldl step n) := by
  refine Run.exists_rest rank (fun n busy => ?_) n
  simp only [Quiescent, not_forall, not_exists] at busy
  obtain ⟨request, mem, busy⟩ := busy
  obtain ⟨i, here⟩ := mem_iff_getElem?.mp mem
  refine ⟨.advance i request.isEnabling, ⟨request, here, rfl⟩, ?_⟩
  rw [step_advance here]
  exact Run.sum_map_set_lt Request.rank here (rank_next_lt busy n.settings)

lemma settings_next_isEnabling (request : Request) (s : Settings) :
    (∃ bucket, request = .enableNew bucket) ∨
      (request.next s request.isEnabling).1 = s ∧
        ∀ b, (request.next s request.isEnabling).2.willEnable b = request.willEnable b := by
  cases request with
  | enableNew bucket => exact .inl ⟨bucket, rfl⟩
  | createBucket bucket owner lockHeader =>
    refine .inr ?_
    change (s.create bucket owner lockHeader false).1 = s ∧
      ∀ b, (s.create bucket owner lockHeader false).2.willEnable b = false
    unfold Settings.create
    cases validateBucketName bucket.toList <;> exact ⟨rfl, fun _ => rfl⟩
  | _ => exact .inr ⟨rfl, fun _ => rfl⟩

lemma expected_settles (e : Event) (settles : Settles n e) :
    Expected (step n e) ↔ Expected n := by
  cases e with
  | advance i ok =>
    obtain ⟨request, here, rfl⟩ := settles
    rw [expected_advance_iff here, expected_iff here]
    refine forall_congr' fun b => ?_
    obtain ⟨bucket, rfl⟩ | ⟨same, will⟩ := settings_next_isEnabling request n.settings
    · by_cases other : b = bucket
      · subst other
        refine iff_of_true (fun _ => .inl ?_) fun _ => .inr (.inl ?_)
        · simp [Request.isEnabling, Request.next, Settings.setVersioning]
        · simp [Request.willEnable]
      · simp [Covered, Request.isEnabling, Request.next, Settings.setVersioning, Request.willEnable,
          other, Ne.symm other]
    · rw [same, will]
  | _ => exact settles.elim

end

lemma lockedAreVersioned_iff (quiet : Quiescent n) : LockedAreVersioned n ↔ Expected n := by
  refine forall₂_congr fun b locked => (or_iff_left ?_).symm
  rintro ⟨r, mem, will⟩
  obtain ⟨reply, rfl⟩ := quiet r mem
  cases will

/-- The locked buckets of the quiescent state have versioning, exactly when every write of the
run is ordered. -/
theorem locked_versioned_iff {n : Node} (expected : Expected n) (es : List Event) :
    (∀ before after windDown, es = before ++ after →
      Run.Each step Settles (before.foldl step n) windDown →
      Quiescent ((before ++ windDown).foldl step n) →
      LockedAreVersioned ((before ++ windDown).foldl step n)) ↔
      Run.Each step Ordered n es := by
  rw [← Run.at_rest_iff expected_step expected_settles exists_rest expected es]
  refine forall₃_congr fun before after windDown => forall₃_congr fun _ _ quiet => ?_
  exact lockedAreVersioned_iff quiet

def emptyNode : Node := ⟨⟨fun _ => none, fun _ => none, fun _ => none, fun _ => false⟩, []⟩

/-- The versioning row of a new bucket with Object Lock is not written. -/
def halfLocked : List Event :=
  [.arrive (.createBucket "vault" "root" (some "true".toList)), .advance 0 true, .advance 0 true,
    .advance 0 false]

lemma expected_emptyNode : Expected emptyNode := fun _ locked => nomatch locked

theorem locked_versioned_iff_halfLocked : Expected emptyNode ∧
    ((∀ before after windDown, halfLocked = before ++ after →
      Run.Each step Settles (before.foldl step emptyNode) windDown →
      Quiescent ((before ++ windDown).foldl step emptyNode) →
      LockedAreVersioned ((before ++ windDown).foldl step emptyNode)) ↔
      Run.Each step Ordered emptyNode halfLocked) :=
  ⟨expected_emptyNode, locked_versioned_iff expected_emptyNode halfLocked⟩

/-- The request is answered with success and the bucket is locked without versioning. -/
theorem created_without_versioning :
    (halfLocked.foldl step emptyNode).requests = [.answered (.ok ())] ∧
      (halfLocked.foldl step emptyNode).settings.objectLock "vault" = some ⟨true, none⟩ ∧
      (halfLocked.foldl step emptyNode).settings.versioning "vault" = none := by
  refine ⟨?_, ?_, ?_⟩ <;> decide +kernel

end Buckets

end Arca
