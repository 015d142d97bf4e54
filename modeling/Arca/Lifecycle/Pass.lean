import Arca.Lifecycle.Metadata

/-!
# A lifecycle pass among client writes

`evaluate_lifecycle_rules` with a step for each of its calls to the store, and the
clients in between. A call can fail; a failed listing ends its loop and a failed
removal passes over its item. Blobs and the audit log are left out.
-/
namespace Arca.Lifecycle
open ObjectTable Conditional List Option

structure Sweep where
  bucket : String
  rule : LifecycleRule
  cutoff : Instant

inductive Listing where
  | buckets
  | rules (bucket : String)
  | expired (sweep : Sweep) (after : Option String)
  | noncurrent (bucket : String) (expiry : NoncurrentExpiry) (after : Option (String × VersionPosition))
  | uploads (bucket : String) (keyPrefix : Option String) (cutoff : Instant)
      (after : Option (String × String))

inductive Page where
  | expired (sweep : Sweep) (keys : List String)
  | noncurrent (bucket : String) (versions : List ObjectRecord)
  | uploads (ids : List String)

def Page.length : Page → Nat
  | expired _ keys => keys.length
  | noncurrent _ versions => versions.length
  | uploads ids => ids.length

/-- A delete by an Expiration, with what there was just before. -/
structure Commit where
  sweep : Sweep
  key : String
  before : Versions

structure Node where
  metadata : Metadata
  page : Page
  todo : List Listing
  commits : List Commit

inductive Event where
  | client (c : Client)
  | advance (ok : Bool) (d : Drawn)

def start (m : Metadata) : Node := ⟨m, .uploads [], [.buckets], []⟩

section
variable (readDate : String → Option Instant)

def LifecycleRule.listings (bucket : String) (now : Instant) (rule : LifecycleRule) : List Listing :=
  if rule.isSkipped readDate now then []
  else
    ((rule.expiration.bind (Expiration.cutoff readDate now)).map fun cutoff =>
      .expired ⟨bucket, rule, cutoff⟩ none).toList ++
    ((rule.noncurrentExpiry now).map fun expiry => .noncurrent bucket expiry none).toList ++
    (rule.abortDaysAfterInitiation.map fun days =>
      .uploads bucket rule.filter.requiredPrefix (now - days * dayNanos) none).toList

def listStaleMultipartUploads (uploads : List MultipartUploadRecord) (bucket : String)
    (keyPrefix : Option String) (cutoff : Instant) (after : Option (String × String))
    (maxUploads : Nat) : List MultipartUploadRecord :=
  ((uploads.filter fun u => u.bucket = bucket && u.initiatedAt < cutoff &&
      keyPrefix.all (inPrefixRange · u.key) &&
      after.all fun (key, id) => key < u.key || (key = u.key && id < u.uploadId)).insertionSort
    fun u v => toLex (u.key, u.uploadId) ≤ toLex (v.key, v.uploadId)).take maxUploads

/-- Only a full page is followed by another. -/
def nextPage {α : Type} (page : List α) (next : Option α → Listing) : List Listing :=
  if page.length < batchSize then [] else [next page.getLast?]

def Node.list (s : Node) (now : Instant) (rest : List Listing) : Listing → Node
  | .buckets => { s with todo := s.metadata.buckets.map .rules ++ rest }
  | .rules bucket =>
    let rules := (s.metadata.rules bucket).getD []
    { s with todo := rules.flatMap (LifecycleRule.listings readDate bucket now) ++ rest }
  | .expired sweep after =>
    let found := listExpiredObjects s.metadata.versions sweep.bucket sweep.rule.filter.requiredPrefix
      sweep.rule.filter.requiredTags sweep.cutoff after batchSize
    { s with
      page := .expired sweep (found.map ObjectRecord.key)
      todo := nextPage found (fun last => .expired sweep (last.map ObjectRecord.key)) ++ rest }
  | .noncurrent bucket expiry after =>
    let found := listNoncurrentExpiredVersions s.metadata.versions bucket expiry after batchSize
    { s with
      page := .noncurrent bucket found
      todo := nextPage found (fun last =>
        .noncurrent bucket expiry (last.map fun r => (r.key, VersionPosition.of r))) ++ rest }
  | .uploads bucket keyPrefix cutoff after =>
    let found := listStaleMultipartUploads s.metadata.store.multipart.uploads bucket keyPrefix cutoff
      after batchSize
    { s with
      page := .uploads (found.map MultipartUploadRecord.uploadId)
      todo := nextPage found (fun last =>
        .uploads bucket keyPrefix cutoff (last.map fun u => (u.key, u.uploadId))) ++ rest }

def expireObject (m : Metadata) (bucket key : String) (d : Drawn) : Metadata :=
  m.write (.deleteLatest bucket key ⟨none, none, none, none⟩ "root") [] d

def expireNoncurrentVersion (m : Metadata) (bucket : String) (r : ObjectRecord) (ok : Bool)
    (d : Drawn) : Metadata :=
  match r.versionId with
  | none => m
  | some version =>
    if isObjectLocked r d.now || !ok then m
    else m.write (.deleteVersion bucket r.key version ⟨none, none, none, none⟩) [] d

def Node.advance (s : Node) (ok : Bool) (d : Drawn) : Node :=
  match s.page with
  | .expired sweep (key :: keys) =>
    if ok then
      { s with
        metadata := expireObject s.metadata sweep.bucket key d
        page := .expired sweep keys
        commits := s.commits ++ [⟨sweep, key, s.metadata.versions⟩] }
    else { s with page := .expired sweep keys }
  | .noncurrent bucket (r :: rest) =>
    { s with
      metadata := expireNoncurrentVersion s.metadata bucket r ok d
      page := .noncurrent bucket rest }
  | .uploads (id :: ids) =>
    { s with
      metadata := if ok then s.metadata.write (.takeUpload id) [] d else s.metadata
      page := .uploads ids }
  | _ => match s.todo with
      | [] => s
      | l :: rest => if ok then s.list readDate d.now rest l else { s with todo := rest }

def step (s : Node) : Event → Node
  | .client c => { s with metadata := s.metadata.serve c }
  | .advance ok d => s.advance readDate ok d

end

/-- The version is as old and as labelled as the rule wants it. -/
structure Sweep.Covers (sweep : Sweep) (v : Versions) (r : ObjectRecord) : Prop where
  old : r.lastModified < sweep.cutoff
  start : ∀ p, sweep.rule.filter.requiredPrefix = some p → p.toList <+: r.key.toList
  tags : ∀ t ∈ sweep.rule.filter.requiredTags, v.tags r.bucket r.key (tagVersion r) t.1 = some t.2

def Expendable (sweep : Sweep) (v : Versions) (key : String) : Prop :=
  ∀ r, fetchCurrentObject sweep.bucket key v.rows = some r → sweep.Covers v r

/-- Each delete by an Expiration found an expired object or none. -/
def OnlyExpired (s : Node) : Prop := ∀ c ∈ s.commits, Expendable c.sweep c.before c.key

def Page.Expendable (v : Versions) : Page → Prop
  | expired sweep keys => ∀ key ∈ keys, Lifecycle.Expendable sweep v key
  | noncurrent .. | uploads _ => True

/-- Whatever a client does to a key that is listed and not yet deleted leaves it
without an object or with one that has expired as well. -/
def Spares (s : Node) : Event → Prop
  | .client c => match s.page with
      | .expired sweep keys => ∀ key ∈ keys, c.touches sweep.bucket key →
          Expendable sweep (s.metadata.serve c).versions key
      | .noncurrent .. | .uploads _ => True
  | .advance .. => True

def Removes (s : Node) (e : Event) : Prop := 0 < s.page.length ∧ ∃ d, e = .advance true d

def Paused (s : Node) : Prop := s.page.length = 0

section
variable {sweep : Sweep} {v v' : Versions} {key : String}

lemma expendable_congr (same : SameAt sweep.bucket key v v') :
    Expendable sweep v' key ↔ Expendable sweep v key := by
  unfold Expendable
  rw [fetchCurrentObject_eq, fetchCurrentObject_eq, same.rows]
  refine forall₂_congr fun r current => ?_
  have own : r.bucket = sweep.bucket ∧ r.key = key :=
    atKey_iff.mp (mem_rowsOf.mp (mem_of_find?_eq_some current)).2
  have tags : v'.tags r.bucket r.key = v.tags r.bucket r.key := by rw [own.1, own.2, same.tags]
  constructor
  · rintro ⟨old, start, labelled⟩
    exact ⟨old, start, by rwa [tags] at labelled⟩
  · rintro ⟨old, start, labelled⟩
    exact ⟨old, start, by rwa [tags]⟩

variable {r : ObjectRecord}

lemma covers_of_expiredRow (h : expiredRow v sweep.bucket
    sweep.rule.filter.requiredPrefix sweep.rule.filter.requiredTags sweep.cutoff r = true) :
    sweep.Covers v r := by
  simp only [expiredRow, Bool.and_eq_true, decide_eq_true_eq] at h
  obtain ⟨⟨⟨_, old⟩, inside⟩, tagged⟩ := h
  refine ⟨old, fun p required => ?_, fun t wanted => ?_⟩
  · rw [required, all_some] at inside
    exact inPrefixRange_iff.mp inside
  · simpa using all_eq_true.mp tagged t wanted

lemma expendable_of_listed {m : Metadata} {after : Option String}
    (listed : r ∈ listExpiredObjects m.versions sweep.bucket sweep.rule.filter.requiredPrefix
      sweep.rule.filter.requiredTags sweep.cutoff after batchSize) :
    Expendable sweep m.versions r.key := by
  obtain ⟨row, mem, rfl, expired⟩ := mem_listExpiredObjects listed
  have covers := covers_of_expiredRow expired
  simp only [expiredRow, Bool.and_eq_true, decide_eq_true_eq, Bool.not_eq_true'] at expired
  obtain ⟨⟨⟨⟨⟨place, latest⟩, object⟩, _⟩, _⟩, _⟩ := expired
  intro x current
  have own : fetchCurrentObject row.bucket row.key m.versions.rows = some row :=
    fetchCurrentObject_of_latest m.one mem latest object
  rw [place] at own
  cases own.symm.trans current
  exact covers

end

section
variable {m : Metadata} {bucket key : String} {d : Drawn}

lemma current_expireObject :
    fetchCurrentObject bucket key (expireObject m bucket key d).versions.rows = none := by
  have empty : ∀ o, DeletePrecondition.evaluate ⟨none, none, none, none⟩ o = .ok () := by
    intro o
    cases o <;> rfl
  have ran : (Write.deleteLatest bucket key ⟨none, none, none, none⟩ "root").run d m.store =
      .ok { m.store with
        objects := (m.store.objects.deleteLatest bucket key (fun _ => true) "root" d.uuid d.now).getD
          m.store.objects } := by
    rw [Write.run, empty]
    rfl
  cases deleted : m.store.objects.deleteLatest bucket key (fun _ => true) "root" d.uuid d.now with
  | none =>
    unfold deleteLatest at deleted
    rw [if_neg (by simp)] at deleted
    split at deleted
    · split at deleted
      · cases deleted
      · split at deleted <;> cases deleted
    · cases deleted
    · cases deleted
  | some t =>
    rw [deleted, getD_some] at ran
    unfold expireObject Metadata.write
    split
    · next failed => cases failed.symm.trans ran
    · next store done =>
        cases done.symm.trans ran
        exact fetchCurrentObject_deleteLatest deleted

lemma sameAt_expireObject {k : String} (other : k ≠ key) :
    SameAt bucket k m.versions (expireObject m bucket key d).versions :=
  Metadata.sameAt_write fun same => other (Prod.mk.inj (some.inj same)).2.symm

lemma expendable_expireObject {sweep : Sweep} {k : String} (head : Expendable sweep m.versions key) :
    Expendable sweep (expireObject m sweep.bucket key d).versions k ↔ Expendable sweep m.versions k := by
  by_cases same : k = key
  · subst same
    refine iff_of_true (fun r current => ?_) head
    rw [current_expireObject] at current
    cases current
  · exact expendable_congr (sameAt_expireObject same)

end

variable {readDate : String → Option Instant} {s : Node}

/-- Nothing but expired objects has been deleted or is about to be. -/
def Sound (s : Node) : Prop := OnlyExpired s ∧ s.page.Expendable s.metadata.versions

lemma onlyExpired_append {c : Commit} {cs : List Commit} :
    (∀ x ∈ cs ++ [c], Expendable x.sweep x.before x.key) ↔
      (∀ x ∈ cs, Expendable x.sweep x.before x.key) ∧ Expendable c.sweep c.before c.key := by
  rw [forall_mem_append, forall_mem_singleton]

lemma sound_removes {e : Event} (h : Removes s e) : Sound (step readDate s e) ↔ Sound s := by
  obtain ⟨left, d, rfl⟩ := h
  obtain ⟨m, page, todo, commits⟩ := s
  cases page with
  | expired sweep keys =>
    cases keys with
    | nil => cases left
    | cons key keys =>
      change ((∀ c ∈ commits ++ [_], _) ∧ ∀ k ∈ keys, _) ↔
        ((∀ c ∈ commits, _) ∧ ∀ k ∈ key :: keys, _)
      rw [onlyExpired_append, forall_mem_cons, and_assoc]
      refine and_congr_right fun _ => and_congr_right fun head => ?_
      exact forall₂_congr fun k _ => expendable_expireObject head
  | noncurrent bucket versions =>
    cases versions with
    | nil => cases left
    | cons r rest => exact Iff.rfl
  | uploads ids =>
    cases ids with
    | nil => cases left
    | cons id ids => exact Iff.rfl

lemma sound_list (h : Sound s) (now : Instant) (rest : List Listing) (l : Listing) :
    Sound (s.list readDate now rest l) := by
  cases l with
  | buckets | rules => exact h
  | expired sweep after =>
    refine ⟨h.1, fun key listed => ?_⟩
    obtain ⟨r, mem, rfl⟩ := mem_map.mp listed
    exact expendable_of_listed mem
  | noncurrent | uploads => exact ⟨h.1, trivial⟩

lemma sound_todo (h : Sound s) (ok : Bool) (d : Drawn) : Sound (match s.todo with
      | [] => s
      | l :: rest => if ok then s.list readDate d.now rest l else { s with todo := rest }) := by
  cases s.todo with
  | nil => exact h
  | cons l rest =>
    cases ok with
    | false => exact h
    | true => exact sound_list h d.now rest l

lemma sound_advance (h : Sound s) (ok : Bool) (d : Drawn) : Sound (s.advance readDate ok d) := by
  by_cases left : 0 < s.page.length ∧ ok = true
  · obtain ⟨left, rfl⟩ := left
    exact (sound_removes ⟨left, d, rfl⟩).mpr h
  · obtain ⟨m, page, todo, commits⟩ := s
    cases page with
    | expired sweep keys =>
      cases keys with
      | nil => exact sound_todo h ok d
      | cons key keys =>
        cases ok with
        | true => exact absurd ⟨Nat.succ_pos _, rfl⟩ left
        | false => exact ⟨h.1, fun k mem => h.2 k (mem_cons_of_mem _ mem)⟩
    | noncurrent bucket versions =>
      cases versions with
      | nil => exact sound_todo h ok d
      | cons r rest => exact ⟨h.1, trivial⟩
    | uploads ids =>
      cases ids with
      | nil => exact sound_todo h ok d
      | cons id ids => exact ⟨h.1, trivial⟩

lemma sound_client (h : Sound s) (c : Client) :
    Sound (step readDate s (.client c)) ↔ Spares s (.client c) := by
  obtain ⟨m, page, todo, commits⟩ := s
  cases page with
  | noncurrent | uploads => exact iff_of_true ⟨h.1, trivial⟩ trivial
  | expired sweep keys =>
    refine (and_iff_right h.1).trans ?_
    refine forall₂_congr fun key mem => ⟨fun expendable _ => expendable, fun spared => ?_⟩
    by_cases touched : c.touches sweep.bucket key
    · exact spared touched
    · exact (expendable_congr (Metadata.sameAt_serve touched)).mpr (h.2 key mem)

lemma sound_step (e : Event) (h : Sound s) : Sound (step readDate s e) ↔ Spares s e := by
  cases e with
  | client c => exact sound_client h c
  | advance ok d => exact iff_of_true (sound_advance h ok d) trivial

lemma exists_removed (s : Node) : ∃ es : List Event, Run.Each (step readDate) Removes s es ∧
    Paused (es.foldl (step readDate) s) := by
  refine Run.exists_rest (Q := Paused) (fun s => s.page.length) (fun s left => ?_) s
  have left := Nat.pos_of_ne_zero left
  refine ⟨.advance true ⟨"", 0⟩, ⟨left, _, rfl⟩, ?_⟩
  obtain ⟨m, page, todo, commits⟩ := s
  cases page with
  | expired sweep keys =>
    cases keys with
    | nil => cases left
    | cons key keys => exact Nat.lt_succ_self _
  | noncurrent bucket versions =>
    cases versions with
    | nil => cases left
    | cons r rest => exact Nat.lt_succ_self _
  | uploads ids =>
    cases ids with
    | nil => cases left
    | cons id ids => exact Nat.lt_succ_self _

lemma sound_start (m : Metadata) : Sound (start m) := ⟨forall_mem_nil _, trivial⟩

lemma expendable_of_length {page : Page} (done : page.length = 0) (v : Versions) :
    page.Expendable v := by
  cases page with
  | expired sweep keys =>
    rw [length_eq_zero_iff.mp done]
    exact forall_mem_nil _
  | noncurrent | uploads => trivial

/-- A pass deletes expired objects only, exactly when every client spares the keys that are
listed. -/
theorem only_expired_iff (readDate : String → Option Instant) (m : Metadata) (es : List Event) :
    (∀ before after rest, es = before ++ after →
      Run.Each (step readDate) Removes (before.foldl (step readDate) (start m)) rest →
      Paused ((before ++ rest).foldl (step readDate) (start m)) →
      OnlyExpired ((before ++ rest).foldl (step readDate) (start m))) ↔
      Run.Each (step readDate) Spares (start m) es := by
  rw [← Run.at_rest_iff (P := Sound) (Q := Paused) (fun _ e => sound_step e)
    (fun _ _ => sound_removes) exists_removed (sound_start m) es]
  refine forall₃_congr fun before after rest => forall₃_congr fun _ _ done => ?_
  exact (and_iff_left (expendable_of_length done _)).symm

def dayOldRule : LifecycleRule := ⟨"r", .enabled, .empty, some (.days 1), none, none⟩

/-- A bucket without versioning and an object from the first of days. -/
def oneObject : Metadata where
  store := ⟨⟨[{ sampleVersion "k" true 0 with versionId := none }], fun _ => .unversioned, false⟩,
    ⟨[], []⟩⟩
  tags _ _ _ _ := none
  buckets := ["b"]
  rules _ := some [dayOldRule]
  one _ _ := (countP_le_length).trans (length_filter_le _ _)

/-- The put lands between the listing of the key and its delete. -/
def overwrittenWhileListed : List Event :=
  [.advance true ⟨"", 2 * dayNanos⟩, .advance true ⟨"", 2 * dayNanos⟩, .advance true ⟨"", 2 * dayNanos⟩,
    .client (.write (.put (freshObject "new" "e") .unset (2 * dayNanos) ⟨none, none⟩) [] ⟨"", 2 * dayNanos⟩),
    .advance true ⟨"", 2 * dayNanos⟩]

theorem new_object_expired :
    ¬ OnlyExpired (overwrittenWhileListed.foldl (step fun _ => none) (start oneObject)) ∧
      (overwrittenWhileListed.foldl (step fun _ => none) (start oneObject)).metadata.versions.rows = [] := by
  have commits : (overwrittenWhileListed.foldl (step fun _ => none) (start oneObject)).commits.map
      (fun c => (c.sweep.cutoff, (fetchCurrentObject c.sweep.bucket c.key c.before.rows).map
        ObjectRecord.lastModified)) = [(dayNanos, some (2 * dayNanos))] := by decide +kernel
  refine ⟨fun only => ?_, by decide +kernel⟩
  obtain ⟨c, logged, found⟩ := mem_map.mp (commits ▸ mem_singleton_self _)
  obtain ⟨cutoff, modified⟩ := Prod.mk.inj found
  obtain ⟨r, current, time⟩ := map_eq_some_iff.mp modified
  have old := (only c logged r current).old
  rw [cutoff, time] at old
  exact absurd old (by decide)

end Arca.Lifecycle
