import Arca.Buckets.Tables
import Arca.Storage.LatestRow

/-!
# Objects without their bucket

A request that writes into a bucket first looks whether the bucket is there, or whether
its upload is, and commits in a transaction that looks at neither the bucket nor, when it
is `DeleteBucket`, at what is in it. The look may be answered by the metadata cache.
-/
namespace Arca.BucketLife.Races
open ObjectTable ObjectRecord List

inductive Call where
  | deleteBucket (bucket : String)
  | putObject (record : ObjectRecord) (pre : Option ObjectRecord → Bool)
  | copyObject (source : String) (record : ObjectRecord)
  | completeMultipartUpload (uploadId : String) (record : ObjectRecord) (pre : Option ObjectRecord → Bool)
  | createMultipartUpload (record : MultipartUploadRecord)

def Call.bucket : Call → String
  | deleteBucket bucket => bucket
  | putObject record _ | copyObject _ record | completeMultipartUpload _ record _ => record.bucket
  | createMultipartUpload record => record.bucket

inductive Phase where
  | arrived
  /-- The bucket is there: `DeleteBucket` goes on to look into it, `CopyObject` to look for
  the bucket of its source. -/
  | found
  | ready

def Call.afterFirst : Call → Phase
  | .deleteBucket _ | .copyObject _ _ => .found
  | _ => .ready

structure Request where
  call : Call
  phase : Phase

structure Node where
  tables : Tables
  requests : ℕ → Option Request
  /-- The upload ids that were ever drawn. -/
  issued : List String

inductive Event where
  | arrive (id : ℕ) (call : Call)
  /-- The cache may have an answer of its own. -/
  | check (id : ℕ) (cached : Option Bool)
  | checkNext (id : ℕ)
  | commit (id : ℕ) (uuid : String)
  | fail (id : ℕ)

namespace Node

def setRequest (s : Node) (id : ℕ) (r : Option Request) : Node :=
  { s with requests := Function.update s.requests id r }

def passes (t : Tables) (cached : Option Bool) : Call → Bool
  | .completeMultipartUpload uploadId record _ =>
    (t.multipart.getMultipartUpload uploadId).any fun u => u.bucket = record.bucket && u.key = record.key
  | call => cached.getD (t.headBucket call.bucket).isSome

def passesNext (t : Tables) : Call → Bool
  | .deleteBucket bucket => t.bucketIsEmpty bucket
  | .copyObject source _ => (t.headBucket source).isSome
  | _ => false

def install (t : Tables) (record : ObjectRecord) (pre : Option ObjectRecord → Bool) (uuid : String) :
    Option Tables :=
  (t.objectTable.installObject record pre uuid).map fun table => { t with objects := table.rows }

def transaction (s : Node) (uuid : String) : Call → Option Tables
  | .deleteBucket bucket => some (s.tables.deleteBucket bucket).1
  | .putObject record pre => install s.tables record pre uuid
  | .copyObject _ record => install s.tables record (fun _ => true) uuid
  | .completeMultipartUpload uploadId record pre =>
    if (s.tables.multipart.getMultipartUpload uploadId).isNone then none
    else (install s.tables record pre uuid).map fun t =>
      { t with multipart := t.multipart.takeUpload uploadId }
  | .createMultipartUpload record =>
    if record.uploadId ∈ s.issued then none
    else some { s.tables with multipart :=
      { s.tables.multipart with uploads := s.tables.multipart.uploads ++ [record] } }

def issue : Call → List String → List String
  | .createMultipartUpload record, issued => record.uploadId :: issued
  | _, issued => issued

def step (s : Node) : Event → Node
  | .arrive id call => match s.requests id with
      | none => s.setRequest id (some ⟨call, .arrived⟩)
      | some _ => s
  | .check id cached => match s.requests id with
      | some ⟨call, .arrived⟩ =>
        s.setRequest id (if passes s.tables cached call then some ⟨call, call.afterFirst⟩ else none)
      | _ => s
  | .checkNext id => match s.requests id with
      | some ⟨call, .found⟩ =>
        s.setRequest id (if passesNext s.tables call then some ⟨call, .ready⟩ else none)
      | _ => s
  | .commit id uuid => match s.requests id with
      | some ⟨call, .ready⟩ => match s.transaction uuid call with
          | some tables => { s.setRequest id none with tables, issued := issue call s.issued }
          | none => s.setRequest id none
      | _ => s
  | .fail id => s.setRequest id none

def Quiescent (s : Node) : Prop := ∀ id, s.requests id = none

end Node

def Occupied (t : Tables) (bucket : String) : Prop :=
  (∃ r ∈ t.objects, r.bucket = bucket) ∨ ∃ u ∈ t.multipart.uploads, u.bucket = bucket

/-- Every object row and every upload row belongs to a bucket that is there. -/
def Belongs (t : Tables) : Prop := ∀ bucket, Occupied t bucket → (t.headBucket bucket).isSome

/-- Tables at rest; the upload id is a primary key. -/
structure Settled where
  tables : Tables
  belongs : Belongs tables
  keyed : (tables.multipart.uploads.map (·.uploadId)).Nodup

def Settled.node (s : Settled) : Node where
  tables := s.tables
  requests _ := none
  issued := s.tables.multipart.uploads.map (·.uploadId)

/-- A transaction that writes finds the bucket there, and a bucket that is removed has
neither object rows nor uploads. -/
def Orderly (s : Node) : Event → Prop
  | .commit id uuid => ∀ call, s.requests id = some ⟨call, .ready⟩ → match call with
      | .deleteBucket bucket => ¬ Occupied s.tables bucket
      | call => (s.transaction uuid call).isSome → (s.tables.headBucket call.bucket).isSome
  | _ => True

variable {t : Tables} {record : ObjectRecord} {pre : Option ObjectRecord → Bool} {uuid : String}

lemma mem_installObject {table table' : ObjectTable}
    (h : table.installObject record pre uuid = some table') :
    ∃ r ∈ table'.rows, r.bucket = record.bucket := by
  obtain ⟨r, mem, same⟩ := exists_installObject h
  have bucket : r.replicated.bucket = (table.storedRow record uuid).replicated.bucket := by rw [same]
  exact ⟨r, mem, bucket⟩

lemma buckets_of_frame {bucket key b : String} {rows rows' : List ObjectRecord}
    (frame : Frame bucket key rows rows') (other : b ≠ bucket) :
    (∃ r ∈ rows', r.bucket = b) ↔ ∃ r ∈ rows, r.bucket = b := by
  have same : ∀ r : ObjectRecord, r.bucket = b → (r ∈ rows' ↔ r ∈ rows) := by
    rintro r rfl
    have here := frame r.bucket r.key fun both => other both.1
    have own : atKey r.bucket r.key r = true := atKey_iff.mpr ⟨rfl, rfl⟩
    have mem : r ∈ rowsOf r.bucket r.key rows' ↔ r ∈ rowsOf r.bucket r.key rows := by rw [here]
    rwa [mem_rowsOf, mem_rowsOf, and_iff_left own, and_iff_left own] at mem
  constructor
  · rintro ⟨r, mem, into⟩
    exact ⟨r, (same r into).mp mem, into⟩
  · rintro ⟨r, mem, into⟩
    exact ⟨r, (same r into).mpr mem, into⟩

namespace Node
variable {s : Node} {t' : Tables}

lemma buckets_install (h : install t record pre uuid = some t') :
    t'.buckets = t.buckets ∧ t'.multipart = t.multipart ∧
      ∀ b, (∃ r ∈ t'.objects, r.bucket = b) ↔ b = record.bucket ∨ ∃ r ∈ t.objects, r.bucket = b := by
  obtain ⟨table, installed, rfl⟩ := Option.map_eq_some_iff.mp h
  refine ⟨rfl, rfl, fun b => ?_⟩
  by_cases own : b = record.bucket
  · subst own
    exact iff_of_true (mem_installObject installed) (.inl rfl)
  · rw [or_iff_right own]
    exact buckets_of_frame (touches_installObject installed).frame own

/-- Upload ids are unique, and a complete request that goes on is about an upload into
its own bucket. -/
structure Inv (s : Node) : Prop where
  keyed : (s.tables.multipart.uploads.map (·.uploadId)).Nodup
  issued : ∀ u ∈ s.tables.multipart.uploads, u.uploadId ∈ s.issued
  own : ∀ id uploadId record pre,
    s.requests id = some ⟨.completeMultipartUpload uploadId record pre, .ready⟩ →
    uploadId ∈ s.issued ∧ ∀ u ∈ s.tables.multipart.uploads, u.uploadId = uploadId →
      u.bucket = record.bucket

variable {call : Call} {id : ℕ}

lemma occupied_transaction (inv : Inv s)
    (here : s.requests id = some ⟨call, .ready⟩) (writes : ∀ b, call ≠ .deleteBucket b)
    (h : s.transaction uuid call = some t') :
    t'.buckets = s.tables.buckets ∧
      ∀ b, Occupied t' b ↔ b = call.bucket ∨ Occupied s.tables b := by
  cases call with
  | deleteBucket b => exact absurd rfl (writes b)
  | putObject record pre | copyObject source record =>
    obtain ⟨buckets, multipart, objects⟩ := buckets_install h
    exact ⟨buckets, fun b => by simp only [Occupied, objects, multipart, Call.bucket, or_assoc]⟩
  | completeMultipartUpload uploadId record pre =>
    dsimp only [transaction] at h
    split at h
    · cases h
    · obtain ⟨t, installed, rfl⟩ := Option.map_eq_some_iff.mp h
      obtain ⟨buckets, multipart, objects⟩ := buckets_install installed
      refine ⟨buckets, fun b => ?_⟩
      simp only [Occupied, objects, multipart, Call.bucket, MultipartTables.takeUpload,
        mem_filter, decide_eq_true_eq]
      rw [or_assoc]
      -- the upload that is taken was in the bucket of the object that is put
      by_cases own : b = record.bucket
      · exact iff_of_true (.inl own) (.inl own)
      · simp only [own, false_or]
        refine or_congr_right (exists_congr fun u => ?_)
        constructor
        · exact And.imp_left And.left
        · rintro ⟨mem, rfl⟩
          exact ⟨⟨mem, fun same => own ((inv.own id uploadId record pre here).2 u mem same)⟩, rfl⟩
  | createMultipartUpload record =>
    dsimp only [transaction] at h
    split at h
    · cases h
    · cases h
      refine ⟨rfl, fun b => ?_⟩
      simp only [Occupied, Call.bucket, mem_append, mem_singleton]
      constructor
      · rintro (object | ⟨u, old | rfl, into⟩)
        · exact .inr (.inl object)
        · exact .inr (.inr ⟨u, old, into⟩)
        · exact .inl into.symm
      · rintro (rfl | object | ⟨u, old, into⟩)
        · exact .inr ⟨record, .inr rfl, rfl⟩
        · exact .inl object
        · exact .inr ⟨u, .inl old, into⟩

lemma inv_initial (start : Settled) : Inv start.node where
  keyed := start.keyed
  issued _ mem := mem_map_of_mem mem
  own _ _ _ _ here := by cases here

lemma Inv.setRequest (inv : Inv s) {r : Option Request}
    (own : ∀ uploadId record pre, r = some ⟨.completeMultipartUpload uploadId record pre, .ready⟩ →
      uploadId ∈ s.issued ∧ ∀ u ∈ s.tables.multipart.uploads, u.uploadId = uploadId →
        u.bucket = record.bucket) : Inv (s.setRequest id r) where
  keyed := inv.keyed
  issued := inv.issued
  own other uploadId record pre here := by
    by_cases same : other = id
    · subst same
      exact own uploadId record pre (by simpa [Node.setRequest] using here)
    · exact inv.own other uploadId record pre (by simpa [Node.setRequest, same] using here)

lemma Inv.own_of_passes (inv : Inv s) {uploadId : String} {cached : Option Bool}
    (passed : passes s.tables cached (.completeMultipartUpload uploadId record pre) = true) :
    uploadId ∈ s.issued ∧ ∀ u ∈ s.tables.multipart.uploads, u.uploadId = uploadId →
      u.bucket = record.bucket := by
  dsimp only [passes] at passed
  cases found : s.tables.multipart.getMultipartUpload uploadId with
  | none => simp [found] at passed
  | some v =>
    have into : v.bucket = record.bucket := by simp_all
    have mem : v ∈ s.tables.multipart.uploads := mem_of_find?_eq_some found
    have named : v.uploadId = uploadId := MultipartTables.uploadId_of_get found
    refine ⟨named ▸ inv.issued v mem, fun u there same => ?_⟩
    rw [inj_on_of_nodup_map inv.keyed there mem (same.trans named.symm)]
    exact into

lemma Inv.commit (inv : Inv s) (h : s.transaction uuid call = some t') :
    Inv { s.setRequest id none with tables := t', issued := issue call s.issued } := by
  have gone : Inv (s.setRequest id none) := inv.setRequest fun _ _ _ none => by cases none
  cases call with
  | deleteBucket b =>
    cases h
    exact ⟨gone.keyed, gone.issued, gone.own⟩
  | putObject record pre | copyObject source record =>
    obtain ⟨-, multipart, -⟩ := buckets_install h
    exact ⟨multipart ▸ gone.keyed, multipart ▸ gone.issued, multipart ▸ gone.own⟩
  | completeMultipartUpload uploadId record pre =>
    dsimp only [transaction] at h
    split at h
    · cases h
    · obtain ⟨t, installed, rfl⟩ := Option.map_eq_some_iff.mp h
      obtain ⟨-, multipart, -⟩ := buckets_install installed
      have fewer : ∀ u ∈ (t.multipart.takeUpload uploadId).uploads, u ∈ s.tables.multipart.uploads :=
        fun u mem => multipart ▸ (mem_filter.mp mem).1
      refine ⟨?_, fun u mem => gone.issued u (fewer u mem), ?_⟩
      · rw [multipart]
        exact gone.keyed.sublist (filter_sublist.map _)
      · intro other id' record' pre' here
        obtain ⟨drawn, into⟩ := gone.own other id' record' pre' here
        exact ⟨drawn, fun u mem => into u (fewer u mem)⟩
  | createMultipartUpload record =>
    dsimp only [transaction] at h
    split at h
    · cases h
    next unused =>
      cases h
      refine ⟨?_, ?_, ?_⟩
      · dsimp only
        rw [map_append, nodup_append]
        refine ⟨gone.keyed, nodup_singleton _, ?_⟩
        rintro old mem new last same
        obtain ⟨u, there, rfl⟩ := mem_map.mp mem
        have drawn : u.uploadId = record.uploadId := same.trans (mem_singleton.mp last)
        exact unused (drawn ▸ gone.issued u there)
      · intro u mem
        rcases mem_append.mp mem with old | new
        · exact mem_cons_of_mem _ (gone.issued u old)
        · rw [mem_singleton.mp new]
          exact mem_cons_self
      · intro other id' record' pre' here
        obtain ⟨drawn, into⟩ := gone.own other id' record' pre' here
        refine ⟨mem_cons_of_mem _ drawn, fun u mem same => ?_⟩
        rcases mem_append.mp mem with old | new
        · exact into u old same
        · rw [mem_singleton.mp new] at same
          exact absurd (same ▸ drawn) unused

lemma inv_step (e : Event) (inv : Inv s) : Inv (s.step e) := by
  cases e with
  | arrive id call =>
    dsimp only [step]
    split
    · exact inv.setRequest fun _ _ _ new => by cases new
    · exact inv
  | check id cached =>
    dsimp only [step]
    split
    next call here =>
      refine inv.setRequest fun uploadId record pre new => ?_
      split at new
      next passed =>
        cases call with
        | completeMultipartUpload =>
          cases new
          exact inv.own_of_passes passed
        | deleteBucket | putObject | copyObject | createMultipartUpload => cases new
      · cases new
    · exact inv
  | checkNext id =>
    dsimp only [step]
    split
    next call here =>
      refine inv.setRequest fun uploadId record pre new => ?_
      split at new
      next passed =>
        cases call with
        | completeMultipartUpload => cases passed
        | deleteBucket | putObject | copyObject | createMultipartUpload => cases new
      · cases new
    · exact inv
  | commit id uuid =>
    dsimp only [step]
    split
    next call here =>
      split
      next committed => exact inv.commit committed
      · exact inv.setRequest fun _ _ _ none => by cases none
    · exact inv
  | fail id => exact inv.setRequest fun _ _ _ none => by cases none

lemma headBucket_of_buckets (same : t'.buckets = t.buckets) (b : String) :
    t'.headBucket b = t.headBucket b := by
  unfold Tables.headBucket
  rw [same]

lemma tables_step {e : Event} (reads : ∀ id uuid, e ≠ .commit id uuid) :
    (s.step e).tables = s.tables := by
  cases e with
  | commit id uuid => exact absurd rfl (reads id uuid)
  | arrive id call | check id cached | checkNext id => dsimp only [step]; split <;> rfl
  | fail id => rfl

lemma occupied_deleteBucket (t : Tables) (b x : String) :
    Occupied (t.deleteBucket b).1 x ↔ Occupied t x := Iff.rfl

lemma belongs_deleteBucket_iff {b : String} :
    Belongs (t.deleteBucket b).1 ↔ Belongs t ∧ ¬ Occupied t b := by
  simp only [Belongs, occupied_deleteBucket, Tables.headBucket_deleteBucket]
  constructor
  · intro belongs
    have none : ¬ Occupied t b := fun occupied => by simpa using belongs b occupied
    refine ⟨fun x occupied => ?_, none⟩
    have other : x ≠ b := fun same => none (same ▸ occupied)
    simpa [other] using belongs x occupied
  · rintro ⟨belongs, none⟩ x occupied
    have other : x ≠ b := fun same => none (same ▸ occupied)
    rw [if_neg other]
    exact belongs x occupied

lemma belongs_transaction_iff (inv : Inv s)
    (here : s.requests id = some ⟨call, .ready⟩) (writes : ∀ b, call ≠ .deleteBucket b)
    (h : s.transaction uuid call = some t') :
    Belongs t' ↔ Belongs s.tables ∧ (s.tables.headBucket call.bucket).isSome := by
  obtain ⟨buckets, occupied⟩ := occupied_transaction inv here writes h
  simp only [Belongs, occupied, headBucket_of_buckets buckets]
  constructor
  · intro belongs
    exact ⟨fun b there => belongs b (.inr there), belongs _ (.inl rfl)⟩
  · rintro ⟨belongs, found⟩ b (rfl | there)
    · exact found
    · exact belongs b there

/-- After a step every row has its bucket exactly when every row had it before and the
step was orderly. -/
lemma belongs_step_iff (e : Event) (inv : Inv s) :
    Belongs (s.step e).tables ↔ Belongs s.tables ∧ Orderly s e := by
  cases e with
  | arrive id call | check id cached | checkNext id =>
    rw [tables_step (by simp)]
    exact (and_iff_left trivial).symm
  | fail id =>
    exact (and_iff_left trivial).symm
  | commit id uuid =>
    cases here : s.requests id with
    | none => simp [step, here, Orderly]
    | some r =>
      obtain ⟨call, phase⟩ := r
      cases phase with
      | arrived => simp [step, here, Orderly]
      | found => simp [step, here, Orderly]
      | ready =>
        simp only [step, here, Orderly, Option.some.injEq, Request.mk.injEq, and_true,
          forall_eq']
        by_cases deletes : ∃ b, call = .deleteBucket b
        · obtain ⟨b, rfl⟩ := deletes
          exact belongs_deleteBucket_iff
        · have writes : ∀ b, call ≠ .deleteBucket b := fun b same => deletes ⟨b, same⟩
          cases ran : s.transaction uuid call with
          | none =>
            refine (and_iff_left ?_).symm
            cases call <;> simp_all
          | some t' =>
            refine (belongs_transaction_iff inv here writes ran).trans (and_congr_right fun _ => ?_)
            cases call <;> simp_all

end Node

/-- **Every row belongs to an existing bucket exactly when every transaction that writes found
its bucket there and every removed bucket was empty.** -/
theorem rows_belong_iff_orderly (start : Settled) (events : List Event) :
    Belongs (events.foldl Node.step start.node).tables ↔
      Run.Each Node.step Orderly start.node events := by
  have always : Run.Always Node.step (fun s => Belongs s.tables) start.node events ↔
      Run.Each Node.step Orderly start.node events := by
    refine Run.always_iff_each_of_invariant (I := fun s : Node => s.Inv ∧ Belongs s.tables)
      (fun _ inv => inv.2) ?_ ?_ ⟨Node.inv_initial start, start.belongs⟩ events
    · exact fun s e inv orderly => ⟨Node.inv_step e inv.1, (Node.belongs_step_iff e inv.1).mpr ⟨inv.2, orderly⟩⟩
    · exact fun s e inv disorderly belongs => disorderly ((Node.belongs_step_iff e inv.1).mp belongs).2
  refine Iff.trans ?_ always
  constructor
  · exact Run.Always.of_last (I := Node.Inv) (fun _ e inv => Node.inv_step e inv)
      (fun _ e inv belongs => ((Node.belongs_step_iff e inv).mp belongs).1) (Node.inv_initial start)
  · exact fun holds => holds.last

def emptyBucket : Settled where
  tables := { Tables.new false with buckets := [⟨"b", 0, "root"⟩] }
  belongs := by
    rintro b (⟨r, mem, -⟩ | ⟨u, mem, -⟩)
    · cases mem
    · cases mem
  keyed := nodup_nil

/-- A put finds its bucket; the bucket is found empty and removed; the put commits. -/
def putIntoRemoved : List Event :=
  [.arrive 0 (.putObject { deleteMarker "b" "k" "root" none 1 with blobId := "blob" } fun _ => true),
    .check 0 none, .arrive 1 (.deleteBucket "b"), .check 1 none, .checkNext 1, .commit 1 "",
    .commit 0 ""]

theorem put_into_removed_bucket_is_acknowledged :
    let s := putIntoRemoved.foldl Node.step emptyBucket.node
    s.Quiescent ∧ s.tables.objects.map (·.bucket) = ["b"] ∧ s.tables.headBucket "b" = none ∧
      ¬ Belongs s.tables := by
  intro s
  have row : s.tables.objects.map (·.bucket) = ["b"] := by decide
  refine ⟨fun id => ?_, row, rfl, fun belongs => ?_⟩
  · rcases id with _ | _ | id
    · rfl
    · rfl
    · rfl
  · have occupied : Occupied s.tables "b" := .inl ⟨_, mem_singleton_self _, rfl⟩
    exact absurd (belongs "b" occupied) (by decide)

end Arca.BucketLife.Races
