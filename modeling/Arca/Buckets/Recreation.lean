import Arca.Buckets.Tables

/-!
# A bucket that is created again

`DeleteBucket` looks for the bucket, looks whether it has objects, and then removes
its tags and its row, in three operations of the store between which any others may
go. Configuration and multipart uploads stay, and `CreateBucket` finds them.
-/
namespace Arca.BucketLife
open ObjectTable List

inductive RowId where
  | config (bucket key : String)
  | bucketTags (bucket : String)
  | objectTags (bucket key version : String)
  | upload (uploadId : String)
  | part (uploadId : String) (partNumber : Nat)
  deriving DecidableEq

inductive Deleting where
  | arrived (bucket : String)
  | found (bucket : String)
  | empty (bucket : String)

structure Node where
  tables : Tables
  clock : ℕ
  written : RowId → ℕ
  deleting : ℕ → Option Deleting

def Node.initial : Node where
  tables := .new false
  clock := 1
  written _ := 0
  deleting _ := none

inductive Event where
  | deleteBucket (id : ℕ) (bucket : String)
  | head (id : ℕ)
  | checkEmpty (id : ℕ)
  | remove (id : ℕ)
  | createBucket (bucket owner : String) (now : Instant)
  | setBucketConfig (bucket key value : String)
  | deleteBucketConfig (bucket key : String)
  | putBucketTags (bucket : String) (tags : List (String × String))
  | writeObjectTags (bucket key version : String) (tags : List (String × String))
  | dropObjectTags (bucket key : String) (versions : String → Bool)
  | createMultipartUpload (record : MultipartUploadRecord)
  | putPart (part : PartRecord)
  | takeUpload (uploadId : String)
  | objects (op : MetaOp)

namespace Node

section
variable (s : Node)

def setDeleting (id : ℕ) (d : Option Deleting) : Node :=
  { s with deleting := Function.update s.deleting id d }

def store (row : RowId) (tables : Tables) : Node :=
  { s with tables, written := Function.update s.written row s.clock }

def isFresh (uploadId : String) : Bool :=
  s.tables.multipart.uploads.all (·.uploadId ≠ uploadId) &&
    s.tables.multipart.parts.all (·.uploadId ≠ uploadId)

def act : Event → Node
  | .deleteBucket id bucket => match s.deleting id with
      | none => s.setDeleting id (some (.arrived bucket))
      | some _ => s
  | .head id => match s.deleting id with
      | some (.arrived bucket) =>
        s.setDeleting id (if (s.tables.headBucket bucket).isSome then some (.found bucket) else none)
      | _ => s
  | .checkEmpty id => match s.deleting id with
      | some (.found bucket) =>
        s.setDeleting id (if s.tables.bucketIsEmpty bucket then some (.empty bucket) else none)
      | _ => s
  | .remove id => match s.deleting id with
      | some (.empty bucket) =>
        { s.setDeleting id none with tables := (s.tables.deleteBucket bucket).1 }
      | _ => s
  | .createBucket bucket owner now =>
    { s with tables := (s.tables.createBucketOwned bucket owner now).getD s.tables }
  | .setBucketConfig bucket key value =>
    s.store (.config bucket key) (s.tables.setBucketConfig bucket key value)
  | .deleteBucketConfig bucket key => { s with tables := s.tables.deleteBucketConfig bucket key }
  | .putBucketTags bucket tags => s.store (.bucketTags bucket) (s.tables.putBucketTags bucket tags)
  | .writeObjectTags bucket key version tags =>
    s.store (.objectTags bucket key version) { s.tables with
      objectTags := fun b k v tag => if b = bucket ∧ k = key ∧ v = version then tags.lookup tag
        else s.tables.objectTags b k v tag }
  | .dropObjectTags bucket key versions => { s with tables := { s.tables with
        objectTags := fun b k v tag => if b = bucket ∧ k = key ∧ versions v then none
          else s.tables.objectTags b k v tag } }
  | .createMultipartUpload record =>
    if s.isFresh record.uploadId then
      s.store (.upload record.uploadId)
        { s.tables with multipart := s.tables.multipart.createMultipartUpload record }
    else s
  | .putPart part =>
    s.store (.part part.uploadId part.partNumber)
      { s.tables with multipart := s.tables.multipart.putPart part }
  | .takeUpload uploadId =>
    { s with tables := { s.tables with multipart := s.tables.multipart.takeUpload uploadId } }
  | .objects op => { s with tables := s.tables.runObjects op }

def step (e : Event) : Node :=
  { s.act e with clock := s.clock + 1 }

def PartOf (bucket : String) (p : PartRecord) : Prop :=
  ∃ u ∈ s.tables.multipart.uploads, u.uploadId = p.uploadId ∧ u.bucket = bucket

end

/-- Nothing that is kept about the bucket was written before that time. -/
structure Clean (since : ℕ) (bucket : String) (s : Node) : Prop where
  config : ∀ key, s.tables.config bucket key ≠ none → since ≤ s.written (.config bucket key)
  bucketTags : s.tables.bucketTags bucket ≠ [] → since ≤ s.written (.bucketTags bucket)
  objectTags : ∀ key version tag, s.tables.objectTags bucket key version tag ≠ none →
    since ≤ s.written (.objectTags bucket key version)
  uploads : ∀ u ∈ s.tables.multipart.uploads, u.bucket = bucket →
    since ≤ s.written (.upload u.uploadId)
  parts : ∀ p ∈ s.tables.multipart.parts, s.PartOf bucket p →
    since ≤ s.written (.part p.uploadId p.partNumber)

variable {s t : Node} {since : ℕ} {bucket : String}

/-- A step leaves a clean bucket clean when every row it adds is written at that step. -/
lemma Clean.mono (clean : Clean since bucket s)
    (later : ∀ row, t.written row = s.written row ∨ since ≤ t.written row)
    (config : ∀ key, t.tables.config bucket key ≠ none →
      s.tables.config bucket key ≠ none ∨ since ≤ t.written (.config bucket key))
    (bucketTags : t.tables.bucketTags bucket ≠ [] →
      s.tables.bucketTags bucket ≠ [] ∨ since ≤ t.written (.bucketTags bucket))
    (objectTags : ∀ key version tag, t.tables.objectTags bucket key version tag ≠ none →
      s.tables.objectTags bucket key version tag ≠ none ∨
        since ≤ t.written (.objectTags bucket key version))
    (uploads : ∀ u ∈ t.tables.multipart.uploads, u.bucket = bucket →
      u ∈ s.tables.multipart.uploads ∨ since ≤ t.written (.upload u.uploadId))
    (parts : ∀ p ∈ t.tables.multipart.parts, t.PartOf bucket p →
      p ∈ s.tables.multipart.parts ∧ s.PartOf bucket p ∨
        since ≤ t.written (.part p.uploadId p.partNumber)) : Clean since bucket t := by
  have kept : ∀ row, since ≤ s.written row → since ≤ t.written row := fun row old =>
    (later row).elim (fun same => same ▸ old) fun new => new
  exact
    { config := fun key there => (config key there).elim
        (fun old => kept _ (clean.config key old)) fun new => new
      bucketTags := fun there => (bucketTags there).elim
        (fun old => kept _ (clean.bucketTags old)) fun new => new
      objectTags := fun key version tag there => (objectTags key version tag there).elim
        (fun old => kept _ (clean.objectTags key version tag old)) fun new => new
      uploads := fun u mem into => (uploads u mem into).elim
        (fun old => kept _ (clean.uploads u old into)) fun new => new
      parts := fun p mem into => (parts p mem into).elim
        (fun old => kept _ (clean.parts p old.1 old.2)) fun new => new }

lemma Clean.fewer (clean : Clean since bucket s) (written : t.written = s.written)
    (config : ∀ key, t.tables.config bucket key ≠ none → s.tables.config bucket key ≠ none)
    (bucketTags : t.tables.bucketTags bucket ≠ [] → s.tables.bucketTags bucket ≠ [])
    (objectTags : ∀ key version tag, t.tables.objectTags bucket key version tag ≠ none →
      s.tables.objectTags bucket key version tag ≠ none)
    (uploads : ∀ u ∈ t.tables.multipart.uploads, u ∈ s.tables.multipart.uploads)
    (parts : ∀ p ∈ t.tables.multipart.parts, p ∈ s.tables.multipart.parts) :
    Clean since bucket t :=
  clean.mono (fun row => .inl (congrFun written row)) (fun key there => .inl (config key there))
    (fun there => .inl (bucketTags there))
    (fun key version tag there => .inl (objectTags key version tag there))
    (fun u mem _ => .inl (uploads u mem))
    (fun p mem ⟨u, there, into⟩ => .inl ⟨parts p mem, u, uploads u there, into⟩)

lemma Clean.same (clean : Clean since bucket s) (written : t.written = s.written)
    (config : t.tables.config = s.tables.config) (bucketTags : t.tables.bucketTags = s.tables.bucketTags)
    (objectTags : t.tables.objectTags = s.tables.objectTags)
    (multipart : t.tables.multipart = s.tables.multipart) : Clean since bucket t := by
  refine clean.fewer written ?_ ?_ ?_ ?_ ?_
  · exact fun key there => config ▸ there
  · exact fun there => bucketTags ▸ there
  · exact fun key version tag there => objectTags ▸ there
  · exact fun u mem => multipart ▸ mem
  · exact fun p mem => multipart ▸ mem

lemma store_written (row other : RowId) (tables : Tables) :
    (s.store row tables).written other = s.written other ∨
      s.clock ≤ (s.store row tables).written other := by
  by_cases same : other = row
  · subst same
    exact .inr (by simp [store])
  · exact .inl (by simp [store, same])

lemma store_written_self (row : RowId) (tables : Tables) :
    (s.store row tables).written row = s.clock := by
  simp [store]

lemma update_update_ne_none {f : String → String → Option String} {b k b' k' : String}
    {v : Option String} (there : Function.update f b (Function.update (f b) k v) b' k' ≠ none) :
    f b' k' ≠ none ∨ (b' = b ∧ k' = k ∧ v ≠ none) := by
  by_cases hb : b' = b
  · subst hb
    by_cases hk : k' = k
    · subst hk
      exact .inr ⟨rfl, rfl, by simpa using there⟩
    · exact .inl (by simpa [hk] using there)
  · exact .inl (by simpa [hb] using there)

lemma isFresh_iff {uploadId : String} : s.isFresh uploadId = true ↔
    (∀ u ∈ s.tables.multipart.uploads, u.uploadId ≠ uploadId) ∧
      ∀ p ∈ s.tables.multipart.parts, p.uploadId ≠ uploadId := by
  simp [isFresh]

lemma clean_act (e : Event) (passed : since ≤ s.clock) (clean : Clean since bucket s) :
    Clean since bucket (s.act e) := by
  have stored : ∀ row tables other, (s.store row tables).written other = s.written other ∨
      since ≤ (s.store row tables).written other := fun row tables other =>
    (store_written row other tables).imp_right passed.trans
  cases e with
  | deleteBucket id b | head id | checkEmpty id =>
    dsimp only [act]
    split
    · exact clean.same rfl rfl rfl rfl rfl
    · exact clean
  | remove id =>
    dsimp only [act]
    split
    next b _ =>
      refine clean.fewer rfl (fun _ h => h) ?_ ?_ (fun _ h => h) fun _ h => h
      · intro there
        by_cases same : bucket = b
        · subst same
          exact absurd (by simp [Tables.deleteBucket]) there
        · simpa [Tables.deleteBucket, same] using there
      · intro key version tag there
        by_cases same : bucket = b
        · subst same
          exact absurd (by simp [Tables.deleteBucket]) there
        · simpa [Tables.deleteBucket, same] using there
    · exact clean
  | createBucket b owner now =>
    dsimp only [act, Tables.createBucketOwned]
    split
    · exact clean.same rfl rfl rfl rfl rfl
    · exact clean.same rfl rfl rfl rfl rfl
  | setBucketConfig b k v =>
    refine clean.mono (stored _ _) (fun key there => ?_) .inl (fun _ _ _ => .inl)
      (fun u mem _ => .inl mem) fun p mem into => .inl ⟨mem, into⟩
    refine (update_update_ne_none there).imp_right ?_
    rintro ⟨rfl, rfl, -⟩
    exact passed.trans (store_written_self _ _).ge
  | deleteBucketConfig b k =>
    refine clean.fewer rfl (fun key there => ?_) (fun h => h) (fun _ _ _ h => h) (fun _ h => h) fun _ h => h
    exact (update_update_ne_none there).resolve_right fun new => new.2.2 rfl
  | putBucketTags b tags =>
    refine clean.mono (stored _ _) (fun _ => .inl) (fun there => ?_) (fun _ _ _ => .inl)
      (fun u mem _ => .inl mem) fun p mem into => .inl ⟨mem, into⟩
    by_cases same : bucket = b
    · subst same
      exact .inr (passed.trans (store_written_self _ _).ge)
    · exact .inl (by simpa [act, store, Tables.putBucketTags, same] using there)
  | writeObjectTags b k v tags =>
    refine clean.mono (stored _ _) (fun _ => .inl) .inl (fun key version tag there => ?_)
      (fun u mem _ => .inl mem) fun p mem into => .inl ⟨mem, into⟩
    by_cases same : bucket = b ∧ key = k ∧ version = v
    · obtain ⟨rfl, rfl, rfl⟩ := same
      exact .inr (passed.trans (store_written_self _ _).ge)
    · exact .inl (by simpa [act, store, same] using there)
  | dropObjectTags b k versions =>
    refine clean.fewer rfl (fun _ h => h) (fun h => h) (fun key version tag there => ?_)
      (fun _ h => h) fun _ h => h
    by_cases same : bucket = b ∧ key = k ∧ versions version
    · exact absurd (by simp [act, same]) there
    · simpa [act, same] using there
  | createMultipartUpload record =>
    dsimp only [act]
    split
    next fresh =>
      obtain ⟨noUpload, noPart⟩ := isFresh_iff.mp fresh
      have added : (s.tables.multipart.createMultipartUpload record).uploads =
          s.tables.multipart.uploads ++ [record] := by
        have unused : s.tables.multipart.getMultipartUpload record.uploadId = none :=
          find?_eq_none.mpr fun u mem => by simpa using noUpload u mem
        simp [MultipartTables.createMultipartUpload, unused]
      have parts : (s.tables.multipart.createMultipartUpload record).parts = s.tables.multipart.parts := by
        unfold MultipartTables.createMultipartUpload
        split <;> rfl
      refine clean.mono (stored _ _) (fun _ => .inl) .inl (fun _ _ _ => .inl) ?_ ?_
      · intro u mem into
        rcases mem_append.mp (added ▸ mem) with old | new
        · exact .inl old
        · rw [mem_singleton.mp new]
          exact .inr (passed.trans (store_written_self _ _).ge)
      · rintro p mem ⟨u, there, own, into⟩
        have mem : p ∈ s.tables.multipart.parts := parts ▸ mem
        rcases mem_append.mp (added ▸ there) with old | new
        · exact .inl ⟨mem, u, old, own, into⟩
        · rw [mem_singleton.mp new] at own
          exact absurd own.symm (noPart p mem)
    · exact clean
  | putPart part =>
    refine clean.mono (stored _ _) (fun _ => .inl) .inl (fun _ _ _ => .inl)
      (fun u mem _ => .inl mem) fun p mem into => ?_
    rcases MultipartTables.mem_putPart.mp mem with ⟨old, -⟩ | rfl
    · exact .inl ⟨old, into⟩
    · exact .inr (passed.trans (store_written_self _ _).ge)
  | takeUpload uploadId =>
    exact clean.fewer rfl (fun _ h => h) (fun h => h) (fun _ _ _ h => h)
      (fun u mem => (mem_filter.mp mem).1) fun p mem => (mem_filter.mp mem).1
  | objects op => exact clean.same rfl rfl rfl rfl rfl

lemma clean_step (e : Event) (passed : since ≤ s.clock) (clean : Clean since bucket s) :
    Clean since bucket (s.step e) :=
  (clean_act e passed clean).same rfl rfl rfl rfl rfl

lemma clean_foldl (events : List Event) (passed : since ≤ s.clock) (clean : Clean since bucket s) :
    Clean since bucket (events.foldl step s) :=
  (Run.always_of_step (P := fun s => since ≤ s.clock ∧ Clean since bucket s)
    (fun _ e now => ⟨now.1.trans (Nat.le_succ _), clean_step e now.1 now.2⟩) ⟨passed, clean⟩ events).last.2

def Past (s : Node) : Prop := ∀ row, s.written row < s.clock

lemma past_step (e : Event) (past : s.Past) : (s.step e).Past := by
  have stored : ∀ row tables other, (s.store row tables).written other < s.clock + 1 := by
    intro row tables other
    by_cases same : other = row
    · subst same
      simp [store]
    · simpa [store, same] using (past other).trans (Nat.lt_succ_self _)
  have kept : ∀ other, s.written other < s.clock + 1 := fun other =>
    (past other).trans (Nat.lt_succ_self _)
  intro other
  change (s.act e).written other < s.clock + 1
  cases e with
  | setBucketConfig | putBucketTags | writeObjectTags | putPart => exact stored _ _ other
  | createMultipartUpload record =>
    dsimp only [act]
    split
    · exact stored _ _ other
    · exact kept other
  | deleteBucket | head | checkEmpty | remove =>
    dsimp only [act]
    split <;> exact kept other
  | createBucket | deleteBucketConfig | dropObjectTags | takeUpload | objects => exact kept other

lemma past_foldl (history : List Event) : (history.foldl step initial).Past :=
  (Run.always_of_step (fun _ e past => past_step e past) (fun _ => Nat.zero_lt_one) history).last

def Removes (s : Node) (id : ℕ) (bucket : String) : Prop :=
  s.deleting id = some (.empty bucket) ∧ (s.tables.headBucket bucket).isSome

lemma tables_remove {id : ℕ} (removes : s.Removes id bucket) :
    (s.step (.remove id)).tables = (s.tables.deleteBucket bucket).1 := by
  simp [step, act, removes.1]

/-- Removal leaves a bucket clean that has no configuration and no uploads. -/
lemma clean_remove {id : ℕ} (removes : s.Removes id bucket)
    (config : ∀ key, s.tables.config bucket key = none)
    (uploads : ∀ u ∈ s.tables.multipart.uploads, u.bucket ≠ bucket) :
    Clean since bucket (s.step (.remove id)) where
  config key there := absurd (config key) (by simpa [tables_remove removes] using there)
  bucketTags there := absurd (by simp [tables_remove removes, Tables.deleteBucket]) there
  objectTags key version tag there := absurd (by simp [tables_remove removes, Tables.deleteBucket]) there
  uploads u mem into := absurd into (uploads u (by simpa [tables_remove removes] using mem))
  parts p _ own := by
    obtain ⟨u, mem, -, into⟩ := own
    exact absurd into (uploads u (by simpa [tables_remove removes] using mem))

/-- After `DeleteBucket` and a later `CreateBucket` the bucket is clean, whatever else
happens, exactly when at the deletion it had no configuration and no multipart upload. -/
theorem recreated_bucket_clean_iff (history : List Event) (id : ℕ) :
    (∀ bucket, (history.foldl step initial).Removes id bucket →
      ∀ between owner now later, Clean (history.foldl step initial).clock bucket
        ((between ++ .createBucket bucket owner now :: later).foldl step
          ((history.foldl step initial).step (.remove id)))) ↔
      ∀ bucket, (history.foldl step initial).Removes id bucket →
        (∀ key, (history.foldl step initial).tables.config bucket key = none) ∧
          ∀ u ∈ (history.foldl step initial).tables.multipart.uploads, u.bucket ≠ bucket := by
  have past := past_foldl history
  generalize history.foldl step initial = s at past ⊢
  refine forall₂_congr fun bucket removes => ?_
  constructor
  · intro always
    -- creating the bucket again touches neither its configuration nor its uploads
    have clean := always [] "" 0 []
    set again := ([] ++ Event.createBucket bucket "" 0 :: []).foldl step (s.step (.remove id))
    have config : again.tables.config = s.tables.config := by
      simp [again, step, act, removes.1]
    have multipart : again.tables.multipart = s.tables.multipart := by
      simp [again, step, act, removes.1]
    have written : again.written = s.written := by
      simp [again, step, act, removes.1, setDeleting]
    constructor
    · intro key
      by_contra there
      have since := clean.config key (config ▸ there)
      rw [written] at since
      exact absurd (past _) (not_lt.mpr since)
    · intro u mem into
      have since := clean.uploads u (multipart ▸ mem) into
      rw [written] at since
      exact absurd (past _) (not_lt.mpr since)
  · rintro ⟨config, uploads⟩ between owner now later
    exact clean_foldl _ (Nat.le_succ _) (clean_remove removes config uploads)

/-- A bucket with versioning enabled and an upload under way is deleted and created
again. -/
def deletedWithLeftovers : List Event :=
  [.createBucket "b" "root" 0, .setBucketConfig "b" "versioning" "Enabled",
    .createMultipartUpload ⟨"u", "b", "k", none, 1, [], none, "root", none⟩,
    .putPart ⟨"u", 1, "blob", 5, "etag", none, none⟩,
    .deleteBucket 0 "b", .head 0, .checkEmpty 0]

theorem recreated_bucket_keeps_leftovers : let s := deletedWithLeftovers.foldl step initial
    let t := (s.step (.remove 0)).step (.createBucket "b" "other" 9)
    s.Removes 0 "b" ∧ t.tables.headBucket "b" = some ⟨"b", 9, "other"⟩ ∧
      t.tables.getVersioningState "b" = .enabled ∧
      t.tables.multipart.uploads.map (·.uploadId) = ["u"] ∧
      t.tables.multipart.parts.map (·.partNumber) = [1] ∧ ¬ Clean s.clock "b" t := by
  refine ⟨⟨rfl, rfl⟩, rfl, by decide, rfl, rfl, fun clean => ?_⟩
  exact absurd (clean.config "versioning" (by decide)) (by decide)

end Node
end Arca.BucketLife
