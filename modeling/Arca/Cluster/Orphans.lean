import Arca.Cluster.ControlMutation
import Arca.Cluster.Convergence

/-!
# Children without parents

Nodes change their control planes and pull from each other. A delete leaves a
tombstone of the parent alone and relies on the cascades and on the merge to keep its
children away.
-/
namespace Arca.Cluster
open ControlSnapshot List ControlMutation Function ControlSnapshot

/-- Every row stands beside the entities it refers to. -/
def NoOrphans (x : ControlSnapshot) : Prop :=
  ∀ e r, (x e).row = some r → ∀ p, p ∈ e.parents ∨ p ∈ e.owners r.1 → (x p).row.isSome = true

inductive ControlEvent (ν : Type) where
  | mutate (n : ν) (m : ControlMutation)
  | pull (n m : ν)

variable {ν : Type} [DecidableEq ν]

section
variable (s : ν → ControlSnapshot)

def controlStep : ControlEvent ν → ν → ControlSnapshot
  | .mutate n m => update s n (m.run (s n))
  | .pull n m => Gossip.pull merge s (n, m)

/-- No configuration of a bucket is left where the bucket goes. -/
def Unconfigured (x : ControlSnapshot) (e : Entity) : Prop :=
  ∀ b, e = .bucket b → ∀ k, (x (.bucketConfig b k)).row = none

/-- A row is written where what it refers to exists, and a bucket is deleted
after its configuration. -/
structure SafeMutation (x : ControlSnapshot) (m : ControlMutation) : Prop where
  written : ∀ r, (m.change.slot (x m.target)).row = some r →
    ∀ p, p ∈ m.target.parents ∨ p ∈ m.target.owners r.1 → (x p).row.isSome = true
  deleted : m.change.deletes = true → Unconfigured x m.target

/-- Of the two nodes, the puller holds no configuration of a bucket whose newest
event is a deletion, and the other no newer credential of such a user. -/
structure SafePull (x y : ControlSnapshot) : Prop where
  buckets : ∀ e, (x e).DeadWith (y e) → Unconfigured x e
  credentials : ∀ k c t, (y (.credential k)).row = some (c, t) →
    (x (.credential k)).rowStamp < t → ¬ (x (.user c.userId)).DeadWith (y (.user c.userId))

/-- A bucket is created only once no node holds it any more. -/
def Vacant (n : ν) : ControlMutation → Prop
  | .createBucketOwned b _ _ => (s n (.bucket b)).row = none → ∀ k, (s k (.bucket b)).row = none
  | _ => True

def SafeStep : ControlEvent ν → Prop
  | .mutate n m => SafeMutation (s n) m ∧ Vacant s n m
  | .pull n m => SafePull (s n) (s m)

end

variable {x : ControlSnapshot} {m : ControlMutation} {s : ν → ControlSnapshot}
  {es : List (ControlEvent ν)}

lemma NoOrphans.run (h : NoOrphans x) (safe : SafeMutation x m) : NoOrphans (m.run x) := by
  intro e r row p refers
  have root : p.IsRoot := refers.elim Entity.isRoot_of_mem_parents Entity.isRoot_of_mem_owners
  by_cases target : e = m.target
  · subst target
    rw [run_target] at row
    have other : p ≠ m.target := by
      rintro rfl
      rcases refers with parent | owner
      · simp [root.parents] at parent
      · simp [root.owners] at owner
    rw [row_run_of_root root other]
    exact safe.written r row p refers
  · obtain ⟨held, spared⟩ := row_run_of_ne target row
    have present := h e r held p refers
    by_cases same : p = m.target
    · subst same
      rw [run_target]
      -- a parent that goes takes its children along, all but configurations
      by_contra gone
      have none := Option.not_isSome_iff_eq_none.mp gone
      have deletes := Change.deletes_of_row_none present none
      have left := spared deletes
      obtain ⟨b, k, rfl, bucket⟩ :=
        Entity.config_of_mem_parents (refers.resolve_right left) left
      simp [safe.deleted deletes b bucket k] at held
    · rw [row_run_of_root root same]
      exact present

lemma NoOrphans.merge {y : ControlSnapshot} (hx : NoOrphans x) (hy : NoOrphans y)
    (safe : SafePull x y) : NoOrphans (merge x y) := by
  intro e r row p refers
  have root : p.IsRoot := refers.elim Entity.isRoot_of_mem_parents Entity.isRoot_of_mem_owners
  apply isSome_merge_of_aliveAfter root
  obtain ⟨kept, source⟩ := row_merge row
  rcases source with mine | ⟨remote, newer, alive⟩
  · have present := hx e r mine p refers
    refine aliveAfter_iff.mpr ⟨fun dead => ?_, .inl present⟩
    have notOwner : p ∉ e.owners r.1 := fun owner =>
      absurd (delete_iff.mpr ⟨root.shared, dead, present⟩) (by simp [kept p owner])
    obtain ⟨b, k, rfl, bucket⟩ :=
      Entity.config_of_mem_parents (refers.resolve_right notOwner) notOwner
    simp [safe.buckets p dead b bucket k] at mine
  · rcases refers with parent | owner
    · exact alive p parent
    · have present := hy e r remote p (.inr owner)
      cases e with
      | credential k =>
        obtain rfl := mem_singleton.mp owner
        have stamp : (y (.credential k)).rowStamp = r.2 := by
          simp [Slot.rowStamp, Slot.alive, remote, stampOf]
        exact aliveAfter_iff.mpr
          ⟨safe.credentials k r.1 r.2 remote (stamp ▸ newer), .inr present⟩
      | userGrant | teamGrant | teamMember | bucketTags | part => exact alive p owner
      | user | team | grant | bucket | bucketConfig | serverConfig | multipartUpload => cases owner

lemma noOrphans_step (h : ∀ n, NoOrphans (s n)) {e : ControlEvent ν}
    (safe : SafeStep s e) : ∀ n, NoOrphans (controlStep s e n) := by
  cases e with
  | mutate n m =>
    intro k
    by_cases same : k = n
    · subst same
      simpa only [controlStep, update_self] using (h k).run safe.1
    · simpa only [controlStep, update_of_ne same] using h k
  | pull n m =>
    intro k
    unfold controlStep Gossip.pull
    dsimp only
    split
    · exact h k
    · by_cases same : k = n
      · subst same
        simpa only [update_self] using (h k).merge (h m) safe
      · simpa only [update_of_ne same] using h k

lemma rows_run {e : Entity} {W : e.Payload × Instant → Prop}
    (writes : ∀ n m, .mutate n m ∈ es → ∀ x r, (m.run x e).row = some r → (x e).row = some r ∨ W r)
    (h : ∀ n r, (s n e).row = some r → W r) :
    ∀ n r, (es.foldl controlStep s n e).row = some r → W r := by
  induction es generalizing s with
  | nil => exact h
  | cons event es ih =>
    refine ih (fun n m mem => writes n m (mem_cons_of_mem _ mem)) ?_
    cases event with
    | mutate n m =>
      intro k r row
      by_cases same : k = n
      · subst same
        simp only [controlStep, update_self] at row
        rcases writes k m mem_cons_self _ r row with held | new
        · exact h k r held
        · exact new
      · simp only [controlStep, update_of_ne same] at row
        exact h k r row
    | pull n m =>
      refine Gossip.forall_pull (P := fun x : ControlSnapshot => ∀ r, (x e).row = some r → W r) ?_ h (n, m)
      intro x y hx hy r row
      rcases (row_merge row).2 with mine | ⟨remote, -⟩
      · exact hx r mine
      · exact hy r remote

lemma row_run_config {b k : String}
    {r : String × Instant} (row : (m.run x (.bucketConfig b k)).row = some r) :
    (x (.bucketConfig b k)).row = some r ∨ m = .setBucketConfig b k r.1 r.2 := by
  by_cases target : Entity.bucketConfig b k = m.target
  · cases m with
    | setBucketConfig b' k' value now =>
      cases target
      have written := row_run_target (m := .setBucketConfig b k value now) row
      cases written
      exact .inr rfl
    | deleteBucketConfig b' k' now =>
      cases target
      have written := row_run_target (m := .deleteBucketConfig b k now) row
      cases written
    | _ => cases target
  · exact .inl (row_run_of_ne target row).1

lemma row_run_tags {b : String}
    {r : List (String × String) × Instant} (row : (m.run x (.bucketTags b)).row = some r) :
    (x (.bucketTags b)).row = some r ∨ m = .putBucketTags b r.1 r.2 := by
  by_cases target : Entity.bucketTags b = m.target
  · cases m with
    | putBucketTags b' tags now =>
      cases target
      have written := row_run_target (m := .putBucketTags b tags now) row
      simp only [change] at written
      split at written
      · cases written
      · cases written
        exact .inr rfl
    | deleteBucketTags b' now =>
      cases target
      have written := row_run_target (m := .deleteBucketTags b now) row
      cases written
    | _ => cases target
  · exact .inl (row_run_of_ne target row).1

/-- The configurations and tags of a bucket on any node are of calls made in the
run. -/
def WrittenIn (es : List (ControlEvent ν)) (b : String) (s : ν → ControlSnapshot) : Prop :=
  ∀ n, (∀ k v t, (s n (.bucketConfig b k)).row = some (v, t) →
      ∃ n', .mutate n' (.setBucketConfig b k v t) ∈ es) ∧
    ∀ tags t, (s n (.bucketTags b)).row = some (tags, t) →
      ∃ n', .mutate n' (.putBucketTags b tags t) ∈ es

lemma writtenIn_run {b : String}
    (h : ∀ n, NoOrphans (s n)) (vacant : ∀ n, (s n (.bucket b)).row = none) :
    WrittenIn es b (es.foldl controlStep s) := by
  intro n
  constructor
  · intro k v t row
    refine rows_run (W := fun r => ∃ n', .mutate n' (.setBucketConfig b k r.1 r.2) ∈ es)
      (fun n m mem x r row => ?_) (fun n r row => ?_) n (v, t) row
    · rcases row_run_config row with held | rfl
      · exact .inl held
      · exact .inr ⟨n, mem⟩
    · have present := h n _ r row (.bucket b) (.inl (mem_singleton_self _))
      simp [vacant n] at present
  · intro tags t row
    refine rows_run (W := fun r => ∃ n', .mutate n' (.putBucketTags b r.1 r.2) ∈ es)
      (fun n m mem x r row => ?_) (fun n r row => ?_) n (tags, t) row
    · rcases row_run_tags row with held | rfl
      · exact .inl held
      · exact .inr ⟨n, mem⟩
    · have present := h n _ r row (.bucket b) (.inl (mem_singleton_self _))
      simp [vacant n] at present

def configured : List (ControlEvent Bool) :=
  [.mutate true (.setBucketConfig "b" "versioning" "Enabled" 2)]

lemma safe_configured : Run.Each controlStep SafeStep (fun _ : Bool => empty)
    (.mutate true (.createBucketOwned "b" "root" 1) :: configured) := by
  refine ⟨⟨⟨fun r _ p refers => ?_, (fun deletes => nomatch deletes)⟩, fun _ _ => rfl⟩,
    ⟨⟨fun r _ p refers => ?_, (fun deletes => nomatch deletes)⟩, trivial⟩, trivial⟩
  · rcases refers with parent | owner
    · cases parent
    · cases owner
  · rcases refers with parent | owner
    · obtain rfl := mem_singleton.mp parent
      decide +kernel
    · cases owner

lemma untouched_run {e : Entity} (other : ∀ n m, .mutate n m ∈ es → e ≠ m.target)
    (h : ∀ n, s n e = Slot.empty) : ∀ n, es.foldl controlStep s n e = Slot.empty := by
  induction es generalizing s with
  | nil => exact h
  | cons event es ih =>
    refine ih (fun n m mem => other n m (mem_cons_of_mem _ mem)) ?_
    cases event with
    | mutate n m =>
      intro k
      by_cases same : k = n
      · subst same
        simpa only [controlStep, update_self] using
          run_empty (other k m mem_cons_self) (h k)
      · simpa only [controlStep, update_of_ne same] using h k
    | pull n m =>
      exact Gossip.forall_pull (P := fun x : ControlSnapshot => x e = Slot.empty)
        (fun _ _ => merge_empty) h (n, m)

def targets (es : List (ControlEvent ν)) : List Entity :=
  es.filterMap fun
    | .mutate _ m => some m.target
    | .pull _ _ => none

lemma quiet_of_targets (inside : ∀ e ∈ targets es, ∀ n m, (planControlMerge
      (es.foldl controlStep (fun _ => empty) n)
      (es.foldl controlStep (fun _ => empty) m) e).isEmpty = true) :
    ControlSnapshot.Quiet (es.foldl controlStep fun _ => empty) := by
  refine quiet_of_known (targets es) (fun e outside => untouched_run ?_ fun _ => rfl) inside
  rintro n m mem rfl
  exact outside (mem_filterMap.mpr ⟨_, mem, rfl⟩)

def userDeleted : List (ControlEvent Bool) :=
  [.mutate true (.putUser ⟨"u", "alice", "", false, 1⟩),
    .mutate true (.putCredential ⟨"K", "secret", "", 1, true, "u"⟩), .pull false true,
    .mutate true (.deleteUser "u" 50), .pull true false, .pull false true, .pull false true]

def bucketDeleted : List (ControlEvent Bool) :=
  [.mutate true (.createBucketOwned "b" "root" 1),
    .mutate true (.setBucketConfig "b" "versioning" "Enabled" 2), .pull false true,
    .mutate true (.deleteBucket "b" 50), .pull false true]

def bucketRecreated : List (ControlEvent Bool) :=
  bucketDeleted ++ [.mutate true (.createBucketOwned "b" "root" 60), .pull false true]

def tagsKept : List (ControlEvent Bool) :=
  [.mutate true (.createBucketOwned "b" "root" 1), .mutate true (.putBucketTags "b" [("k", "v")] 2),
    .pull false true, .mutate true (.deleteBucket "b" 50),
    .mutate true (.createBucketOwned "b" "root" 60), .pull true false, .pull false true]

def ended (es : List (ControlEvent Bool)) : Bool → ControlSnapshot :=
  es.foldl controlStep fun _ => empty

end Arca.Cluster
