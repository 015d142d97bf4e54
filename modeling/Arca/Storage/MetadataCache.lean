import Arca.Lib.ReadThrough

/-!
# The metadata cache

A miss reads the backend and inserts what it read, whatever has happened in
between. A write is forwarded and, if the backend took it, removes the entry of
the bucket or the key it names before it returns; a batch delete removes the
entry of every key it names, one after another and whatever became of them.
-/
namespace Arca.MetadataCache
open ReadThrough
variable {σ β ρ π : Type*}

inductive Lookup where
  | headBucket (name : String)
  | getLatestObject (bucket key : String)
  /-- Forwarded to the backend every time. -/
  | getObject (bucket key : String)
deriving DecidableEq

def Lookup.isCached : Lookup → Bool
  | .headBucket _ | .getLatestObject _ _ => true
  | .getObject _ _ => false

inductive Found (β ρ : Type*) where
  | bucket (info : Option β)
  | object (record : Option ρ)
deriving DecidableEq

/-- The writes that are forwarded and then invalidate, with the names they invalidate. -/
inductive Call where
  | createBucketOwned (name : String)
  | deleteBucket (name : String)
  | applyRemoteBucket (name : String)
  | putObjectIf (bucket key : String)
  | putObjectTaggedIf (bucket key : String)
  | deleteObjectIf (bucket key : String)
  | deleteObjectsIf (bucket : String) (keys : List String)
  | deleteObjectVersionIf (bucket key : String)
  | applyRemoteObject (bucket key : String)
  | applyRemoteVersionDelete (bucket key : String)
  | completeMultipartObject (bucket key : String)
  | completeMultipartObjectTagged (bucket key : String)
  | setObjectRetention (bucket key : String)
  | setObjectLegalHold (bucket key : String)
  | updateObjectEncryption (bucket key : String)
  | updateObjectEncryptionCas (bucket key : String)

inductive Target where
  | bucket (name : String)
  | object (bucket key : String)

def Call.targets : Call → List Target
  | .createBucketOwned name | .deleteBucket name | .applyRemoteBucket name => [.bucket name]
  | .deleteObjectsIf bucket keys => keys.map (.object bucket)
  | .putObjectIf bucket key | .putObjectTaggedIf bucket key | .deleteObjectIf bucket key
  | .deleteObjectVersionIf bucket key | .applyRemoteObject bucket key
  | .applyRemoteVersionDelete bucket key | .completeMultipartObject bucket key
  | .completeMultipartObjectTagged bucket key | .setObjectRetention bucket key
  | .setObjectLegalHold bucket key | .updateObjectEncryption bucket key
  | .updateObjectEncryptionCas bucket key => [.object bucket key]

def Target.concerns : Target → Lookup → Bool
  | .bucket name, .headBucket name' => name = name'
  | .object within key, .getLatestObject within' key' => within = within' && key = key'
  | .object within key, .getObject within' key' => within = within' && key = key'
  | _, _ => false

/-- The store behind the cache: what its lookups find, and what a call it takes, with its
other arguments, makes of it. -/
structure Backend (σ β ρ π : Type*) where
  headBucket : String → σ → Option β
  getLatestObject : String → String → σ → Option ρ
  getObject : String → String → σ → Option ρ
  run : Call → π → σ → σ

variable (B : Backend σ β ρ π)

def Backend.read : Lookup → σ → Found β ρ
  | .headBucket name, s => .bucket (B.headBucket name s)
  | .getLatestObject bucket key, s => .object (B.getLatestObject bucket key s)
  | .getObject bucket key, s => .object (B.getObject bucket key s)

def cachingMetadataStore : Design Lookup (Call × π) σ (Found β ρ) where
  read := B.read
  write call := B.run call.1 call.2
  keeps lookup _ := lookup.isCached
  guarded := false
  touches call lookup := call.1.targets.any fun target => target.concerns lookup
  clears call := call.1.targets.map Target.concerns
  clearsOnError call := match call.1 with
    | .deleteObjectsIf _ _ => true
    | _ => false
  countsDropped := false
  covers call lookup touched := by
    obtain ⟨target, named, concerned⟩ := List.any_eq_true.mp touched
    exact ⟨target.concerns, List.mem_map_of_mem named, concerned⟩

variable (s : State Lookup (Call × π) σ (Found β ρ))

/-- What a miss read is inserted before any write of the same name that it has not seen is
past its invalidation. -/
def NotOvertaken : Event Lookup (Call × π) → Prop
  | .insert id => ∀ lookup floor generation entry,
      s.readers id = some (.fetched lookup floor generation entry) →
      lookup.isCached → s.floor lookup ≤ entry.stamp
  | _ => True

lemma undisturbed_iff_notOvertaken (e : Event Lookup (Call × π)) :
    Undisturbed (cachingMetadataStore B) s e ↔ NotOvertaken s e := by
  have admitted : ∀ lookup generation (entry : Entry (Found β ρ)),
      Admits (cachingMetadataStore B) s lookup generation entry ↔ lookup.isCached := by
    intro lookup generation entry
    exact and_iff_left fun guarded => by cases guarded
  cases e with
  | insert id => simp only [Undisturbed, NotOvertaken, admitted]
  | commit id => exact iff_of_true (fun _ _ _ counts => by cases counts) trivial
  | drop id => exact iff_of_true (fun _ _ _ _ _ _ counts => by cases counts) trivial
  | start | note | fetch | fail | submit | refuse | clear | evict => exact Iff.rfl

/-- The metadata cache is coherent throughout a run exactly when no lookup inserts what it read
behind the invalidation of a write it has not seen. -/
theorem metadata_cache_coherent_iff (B : Backend σ β ρ π) (store : σ)
    (events : List (Event Lookup (Call × π))) :
    Run.Always (step (cachingMetadataStore B)) (Coherent (cachingMetadataStore B))
        (State.initial store) events ↔
      Run.Each (step (cachingMetadataStore B)) NotOvertaken (State.initial store) events := by
  refine (coherent_iff_undisturbed store events).trans ?_
  exact Run.each_congr (P := fun _ => True) (fun _ _ _ => trivial)
    (fun s e _ => undisturbed_iff_notOvertaken B s e) trivial events

/-- One bucket's keys with their contents; a put replaces the content. -/
def contents : Backend (String → Option String) Unit String String where
  headBucket _ _ := some ()
  getLatestObject _ key s := s key
  getObject _ key s := s key
  run call content s := match call with
    | .putObjectIf _ key => Function.update s key (some content)
    | _ => s

/-- The key is overwritten between the read of a lookup and its insertion. -/
def slowReader : List (Event Lookup (Call × String)) :=
  [.start 0 (.getLatestObject "b" "k"), .note 0, .fetch 0,
    .submit 0 (.putObjectIf "b" "k", "new"), .commit 0, .clear 0,
    .insert 0, .start 1 (.getLatestObject "b" "k")]

theorem slow_reader_brings_back_overwritten :
    let s := slowReader.foldl (step (cachingMetadataStore contents)) (State.initial fun _ => some "old")
    s.answers.head?.map (fun a => (a.floor, a.entry.stamp, a.entry.value)) =
        some (1, 0, .object (some "old")) ∧
      contents.getLatestObject "b" "k" s.store = some "new" ∧
      ¬ Coherent (cachingMetadataStore contents) s := by
  intro s
  refine ⟨by decide, by decide, fun coherent => ?_⟩
  have given : (⟨.getLatestObject "b" "k", 1, ⟨.object (some "old"), 0⟩⟩ : Answer _ _) ∈ s.answers :=
    List.mem_cons_self
  exact absurd (coherent.answers _ given).fresh (by decide)

end Arca.MetadataCache
