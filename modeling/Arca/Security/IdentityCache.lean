import Arca.Lib.ReadThrough

/-!
# The identity cache

A miss notes the generation, reads the backend and caches what it found only if
the generation is still the same. Every identity write is awaited and then,
whatever became of it, counts the generation up and empties the cache. A write
whose future is dropped while it is awaited does neither, although the backend
may still commit it.
-/
namespace Arca.IdentityCache
open ReadThrough
variable {σ γ μ φ π : Type*}

inductive Lookup where
  | getCredential (accessKeyId : String)
  | getUser (userId : String)
  | getEffectivePolicies (userId : String)
deriving DecidableEq

/-- Credentials, users and policy documents are left to the backend. -/
inductive Found (γ μ φ : Type*) where
  | credential (credential : Option γ)
  | user (user : Option μ)
  | policies (documents : List φ)
deriving DecidableEq

/-- Lookups that find nothing are not cached; an empty list of policies is. -/
def Found.isCached : Found γ μ φ → Bool
  | .credential found => found.isSome
  | .user found => found.isSome
  | .policies _ => true

inductive Call where
  | putCredential | deleteCredential | updateCredential | applyRemoteCredential
  | putUser | updateUser | deleteUser | applyRemoteUser
  | putGrant | updateGrant | deleteGrant | applyRemoteGrant
  | attachToUser | detachFromUser | attachToTeam | detachFromTeam
  | putTeam | updateTeam | deleteTeam | applyRemoteTeam
  | addMember | removeMember
  | applyCredentialAt | applyUserAt | applyTeamAt
  | applyUserGrantAt | applyTeamGrantAt | applyTeamMemberAt
  | applyControlMerge | applyControlTombstone
  | applyServerConfigAt | recordControlTombstone | deleteControlTombstone | purgeControlTombstones
deriving DecidableEq

/-- The calls that go through `write`. Server settings and the tombstones themselves are
not identity data. -/
def Call.isIdentityWrite : Call → Bool
  | .applyServerConfigAt | .recordControlTombstone | .deleteControlTombstone
  | .purgeControlTombstones => false
  | _ => true

/-- The store behind the cache. One call may change the answer of any lookup. -/
structure Backend (σ γ μ φ π : Type*) where
  getCredential : String → σ → Option γ
  getUser : String → σ → Option μ
  getEffectivePolicies : String → σ → List φ
  run : Call → π → σ → σ

variable (B : Backend σ γ μ φ π)

def Backend.read : Lookup → σ → Found γ μ φ
  | .getCredential accessKeyId, s => .credential (B.getCredential accessKeyId s)
  | .getUser userId, s => .user (B.getUser userId s)
  | .getEffectivePolicies userId, s => .policies (B.getEffectivePolicies userId s)

def cachingIdentityStore : Design Lookup (Call × π) σ (Found γ μ φ) where
  read := B.read
  write call := B.run call.1 call.2
  keeps _ found := found.isCached
  guarded := true
  touches call _ := call.1.isIdentityWrite
  clears call := if call.1.isIdentityWrite then [fun _ => true] else []
  clearsOnError _ := true
  countsDropped := true
  covers call lookup touched := by
    rw [if_pos touched]
    exact ⟨_, List.mem_singleton_self _, rfl⟩

variable (s : State Lookup (Call × π) σ (Found γ μ φ))

/-- The identity write committed with this stamp, and its future was dropped before it had
emptied the cache. -/
def CommittedUnseen (stamp : ℕ) : Prop :=
  ∃ id call left, s.writers id = some ⟨call, .committed stamp, left, true⟩ ∧ call.1.isIdentityWrite

/-- Dropped writes leave nothing older than themselves in the cache or on its way there. -/
def LeavesNothingBehind : Event Lookup (Call × π) → Prop
  | .commit id => ∀ call left, s.writers id = some ⟨call, .running, left, true⟩ →
      call.1.isIdentityWrite → ∀ lookup, s.cache lookup = none
  | .drop id => ∀ call stamp c left dropped,
      s.writers id = some ⟨call, .committed stamp, c :: left, dropped⟩ → call.1.isIdentityWrite →
      ∀ lookup entry, s.cache lookup = some entry → stamp ≤ entry.stamp
  | .insert id => ∀ lookup floor generation entry,
      s.readers id = some (.fetched lookup floor generation entry) → entry.value.isCached →
      generation = s.generation → ∀ stamp, CommittedUnseen s stamp → stamp ≤ entry.stamp
  | _ => True

lemma accounted_iff_leavesNothingBehind (e : Event Lookup (Call × π)) :
    Accounted (cachingIdentityStore B) s e ↔ LeavesNothingBehind s e := by
  cases e with
  | insert id =>
    refine forall₄_congr fun lookup floor generation entry => forall_congr' fun _ => ?_
    constructor
    · exact fun known cached current => known ⟨cached, fun _ => current⟩
    · exact fun known admitted => known admitted.1 (admitted.2 rfl)
  | commit id =>
    tauto
  | drop id =>
    tauto
  | start | note | fetch | fail | submit | refuse | clear | evict => exact Iff.rfl

/-- The identity cache is coherent throughout a run exactly when dropped writes that commit
leave nothing older than themselves behind. -/
theorem identity_cache_coherent_iff (B : Backend σ γ μ φ π) (store : σ)
    (events : List (Event Lookup (Call × π))) :
    Run.Always (step (cachingIdentityStore B)) (Coherent (cachingIdentityStore B))
        (State.initial store) events ↔
      Run.Each (step (cachingIdentityStore B)) LeavesNothingBehind (State.initial store) events := by
  refine (coherent_iff_accounted rfl rfl store events).trans ?_
  exact Run.each_congr (P := fun _ => True) (fun _ _ _ => trivial)
    (fun s e _ => accounted_iff_leavesNothingBehind B s e) trivial events

def activeKeys : Backend (String → Bool) Bool Unit Unit String where
  getCredential accessKeyId s := some (s accessKeyId)
  getUser _ _ := none
  getEffectivePolicies _ _ := []
  run call accessKeyId s := match call with
    | .updateCredential => Function.update s accessKeyId false
    | _ => s

/-- The request that deactivates a cached credential is dropped while its write is queued. -/
def droppedDeactivation : List (Event Lookup (Call × String)) :=
  [.start 0 (.getCredential "AKIA"), .note 0, .fetch 0, .insert 0,
    .submit 0 (.updateCredential, "AKIA"), .drop 0, .commit 0,
    .start 1 (.getCredential "AKIA")]

theorem dropped_deactivation_is_not_seen :
    let s := droppedDeactivation.foldl (step (cachingIdentityStore activeKeys)) (State.initial fun _ => true)
    s.answers.head?.map (fun a => (a.floor, a.entry.stamp, a.entry.value)) =
        some (1, 0, .credential (some true)) ∧
      activeKeys.getCredential "AKIA" s.store = some false ∧
      ¬ Coherent (cachingIdentityStore activeKeys) s := by
  intro s
  refine ⟨by decide, by decide, fun coherent => ?_⟩
  have given : (⟨.getCredential "AKIA", 1, ⟨.credential (some true), 0⟩⟩ : Answer _ _) ∈ s.answers :=
    List.mem_cons_self
  exact absurd (coherent.answers _ given).fresh (by decide)

end Arca.IdentityCache
