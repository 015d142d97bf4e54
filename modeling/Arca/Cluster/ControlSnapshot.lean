import Arca.Auth.Policy
import Arca.Cluster.ControlMerge
import Arca.Types

/-!
# The control plane of a node

A snapshot holds a slot for every entity of every control-plane family. Identifiers
hold no colon, so the pair of two of them stands for the composite key; names are not
checked for uniqueness.
-/
namespace Arca.Cluster
open List Option

structure Team where
  name : String
  description : String
  createdAt : Instant
  deriving DecidableEq

structure Grant where
  name : String
  description : String
  document : Auth.PolicyDocument
  createdAt : Instant
  deriving DecidableEq

structure MultipartUpload where
  bucket : String
  key : String
  contentType : Option String
  metadata : List (String × String)
  checksumAlgorithm : Option String
  checksumType : Option String
  initiator : String
  deriving DecidableEq

structure Part where
  blobId : String
  size : Nat
  etag : String
  checksumValue : Option String
  lastModified : Option Instant
  deriving DecidableEq

inductive Entity where
  | credential (accessKeyId : String)
  | user (userId : String)
  | team (teamId : String)
  | grant (grantId : String)
  | bucket (name : String)
  | userGrant (userId grantId : String)
  | teamGrant (teamId grantId : String)
  | teamMember (teamId userId : String)
  | bucketConfig (bucket key : String)
  | bucketTags (bucket : String)
  | serverConfig (key : String)
  | multipartUpload (uploadId : String)
  | part (uploadId : String) (partNumber : Nat)
  deriving DecidableEq

namespace Entity

abbrev Payload : Entity → Type
  | credential _ => Credential
  | user _ => User
  | team _ => Team
  | grant _ => Grant
  | bucket _ => String
  | userGrant .. | teamGrant .. | teamMember .. => Unit
  | bucketConfig .. | serverConfig _ => String
  | bucketTags _ => List (String × String)
  | multipartUpload _ => MultipartUpload
  | part .. => Part

/-- The entities that have to be alive for a merge to take a row over. -/
def parents : Entity → List Entity
  | userGrant u g => [user u, grant g]
  | teamGrant t g => [team t, grant g]
  | teamMember t u => [team t, user u]
  | bucketConfig b _ | bucketTags b => [bucket b]
  | part u _ => [multipartUpload u]
  | _ => []

/-- The entities whose deletion takes the row along. The configuration of a
bucket is not among the rows `delete_bucket` removes. -/
def owners : (e : Entity) → e.Payload → List Entity
  | credential _, c => [user c.userId]
  | userGrant u g, _ => [user u, grant g]
  | teamGrant t g, _ => [team t, grant g]
  | teamMember t u, _ => [team t, user u]
  | bucketTags b, _ => [bucket b]
  | part u _, _ => [multipartUpload u]
  | _, _ => []

def nodeIdKey : String := "node_id"

/-- Node-local keys take no part in a merge. -/
def nodeLocal : Entity → Bool
  | serverConfig key => key = nodeIdKey
  | _ => false

/-- An upload is inserted and never replaced. -/
def insertOnly : Entity → Bool
  | multipartUpload _ => true
  | _ => false

/-- An entity with no parents of its own that nothing takes along. -/
structure IsRoot (p : Entity) : Prop where
  shared : p.nodeLocal = false
  parents : p.parents = []
  owners : ∀ r, p.owners r = []

variable {e p : Entity}

lemma isRoot_of_mem_parents (h : p ∈ e.parents) : p.IsRoot := by
  cases e <;> simp only [parents, mem_cons, not_mem_nil, or_false] at h <;>
    first
      | exact h.elim
      | (subst h; exact ⟨rfl, rfl, fun _ => rfl⟩)
      | (obtain rfl | rfl := h <;> exact ⟨rfl, rfl, fun _ => rfl⟩)

variable {r : e.Payload}

lemma mem_owners (h : p ∈ e.owners r) : p ∈ e.parents ∨ ∃ u, p = user u := by
  cases e with
  | credential => exact .inr ⟨_, mem_singleton.mp h⟩
  | userGrant | teamGrant | teamMember | bucketTags | part => exact .inl h
  | user | team | grant | bucket | bucketConfig | serverConfig | multipartUpload => cases h

lemma config_of_mem_parents (parent : p ∈ e.parents)
    (left : p ∉ e.owners r) : ∃ b k, e = bucketConfig b k ∧ p = bucket b := by
  cases e with
  | bucketConfig b k => exact ⟨b, k, rfl, mem_singleton.mp parent⟩
  | credential | user | team | grant | bucket | serverConfig | multipartUpload => cases parent
  | userGrant | teamGrant | teamMember | bucketTags | part => exact absurd parent left

lemma isRoot_of_mem_owners (h : p ∈ e.owners r) : p.IsRoot := by
  rcases mem_owners h with parent | ⟨u, rfl⟩
  · exact isRoot_of_mem_parents parent
  · exact ⟨rfl, rfl, fun _ => rfl⟩

end Entity

abbrev ControlSnapshot := (e : Entity) → Slot e.Payload

abbrev ControlMergePlan := (e : Entity) → KeyPlan e.Payload

namespace ControlSnapshot

def empty : ControlSnapshot := fun _ => Slot.empty

def set (s : ControlSnapshot) (e : Entity) (x : Slot e.Payload) : ControlSnapshot :=
  Function.update s e x

variable (mine remote : ControlSnapshot)

def aliveAfter (p : Entity) : Bool :=
  (resolveKey (mine p).alive (mine p).dead (remote p).alive (remote p).dead).alive

def planControlMerge : ControlMergePlan := fun e =>
  if e.nodeLocal then ⟨none, false, none, false⟩
  else (mine e).planMerge (e.parents.all (aliveAfter mine remote)) (remote e)

def cascade (p : Entity → Bool) (s : ControlSnapshot) : ControlSnapshot := fun e =>
  { s e with row := (s e).row.filter fun r => !(e.owners r.1).any p }

/-- Upserts come before deletes, so a delete takes fresh rows along too. -/
def applyControlMerge (s : ControlSnapshot) (plan : ControlMergePlan) : ControlSnapshot :=
  cascade (fun p => (plan p).delete) fun e =>
    (s e).applyMerge
      (if e.insertOnly && (s e).row.isSome then { plan e with upsert := none } else plan e)

def merge : ControlSnapshot := applyControlMerge mine (planControlMerge mine remote)

def Idle : Prop := ∀ e, (planControlMerge mine remote e).isEmpty = true

variable {mine remote : ControlSnapshot} {e p : Entity}

/-- A row of the peer is taken over if it is the newer one. -/
def taking (mine remote : ControlSnapshot) (e : Entity) : Bool :=
  e.parents.all (aliveAfter mine remote) && !(e.insertOnly && (mine e).row.isSome)

lemma applied_eq (shared : e.nodeLocal = false) :
    (mine e).applyMerge (if e.insertOnly && (mine e).row.isSome then
      { planControlMerge mine remote e with upsert := none } else planControlMerge mine remote e) =
      (mine e).applyMerge ((mine e).planMerge (taking mine remote e) (remote e)) := by
  cases inserted : e.insertOnly && (mine e).row.isSome <;>
    simp [planControlMerge, shared, taking, inserted, Slot.planMerge]

lemma merge_nodeLocal (h : e.nodeLocal = true) : merge mine remote e = mine e := by
  cases e with
  | serverConfig key =>
    have kept : ∀ row : Option (String × Instant), row.filter (fun _ => true) = row := by
      rintro (_ | _) <;> rfl
    simp [merge, applyControlMerge, cascade, planControlMerge, h, Entity.owners, Slot.applyMerge,
      kept]
  | _ => cases h

lemma merge_of_dead (shared : e.nodeLocal = false) (dead : (mine e).DeadWith (remote e)) :
    merge mine remote e = ⟨none, latest (mine e).dead (remote e).dead⟩ := by
  simp only [merge, applyControlMerge, cascade, applied_eq shared, applyMerge_of_dead dead,
    filter_none]

lemma merge_of_alive (shared : e.nodeLocal = false) (alive : ¬ (mine e).DeadWith (remote e)) :
    merge mine remote e =
      ⟨(if optionLt (mine e).alive (remote e).alive && taking mine remote e then (remote e).row
        else (mine e).row).filter fun r =>
          !(e.owners r.1).any fun o => (planControlMerge mine remote o).delete, none⟩ := by
  simp only [merge, applyControlMerge, cascade, applied_eq shared, applyMerge_of_alive alive]

lemma delete_iff : (planControlMerge mine remote p).delete = true ↔
    p.nodeLocal = false ∧ (mine p).DeadWith (remote p) ∧ (mine p).row.isSome = true := by
  unfold planControlMerge
  cases shared : p.nodeLocal with
  | true => simp
  | false =>
    rw [← deadWins_latest]
    cases wins : deadWins (latest (mine p).alive (remote p).alive)
      (latest (mine p).dead (remote p).dead) <;>
      simp [Slot.planMerge, resolveKey, wins]

lemma aliveAfter_iff : aliveAfter mine remote p = true ↔
    ¬ (mine p).DeadWith (remote p) ∧ ((mine p).row.isSome = true ∨ (remote p).row.isSome = true) := by
  unfold aliveAfter resolveKey
  rw [← deadWins_latest]
  cases wins : deadWins (latest (mine p).alive (remote p).alive)
    (latest (mine p).dead (remote p).dead) <;>
    simp [wins]

lemma isSome_merge_of_aliveAfter (root : p.IsRoot) (h : aliveAfter mine remote p = true) :
    (merge mine remote p).row.isSome = true := by
  obtain ⟨alive, held⟩ := aliveAfter_iff.mp h
  rw [merge_of_alive root.shared alive]
  have kept : ∀ row : Option (p.Payload × Instant), row.isSome = true →
      (row.filter fun r => !(p.owners r.1).any fun o =>
        (planControlMerge mine remote o).delete).isSome = true := by
    rintro (_ | r) some_row
    · cases some_row
    · simp [Option.filter, root.owners]
  apply kept
  cases mineRow : (mine p).row with
  | some r =>
    split
    · next taken =>
        cases remoteRow : (remote p).row with
        | none => simp [Slot.alive, mineRow, remoteRow, optionLt] at taken
        | some _ => rfl
    · rfl
  | none =>
    rw [mineRow] at held
    obtain ⟨r, remoteRow⟩ := isSome_iff_exists.mp (held.resolve_left Bool.false_ne_true)
    simp [taking, root.parents, mineRow, remoteRow, Slot.alive, optionLt]

lemma row_merge {x : e.Payload × Instant} (h : (merge mine remote e).row = some x) :
    (∀ o ∈ e.owners x.1, (planControlMerge mine remote o).delete = false) ∧
      ((mine e).row = some x ∨
        (remote e).row = some x ∧ (mine e).rowStamp < (remote e).rowStamp ∧
          ∀ p ∈ e.parents, aliveAfter mine remote p = true) := by
  cases shared : e.nodeLocal with
  | true =>
    rw [merge_nodeLocal shared] at h
    refine ⟨?_, .inl h⟩
    cases e with
    | serverConfig key => exact fun o mem => nomatch mem
    | _ => cases shared
  | false =>
    by_cases dead : (mine e).DeadWith (remote e)
    · rw [merge_of_dead shared dead] at h
      cases h
    · rw [merge_of_alive shared dead] at h
      obtain ⟨row, spared⟩ := filter_eq_some_iff.mp h
      refine ⟨fun o mem => ?_, ?_⟩
      · simpa using any_eq_false.mp (Bool.not_eq_true' _ |>.mp spared) o mem
      · split at row
        · next taken =>
            obtain ⟨newer, taking⟩ := Bool.and_eq_true_iff.mp taken
            have parents := (Bool.and_eq_true_iff.mp taking).1
            exact .inr ⟨row, (optionLt_iff _ _).mp newer, all_eq_true.mp parents⟩
        · exact .inl row

lemma dead_merge {t : Instant} (h : (merge mine remote e).dead = some t) :
    (mine e).dead = some t ∨ (remote e).dead = some t := by
  cases shared : e.nodeLocal with
  | true =>
    rw [merge_nodeLocal shared] at h
    exact .inl h
  | false =>
    by_cases dead : (mine e).DeadWith (remote e)
    · rw [merge_of_dead shared dead] at h
      exact latest_eq_some h
    · rw [merge_of_alive shared dead] at h
      cases h

lemma merge_empty (mineEmpty : mine e = Slot.empty) (remoteEmpty : remote e = Slot.empty) :
    merge mine remote e = Slot.empty := by
  have row : (merge mine remote e).row = none := by
    refine eq_none_iff_forall_ne_some.mpr fun r found => ?_
    rcases (row_merge found).2 with held | ⟨held, -⟩
    · simp [mineEmpty, Slot.empty] at held
    · simp [remoteEmpty, Slot.empty] at held
  have dead : (merge mine remote e).dead = none := by
    refine eq_none_iff_forall_ne_some.mpr fun t found => ?_
    rcases dead_merge found with held | held
    · simp [mineEmpty, Slot.empty] at held
    · simp [remoteEmpty, Slot.empty] at held
  exact congrArg₂ Slot.mk row dead

end ControlSnapshot
end Arca.Cluster
