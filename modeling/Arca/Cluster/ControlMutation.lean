import Arca.Cluster.ControlSnapshot
import Arca.Cluster.Revocation

/-!
# Local changes of the control plane

The calls of the credential, user, team, grant, metadata and server-config stores
on one node of a cluster: what each writes, which tombstone it clears or leaves,
and what its deletes take along. The stores do not look whether the parents of a
row exist.
-/
namespace Arca.Cluster

/-- The statement a call runs on the row of its entity. -/
inductive Change (α : Type) where
  /-- `INSERT`: the call fails where a row exists. A tombstone is cleared. -/
  | insert (row : α) (stamp : Instant)
  /-- `UPDATE`: nothing is written without a row or without a field to set. -/
  | modify (change : Option (α → α)) (now : Instant)
  | put (row : α) (stamp : Instant) (clears : Bool)
  /-- `DELETE`. The tombstone is left if a row existed, or in any case. -/
  | remove (tombstone : Option Instant) (always : Bool)

namespace Change
variable {α : Type}

def slot (x : Slot α) : Change α → Slot α
  | insert row stamp => if x.row.isSome then x else ⟨some (row, stamp), none⟩
  | modify none _ => x
  | modify (some f) now => { x with row := x.row.map fun r => (f r.1, now) }
  | put row stamp clears => ⟨some (row, stamp), if clears then none else x.dead⟩
  | remove tombstone always =>
    ⟨none, if x.row.isSome || always then tombstone.or x.dead else x.dead⟩

def deletes : Change α → Bool
  | remove .. => true
  | _ => false

lemma deletes_of_row_none {x : Slot α} {c : Change α} (held : x.row.isSome = true)
    (gone : (c.slot x).row = none) : c.deletes = true := by
  cases c with
  | insert row stamp =>
    rw [slot, if_pos held] at gone
    simp [gone] at held
  | modify change now =>
    cases change with
    | none =>
      rw [slot] at gone
      simp [gone] at held
    | some f =>
      rw [slot, Option.map_eq_none_iff] at gone
      simp [gone] at held
  | put row stamp clears => cases gone
  | remove tombstone always => rfl

end Change

/-- `DateTime::<Utc>::MIN_UTC`, in nanoseconds. -/
def minUtc : Instant := -8334601228800 * 1000000000

def Part.stamp (p : Part) : Instant := p.lastModified.getD minUtc

variable (name description : Option String)

def Team.change : Option (Team → Team) :=
  if name.isNone && description.isNone then none
  else some fun t =>
    { t with name := name.getD t.name, description := description.getD t.description }

/-- The timestamp is refreshed even when no field is given. -/
def Grant.change (document : Option Auth.PolicyDocument) : Option (Grant → Grant) :=
  some fun g =>
    { g with
      name := name.getD g.name
      description := description.getD g.description
      document := document.getD g.document }

inductive ControlMutation where
  | putCredential (credential : Credential)
  | updateCredential (accessKeyId : String) (active : Option Bool) (description : Option String)
      (now : Instant)
  | deleteCredential (accessKeyId : String) (now : Instant)
  | putUser (user : User)
  | updateUser (userId : String) (username description : Option String) (now : Instant)
  | deleteUser (userId : String) (now : Instant)
  | putTeam (teamId : String) (team : Team)
  | updateTeam (teamId : String) (name description : Option String) (now : Instant)
  | deleteTeam (teamId : String) (now : Instant)
  | putGrant (grantId : String) (grant : Grant) (updatedAt : Instant)
  | updateGrant (grantId : String) (name description : Option String)
      (document : Option Auth.PolicyDocument) (now : Instant)
  | deleteGrant (grantId : String) (now : Instant)
  | attachToUser (userId grantId : String) (now : Instant)
  | detachFromUser (userId grantId : String) (now : Instant)
  | attachToTeam (teamId grantId : String) (now : Instant)
  | detachFromTeam (teamId grantId : String) (now : Instant)
  | addMember (teamId userId : String) (now : Instant)
  | removeMember (teamId userId : String) (now : Instant)
  | createBucketOwned (name owner : String) (now : Instant)
  | deleteBucket (name : String) (now : Instant)
  | setBucketConfig (bucket key value : String) (now : Instant)
  | deleteBucketConfig (bucket key : String) (now : Instant)
  | putBucketTags (bucket : String) (tags : List (String × String)) (now : Instant)
  | deleteBucketTags (bucket : String) (now : Instant)
  | setServerConfig (key value : String) (now : Instant)
  | deleteServerConfig (key : String) (now : Instant)
  | createMultipartUpload (uploadId : String) (upload : MultipartUpload) (initiatedAt : Instant)
  | completeMultipartObject (uploadId : String) (now : Instant)
  | deleteMultipartUpload (uploadId : String) (now : Instant)
  | putPart (uploadId : String) (partNumber : Nat) (part : Part)

namespace ControlMutation

def target : ControlMutation → Entity
  | putCredential c => .credential c.accessKeyId
  | updateCredential k .. | deleteCredential k _ => .credential k
  | putUser u => .user u.userId
  | updateUser u .. | deleteUser u _ => .user u
  | putTeam t _ | updateTeam t .. | deleteTeam t _ => .team t
  | putGrant g .. | updateGrant g .. | deleteGrant g _ => .grant g
  | attachToUser u g _ | detachFromUser u g _ => .userGrant u g
  | attachToTeam t g _ | detachFromTeam t g _ => .teamGrant t g
  | addMember t u _ | removeMember t u _ => .teamMember t u
  | createBucketOwned b .. | deleteBucket b _ => .bucket b
  | setBucketConfig b k .. | deleteBucketConfig b k _ => .bucketConfig b k
  | putBucketTags b .. | deleteBucketTags b _ => .bucketTags b
  | setServerConfig k .. | deleteServerConfig k _ => .serverConfig k
  | createMultipartUpload u .. | completeMultipartObject u _ | deleteMultipartUpload u _ =>
    .multipartUpload u
  | putPart u n _ => .part u n

def change : (m : ControlMutation) → Change m.target.Payload
  | putCredential c => .insert c c.createdAt
  | updateCredential _ active description now => .modify (Credential.change active description) now
  | putUser u => .insert u u.createdAt
  | updateUser _ username description now => .modify (User.change username description) now
  | putTeam _ t => .insert t t.createdAt
  | updateTeam _ name description now => .modify (Team.change name description) now
  | putGrant _ g updatedAt => .insert g updatedAt
  | updateGrant _ name description document now =>
    .modify (Grant.change name description document) now
  | attachToUser _ _ now | attachToTeam _ _ now | addMember _ _ now => .put () now true
  | createBucketOwned _ owner now => .insert owner now
  | setBucketConfig _ _ value now => .put value now true
  -- an empty replacement clears the set
  | putBucketTags _ tags now => if tags.isEmpty then .remove (some now) true else .put tags now true
  | setServerConfig key value now => .put value now (key ≠ Entity.nodeIdKey)
  | deleteServerConfig key now =>
    .remove (if key = Entity.nodeIdKey then none else some now) false
  | createMultipartUpload _ upload initiatedAt => .insert upload initiatedAt
  -- an abort leaves its tombstone whether the upload was there or not
  | deleteMultipartUpload _ now => .remove (some now) true
  | putPart _ _ p => .put p p.stamp true
  | deleteCredential _ now | deleteUser _ now | deleteTeam _ now | deleteGrant _ now
  | detachFromUser _ _ now | detachFromTeam _ _ now | removeMember _ _ now | deleteBucket _ now
  | deleteBucketConfig _ _ now | deleteBucketTags _ now | completeMultipartObject _ now =>
    .remove (some now) false

/-- A delete takes the rows of its cascade along, also where it finds no row. -/
def run (s : ControlSnapshot) (m : ControlMutation) : ControlSnapshot :=
  (if m.change.deletes then s.cascade fun p => p = m.target else s).set m.target
    (m.change.slot (s m.target))

variable {s : ControlSnapshot} {m : ControlMutation} {e : Entity}

@[simp] lemma run_target : m.run s m.target = m.change.slot (s m.target) :=
  Function.update_self ..

lemma row_run_target {r : m.target.Payload × Instant} (row : (m.run s m.target).row = some r) :
    (m.change.slot (s m.target)).row = some r := by
  rwa [run_target] at row

lemma run_of_ne (other : e ≠ m.target) :
    m.run s e = if m.change.deletes then s.cascade (fun p => p = m.target) e else s e := by
  refine (Function.update_of_ne other ..).trans ?_
  split <;> rfl

lemma row_run_of_ne (other : e ≠ m.target) {r : e.Payload × Instant}
    (row : (m.run s e).row = some r) :
    (s e).row = some r ∧ (m.change.deletes = true → m.target ∉ e.owners r.1) := by
  rw [run_of_ne other] at row
  split at row
  · obtain ⟨held, spared⟩ := Option.filter_eq_some_iff.mp row
    refine ⟨held, fun _ mem => ?_⟩
    have kept := List.any_eq_false.mp (Bool.not_eq_true' _ |>.mp spared) _ mem
    simp at kept
  · next keeps => exact ⟨row, fun deletes => absurd deletes keeps⟩

lemma row_run_of_root (root : e.IsRoot) (other : e ≠ m.target) : (m.run s e).row = (s e).row := by
  rw [run_of_ne other]
  split
  · cases row : (s e).row with
    | none => simp [ControlSnapshot.cascade, row]
    | some r => simp [ControlSnapshot.cascade, row, root.owners, Option.filter]
  · rfl

lemma run_empty (other : e ≠ m.target) (empty : s e = Slot.empty) : m.run s e = Slot.empty := by
  rw [run_of_ne other]
  split
  · simp [ControlSnapshot.cascade, empty, Slot.empty]
  · exact empty

end ControlMutation
end Arca.Cluster
