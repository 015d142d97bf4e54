import Arca.Storage.Replica

/-!
# Object mutations and what peers are told of them

The cluster store commits a mutation of the objects table locally and then sends one
message to every eligible peer: the row as stored, or the deletion of one version.
-/
namespace Arca.Cluster
open ObjectTable ObjectRecord Option

inductive ObjectMessage where
  | object (record : ObjectRecord)
  | versionDelete (bucket key version : String)
  deriving DecidableEq

def ObjectMessage.applyTo (t : ObjectTable) (now : Instant) : ObjectMessage → ObjectTable
  | .object record => t.applyRemoteObject record
  | .versionDelete bucket key version => t.applyRemoteVersionDelete bucket key version now

inductive ObjectMutation where
  | put (record : ObjectRecord) (pre : Option ObjectRecord → Bool) (uuid : String)
  | completeMultipart (isOpen : Bool) (record : ObjectRecord) (pre : Option ObjectRecord → Bool)
      (uuid : String)
  | deleteLatest (bucket key : String) (pre : Option ObjectRecord → Bool) (owner uuid : String)
      (now : Instant)
  | deleteVersion (bucket key version : String) (pre : Option ObjectRecord → Bool) (now : Instant)

namespace ObjectMutation

section
variable (t : ObjectTable)

/-- The record `delete_object_if` of the store returns. A suspended bucket
returns the null version it replaced, not the marker it wrote. -/
def deletedLatest (bucket key owner uuid : String) (now : Instant) : Option ObjectRecord :=
  match t.versioning bucket with
  | .unversioned => fetchLatestObject bucket key t.rows
  | .enabled => some (deleteMarker bucket key owner (some uuid) now)
  | .suspended => t.rows.find? fun r => named bucket key none r && !r.isTombstone

/-- The message about a delete of the latest version, given the table it left
and the record it returned. -/
def deleteMessage (bucket key : String) (old : ObjectRecord) : ObjectMessage :=
  match fetchLatestObject bucket key t.rows with
  | some marker => if marker.isDeleteMarker then .object marker
      else .versionDelete bucket key (old.versionId.getD "null")
  | none => .versionDelete bucket key (old.versionId.getD "null")

def commit : ObjectMutation → Option (ObjectTable × Option ObjectMessage)
  | .put record pre uuid => (t.installObject record pre uuid).map fun t' =>
    (t', some (.object (storedRow t record uuid)))
  | .completeMultipart isOpen record pre uuid =>
    if !isOpen then none
    else (t.installObject record pre uuid).map fun t' =>
      (t', some (.object (storedRow t record uuid)))
  | .deleteLatest bucket key pre owner uuid now =>
    (t.deleteLatest bucket key pre owner uuid now).map fun t' =>
      (t', (deletedLatest t bucket key owner uuid now).map (deleteMessage t' bucket key))
  | .deleteVersion bucket key version pre now =>
    (t.deleteVersion bucket key version pre now).map fun t' =>
      (t', (t.rows.find? fun r => named bucket key (versionArg version) r && !r.isTombstone).map
        fun _ => .versionDelete bucket key version)

def stamp : ObjectMutation → Instant
  | .put record _ _ => record.lastModified
  | .completeMultipart _ record _ _ => record.lastModified
  | .deleteLatest _ _ _ _ _ now => now
  | .deleteVersion _ _ _ _ now => now

def writes : ObjectMutation → Option ObjectRecord
  | .put record _ uuid => some (storedRow t record uuid)
  | .completeMultipart _ record _ uuid => some (storedRow t record uuid)
  | .deleteLatest bucket key _ owner uuid now =>
    match t.versioning bucket with
    | .unversioned => none
    | .enabled => some (deleteMarker bucket key owner (some uuid) now)
    | .suspended => some (deleteMarker bucket key owner none now)
  | .deleteVersion _ _ _ _ _ => none

end

def isDelete : ObjectMutation → Bool
  | .put _ _ _ => false
  | .completeMultipart _ _ _ _ => false
  | .deleteLatest _ _ _ _ _ _ => true
  | .deleteVersion _ _ _ _ _ => true

def drawn : ObjectMutation → Option String
  | .put _ _ uuid => some uuid
  | .completeMultipart _ _ _ uuid => some uuid
  | .deleteLatest _ _ _ _ uuid _ => some uuid
  | .deleteVersion _ _ _ _ _ => none

variable {t t' : ObjectTable} {m : ObjectMutation} {r : ObjectRecord} {bucket key : String}

lemma writes_spec {new : ObjectRecord} (h : m.writes t = some new) :
    new.lastModified = m.stamp ∧ (new.versionId = none ∨ new.versionId = m.drawn) := by
  have stored : ∀ (record : ObjectRecord) (uuid : String),
      (storedRow t record uuid).versionId = none ∨
        (storedRow t record uuid).versionId = some uuid := by
    intro record uuid
    unfold storedRow assignedVersion
    split
    · exact .inr rfl
    · exact .inl rfl
  cases m with
  | put record pre uuid | completeMultipart isOpen record pre uuid =>
    obtain rfl := some.inj h
    exact ⟨rfl, stored record uuid⟩
  | deleteLatest bucket key pre owner uuid now =>
    unfold writes at h
    dsimp only at h
    split at h
    · cases h
    · obtain rfl := some.inj h
      exact ⟨rfl, .inr rfl⟩
    · obtain rfl := some.inj h
      exact ⟨rfl, .inl rfl⟩
  | deleteVersion bucket key version pre now => cases h

/-- A row found after a mutation was there before, or was turned into a
tombstone by a delete, or is the one the mutation inserts. -/
def Traced (t : ObjectTable) (m : ObjectMutation) (r : ObjectRecord) : Prop :=
  (∃ x ∈ t.rows, r.replicated = x.replicated) ∨
  (m.isDelete = true ∧ ∃ x ∈ t.rows, r.replicated = (tombstone m.stamp x).replicated) ∨
  ∃ new, m.writes t = some new ∧ r.replicated = new.replicated

lemma Traced.congr {x : ObjectRecord} (h : Traced t m x) (same : r.replicated = x.replicated) :
    Traced t m r := by
  rcases h with ⟨y, hy, eq⟩ | ⟨delete, y, hy, eq⟩ | ⟨y, hy, eq⟩
  · exact .inl ⟨y, hy, same.trans eq⟩
  · exact .inr (.inl ⟨delete, y, hy, same.trans eq⟩)
  · exact .inr (.inr ⟨y, hy, same.trans eq⟩)

lemma Traced.old (h : r ∈ t.rows) : Traced t m r := .inl ⟨r, h, rfl⟩

lemma Traced.new (h : m.writes t = some r) : Traced t m r := .inr (.inr ⟨r, h, rfl⟩)

variable {rows : List ObjectRecord} {p : ObjectRecord → Bool} {message : Option ObjectMessage}

lemma traced_append {new : ObjectRecord} (h : r ∈ rows ++ [new])
    (kept : ∀ x ∈ rows, Traced t m x) (written : Traced t m new) : Traced t m r := by
  rcases List.mem_append.mp h with old | last
  · exact kept r old
  · exact List.mem_singleton.mp last ▸ written

lemma traced_recompute (all : ∀ x ∈ rows, Traced t m x)
    (h : r ∈ recomputeIsLatest bucket key rows) : Traced t m r := by
  obtain ⟨x, hx, eq⟩ := mem_recompute h
  exact (all x hx).congr eq

lemma traced_clearLatest (all : ∀ x ∈ rows, Traced t m x) :
    ∀ x ∈ clearLatest bucket key rows, Traced t m x := by
  intro x hx
  obtain ⟨y, hy, eq⟩ := mem_clearLatest hx
  exact (all y hy).congr eq

lemma traced_deleteWhere : ∀ x ∈ deleteWhere p t.rows, Traced t m x :=
  fun _ hx => .old (mem_deleteWhere hx)

lemma traced_tombstone (delete : m.isDelete = true) :
    ∀ x ∈ updateWhere p (tombstone m.stamp) t.rows, Traced t m x := by
  intro x hx
  rcases mem_updateWhere hx with old | ⟨y, hy, _, rfl⟩
  · exact .old old
  · exact .inr (.inl ⟨delete, y, hy, rfl⟩)

variable {pre : Option ObjectRecord → Bool}

lemma traced_installObject {record : ObjectRecord}
    {uuid : String} (new : m.writes t = some (storedRow t record uuid))
    (h : t.installObject record pre uuid = some t') : ∀ r ∈ t'.rows, Traced t m r := by
  obtain ⟨-, rfl⟩ := installObject_eq_some_iff.mp h
  exact fun r hr => traced_recompute
    (fun x hx => traced_append hx (traced_clearLatest traced_deleteWhere) (.new new)) hr

lemma traced_deleteLatest {owner uuid : String} {now : Instant}
    (h : t.deleteLatest bucket key pre owner uuid now = some t') :
    ∀ r ∈ t'.rows, Traced t (.deleteLatest bucket key pre owner uuid now) r := by
  have tombstoned : ∀ x ∈ updateWhere (atKey bucket key) (tombstone now) t.rows,
      Traced t (.deleteLatest bucket key pre owner uuid now) x :=
    traced_tombstone (m := .deleteLatest bucket key pre owner uuid now) rfl
  cases deletesLatest h with
  | nothing => exact fun r hr => .old hr
  | buries => exact fun r hr => traced_recompute tombstoned hr
  | removes => exact traced_deleteWhere
  | marks state =>
    refine fun r hr => traced_append hr (traced_clearLatest traced_deleteWhere) (.new ?_)
    unfold assignedVersion
    cases versioning : t.versioning bucket with
    | unversioned => exact absurd versioning state
    | enabled => simp [writes, versioning]
    | suspended => simp [writes, versioning]

lemma traced_deleteVersion {version : String} {now : Instant}
    (h : t.deleteVersion bucket key version pre now = some t') :
    ∀ r ∈ t'.rows, Traced t (.deleteVersion bucket key version pre now) r := by
  have tombstoned : ∀ x ∈ updateWhere (named bucket key (versionArg version)) (tombstone now) t.rows,
      Traced t (.deleteVersion bucket key version pre now) x :=
    traced_tombstone (m := .deleteVersion bucket key version pre now) rfl
  cases deletesVersion h with
  | nothing => exact fun r hr => .old hr
  | buries => exact fun r hr => traced_recompute tombstoned hr
  | removes => exact fun r hr => traced_recompute traced_deleteWhere hr

lemma traced_commit (h : m.commit t = some (t', message)) :
    (∀ r ∈ t'.rows, Traced t m r) ∧ ∀ r, message = some (.object r) → Traced t m r := by
  cases m with
  | put record pre uuid =>
    obtain ⟨_, done, eq⟩ := map_eq_some_iff.mp h
    cases eq
    refine ⟨traced_installObject rfl done, fun r eq => .new ?_⟩
    cases eq
    rfl
  | completeMultipart isOpen record pre uuid =>
    cases isOpen with
    | false => cases h
    | true =>
      obtain ⟨_, done, eq⟩ := map_eq_some_iff.mp h
      cases eq
      refine ⟨traced_installObject rfl done, fun r eq => .new ?_⟩
      cases eq
      rfl
  | deleteLatest bucket key pre owner uuid now =>
    obtain ⟨t'', done, eq⟩ := map_eq_some_iff.mp h
    cases eq
    refine ⟨traced_deleteLatest done, fun r eq => traced_deleteLatest done r ?_⟩
    obtain ⟨old, _, eq⟩ := map_eq_some_iff.mp eq
    unfold deleteMessage at eq
    split at eq
    · next marker found =>
        split_ifs at eq
        cases eq
        exact List.mem_of_find?_eq_some found
    · cases eq
  | deleteVersion bucket key version pre now =>
    obtain ⟨_, done, eq⟩ := map_eq_some_iff.mp h
    cases eq
    refine ⟨traced_deleteVersion done, fun r eq => ?_⟩
    obtain ⟨_, _, eq⟩ := map_eq_some_iff.mp eq
    cases eq

variable {version : Option String} {record : ObjectRecord} {pre : Option ObjectRecord → Bool}
  {uuid : String}

lemma deleteWhere_atKey_absent (t : ObjectTable) :
    versionRow bucket key version (deleteWhere (atKey bucket key) t.rows) = none :=
  versionRow_deleteWhere_self fun _ h => (Bool.and_eq_true_iff.mp h).1

lemma cleared_absent (fresh : t.versioning bucket = .enabled → versionRow bucket key (some uuid) t.rows = none) :
    versionRow bucket key (t.assignedVersion bucket uuid) (t.cleared bucket key) = none := by
  refine versionRow_eq_none map_replicated_clearLatest ?_
  unfold replaced assignedVersion
  cases state : t.versioning bucket with
  | unversioned => exact deleteWhere_atKey_absent t
  | enabled => simpa [deleteWhere] using fresh state
  | suspended => exact versionRow_deleteWhere_self fun _ own => own

section
variable (h : Single bucket key version t.rows)
include h

lemma single_cleared_append {b k : String}
    (at_key : atKey b k r = true) (given : r.versionId = t.assignedVersion b uuid)
    (fresh : version = none ∨ version ≠ some uuid ∨ versionRow bucket key version t.rows = none) :
    Single bucket key version (t.cleared b k ++ [r]) := by
  refine single_append (h.deleteWhere.clearLatest b k) fun own => ?_
  obtain ⟨rfl, rfl, rfl⟩ := named_iff.mp own
  obtain ⟨rfl, rfl⟩ := atKey_iff.mp at_key
  rw [given] at fresh ⊢
  refine cleared_absent fun state => ?_
  rw [assignedVersion, if_pos state] at fresh
  simpa using fresh

lemma single_installObject
    (fresh : version = none ∨ version ≠ some uuid ∨ versionRow bucket key version t.rows = none)
    (done : t.installObject record pre uuid = some t') : Single bucket key version t'.rows := by
  obtain ⟨-, rfl⟩ := installObject_eq_some_iff.mp done
  exact (single_cleared_append h (atKey_storedRow record uuid) rfl fresh).recompute _ _

lemma single_commit
    (fresh : version = none ∨ version ≠ m.drawn ∨ versionRow bucket key version t.rows = none)
    (committed : m.commit t = some (t', message)) :
    Single bucket key version t'.rows := by
  cases m with
  | put record pre uuid =>
    obtain ⟨_, done, eq⟩ := map_eq_some_iff.mp committed
    cases eq
    exact single_installObject h fresh done
  | completeMultipart isOpen record pre uuid =>
    cases isOpen with
    | false => cases committed
    | true =>
      obtain ⟨_, done, eq⟩ := map_eq_some_iff.mp committed
      cases eq
      exact single_installObject h fresh done
  | deleteLatest b k pre owner uuid now =>
    obtain ⟨_, done, eq⟩ := map_eq_some_iff.mp committed
    cases eq
    cases deletesLatest done with
    | nothing => exact h
    | buries => exact (h.tombstone now).recompute b k
    | removes => exact h.deleteWhere
    | marks => exact single_cleared_append h (atKey_deleteMarker _ _ _) rfl fresh
  | deleteVersion b k argument pre now =>
    obtain ⟨_, done, eq⟩ := map_eq_some_iff.mp committed
    cases eq
    cases deletesVersion done with
    | nothing => exact h
    | buries => exact (h.tombstone now).recompute b k
    | removes => exact h.deleteWhere.recompute b k

end

lemma versionRow_installObject (done : t.installObject record pre uuid = some t')
    (fresh : t.versioning record.bucket = .enabled →
      versionRow record.bucket record.key (some uuid) t.rows = none) :
    (versionRow record.bucket record.key (assignedVersion t record.bucket uuid) t'.rows).map replicated =
      some (storedRow t record uuid).replicated := by
  obtain ⟨-, rfl⟩ := installObject_eq_some_iff.mp done
  rw [versionRow_congr map_replicated_recompute, versionRow_append_own _ (cleared_absent fresh)]
  · rfl
  · exact named_iff.mpr ⟨rfl, rfl, rfl⟩

end ObjectMutation
end Arca.Cluster
