import Arca.Cluster.Membership
import Arca.Cluster.ObjectFanOut

/-!
# The durability quorum of an object mutation

A mutation commits locally, is sent to every eligible peer, and is acknowledged
when enough requests were answered in full. While the requests are under way
anything may happen at the peers, so a request meets an arbitrary table there.
-/
namespace Arca.Cluster
open ObjectTable ObjectRecord List Option ObjectMutation

/-- A request that was processed by a peer: the table and the clock it met,
whether the blob of the row was there, and whether the answer came back. -/
structure Visit where
  table : ObjectTable
  now : Instant
  hasBlob : Bool
  answered : Bool

def Visit.acks (v : Visit) : ObjectMessage → Bool
  | .object _ => v.answered && v.hasBlob
  | .versionDelete _ _ _ => v.answered

abbrev Sends := List (PeerNode × Option Visit)

def Sends.acking (sends : Sends) (message : ObjectMessage) : Sends :=
  sends.filter fun s => s.2.any fun v => v.acks message

inductive MutationOutcome where
  | refused
  | unacknowledged (t : ObjectTable)
  | ok (t : ObjectTable)

/-- A mutation through the cluster store. A commit without a message is not held
to the quorum. -/
def perform (quorum clusterSize : Option Nat) (peers : List PeerNode) (t : ObjectTable)
    (m : ObjectMutation) (sends : Sends) : MutationOutcome :=
  if writeGate quorum clusterSize peers ≠ .isOpen then .refused
  else match m.commit t with
  | none => .refused
  | some (t', none) => .ok t'
  | some (t', some message) =>
    if quorumSatisfied (1 + (sends.acking message).length) quorum then .ok t'
    else .unacknowledged t'

def NoLive (bucket key : String) (version : Option String) (t : ObjectTable) : Prop :=
  ∀ h, versionRow bucket key version t.rows = some h → h.isTombstone = true

/-- The table shows the new state of one version: it holds that row or one that
supersedes it, or, where the version was deleted, no live row. -/
def ShowsVersion (bucket key : String) (version : Option String) (after t : ObjectTable) : Prop :=
  (∃ r h, versionRow bucket key version after.rows = some r ∧
    versionRow bucket key version t.rows = some h ∧ r.resolveReplicated h = none) ∨
  (NoLive bucket key version after ∧ NoLive bucket key version t)

/-- The table shows the change from `before` to `after` in every version changed. -/
def Shows (before after t : ObjectTable) : Prop :=
  ∀ bucket key version,
    (versionRow bucket key version after.rows).map replicated ≠
      (versionRow bucket key version before.rows).map replicated →
    ShowsVersion bucket key version after t

open Classical in
/-- The nodes that have applied the mutation: this one, and those at which the
request left a table that shows the change. -/
noncomputable def appliedNodes (self : String) (before after : ObjectTable) (message : ObjectMessage)
    (sends : Sends) : Finset String :=
  insert self ((sends.filter fun s => s.2.any fun v =>
    decide (Shows before after (message.applyTo v.table v.now))).map fun s => s.1.nodeId).toFinset

def Tells (before after : ObjectTable) (message : ObjectMessage) : Prop :=
  ∀ bucket key version,
    (versionRow bucket key version after.rows).map replicated ≠
      (versionRow bucket key version before.rows).map replicated →
    (∃ r, message = .object r ∧ named bucket key version r = true ∧
      (versionRow bucket key version after.rows).map replicated = some r.replicated) ∨
    (∃ argument, message = .versionDelete bucket key argument ∧ versionArg argument = version ∧
      NoLive bucket key version after)

variable {bucket key : String} {version : Option String} {before after t t' : ObjectTable}
  {r : ObjectRecord} {argument b k : String} {message : ObjectMessage}
  {rows : List ObjectRecord} {p : ObjectRecord → Bool}

lemma resolve_eq_none_iff {h : ObjectRecord} :
    r.resolveReplicated h = none ↔ (receive (some h) r).map replicated = some h.replicated := by
  constructor
  · intro none
    rw [receive, none]
    rfl
  · intro same
    cases decision : r.resolveReplicated h with
    | none => rfl
    | some row =>
      rw [receive, decision] at same
      have eq : row.replicated = h.replicated := some.inj same
      have time : row.replicated.lastModified = h.replicated.lastModified := by rw [eq]
      have tag : row.replicated.etag = h.replicated.etag := by rw [eq]
      rcases resolve_cases decision with ⟨rfl, newer | ⟨_, rival, _⟩⟩ | ⟨_, _, _, differs⟩
      · exact absurd time.symm newer.ne
      · exact absurd tag rival
      · exact absurd eq differs

lemma showsVersion_object (own : named bucket key version r = true)
    (stored : (versionRow bucket key version after.rows).map replicated = some r.replicated)
    (t : ObjectTable) : ShowsVersion bucket key version after (t.applyRemoteObject r) := by
  obtain ⟨r', found, same⟩ := map_eq_some_iff.mp stored
  have effect : (versionRow bucket key version (t.applyRemoteObject r).rows).map replicated =
      (receive (versionRow bucket key version t.rows) r).map replicated := by
    rw [versionRow_applyRemoteObject, if_pos own]
  obtain ⟨h, held⟩ : ∃ h, versionRow bucket key version (t.applyRemoteObject r).rows = some h := by
    rw [← isSome_iff_exists, ← isSome_map (f := replicated), effect]
    cases versionRow bucket key version t.rows <;> rfl
  rw [held] at effect
  refine .inl ⟨r', h, found, held, resolve_eq_none_iff.mpr ?_⟩
  rw [receive_congr_right same, receive_congr effect, receive_receive, ← effect, map_some]

lemma noLive_versionDelete (name : versionArg argument = version)
    (t : ObjectTable) (now : Instant) :
    NoLive bucket key version (t.applyRemoteVersionDelete bucket key argument now) := by
  intro h held
  have effect := congrArg (Option.map replicated) held
  rw [versionRow_applyRemoteVersionDelete] at effect
  cases found : versionRow bucket key version t.rows with
  | none => rw [found] at effect; cases effect
  | some r =>
    have own : named bucket key (versionArg argument) r = true := name ▸ find?_some found
    rw [found, map_some, map_some, some.injEq, own] at effect
    have dead : h.replicated.isTombstone = true := by
      rw [← effect]
      cases live : r.isTombstone with
      | true => simpa [replicated] using live
      | false => rfl
    exact dead

/-- A request about every version changed leaves a table that shows the change. -/
lemma shows_of_tells (tells : Tells before after message)
    (t : ObjectTable) (now : Instant) : Shows before after (message.applyTo t now) := by
  intro bucket key version changed
  rcases tells bucket key version changed with ⟨r, rfl, own, stored⟩ | ⟨argument, rfl, name, dead⟩
  · exact showsVersion_object own stored t
  · exact .inr ⟨dead, noLive_versionDelete name t now⟩

/-- The message, if there is one, is about every version changed; without one
nothing has changed. -/
def Reported (before after : ObjectTable) : Option ObjectMessage → Prop
  | some message => Tells before after message
  | none => after.rows = before.rows

/-- Rows with a version id in an unversioned bucket disappear with a put or a
delete of the key and are not mentioned, so there are none; a version id drawn is
new. -/
def ToldRow (t : ObjectTable) (bucket key uuid : String) : Prop :=
  (t.versioning bucket = .unversioned → ∀ r ∈ t.rows, atKey bucket key r = true → r.versionId = none) ∧
  (t.versioning bucket = .enabled → versionRow bucket key (some uuid) t.rows = none)

/-- The mutation changes one version, and reports that it changed something: a
delete in a suspended bucket that finds no null version writes its marker and
returns nothing. -/
def Told (t : ObjectTable) : ObjectMutation → Prop
  | .put record _ uuid => ToldRow t record.bucket record.key uuid
  | .completeMultipart _ record _ uuid => ToldRow t record.bucket record.key uuid
  | .deleteLatest bucket key _ _ uuid _ =>
    ToldRow t bucket key uuid ∧ (t.versioning bucket = .suspended →
      ∃ r ∈ t.rows, named bucket key none r = true ∧ r.isTombstone = false)
  | .deleteVersion _ _ _ _ _ => True

variable {record : ObjectRecord} {pre : Option ObjectRecord → Bool} {uuid : String}

lemma versionRow_cleared_other (told : ToldRow t b k uuid)
    (other : ¬ (bucket = b ∧ key = k ∧ version = t.assignedVersion b uuid)) :
    (versionRow bucket key version (t.cleared b k)).map replicated =
      (versionRow bucket key version t.rows).map replicated := by
  rw [cleared, versionRow_congr map_replicated_clearLatest, versionRow_deleteWhere_of_mem]
  intro r mem own
  obtain ⟨rfl, rfl, rfl⟩ := named_iff.mp own
  rw [Bool.eq_false_iff]
  intro gone
  have at_key := atKey_of_replaced gone
  obtain ⟨hb, hk⟩ := atKey_iff.mp at_key
  refine other ⟨hb, hk, ?_⟩
  unfold replaced at gone
  unfold assignedVersion
  cases state : t.versioning b with
  | unversioned => simpa using told.1 state r mem at_key
  | enabled =>
    rw [state] at gone
    cases gone
  | suspended =>
    rw [state] at gone
    simpa using (named_iff.mp gone).2.2

lemma tells_cleared_append (told : ToldRow t bucket key uuid)
    (own : named bucket key (t.assignedVersion bucket uuid) r = true)
    (same : rows.map replicated = (t.cleared bucket key ++ [r]).map replicated) :
    Tells t { t with rows } (.object r) := by
  intro b k v changed
  dsimp only at changed ⊢
  rw [versionRow_congr same] at changed ⊢
  by_cases here : named b k v r = true
  · refine .inl ⟨r, rfl, here, ?_⟩
    obtain ⟨rfl, rfl, rfl⟩ := named_iff.mp here
    obtain ⟨rfl, rfl, given⟩ := named_iff.mp own
    rw [given, versionRow_append_own _ (cleared_absent told.2) own]
    rfl
  · refine absurd ?_ changed
    rw [versionRow_append_other (Bool.eq_false_iff.mpr here), versionRow_cleared_other told]
    rintro ⟨rfl, rfl, rfl⟩
    exact here own

lemma tells_installObject (told : ToldRow t record.bucket record.key uuid)
    (done : t.installObject record pre uuid = some t') :
    Tells t t' (.object (ObjectTable.storedRow t record uuid)) := by
  obtain ⟨-, rfl⟩ := installObject_eq_some_iff.mp done
  refine tells_cleared_append told (r := t.storedRow record uuid) ?_ map_replicated_recompute
  exact named_iff.mpr ⟨rfl, rfl, rfl⟩

lemma fetchLatest_clear_append {marker : ObjectRecord}
    (own : atKey bucket key marker = true) (flag : marker.isLatest = true) :
    fetchLatestObject bucket key (clearLatest bucket key rows ++ [marker]) = some marker := by
  have cleared : (clearLatest bucket key rows).find? (fun r => atKey bucket key r && r.isLatest) = none := by
    refine find?_eq_none.mpr fun r mem found => ?_
    obtain ⟨at_key, latest⟩ := Bool.and_eq_true_iff.mp found
    have unflagged : r.isLatest = false := clearLatest_unflagged r (mem_rowsOf.mpr ⟨mem, at_key⟩)
    rw [unflagged] at latest
    cases latest
  rw [fetchLatestObject, find?_append, cleared, none_or, find?_singleton]
  simp [own, flag]

lemma versionRow_tombstone (rows : List ObjectRecord) (now : Instant) :
    (versionRow bucket key version (recomputeIsLatest b k (updateWhere p (tombstone now) rows))).map
        replicated =
      (versionRow bucket key version rows).map fun r =>
        if p r then (tombstone now r).replicated else r.replicated := by
  have keeps : ∀ r, named bucket key version (tombstone now r) = named bucket key version r :=
    fun _ => rfl
  rw [versionRow_congr map_replicated_recompute, versionRow_updateWhere keeps, Option.map_map]
  congr 1
  funext r
  exact apply_ite replicated _ _ _

lemma tombstoned_of_changed {now : Instant} (changed : (versionRow bucket key version
        (recomputeIsLatest b k (updateWhere p (tombstone now) rows))).map replicated ≠
      (versionRow bucket key version rows).map replicated) :
    ∃ r ∈ rows, named bucket key version r = true ∧ p r = true ∧
      ∀ h, versionRow bucket key version
        (recomputeIsLatest b k (updateWhere p (tombstone now) rows)) = some h → h.isTombstone = true := by
  rw [versionRow_tombstone] at changed
  cases found : versionRow bucket key version rows with
  | none => rw [found] at changed; exact absurd rfl changed
  | some r =>
    rw [found] at changed
    have hit : p r = true := by
      by_contra miss
      exact changed (by simp [miss])
    refine ⟨r, mem_of_find?_eq_some found, find?_some found, hit, fun h held => ?_⟩
    have effect := congrArg (Option.map replicated) held
    rw [versionRow_tombstone, found, map_some, map_some, if_pos hit,
      some.injEq] at effect
    have dead : h.replicated.isTombstone = true := by rw [← effect]; rfl
    exact dead

lemma deleteMessage_marker (t : ObjectTable)
    (owner : String) (now : Instant) (old : ObjectRecord) :
    deleteMessage { t with
      rows := clearLatest bucket key rows ++ [deleteMarker bucket key owner version now] } bucket key old =
      .object (deleteMarker bucket key owner version now) := by
  have own : atKey bucket key (deleteMarker bucket key owner version now) = true :=
    atKey_iff.mpr ⟨rfl, rfl⟩
  rw [deleteMessage]
  dsimp only
  rw [fetchLatest_clear_append own rfl]
  rfl

variable {owner : String} {now : Instant}

lemma tells_deleteLatest (cluster : t.clusterMode = true)
    (told : Told t (.deleteLatest bucket key pre owner uuid now))
    (done : t.deleteLatest bucket key pre owner uuid now = some t') :
    Reported t t' ((deletedLatest t bucket key owner uuid now).map
      (deleteMessage t' bucket key)) := by
  obtain ⟨told, finds⟩ := told
  cases deletesLatest done with
  | nothing state none =>
    simp only [deletedLatest, state, none, map_none, Reported]
  | removes _ _ single =>
    rw [cluster] at single
    cases single
  | buries state found =>
    obtain ⟨old, latest⟩ := isSome_iff_exists.mp found
    have at_key : atKey bucket key old = true := by
      unfold fetchLatestObject at latest
      have current := find?_some latest
      exact (Bool.and_eq_true_iff.mp current).1
    have version := told.1 state old (mem_of_find?_eq_some latest) at_key
    have none : fetchLatestObject bucket key (recomputeIsLatest bucket key
        (updateWhere (atKey bucket key) (tombstone now) t.rows)) = none := by
      refine find?_eq_none.mpr fun r mem found => ?_
      obtain ⟨at_key, latest⟩ := Bool.and_eq_true_iff.mp found
      rw [unflagged_tombstones mem at_key] at latest
      cases latest
    simp only [deletedLatest, state, latest, map_some, deleteMessage,
      none, version, getD_none, Reported]
    intro b k v changed
    obtain ⟨r, mem, own, hit, dead⟩ := tombstoned_of_changed changed
    obtain ⟨rfl, rfl, rfl⟩ := named_iff.mp own
    obtain ⟨rfl, rfl⟩ := atKey_iff.mp hit
    exact .inr ⟨"null", rfl, (told.1 state r mem hit).symm, dead⟩
  | marks state =>
    obtain ⟨old, deleted⟩ : ∃ old, deletedLatest t bucket key owner uuid now = some old := by
      unfold deletedLatest
      cases versioning : t.versioning bucket with
      | unversioned => exact absurd versioning state
      | enabled => exact ⟨_, rfl⟩
      | suspended =>
        obtain ⟨r, mem, own, live⟩ := finds versioning
        rw [← isSome_iff_exists, find?_isSome]
        exact ⟨r, mem, by simp [own, live]⟩
    rw [deleted, map_some, cleared, deleteMessage_marker]
    exact tells_cleared_append told (named_iff.mpr ⟨rfl, rfl, rfl⟩) rfl

lemma tells_deleteVersion (cluster : t.clusterMode = true)
    (done : t.deleteVersion bucket key argument pre now = some t') :
    Reported t t' ((t.rows.find? fun r => named bucket key (versionArg argument) r &&
      !r.isTombstone).map fun _ => .versionDelete bucket key argument) := by
  unfold ObjectTable.deleteVersion at done
  dsimp only at done
  cases found : t.rows.find? fun r => named bucket key (versionArg argument) r && !r.isTombstone with
  | none =>
    have none : t.rows.find? (fun r => atKey bucket key r && decide (r.versionId = versionArg argument) &&
        !r.isTombstone) = none := found
    rw [none] at done
    simp only [isNone_none, if_true] at done
    split_ifs at done
    obtain rfl := some.inj done
    rfl
  | some old =>
    have some : t.rows.find? (fun r => atKey bucket key r && decide (r.versionId = versionArg argument) &&
        !r.isTombstone) = some old := found
    rw [some, cluster] at done
    simp only [isNone_some, Bool.false_eq_true, if_false, if_true] at done
    split_ifs at done
    obtain rfl := Option.some.inj done
    intro b k v changed
    obtain ⟨r, mem, own, hit, dead⟩ := tombstoned_of_changed changed
    obtain ⟨rfl, rfl, rfl⟩ := named_iff.mp own
    obtain ⟨rfl, rfl, name⟩ := named_iff.mp (show named bucket key (versionArg argument) r = true from hit)
    exact .inr ⟨argument, rfl, name.symm, dead⟩

lemma reported_commit {m : ObjectMutation} {message : Option ObjectMessage}
    (cluster : t.clusterMode = true) (told : Told t m) (h : m.commit t = some (t', message)) :
    Reported t t' message := by
  cases m with
  | put record pre uuid =>
    obtain ⟨_, done, eq⟩ := map_eq_some_iff.mp h
    cases eq
    exact tells_installObject told done
  | completeMultipart isOpen record pre uuid =>
    cases isOpen with
    | false => cases h
    | true =>
      obtain ⟨_, done, eq⟩ := map_eq_some_iff.mp h
      cases eq
      exact tells_installObject told done
  | deleteLatest bucket key pre owner uuid now =>
    obtain ⟨_, done, eq⟩ := map_eq_some_iff.mp h
    cases eq
    exact tells_deleteLatest cluster told done
  | deleteVersion bucket key argument pre now =>
    obtain ⟨_, done, eq⟩ := map_eq_some_iff.mp h
    cases eq
    exact tells_deleteVersion cluster done

lemma acking_le_appliedNodes {self : String} {sends : Sends} (tells : Tells before after message)
    (distinct : (self :: sends.map fun s => s.1.nodeId).Nodup) :
    1 + (sends.acking message).length ≤ (appliedNodes self before after message sends).card := by
  classical
  obtain ⟨apart, unique⟩ := nodup_cons.mp distinct
  have sub : ((sends.acking message).map fun s => s.1.nodeId).Sublist
      (sends.map fun s => s.1.nodeId) := filter_sublist.map _
  have reached : ((sends.acking message).map fun s => s.1.nodeId).toFinset ⊆
      ((sends.filter fun s => s.2.any fun v =>
        decide (Shows before after (message.applyTo v.table v.now))).map fun s => s.1.nodeId).toFinset := by
    intro n mem
    obtain ⟨s, acked, rfl⟩ := mem_map.mp (mem_toFinset.mp mem)
    obtain ⟨sent, acks⟩ := mem_filter.mp acked
    refine mem_toFinset.mpr (mem_map.mpr ⟨s, mem_filter.mpr ⟨sent, ?_⟩, rfl⟩)
    cases visit : s.2 with
    | none => simp [visit] at acks
    | some v => simpa [visit] using shows_of_tells tells v.table v.now
  calc 1 + (sends.acking message).length
      = (insert self ((sends.acking message).map fun s => s.1.nodeId).toFinset).card := by
        rw [Finset.card_insert_of_notMem, toFinset_card_of_nodup (unique.sublist sub),
          length_map, Nat.add_comm]
        exact fun mem => apart (sub.subset (mem_toFinset.mp mem))
    _ ≤ (appliedNodes self before after message sends).card :=
        Finset.card_le_card (Finset.insert_subset_insert self reached)

lemma appliedNodes_subset (self : String) (before after : ObjectTable) (message : ObjectMessage)
    (sends : Sends) :
    appliedNodes self before after message sends ⊆
      insert self (sends.map fun s => s.1.nodeId).toFinset := by
  classical
  refine Finset.insert_subset_insert self fun n mem => ?_
  obtain ⟨s, kept, rfl⟩ := mem_map.mp (mem_toFinset.mp mem)
  exact mem_toFinset.mpr (mem_map.mpr ⟨s, (mem_filter.mp kept).1, rfl⟩)

def probed (nodes : String → String) : Membership :=
  (Membership.mk none none 1000 []).tick ["http://a:9000", "http://b:9000"]
    (fun endpoint => .contact ⟨nodes endpoint, .proven, none, none⟩) 5

/-- Every request is processed by a peer with an empty table and answered in full. -/
def allAnswered (peers : List PeerNode) : Sends :=
  (peers.filter PeerNode.eligible).map fun p => (p, some ⟨.empty true, 5, true, true⟩)

def writeOnce : ObjectMutation := .put written (fun _ => true) "u1"

end Arca.Cluster
