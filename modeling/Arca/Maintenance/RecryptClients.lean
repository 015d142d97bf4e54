import Arca.Maintenance.RecryptJob

/-!
# The transactions of clients beside the job

The job's model lets clients do to the rows whatever `ClientRows` allows. The metadata
store's own transactions do no more: a put with a blob and a version id of its own, and
deletes of every kind, from a table in which no two rows share a blob or a version.
-/
namespace Arca.Recrypt
open ObjectTable BucketLife Lifecycle Blob ObjectRecord List Option

structure Apart (d : Disk) (a b : ObjectRecord) : Prop where
  blobs : a.blobId ≠ "" → b.blobId ≠ "" → ∀ x ∈ d.reach a.blobId, x ∉ d.reach b.blobId
  versions : a.isTombstone = false → b.isTombstone = false → a.bucket = b.bucket → a.key = b.key →
    tagVersion a ≠ tagVersion b

structure Tidy (d : Disk) (used : List String) (rows : List ObjectRecord) : Prop where
  apart : rows.Pairwise (Apart d)
  ids : ∀ r ∈ rows, r.versionId ≠ some ""
  flat : ∀ r ∈ rows, r.blobId ≠ "" → (d.sidecars r.blobId).all (·.flat d) = true
  owned : ∀ r ∈ rows, r.blobId ≠ "" → ∀ x ∈ d.reach r.blobId, x ∈ used

structure Fresh (d : Disk) (used : List String) (r : ObjectRecord) : Prop where
  blob : r.blobId ≠ "" → ∀ x ∈ d.reach r.blobId, x ∉ used
  flat : r.blobId ≠ "" → (d.sidecars r.blobId).all (·.flat d) = true
  id : r.versionId ≠ some ""

section
variable {d : Disk} {used : List String} {rows rows' : List ObjectRecord} {a b r : ObjectRecord}

lemma Apart.symm (h : Apart d a b) : Apart d b a :=
  ⟨fun nb na x hb ha => h.blobs na nb x ha hb,
    fun lb la bucket key same => h.versions la lb bucket.symm key.symm same.symm⟩

instance : Std.Symm (Apart d) := ⟨fun _ _ => Apart.symm⟩

/-- `is_latest` is no part of it. -/
lemma apart_replicated : Apart d a.replicated b.replicated ↔ Apart d a b :=
  ⟨fun h => ⟨h.blobs, h.versions⟩, fun h => ⟨h.blobs, h.versions⟩⟩

lemma Tidy.separate (h : Tidy d used rows) : Separate d rows := by
  have all : ∀ a ∈ rows, ∀ b ∈ rows, a ≠ b → Apart d a b := fun _ ha _ hb other =>
    h.apart.forall ha hb other
  refine ⟨fun a ha b hb na nb meet => ?_, fun a ha b hb la lb bucket key version => ?_, h.flat⟩
  · by_contra other
    obtain ⟨x, reached, met⟩ := meet
    exact (all a ha b hb other).blobs na nb x reached met
  · by_contra other
    exact (all a ha b hb other).versions la lb bucket key version

lemma Tidy.of_replicated (same : rows'.map replicated = rows.map replicated)
    (h : Tidy d used rows) : Tidy d used rows' := by
  have image : ∀ r ∈ rows', ∃ x ∈ rows, x.replicated = r.replicated := fun r mem =>
    mem_map.mp (same ▸ mem_map_of_mem mem)
  refine ⟨?_, fun r mem => ?_, fun r mem object => ?_, fun r mem object => ?_⟩
  · have pairs : (rows.map replicated).Pairwise (Apart d) :=
      pairwise_map.mpr (h.apart.imp apart_replicated.mpr)
    rw [← same, pairwise_map] at pairs
    exact pairs.imp apart_replicated.mp
  all_goals obtain ⟨x, old, eq⟩ := image r mem
  · have version : x.replicated.versionId = r.replicated.versionId := by rw [eq]
    exact version ▸ h.ids x old
  all_goals
    have blob : x.replicated.blobId = r.replicated.blobId := by rw [eq]
    change x.blobId = r.blobId at blob
    rw [← blob] at object ⊢
  · exact h.flat x old object
  · exact h.owned x old object

/-- A row stays, goes, or is left as a tombstone. -/
def Leaves (f : ObjectRecord → Option ObjectRecord) : Prop :=
  ∀ r x, f r = some x → x = r ∨ x.blobId = "" ∧ x.isTombstone = true ∧ x.versionId = r.versionId

variable {f : ObjectRecord → Option ObjectRecord}

lemma Tidy.filterMap (h : Tidy d used rows) (leaves : Leaves f) : Tidy d used (rows.filterMap f) := by
  have kept : ∀ x ∈ rows.filterMap f, x.blobId ≠ "" → x ∈ rows := by
    intro x mem object
    obtain ⟨r, old, left⟩ := mem_filterMap.mp mem
    rcases leaves r x left with rfl | ⟨gone, -⟩
    · exact old
    · exact absurd gone object
  refine ⟨?_, fun x mem => ?_, fun x mem object => h.flat x (kept x mem object) object,
    fun x mem object => h.owned x (kept x mem object) object⟩
  · refine List.Pairwise.filterMap f (fun r r' apart x left x' left' => ?_) h.apart
    rcases leaves r x left with rfl | ⟨gone, buried, -⟩
    · rcases leaves r' x' left' with rfl | ⟨gone, buried, -⟩
      · exact apart
      · exact ⟨fun _ object => absurd gone object, fun _ live => by rw [buried] at live; cases live⟩
    · exact ⟨fun object => absurd gone object, fun live => by rw [buried] at live; cases live⟩
  · obtain ⟨r, old, left⟩ := mem_filterMap.mp mem
    rcases leaves r x left with rfl | ⟨-, -, version⟩
    · exact h.ids x old
    · exact version ▸ h.ids r old

lemma Tidy.append (h : Tidy d used rows) (fresh : Fresh d used r)
    (version : ∀ x ∈ rows, x.isTombstone = false → x.bucket = r.bucket → x.key = r.key →
      tagVersion x ≠ tagVersion r) {more : List String} (less : used ⊆ more)
    (own : r.blobId ≠ "" → ∀ y ∈ d.reach r.blobId, y ∈ more) : Tidy d more (rows ++ [r]) := by
  have old_or_new : ∀ {P : ObjectRecord → Prop}, (∀ x ∈ rows, P x) → P r → ∀ x ∈ rows ++ [r], P x := by
    intro P old new x mem
    rcases mem_append.mp mem with mem | mem
    · exact old x mem
    · exact mem_singleton.mp mem ▸ new
  refine ⟨pairwise_append.mpr ⟨h.apart, pairwise_singleton _ _, fun x mem y last => ?_⟩,
    old_or_new h.ids fresh.id, old_or_new h.flat fresh.flat,
    old_or_new (fun x mem object y reached => less (h.owned x mem object y reached)) own⟩
  rw [mem_singleton.mp last]
  exact ⟨fun object new y reached met => fresh.blob new y met (h.owned x mem object y reached),
    fun live _ bucket key => version x mem live bucket key⟩

/-- What a transaction makes of the rows, up to `is_latest`: it leaves rows, and may add one. -/
def Evolves (d : Disk) (used : List String) (rows rows' : List ObjectRecord) : Prop :=
  ∃ f, Leaves f ∧ ∃ new : Option ObjectRecord,
    rows'.map replicated = (rows.filterMap f ++ new.toList).map replicated ∧
    ∀ n ∈ new, Fresh d used n ∧ ∀ x ∈ rows.filterMap f, x.isTombstone = false → x.bucket = n.bucket →
      x.key = n.key → tagVersion x ≠ tagVersion n

def ownedBy (d : Disk) (rows : List ObjectRecord) : List String :=
  (rows.filter (·.blobId ≠ "")).flatMap fun r => d.reach r.blobId

lemma mem_ownedBy (mem : r ∈ rows) (object : r.blobId ≠ "") {y : String}
    (reached : y ∈ d.reach r.blobId) : y ∈ ownedBy d rows :=
  mem_flatMap.mpr ⟨r, mem_filter.mpr ⟨mem, decide_eq_true object⟩, reached⟩

lemma Tidy.own {more : List String} (h : Tidy d more rows) : Tidy d (ownedBy d rows ++ used) rows :=
  ⟨h.apart, h.ids, h.flat, fun _ mem object _ reached =>
    mem_append_left _ (mem_ownedBy mem object reached)⟩

lemma Evolves.tidy (h : Evolves d used rows rows') (tidy : Tidy d used rows) :
    Tidy d (ownedBy d rows' ++ used) rows' := by
  obtain ⟨f, leaves, new, same, fresh⟩ := h
  have kept := tidy.filterMap leaves
  cases new with
  | none =>
    rw [toList_none, append_nil] at same
    exact (kept.of_replicated same).own
  | some n =>
    obtain ⟨drawn, version⟩ := fresh n rfl
    have added : Tidy d (ownedBy d [n] ++ used) (rows.filterMap f ++ [n]) :=
      kept.append drawn version (subset_append_right _ _) fun object y reached =>
        mem_append_left _ (mem_ownedBy mem_cons_self object reached)
    exact (added.of_replicated same).own

lemma Evolves.clientRows (h : Evolves d used rows rows') (tidy : Tidy d used rows) :
    ClientRows d used rows rows' := by
  refine ⟨fun r mem object => ?_, (h.tidy tidy).separate⟩
  obtain ⟨f, leaves, new, same, fresh⟩ := h
  have image : r.replicated ∈ (rows.filterMap f ++ new.toList).map replicated :=
    same ▸ mem_map_of_mem mem
  obtain ⟨x, mem, eq⟩ := mem_map.mp image
  have blob : x.replicated.blobId = r.replicated.blobId := by rw [eq]
  rcases mem_append.mp mem with kept | drawn
  · obtain ⟨y, old, left⟩ := mem_filterMap.mp kept
    rcases leaves y x left with rfl | ⟨gone, -⟩
    · have columns : settled x.replicated = settled r.replicated := by rw [eq]
      exact .inl ⟨x, old, blob, columns⟩
    · exact absurd (blob.symm.trans gone) object
  · exact .inr (blob ▸ (fresh x (mem_toList.mp drawn)).1.blob (blob ▸ object))

variable (p : ObjectRecord → Bool)

lemma deleteWhere_eq (rows : List ObjectRecord) :
    deleteWhere p rows = rows.filterMap fun r => if p r then none else some r := by
  rw [deleteWhere, ← filterMap_eq_filter]
  congr
  funext r
  cases chosen : p r <;> simp [Option.guard, chosen]

lemma leaves_deleteWhere : Leaves fun r => if p r then none else some r := by
  intro r x left
  dsimp only at left
  split at left
  · cases left
  · exact .inl (some.inj left).symm

lemma evolves_deleteWhere
    (same : rows'.map replicated = (deleteWhere p rows).map replicated) : Evolves d used rows rows' := by
  refine ⟨_, leaves_deleteWhere p, none, ?_, fun _ drawn => absurd drawn (not_mem_none _)⟩
  rw [same, deleteWhere_eq, toList_none, append_nil]

lemma evolves_refl (same : rows'.map replicated = rows.map replicated) : Evolves d used rows rows' := by
  refine evolves_deleteWhere (fun _ => false) (same.trans ?_)
  simp [deleteWhere]

lemma evolves_tombstone (now : Instant)
    (same : rows'.map replicated = (updateWhere p (tombstone now) rows).map replicated) :
    Evolves d used rows rows' := by
  refine ⟨fun r => some (if p r then tombstone now r else r), fun r x left => ?_, none, ?_,
    fun _ drawn => absurd drawn (not_mem_none _)⟩
  · obtain rfl := some.inj left
    split
    · exact .inr ⟨rfl, rfl, rfl⟩
    · exact .inl rfl
  · rw [same, updateWhere, toList_none, append_nil, filterMap_eq_map']

lemma evolves_append {p : ObjectRecord → Bool} (fresh : Fresh d used r)
    (version : ∀ x ∈ rows, p x = false → x.bucket = r.bucket → x.key = r.key → tagVersion x ≠ tagVersion r)
    (same : rows'.map replicated = (deleteWhere p rows).map replicated ++ [r.replicated]) :
    Evolves d used rows rows' := by
  refine ⟨_, leaves_deleteWhere p, some r, ?_, fun n drawn => ?_⟩
  · rw [same, deleteWhere_eq, toList_some, map_append, map_singleton]
  · obtain rfl := some.inj drawn
    refine ⟨fresh, fun x kept _ => ?_⟩
    rw [← deleteWhere_eq] at kept
    obtain ⟨mem, stays⟩ := mem_filter.mp kept
    exact version x mem (by simpa using stays)

/-- A version id that no row of the table has. -/
def Unused (t : ObjectTable) (uuid : String) : Prop :=
  uuid ≠ "" ∧ ∀ r ∈ t.rows, r.versionId ≠ some uuid

/-- The transactions of clients, with the blob and the version id they bring. -/
def Client (d : Disk) (used : List String) (t : ObjectTable) : MetaOp → Prop
  | .put record _ uuid => Unused t uuid ∧ (record.blobId ≠ "" → (∀ x ∈ d.reach record.blobId, x ∉ used) ∧
      (d.sidecars record.blobId).all (·.flat d) = true)
  | .deleteLatest _ _ _ _ uuid _ => Unused t uuid
  | .deleteVersion .. | .purgeTombstones _ | .setVersioning .. => True
  | .applyRemoteObject _ | .applyRemoteVersionDelete .. => False

variable {t t' : ObjectTable} {uuid : String}

lemma tagVersion_ne_unused (unused : Unused t uuid) (mem : r ∈ t.rows) : tagVersion r ≠ uuid := by
  unfold tagVersion
  cases version : r.versionId with
  | none => exact unused.1.symm
  | some v => exact fun same => unused.2 r mem (version.trans (congrArg some same))

section
variable (tidy : Tidy d used t.rows)
include tidy

lemma tagVersion_ne_empty (mem : r ∈ t.rows) (some : r.versionId ≠ none) :
    tagVersion r ≠ "" := by
  unfold tagVersion
  cases version : r.versionId with
  | none => exact absurd version some
  | some v => exact fun same => tidy.ids r mem (version.trans (congrArg _ same))

lemma evolves_cleared_append (unused : Unused t uuid) {bucket key : String}
    (at_key : atKey bucket key r = true) (given : r.versionId = t.assignedVersion bucket uuid)
    (blob : r.blobId ≠ "" → (∀ x ∈ d.reach r.blobId, x ∉ used) ∧
      (d.sidecars r.blobId).all (·.flat d) = true)
    (same : rows'.map replicated = (t.cleared bucket key ++ [r]).map replicated) :
    Evolves d used t.rows rows' := by
  obtain ⟨rfl, rfl⟩ := atKey_iff.mp at_key
  refine evolves_append (p := t.replaced r.bucket r.key)
    ⟨fun object => (blob object).1, fun object => (blob object).2, ?_⟩ (fun x mem stays bucket key => ?_) ?_
  · rw [given, assignedVersion]
    split
    · exact fun same => unused.1 (some.inj same)
    · simp
  · have here : atKey r.bucket r.key x = true := atKey_iff.mpr ⟨bucket, key⟩
    rw [tagVersion.eq_def r, given]
    unfold replaced at stays
    unfold assignedVersion
    cases state : t.versioning r.bucket with
    | unversioned =>
      rw [state, here] at stays
      cases stays
    | enabled => exact tagVersion_ne_unused unused mem
    | suspended =>
      simp only [state, named, here, Bool.true_and, decide_eq_false_iff_not] at stays
      exact tagVersion_ne_empty tidy mem stays
  · rw [same, map_append, cleared, map_replicated_clearLatest, map_singleton]

variable {pre : Option ObjectRecord → Bool}

lemma evolves_installObject {record : ObjectRecord} (client : Client d used t (.put record pre uuid))
    (h : t.installObject record pre uuid = some t') : Evolves d used t.rows t'.rows := by
  obtain ⟨-, rfl⟩ := installObject_eq_some_iff.mp h
  exact evolves_cleared_append tidy client.1 (atKey_storedRow record uuid) rfl client.2
    map_replicated_recompute

lemma evolves_deleteLatest {bucket key owner : String} {now : Instant} (unused : Unused t uuid)
    (h : t.deleteLatest bucket key pre owner uuid now = some t') : Evolves d used t.rows t'.rows := by
  cases deletesLatest h with
  | nothing => exact evolves_refl rfl
  | buries => exact evolves_tombstone _ now map_replicated_recompute
  | removes => exact evolves_deleteWhere _ rfl
  | marks =>
    exact evolves_cleared_append tidy unused (atKey_deleteMarker _ _ _) rfl (fun object => absurd rfl object) rfl

end

lemma evolves_deleteVersion {bucket key version : String} {pre : Option ObjectRecord → Bool}
    {now : Instant} (h : t.deleteVersion bucket key version pre now = some t') :
    Evolves d used t.rows t'.rows := by
  cases deletesVersion h with
  | nothing => exact evolves_refl rfl
  | buries => exact evolves_tombstone _ now map_replicated_recompute
  | removes => exact evolves_deleteWhere _ map_replicated_recompute

lemma evolves_getD {o : Option ObjectTable} (h : ∀ t', o = some t' → Evolves d used t.rows t'.rows) :
    Evolves d used t.rows (o.getD t).rows := by
  cases o with
  | none => exact evolves_refl rfl
  | some t' => exact h t' rfl

lemma evolves_step (tidy : Tidy d used t.rows) {op : MetaOp} (client : Client d used t op) :
    Evolves d used t.rows (t.step op).rows := by
  cases op with
  | put record pre uuid => exact evolves_getD fun _ => evolves_installObject tidy client
  | deleteLatest bucket key pre owner uuid now =>
    exact evolves_getD fun _ => evolves_deleteLatest tidy client
  | deleteVersion bucket key version pre now => exact evolves_getD fun _ => evolves_deleteVersion
  | purgeTombstones before => exact evolves_deleteWhere _ rfl
  | setVersioning bucket state => exact evolves_refl rfl
  | applyRemoteObject record => cases client
  | applyRemoteVersionDelete bucket key version now => cases client

end

def idle : State := ⟨.new false, ⟨fun _ => none, fun _ => none⟩, .listing, 0, [], id, [], []⟩

end Arca.Recrypt
