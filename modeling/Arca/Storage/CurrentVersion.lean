import Arca.Storage.ObjectTable

/-!
# The current version of a key

All operations but one keep the flag on the greatest live row. The exception is the
delete of the latest version under versioning, which flags its own marker without
looking at the rows the key still has.
-/
namespace Arca.ObjectTable
open CurrentRow List Option

def rowsOf (bucket key : String) (rows : List ObjectRecord) : List ObjectRecord :=
  rows.filter (atKey bucket key)

def versionRank : Option String → WithBot String
  | none => ⊥
  | some v => v

def sortKey (r : ObjectRecord) : Instant ×ₗ (WithBot String ×ₗ String) :=
  toLex (r.lastModified, toLex (versionRank r.versionId, r.blobId))

def reading : Reading ObjectRecord (Instant ×ₗ (WithBot String ×ₗ String)) where
  live r := !r.isTombstone
  flag r := r.isLatest
  rank := sortKey

/-- Each key has its flag on exactly the greatest row that is no tombstone, and
on no row when all of them are tombstones. -/
def CurrentVersions (t : ObjectTable) : Prop :=
  ∀ bucket key, Current reading (rowsOf bucket key t.rows)

lemma versionRank_inj {a b : Option String} : versionRank a = versionRank b ↔ a = b := by
  cases a <;> cases b <;> simp [versionRank]

lemma versionLt_iff (a b : Option String) :
    versionLt a b = true ↔ versionRank a < versionRank b := by
  cases a <;> cases b <;> simp [versionLt, versionRank]

lemma sortsAfter_iff (a b : ObjectRecord) : sortsAfter a b = true ↔ sortKey a < sortKey b := by
  simp only [sortsAfter, sortKey, Prod.Lex.toLex_lt_toLex, Bool.or_eq_true, Bool.and_eq_true,
    decide_eq_true_eq, versionLt_iff, versionRank_inj]

/-- `rows'` differs from `rows` at most in the rows of one key. -/
def Frame (bucket key : String) (rows rows' : List ObjectRecord) : Prop :=
  ∀ b k, ¬ (b = bucket ∧ k = key) → rowsOf b k rows' = rowsOf b k rows

variable {bucket key : String} {rows rows' rows'' : List ObjectRecord}
  {p : ObjectRecord → Bool} {f : ObjectRecord → ObjectRecord}
  {r : ObjectRecord} {uuid owner : String} {now : Instant}

lemma atKey_iff : atKey bucket key r = true ↔ r.bucket = bucket ∧ r.key = key := by
  simp [atKey]

lemma atKey_other {b k : String} (h : ¬ (b = bucket ∧ k = key))
    (hr : atKey bucket key r = true) : atKey b k r = false := by
  rw [Bool.eq_false_iff, ne_eq, atKey_iff]
  rw [atKey_iff] at hr
  rintro ⟨rfl, rfl⟩
  exact h hr

lemma Frame.refl : Frame bucket key rows rows := fun _ _ _ => rfl

lemma Frame.trans (h : Frame bucket key rows rows') (h' : Frame bucket key rows' rows'') :
    Frame bucket key rows rows'' := fun b k hne => (h' b k hne).trans (h b k hne)

def KeepsKey (f : ObjectRecord → ObjectRecord) : Prop := ∀ b k r, atKey b k (f r) = atKey b k r

lemma rowsOf_updateWhere (hf : KeepsKey f) (rows : List ObjectRecord) :
    rowsOf bucket key (updateWhere p f rows) = updateWhere p f (rowsOf bucket key rows) := by
  unfold rowsOf updateWhere
  rw [List.filter_map]
  congr 1
  refine filter_congr fun r _ => ?_
  rw [Function.comp_apply]
  split
  · exact hf _ _ _
  · rfl

lemma rowsOf_deleteWhere (rows : List ObjectRecord) :
    rowsOf bucket key (deleteWhere p rows) = deleteWhere p (rowsOf bucket key rows) := by
  unfold rowsOf deleteWhere
  rw [List.filter_filter, List.filter_filter]
  exact filter_congr fun r _ => Bool.and_comm _ _

lemma rowsOf_append_one (rows : List ObjectRecord)
    (h : atKey bucket key r = true) : rowsOf bucket key (rows ++ [r]) = rowsOf bucket key rows ++ [r] := by
  simp [rowsOf, filter_append, h]

lemma rowsOf_updateFirst (hf : KeepsKey f) (hp : ∀ r, p r = true → atKey bucket key r = true)
    (rows : List ObjectRecord) :
    rowsOf bucket key (updateFirst p f rows) = updateFirst p f (rowsOf bucket key rows) := by
  induction rows with
  | nil => rfl
  | cons r rows ih =>
    unfold rowsOf at ih ⊢
    by_cases hr : p r = true
    · simp [updateFirst, hr, hp r hr, hf bucket key r]
    · by_cases ha : atKey bucket key r = true <;> simp [updateFirst, hr, ha, ih]

lemma frame_updateWhere (hf : KeepsKey f) (hp : ∀ r, p r = true → atKey bucket key r = true) :
    Frame bucket key rows (updateWhere p f rows) := by
  intro b k hne
  rw [rowsOf_updateWhere hf, updateWhere]
  refine (map_congr_left fun r hr => ?_).trans (map_id _)
  have other : p r = false := Bool.eq_false_iff.mpr fun h =>
    absurd (mem_filter.mp hr).2 (by simp [atKey_other hne (hp r h)])
  simp [other]

lemma frame_deleteWhere (hp : ∀ r, p r = true → atKey bucket key r = true) :
    Frame bucket key rows (deleteWhere p rows) := by
  intro b k hne
  rw [rowsOf_deleteWhere, deleteWhere, filter_eq_self]
  intro r hr
  have other : p r = false := Bool.eq_false_iff.mpr fun h =>
    absurd (mem_filter.mp hr).2 (by simp [atKey_other hne (hp r h)])
  simp [other]

lemma frame_append (h : atKey bucket key r = true) : Frame bucket key rows (rows ++ [r]) := by
  intro b k hne
  simp [rowsOf, filter_append, atKey_other hne h]

lemma frame_updateFirst (hf : KeepsKey f) (hp : ∀ r, p r = true → atKey bucket key r = true) :
    Frame bucket key rows (updateFirst p f rows) := by
  intro b k hne
  induction rows with
  | nil => rfl
  | cons r rows ih =>
    unfold rowsOf at ih ⊢
    by_cases hr : p r = true
    · have other := atKey_other hne (hp r hr)
      simp [updateFirst, hr, hf b k r, other]
    · by_cases ha : atKey b k r = true <;> simp [updateFirst, hr, ha, ih]

lemma keepsKey_setLatest (flag : Bool) : KeepsKey (setLatest flag) := fun _ _ _ => rfl

lemma keepsKey_tombstone (now : Instant) : KeepsKey (tombstone now) := fun _ _ _ => rfl

lemma frame_clearLatest : Frame bucket key rows (clearLatest bucket key rows) :=
  frame_updateWhere (keepsKey_setLatest false) fun _ h => (Bool.and_eq_true _ _ ▸ h).1

lemma frame_recompute : Frame bucket key rows (recomputeIsLatest bucket key rows) := by
  refine frame_clearLatest.trans (frame_updateFirst (keepsKey_setLatest true) ?_)
  intro r h
  simp only [canHead, Bool.and_eq_true] at h
  exact h.1.1

lemma mem_rowsOf : r ∈ rowsOf bucket key rows ↔ r ∈ rows ∧ atKey bucket key r = true := mem_filter

lemma rowsOf_clearLatest (rows : List ObjectRecord) :
    rowsOf bucket key (clearLatest bucket key rows) =
      (rowsOf bucket key rows).map (setLatest false) := by
  rw [clearLatest, rowsOf_updateWhere (keepsKey_setLatest false), updateWhere]
  refine map_congr_left fun r hr => ?_
  have at_key := (mem_rowsOf.mp hr).2
  cases hl : r.isLatest with
  | true => simp [at_key]
  | false => simp [setLatest, ← hl]

lemma clearLatest_unflagged :
    ∀ r ∈ rowsOf bucket key (clearLatest bucket key rows), reading.flag r = false := by
  rw [rowsOf_clearLatest]
  intro r hr
  obtain ⟨x, _, rfl⟩ := mem_map.mp hr
  rfl

lemma current_recompute (rows : List ObjectRecord) :
    Current reading (rowsOf bucket key (recomputeIsLatest bucket key rows)) := by
  rw [recomputeIsLatest, rowsOf_updateFirst (keepsKey_setLatest true)]
  · refine current_updateFirst clearLatest_unflagged ?_ (fun _ => rfl) (fun _ => rfl) (fun _ => rfl)
    intro r hr
    have at_key := (mem_rowsOf.mp hr).2
    simp only [canHead, at_key, Bool.true_and, Bool.and_eq_true, List.all_eq_true, mem_rowsOf,
      reading, Bool.not_eq_true', Bool.and_eq_false_iff, ← not_lt, ← sortsAfter_iff]
    refine and_congr_right fun _ => forall_congr' fun x => ?_
    cases atKey bucket key x <;> cases x.isTombstone <;> simp
  · intro r h
    simp only [canHead, Bool.and_eq_true] at h
    exact h.1.1

/-- Flagging a fresh live row after clearing the others is right exactly when no
live row of the key sorts before it. -/
lemma current_clear_append_iff (at_key : atKey bucket key r = true)
    (live : r.isTombstone = false) (flag : r.isLatest = true) :
    Current reading (rowsOf bucket key (clearLatest bucket key rows ++ [r])) ↔
      ∀ x ∈ rows, atKey bucket key x = true → x.isTombstone = false → sortsAfter r x = false := by
  rw [rowsOf_append_one _ at_key, current_append_iff clearLatest_unflagged (by simp [reading, live])
    flag, rowsOf_clearLatest, List.forall_mem_map]
  simp only [mem_rowsOf, and_imp, Bool.eq_false_iff, ne_eq, sortsAfter_iff, not_lt]
  simp [reading, setLatest, sortKey]

lemma rowsOf_deleteAll (rows : List ObjectRecord) :
    rowsOf bucket key (deleteWhere (atKey bucket key) rows) = [] := by
  rw [rowsOf_deleteWhere, deleteWhere, filter_eq_nil_iff]
  intro r hr
  simp [(mem_rowsOf.mp hr).2]

variable {t t' : ObjectTable}

lemma recompute_concat_of_only (others : ∀ x ∈ rows, atKey bucket key x = false)
    (at_key : atKey bucket key r = true) (live : r.isTombstone = false) (flag : r.isLatest = true) :
    recomputeIsLatest bucket key (rows ++ [r]) = rows ++ [r] := by
  have unflagged : clearLatest bucket key (rows ++ [r]) = rows ++ [setLatest false r] := by
    rw [clearLatest, updateWhere, map_append, map_singleton, at_key, flag]
    congr 1
    exact (map_congr_left fun x mem => by simp [others x mem]).trans (map_id _)
  have heads : canHead bucket key (rows ++ [setLatest false r]) (setLatest false r) = true := by
    have tie : sortsAfter (setLatest false r) (setLatest false r) = false := by
      rw [Bool.eq_false_iff, ne_eq, sortsAfter_iff]
      exact lt_irrefl _
    have own : atKey bucket key (setLatest false r) = true := at_key
    have alive : (setLatest false r).isTombstone = false := live
    rw [canHead, own, alive, all_append, all_cons, tie]
    simpa using fun x mem => .inl (.inl (others x mem))
  have restored : setLatest true (setLatest false r) = r := by
    rw [setLatest, setLatest, ← flag]
  rw [recomputeIsLatest, unflagged, updateFirst_concat _ (fun x mem => ?_) heads, restored]
  rw [canHead, others x mem, Bool.false_and, Bool.false_and]

variable {pre : Option ObjectRecord → Bool}

/-- A put that is not refused replaces rows of its key, adds its own and flags the newest. -/
lemma installObject_eq_some_iff {record : ObjectRecord} :
    t.installObject record pre uuid = some t' ↔
      pre (fetchCurrentObject record.bucket record.key t.rows) = true ∧ t' = { t with
        rows := recomputeIsLatest record.bucket record.key
          (t.cleared record.bucket record.key ++ [t.storedRow record uuid]) } := by
  unfold installObject cleared storedRow assignedVersion replaced
  dsimp only
  cases pre (fetchCurrentObject record.bucket record.key t.rows) with
  | false => simp
  | true =>
    simp only [Bool.not_true, Bool.false_eq_true, if_false, true_and]
    cases t.versioning record.bucket with
    | unversioned =>
      have others : ∀ x ∈ deleteWhere (atKey record.bucket record.key) t.rows,
          atKey record.bucket record.key x = false := fun x mem => by
        simpa using (mem_filter.mp mem).2
      have unflagged : clearLatest record.bucket record.key
          (deleteWhere (atKey record.bucket record.key) t.rows) =
          deleteWhere (atKey record.bucket record.key) t.rows := by
        refine (map_congr_left fun x mem => ?_).trans (map_id _)
        simp [others x mem]
      simp only [unflagged, reduceCtorEq, if_false, some.injEq]
      split
      · exact eq_comm
      · next live =>
          rw [recompute_concat_of_only
            (r := { record with versionId := none, isLatest := true, isDeleteMarker := false })
            others (atKey_iff.mpr ⟨rfl, rfl⟩) (by simpa using live) rfl]
          exact eq_comm
    | enabled => simp [deleteWhere, eq_comm]
    | suspended => simp [named, eq_comm]

inductive DeletesLatest (t : ObjectTable) (bucket key owner uuid : String) (now : Instant) :
    ObjectTable → Prop
  | nothing : t.versioning bucket = .unversioned → fetchLatestObject bucket key t.rows = none →
      DeletesLatest t bucket key owner uuid now t
  | buries : t.versioning bucket = .unversioned → (fetchLatestObject bucket key t.rows).isSome →
      t.clusterMode = true → DeletesLatest t bucket key owner uuid now { t with
        rows := recomputeIsLatest bucket key (updateWhere (atKey bucket key) (tombstone now) t.rows) }
  | removes : t.versioning bucket = .unversioned → (fetchLatestObject bucket key t.rows).isSome →
      t.clusterMode = false →
      DeletesLatest t bucket key owner uuid now { t with rows := deleteWhere (atKey bucket key) t.rows }
  | marks : t.versioning bucket ≠ .unversioned → DeletesLatest t bucket key owner uuid now { t with
        rows := t.cleared bucket key ++
          [deleteMarker bucket key owner (t.assignedVersion bucket uuid) now] }

lemma deletesLatest
    (h : t.deleteLatest bucket key pre owner uuid now = some t') :
    DeletesLatest t bucket key owner uuid now t' := by
  have marked : t.versioning bucket ≠ .unversioned → DeletesLatest t bucket key owner uuid now _ := .marks
  unfold deleteLatest at h
  unfold cleared replaced assignedVersion at marked
  split at h
  · cases h
  · cases state : t.versioning bucket with
    | unversioned =>
      simp only [state] at h
      split_ifs at h with none cluster <;> obtain rfl := some.inj h
      · exact .nothing state (isNone_iff_eq_none.mp none)
      · exact .buries state (by simpa [isSome_iff_ne_none] using none) cluster
      · exact .removes state (by simpa [isSome_iff_ne_none] using none) (by simpa using cluster)
    | enabled =>
      simp only [state, some.injEq] at h
      subst h
      simpa [state, deleteWhere] using marked
    | suspended =>
      simp only [state, some.injEq] at h
      subst h
      simpa [state, named] using marked

inductive DeletesVersion (t : ObjectTable) (bucket key version : String) (now : Instant) :
    ObjectTable → Prop
  | nothing : (∀ r ∈ t.rows, named bucket key (versionArg version) r = true → r.isTombstone = true) →
      DeletesVersion t bucket key version now t
  | buries : t.clusterMode = true → DeletesVersion t bucket key version now { t with
      rows := recomputeIsLatest bucket key
        (updateWhere (named bucket key (versionArg version)) (tombstone now) t.rows) }
  | removes : t.clusterMode = false → DeletesVersion t bucket key version now { t with
      rows := recomputeIsLatest bucket key
        (deleteWhere (named bucket key (versionArg version)) t.rows) }

lemma deletesVersion {version : String}
    (h : t.deleteVersion bucket key version pre now = some t') :
    DeletesVersion t bucket key version now t' := by
  unfold deleteVersion at h
  dsimp only at h
  split_ifs at h with _ none cluster <;> obtain rfl := some.inj h
  · refine .nothing fun r mem own => ?_
    have absent := find?_eq_none.mp (isNone_iff_eq_none.mp none) r mem
    rw [named] at own
    simpa [own] using absent
  · exact .buries cluster
  · exact .removes (by simpa using cluster)

lemma CurrentVersions.of_frame (h : CurrentVersions t) (frame : Frame bucket key t.rows rows')
    (own : Current reading (rowsOf bucket key rows')) (versioning : String → VersioningState) :
    CurrentVersions { t with rows := rows', versioning := versioning } := by
  intro b k
  by_cases same : b = bucket ∧ k = key
  · obtain ⟨rfl, rfl⟩ := same
    exact own
  · rw [frame b k same]
    exact h b k

lemma CurrentVersions.recompute (h : CurrentVersions t) (frame : Frame bucket key t.rows rows') :
    CurrentVersions { t with rows := recomputeIsLatest bucket key rows' } :=
  h.of_frame (frame.trans frame_recompute) (current_recompute rows') t.versioning

lemma frame_deleteNull :
    Frame bucket key rows (deleteWhere (fun r => atKey bucket key r && r.versionId = none) rows) :=
  frame_deleteWhere fun _ h => (Bool.and_eq_true _ _ ▸ h).1

lemma atKey_of_replaced (h : t.replaced bucket key r = true) : atKey bucket key r = true := by
  unfold replaced at h
  split at h
  · exact h
  · cases h
  · exact (Bool.and_eq_true_iff.mp h).1

lemma frame_cleared : Frame bucket key t.rows (t.cleared bucket key) :=
  (frame_deleteWhere fun _ => atKey_of_replaced).trans frame_clearLatest

lemma atKey_storedRow (record : ObjectRecord) (uuid : String) :
    atKey record.bucket record.key (t.storedRow record uuid) = true := atKey_iff.mpr ⟨rfl, rfl⟩

lemma atKey_deleteMarker (owner : String) (version : Option String) (now : Instant) :
    atKey bucket key (deleteMarker bucket key owner version now) = true := atKey_iff.mpr ⟨rfl, rfl⟩

variable {version : Option String}

lemma named_iff : named bucket key version r = true ↔
    r.bucket = bucket ∧ r.key = key ∧ r.versionId = version := by
  simp [named, atKey, and_assoc]

lemma named_self (r : ObjectRecord) : named r.bucket r.key r.versionId r = true :=
  named_iff.mpr ⟨rfl, rfl, rfl⟩

lemma atKey_of_named (h : named bucket key version r = true) :
    atKey bucket key r = true := (Bool.and_eq_true_iff.mp h).1

variable {pre : Option ObjectRecord → Bool}

lemma current_installObject (h : CurrentVersions t) {record : ObjectRecord}
    (eq : t.installObject record pre uuid = some t') : CurrentVersions t' := by
  obtain ⟨-, rfl⟩ := installObject_eq_some_iff.mp eq
  exact h.recompute (frame_cleared.trans (frame_append (atKey_storedRow record uuid)))

lemma current_deleteVersion (h : CurrentVersions t) {version : String}
    (eq : t.deleteVersion bucket key version pre now = some t') : CurrentVersions t' := by
  cases deletesVersion eq with
  | nothing => exact h
  | buries => exact h.recompute (frame_updateWhere (keepsKey_tombstone now) fun _ => atKey_of_named)
  | removes => exact h.recompute (frame_deleteWhere fun _ => atKey_of_named)

lemma named_resolve {held row : ObjectRecord} (h : r.resolveReplicated held = some row)
    (hr : named bucket key version r = true) (hh : named bucket key version held = true) :
    named bucket key version row = true := by
  unfold ObjectRecord.resolveReplicated at h
  split_ifs at h with _ _ _ _
  · exact some.inj h ▸ hr
  · exact some.inj h ▸ hr
  · dsimp only at h
    split_ifs at h with same
    obtain rfl := some.inj h
    unfold ObjectRecord.mergeRegisters
    split_ifs <;> exact hh

section
variable (h : CurrentVersions t)
include h

lemma current_applyRemoteObject (record : ObjectRecord) :
    CurrentVersions (t.applyRemoteObject record) := by
  refine h.recompute ?_
  split
  · next row eq =>
      refine (frame_deleteWhere fun _ => atKey_of_named).trans (frame_append ?_)
      change atKey record.bucket record.key row = true
      split at eq
      · exact some.inj eq ▸ atKey_iff.mpr ⟨rfl, rfl⟩
      · next existing found =>
          exact atKey_of_named (named_resolve eq (named_self record) (find?_some found))
  · exact .refl

lemma current_applyRemoteVersionDelete (version : String) (now : Instant) :
    CurrentVersions (t.applyRemoteVersionDelete bucket key version now) := by
  refine h.recompute (frame_updateWhere (keepsKey_tombstone now) fun r hr => ?_)
  simp only [Bool.and_eq_true] at hr
  exact hr.1.1

lemma current_purgeTombstones (before : Instant) :
    CurrentVersions (t.purgeTombstones before) := by
  intro b k
  change Current reading (rowsOf b k (deleteWhere _ t.rows))
  rw [rowsOf_deleteWhere]
  refine (h b k).filter fun r _ live => ?_
  simp only [reading, Bool.not_eq_true'] at live
  simp [live]

/-- A delete of the latest version may flag its marker: no live row that stays sorts before it. -/
def MarkerHeads (t : ObjectTable) : MetaOp → Prop
  | .deleteLatest bucket key pre owner uuid now =>
    pre (fetchLatestObject bucket key t.rows) = true →
    match t.versioning bucket with
    | .unversioned => True
    | .enabled => ∀ r ∈ t.rows, atKey bucket key r = true → r.isTombstone = false →
        sortsAfter (deleteMarker bucket key owner (some uuid) now) r = false
    | .suspended => ∀ r ∈ t.rows, atKey bucket key r = true → r.isTombstone = false →
        r.versionId ≠ none → sortsAfter (deleteMarker bucket key owner none now) r = false
  | _ => True

lemma current_marker_iff (frame : Frame bucket key t.rows rows) :
    CurrentVersions { t with
      rows := clearLatest bucket key rows ++ [deleteMarker bucket key owner version now] } ↔
    ∀ x ∈ rows, atKey bucket key x = true → x.isTombstone = false →
      sortsAfter (deleteMarker bucket key owner version now) x = false := by
  have own : atKey bucket key _ = true := atKey_deleteMarker owner version now
  rw [← current_clear_append_iff own rfl rfl]
  constructor
  · intro current
    exact current bucket key
  · intro current
    exact h.of_frame (frame.trans (frame_clearLatest.trans (frame_append own))) current t.versioning

lemma current_deleteLatest_iff (pre : Option ObjectRecord → Bool)
    (owner uuid : String) (now : Instant) :
    CurrentVersions ((t.deleteLatest bucket key pre owner uuid now).getD t) ↔
      MarkerHeads t (.deleteLatest bucket key pre owner uuid now) := by
  unfold deleteLatest MarkerHeads
  cases refused : pre (fetchLatestObject bucket key t.rows) with
  | false => simpa [refused] using h
  | true =>
    simp only [refused, Bool.not_true, Bool.false_eq_true, if_false, true_imp_iff]
    cases t.versioning bucket with
    | unversioned =>
      refine iff_of_true ?_ trivial
      split_ifs
      · exact h
      · exact h.recompute (frame_updateWhere (keepsKey_tombstone now) fun r hr => hr)
      · refine h.of_frame (frame_deleteWhere fun r hr => hr) ?_ t.versioning
        rw [rowsOf_deleteAll]
        exact .nil
    | enabled => exact current_marker_iff h .refl
    | suspended =>
      refine (current_marker_iff h frame_deleteNull).trans ?_
      simp only [deleteWhere, mem_filter, and_imp]
      refine forall₂_congr fun x _ => ?_
      by_cases at_key : atKey bucket key x = true <;> by_cases null : x.versionId = none <;>
        simp [at_key, null]

end

/-- A step keeps every key's flag right exactly when it meets `MarkerHeads`. -/
lemma current_step_iff (t : ObjectTable) (op : MetaOp) (h : CurrentVersions t) :
    CurrentVersions (t.step op) ↔ MarkerHeads t op := by
  cases op with
  | put record pre uuid =>
    refine iff_of_true ?_ trivial
    cases eq : t.installObject record pre uuid with
    | none => simpa [step, eq] using h
    | some t' => simpa [step, eq] using current_installObject h eq
  | deleteLatest bucket key pre owner uuid now => exact current_deleteLatest_iff h pre owner uuid now
  | deleteVersion bucket key version pre now =>
    refine iff_of_true ?_ trivial
    cases eq : t.deleteVersion bucket key version pre now with
    | none => simpa [step, eq] using h
    | some t' => simpa [step, eq] using current_deleteVersion h eq
  | applyRemoteObject record => exact iff_of_true (current_applyRemoteObject h record) trivial
  | applyRemoteVersionDelete bucket key version now =>
    exact iff_of_true (current_applyRemoteVersionDelete h version now) trivial
  | purgeTombstones before => exact iff_of_true (current_purgeTombstones h before) trivial
  | setVersioning bucket state => exact iff_of_true h trivial

def empty (clusterMode : Bool) : ObjectTable := ⟨[], fun _ => .unversioned, clusterMode⟩

lemma current_empty (clusterMode : Bool) : CurrentVersions (empty clusterMode) :=
  fun _ _ => .nil

/-- Flags that are right stay right along a run exactly when every delete of a latest version
finds no live row above its marker. -/
theorem current_run_iff (t : ObjectTable) (h : CurrentVersions t) (ops : List MetaOp) :
    Run.Always step CurrentVersions t ops ↔ Run.Each step MarkerHeads t ops :=
  Run.always_iff_each current_step_iff h ops

/-- A version received from a node whose clock is ahead. -/
def aheadVersion : ObjectRecord :=
  { ObjectRecord.written with versionId := some "v1", lastModified := 200 }

def deleteBehind : List MetaOp :=
  [.setVersioning "b" .enabled, .applyRemoteObject aheadVersion,
    .deleteLatest "b" "k" (fun _ => true) "root" "v2" 100]

theorem current_run_iff_deleteBehind :
    CurrentVersions (empty true) ∧ (Run.Always step CurrentVersions (empty true) deleteBehind ↔
      Run.Each step MarkerHeads (empty true) deleteBehind) :=
  ⟨current_empty true, current_run_iff (empty true) (current_empty true) deleteBehind⟩

/-- After the delete the marker is flagged although the received version, which
is live, sorts before it. -/
theorem deleteBehind_flags_marker : let t := deleteBehind.foldl step (empty true)
    fetchLatestObject "b" "k" t.rows = some (deleteMarker "b" "k" "root" (some "v2") 100) ∧
    setLatest false aheadVersion ∈ t.rows ∧ ¬ CurrentVersions t := by
  intro t
  have latest : fetchLatestObject "b" "k" t.rows =
      some (deleteMarker "b" "k" "root" (some "v2") 100) := by decide
  have kept : setLatest false aheadVersion ∈ t.rows := by decide
  refine ⟨latest, kept, fun current => ?_⟩
  have marker := mem_of_find?_eq_some latest
  have le := ((current "b" "k").greatest _ (mem_rowsOf.mpr ⟨marker, by decide⟩) rfl).2
    (setLatest false aheadVersion) (mem_rowsOf.mpr ⟨kept, by decide⟩) rfl
  exact absurd ((sortsAfter_iff _ _).mp (by decide)) (not_lt.mpr le)

end Arca.ObjectTable
