import Arca.Backends.Postgres

/-!
# SQLite and PostgreSQL side by side

One sequence of operations is run on both stores.
-/
namespace Arca.Backends
open ObjectTable ObjectRecord Cluster List Option
open Postgres (wholeMicros bound readRow selectedRow insertObjectRow)

def WholeTime (t : Instant) : Prop := wholeMicros t = t

instance (t : Instant) : Decidable (WholeTime t) := inferInstanceAs (Decidable (_ = _))

def Whole (r : ObjectRecord) : Prop := bound r = r

instance (r : ObjectRecord) : Decidable (Whole r) := inferInstanceAs (Decidable (_ = _))

lemma wholeTime_wholeMicros (t : Instant) : WholeTime (wholeMicros t) := by
  have whole : ∀ n : Int, n / 1000 * 1000 / 1000 * 1000 = n / 1000 * 1000 := by
    omega
  exact whole t

lemma map_wholeMicros_eq_iff (o : Option Instant) :
    o.map wholeMicros = o ↔ ∀ t ∈ o, WholeTime t := by
  cases o <;> simp [WholeTime]

lemma whole_iff (r : ObjectRecord) : Whole r ↔
    WholeTime r.lastModified ∧ (∀ t ∈ r.retainUntilDate, WholeTime t) ∧
      (∀ t ∈ r.lockUpdatedAt, WholeTime t) ∧ ∀ t ∈ r.contentUpdatedAt, WholeTime t := by
  simp only [← map_wholeMicros_eq_iff]
  rcases r with ⟨⟩
  simp only [Whole, bound, ObjectRecord.mk.injEq, true_and, WholeTime]

lemma whole_bound (r : ObjectRecord) : Whole (bound r) := by
  rw [whole_iff]
  refine ⟨wholeTime_wholeMicros _, ?_, ?_, ?_⟩
  all_goals
    intro t ht
    obtain ⟨t', -, rfl⟩ := map_eq_some_iff.mp ht
    exact wholeTime_wholeMicros t'

variable {r x y : ObjectRecord} {now : Instant} {p : ObjectRecord → Bool}
  {f g : ObjectRecord → ObjectRecord} {uuid owner : String} {t' : ObjectTable}
  {version : Option String} {o : Option ObjectRecord}

lemma whole_congr (h : r.replicated = x.replicated) : Whole r ↔ Whole x := by
  simp only [replicated, ObjectRecord.mk.injEq, true_and] at h
  simp only [whole_iff, h]

lemma whole_of_replicated_bound (h : r.replicated = (bound r).replicated) :
    Whole r := (whole_congr h).mpr (whole_bound r)

structure Kept (rows : List ObjectRecord) : Prop where
  whole : ∀ r ∈ rows, Whole r
  live : ∀ r ∈ rows, r.isLatest = true → r.isTombstone = false

variable {bucket key : String} {rows rows' : List ObjectRecord} {t : ObjectTable}

lemma Kept.of_frame (h : Kept rows) (frame : Frame bucket key rows rows')
    (whole : ∀ r ∈ rows', Whole r)
    (own : ∀ r ∈ rowsOf bucket key rows', r.isLatest = true → r.isTombstone = false) : Kept rows' := by
  refine ⟨whole, fun r hr flag => ?_⟩
  by_cases at_key : atKey bucket key r = true
  · exact own r (mem_rowsOf.mpr ⟨hr, at_key⟩) flag
  · have apart : ¬ (r.bucket = bucket ∧ r.key = key) := fun e => at_key (atKey_iff.mpr e)
    have mem : r ∈ rowsOf r.bucket r.key rows' := mem_rowsOf.mpr ⟨hr, atKey_iff.mpr ⟨rfl, rfl⟩⟩
    rw [frame _ _ apart] at mem
    exact h.live r (mem_rowsOf.mp mem).1 flag

lemma whole_recompute (whole : ∀ r ∈ rows, Whole r) :
    ∀ r ∈ recomputeIsLatest bucket key rows, Whole r := by
  intro r hr
  obtain ⟨x, hx, same⟩ := mem_recompute hr
  exact (whole_congr same).mpr (whole x hx)

lemma whole_clearLatest (whole : ∀ r ∈ rows, Whole r) :
    ∀ r ∈ clearLatest bucket key rows, Whole r := by
  intro r hr
  obtain ⟨x, hx, same⟩ := mem_clearLatest hr
  exact (whole_congr same).mpr (whole x hx)

lemma whole_append (whole : ∀ x ∈ rows, Whole x) (new : Whole r) :
    ∀ x ∈ rows ++ [r], Whole x := by
  intro x hx
  rcases mem_append.mp hx with hx | hx
  · exact whole x hx
  · rwa [mem_singleton.mp hx]

lemma Kept.recompute (h : Kept rows) (frame : Frame bucket key rows rows')
    (whole : ∀ r ∈ rows', Whole r) : Kept (recomputeIsLatest bucket key rows') := by
  refine h.of_frame (frame.trans frame_recompute) (whole_recompute whole) fun r hr flag => ?_
  have live := ((current_recompute rows').greatest r hr flag).1
  simpa [reading] using live

lemma whole_tombstone (h : Whole r) (time : WholeTime now) : Whole (tombstone now r) := by
  rw [whole_iff] at h ⊢
  exact ⟨time, h.2⟩

lemma whole_updateWhere (whole : ∀ r ∈ rows, Whole r) (new : ∀ r ∈ rows, Whole (f r)) :
    ∀ r ∈ updateWhere p f rows, Whole r := by
  intro r hr
  rcases mem_updateWhere hr with old | ⟨x, hx, -, rfl⟩
  · exact whole r old
  · exact new x hx

lemma Kept.clear_append (h : Kept rows)
    (frame : Frame bucket key rows rows') (whole : ∀ x ∈ rows', Whole x)
    (at_key : atKey bucket key r = true) (new : Whole r) (live : r.isTombstone = false) :
    Kept (clearLatest bucket key rows' ++ [r]) := by
  refine h.of_frame ((frame.trans frame_clearLatest).trans (frame_append at_key))
    (whole_append (whole_clearLatest whole) new) fun x hx flag => ?_
  rw [rowsOf_append_one _ at_key] at hx
  rcases mem_append.mp hx with old | own
  · have unflagged : x.isLatest = false := clearLatest_unflagged x old
    rw [flag] at unflagged
    cases unflagged
  · rw [mem_singleton.mp own]
    exact live

lemma whole_cleared (whole : ∀ r ∈ t.rows, Whole r) : ∀ r ∈ t.cleared bucket key, Whole r :=
  whole_clearLatest fun r hr => whole r (mem_deleteWhere hr)

/-! The transactions are those of SQLite on what the columns keep. -/

variable (record : ObjectRecord) (pre : Option ObjectRecord → Bool)

lemma postgres_installObject (uuid : String) : Postgres.installObject t record pre uuid =
      t.installObject (bound { record with isTombstone := false }) (fun o => pre (o.map readRow))
        uuid := by
  -- a tombstone is bound as a live row, which is the only one of its key
  have others : ∀ x ∈ deleteWhere (atKey record.bucket record.key) t.rows,
      atKey record.bucket record.key x = false :=
    fun x mem => by simpa using (mem_filter.mp mem).2
  have only := recompute_concat_of_only (r := insertObjectRow record none) others
    (atKey_iff.mpr ⟨rfl, rfl⟩) rfl rfl
  unfold Postgres.installObject Postgres.installWith ObjectTable.installObject
  dsimp only
  rw [only, ite_self]
  rfl

lemma postgres_deleteLatest (owner uuid : String)
    (now : Instant) : Postgres.deleteLatest t bucket key pre owner uuid now =
      t.deleteLatest bucket key (fun o => pre (o.map readRow)) owner uuid (wholeMicros now) := by
  unfold Postgres.deleteLatest Postgres.deleteLatestWith ObjectTable.deleteLatest
  rw [isNone_map]
  rfl

lemma postgres_deleteVersion (version : String) (pre : Option ObjectRecord → Bool)
    (now : Instant) : Postgres.deleteVersion t bucket key version pre now =
      t.deleteVersion bucket key version (fun o => pre (o.map readRow)) (wholeMicros now) := by
  unfold Postgres.deleteVersion Postgres.deleteVersionWith ObjectTable.deleteVersion
  rw [Option.isNone_map, Option.any_map]
  rfl

variable {pre : Option ObjectRecord → Bool}

lemma kept_installObject (h : Kept t.rows) {record : ObjectRecord}
    (eq : Postgres.installObject t record pre uuid = some t') : Kept t'.rows := by
  rw [postgres_installObject] at eq
  obtain ⟨-, rfl⟩ := installObject_eq_some_iff.mp eq
  exact h.recompute (frame_cleared.trans (frame_append (atKey_storedRow _ uuid)))
    (whole_append (whole_cleared h.whole)
      (whole_bound (t.storedRow { record with isTombstone := false } uuid)))

lemma kept_deleteLatest (h : Kept t.rows)
    (eq : Postgres.deleteLatest t bucket key pre owner uuid now = some t') : Kept t'.rows := by
  rw [postgres_deleteLatest] at eq
  cases deletesLatest eq with
  | nothing => exact h
  | buries =>
    exact h.recompute (frame_updateWhere (keepsKey_tombstone _) fun _ hr => hr)
      (whole_updateWhere h.whole fun r hr =>
        whole_tombstone (h.whole r hr) (wholeTime_wholeMicros now))
  | removes =>
    refine h.of_frame (frame_deleteWhere fun _ hr => hr)
      (fun r hr => h.whole r (mem_deleteWhere hr)) fun r hr _ => ?_
    rw [rowsOf_deleteAll] at hr
    cases hr
  | marks =>
    exact h.clear_append (frame_deleteWhere fun _ => atKey_of_replaced)
      (fun r hr => h.whole r (mem_deleteWhere hr)) (atKey_deleteMarker _ _ _)
      (whole_bound (deleteMarker bucket key owner _ now)) rfl

lemma kept_deleteVersion (h : Kept t.rows) {version : String}
    (eq : Postgres.deleteVersion t bucket key version pre now = some t') : Kept t'.rows := by
  rw [postgres_deleteVersion] at eq
  cases deletesVersion eq with
  | nothing => exact h
  | buries =>
    exact h.recompute (frame_updateWhere (keepsKey_tombstone _) fun _ => atKey_of_named)
      (whole_updateWhere h.whole fun r hr =>
        whole_tombstone (h.whole r hr) (wholeTime_wholeMicros now))
  | removes =>
    exact h.recompute (frame_deleteWhere fun _ => atKey_of_named)
      fun r hr => h.whole r (mem_deleteWhere hr)

lemma named_toWrite {record row : ObjectRecord} {held : Option ObjectRecord}
    (own : ∀ x ∈ held, named record.bucket record.key record.versionId x = true)
    (h : Postgres.toWrite record held = some row) :
    named record.bucket record.key record.versionId row = true := by
  cases held with
  | none =>
    obtain rfl := some.inj h
    exact named_self _
  | some x => exact named_resolve h (named_self record) (own x rfl)

lemma kept_writeRows (h : Kept t.rows) {record : ObjectRecord} {row : Option ObjectRecord}
    (own : ∀ x ∈ row, named record.bucket record.key record.versionId x = true) :
    Kept (Postgres.writeRows t record row).rows := by
  cases row with
  | none => exact h.recompute Frame.refl h.whole
  | some x =>
    have at_key : atKey record.bucket record.key (setLatest false (bound x)) = true :=
      atKey_of_named (own x rfl)
    exact h.recompute ((frame_deleteWhere fun _ => atKey_of_named).trans (frame_append at_key))
      (whole_append (fun r hr => h.whole r (mem_deleteWhere hr))
        ((whole_congr (r := setLatest false (bound x)) (x := bound x) rfl).mpr (whole_bound x)))

lemma named_queryHeld {record : ObjectRecord} (h : x ∈ Postgres.queryHeld t record) :
    named record.bucket record.key record.versionId x = true := by
  obtain ⟨held, found, rfl⟩ := map_eq_some_iff.mp h
  have own : named record.bucket record.key record.versionId held = true := find?_some found
  exact own

lemma kept_applyRemoteObject (h : Kept t.rows) (record : ObjectRecord) :
    Kept (Postgres.applyRemoteObject t record).rows :=
  kept_writeRows h fun _ hx => named_toWrite (fun _ => named_queryHeld) hx

lemma kept_applyRemoteVersionDelete (h : Kept t.rows) (version : String) (now : Instant) :
    Kept (Postgres.applyRemoteVersionDelete t bucket key version now).rows := by
  refine h.recompute (frame_updateWhere (keepsKey_tombstone _) fun r hr => ?_)
    (whole_updateWhere h.whole fun r hr =>
      whole_tombstone (h.whole r hr) (wholeTime_wholeMicros now))
  simp only [Bool.and_eq_true] at hr
  exact hr.1.1

lemma kept_changeLock (h : Kept t.rows) (version : Option String)
    {change : ObjectRecord → ObjectRecord} (whole : ∀ r, Whole r → Whole (change r))
    (flag : ∀ r, (change r).isLatest = r.isLatest)
    (dead : ∀ r, (change r).isTombstone = r.isTombstone) :
    Kept (t.changeLock bucket key version change).rows := by
  refine ⟨whole_updateWhere h.whole fun r hr => whole r (h.whole r hr), fun r hr latest => ?_⟩
  rcases mem_updateWhere hr with old | ⟨x, hx, -, rfl⟩
  · exact h.live r old latest
  · rw [dead]
    exact h.live x hx (flag x ▸ latest)

lemma whole_retain {mode : Option String} {date : Option Instant}
    (h : Whole r) (dates : ∀ d ∈ date, WholeTime d) (time : WholeTime now) :
    Whole (retain mode date now r) := by
  rw [whole_iff] at h ⊢
  refine ⟨h.1, dates, ?_, h.2.2.2⟩
  intro stamp h
  obtain rfl : now = stamp := some.inj h
  exact time

lemma whole_hold {status : Option String} (h : Whole r) (time : WholeTime now) :
    Whole (hold status now r) := by
  have dates := ((whole_iff r).mp h).2.1
  have retained : Whole (retain none r.retainUntilDate now r) := whole_retain h dates time
  rw [whole_iff] at retained ⊢
  exact retained

lemma kept_written {o : Option ObjectTable} {a : ObjectTable → Answer} (h : Kept t.rows)
    (written : ∀ t', o = some t' → Kept t'.rows) :
    Kept (match o with | none => (t, Answer.refused) | some t' => (t', a t')).1.rows := by
  cases o with
  | none => exact h
  | some t' => exact written t' rfl

lemma kept_perform (h : Kept t.rows) (op : StoreOp) : Kept (Postgres.perform t op).1.rows := by
  cases op with
  | put record pre uuid =>
    exact kept_written h fun _ => kept_installObject h
  | deleteLatest bucket key pre owner uuid now =>
    exact kept_written h fun _ => kept_deleteLatest h
  | deleteVersion bucket key version pre now =>
    exact kept_written h fun _ => kept_deleteVersion h
  | applyRemoteObject record => exact kept_applyRemoteObject h record
  | applyRemoteVersionDelete bucket key version now =>
    exact kept_applyRemoteVersionDelete h version now
  | setObjectRetention bucket key version mode date now =>
    have kept : ∀ date : Option Instant, (∀ d ∈ date, WholeTime d) →
        Kept (t.changeLock bucket key version (retain mode date (wholeMicros now))).rows :=
      fun date dates => kept_changeLock h version
        (fun r hr => whole_retain hr dates (wholeTime_wholeMicros now)) (fun _ => rfl) fun _ => rfl
    cases date with
    | none => exact kept none fun d hd => by cases hd
    | some date =>
      cases date with
      | malformed text => exact h
      | rfc3339 date =>
        refine kept (some (wholeMicros date)) fun d hd => ?_
        obtain rfl := some.inj hd
        exact wholeTime_wholeMicros date
  | setObjectLegalHold bucket key version status now =>
    exact kept_changeLock h version (fun r hr => whole_hold hr (wholeTime_wholeMicros now))
      (fun _ => rfl) fun _ => rfl
  | setVersioning bucket state => exact h

/-- PostgreSQL reads a tombstone as a live row, so a register merged into it
makes it one. -/
def Revives (rows : List ObjectRecord) (record : ObjectRecord) : Prop :=
  ∃ held, versionRow record.bucket record.key record.versionId rows = some held ∧
    held.isTombstone = true ∧ held.lastModified = record.lastModified ∧ record.etag = held.etag ∧
    (optionLt held.lockUpdatedAt record.lockUpdatedAt = true ∨
      optionLt held.contentUpdatedAt record.contentUpdatedAt = true)

/-- The operation stores only what both databases keep alike. -/
def Faithful (t : ObjectTable) : StoreOp → Prop
  | .put record pre _ => pre (fetchCurrentObject record.bucket record.key t.rows) = true →
      Whole record ∧ record.isTombstone = false
  | .deleteLatest bucket key pre _ _ now =>
    pre (fetchLatestObject bucket key t.rows) = true →
    (t.versioning bucket = .unversioned →
      (fetchLatestObject bucket key t.rows).isSome = true ∧ t.clusterMode = true) → WholeTime now
  | .deleteVersion bucket key version pre now =>
    ((liveVersion bucket key version t.rows).any (·.isDeleteMarker) ||
      pre (liveVersion bucket key version t.rows)) = true →
    (liveVersion bucket key version t.rows).isSome = true → t.clusterMode = true → WholeTime now
  | .applyRemoteObject record =>
    (∀ row, remoteWrite t.rows record = some row → Whole row) ∧ ¬ Revives t.rows record
  | .applyRemoteVersionDelete bucket key version now =>
    (liveVersion bucket key version t.rows).isSome = true → WholeTime now
  | .setObjectRetention bucket key version _ date now =>
    (∀ text, date ≠ some (.malformed text)) ∧
    (t.rows.any (lockTarget bucket key version) = true →
      WholeTime now ∧ ∀ d, date = some (.rfc3339 d) → WholeTime d)
  | .setObjectLegalHold bucket key version _ now =>
    t.rows.any (lockTarget bucket key version) = true → WholeTime now
  | .setVersioning _ _ => True

lemma readRow_of_live (h : r.isTombstone = false) : readRow r = r := by
  rcases r with ⟨⟩
  simp only [readRow, ObjectRecord.mk.injEq, true_and]
  exact ⟨h.symm, trivial⟩

lemma map_readRow (h : ∀ r ∈ o, r.isTombstone = false) : o.map readRow = o := by
  cases o with
  | none => rfl
  | some r => rw [map_some, readRow_of_live (h r rfl)]

lemma map_selectedRow (h : ∀ r ∈ o, r.isTombstone = false) :
    o.map selectedRow = o.map selected := by
  have split : o.map selectedRow = (o.map readRow).map selected := (Option.map_map ..).symm
  rw [split, map_readRow h]

lemma Kept.live_find (h : Kept rows) (flagged : ∀ r, p r = true → r.isLatest = true) :
    ∀ r ∈ rows.find? p, r.isTombstone = false :=
  fun r hr => h.live r (mem_of_find?_eq_some hr) (flagged r (find?_some hr))

lemma Kept.fetchLatest (h : Kept rows) :
    ∀ r ∈ fetchLatestObject bucket key rows, r.isTombstone = false :=
  h.live_find (by simp)

lemma Kept.fetchCurrent (h : Kept rows) :
    ∀ r ∈ fetchCurrentObject bucket key rows, r.isTombstone = false :=
  h.live_find (by simp_all)

lemma live_of_find : ∀ r ∈ rows.find? (fun r => p r && !r.isTombstone), r.isTombstone = false := by
  intro r hr
  have found := find?_some hr
  simp only [Bool.and_eq_true, Bool.not_eq_true'] at found
  exact found.2

lemma live_liveVersion {version : String} :
    ∀ r ∈ liveVersion bucket key version rows, r.isTombstone = false := live_of_find

lemma replicated_eq_of_recompute_append
    (h : recomputeIsLatest bucket key (rows ++ [x]) = recomputeIsLatest bucket key (rows ++ [y])) :
    x.replicated = y.replicated := by
  have same := congrArg (List.map replicated) h
  rw [map_replicated_recompute, map_replicated_recompute, map_append, map_append] at same
  exact singleton_inj.mp (append_cancel_left same)

lemma replicated_eq_of_updateWhere
    (h : (updateWhere p f rows).map replicated = (updateWhere p g rows).map replicated)
    (hr : r ∈ rows) (hp : p r = true) :
    (f r).replicated = (g r).replicated := by
  unfold updateWhere at h
  rw [List.map_map, List.map_map] at h
  have here := map_inj_left.mp h r hr
  simpa only [Function.comp_apply, hp, if_true] using here

lemma replicated_eq_of_recompute_updateWhere
    (h : recomputeIsLatest bucket key (updateWhere p f rows) =
      recomputeIsLatest bucket key (updateWhere p g rows)) (hr : r ∈ rows) (hp : p r = true) :
    (f r).replicated = (g r).replicated := by
  have same := congrArg (List.map replicated) h
  rw [map_replicated_recompute, map_replicated_recompute] at same
  exact replicated_eq_of_updateWhere same hr hp

lemma wholeTime_of_tombstone
    (h : (tombstone now r).replicated = (tombstone (wholeMicros now) r).replicated) :
    WholeTime now := (congrArg ObjectRecord.lastModified h).symm

lemma bound_marker_iff :
    bound (deleteMarker bucket key owner version now) = deleteMarker bucket key owner version now ↔
      WholeTime now := by
  refine (whole_iff _).trans ⟨fun h => h.1, fun h => ⟨h, ?_, ?_, ?_⟩⟩
  all_goals
    intro stamp none
    cases none

lemma inserted_eq_iff (version : Option String) :
    { record with versionId := version, isLatest := true, isDeleteMarker := false } =
      insertObjectRow record version ↔ Whole record ∧ record.isTombstone = false := by
  rcases record with ⟨⟩
  simp only [insertObjectRow, Whole, bound, ObjectRecord.mk.injEq, true_and]
  tauto

lemma inserted_eq_of_replicated {record : ObjectRecord} (h : ObjectRecord.replicated
        { record with versionId := version, isLatest := true, isDeleteMarker := false } =
      (insertObjectRow record version).replicated) :
    { record with versionId := version, isLatest := true, isDeleteMarker := false } =
      insertObjectRow record version := by
  have flagged := congrArg (setLatest true) h
  exact flagged

lemma some_rows_eq_iff : (some { t with rows := rows } : Option ObjectTable) =
    some { t with rows := rows' } ↔ rows = rows' := by
  simp only [some.injEq, ObjectTable.mk.injEq, and_true]

lemma installObject_eq_iff (h : Kept t.rows) (record : ObjectRecord)
    (pre : Option ObjectRecord → Bool) (uuid : String) :
    t.installObject record pre uuid = Postgres.installObject t record pre uuid ↔
      Faithful t (.put record pre uuid) := by
  have asked : pre ((fetchCurrentObject record.bucket record.key t.rows).map readRow) = _ :=
    congrArg pre (map_readRow h.fetchCurrent)
  have stored := inserted_eq_iff record (t.assignedVersion record.bucket uuid)
  rw [postgres_installObject, Option.ext_iff]
  simp only [installObject_eq_some_iff]
  refine ⟨fun same allowed => stored.mp (inserted_eq_of_replicated ?_),
    fun faithful t' => ?_⟩
  · have rows := congrArg ObjectTable.rows ((same _).mp ⟨allowed, rfl⟩).2
    exact replicated_eq_of_recompute_append rows
  · refine Iff.trans (and_congr_right fun allowed => ?_) (and_congr_left' (by rw [← asked]; rfl))
    have same : t.storedRow record uuid = t.storedRow (bound { record with isTombstone := false }) uuid :=
      stored.mpr (faithful allowed)
    rw [same]
    rfl

lemma deleteLatest_eq_iff (h : Kept t.rows) (pre : Option ObjectRecord → Bool)
    (owner uuid : String) (now : Instant) :
    t.deleteLatest bucket key pre owner uuid now =
        Postgres.deleteLatest t bucket key pre owner uuid now ↔
      Faithful t (.deleteLatest bucket key pre owner uuid now) := by
  unfold ObjectTable.deleteLatest Postgres.deleteLatest Postgres.deleteLatestWith Faithful
  dsimp only
  rw [map_readRow h.fetchLatest]
  cases pre (fetchLatestObject bucket key t.rows) with
  | false => exact iff_of_true rfl fun impossible => absurd impossible Bool.false_ne_true
  | true =>
    simp only [Bool.not_true, Bool.false_eq_true, if_false, forall_const]
    cases versioning : t.versioning bucket with
    | unversioned =>
      cases found : fetchLatestObject bucket key t.rows with
      | none => exact iff_of_true rfl fun some_row => absurd (some_row rfl).1 (by simp)
      | some latest =>
        simp only [isNone_some, isSome_some, Bool.false_eq_true, if_false,
          true_and, forall_const]
        cases mode : t.clusterMode with
        | false => exact iff_of_true rfl fun impossible => absurd impossible Bool.false_ne_true
        | true =>
          simp only [if_true, forall_const]
          have mem := mem_of_find?_eq_some found
          have at_key : atKey bucket key latest = true := by
            have flag := find?_some found
            simp only [Bool.and_eq_true] at flag
            exact flag.1
          rw [some.injEq, ObjectTable.mk.injEq]
          refine ⟨fun same => ?_, fun whole => ?_⟩
          · exact wholeTime_of_tombstone
              (replicated_eq_of_recompute_updateWhere same.1 mem at_key)
          · have whole : wholeMicros now = now := whole
            rw [whole]
            exact ⟨rfl, rfl, rfl⟩
    | enabled | suspended =>
      rw [some_rows_eq_iff]
      simp only [reduceCtorEq, IsEmpty.forall_iff, forall_const]
      refine ⟨fun same => ?_, fun whole => by rw [bound_marker_iff.mpr whole]⟩
      exact bound_marker_iff.mp (singleton_inj.mp (append_cancel_left same)).symm

lemma deleteVersion_eq_iff (version : String) (pre : Option ObjectRecord → Bool) (now : Instant) :
    t.deleteVersion bucket key version pre now =
        Postgres.deleteVersion t bucket key version pre now ↔
      Faithful t (.deleteVersion bucket key version pre now) := by
  have sqlite : (t.rows.find? fun r =>
      (atKey bucket key r && decide (r.versionId = versionArg version)) && !r.isTombstone) =
      liveVersion bucket key version t.rows := rfl
  unfold ObjectTable.deleteVersion Postgres.deleteVersion Postgres.deleteVersionWith Faithful
  dsimp only
  rw [map_readRow live_liveVersion, sqlite]
  cases found : liveVersion bucket key version t.rows with
  | none =>
    simp_all
  | some deleted =>
    have mem := mem_of_find?_eq_some found
    have target : named bucket key (versionArg version) deleted = true := by
      have name := find?_some found
      simp only [Bool.and_eq_true] at name
      exact name.1
    cases allowed : deleted.isDeleteMarker || pre (some deleted) with
    | false =>
      have refused : (!deleted.isDeleteMarker && !pre (some deleted)) = true := by
        rw [← Bool.not_or, allowed]
        rfl
      simp only [any_some, refused, if_true, allowed, Bool.false_eq_true,
        IsEmpty.forall_iff]
    | true =>
      have asked : (!deleted.isDeleteMarker && !pre (some deleted)) = false := by
        rw [← Bool.not_or, allowed]
        rfl
      simp only [any_some, asked, allowed, Bool.false_eq_true, if_false,
        isNone_some, isSome_some, forall_const]
      cases mode : t.clusterMode with
      | false => exact iff_of_true rfl fun impossible => absurd impossible Bool.false_ne_true
      | true =>
        simp only [if_true, forall_const, some.injEq, ObjectTable.mk.injEq, and_true]
        refine ⟨fun same => ?_, fun whole => ?_⟩
        · exact wholeTime_of_tombstone
            (replicated_eq_of_recompute_updateWhere same mem target)
        · have whole : wholeMicros now = now := whole
          rw [whole]
          rfl

lemma resolve_tie_eq_none_iff {record held : ObjectRecord}
    (tie : held.lastModified = record.lastModified) (etag : record.etag = held.etag) :
    record.resolveReplicated held = none ↔
      ¬ (optionLt held.lockUpdatedAt record.lockUpdatedAt = true ∨
        optionLt held.contentUpdatedAt record.contentUpdatedAt = true) := by
  have irrefl : ∀ o, optionLt o o ≠ true := by
    intro o
    cases o <;> simp [optionLt]
  unfold resolveReplicated
  simp only [tie, lt_irrefl, if_false, etag, ne_eq, not_true_eq_false]
  split_ifs with same
  · refine iff_of_true rfl ?_
    have same : (record.mergeRegisters held).replicated = held.replicated := of_decide_eq_true same
    rintro (lock | content)
    · have adopted : (record.mergeRegisters held).lockUpdatedAt = record.lockUpdatedAt := by
        unfold mergeRegisters
        simp only [lock, if_true]
        split <;> rfl
      have kept := congrArg ObjectRecord.lockUpdatedAt same
      have kept : (record.mergeRegisters held).lockUpdatedAt = held.lockUpdatedAt := kept
      rw [← kept, adopted] at lock
      exact irrefl _ lock
    · have adopted : (record.mergeRegisters held).contentUpdatedAt = record.contentUpdatedAt := by
        unfold mergeRegisters
        simp only [content, if_true]
      have kept := congrArg ObjectRecord.contentUpdatedAt same
      have kept : (record.mergeRegisters held).contentUpdatedAt = held.contentUpdatedAt := kept
      rw [← kept, adopted] at content
      exact irrefl _ content
  · refine iff_of_false (fun none => by cases none) ?_
    by_contra older
    rw [not_or] at older
    have unchanged : record.mergeRegisters held = held := by
      unfold mergeRegisters
      simp only [older.1, older.2]
      rfl
    rw [unchanged] at same
    exact same (decide_eq_true rfl)

lemma mergeRegisters_readRow (record held : ObjectRecord) :
    record.mergeRegisters (readRow held) = readRow (record.mergeRegisters held) := by
  unfold mergeRegisters readRow
  split_ifs <;> rfl

lemma resolve_readRow (record held : ObjectRecord) : record.resolveReplicated (readRow held) =
      if held.lastModified = record.lastModified ∧ record.etag = held.etag then
        (record.resolveReplicated held).map readRow
      else record.resolveReplicated held := by
  have same : (readRow (record.mergeRegisters held)).sameReplicatedContent (readRow held) =
      (record.mergeRegisters held).sameReplicatedContent held := by
    have dead : (record.mergeRegisters held).isTombstone = held.isTombstone :=
      (mergeRegisters_spec record held).2.2.1
    generalize record.mergeRegisters held = merged at dead
    rcases held with ⟨⟩
    subst dead
    simp only [sameReplicatedContent, readRow, replicated, ObjectRecord.mk.injEq]
  by_cases tie : held.lastModified = record.lastModified ∧ record.etag = held.etag
  · rw [if_pos tie]
    unfold resolveReplicated
    rw [mergeRegisters_readRow]
    simp only [readRow, tie.1, tie.2, lt_irrefl, if_false, ne_eq, not_true_eq_false] at same ⊢
    rw [same]
    split <;> rfl
  · rw [if_neg tie]
    have columns : (readRow held).lastModified = held.lastModified ∧
        (readRow held).etag = held.etag ∧ (readRow held).blobId = held.blobId := ⟨rfl, rfl, rfl⟩
    unfold resolveReplicated
    rw [columns.1, columns.2.1, columns.2.2]
    rcases lt_trichotomy held.lastModified record.lastModified with newer | same_time | older
    · rw [if_pos newer, if_pos newer]
    · have rival : record.etag ≠ held.etag := fun etag => tie ⟨same_time, etag⟩
      simp only [same_time, lt_irrefl, if_false, rival, ne_eq, not_false_eq_true, if_true]
    · rw [if_neg older.asymm, if_neg older.asymm, if_pos older, if_pos older]

lemma readRow_bound_eq_iff (row : ObjectRecord) :
    row.replicated = (bound (readRow row)).replicated ↔ Whole row ∧ row.isTombstone = false := by
  rcases row with ⟨⟩
  simp only [readRow, Whole, bound, replicated, ObjectRecord.mk.injEq, true_and]
  tauto

lemma recompute_append_eq_iff : recomputeIsLatest bucket key (rows ++ [setLatest false x]) =
        recomputeIsLatest bucket key (rows ++ [setLatest false y]) ↔
      x.replicated = y.replicated := by
  refine ⟨fun same => ?_, fun same => ?_⟩
  · have shown := replicated_eq_of_recompute_append same
    exact shown
  have flagless : setLatest false x = setLatest false y := same
  rw [flagless]

lemma applyRemoteObject_eq_iff :
    t.applyRemoteObject record = Postgres.applyRemoteObject t record ↔
      Faithful t (.applyRemoteObject record) := by
  rw [applyRemoteObject_eq]
  unfold Postgres.applyRemoteObject Postgres.writeRows Postgres.queryHeld Faithful remoteWrite Revives
  simp only [ObjectTable.mk.injEq, and_true]
  cases found : versionRow record.bucket record.key record.versionId t.rows with
  | none =>
    simp only [map_none, Postgres.toWrite, map_some, writeRemote,
      recompute_append_eq_iff, some.injEq, forall_eq', reduceCtorEq, false_and,
      exists_false, not_false_eq_true, and_true]
    exact ⟨whole_of_replicated_bound, fun whole => by rw [show bound record = record from whole]⟩
  | some held =>
    simp only [map_some, Postgres.toWrite, some.injEq, exists_eq_left']
    rw [resolve_readRow]
    by_cases tie : held.lastModified = record.lastModified ∧ record.etag = held.etag
    · have newer := resolve_tie_eq_none_iff tie.1 tie.2
      rw [if_pos tie]
      cases decision : record.resolveReplicated held with
      | none =>
        simp only [decision, true_iff] at newer
        simp only [map_none, writeRemote, reduceCtorEq, IsEmpty.forall_iff,
          implies_true, true_and, true_iff]
        rintro ⟨-, -, -, adopted⟩
        exact newer adopted
      | some row =>
        simp only [decision, reduceCtorEq, false_iff, not_not] at newer
        have dead : row.isTombstone = held.isTombstone := by
          rcases resolve_cases decision with ⟨-, later | ⟨-, rival, -⟩⟩ | ⟨rfl, -⟩
          · exact absurd later (by rw [tie.1]; exact lt_irrefl _)
          · exact absurd tie.2 rival
          · exact (mergeRegisters_spec record held).2.2.1
        simp only [map_some, writeRemote, recompute_append_eq_iff, some.injEq,
          forall_eq', readRow_bound_eq_iff, dead, tie.1, tie.2, newer, and_true]
        exact and_congr_right fun _ => Bool.not_eq_true _ ▸ Iff.rfl
    · rw [if_neg tie]
      have apart : ¬ (held.isTombstone = true ∧ held.lastModified = record.lastModified ∧
          record.etag = held.etag ∧ (optionLt held.lockUpdatedAt record.lockUpdatedAt = true ∨
            optionLt held.contentUpdatedAt record.contentUpdatedAt = true)) :=
        fun revived => tie ⟨revived.2.1, revived.2.2.1⟩
      cases decision : record.resolveReplicated held with
      | none => simp [writeRemote, apart]
      | some row =>
        simp only [map_some, writeRemote, recompute_append_eq_iff, some.injEq,
          forall_eq', apart, not_false_eq_true, and_true]
        exact ⟨whole_of_replicated_bound, fun whole => by rw [show bound row = row from whole]⟩

lemma applyRemoteVersionDelete_eq_iff (version : String) (now : Instant) :
    t.applyRemoteVersionDelete bucket key version now =
        Postgres.applyRemoteVersionDelete t bucket key version now ↔
      Faithful t (.applyRemoteVersionDelete bucket key version now) := by
  unfold Postgres.applyRemoteVersionDelete ObjectTable.applyRemoteVersionDelete Faithful
  simp only [ObjectTable.mk.injEq, and_true]
  refine ⟨fun same found => ?_, fun whole => ?_⟩
  · obtain ⟨held, found⟩ := isSome_iff_exists.mp found
    have target := find?_some found
    exact wholeTime_of_tombstone
      (replicated_eq_of_recompute_updateWhere same (mem_of_find?_eq_some found) target)
  · cases found : liveVersion bucket key version t.rows with
    | some held =>
      have whole : wholeMicros now = now := whole (found ▸ rfl)
      rw [whole]
    | none =>
      -- no row is updated, whatever the time
      have untouched : ∀ time, updateWhere (fun r => atKey bucket key r &&
          decide (r.versionId = versionArg version) && !r.isTombstone) (tombstone time) t.rows =
          t.rows := by
        intro time
        refine (map_congr_left fun r hr => ?_).trans (map_id _)
        exact if_neg (find?_eq_none.mp found r hr)
      rw [untouched, untouched]

lemma changeLock_eq_iff
    {C : Prop} (shows : ∀ r, (f r).replicated = (g r).replicated → C) (same : C → f = g) :
    t.changeLock bucket key version f = t.changeLock bucket key version g ↔
      (t.rows.any (lockTarget bucket key version) = true → C) := by
  unfold changeLock
  simp only [ObjectTable.mk.injEq, and_true]
  refine ⟨fun eq found => ?_, fun condition => ?_⟩
  · obtain ⟨r, hr, target⟩ := any_eq_true.mp found
    exact shows r (replicated_eq_of_updateWhere (congrArg (List.map replicated) eq) hr target)
  · by_cases found : t.rows.any (lockTarget bucket key version) = true
    · rw [same (condition found)]
    · refine map_congr_left fun r hr => ?_
      have missed : ¬ lockTarget bucket key version r = true :=
        fun target => found (any_eq_true.mpr ⟨r, hr, target⟩)
      rw [if_neg missed, if_neg missed]

lemma Kept.overwritten (h : Kept t.rows) :
    ∀ r ∈ t.overwritten bucket key, r.isTombstone = false := by
  unfold ObjectTable.overwritten
  cases t.versioning bucket with
  | unversioned => exact h.fetchLatest
  | enabled => exact fun r hr => by cases hr
  | suspended => exact live_of_find

lemma deletedLatest_eq (h : Kept t.rows) (owner uuid : String) (now : Instant) :
    Postgres.deletedLatest t bucket key owner uuid now =
      (ObjectMutation.deletedLatest t bucket key owner uuid now).map selected := by
  unfold Postgres.deletedLatest ObjectMutation.deletedLatest
  cases t.versioning bucket with
  | unversioned => exact map_selectedRow h.fetchLatest
  | enabled => rfl
  | suspended => exact map_selectedRow live_of_find

/-- From one table both stores answer alike and leave the same table exactly when
the operation is faithful. -/
lemma perform_eq_iff (h : Kept t.rows) (op : StoreOp) :
    t.perform op = Postgres.perform t op ↔ Faithful t op := by
  cases op with
  | put record pre uuid =>
    rw [← installObject_eq_iff h]
    simp only [ObjectTable.perform, Postgres.perform, map_selectedRow h.overwritten]
    cases t.installObject record pre uuid <;>
      cases Postgres.installObject t record pre uuid <;> simp
  | deleteLatest bucket key pre owner uuid now =>
    rw [← deleteLatest_eq_iff h]
    simp only [ObjectTable.perform, Postgres.perform, deletedLatest_eq h]
    cases t.deleteLatest bucket key pre owner uuid now <;>
      cases Postgres.deleteLatest t bucket key pre owner uuid now <;> simp
  | deleteVersion bucket key version pre now =>
    rw [← deleteVersion_eq_iff]
    simp only [ObjectTable.perform, Postgres.perform, map_selectedRow live_liveVersion]
    cases t.deleteVersion bucket key version pre now <;>
      cases Postgres.deleteVersion t bucket key version pre now <;> simp
  | applyRemoteObject record =>
    rw [← applyRemoteObject_eq_iff]
    exact Prod.mk_left_inj
  | applyRemoteVersionDelete bucket key version now =>
    rw [← applyRemoteVersionDelete_eq_iff]
    exact Prod.mk_left_inj
  | setObjectRetention bucket key version mode date now =>
    have shows : ∀ (date date' : Option Instant) (r : ObjectRecord),
        (retain mode date now r).replicated = (retain mode date' (wholeMicros now) r).replicated →
        WholeTime now ∧ date = date' := by
      intro date date' r same
      have stamps := congrArg ObjectRecord.lockUpdatedAt same
      exact ⟨(some.inj stamps).symm, congrArg ObjectRecord.retainUntilDate same⟩
    unfold ObjectTable.perform Postgres.perform Faithful ObjectTable.setObjectRetention
      Postgres.setObjectRetention
    cases date with
    | none =>
      simp only [bind_none, Prod.mk.injEq, and_true, reduceCtorEq, ne_eq,
        not_false_eq_true, implies_true, true_and, IsEmpty.forall_iff]
      exact changeLock_eq_iff (fun r same => (shows _ _ r same).1)
        fun whole => by rw [show wholeMicros now = now from whole]
    | some date =>
      cases date with
      | malformed text => simp
      | rfc3339 date =>
        simp only [bind_some, RetainDate.instant, Prod.mk.injEq, and_true,
          some.injEq, reduceCtorEq, ne_eq, not_false_eq_true, implies_true, true_and,
          RetainDate.rfc3339.injEq, forall_eq']
        refine changeLock_eq_iff (fun r same => ?_) fun whole => ?_
        · obtain ⟨time, dates⟩ := shows _ _ r same
          exact ⟨time, (some.inj dates).symm⟩
        · rw [show wholeMicros now = now from whole.1, show wholeMicros date = date from whole.2]
  | setObjectLegalHold bucket key version status now =>
    refine Prod.mk_left_inj.trans (changeLock_eq_iff (fun r same => ?_) fun whole => ?_)
    · have stamps := congrArg ObjectRecord.lockUpdatedAt same
      exact (some.inj stamps).symm
    · rw [show wholeMicros now = now from whole]
  | setVersioning bucket state => exact iff_of_true rfl trivial

structure Both where
  sqlite : ObjectTable
  postgres : ObjectTable
  answers : List (Answer × Answer)

namespace Both

variable (versioning : String → VersioningState)

def empty (clusterMode : Bool) : Both :=
  ⟨⟨[], versioning, clusterMode⟩, ⟨[], versioning, clusterMode⟩, []⟩

def step (b : Both) (op : StoreOp) : Both :=
  let sqlite := b.sqlite.perform op
  let postgres := Postgres.perform b.postgres op
  ⟨sqlite.1, postgres.1, b.answers ++ [(sqlite.2, postgres.2)]⟩

def Agree (b : Both) : Prop := b.sqlite = b.postgres ∧ ∀ a ∈ b.answers, a.1 = a.2

lemma agree_step_iff {b : Both} (h : b.Agree) (kept : Kept b.postgres.rows) (op : StoreOp) :
    (b.step op).Agree ↔ Faithful b.sqlite op := by
  obtain ⟨sqlite, postgres, answers⟩ := b
  obtain ⟨same, told⟩ := h
  dsimp only at same
  subst same
  rw [← perform_eq_iff kept]
  constructor
  · rintro ⟨tables, all⟩
    exact Prod.ext tables (all _ (mem_append_right answers (mem_singleton.mpr rfl)))
  · intro eq
    refine ⟨congrArg Prod.fst eq, fun a ha => ?_⟩
    rcases mem_append.mp ha with old | new
    · exact told a old
    · rw [mem_singleton.mp new]
      exact congrArg Prod.snd eq

lemma kept_empty : Kept [] := ⟨by simp, by simp⟩

lemma agree_run_iff (clusterMode : Bool) (ops : List StoreOp) :
    Run.Always step Agree (empty versioning clusterMode) ops ↔
      Run.Each step (fun b op => Faithful b.sqlite op) (empty versioning clusterMode) ops := by
  have keep : ∀ (b : Both) (op : StoreOp), Kept b.postgres.rows → Kept (b.step op).postgres.rows :=
    fun b op h => kept_perform h op
  rw [← Run.always_and_iff keep kept_empty]
  refine Run.always_iff_each (fun b op h => ?_) ⟨⟨rfl, fun _ ha => by cases ha⟩, kept_empty⟩ ops
  exact (and_iff_left (keep b op h.2)).trans (agree_step_iff h.1 h.2 op)

end Both

inductive LockChange where
  | retention (mode : Option String) (date : Option RetainDate)
  | legalHold (status : Option String)

def LockChange.op (bucket key : String) (version : Option String) (now : Instant) :
    LockChange → StoreOp
  | .retention mode date => .setObjectRetention bucket key version mode date now
  | .legalHold status => .setObjectLegalHold bucket key version status now

def lockRow (bucket key : String) : Option String → List ObjectRecord → Option ObjectRecord
  | some version, rows => liveVersion bucket key version rows
  | none, rows => fetchLatestObject bucket key rows

def lockOf (r : ObjectRecord) : LockState × Option Instant :=
  (⟨r.retentionMode, r.retainUntilDate, r.legalHoldStatus⟩, r.lockUpdatedAt)

/-- The lock columns of the version are those of the record received. -/
def Adopted (t : ObjectTable) (record : ObjectRecord) : Prop :=
  (versionRow record.bucket record.key record.versionId t.rows).map lockOf = some (lockOf record)

def LockChange.on (now : Instant) : LockChange → ObjectRecord → ObjectRecord
  | .retention mode date => retain mode (date.bind RetainDate.instant) now
  | .legalHold status => hold status now

lemma LockChange.perform_rows (change : LockChange) (bucket key : String)
    (version : Option String) (now : Instant) :
    (t.perform (change.op bucket key version now)).1.rows =
      updateWhere (lockTarget bucket key version) (change.on now) t.rows := by
  cases change <;> rfl

lemma LockChange.on_columns (change : LockChange) (now : Instant) (r : ObjectRecord) :
    (change.on now r).bucket = r.bucket ∧ (change.on now r).key = r.key ∧
    (change.on now r).versionId = r.versionId ∧ (change.on now r).lastModified = r.lastModified ∧
    (change.on now r).etag = r.etag ∧ (change.on now r).isTombstone = r.isTombstone ∧
    (change.on now r).lockUpdatedAt = some now := by
  cases change <;> exact ⟨rfl, rfl, rfl, rfl, rfl, rfl, rfl⟩

variable {record held : ObjectRecord}

lemma lockOf_mergeRegisters
    (newer : optionLt held.lockUpdatedAt record.lockUpdatedAt = true) :
    lockOf (record.mergeRegisters held) = lockOf record := by
  unfold mergeRegisters lockOf
  simp only [newer, if_true]
  split <;> rfl

lemma whole_mergeRegisters (hr : Whole record) (hh : Whole held) :
    Whole (record.mergeRegisters held) := by
  rw [whole_iff] at hr hh ⊢
  unfold mergeRegisters
  split_ifs
  · exact ⟨hh.1, hr.2⟩
  · exact ⟨hh.1, hr.2.1, hr.2.2.1, hh.2.2.2⟩
  · exact ⟨hh.1, hh.2.1, hh.2.2.1, hr.2.2.2⟩
  · exact hh

lemma resolve_of_newer_lock
    (tie : held.lastModified = record.lastModified) (etag : record.etag = held.etag)
    (newer : optionLt held.lockUpdatedAt record.lockUpdatedAt = true) :
    record.resolveReplicated held = some (record.mergeRegisters held) := by
  cases decision : record.resolveReplicated held with
  | none => exact absurd (.inl newer) ((resolve_tie_eq_none_iff tie etag).mp decision)
  | some row =>
    rcases resolve_cases decision with ⟨-, later | ⟨-, rival, -⟩⟩ | ⟨rfl, -⟩
    · exact absurd later (by rw [tie]; exact lt_irrefl _)
    · exact absurd etag rival
    · rfl

section
variable (found : versionRow record.bucket record.key record.versionId t.rows = some held)
  (tie : held.lastModified = record.lastModified) (etag : record.etag = held.etag)
  (newer : optionLt held.lockUpdatedAt record.lockUpdatedAt = true)
include found tie etag newer

lemma adopted_of_newer_lock :
    Adopted (t.applyRemoteObject record) record := by
  have after : (versionRow record.bucket record.key record.versionId
      (t.applyRemoteObject record).rows).map replicated = _ := versionRow_applyRemoteObject t record
  rw [if_pos (named_self record), found, receive, resolve_of_newer_lock tie etag newer,
    getD_some, map_some] at after
  obtain ⟨row, here, same⟩ := map_eq_some_iff.mp after
  have lock : lockOf row.replicated = lockOf (record.mergeRegisters held).replicated :=
    congrArg lockOf same
  have lock : lockOf row = lockOf (record.mergeRegisters held) := lock
  unfold Adopted
  rw [here, map_some, lock, lockOf_mergeRegisters newer]

lemma faithful_of_newer_lock
    (live : held.isTombstone = false) (whole : Whole record) (whole_held : Whole held) :
    Faithful t (.applyRemoteObject record) := by
  refine ⟨fun row written => ?_, ?_⟩
  · unfold remoteWrite at written
    rw [found] at written
    dsimp only at written
    rw [resolve_of_newer_lock tie etag newer] at written
    obtain rfl := some.inj written
    exact whole_mergeRegisters whole whole_held
  · rintro ⟨x, here, dead, -⟩
    rw [found] at here
    obtain rfl := some.inj here
    rw [live] at dead
    cases dead

end

lemma mem_lockRow (h : lockRow bucket key version rows = some r) : r ∈ rows := by
  cases version <;> exact mem_of_find?_eq_some h

lemma lockRow_changed {change : LockChange} {row held : ObjectRecord}
    (sent : lockRow bucket key version
      (t.perform (change.op bucket key version now)).1.rows = some row)
    (found : versionRow row.bucket row.key row.versionId t.rows = some held)
    (target : lockTarget bucket key version held = true)
    (one : Single row.bucket row.key row.versionId t.rows) : row = change.on now held := by
  have mem : row ∈ updateWhere (lockTarget bucket key version) (change.on now) t.rows := by
    rw [← change.perform_rows]
    exact mem_lockRow sent
  obtain ⟨x, hx, eq⟩ := mem_map.mp mem
  have own : named row.bucket row.key row.versionId x = true := by
    have columns := change.on_columns now x
    rw [named_iff]
    split at eq
    · rw [← eq]
      exact ⟨columns.1.symm, columns.2.1.symm, columns.2.2.1.symm⟩
    · rw [← eq]
      exact ⟨rfl, rfl, rfl⟩
  have same := one.eq_versionRow hx own
  rw [found] at same
  obtain rfl := some.inj same
  rw [if_pos target] at eq
  exact eq.symm

/-- What each store sends of a lock change is adopted by the other one. -/
def CrossAdopted (b : Both) (change : LockChange) (bucket key : String) (version : Option String)
    (now : Instant) : Prop :=
  (∃ sent, (lockRow bucket key version
      (Postgres.perform b.postgres (change.op bucket key version now)).1.rows).map selectedRow =
        some sent ∧ Adopted (b.sqlite.applyRemoteObject sent) sent) ∧
  ∃ sent, (lockRow bucket key version
      (b.sqlite.perform (change.op bucket key version now)).1.rows).map selected =
        some sent ∧ Adopted (Postgres.applyRemoteObject b.postgres sent) sent

lemma Kept.lockRow (h : Kept rows) :
    ∀ r ∈ lockRow bucket key version rows, r.isTombstone = false := by
  cases version with
  | some version => exact live_liveVersion
  | none => exact h.fetchLatest

lemma crossAdopted {b : Both} (agree : b.Agree) (kept : Kept b.postgres.rows)
    {change : LockChange} {row held : ObjectRecord}
    (faithful : Faithful b.sqlite (change.op bucket key version now))
    (sent : lockRow bucket key version
      (b.sqlite.perform (change.op bucket key version now)).1.rows = some row)
    (found : versionRow row.bucket row.key row.versionId b.sqlite.rows = some held)
    (target : lockTarget bucket key version held = true)
    (one : Single row.bucket row.key row.versionId b.sqlite.rows)
    (newer : optionLt held.lockUpdatedAt (some now) = true) :
    CrossAdopted b change bucket key version now := by
  obtain ⟨sqlite, postgres, answers⟩ := b
  obtain ⟨same, -⟩ := agree
  dsimp only at same kept faithful sent found target one
  subst same
  have alike := (perform_eq_iff kept _).mpr faithful
  have kept_after := kept_perform kept (change.op bucket key version now)
  rw [← alike] at kept_after
  have row_live : row.isTombstone = false := kept_after.lockRow row sent
  have row_whole : Whole row := kept_after.whole row (mem_lockRow sent)
  have eq := lockRow_changed sent found target one
  obtain ⟨-, -, -, time, etag, dead, stamp⟩ := change.on_columns now held
  rw [← eq] at time etag dead stamp
  -- the record sent is the row without its part layout
  have copy : versionRow (selected row).bucket (selected row).key (selected row).versionId
      sqlite.rows = some held := found
  have newer : optionLt held.lockUpdatedAt (selected row).lockUpdatedAt = true := by
    rw [show (selected row).lockUpdatedAt = row.lockUpdatedAt from rfl, stamp]
    exact newer
  have whole : Whole (selected row) := (whole_iff _).mpr ((whole_iff row).mp row_whole)
  have adopted := adopted_of_newer_lock copy time.symm etag newer
  refine ⟨⟨selected row, ?_, adopted⟩, selected row, by rw [sent]; rfl, ?_⟩
  · rw [← alike, sent, map_selectedRow (fun r hr => (some.inj hr) ▸ row_live)]
    rfl
  · rw [← (applyRemoteObject_eq_iff _).mpr (faithful_of_newer_lock copy time.symm etag newer
      (dead ▸ row_live) whole (kept.whole held (mem_of_find?_eq_some found)))]
    exact adopted

/-- From empty databases the two stores agree throughout a run exactly when each
of its operations is faithful, and a lock change then crosses between them. -/
theorem backends_agree (versioning : String → VersioningState) (clusterMode : Bool)
    (ops : List StoreOp) :
    (Run.Always Both.step Both.Agree (.empty versioning clusterMode) ops ↔
      Run.Each Both.step (fun b op => Faithful b.sqlite op) (.empty versioning clusterMode) ops) ∧
    (Run.Each Both.step (fun b op => Faithful b.sqlite op) (.empty versioning clusterMode) ops →
      ∀ (b : Both) (change : LockChange) (bucket key : String) (version : Option String)
        (now : Instant) (row held : ObjectRecord),
        b = ops.foldl Both.step (.empty versioning clusterMode) →
        Faithful b.sqlite (change.op bucket key version now) →
        lockRow bucket key version
          (b.sqlite.perform (change.op bucket key version now)).1.rows = some row →
        versionRow row.bucket row.key row.versionId b.sqlite.rows = some held →
        lockTarget bucket key version held = true →
        Single row.bucket row.key row.versionId b.sqlite.rows →
        optionLt held.lockUpdatedAt (some now) = true →
        CrossAdopted b change bucket key version now) := by
  refine ⟨Both.agree_run_iff versioning clusterMode ops, ?_⟩
  intro each b change bucket key version now row held reached
  have last : b.Agree ∧ Kept b.postgres.rows := by
    rw [reached]
    refine Run.foldl_of_each (P := fun b => b.Agree ∧ Kept b.postgres.rows) (fun b op h faithful => ?_)
      ⟨⟨rfl, fun _ ha => by cases ha⟩, Both.kept_empty⟩ each
    exact ⟨(Both.agree_step_iff h.1 h.2 op).mpr faithful, kept_perform h.2 op⟩
  exact crossAdopted last.1 last.2

def microRow : ObjectRecord := { written with lastModified := 1000000 }

/-- A put of whole microseconds, then a legal hold made on either store. -/
theorem backends_agree_microRow :
    Run.Always Both.step Both.Agree (.empty (fun _ => .unversioned) true)
      [.put microRow (fun _ => true) "v"] ∧
    CrossAdopted ((Both.empty (fun _ => .unversioned) true).step
      (.put microRow (fun _ => true) "v")) (.legalHold (some "ON")) "b" "k" none 5000000 := by
  have agree := backends_agree (fun _ => .unversioned) true [.put microRow (fun _ => true) "v"]
  have each : Run.Each Both.step (fun b op => Faithful b.sqlite op)
      (.empty (fun _ => .unversioned) true) [.put microRow (fun _ => true) "v"] :=
    ⟨fun _ => ⟨by decide, rfl⟩, trivial⟩
  refine ⟨agree.1.mpr each, ?_⟩
  have whole : WholeTime 5000000 := by decide
  refine agree.2 each _ _ "b" "k" none 5000000
    { microRow with legalHoldStatus := some "ON", lockUpdatedAt := some 5000000 } microRow rfl
    (fun _ => whole) (by decide +kernel) (by decide +kernel) (by decide +kernel) ?_ (by decide)
  unfold Single
  decide +kernel

def nanoRow : ObjectRecord := { written with lastModified := 1000500 }

def deadRow : ObjectRecord := { microRow with isTombstone := true, blobId := "", size := 0 }

def heldDeadRow : ObjectRecord :=
  { deadRow with legalHoldStatus := some "ON", lockUpdatedAt := some 2000000 }

/-- A row of half a microsecond, and a lock state merged into a tombstone. -/
theorem nanoseconds_and_tombstones_part :
    (let b := (Both.empty (fun _ => .unversioned) true).step (.applyRemoteObject nanoRow)
     ¬ b.Agree ∧
     ∃ sent, (lockRow "b" "k" none (Postgres.perform b.postgres
        (.setObjectLegalHold "b" "k" none (some "ON") 5000000)).1.rows).map selectedRow = some sent ∧
      sent.legalHoldStatus = some "ON" ∧ ¬ Adopted (b.sqlite.applyRemoteObject sent) sent) ∧
    (let b := [StoreOp.applyRemoteObject deadRow, .applyRemoteObject heldDeadRow].foldl Both.step
       (Both.empty (fun _ => .unversioned) true)
     fetchLatestObject "b" "k" b.sqlite.rows = none ∧
     (fetchLatestObject "b" "k" b.postgres.rows).isSome = true) := by
  refine ⟨⟨fun agree => ?_, ?_⟩, by decide +kernel, by decide +kernel⟩
  · have rows := congrArg ObjectTable.rows agree.1
    revert rows
    decide +kernel
  · refine ⟨{ nanoRow with
      lastModified := 1000000, legalHoldStatus := some "ON", lockUpdatedAt := some 5000000 }, ?_, rfl, ?_⟩
    · decide +kernel
    · unfold Adopted
      decide +kernel

end Arca.Backends
