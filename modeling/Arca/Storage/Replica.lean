import Arca.Storage.CurrentVersion

/-!
# One version of one key

The row is followed up to `is_latest`, which every node derives for itself.
-/
namespace Arca.ObjectTable
open ObjectRecord List Option

def versionRow (bucket key : String) (version : Option String) (rows : List ObjectRecord) :
    Option ObjectRecord := rows.find? (named bucket key version)

/-- What `apply_remote_object` decides to write. -/
def remoteWrite (rows : List ObjectRecord) (record : ObjectRecord) : Option ObjectRecord :=
  match versionRow record.bucket record.key record.versionId rows with
  | none => some record
  | some existing => record.resolveReplicated existing

def writeRemote (rows : List ObjectRecord) (record : ObjectRecord) :
    Option ObjectRecord → List ObjectRecord
  | some row => deleteWhere (named record.bucket record.key record.versionId) rows ++
      [setLatest false row]
  | none => rows

lemma applyRemoteObject_eq (t : ObjectTable) (record : ObjectRecord) :
    t.applyRemoteObject record = { t with
      rows := recomputeIsLatest record.bucket record.key
        (writeRemote t.rows record (remoteWrite t.rows record)) } := by
  unfold applyRemoteObject remoteWrite versionRow named
  cases found : t.rows.find? fun r =>
      atKey record.bucket record.key r && r.versionId = record.versionId with
  | none => simp only [found, writeRemote]; rfl
  | some existing =>
    simp only [found]
    cases decision : record.resolveReplicated existing with
    | none => simp only [writeRemote]
    | some row => simp only [writeRemote]; rfl

variable {bucket key : String} {version : Option String} {rows rows' : List ObjectRecord}
  {p : ObjectRecord → Bool}

lemma map_replicated_updateFirst (flag : Bool) :
    (CurrentRow.updateFirst p (setLatest flag) rows).map replicated = rows.map replicated := by
  induction rows with
  | nil => rfl
  | cons r rows ih =>
    unfold CurrentRow.updateFirst
    split
    · rfl
    · rw [map_cons, map_cons, ih]

lemma map_replicated_clearLatest :
    (clearLatest bucket key rows).map replicated = rows.map replicated := by
  unfold clearLatest updateWhere
  rw [List.map_map]
  refine map_congr_left fun r _ => ?_
  rw [Function.comp_apply]
  split <;> rfl

lemma map_replicated_recompute :
    (recomputeIsLatest bucket key rows).map replicated = rows.map replicated :=
  (map_replicated_updateFirst true).trans map_replicated_clearLatest

variable {t : ObjectTable} {r : ObjectRecord} {f : ObjectRecord → ObjectRecord}

lemma map_replicated_installObject {t' : ObjectTable} {record : ObjectRecord}
    {pre : Option ObjectRecord → Bool} {uuid : String}
    (h : t.installObject record pre uuid = some t') :
    t'.rows.map replicated = (deleteWhere (t.replaced record.bucket record.key) t.rows).map replicated ++
      [(t.storedRow record uuid).replicated] := by
  obtain ⟨-, rfl⟩ := installObject_eq_some_iff.mp h
  rw [map_replicated_recompute, map_append, cleared, map_replicated_clearLatest, map_singleton]

lemma map_replicated_versionRow (rows : List ObjectRecord) :
    (versionRow bucket key version rows).map replicated =
      (rows.map replicated).find? (named bucket key version) := by
  rw [versionRow, find?_map]
  rfl

lemma versionRow_congr (h : rows.map replicated = rows'.map replicated) :
    (versionRow bucket key version rows).map replicated =
      (versionRow bucket key version rows').map replicated := by
  rw [map_replicated_versionRow, map_replicated_versionRow, h]

lemma versionRow_eq_none (same : rows'.map replicated = rows.map replicated)
    (h : versionRow bucket key version rows = none) : versionRow bucket key version rows' = none := by
  have rows_agree : (versionRow bucket key version rows').map replicated =
      (versionRow bucket key version rows).map replicated := versionRow_congr same
  rwa [h, map_none, map_eq_none_iff] at rows_agree

lemma receive_congr {o o' : Option ObjectRecord} (h : o.map replicated = o'.map replicated)
    (r : ObjectRecord) : (receive o r).map replicated = (receive o' r).map replicated := by
  rw [map_replicated_eq_iff] at h ⊢
  rw [view_receive, view_receive, h]

lemma receive_congr_right {r' : ObjectRecord} (h : r.replicated = r'.replicated)
    (o : Option ObjectRecord) : (receive o r).map replicated = (receive o r').map replicated := by
  rw [map_replicated_eq_iff, view_receive, view_receive, (view_eq_iff r r').mpr h]

lemma receive_receive (o : Option ObjectRecord) (r : ObjectRecord) :
    (receive (receive o r) r).map replicated = (receive o r).map replicated := by
  rw [map_replicated_eq_iff, view_receive, view_receive, RegisterRow.absorb_absorb]

lemma versionRow_deleteWhere_of_mem (stays : ∀ r ∈ rows, named bucket key version r = true → p r = false) :
    versionRow bucket key version (deleteWhere p rows) = versionRow bucket key version rows := by
  unfold versionRow deleteWhere
  rw [← List.head?_filter, ← List.head?_filter, List.filter_filter]
  congr 1
  refine filter_congr fun r mem => ?_
  cases own : named bucket key version r with
  | false => simp
  | true => simp [stays r mem own]

lemma versionRow_append_of_none (rows : List ObjectRecord)
    (absent : versionRow bucket key version rows = none) :
    versionRow bucket key version (rows ++ [r]) =
      if named bucket key version r then some r else none := by
  unfold versionRow at absent ⊢
  rw [find?_append, absent, none_or, find?_singleton]

lemma versionRow_append_own (rows : List ObjectRecord)
    (absent : versionRow bucket key version rows = none) (own : named bucket key version r = true) :
    versionRow bucket key version (rows ++ [r]) = some r := by
  rw [versionRow_append_of_none rows absent, if_pos own]

lemma versionRow_append_other (other : named bucket key version r = false)
    (rows : List ObjectRecord) :
    versionRow bucket key version (rows ++ [r]) = versionRow bucket key version rows := by
  unfold versionRow
  rw [find?_append, find?_singleton, other]
  simp

lemma versionRow_deleteWhere_self (h : ∀ r, named bucket key version r = true → p r = true) :
    versionRow bucket key version (deleteWhere p rows) = none := by
  unfold versionRow deleteWhere
  rw [find?_eq_none]
  intro r hr named
  have := (mem_filter.mp hr).2
  simp [h r named] at this

lemma versionRow_updateWhere
    (hf : ∀ r, named bucket key version (f r) = named bucket key version r) :
    versionRow bucket key version (updateWhere p f rows) =
      (versionRow bucket key version rows).map fun r => if p r then f r else r := by
  unfold versionRow updateWhere
  rw [find?_map]
  congr 2
  funext r
  rw [Function.comp_apply]
  split
  · exact hf r
  · rfl

lemma named_remoteWrite {record row : ObjectRecord} (h : remoteWrite rows record = some row) :
    named record.bucket record.key record.versionId row = true := by
  unfold remoteWrite at h
  cases found : versionRow record.bucket record.key record.versionId rows with
  | none =>
    rw [found] at h
    exact some.inj h ▸ named_self record
  | some existing =>
    rw [found] at h
    exact named_resolve h (named_self record) (find?_some found)

lemma versionRow_applyRemoteObject (t : ObjectTable) (record : ObjectRecord) :
    (versionRow bucket key version (t.applyRemoteObject record).rows).map replicated =
      if named bucket key version record then
        (receive (versionRow bucket key version t.rows) record).map replicated
      else (versionRow bucket key version t.rows).map replicated := by
  rw [applyRemoteObject_eq, versionRow_congr map_replicated_recompute]
  split
  · next own =>
      obtain ⟨rfl, rfl, rfl⟩ := named_iff.mp own
      cases decision : remoteWrite t.rows record with
      | some row =>
        have own := named_remoteWrite decision
        have held : named record.bucket record.key record.versionId (setLatest false row) = true :=
          own
        rw [writeRemote, versionRow_append_own _ (versionRow_deleteWhere_self fun _ h => h) held]
        unfold remoteWrite at decision
        cases found : versionRow record.bucket record.key record.versionId t.rows with
        | none =>
          rw [found] at decision
          cases decision
          rfl
        | some existing =>
          rw [found] at decision
          simp only [receive, decision, getD_some]
          rfl
      | none =>
        rw [writeRemote]
        unfold remoteWrite at decision
        cases found : versionRow record.bucket record.key record.versionId t.rows with
        | none => rw [found] at decision; cases decision
        | some existing =>
          rw [found] at decision
          simp only [receive, decision, getD_none]
  · next other =>
      have apart : ∀ r, named record.bucket record.key record.versionId r = true →
          named bucket key version r = false := by
        intro r hr
        obtain ⟨hb, hk, hv⟩ := named_iff.mp hr
        rw [Bool.eq_false_iff]
        intro own
        obtain ⟨rfl, rfl, rfl⟩ := named_iff.mp own
        exact other (named_iff.mpr ⟨hb.symm, hk.symm, hv.symm⟩)
      cases decision : remoteWrite t.rows record with
      | some row =>
        have elsewhere : named bucket key version (setLatest false row) = false :=
          apart row (named_remoteWrite decision)
        rw [writeRemote, versionRow_append_other elsewhere, versionRow_deleteWhere_of_mem]
        exact fun r _ own => Bool.eq_false_iff.mpr fun here => by rw [apart r here] at own; cases own
      | none => rfl

/-- A replicated delete turns the row it names into a tombstone of the receiver's
clock, unless it is one already. -/
lemma versionRow_applyRemoteVersionDelete (t : ObjectTable) (b k argument : String)
    (now : Instant) :
    (versionRow bucket key version (t.applyRemoteVersionDelete b k argument now).rows).map replicated =
      (versionRow bucket key version t.rows).map fun r =>
        if named b k (versionArg argument) r && !r.isTombstone then (tombstone now r).replicated
        else r.replicated := by
  unfold applyRemoteVersionDelete
  have keeps : ∀ r, named bucket key version (tombstone now r) = named bucket key version r :=
    fun _ => rfl
  rw [versionRow_congr map_replicated_recompute, versionRow_updateWhere keeps, Option.map_map]
  congr 1
  funext r
  rw [Function.comp_apply, apply_ite replicated]
  rfl

lemma not_lt_empty (s : String) : ¬ s < "" := by
  exact not_lt_nil _

/-- The row written is the received one, or the held one with registers of the
received one. -/
lemma resolve_cases {held row : ObjectRecord} (h : r.resolveReplicated held = some row) :
    (row = r ∧ (held.lastModified < r.lastModified ∨
      held.lastModified = r.lastModified ∧ r.etag ≠ held.etag ∧ held.blobId < r.blobId)) ∨
    (row = r.mergeRegisters held ∧ held.lastModified = r.lastModified ∧ r.etag = held.etag ∧
      row.replicated ≠ held.replicated) := by
  unfold resolveReplicated at h
  split_ifs at h with newer older rival rank
  · exact .inl ⟨(some.inj h).symm, .inl newer⟩
  · have tie := le_antisymm (not_lt.mp older) (not_lt.mp newer)
    exact .inl ⟨(some.inj h).symm, .inr ⟨tie, rival, rank⟩⟩
  · have tie := le_antisymm (not_lt.mp older) (not_lt.mp newer)
    dsimp only at h
    split_ifs at h with same
    obtain rfl := some.inj h
    exact .inr ⟨rfl, tie, not_not.mp rival, fun eq => same (decide_eq_true eq)⟩

lemma mergeRegisters_spec (r held : ObjectRecord) :
    (r.mergeRegisters held).lastModified = held.lastModified ∧
    (r.mergeRegisters held).etag = held.etag ∧
    (r.mergeRegisters held).isTombstone = held.isTombstone ∧
    ((r.mergeRegisters held).blobId = held.blobId ∨ (r.mergeRegisters held).blobId = r.blobId) := by
  unfold mergeRegisters
  split_ifs <;> simp

lemma resolve_same {held : ObjectRecord} (same : r.replicated = held.replicated) :
    r.resolveReplicated held = none := by
  cases decision : r.resolveReplicated held with
  | none => rfl
  | some row =>
    have time : held.replicated.lastModified = r.replicated.lastModified := by rw [same]
    have lock : held.replicated.lockUpdatedAt = r.replicated.lockUpdatedAt := by rw [same]
    have content : held.replicated.contentUpdatedAt = r.replicated.contentUpdatedAt := by rw [same]
    have tag : held.replicated.etag = r.replicated.etag := by rw [same]
    dsimp only [replicated] at time lock content tag
    rcases resolve_cases decision with ⟨_, newer | ⟨_, rival, _⟩⟩ | ⟨rfl, _, _, differs⟩
    · exact absurd time newer.ne
    · exact absurd tag.symm rival
    · refine absurd ?_ differs
      have refl : ∀ o : Option Instant, ¬ optionLt o o = true := by
        intro o h
        exact lt_irrefl _ ((optionLt_iff o o).mp h)
      unfold mergeRegisters
      rw [lock, content, if_neg (refl _), if_neg (refl _)]

lemma mem_of_replicated_eq (same : rows'.map replicated = rows.map replicated)
    (h : r ∈ rows') : ∃ x ∈ rows, r.replicated = x.replicated := by
  have mem : r.replicated ∈ rows.map replicated := same ▸ mem_map_of_mem h
  obtain ⟨x, hx, eq⟩ := mem_map.mp mem
  exact ⟨x, hx, eq.symm⟩

lemma mem_recompute (h : r ∈ recomputeIsLatest bucket key rows) :
    ∃ x ∈ rows, r.replicated = x.replicated := mem_of_replicated_eq map_replicated_recompute h

lemma mem_clearLatest (h : r ∈ clearLatest bucket key rows) :
    ∃ x ∈ rows, r.replicated = x.replicated := mem_of_replicated_eq map_replicated_clearLatest h

lemma mem_deleteWhere (h : r ∈ deleteWhere p rows) : r ∈ rows :=
  (mem_filter.mp h).1

lemma mem_updateWhere
    (h : r ∈ updateWhere p f rows) : r ∈ rows ∨ ∃ x ∈ rows, p x = true ∧ r = f x := by
  obtain ⟨x, hx, rfl⟩ := mem_map.mp h
  split
  · next hp => exact .inr ⟨x, hx, hp, rfl⟩
  · exact .inl hx

lemma unflagged_tombstones {now : Instant}
    (mem : r ∈ recomputeIsLatest bucket key (updateWhere (atKey bucket key) (tombstone now) rows))
    (at_key : atKey bucket key r = true) : r.isLatest = false := by
  by_contra flagged
  have latest : reading.flag r = true := (Bool.not_eq_false _).mp flagged
  have live := ((current_recompute _).greatest r (mem_rowsOf.mpr ⟨mem, at_key⟩) latest).1
  obtain ⟨x, hx, same⟩ := mem_recompute mem
  obtain ⟨y, -, rfl⟩ := mem_map.mp hx
  split at same
  · have gone : r.isTombstone = true := congrArg ObjectRecord.isTombstone same
    simp [reading, gone] at live
  · next elsewhere =>
      have place : atKey bucket key r.replicated = atKey bucket key y.replicated := by rw [same]
      exact elsewhere (place.symm.trans at_key)

lemma mem_applyRemoteObject {record : ObjectRecord} (h : r ∈ (t.applyRemoteObject record).rows) :
    (∃ x ∈ t.rows, r.replicated = x.replicated) ∨
      ∃ row, remoteWrite t.rows record = some row ∧ r.replicated = row.replicated := by
  rw [applyRemoteObject_eq] at h
  obtain ⟨x, hx, eq⟩ := mem_recompute h
  cases decision : remoteWrite t.rows record with
  | none =>
    rw [decision] at hx
    exact .inl ⟨x, hx, eq⟩
  | some row =>
    rw [decision] at hx
    rcases mem_append.mp hx with kept | new
    · exact .inl ⟨x, mem_deleteWhere kept, eq⟩
    · exact .inr ⟨row, rfl, eq.trans (mem_singleton.mp new ▸ rfl)⟩

lemma mem_applyRemoteVersionDelete {argument : String} {now : Instant}
    (h : r ∈ (t.applyRemoteVersionDelete bucket key argument now).rows) :
    (∃ x ∈ t.rows, r.replicated = x.replicated) ∨
      ∃ x ∈ t.rows, named bucket key (versionArg argument) x = true ∧ x.isTombstone = false ∧
        r.replicated = (tombstone now x).replicated := by
  obtain ⟨x, hx, eq⟩ := mem_recompute h
  rcases mem_updateWhere hx with old | ⟨y, hy, hp, rfl⟩
  · exact .inl ⟨x, old, eq⟩
  · simp only [Bool.and_eq_true, Bool.not_eq_true'] at hp
    exact .inr ⟨y, hy, by simp [named, hp.1], hp.2, eq⟩

/-- The table holds at most one row of the version. -/
def Single (bucket key : String) (version : Option String) (rows : List ObjectRecord) : Prop :=
  rows.countP (named bucket key version) ≤ 1

lemma Single.eq_versionRow (h : Single bucket key version rows) (hr : r ∈ rows)
    (own : named bucket key version r = true) : versionRow bucket key version rows = some r := by
  unfold Single at h
  rw [countP_eq_length_filter] at h
  have mem : r ∈ rows.filter (named bucket key version) := mem_filter.mpr ⟨hr, own⟩
  obtain ⟨x, only⟩ := length_eq_one_iff.mp (le_antisymm h (length_pos_of_mem mem))
  rw [only] at mem
  rw [versionRow, ← head?_filter, only, mem_singleton.mp mem, head?_cons]

lemma countP_named_congr (same : rows'.map replicated = rows.map replicated) :
    rows'.countP (named bucket key version) = rows.countP (named bucket key version) := by
  have through : ∀ l : List ObjectRecord,
      (l.map replicated).countP (named bucket key version) = l.countP (named bucket key version) :=
    fun l => countP_map
  rw [← through, same, through]

section
variable (h : Single bucket key version rows)
include h

lemma Single.of_replicated_eq
    (same : rows'.map replicated = rows.map replicated) : Single bucket key version rows' :=
  (countP_named_congr same).trans_le h

lemma Single.recompute (b k : String) :
    Single bucket key version (recomputeIsLatest b k rows) := h.of_replicated_eq map_replicated_recompute

lemma Single.clearLatest (b k : String) :
    Single bucket key version (clearLatest b k rows) := h.of_replicated_eq map_replicated_clearLatest

lemma Single.deleteWhere : Single bucket key version (deleteWhere p rows) :=
  (filter_sublist.countP_le).trans h

lemma Single.tombstone (now : Instant) :
    Single bucket key version (updateWhere p (tombstone now) rows) := by
  unfold Single updateWhere
  rw [countP_map]
  refine (le_of_eq ?_).trans h
  congr 1
  funext r
  rw [Function.comp_apply]
  split <;> rfl

lemma single_append
    (absent : named bucket key version r = true → versionRow bucket key version rows = none) :
    Single bucket key version (rows ++ [r]) := by
  unfold Single at h ⊢
  rw [countP_append, countP_singleton]
  split
  · next own =>
      have none : rows.countP (named bucket key version) = 0 := by
        rw [countP_eq_zero]
        intro x hx named
        exact find?_eq_none.mp (absent own) x hx named
      omega
  · exact h

end

lemma Single.applyRemoteObject (h : Single bucket key version t.rows)
    (record : ObjectRecord) : Single bucket key version (t.applyRemoteObject record).rows := by
  rw [applyRemoteObject_eq]
  refine Single.recompute ?_ _ _
  cases decision : remoteWrite t.rows record with
  | none => exact h
  | some row =>
    refine single_append h.deleteWhere fun own => ?_
    obtain ⟨hb, hk, hv⟩ := named_iff.mp (named_remoteWrite decision)
    obtain ⟨rfl, rfl, rfl⟩ := named_iff.mp own
    refine versionRow_deleteWhere_self fun r hr => ?_
    obtain ⟨rb, rk, rv⟩ := named_iff.mp hr
    exact named_iff.mpr ⟨rb.trans hb, rk.trans hk, rv.trans hv⟩

lemma Single.applyRemoteVersionDelete (h : Single bucket key version t.rows)
    (b k argument : String) (now : Instant) :
    Single bucket key version (t.applyRemoteVersionDelete b k argument now).rows :=
  (h.tombstone now).recompute b k

end Arca.ObjectTable
