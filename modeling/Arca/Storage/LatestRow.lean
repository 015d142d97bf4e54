import Arca.Storage.ConditionalWrites

/-!
# The one latest row of a key

A unique index keeps the table from having two latest rows for a key.
-/
namespace Arca
open ObjectTable CurrentRow List

namespace ObjectTable
variable {bucket key : String} {rows rows₁ rows' : List ObjectRecord} {t t' : ObjectTable}

/-- `idx_objects_latest`. -/
def OneLatest (rows : List ObjectRecord) : Prop :=
  ∀ bucket key, (rowsOf bucket key rows).countP ObjectRecord.isLatest ≤ 1

structure Touches (bucket key : String) (rows rows' : List ObjectRecord) : Prop where
  frame : Frame bucket key rows rows'
  one : (rowsOf bucket key rows).countP ObjectRecord.isLatest ≤ 1 →
    (rowsOf bucket key rows').countP ObjectRecord.isLatest ≤ 1

lemma Touches.refl : Touches bucket key rows rows := ⟨.refl, id⟩

lemma OneLatest.touches (h : OneLatest rows) (touches : Touches bucket key rows rows') :
    OneLatest rows' := by
  intro b k
  by_cases same : b = bucket ∧ k = key
  · obtain ⟨rfl, rfl⟩ := same
    exact touches.one (h b k)
  · rw [touches.frame b k same]
    exact h b k

lemma touches_recompute (frame : Frame bucket key rows rows₁) :
    Touches bucket key rows (recomputeIsLatest bucket key rows₁) :=
  ⟨frame.trans frame_recompute, fun _ => (current_recompute rows₁).unique⟩

variable {r : ObjectRecord} {uuid owner : String} {now : Instant}

lemma touches_append (frame : Frame bucket key rows rows₁) (at_key : atKey bucket key r = true)
    (unflagged : ∀ x ∈ rowsOf bucket key rows₁, x.isLatest = false) :
    Touches bucket key rows (rows₁ ++ [r]) := by
  refine ⟨frame.trans (frame_append at_key), fun _ => ?_⟩
  have none_before : (rowsOf bucket key rows₁).countP ObjectRecord.isLatest = 0 :=
    countP_eq_zero.mpr fun x mem => by simp [unflagged x mem]
  rw [rowsOf_append_one _ at_key, countP_append, none_before, Nat.zero_add]
  exact countP_le_length

variable {pre : Option ObjectRecord → Bool}

lemma touches_installObject {record : ObjectRecord}
    (h : t.installObject record pre uuid = some t') :
    Touches record.bucket record.key t.rows t'.rows := by
  obtain ⟨-, rfl⟩ := installObject_eq_some_iff.mp h
  exact touches_recompute (frame_cleared.trans (frame_append (atKey_storedRow record uuid)))

lemma touches_deleteLatest
    (h : t.deleteLatest bucket key pre owner uuid now = some t') :
    Touches bucket key t.rows t'.rows := by
  cases deletesLatest h with
  | nothing => exact .refl
  | buries => exact touches_recompute (frame_updateWhere (keepsKey_tombstone now) fun _ own => own)
  | removes =>
    refine ⟨frame_deleteWhere fun _ own => own, fun _ => ?_⟩
    rw [rowsOf_deleteAll]
    exact Nat.zero_le 1
  | marks => exact touches_append frame_cleared (atKey_deleteMarker _ _ _) clearLatest_unflagged

lemma touches_deleteVersion {version : String}
    (h : t.deleteVersion bucket key version pre now = some t') :
    Touches bucket key t.rows t'.rows := by
  cases deletesVersion h with
  | nothing => exact .refl
  | buries => exact touches_recompute (frame_updateWhere (keepsKey_tombstone now) fun _ => atKey_of_named)
  | removes => exact touches_recompute (frame_deleteWhere fun _ => atKey_of_named)

lemma fetchCurrentObject_eq : fetchCurrentObject bucket key rows =
    (rowsOf bucket key rows).find? fun r => r.isLatest && !r.isDeleteMarker := by
  rw [fetchCurrentObject, rowsOf, find?_filter]
  simp only [Bool.and_assoc, Bool.decide_and, Bool.decide_eq_true]

lemma fetchCurrentObject_eq_none (h : ∀ r ∈ rowsOf bucket key rows, r.isLatest = true →
    r.isDeleteMarker = true) : fetchCurrentObject bucket key rows = none := by
  rw [fetchCurrentObject_eq, find?_eq_none]
  intro r mem
  cases flag : r.isLatest with
  | false => simp
  | true => simp [h r mem flag]

lemma eq_of_countP_le_one {α : Type*} {p : α → Bool} {l : List α} (h : l.countP p ≤ 1) {a b : α}
    (ha : a ∈ l) (hb : b ∈ l) (pa : p a = true) (pb : p b = true) : a = b := by
  rw [countP_eq_length_filter] at h
  have ha := mem_filter.mpr ⟨ha, pa⟩
  have hb := mem_filter.mpr ⟨hb, pb⟩
  generalize l.filter p = found at h ha hb
  match found, h with
  | [x], _ => rw [mem_singleton.mp ha, mem_singleton.mp hb]

lemma fetchCurrentObject_of_latest (one : OneLatest rows) (mem : r ∈ rows)
    (latest : r.isLatest = true) (object : r.isDeleteMarker = false) :
    fetchCurrentObject r.bucket r.key rows = some r := by
  have own : r ∈ rowsOf r.bucket r.key rows := mem_rowsOf.mpr ⟨mem, atKey_iff.mpr ⟨rfl, rfl⟩⟩
  rw [fetchCurrentObject_eq]
  cases found : (rowsOf r.bucket r.key rows).find? fun r => r.isLatest && !r.isDeleteMarker with
  | none => exact absurd (find?_eq_none.mp found r own) (by simp [latest, object])
  | some x =>
    have flagged := find?_some found
    rw [Bool.and_eq_true] at flagged
    rw [eq_of_countP_le_one (one _ _) (mem_of_find?_eq_some found) own flagged.1 latest]

lemma fetchCurrentObject_deleteLatest
    (h : t.deleteLatest bucket key pre owner uuid now = some t') :
    fetchCurrentObject bucket key t'.rows = none := by
  cases deletesLatest h with
  | nothing _ none =>
    refine fetchCurrentObject_eq_none fun r mem latest => ?_
    have none_latest := find?_eq_none.mp none r (mem_rowsOf.mp mem).1
    exact absurd latest (by simpa [(mem_rowsOf.mp mem).2] using none_latest)
  | buries =>
    refine fetchCurrentObject_eq_none fun r mem latest => ?_
    obtain ⟨mem, at_key⟩ := mem_rowsOf.mp mem
    exact absurd latest (by simp [unflagged_tombstones mem at_key])
  | removes =>
    refine fetchCurrentObject_eq_none fun r mem _ => ?_
    rw [rowsOf_deleteAll] at mem
    cases mem
  | marks =>
    refine fetchCurrentObject_eq_none fun r mem latest => ?_
    rw [rowsOf_append_one _ (atKey_deleteMarker _ _ _)] at mem
    obtain cleared | new := mem_append.mp mem
    · exact absurd latest (by simp [show r.isLatest = false from clearLatest_unflagged r cleared])
    · rw [mem_singleton.mp new]
      rfl

end ObjectTable

namespace Conditional

def Write.place : Write → Option (String × String)
  | .put o .. | .complete _ o .. => some (o.bucket, o.key)
  | .deleteLatest bucket key .. | .deleteVersion bucket key .. => some (bucket, key)
  | .setVersioning .. | .createUpload _ | .takeUpload _ => none

lemma touches_getD {t : ObjectTable} {o : Option ObjectTable} {bucket key : String}
    (h : ∀ t', o = some t' → Touches bucket key t.rows t'.rows) :
    Touches bucket key t.rows (o.getD t).rows := by
  cases o with
  | none => exact .refl
  | some t' => exact h t' rfl

variable {w : Write} {d : Drawn} {s s' : Store}

lemma touches_run {bucket key : String}
    (h : w.run d s = .ok s') (place : w.place = some (bucket, key)) :
    Touches bucket key s.objects.rows s'.objects.rows := by
  cases w with
  | put o lock now pre | complete u o now pre =>
    cases place
    obtain ⟨-, p, installed⟩ := installed_of_ok h rfl
    exact touches_installObject installed
  | deleteLatest b k pre owner =>
    cases place
    simp only [Write.run] at h
    cases verdict : pre.evaluate (fetchLatestObject bucket key s.objects.rows) with
    | error => rw [verdict] at h; cases h
    | ok =>
      rw [verdict] at h
      cases h
      exact touches_getD fun t' => touches_deleteLatest
  | deleteVersion b k version pre =>
    cases place
    simp only [Write.run] at h
    cases verdict : pre.evaluate (deleteTarget bucket key version s.objects.rows) with
    | error => rw [verdict] at h; cases h
    | ok =>
      rw [verdict] at h
      cases h
      exact touches_getD fun t' => touches_deleteVersion
  | setVersioning | createUpload | takeUpload => cases place

lemma rows_run_of_no_place (h : w.run d s = .ok s')
    (nowhere : w.place = none) : s'.objects.rows = s.objects.rows := by
  cases w with
  | put | complete | deleteLatest | deleteVersion => cases nowhere
  | setVersioning | createUpload | takeUpload =>
    cases h
    rfl

lemma oneLatest_run (h : w.run d s = .ok s')
    (one : OneLatest s.objects.rows) : OneLatest s'.objects.rows := by
  cases place : w.place with
  | none =>
    rw [rows_run_of_no_place h place]
    exact one
  | some at_key => exact one.touches (touches_run h place)

end Conditional
end Arca
