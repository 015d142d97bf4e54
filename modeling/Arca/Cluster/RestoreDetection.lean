import Arca.Cluster.AntiEntropy

/-!
# A peer restored from a backup

The node notices that a peer's counter has fallen below its mark only if a ping
answered before the counter climbs back reaches the first pass after the restore.
-/
namespace Arca.Cluster.SyncState
open ChangeFeed List

/-- Writes stamp one valid row, no restore falls into a pass, and the first pass after it sees
a counter below the mark. -/
def InTime (s : SyncState) : SyncEvent → Prop
  | .write w => (s.peer.stamped w).length ≤ 1 ∧ ∀ r ∈ s.peer.stamped w, r.hasValidBlobRef = true
  | e => s.Keeps e

/-- Only valid rows are about, and what was passed over as invalid was invalid. -/
structure ValidRows (s : SyncState) : Prop where
  rows : ∀ e ∈ s.peer.rows, e.2.hasValidBlobRef = true
  history : ∀ h ∈ s.history, ∀ e ∈ h.rows, e.2.hasValidBlobRef = true
  lastManifest : ∀ e ∈ s.lastManifest, e.2.hasValidBlobRef = true
  invalid : ∀ e, (e, .invalid) ∈ s.log → e.2.hasValidBlobRef = false

variable {s : SyncState} {peer : Store ObjectRecord}

lemma InTime.keeps {e : SyncEvent} (h : s.InTime e) : s.Keeps e := by
  cases e with
  | write w => exact h.1
  | _ => exact h

lemma validRows_start (h : ∀ e ∈ peer.rows, e.2.hasValidBlobRef = true) : (start peer).ValidRows :=
  ⟨h, by simp [start], by simp [start], by simp [start]⟩

lemma invalid_of_mem_fates (ok : Entry → Bool) (entries : List Entry) (cursor : ℕ) {e : Entry}
    (h : (e, .invalid) ∈ (applyEntries ok entries cursor).fates) : e.2.hasValidBlobRef = false := by
  induction entries generalizing cursor with
  | nil => cases h
  | cons x entries ih =>
    unfold applyEntries at h
    split at h
    · next bad =>
        rcases mem_cons.mp h with eq | h
        · cases eq
          simpa using bad
        · exact ih x.1 h
    · split at h
      · rcases mem_cons.mp h with eq | h
        · cases eq
        · exact ih x.1 h
      · simp at h

lemma validRows_step (s : SyncState) (e : SyncEvent) (h : s.ValidRows) (ht : s.InTime e) :
    (s.step e).ValidRows := by
  have older : ∀ x ∈ s.peer :: s.history, ∀ e ∈ x.rows, e.2.hasValidBlobRef = true := by
    intro x hx
    rcases mem_cons.mp hx with rfl | hx
    · exact h.rows
    · exact h.history x hx
  cases e with
  | write w =>
    refine ⟨fun e he => ?_, older, h.lastManifest, h.invalid⟩
    rcases Store.mem_write he with old | new
    · exact h.rows e old
    · exact ht.2 _ new.2
  | drop p => exact ⟨fun e he => h.rows e (mem_filter.mp he).1, older, h.lastManifest, h.invalid⟩
  | restore i =>
    simp only [step]
    split
    · next store fresh found =>
        exact ⟨h.history store (mem_of_getElem? found), h.history, h.lastManifest, by simp⟩
    · exact h
  | begin => cases hp : s.pass <;> simp only [step, hp] <;> exact ⟨h.rows, h.history, h.lastManifest, h.invalid⟩
  | page ok =>
    simp only [step]
    split
    · refine ⟨h.rows, h.history, h.rows, fun e he => ?_⟩
      rcases mem_append.mp he with new | old
      · exact invalid_of_mem_fates _ _ _ new
      · exact h.invalid e old
    · exact h
  | finish now control =>
    simp only [step]
    split
    · exact ⟨h.rows, h.history, h.lastManifest, h.invalid⟩
    · exact h
  | _ => exact ⟨h.rows, h.history, h.lastManifest, h.invalid⟩

/-- A pass that ends caught up has dealt with every row of its last manifest. -/
lemma nothingMissed_step (s : SyncState) (e : SyncEvent) (inv : s.Inv) (valid : s.ValidRows)
    (h : s.NothingMissed) : (s.step e).NothingMissed := by
  cases e with
  | restore i | page ok =>
    simp only [step]
    split
    · exact h
    · exact h
  | begin => cases hp : s.pass <;> simp only [step, hp] <;> exact h
  | finish now control =>
    simp only [step]
    split
    · next since outcome hp =>
        have dealt := (inv.pass _ hp).2.2.2
        intro c hc
        change c ∈ (if outcome.caughtUp && control then _ else s.completions) at hc
        split at hc
        · next done =>
            rcases mem_cons.mp hc with rfl | hc
            · intro _ e he
              rcases dealt (Bool.and_eq_true _ _ ▸ done).1 e he with applied | bad | stuck
              · exact .inl applied
              · exact absurd (valid.lastManifest e he) (by simp [valid.invalid e bad])
              · exact .inr (.inl stuck.2)
            · exact h c hc
        · exact h c hc
    · exact h
  | _ => exact h

/-- Over every run in which the rewind of the counter is seen in time, a pass
completed after the restore and a ping has missed nothing. -/
theorem restore_detected (peer : Store ObjectRecord) (ordered : peer.Ordered)
    (valid : ∀ e ∈ peer.rows, e.2.hasValidBlobRef = true) (events : List SyncEvent)
    (inTime : Run.Each step InTime (start peer) events) :
    Run.Always step NothingMissed (start peer) events := by
  have kept : Run.Always step (fun s => (s.Inv ∧ s.ValidRows) ∧ s.NothingMissed) (start peer) events := by
    refine Run.always_of_each ?_ ⟨⟨inv_start ordered, validRows_start valid⟩, by simp [NothingMissed, start]⟩ inTime
    rintro s e ⟨⟨inv, rows⟩, missed⟩ ht
    exact ⟨⟨inv_step s e inv ht.keeps, validRows_step s e rows ht⟩, nothingMissed_step s e inv rows missed⟩
  exact kept.mono fun s h => h.2

def plainRow (etag : String) : ObjectRecord := { ObjectRecord.written with blobId := "", etag := etag }

def writeRow (etag : String) : SyncEvent := .write (ObjectTable.insertWrite [plainRow etag])

def fullPass (now : Instant) : List SyncEvent :=
  [.tick, .begin, .page fun _ => true, .finish now true]

/-- Two rows are pulled, the peer is restored to its empty database, writes one
row and is pinged while its counter is still behind. -/
def pingBehind : List SyncEvent :=
  [writeRow "e1", writeRow "e2"] ++ fullPass 10 ++ [.restore 1, writeRow "e3", .ping 20] ++ fullPass 30

lemma inTime_writeRow (s : SyncState) (etag : String) : s.InTime (writeRow etag) := by
  change (s.peer.stamped _).length ≤ 1 ∧ ∀ r ∈ s.peer.stamped _, _
  rw [ObjectTable.stamped_insert]
  exact ⟨le_rfl, by simp [plainRow, ObjectRecord.hasValidBlobRef]⟩

theorem restore_detected_pingBehind : Run.Each step InTime (start ⟨[], 0⟩) pingBehind ∧
    Run.Always step NothingMissed (start ⟨[], 0⟩) pingBehind := by
  have inTime : Run.Each step InTime (start ⟨[], 0⟩) pingBehind := by
    refine ⟨inTime_writeRow _ _, inTime_writeRow _ _, trivial, fun no => absurd (.inl rfl) no, trivial,
      trivial, fun _ => rfl, inTime_writeRow _ _, trivial, trivial, fun _ => .inr ⟨1, 20, rfl, ?_, ?_⟩,
      trivial, trivial, trivial⟩
    · decide
    · rintro setAt ⟨⟩
      decide
  exact ⟨inTime, restore_detected ⟨[], 0⟩ ⟨by simp, by simp, by simp⟩ (by simp) pingBehind inTime⟩

/-- One row is pulled before the restore: by the ping the counter is back at the
mark. -/
def climbBack : List SyncEvent :=
  [writeRow "e1"] ++ fullPass 10 ++ [.restore 0, writeRow "e2", .ping 20] ++ fullPass 30

/-- The pass after the ping completes caught up, and the row written after the
restore has not been given to the node. -/
theorem climbBack_misses_row : let s := climbBack.foldl step (start ⟨[], 0⟩)
    s.peer.rows = [(1, plainRow "e2")] ∧ s.hwm = 1 ∧ s.log = [] ∧
    ⟨[(1, plainRow "e2")], [], [plainRow "e1"], true⟩ ∈ s.completions ∧ ¬ s.NothingMissed := by
  intro s
  have done : ⟨[(1, plainRow "e2")], [], [plainRow "e1"], true⟩ ∈ s.completions := by decide
  refine ⟨by decide, by decide, by decide, done, fun missed => ?_⟩
  have given := missed _ done rfl (1, plainRow "e2") mem_cons_self
  revert given
  decide

end Arca.Cluster.SyncState
