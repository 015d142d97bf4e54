import Arca.Lifecycle.Configuration

/-!
# The replication journal

The ids of entries are random UUIDs, which are taken to be distinct: an entry is
named here by the number of the commit it is made for and its place among the entries
of that commit. Instants are compared as such, for their texts all have one form in
which the order is the same.
-/
namespace Arca.Replication
open List
open Lifecycle (RuleStatus LifecycleFilter)

/-- Has the cases and accessors of the lifecycle filter. -/
abbrev ReplicationFilter := LifecycleFilter

def matchesFilter (f : ReplicationFilter) (key : String) (tags : List (String × String)) : Bool :=
  f.requiredPrefix.all (·.toList.isPrefixOf key.toList) &&
    f.requiredTags.all fun required => tags.any fun t => t.1 = required.1 ∧ t.2 = required.2

structure Destination where
  bucket : String
  endpoint : String
  region : String
  credentialRef : String
  deriving DecidableEq

structure ReplicationRule where
  id : String
  status : RuleStatus
  filter : ReplicationFilter
  destination : Destination
  deleteMarkerReplication : RuleStatus
  deriving DecidableEq

inductive ReplicationEventType where
  | put
  | deleteMarker
  | tag
  deriving DecidableEq

inductive Status where
  | pending
  | inFlight
  | completed
  | failed
  deriving DecidableEq

abbrev EntryId := ℕ × ℕ

structure JournalEntry where
  id : EntryId
  bucket : String
  key : String
  versionId : Option String
  ruleId : String
  eventType : ReplicationEventType
  destinationEndpoint : String
  destinationBucket : String
  status : Status
  attempts : ℕ
  lastError : Option String
  nextRetryAt : Instant
  createdAt : Instant
  updatedAt : Instant
  deriving DecidableEq

structure EmitInput where
  bucket : String
  key : String
  versionId : Option String
  eventType : ReplicationEventType
  tags : List (String × String)
  requestHeaders : List (String × String)

def replicationSourceHeader : String := "x-amz-arca-replication-source"

def isReplicaWrite (headers : List (String × String)) : Bool :=
  headers.any fun (name, value) =>
    Text.lower name.toList = Text.lower replicationSourceHeader.toList ∧ value ≠ ""

def emittingRules (rules : List ReplicationRule) (input : EmitInput) : List ReplicationRule :=
  if isReplicaWrite input.requestHeaders then []
  else rules.filter fun rule =>
    rule.status = .enabled && matchesFilter rule.filter input.key input.tags &&
      !(input.eventType = .deleteMarker && rule.deleteMarkerReplication ≠ .enabled)

def newEntry (id : EntryId) (input : EmitInput) (rule : ReplicationRule) (now : Instant) :
    JournalEntry where
  id := id
  bucket := input.bucket
  key := input.key
  versionId := input.versionId
  ruleId := rule.id
  eventType := input.eventType
  destinationEndpoint := rule.destination.endpoint
  destinationBucket := rule.destination.bucket
  status := .pending
  attempts := 0
  lastError := none
  nextRetryAt := now
  createdAt := now
  updatedAt := now

def newEntries (n : ℕ) (rules : List ReplicationRule) (input : EmitInput) (now : Instant) :
    List JournalEntry :=
  (emittingRules rules input).mapIdx fun i rule => newEntry (n, i) input rule now

def entryIds (n : ℕ) (rules : List ReplicationRule) (input : EmitInput) : List EntryId :=
  (List.range (emittingRules rules input).length).map fun i => (n, i)

lemma map_id_newEntries (n : ℕ) (rules : List ReplicationRule) (input : EmitInput)
    (now : Instant) : (newEntries n rules input now).map (·.id) = entryIds n rules input := by
  unfold newEntries entryIds
  rw [mapIdx_eq_zipIdx_map, map_map, range_eq_range', ← zipIdx_map_snd,
    map_map]
  rfl

lemma nodup_entryIds (n : ℕ) (rules : List ReplicationRule) (input : EmitInput) :
    (entryIds n rules input).Nodup :=
  nodup_range.map fun _ _ same => (Prod.mk.inj same).2

variable {n limit : ℕ} {input : EmitInput} {now : Instant} {rows : List JournalEntry}
  {e : JournalEntry}

variable {id : EntryId} {rules : List ReplicationRule}

lemma fst_of_mem_entryIds (h : id ∈ entryIds n rules input) : id.1 = n := by
  obtain ⟨i, _, rfl⟩ := mem_map.mp h
  rfl

lemma entryIds_eq_nil_iff :
    entryIds n rules input = [] ↔ emittingRules rules input = [] := by
  rw [entryIds, map_eq_nil_iff, range_eq_nil, length_eq_zero_iff]

def JournalEntry.waiting (e : JournalEntry) : Bool := e.status = .pending || e.status = .failed

def JournalEntry.due (now : Instant) (e : JournalEntry) : Bool :=
  e.waiting && e.nextRetryAt ≤ now

def claimIds (limit : ℕ) (now : Instant) (rows : List JournalEntry) : List EntryId :=
  (((rows.filter (·.due now)).insertionSort fun a b => a.nextRetryAt ≤ b.nextRetryAt).take
    limit).map (·.id)

def JournalEntry.claim (now : Instant) (e : JournalEntry) : JournalEntry :=
  { e with status := .inFlight, updatedAt := now }

def claimBatch (limit : ℕ) (now : Instant) (rows : List JournalEntry) :
    List JournalEntry × List JournalEntry :=
  let ids := claimIds limit now rows
  let rows := rows.map fun e => if e.id ∈ ids then e.claim now else e
  (rows, rows.filter (·.id ∈ ids))

def updateStatus (id : EntryId) (status : Status) (attempts : ℕ) (lastError : Option String)
    (nextRetryAt now : Instant) (rows : List JournalEntry) : List JournalEntry :=
  rows.map fun e =>
    if e.id = id then { e with status, attempts, lastError, nextRetryAt, updatedAt := now } else e

def purgeCompleted (before : Instant) (rows : List JournalEntry) : List JournalEntry :=
  rows.filter fun e => !(e.status = .completed && e.updatedAt < before)

def purgeAllOlder (before : Instant) (rows : List JournalEntry) : List JournalEntry :=
  rows.filter fun e => !(e.updatedAt < before)

structure Settings where
  batchSize : ℕ
  maxRetries : ℕ
  retryBaseSeconds : ℕ

def complete (e : JournalEntry) (now : Instant) : List JournalEntry → List JournalEntry :=
  updateStatus e.id .completed e.attempts none now now

/-- Seconds until the next attempt, after `attempts` of them. The product is one of
64 bits. -/
def retryDelay (settings : Settings) (attempts : ℕ) : ℕ :=
  if settings.maxRetries ≤ attempts then 60 * 60 * 24 * 365
  else min (settings.retryBaseSeconds * 2 ^ min (attempts - 1) 12 % 2 ^ 64) 3600

def markFailed (settings : Settings) (e : JournalEntry) (error : String) (now : Instant) :
    List JournalEntry → List JournalEntry :=
  let attempts := e.attempts + 1
  updateStatus e.id (if settings.maxRetries ≤ attempts then .failed else .pending) attempts
    (some error) (now + retryDelay settings attempts * 1000000000) now

lemma mem_claimIds
    (h : id ∈ claimIds limit now rows) : ∃ e ∈ rows, e.id = id ∧ e.due now := by
  obtain ⟨e, taken, rfl⟩ := mem_map.mp h
  have sorted := mem_of_mem_take taken
  rw [mem_insertionSort, mem_filter] at sorted
  exact ⟨e, sorted.1, rfl, sorted.2⟩

lemma pos_of_mem_claimIds (h : id ∈ claimIds limit now rows) : 0 < limit := by
  rcases Nat.eq_zero_or_pos limit with rfl | pos
  · simp [claimIds] at h
  · exact pos

lemma exists_claimIds (pos : 0 < limit)
    (here : e ∈ rows) (due : e.due now) : ∃ id, id ∈ claimIds limit now rows := by
  have some_due : 0 < ((rows.filter (·.due now)).insertionSort fun a b =>
      a.nextRetryAt ≤ b.nextRetryAt).length := by
    rw [length_insertionSort]
    exact length_pos_of_mem (mem_filter.mpr ⟨here, due⟩)
  refine exists_mem_of_length_pos ?_
  rw [claimIds, length_map, length_take]
  exact lt_min pos some_due

lemma mem_claimBatch_iff {e' : JournalEntry} : e' ∈ (claimBatch limit now rows).1 ↔
      ∃ e ∈ rows, (if e.id ∈ claimIds limit now rows then e.claim now else e) = e' :=
  mem_map

lemma mem_claimBatch_of_not_mem (here : e ∈ rows) (left : e.id ∉ claimIds limit now rows) :
    e ∈ (claimBatch limit now rows).1 :=
  mem_claimBatch_iff.mpr ⟨e, here, if_neg left⟩

lemma exists_mem_returned_iff : (∃ e ∈ (claimBatch limit now rows).2, e.id = id) ↔
      id ∈ claimIds limit now rows := by
  constructor
  · rintro ⟨e, returned, rfl⟩
    exact of_decide_eq_true (mem_filter.mp returned).2
  · intro selected
    obtain ⟨e, here, rfl, _⟩ := mem_claimIds selected
    exact ⟨e.claim now, mem_filter.mpr
      ⟨mem_claimBatch_iff.mpr ⟨e, here, if_pos selected⟩, decide_eq_true selected⟩, rfl⟩

lemma waiting_of_mem_claimBatch (there : e ∈ (claimBatch limit now rows).1) (waits : e.waiting) :
    e ∈ rows ∧ e.id ∉ claimIds limit now rows := by
  obtain ⟨e, here, rfl⟩ := mem_claimBatch_iff.mp there
  split at waits
  · cases waits
  · next left => exact ⟨(if_neg left).symm ▸ here, (if_neg left).symm ▸ left⟩

/-- What the `n`-th of successive claims returns at an instant. -/
def claimed (limit : ℕ) (now : Instant) : ℕ → List JournalEntry → List JournalEntry
  | 0, rows => (claimBatch limit now rows).2
  | n + 1, rows => claimed limit now n (claimBatch limit now rows).1

/-- From some instant on, successive claims return the entry sooner or later. -/
def WillBeClaimed (limit : ℕ) (rows : List JournalEntry) (id : EntryId) : Prop :=
  ∃ t : Instant, ∀ now, t ≤ now → ∃ n, ∃ e ∈ claimed limit now n rows, e.id = id

lemma waiting_of_claimed :
    ∀ {rows : List JournalEntry}, (∃ e ∈ claimed limit now n rows, e.id = id) →
      0 < limit ∧ ∃ e ∈ rows, e.id = id ∧ e.waiting := by
  induction n with
  | zero =>
    intro rows returned
    have selected := exists_mem_returned_iff.mp returned
    obtain ⟨e, here, same, due⟩ := mem_claimIds selected
    exact ⟨pos_of_mem_claimIds selected, e, here, same, (Bool.and_eq_true_iff.mp due).1⟩
  | succ n ih =>
    intro rows returned
    obtain ⟨pos, e, there, same, waits⟩ := ih returned
    exact ⟨pos, e, (waiting_of_mem_claimBatch there waits).1, same, waits⟩

lemma countP_due_claimBatch_lt (selected : id ∈ claimIds limit now rows) :
    (claimBatch limit now rows).1.countP (·.due now) < rows.countP (·.due now) := by
  have left : (claimBatch limit now rows).1.countP (·.due now) =
      (rows.filter fun e => !(decide (e.id ∈ claimIds limit now rows))).countP (·.due now) := by
    rw [claimBatch, countP_map, countP_filter]
    refine countP_congr fun e _ => ?_
    by_cases taken : e.id ∈ claimIds limit now rows
    · simp [taken, JournalEntry.claim, JournalEntry.due, JournalEntry.waiting]
    · simp [taken]
  obtain ⟨e, here, same, due⟩ := mem_claimIds selected
  have taken : 0 < (rows.filter fun e => decide (e.id ∈ claimIds limit now rows)).countP
      (·.due now) :=
    countP_pos_iff.mpr
      ⟨e, mem_filter.mpr ⟨here, decide_eq_true (same ▸ selected)⟩, due⟩
  rw [left, countP_eq_countP_filter_add rows (·.due now)
    fun e => decide (e.id ∈ claimIds limit now rows)]
  simpa using taken

lemma claimed_of_due (pos : 0 < limit)
    (due : e.due now) {k : ℕ} : ∀ {rows : List JournalEntry}, rows.countP (·.due now) ≤ k →
      e ∈ rows → ∃ n, ∃ e' ∈ claimed limit now n rows, e'.id = e.id := by
  -- each claim that leaves `e` out takes other entries, so the due ones run out
  induction k with
  | zero =>
    intro rows none_due here
    exact absurd due (countP_eq_zero.mp (Nat.le_zero.mp none_due) e here)
  | succ k ih =>
    intro rows bound here
    by_cases selected : e.id ∈ claimIds limit now rows
    · exact ⟨0, exists_mem_returned_iff.mpr selected⟩
    · obtain ⟨id, other⟩ := exists_claimIds pos here due
      have fewer := countP_due_claimBatch_lt other
      obtain ⟨n, returned⟩ := ih (by omega) (mem_claimBatch_of_not_mem here selected)
      exact ⟨n + 1, returned⟩

lemma willBeClaimed_iff :
    WillBeClaimed limit rows id ↔ 0 < limit ∧ ∃ e ∈ rows, e.id = id ∧ e.waiting := by
  constructor
  · rintro ⟨t, later⟩
    obtain ⟨n, returned⟩ := later t le_rfl
    exact waiting_of_claimed returned
  · rintro ⟨pos, e, here, rfl, waits⟩
    refine ⟨e.nextRetryAt, fun now passed => ?_⟩
    have due : e.due now := Bool.and_eq_true_iff.mpr ⟨waits, decide_eq_true passed⟩
    exact claimed_of_due pos due le_rfl here

end Arca.Replication
