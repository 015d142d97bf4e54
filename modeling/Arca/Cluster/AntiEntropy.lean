import Arca.Storage.StampedWrites

/-!
# Object anti-entropy between two nodes

A node pulls the rows a peer has stamped above its high-water mark, page by page, and
gives each one to `apply_remote_object`. The peer writes, drops old tombstones and
may be restored from a backup at any moment between two pages.
-/
namespace Arca.Cluster
open ChangeFeed List

abbrev Entry := ℕ × ObjectRecord

def manifestBatch : ℕ := 500

def manifestMaxLimit : ℕ := 1000

def stuckSkipAfter : ℕ := 5

/-- The page a peer serves: it bounds the size it is asked for. -/
def manifest (s : Store ObjectRecord) (since limit : ℕ) : List Entry :=
  s.page since (min (max limit 1) manifestMaxLimit)

inductive Fate where
  | applied
  | failed
  | invalid
  deriving DecidableEq, Repr

structure Applied where
  cursor : ℕ
  failedSeq : Option ℕ
  fates : List (Entry × Fate)

/-- `ok` says which rows `apply_remote_object` takes. A row with an invalid blob
id is passed over; the first failure ends the page. -/
def applyEntries (ok : Entry → Bool) : List Entry → ℕ → Applied
  | [], cursor => ⟨cursor, none, []⟩
  | e :: rest, cursor =>
    if !e.2.hasValidBlobRef then
      let a := applyEntries ok rest e.1
      { a with fates := (e, .invalid) :: a.fates }
    else if ok e then
      let a := applyEntries ok rest e.1
      { a with fates := (e, .applied) :: a.fates }
    else ⟨cursor, some e.1, [(e, .failed)]⟩

structure Outcome where
  cursor : ℕ
  caughtUp : Bool
  failedSeq : Option ℕ
  deriving DecidableEq, Repr

/-- A pass toward the peer: it asks for its next page, or it has ended. -/
inductive Pass where
  | fetching (since cursor : ℕ)
  | ended (since : ℕ) (outcome : Outcome)
  deriving DecidableEq, Repr

def turn (since cursor batchLen : ℕ) (a : Applied) : Pass :=
  let progressed : Bool := cursor < a.cursor
  if a.failedSeq.isSome || !progressed then
    .ended since ⟨a.cursor, a.failedSeq.isNone && batchLen < manifestBatch, a.failedSeq⟩
  else if batchLen < manifestBatch then .ended since ⟨a.cursor, true, none⟩
  else .fetching since a.cursor

def observe (streak : Option (ℕ × ℕ)) : Option ℕ → Bool × Option (ℕ × ℕ)
  | none => (false, none)
  | some seq =>
    let entry := streak.getD (seq, 0)
    if entry.1 ≠ seq then (false, some (seq, 1))
    else if stuckSkipAfter ≤ entry.2 + 1 then (true, none)
    else (false, some (seq, entry.2 + 1))

/-- The reported counter is below the mark and newer than the mark. -/
def syncRewound (hwm : ℕ) (hwmAt : Option Instant) (peerMaxSeq : Option ℕ)
    (peerLastSeen : Option Instant) : Bool :=
  match peerMaxSeq, peerLastSeen with
  | some maxSeq, some seen =>
    if hwm ≤ maxSeq then false
    else match hwmAt with
      | some setAt => setAt < seen
      | none => true
  | _, _ => false

structure PeerReport where
  maxSeq : Option ℕ
  lastSeen : Option Instant
  deriving DecidableEq, Repr

/-- A pass that ended caught up: the rows at its last manifest, its cursor. -/
structure CaughtUp where
  rows : List Entry
  cursor : ℕ

/-- A completed pass: the rows at its last manifest, and what had happened to
rows by then. -/
structure Completed where
  rows : List Entry
  log : List (Entry × Fate)
  before : List ObjectRecord
  /-- The peer had been restored and had answered a ping since. -/
  afterRestore : Bool
  deriving DecidableEq

structure SyncState where
  peer : Store ObjectRecord
  /-- The states the peer has been in. -/
  history : List (Store ObjectRecord)
  restored : Bool
  /-- The peer has answered a ping since it was restored. -/
  pinged : Bool
  report : PeerReport
  /-- The report in the list of peers of the current tick. -/
  sample : PeerReport
  hwm : ℕ
  hwmAt : Option Instant
  streak : Option (ℕ × ℕ)
  pass : Option Pass
  lastManifest : List Entry
  log : List (Entry × Fate)
  /-- The stamps passed over as stuck. -/
  stuckAt : List ℕ
  /-- The rows applied before the peer was restored. -/
  before : List ObjectRecord
  /-- A pass has begun from zero since the peer was restored. -/
  resynced : Bool
  caughtUps : List CaughtUp
  completions : List Completed

inductive SyncEvent where
  | write (w : Write ObjectRecord)
  | drop (p : ObjectRecord → Bool)
  | restore (i : ℕ)
  | ping (now : Instant)
  | tick
  | begin
  | page (ok : Entry → Bool)
  | abort
  | finish (now : Instant) (control : Bool)
  | forget
  | restart

namespace SyncState

section
variable (s : SyncState)

def onPage (ok : Entry → Bool) (since cursor : ℕ) : SyncState :=
  let entries := manifest s.peer cursor manifestBatch
  let a := applyEntries ok entries cursor
  let pass := turn since cursor entries.length a
  { s with
    pass := some pass
    lastManifest := s.peer.rows
    log := a.fates ++ s.log
    caughtUps := match pass with
      | .ended _ outcome =>
        if outcome.caughtUp then ⟨s.peer.rows, outcome.cursor⟩ :: s.caughtUps else s.caughtUps
      | .fetching _ _ => s.caughtUps }

def onFinish (now : Instant) (control : Bool) (since : ℕ) (outcome : Outcome) : SyncState :=
  let seen := observe s.streak outcome.failedSeq
  let cursor := if seen.1 then outcome.failedSeq.getD outcome.cursor else outcome.cursor
  { s with
    pass := none
    streak := seen.2
    stuckAt := if seen.1 then cursor :: s.stuckAt else s.stuckAt
    hwm := if since < cursor then cursor else s.hwm
    hwmAt := if since < cursor then some now else s.hwmAt
    completions :=
      if outcome.caughtUp && control then
        ⟨s.lastManifest, s.log, s.before, s.restored && s.pinged⟩ :: s.completions
      else s.completions }

def step : SyncEvent → SyncState
  | .write w => { s with peer := s.peer.write w, history := s.peer :: s.history }
  | .drop p => { s with peer := s.peer.drop p, history := s.peer :: s.history }
  | .restore i =>
    -- one restore, to a state the peer has been in
    match s.restored, s.history[i]? with
    | false, some store =>
      { s with
        peer := store
        restored := true
        before := s.log.filterMap fun x => if x.2 = .applied then some x.1.2 else none
        log := []
        stuckAt := []
        resynced := false }
    | _, _ => s
  | .ping now =>
    { s with report := ⟨some s.peer.counter, some now⟩, pinged := s.restored }
  | .tick => { s with sample := s.report }
  | .begin =>
    match s.pass with
    | some _ => s
    | none =>
      let rewound := syncRewound s.hwm s.hwmAt s.sample.maxSeq s.sample.lastSeen
      let hwm := if rewound then 0 else s.hwm
      { s with
        hwm := hwm
        hwmAt := if rewound then none else s.hwmAt
        pass := some (.fetching hwm hwm)
        resynced := s.resynced || (s.restored && hwm = 0) }
  | .page ok =>
    match s.pass with
    | some (.fetching since cursor) => s.onPage ok since cursor
    | _ => s
  | .abort => { s with pass := none }
  | .finish now control =>
    match s.pass with
    | some (.ended since outcome) => s.onFinish now control since outcome
    | _ => s
  -- membership has dropped the peer, or the node has come up again
  | .forget => { s with hwm := 0, hwmAt := none }
  | .restart => { s with hwm := 0, hwmAt := none, streak := none, pass := none }

def start (peer : Store ObjectRecord) : SyncState where
  peer := peer
  history := []
  restored := false
  pinged := false
  report := ⟨none, none⟩
  sample := ⟨none, none⟩
  hwm := 0
  hwmAt := none
  streak := none
  pass := none
  lastManifest := []
  log := []
  stuckAt := []
  before := []
  resynced := false
  caughtUps := []
  completions := []

/-- Every row of the peer stamped at most the mark was applied with that stamp,
or passed over as invalid or as stuck. -/
def NothingLost : Prop := ∀ e ∈ s.peer.rows, e.1 ≤ s.hwm →
  (e, .applied) ∈ s.log ∨ (e, .invalid) ∈ s.log ∨ e.1 ∈ s.stuckAt

/-- A pass that ended caught up had no row of the last manifest above its cursor. -/
def HonestCaughtUp : Prop :=
  ∀ c ∈ s.caughtUps, ∀ e ∈ c.rows, e.1 ≤ c.cursor

/-- A pass completed after a restore and a ping has given the node every row the
peer held, after the restore, or it was applied unchanged before. -/
def NothingMissed : Prop := ∀ c ∈ s.completions, c.afterRestore = true →
  ∀ e ∈ c.rows, (e, .applied) ∈ c.log ∨ (e, .failed) ∈ c.log ∨ e.2 ∈ c.before

end

/-- The beginning of the page that was read, and what ended it. -/
def Split (entries : List Entry) (cursor : ℕ) (a : Applied) : Prop :=
  ∃ read rest, entries = read ++ rest ∧
    (∀ e ∈ read, (e, .applied) ∈ a.fates ∨ (e, .invalid) ∈ a.fates) ∧
    a.cursor = (read.getLast?.map Prod.fst).getD cursor ∧
    (rest = [] ∧ a.failedSeq = none ∨
      ∃ x tail, rest = x :: tail ∧ a.failedSeq = some x.1 ∧ (x, .failed) ∈ a.fates)

variable {e : Entry} {a : Applied}

lemma Split.cons {entries : List Entry} (h : Split entries e.1 a)
    (cursor : ℕ) {fate : Fate} (hf : fate = .applied ∨ fate = .invalid) :
    Split (e :: entries) cursor { a with fates := (e, fate) :: a.fates } := by
  obtain ⟨read, rest, rfl, fates, last, ending⟩ := h
  refine ⟨e :: read, rest, rfl, ?_, ?_, ?_⟩
  · intro x hx
    rcases mem_cons.mp hx with rfl | hx
    · rcases hf with rfl | rfl
      · exact .inl mem_cons_self
      · exact .inr mem_cons_self
    · exact (fates x hx).imp (mem_cons_of_mem _) (mem_cons_of_mem _)
  · rw [getLast?_cons, last]
    cases read.getLast? <;> rfl
  · exact ending.imp id fun ⟨x, tail, h, failed, mem⟩ =>
      ⟨x, tail, h, failed, mem_cons_of_mem _ mem⟩

lemma applyEntries_split (ok : Entry → Bool) (entries : List Entry) (cursor : ℕ) :
    Split entries cursor (applyEntries ok entries cursor) := by
  induction entries generalizing cursor with
  | nil => exact ⟨[], [], rfl, by simp, rfl, .inl ⟨rfl, rfl⟩⟩
  | cons e entries ih =>
    unfold applyEntries
    split
    · exact (ih e.1).cons cursor (.inr rfl)
    · split
      · exact (ih e.1).cons cursor (.inl rfl)
      · exact ⟨[], e :: entries, rfl, by simp, rfl, .inr ⟨e, entries, rfl, rfl, by simp⟩⟩

variable {peer : Store ObjectRecord} {seen : Entry → Prop} {ok : Entry → Bool} {since cursor : ℕ}

def Saw (a : Applied) (e : Entry) : Prop := (e, .applied) ∈ a.fates ∨ (e, .invalid) ∈ a.fates

/-- After a page, every row up to the new cursor has been seen, and every row up
to the one that failed has been seen or is that one. -/
lemma covered_page (ordered : peer.Ordered) (h : peer.Covered seen cursor)
    (le : cursor ≤ peer.counter) (limit : ℕ) (hs : Split (peer.page cursor limit) cursor a) :
    cursor ≤ a.cursor ∧ a.cursor ≤ peer.counter ∧
    peer.Covered (fun e => seen e ∨ Saw a e) a.cursor ∧
    (∀ q, a.failedSeq = some q → q ≤ peer.counter ∧
      peer.Covered (fun e => (seen e ∨ Saw a e) ∨ e.1 = q ∧ (e, .failed) ∈ a.fates) q) ∧
    (a.failedSeq = none → ∀ e ∈ peer.page cursor limit, Saw a e ∧ e.1 ≤ a.cursor) := by
  obtain ⟨read, rest, eq, fates, last, ending⟩ := hs
  have row : ∀ e ∈ peer.page cursor limit, e.1 ≤ peer.counter :=
    fun e he => ordered.le e (Store.mem_of_mem_page he).1
  refine ⟨?_, ?_, ?_, ?_, ?_⟩
  · rcases eq_nil_or_concat read with rfl | ⟨init, x, rfl⟩
    · simp [last]
    · rw [concat_eq_append] at last eq
      rw [last]
      have held : x ∈ peer.page cursor limit := by simp [eq]
      simpa using (Store.mem_of_mem_page held).2.le
  · rcases eq_nil_or_concat read with rfl | ⟨init, x, rfl⟩
    · simpa [last] using le
    · rw [concat_eq_append] at last eq
      rw [last]
      simpa using row x (by simp [eq])
  · rcases eq_nil_or_concat read with rfl | ⟨init, x, rfl⟩
    · have same : a.cursor = cursor := last
      rw [same]
      exact h.mono fun e he => .inl he
    · rw [concat_eq_append] at last eq fates
      have same : a.cursor = x.1 := by simpa using last
      rw [same]
      refine (h.mono fun e he => .inl he).page ordered (p := init) (q := rest)
        (eq.trans (append_assoc ..)) ?_
      exact fun e he => .inr (fates e he)
  · intro q failed
    rcases ending with ⟨_, none⟩ | ⟨x, tail, rfl, failed', mem⟩
    · rw [none] at failed
      cases failed
    · obtain rfl := Option.some.inj (failed'.symm.trans failed)
      refine ⟨row x (by simp [eq]), ?_⟩
      refine (h.mono fun e he => .inl (.inl he)).page ordered eq ?_
      intro e he
      rcases mem_append.mp he with he | he
      · exact .inl (.inr (fates e he))
      · obtain rfl := mem_singleton.mp he
        exact .inr ⟨rfl, mem⟩
  · intro none e he
    rcases ending with ⟨rfl, _⟩ | ⟨x, tail, rfl, failed, mem⟩
    · rw [append_nil] at eq
      refine ⟨fates e (eq ▸ he), ?_⟩
      rcases eq_nil_or_concat read with rfl | ⟨init, x, rfl⟩
      · rw [eq] at he
        cases he
      · rw [concat_eq_append] at last eq
        have sorted : (peer.page cursor limit).Pairwise fun a b => a.1 ≤ b.1 := Store.sorted_page
        rw [eq, pairwise_append] at sorted
        have same : a.cursor = x.1 := by simpa using last
        rw [same]
        rcases mem_append.mp (eq ▸ he) with he | he
        · exact sorted.2.2 e he x (by simp)
        · exact (mem_singleton.mp he ▸ le_rfl)
    · rw [none] at failed
      cases failed

section
variable (s : SyncState)

def Consumed (e : Entry) : Prop :=
  (e, .applied) ∈ s.log ∨ (e, .invalid) ∈ s.log ∨ e.1 ∈ s.stuckAt ∧ (e, .failed) ∈ s.log

def Synced : Prop := s.restored = false ∨ s.resynced = true

/-- The cursor of a pass has passed over nothing, nor has the stamp it failed at. -/
def PassInv : Pass → Prop
  | .fetching _ cursor => cursor ≤ s.peer.counter ∧ s.peer.Covered s.Consumed cursor
  | .ended _ outcome =>
    outcome.cursor ≤ s.peer.counter ∧ s.peer.Covered s.Consumed outcome.cursor ∧
    (∀ q, outcome.failedSeq = some q → q ≤ s.peer.counter ∧
      s.peer.Covered (fun e => s.Consumed e ∨ e.1 = q ∧ (e, .failed) ∈ s.log) q) ∧
    (outcome.caughtUp = true → ∀ e ∈ s.lastManifest, s.Consumed e)

structure Inv (s : SyncState) : Prop where
  ordered : s.peer.Ordered
  history : ∀ h ∈ s.history, h.Ordered
  mark : s.Synced → s.hwm ≤ s.peer.counter ∧ s.peer.Covered s.Consumed s.hwm
  idle : ¬ s.Synced → s.pass = none
  pass : ∀ p, s.pass = some p → s.PassInv p
  honest : s.HonestCaughtUp

/-- The condition on a step: a write stamps one row at most, a restore does not
fall into a pass, and the first pass after it starts from zero. -/
def Keeps : SyncEvent → Prop
  | .write w => (s.peer.stamped w).length ≤ 1
  | .restore _ => s.restored = false → s.pass = none
  | .begin => ¬ s.Synced → s.hwm = 0 ∨ ∃ maxSeq lastSeen,
      s.sample = ⟨some maxSeq, some lastSeen⟩ ∧ maxSeq < s.hwm ∧
        ∀ setAt, s.hwmAt = some setAt → setAt < lastSeen
  | _ => True

end

variable {s : SyncState}

lemma inv_start (h : peer.Ordered) : (start peer).Inv where
  ordered := h
  history _ hh := nomatch hh
  mark _ := ⟨Nat.zero_le _, h.covered_zero⟩
  idle _ := rfl
  pass _ hp := nomatch hp
  honest _ hc := nomatch hc

lemma Inv.setPeer (h : s.Inv) {store : Store ObjectRecord} (ordered : store.Ordered)
    (counter : s.peer.counter ≤ store.counter)
    (keep : ∀ seen c, c ≤ s.peer.counter → s.peer.Covered seen c → store.Covered seen c) :
    ({ s with peer := store, history := s.peer :: s.history } : SyncState).Inv where
  ordered := ordered
  history x hx := by
    rcases mem_cons.mp hx with rfl | hx
    · exact h.ordered
    · exact h.history x hx
  mark synced := ⟨(h.mark synced).1.trans counter, keep _ _ (h.mark synced).1 (h.mark synced).2⟩
  idle := h.idle
  pass p hp := by
    have := h.pass p hp
    cases p with
    | fetching since cursor => exact ⟨this.1.trans counter, keep _ _ this.1 this.2⟩
    | ended since outcome =>
      refine ⟨this.1.trans counter, keep _ _ this.1 this.2.1, ?_, this.2.2.2⟩
      intro q hq
      have failed := this.2.2.1 q hq
      exact ⟨failed.1.trans counter, keep _ _ failed.1 failed.2⟩
  honest := h.honest

lemma Consumed.grow (h : s.Consumed e) {log : List (Entry × Fate)} {stuckAt : List ℕ}
    (hl : ∀ x ∈ s.log, x ∈ log) (hs : ∀ x ∈ s.stuckAt, x ∈ stuckAt) :
    ({ s with log := log, stuckAt := stuckAt } : SyncState).Consumed e := by
  rcases h with h | h | ⟨h, h'⟩
  · exact .inl (hl _ h)
  · exact .inr (.inl (hl _ h))
  · exact .inr (.inr ⟨hs _ h, hl _ h'⟩)

lemma turn_cases (since cursor batchLen : ℕ) (a : Applied) :
    turn since cursor batchLen a = .fetching since a.cursor ∨
    ∃ outcome, turn since cursor batchLen a = .ended since outcome ∧ outcome.cursor = a.cursor ∧
      outcome.failedSeq = a.failedSeq ∧
      (outcome.caughtUp = true → a.failedSeq = none ∧ batchLen < manifestBatch) := by
  unfold turn
  dsimp only
  split_ifs with stopped short
  · exact .inr ⟨_, rfl, rfl, rfl, by simp⟩
  · have none : a.failedSeq = none := by
      cases failed : a.failedSeq with
      | none => rfl
      | some q => simp [failed] at stopped
    exact .inr ⟨_, rfl, rfl, none.symm, fun _ => ⟨none, short⟩⟩
  · exact .inl rfl

lemma read_all (covered : peer.Covered seen cursor) (grows : cursor ≤ a.cursor)
    (all : ∀ e ∈ manifest peer cursor manifestBatch, Saw a e ∧ e.1 ≤ a.cursor)
    (short : (manifest peer cursor manifestBatch).length < manifestBatch) (e : Entry)
    (he : e ∈ peer.rows) : (seen e ∨ Saw a e) ∧ e.1 ≤ a.cursor := by
  by_cases above : cursor < e.1
  · have read := all e (Store.mem_page_of_short short he above)
    exact ⟨.inr read.1, read.2⟩
  · exact ⟨.inl (covered e he (not_lt.mp above)), (not_lt.mp above).trans grows⟩

lemma inv_onPage (h : s.Inv) (hp : s.pass = some (.fetching since cursor)) (ok : Entry → Bool) :
    (s.onPage ok since cursor).Inv := by
  have synced : s.Synced := by
    by_contra hs
    rw [h.idle hs] at hp
    cases hp
  obtain ⟨le, covered⟩ := h.pass _ hp
  obtain ⟨grows, bound, read, failed, all⟩ := covered_page h.ordered covered le
    (min (max manifestBatch 1) manifestMaxLimit) (applyEntries_split ok _ cursor)
  have saw : ∀ e, s.Consumed e ∨ Saw (applyEntries ok (manifest s.peer cursor manifestBatch) cursor) e →
      (s.onPage ok since cursor).Consumed e := by
    rintro e (he | he | he)
    · exact he.grow (fun x hx => mem_append_right _ hx) (fun x hx => hx)
    · exact .inl (mem_append_left _ he)
    · exact .inr (.inl (mem_append_left _ he))
  have turned := turn_cases since cursor (manifest s.peer cursor manifestBatch).length
    (applyEntries ok (manifest s.peer cursor manifestBatch) cursor)
  refine ⟨h.ordered, h.history, fun _ => ⟨(h.mark synced).1, (h.mark synced).2.mono fun e he =>
    saw e (.inl he)⟩, fun hs => absurd synced hs, ?_, ?_⟩
  · intro p hp'
    obtain rfl := Option.some.inj hp'
    rcases turned with eq | ⟨outcome, eq, hc, hf, up⟩
    · rw [eq]
      exact ⟨bound, read.mono saw⟩
    · rw [eq]
      refine ⟨hc ▸ bound, hc ▸ read.mono saw, ?_, ?_⟩
      · intro q hq
        obtain ⟨hq', cov⟩ := failed q (hf ▸ hq)
        refine ⟨hq', cov.mono fun e he => ?_⟩
        exact he.imp (saw e) fun x => ⟨x.1, mem_append_left _ x.2⟩
      · intro caught e he
        obtain ⟨none, short⟩ := up caught
        exact saw e (read_all covered grows (all none) short e he).1
  · rcases turned with eq | ⟨outcome, eq, hc, hf, up⟩
    · simp only [HonestCaughtUp, onPage, eq]
      exact h.honest
    · simp only [HonestCaughtUp, onPage, eq]
      split
      · next caught =>
          intro c hc'
          rcases mem_cons.mp hc' with rfl | hc'
          · intro e he
            obtain ⟨none, short⟩ := up caught
            exact hc ▸ (read_all covered grows (all none) short e he).2
          · exact h.honest c hc'
      · exact h.honest

def finishCursor (s : SyncState) (outcome : Outcome) : ℕ :=
  if (observe s.streak outcome.failedSeq).1 then outcome.failedSeq.getD outcome.cursor
  else outcome.cursor

lemma Consumed.onFinish (h : s.Consumed e) (now : Instant) (control : Bool)
    (since : ℕ) (outcome : Outcome) : (s.onFinish now control since outcome).Consumed e := by
  refine h.grow (fun x hx => hx) fun x hx => ?_
  change x ∈ if (observe s.streak outcome.failedSeq).1 then _ else s.stuckAt
  split
  · exact mem_cons_of_mem _ hx
  · exact hx

lemma finishCursor_covered {outcome : Outcome} (h : s.PassInv (.ended since outcome))
    (now : Instant) (control : Bool) : s.finishCursor outcome ≤ s.peer.counter ∧
      s.peer.Covered (s.onFinish now control since outcome).Consumed (s.finishCursor outcome) := by
  obtain ⟨bound, covered, failed, _⟩ := h
  have kept := fun e (he : s.Consumed e) => he.onFinish now control since outcome
  cases skip : (observe s.streak outcome.failedSeq).1 with
  | false =>
    rw [finishCursor, skip]
    exact ⟨bound, covered.mono kept⟩
  | true =>
    -- only a failed stamp is ever skipped
    cases hq : outcome.failedSeq with
    | none => simp [hq, observe] at skip
    | some q =>
      have cursor : s.finishCursor outcome = q := by rw [finishCursor, skip, hq]; rfl
      rw [cursor]
      refine ⟨(failed q hq).1, (failed q hq).2.mono ?_⟩
      rintro e (he | ⟨rfl, hf⟩)
      · exact kept e he
      · refine .inr (.inr ⟨?_, hf⟩)
        change e.1 ∈ if (observe s.streak outcome.failedSeq).1 then
          s.finishCursor outcome :: s.stuckAt else s.stuckAt
        rw [skip, cursor]
        exact mem_cons_self

lemma inv_onFinish (h : s.Inv) {outcome : Outcome} (hp : s.pass = some (.ended since outcome))
    (now : Instant) (control : Bool) : (s.onFinish now control since outcome).Inv := by
  have synced : s.Synced := by
    by_contra hs
    rw [h.idle hs] at hp
    cases hp
  have moved := finishCursor_covered (h.pass _ hp) now control
  refine ⟨h.ordered, h.history, fun _ => ?_, fun _ => rfl, (fun _ hp' => nomatch hp'), h.honest⟩
  have mark : (s.onFinish now control since outcome).hwm =
      if since < s.finishCursor outcome then s.finishCursor outcome else s.hwm := rfl
  rw [mark]
  split
  · exact moved
  · exact ⟨(h.mark synced).1, (h.mark synced).2.mono fun e he => he.onFinish now control since outcome⟩

lemma syncRewound_of_below {hwm maxSeq : ℕ} {hwmAt : Option Instant} {lastSeen : Instant}
    (below : maxSeq < hwm) (fresh : ∀ setAt, hwmAt = some setAt → setAt < lastSeen) :
    syncRewound hwm hwmAt (some maxSeq) (some lastSeen) = true := by
  simp only [syncRewound, if_neg (not_le.mpr below)]
  cases hwmAt with
  | none => rfl
  | some setAt => exact decide_eq_true (fresh setAt rfl)

def beginMark (s : SyncState) : ℕ :=
  if syncRewound s.hwm s.hwmAt s.sample.maxSeq s.sample.lastSeen then 0 else s.hwm

lemma beginMark_of_keeps (hk : s.Keeps .begin) (hs : ¬ s.Synced) : s.beginMark = 0 := by
  rcases hk hs with zero | ⟨maxSeq, lastSeen, sample, below, fresh⟩
  · unfold beginMark
    split
    · rfl
    · exact zero
  · rw [beginMark, sample, syncRewound_of_below below fresh, if_pos rfl]

lemma inv_begin (h : s.Inv) (idle : s.pass = none) (hk : s.Keeps .begin) : (s.step .begin).Inv := by
  have eq : s.step .begin =
      { s with
        hwm := s.beginMark
        hwmAt := if syncRewound s.hwm s.hwmAt s.sample.maxSeq s.sample.lastSeen then none else s.hwmAt
        pass := some (.fetching s.beginMark s.beginMark)
        resynced := s.resynced || (s.restored && s.beginMark = 0) } := by
    simp only [step, idle]
    rfl
  rw [eq]
  have start : s.beginMark ≤ s.peer.counter ∧ s.peer.Covered s.Consumed s.beginMark := by
    by_cases hs : s.Synced
    · unfold beginMark
      split
      · exact ⟨Nat.zero_le _, h.ordered.covered_zero⟩
      · exact h.mark hs
    · rw [beginMark_of_keeps hk hs]
      exact ⟨Nat.zero_le _, h.ordered.covered_zero⟩
  refine ⟨h.ordered, h.history, fun _ => start, ?_, ?_, h.honest⟩
  · intro hs'
    refine absurd ?_ hs'
    by_cases hs : s.Synced
    · exact hs.imp id fun r => by simp [r]
    · have restored : s.restored = true := by
        by_contra no
        exact hs (.inl (Bool.eq_false_iff.mpr no))
      exact .inr (by simp [restored, beginMark_of_keeps hk hs])
  · rintro p hp
    obtain rfl := Option.some.inj hp
    exact start

lemma inv_step (s : SyncState) (e : SyncEvent) (h : s.Inv) (hk : s.Keeps e) : (s.step e).Inv := by
  cases e with
  | write w =>
    exact h.setPeer (h.ordered.write hk) (Nat.le_succ _) fun _ _ le cov => cov.write le
  | drop p => exact h.setPeer (h.ordered.drop p) le_rfl fun _ _ _ cov => cov.drop p
  | restore i =>
    simp only [step]
    split
    · next store fresh found =>
        have mem := mem_of_getElem? found
        refine ⟨h.history store mem, h.history, ?_, fun _ => hk fresh, ?_, h.honest⟩
        · rintro (absurd' | absurd') <;> cases absurd'
        · intro p hp
          cases (hk fresh).symm.trans hp
    · exact h
  | ping now | tick => exact ⟨h.ordered, h.history, h.mark, h.idle, h.pass, h.honest⟩
  | begin =>
    cases busy : s.pass with
    | some p => simpa only [step, busy] using h
    | none => exact inv_begin h busy hk
  | page ok =>
    simp only [step]
    split
    · next since cursor hp => exact inv_onPage h hp ok
    · exact h
  | abort => exact ⟨h.ordered, h.history, h.mark, fun _ => rfl, (fun _ hp => nomatch hp), h.honest⟩
  | finish now control =>
    simp only [step]
    split
    · next since outcome hp => exact inv_onFinish h hp now control
    · exact h
  | forget =>
    exact ⟨h.ordered, h.history, fun _ => ⟨Nat.zero_le _, h.ordered.covered_zero⟩, h.idle, h.pass,
      h.honest⟩
  | restart =>
    exact ⟨h.ordered, h.history, fun _ => ⟨Nat.zero_le _, h.ordered.covered_zero⟩, fun _ => rfl,
      (fun _ hp => nomatch hp), h.honest⟩

/-- The condition on a step of a peer that is never restored: a write stamps one
row at most. -/
def Forward (s : SyncState) : SyncEvent → Prop
  | .write w => (s.peer.stamped w).length ≤ 1
  | .restore _ => False
  | _ => True

lemma restored_step (s : SyncState) (e : SyncEvent) (hs : s.restored = false) (hf : s.Forward e) :
    (s.step e).restored = false := by
  cases e with
  | restore i => exact hf.elim
  | begin => cases hp : s.pass <;> simp [step, hp, hs]
  | page ok | finish now control =>
    simp only [step]
    split
    · exact hs
    · exact hs
  | _ => exact hs

lemma nothingLost_of_inv (h : s.Inv) (hs : s.restored = false) : s.NothingLost := by
  intro e he le
  exact ((h.mark (.inl hs)).2 e he le).imp id (Or.imp id And.left)

/-- **Nothing is lost below the mark, and a pass that says it caught up has**, with a peer
whose writes stamp one row each. -/
theorem nothing_lost (peer : Store ObjectRecord) (ordered : peer.Ordered) (events : List SyncEvent)
    (forward : Run.Each step Forward (start peer) events) :
    Run.Always step (fun s => s.NothingLost ∧ s.HonestCaughtUp) (start peer) events := by
  have kept : Run.Always step (fun s => s.Inv ∧ s.restored = false) (start peer) events := by
    refine Run.always_of_each ?_ ⟨inv_start ordered, rfl⟩ forward
    rintro s e ⟨inv, hs⟩ hf
    refine ⟨inv_step s e inv ?_, restored_step s e hs hf⟩
    cases e with
    | write w => exact hf
    | restore i => exact hf.elim
    | begin => exact fun no => absurd (.inl hs) no
    | _ => trivial
  exact kept.mono fun s ⟨inv, hs⟩ => ⟨nothingLost_of_inv inv hs, inv.honest⟩

def pullOne : List SyncEvent :=
  [.write (ObjectTable.insertWrite [ObjectRecord.written]), .begin, .page fun _ => true, .finish 1 true]

theorem nothing_lost_pullOne : Run.Each step Forward (start ⟨[], 0⟩) pullOne ∧
    Run.Always step (fun s => s.NothingLost ∧ s.HonestCaughtUp) (start ⟨[], 0⟩) pullOne := by
  have forward : Run.Each step Forward (start ⟨[], 0⟩) pullOne :=
    ⟨show (Store.stamped _ _).length ≤ 1 by decide, trivial, trivial, trivial, trivial⟩
  exact ⟨forward, nothing_lost ⟨[], 0⟩ ⟨by simp, by simp, by simp⟩ pullOne forward⟩

def versionOfKey (version : String) (latest : Bool) : ObjectRecord :=
  { ObjectRecord.written with versionId := some version, isLatest := latest }

def otherVersion (i : ℕ) : ObjectRecord :=
  { ObjectRecord.written with
    key := "other", blobId := "", isLatest := false, isTombstone := true
    versionId := some (String.ofList (List.replicate i 'v')) }

/-- The rows of a bucket that is not versioned here: one short of a page of other
rows, and two versions of one key that came from a node where it is versioned. -/
def crowded : Store ObjectRecord where
  rows := (List.range 499).map (fun i => (i + 1, otherVersion i)) ++
    [(500, versionOfKey "v1" false), (501, versionOfKey "v2" true)]
  counter := 501

def crowdedTable : ObjectTable :=
  ⟨crowded.rows.map Prod.snd, fun _ => .unversioned, true⟩

def deleteKey : Write ObjectRecord :=
  ObjectTable.tombstoneWrite (ObjectTable.atKey "b" "k") 200

/-- The key is deleted, and a full pass runs with every row applied. -/
def deleteAndPull : List SyncEvent :=
  [.write deleteKey, .begin, .page fun _ => true, .page fun _ => true, .finish 300 true]

def lostEntry : Entry := (502, ObjectTable.tombstone 200 (versionOfKey "v2" true))

/-- Both versions get the stamp 502 and the page ends between them: the tombstone
of the second is at the mark and was never given to the node. -/
theorem deleteAndPull_loses_tombstone : let s := deleteAndPull.foldl step (start crowded)
    crowdedTable.writeOf (.deleteLatest "b" "k" (fun _ => true) "root" "u" 200) = some deleteKey ∧
    s.hwm = 502 ∧ lostEntry ∈ s.peer.rows ∧ (∀ fate, (lostEntry, fate) ∉ s.log) ∧
    ¬ s.NothingLost := by
  intro s
  have delete : crowdedTable.writeOf (.deleteLatest "b" "k" (fun _ => true) "root" "u" 200) =
      some deleteKey := by
    have found : (ObjectTable.fetchLatestObject "b" "k" crowdedTable.rows).isNone = false := by
      decide +kernel
    simp only [ObjectTable.writeOf]
    rw [found]
    rfl
  have mark : s.hwm = 502 := by decide +kernel
  have held : lostEntry ∈ s.peer.rows := by decide +kernel
  have never : ∀ fate, (lostEntry, fate) ∉ s.log := by
    intro fate
    cases fate <;> decide +kernel
  have notStuck : lostEntry.1 ∉ s.stuckAt := by decide +kernel
  refine ⟨delete, mark, held, never, fun lost => ?_⟩
  rcases lost lostEntry held mark.ge with applied | invalid | stuck
  · exact never _ applied
  · exact never _ invalid
  · exact notStuck stuck

end SyncState
end Arca.Cluster
