import Arca.Lib.Run
import Arca.Replication.Journal

/-!
# The journal across crashes

The request handlers, which insert the entries of a change after they committed it,
the worker, which claims and processes them, and the administration. The rules are
those that the handler reads after the commit.
-/
namespace Arca.Replication.Outbox
open List

/-- What commits a change that a rule can apply to. `deleteObject` says whether the record that
the store hands back is a marker. -/
inductive Operation where
  | putObject
  | copyObject
  | completeMultipartUpload
  | deleteObject (returnsMarker : Bool)
  | deleteObjects
  | expiration
  | putObjectTagging
  | deleteObjectTagging

def Operation.eventType : Operation → ReplicationEventType
  | putObject | copyObject | completeMultipartUpload => .put
  | deleteObject _ | deleteObjects | expiration => .deleteMarker
  | putObjectTagging | deleteObjectTagging => .tag

def Operation.emits : Operation → Bool
  | putObject | copyObject | completeMultipartUpload | putObjectTagging => true
  | deleteObject returnsMarker => returnsMarker
  | deleteObjects | expiration | deleteObjectTagging => false

inductive Task where
  | reading (n : ℕ) (rules : List ReplicationRule) (input : EmitInput)
  | inserting (entries : List JournalEntry)

def Task.ids : Task → List EntryId
  | reading n rules input => entryIds n rules input
  | inserting entries => entries.map (·.id)

structure State where
  commits : ℕ
  owed : List EntryId
  finished : List EntryId
  tasks : List Task
  batch : List JournalEntry
  journal : List JournalEntry

def start : State := ⟨0, [], [], [], [], []⟩

inductive Event where
  | commit (op : Operation) (rules : List ReplicationRule) (input : EmitInput)
  /-- `none` when the cached flag says that the bucket has no rules, or they cannot
  be read. -/
  | read (i : ℕ) (now : Option Instant)
  | insert (i : ℕ) (ok : Bool)
  | claim (now : Instant)
  /-- The first entry of the batch, with the error of a delivery that failed; `ok` is
  the outcome of the update of its status. -/
  | process (error : Option String) (now : Instant) (ok : Bool)
  | retryEntry (id : EntryId) (now : Instant)
  | purgeCompleted (before : Instant)
  | purgeAllOlder (before : Instant)
  | crash

section
variable (settings : Settings)

def settle (e : JournalEntry) (error : Option String) (now : Instant) :
    List JournalEntry → List JournalEntry :=
  match error with
  | none => complete e now
  | some message => markFailed settings e message now

section
variable (s : State)

def step : Event → State
  | .commit op rules input =>
    let input := { input with eventType := op.eventType }
    let tasks := if op.emits then s.tasks ++ [.reading s.commits rules input] else s.tasks
    { s with
      commits := s.commits + 1
      owed := s.owed ++ entryIds s.commits rules input
      tasks := tasks }
  | .read i now => match s.tasks[i]? with
      | some (.reading n rules input) =>
        let entries := (now.map (newEntries n rules input)).getD []
        { s with tasks := s.tasks.set i (.inserting entries) }
      | _ => s
  | .insert i ok => match s.tasks[i]? with
      | some (.inserting (e :: rest)) =>
        { s with
          tasks := s.tasks.set i (.inserting rest)
          journal := if ok then s.journal ++ [e] else s.journal }
      | _ => s
  | .claim now =>
    -- the worker claims when it is through with its batch
    if s.batch = [] then
      let (journal, batch) := claimBatch settings.batchSize now s.journal
      { s with journal, batch }
    else s
  | .process error now ok => match s.batch with
      | [] => s
      | e :: rest =>
        { s with
          batch := rest
          journal := if ok then settle settings e error now s.journal else s.journal
          finished := if error = none ∧ ok then e.id :: s.finished else s.finished }
  | .retryEntry id now => { s with journal := updateStatus id .pending 0 none now now s.journal }
  | .purgeCompleted before => { s with journal := purgeCompleted before s.journal }
  | .purgeAllOlder before => { s with journal := purgeAllOlder before s.journal }
  | .crash => { s with tasks := [], batch := [] }

def State.taskIds : List EntryId := s.tasks.flatMap Task.ids

def State.batchIds : List EntryId := s.batch.map (·.id)

def State.journalIds : List EntryId := s.journal.map (·.id)

/-- Each entry that is owed is finished, in the hands of the running server, or one
that later claims return. After a crash nothing is in hand. -/
def Represented : Prop :=
  ∀ id ∈ s.owed, id ∈ s.finished ∨ id ∈ s.taskIds ∨ id ∈ s.batchIds ∨
    WillBeClaimed settings.batchSize s.journal id

def State.Settled (id : EntryId) : Prop :=
  id ∈ s.finished ∨ ∃ e ∈ s.journal, e.id = id ∧ e.waiting

/-- No entry is lost: none stays unwritten, none is purged or left in flight that is not
finished. -/
def Keeps : Event → Prop
  | .commit op rules input =>
    op.emits ∨ emittingRules rules { input with eventType := op.eventType } = []
  | .read i now => now.isSome ∨
      ∀ n rules input, s.tasks[i]? = some (.reading n rules input) → emittingRules rules input = []
  | .insert i ok =>
    ∀ e rest, s.tasks[i]? = some (.inserting (e :: rest)) → ok ∧ 0 < settings.batchSize
  | .process error _ ok => ∀ e rest, s.batch = e :: rest →
      s.Settled e.id ∨ (ok ∧ (error = none ∨ e.id ∈ s.journalIds))
  | .purgeAllOlder before => ∀ e ∈ s.journal, e.updatedAt < before →
      e.id ∈ s.finished ∨ e.id ∈ s.batchIds
  | .crash => s.taskIds = [] ∧ ∀ e ∈ s.batch, s.Settled e.id
  | .claim _ | .retryEntry .. | .purgeCompleted _ => True

/-- An id is of one entry, and that has been inserted once at most. -/
structure Sound (settings : Settings) (s : State) : Prop where
  fresh : ∀ id ∈ s.owed, id.1 < s.commits
  known : ∀ id, id ∈ s.taskIds ∨ id ∈ s.batchIds ∨ id ∈ s.journalIds ∨ id ∈ s.finished → id ∈ s.owed
  tasks_journal : (s.taskIds ++ s.journalIds).Nodup
  tasks_batch : (s.taskIds ++ s.batchIds).Nodup
  unfinished : ∀ id ∈ s.taskIds, id ∉ s.finished
  completed : ∀ e ∈ s.journal, e.status = .completed → e.id ∈ s.finished
  served : s.batch ≠ [] → 0 < settings.batchSize
  pending : ∀ entries, .inserting entries ∈ s.tasks → ∀ e ∈ entries, e.status = .pending

def State.Kept (id : EntryId) : Prop :=
  id ∈ s.finished ∨ id ∈ s.taskIds ∨ id ∈ s.batchIds ∨
    (0 < settings.batchSize ∧ ∃ e ∈ s.journal, e.id = id ∧ e.waiting)

end

lemma represented_iff {settings : Settings} {s : State} :
    Represented settings s ↔ ∀ id ∈ s.owed, s.Kept settings id := by
  simp only [Represented, willBeClaimed_iff, State.Kept]

lemma sound_start : Sound settings start where
  fresh := fun _ => (nomatch ·)
  known := by simp [start, State.taskIds, State.batchIds, State.journalIds]
  tasks_journal := nodup_nil
  tasks_batch := nodup_nil
  unfinished := fun _ => (nomatch ·)
  completed := fun _ => (nomatch ·)
  served := fun some_held => absurd rfl some_held
  pending := fun _ => (nomatch ·)

end

/-- The ids of the tasks around one of them, which a change of that one keeps. -/
lemma exists_around {tasks : List Task} {i : ℕ} {t : Task} (here : tasks[i]? = some t) :
    ∃ l r, tasks.flatMap Task.ids = l ++ (t.ids ++ r) ∧
      ∀ t', (tasks.set i t').flatMap Task.ids = l ++ (Task.ids t' ++ r) := by
  obtain ⟨bound, rfl⟩ := List.getElem?_eq_some_iff.mp here
  refine ⟨(tasks.take i).flatMap Task.ids, (tasks.drop (i + 1)).flatMap Task.ids, ?_, fun t' => ?_⟩
  · rw [← flatMap_cons, ← flatMap_append, getElem_cons_drop, take_append_drop]
  · rw [set_eq_take_append_cons_drop, if_pos bound, flatMap_append, flatMap_cons]

section
variable {settings : Settings} {s : State}
  {rows : List JournalEntry} {status : Status} {attempts : ℕ} {now : Instant}
  {e : JournalEntry}

lemma journalIds_map {f : JournalEntry → JournalEntry}
    (same : ∀ e, (f e).id = e.id) : (rows.map f).map (·.id) = rows.map (·.id) := by
  rw [map_map]
  exact map_congr_left fun e _ => same e

variable {error : Option String} {id : EntryId} {next : Instant}

lemma updateStatus_ids :
    (updateStatus id status attempts error next now rows).map (·.id) = rows.map (·.id) :=
  journalIds_map fun e => by split <;> rfl

lemma claimBatch_ids {limit : ℕ} : (claimBatch limit now rows).1.map (·.id) = rows.map (·.id) :=
  journalIds_map fun e => by split <;> rfl

lemma mem_updateStatus
    (h : e ∈ updateStatus id status attempts error next now rows) :
    (e.id = id ∧ e.status = status) ∨ (e.id ≠ id ∧ e ∈ rows) := by
  obtain ⟨e, here, rfl⟩ := mem_map.mp h
  split
  · next same => exact .inl ⟨same, rfl⟩
  · next other => exact .inr ⟨other, here⟩

lemma waiting_updateStatus {id' : EntryId}
    (still : id' = id → status = .pending ∨ status = .failed)
    (there : (id' = id ∧ id' ∈ rows.map (·.id)) ∨ ∃ e ∈ rows, e.id = id' ∧ e.waiting) :
    ∃ e ∈ updateStatus id status attempts error next now rows, e.id = id' ∧ e.waiting := by
  have row : ∃ e ∈ rows, e.id = id' ∧ (id' = id ∨ e.waiting) := by
    rcases there with ⟨same, member⟩ | ⟨e, here, named, waits⟩
    · obtain ⟨e, here, named⟩ := mem_map.mp member
      exact ⟨e, here, named, .inl same⟩
    · exact ⟨e, here, named, .inr waits⟩
  obtain ⟨e, here, rfl, kept⟩ := row
  refine ⟨_, mem_map_of_mem here, ?_⟩
  by_cases same : e.id = id
  · rw [if_pos same]
    refine ⟨rfl, ?_⟩
    rcases still same with rfl | rfl <;> rfl
  · rw [if_neg same]
    exact ⟨rfl, kept.resolve_left same⟩

lemma Sound.absent (sound : Sound settings s) (other : id ∉ s.owed) :
    id ∉ s.taskIds ∧ id ∉ s.batchIds ∧ id ∉ s.journalIds ∧ id ∉ s.finished := by
  have known := sound.known id
  tauto

lemma sound_commit (sound : Sound settings s) (op : Operation) (rules : List ReplicationRule)
    (input : EmitInput) : Sound settings (step settings s (.commit op rules input)) := by
  set ids := entryIds s.commits rules { input with eventType := op.eventType } with ids_eq
  have new : ∀ id ∈ ids, id.1 = s.commits := fun id => fst_of_mem_entryIds
  have nodup : ids.Nodup := nodup_entryIds ..
  have tasks : (step settings s (.commit op rules input)).taskIds =
      s.taskIds ++ if op.emits then ids else [] := by
    simp only [step, State.taskIds]
    split <;> simp [Task.ids, ids_eq]
  have owed : (step settings s (.commit op rules input)).owed = s.owed ++ ids := rfl
  obtain ⟨fresh, known, journal, batch, unfinished, completed, served, pending⟩ := sound
  refine ⟨?_, ?_, ?_, ?_, ?_, completed, served, ?_⟩
  · change ∀ id ∈ s.owed ++ ids, id.1 < s.commits + 1
    grind
  · intro id place
    change _ ∨ id ∈ s.batchIds ∨ id ∈ s.journalIds ∨ id ∈ s.finished at place
    grind
  · rw [tasks]
    change (_ ++ s.journalIds).Nodup
    grind [nodup_append]
  · rw [tasks]
    change (_ ++ s.batchIds).Nodup
    grind [nodup_append]
  · rw [tasks]
    change ∀ id ∈ _, id ∉ s.finished
    grind
  · intro entries member
    simp only [step] at member
    split at member
    · exact pending entries (by simpa using member)
    · exact pending entries member

lemma Sound.of_sublist (sound : Sound settings s) {s' : State} (commits : s'.commits = s.commits)
    (owed : s'.owed = s.owed) (finished : s'.finished = s.finished)
    (tasks : s'.taskIds.Sublist s.taskIds) (batch : s'.batch.Sublist s.batch)
    (journal : s'.journal.Sublist s.journal)
    (pending : ∀ entries, .inserting entries ∈ s'.tasks → ∀ e ∈ entries, e.status = .pending) :
    Sound settings s' where
  fresh := by rw [commits, owed]; exact sound.fresh
  known id place := by
    rw [owed]
    rw [finished] at place
    exact sound.known id (place.imp (fun h => tasks.subset h)
      (.imp (fun h => (batch.map _).subset h) (.imp_left fun h => (journal.map _).subset h)))
  tasks_journal := sound.tasks_journal.sublist (tasks.append (journal.map _))
  tasks_batch := sound.tasks_batch.sublist (tasks.append (batch.map _))
  unfinished id member := by
    rw [finished]
    exact sound.unfinished id (tasks.subset member)
  completed e member := by
    rw [finished]
    exact sound.completed e (journal.subset member)
  served held := sound.served fun none_held => held (sublist_nil.mp (none_held ▸ batch))
  pending := pending

lemma pending_newEntries {n : ℕ} {rules : List ReplicationRule} {input : EmitInput}
    {now : Option Instant}
    (h : e ∈ (now.map (newEntries n rules input)).getD []) : e.status = .pending := by
  cases now with
  | none => cases h
  | some now =>
    obtain ⟨i, bound, rfl⟩ := mem_mapIdx.mp h
    rfl

lemma read_ids (n : ℕ) (rules : List ReplicationRule) (input : EmitInput) (now : Option Instant) :
    (Task.inserting ((now.map (newEntries n rules input)).getD [])).ids =
      if now.isSome then entryIds n rules input else [] := by
  cases now with
  | none => rfl
  | some now => exact map_id_newEntries n rules input now

lemma sound_read (sound : Sound settings s) (i : ℕ) (now : Option Instant) :
    Sound settings (step settings s (.read i now)) := by
  dsimp only [step]
  split
  · next n rules input here =>
      obtain ⟨l, r, before, after⟩ := exists_around here
      refine sound.of_sublist rfl rfl rfl ?_ (.refl _) (.refl _) ?_
      · change ((s.tasks.set i _).flatMap Task.ids).Sublist (s.tasks.flatMap Task.ids)
        rw [before, after, read_ids]
        refine (List.Sublist.refl l).append (List.Sublist.append ?_ (.refl r))
        split
        · exact .refl _
        · exact nil_sublist _
      · intro entries member e he
        rcases mem_or_eq_of_mem_set member with old | new
        · exact sound.pending entries old e he
        · cases new
          exact pending_newEntries he
  · exact sound

lemma sound_insert (sound : Sound settings s) (i : ℕ) (ok : Bool) :
    Sound settings (step settings s (.insert i ok)) := by
  dsimp only [step]
  split
  · next e rest here =>
      obtain ⟨l, r, before, after⟩ := exists_around here
      have member := mem_of_getElem? here
      have pending : ∀ entries, Task.inserting entries ∈ s.tasks.set i (.inserting rest) →
          ∀ e ∈ entries, e.status = .pending := by
        intro entries there e' he
        rcases mem_or_eq_of_mem_set there with old | new
        · exact sound.pending entries old e' he
        · cases new
          exact sound.pending _ member e' (mem_cons_of_mem _ he)
      change s.taskIds = _ at before
      cases ok with
      | false =>
        refine sound.of_sublist rfl rfl rfl ?_ (.refl _) (.refl _) pending
        change ((s.tasks.set i _).flatMap Task.ids).Sublist s.taskIds
        rw [before, after]
        exact (List.Sublist.refl l).append ((sublist_cons_self _ _).append (.refl r))
      | true =>
        have new := sound.pending _ member e mem_cons_self
        have tasks : State.taskIds { s with tasks := s.tasks.set i (.inserting rest)
                                            journal := s.journal ++ [e] } =
            l ++ (rest.map (·.id) ++ r) := after _
        have ids : State.journalIds { s with tasks := s.tasks.set i (.inserting rest)
                                             journal := s.journal ++ [e] } =
            s.journalIds ++ [e.id] := map_append
        obtain ⟨fresh, known, journal, batch, unfinished, completed, served, -⟩ := sound
        rw [before, Task.ids, map_cons] at journal batch unfinished
        simp only [before, Task.ids, map_cons] at known
        rw [if_pos rfl]
        refine ⟨fresh, ?_, ?_, ?_, ?_, ?_, served, pending⟩
        · intro id place
          rw [tasks, ids] at place
          change _ ∨ id ∈ s.batchIds ∨ _ ∨ id ∈ s.finished at place
          have := known id
          change id ∈ s.owed
          grind
        · rw [tasks, ids]
          grind [nodup_append]
        · rw [tasks]
          change (_ ++ s.batchIds).Nodup
          grind [nodup_append]
        · rw [tasks]
          change ∀ id ∈ _, id ∉ s.finished
          grind
        · change ∀ e' ∈ s.journal ++ [e], e'.status = .completed → e'.id ∈ s.finished
          grind
  · exact sound

lemma sound_claim (sound : Sound settings s) (now : Instant) :
    Sound settings (step settings s (.claim now)) := by
  dsimp only [step]
  split
  · have ids : (claimBatch settings.batchSize now s.journal).1.map (·.id) = s.journalIds :=
      claimBatch_ids
    have held : ((claimBatch settings.batchSize now s.journal).2.map (·.id)).Sublist s.journalIds := by
      rw [← ids]
      exact filter_sublist.map _
    refine ⟨sound.fresh, ?_, ?_, ?_, sound.unfinished, ?_, ?_, sound.pending⟩
    · rintro id (task | batch | row | finished)
      · exact sound.known id (.inl task)
      · exact sound.known id (.inr (.inr (.inl (held.subset batch))))
      · exact sound.known id (.inr (.inr (.inl (ids ▸ row))))
      · exact sound.known id (.inr (.inr (.inr finished)))
    · change (s.taskIds ++ List.map _ _).Nodup
      rw [ids]
      exact sound.tasks_journal
    · exact sound.tasks_journal.sublist ((List.Sublist.refl _).append held)
    · intro e member done
      obtain ⟨e, here, rfl⟩ := mem_claimBatch_iff.mp member
      split at done
      · cases done
      · next left =>
          rw [if_neg left]
          exact sound.completed e here done
    · intro some_held
      obtain ⟨e, member⟩ := exists_mem_of_ne_nil _ some_held
      exact pos_of_mem_claimIds (exists_mem_returned_iff.mp ⟨e, member, rfl⟩)
  · exact sound

lemma settle_ids :
    (settle settings e error now rows).map (·.id) = rows.map (·.id) := by
  cases error <;> exact updateStatus_ids

lemma completed_of_mem_settle {e' : JournalEntry}
    (member : e' ∈ settle settings e error now rows)
    (done : e'.status = .completed) : (error = none ∧ e'.id = e.id) ∨ e' ∈ rows := by
  cases error with
  | none =>
    rcases mem_updateStatus member with ⟨same, _⟩ | ⟨_, here⟩
    · exact .inl ⟨rfl, same⟩
    · exact .inr here
  | some message =>
    rcases mem_updateStatus member with ⟨_, status⟩ | ⟨_, here⟩
    · rw [done] at status
      split at status <;> cases status
    · exact .inr here

section
variable (sound : Sound settings s)
include sound

lemma sound_process (error : Option String) (now : Instant) (ok : Bool) :
    Sound settings (step settings s (.process error now ok)) := by
  dsimp only [step]
  split
  · exact sound
  · next e rest held =>
      have batch : s.batchIds = e.id :: rest.map (·.id) := by rw [State.batchIds, held, map_cons]
      have pos := sound.served fun none_held => by rw [held] at none_held; cases none_held
      have ids : ((if ok then settle settings e error now s.journal else s.journal).map (·.id)) =
          s.journalIds := by
        split
        · exact settle_ids
        · rfl
      obtain ⟨fresh, known, journal, apart, unfinished, completed, -, pending⟩ := sound
      refine ⟨fresh, ?_, ?_, ?_, ?_, ?_, fun _ => pos, pending⟩
      · intro id place
        change id ∈ s.taskIds ∨ id ∈ rest.map (·.id) ∨ id ∈ List.map _ _ ∨ _ at place
        grind
      · change (s.taskIds ++ List.map _ _).Nodup
        rw [ids]
        exact journal
      · change (s.taskIds ++ rest.map (·.id)).Nodup
        grind [nodup_append]
      · change ∀ id ∈ s.taskIds, _
        grind [nodup_append]
      · intro e' member done
        cases ok with
        | false => simpa using completed e' member done
        | true =>
          rcases completed_of_mem_settle member done with ⟨rfl, same⟩ | here
          · simp [same]
          · have := completed e' here done
            split
            · exact mem_cons_of_mem _ this
            · exact this

lemma sound_retryEntry (id : EntryId) (now : Instant) :
    Sound settings (step settings s (.retryEntry id now)) := by
  have ids : (step settings s (.retryEntry id now)).journalIds = s.journalIds := updateStatus_ids
  refine ⟨sound.fresh, ?_, ?_, sound.tasks_batch, sound.unfinished, ?_, sound.served, sound.pending⟩
  · intro id' place
    rw [ids] at place
    exact sound.known id' place
  · rw [ids]
    exact sound.tasks_journal
  · intro e member done
    rcases mem_updateStatus member with ⟨_, status⟩ | ⟨_, here⟩
    · rw [done] at status
      cases status
    · exact sound.completed e here done

lemma sound_step (ev : Event) : Sound settings (step settings s ev) := by
  cases ev with
  | commit op rules input => exact sound_commit sound op rules input
  | read i now => exact sound_read sound i now
  | insert i ok => exact sound_insert sound i ok
  | claim now => exact sound_claim sound now
  | process error now ok => exact sound_process sound error now ok
  | retryEntry id now => exact sound_retryEntry sound id now
  | purgeCompleted before | purgeAllOlder before =>
    exact sound.of_sublist rfl rfl rfl (.refl _) (.refl _) filter_sublist sound.pending
  | crash =>
    exact sound.of_sublist rfl rfl rfl (nil_sublist _) (nil_sublist _) (.refl _)
      fun _ => (nomatch ·)

section
variable (kept : Represented settings s)
include kept

lemma represented_commit
    (op : Operation) (rules : List ReplicationRule) (input : EmitInput) :
    Represented settings (step settings s (.commit op rules input)) ↔
      Keeps settings s (.commit op rules input) := by
  rw [represented_iff] at kept ⊢
  dsimp only [Keeps]
  rw [← entryIds_eq_nil_iff (n := s.commits)]
  have tasks : (step settings s (.commit op rules input)).taskIds = s.taskIds ++
      if op.emits then entryIds s.commits rules { input with eventType := op.eventType } else [] := by
    simp only [step, State.taskIds]
    split <;> simp [Task.ids]
  constructor
  · intro after
    by_cases emits : op.emits
    · exact .inl emits
    · refine .inr (eq_nil_iff_forall_not_mem.mpr fun id new => ?_)
      have absent := sound.absent fun old => by
        have := sound.fresh id old
        have := fst_of_mem_entryIds new
        omega
      have here := after id (mem_append_right _ new)
      rw [State.Kept, tasks, if_neg emits, append_nil] at here
      rcases here with done | task | held | ⟨_, e, row, same, _⟩
      · exact absent.2.2.2 done
      · exact absent.1 task
      · exact absent.2.1 held
      · exact absent.2.2.1 (same ▸ mem_map_of_mem row)
  · intro emits id member
    rw [State.Kept, tasks]
    rcases mem_append.mp member with old | new
    · exact (kept id old).imp_right (.imp_left (mem_append_left _))
    · rcases emits with emits | none_owed
      · exact .inr (.inl (mem_append_right _ (by rwa [if_pos emits])))
      · rw [none_owed] at new
        cases new

lemma represented_forget
    {l r : List EntryId} (lost : List EntryId) (before : s.taskIds = l ++ (lost ++ r)) {tasks : List Task}
    (after : tasks.flatMap Task.ids = l ++ r) :
    Represented settings { s with tasks } ↔ lost = [] := by
  rw [represented_iff] at kept ⊢
  constructor
  · intro still
    refine eq_nil_iff_forall_not_mem.mpr fun id member => ?_
    have task : id ∈ s.taskIds := before ▸ by simp [member]
    have journal := sound.tasks_journal
    have batch := sound.tasks_batch
    rcases still id (sound.known id (.inl task)) with done | task' | held | ⟨_, e, row, same, _⟩
    · exact sound.unfinished id task done
    · change id ∈ tasks.flatMap Task.ids at task'
      grind [nodup_append]
    · change id ∈ s.batchIds at held
      grind [nodup_append]
    · have : id ∈ s.journalIds := same ▸ mem_map_of_mem row
      grind [nodup_append]
  · rintro rfl id owed
    refine (kept id owed).imp_right (.imp_left fun task => ?_)
    change id ∈ tasks.flatMap Task.ids
    rw [after]
    rwa [before, nil_append] at task

lemma represented_read (i : ℕ)
    (now : Option Instant) : Represented settings (step settings s (.read i now)) ↔
      Keeps settings s (.read i now) := by
  dsimp only [step, Keeps]
  split
  · next n rules input here =>
      obtain ⟨l, r, before, after⟩ := exists_around here
      have same : (∀ n' rules' input', s.tasks[i]? = some (.reading n' rules' input') →
          emittingRules rules' input' = []) ↔ emittingRules rules input = [] := by
        simp_all
      rw [same]
      cases now with
      | none =>
        refine (represented_forget sound kept _ before (after _)).trans ?_
        rw [Task.ids, entryIds_eq_nil_iff]
        simp
      | some now =>
        refine iff_of_true ?_ (.inl rfl)
        refine (represented_forget sound kept (l := l) [] ?_ (after _)).mpr rfl
        rw [nil_append, read_ids, Option.isSome_some, if_pos rfl]
        exact before
  · next other =>
      exact iff_of_true kept (.inr fun n rules input here => absurd here (other n rules input))

lemma represented_insert (i : ℕ)
    (ok : Bool) : Represented settings (step settings s (.insert i ok)) ↔
      Keeps settings s (.insert i ok) := by
  dsimp only [step, Keeps]
  split
  · next e rest here =>
      obtain ⟨l, r, before, after⟩ := exists_around here
      change s.taskIds = _ at before
      have same : (∀ e' rest', s.tasks[i]? = some (.inserting (e' :: rest')) →
          ok ∧ 0 < settings.batchSize) ↔ ok ∧ 0 < settings.batchSize :=
        ⟨fun all => all e rest here, fun good _ _ _ => good⟩
      rw [same]
      cases ok with
      | false =>
        refine (represented_forget sound kept (r := rest.map (·.id) ++ r) [e.id]
          before (after _)).trans ?_
        simp
      | true =>
        have new := sound.pending _ (mem_of_getElem? here) e mem_cons_self
        have task : e.id ∈ s.taskIds := by rw [before]; simp [Task.ids]
        have journal := sound.tasks_journal
        have batch := sound.tasks_batch
        rw [before, Task.ids, map_cons] at journal batch
        rw [represented_iff] at kept ⊢
        constructor
        · intro still
          rcases still e.id (sound.known _ (.inl task)) with done | left | held | ⟨pos, _⟩
          · exact absurd done (sound.unfinished _ task)
          · change e.id ∈ (s.tasks.set i _).flatMap Task.ids at left
            rw [after, Task.ids] at left
            grind [nodup_append]
          · change e.id ∈ s.batchIds at held
            grind [nodup_append]
          · exact ⟨rfl, pos⟩
        · rintro ⟨-, pos⟩ id owed
          rcases kept id owed with done | task' | held | ⟨_, e', row, named⟩
          · exact .inl done
          · by_cases first : id = e.id
            · refine .inr (.inr (.inr ⟨pos, e, mem_append_right _ mem_cons_self,
                first.symm, ?_⟩))
              rw [JournalEntry.waiting, new]
              rfl
            · refine .inr (.inl ?_)
              change id ∈ (s.tasks.set i _).flatMap Task.ids
              rw [after]
              rw [before, Task.ids, map_cons] at task'
              simpa [Task.ids, first] using task'
          · exact .inr (.inr (.inl held))
          · exact .inr (.inr (.inr ⟨pos, e', mem_append_left _ row, named⟩))
  · next other =>
      exact iff_of_true kept fun e rest here => absurd here (other e rest)

end

end

lemma represented_claim (kept : Represented settings s) (now : Instant) :
    Represented settings (step settings s (.claim now)) := by
  dsimp only [step]
  split
  · next free =>
      rw [represented_iff] at kept ⊢
      intro id owed
      rcases kept id owed with done | task | held | ⟨pos, e, row, rfl, waits⟩
      · exact .inl done
      · exact .inr (.inl task)
      · rw [State.batchIds, free] at held
        cases held
      · by_cases selected : e.id ∈ claimIds settings.batchSize now s.journal
        · obtain ⟨e', returned, same⟩ := exists_mem_returned_iff.mpr selected
          exact .inr (.inr (.inl (mem_map.mpr ⟨e', returned, same⟩)))
        · exact .inr (.inr (.inr ⟨pos, e, mem_claimBatch_of_not_mem row selected, rfl, waits⟩))
  · exact kept

lemma waiting_settle (again : id = e.id → error ≠ none)
    (there : (id = e.id ∧ id ∈ s.journalIds) ∨ ∃ e ∈ s.journal, e.id = id ∧ e.waiting) :
    ∃ e' ∈ settle settings e error now s.journal, e'.id = id ∧ e'.waiting := by
  cases error with
  | none => exact waiting_updateStatus (fun same => absurd rfl (again same)) there
  | some message =>
    refine waiting_updateStatus (fun _ => ?_) there
    split
    · exact .inr rfl
    · exact .inl rfl

section
variable (kept : Represented settings s)
include kept

lemma represented_process (sound : Sound settings s)
    (error : Option String) (now : Instant) (ok : Bool) :
    Represented settings (step settings s (.process error now ok)) ↔
      Keeps settings s (.process error now ok) := by
  dsimp only [step, Keeps]
  split
  · next free => exact iff_of_true kept fun e rest held => by rw [free] at held; cases held
  · next e rest held =>
      have here : e.id ∈ s.batchIds := by rw [State.batchIds, held]; exact mem_cons_self
      have pos := sound.served fun free => by rw [free] at held; cases held
      have apart := sound.tasks_batch
      rw [State.batchIds, held, map_cons] at apart
      rw [represented_iff] at kept ⊢
      constructor
      · intro still e' rest' held'
        obtain ⟨rfl, rfl⟩ := cons.inj (held.symm.trans held')
        rcases still e.id (sound.known _ (.inr (.inl here))) with done | task | again | ⟨_, r, row, same, waits⟩
        · dsimp only at done
          split at done
          · next good => exact .inr ⟨good.2, .inl good.1⟩
          · exact .inl (.inl done)
        · change e.id ∈ s.taskIds at task
          grind [nodup_append]
        · change e.id ∈ rest.map (·.id) at again
          grind [nodup_append]
        · dsimp only at row
          split at row
          · next good =>
              refine .inr ⟨good, .inr ?_⟩
              rw [State.journalIds, ← settle_ids, ← same]
              exact mem_map_of_mem row
          · exact .inl (.inr ⟨r, row, same, waits⟩)
      · intro good id owed
        -- the entry itself by what is known of it, every other one as before
        by_cases own : id = e.id
        · subst own
          by_cases finishes : error = none ∧ ok
          · refine .inl ?_
            rw [if_pos finishes]
            exact mem_cons_self
          · rcases good e rest held with (done | waits) | ⟨good, done | row⟩
            · refine .inl ?_
              rwa [if_neg finishes]
            · refine .inr (.inr (.inr ⟨pos, ?_⟩))
              dsimp only
              split
              · next good =>
                  exact waiting_settle (fun _ none_failed => finishes ⟨none_failed, good⟩) (.inr waits)
              · exact waits
            · exact absurd ⟨done, good⟩ finishes
            · refine .inr (.inr (.inr ⟨pos, ?_⟩))
              rw [if_pos good]
              exact waiting_settle (fun _ none_failed => finishes ⟨none_failed, good⟩)
                (.inl ⟨rfl, row⟩)
        · rcases kept id owed with done | task | batch | ⟨_, waits⟩
          · refine .inl ?_
            split
            · exact mem_cons_of_mem _ done
            · exact done
          · exact .inr (.inl task)
          · rw [State.batchIds, held, map_cons] at batch
            exact .inr (.inr (.inl ((mem_cons.mp batch).resolve_left own)))
          · refine .inr (.inr (.inr ⟨pos, ?_⟩))
            dsimp only
            split
            · exact waiting_settle (fun same => absurd same own) (.inr waits)
            · exact waits

lemma represented_retryEntry (id : EntryId) (now : Instant) :
    Represented settings (step settings s (.retryEntry id now)) := by
  rw [represented_iff] at kept ⊢
  intro id' owed
  refine (kept id' owed).imp_right (.imp_right (.imp_right (.imp_right fun waits => ?_)))
  exact waiting_updateStatus (fun _ => .inl rfl) (.inr waits)

lemma represented_purgeCompleted (before : Instant) :
    Represented settings (step settings s (.purgeCompleted before)) := by
  rw [represented_iff] at kept ⊢
  intro id owed
  refine (kept id owed).imp_right (.imp_right (.imp_right (.imp_right ?_)))
  rintro ⟨e, row, same, waits⟩
  refine ⟨e, mem_filter.mpr ⟨row, ?_⟩, same, waits⟩
  have unfinished : e.status ≠ .completed := fun done => by
    rw [JournalEntry.waiting, done] at waits
    cases waits
  simp [unfinished]

lemma represented_purgeAllOlder (sound : Sound settings s)
    (before : Instant) : Represented settings (step settings s (.purgeAllOlder before)) ↔
      Keeps settings s (.purgeAllOlder before) := by
  rw [represented_iff] at kept ⊢
  constructor
  · intro still e row old
    have named : e.id ∈ s.journalIds := mem_map_of_mem row
    have apart := sound.tasks_journal
    rcases still e.id (sound.known _ (.inr (.inr (.inl named)))) with
      done | task | held | ⟨_, e', left, same, _⟩
    · exact .inl done
    · change e.id ∈ s.taskIds at task
      grind [nodup_append]
    · exact .inr held
    · obtain ⟨row', young⟩ := mem_filter.mp left
      have := inj_on_of_nodup_map (nodup_append.mp apart).2.1 row' row same
      simp [this, old] at young
  · intro good id owed
    rcases kept id owed with done | task | held | ⟨pos, e, row, rfl, waits⟩
    · exact .inl done
    · exact .inr (.inl task)
    · exact .inr (.inr (.inl held))
    · by_cases old : e.updatedAt < before
      · exact (good e row old).imp_right (.inr ∘ .inl)
      · exact .inr (.inr (.inr ⟨pos, e, mem_filter.mpr ⟨row, by simp [old]⟩, rfl, waits⟩))

lemma represented_crash (sound : Sound settings s) :
    Represented settings (step settings s .crash) ↔ Keeps settings s .crash := by
  rw [represented_iff] at kept ⊢
  constructor
  · intro still
    constructor
    · refine eq_nil_iff_forall_not_mem.mpr fun id task => ?_
      have apart := sound.tasks_journal
      rcases still id (sound.known _ (.inl task)) with done | task' | held | ⟨_, e, row, same, _⟩
      · exact sound.unfinished id task done
      · cases task'
      · cases held
      · have : id ∈ s.journalIds := same ▸ mem_map_of_mem row
        grind [nodup_append]
    · intro e held
      have known := sound.known e.id (.inr (.inl (mem_map_of_mem held)))
      rcases still e.id known with done | task | held' | ⟨_, waits⟩
      · exact .inl done
      · cases task
      · cases held'
      · exact .inr waits
  · rintro ⟨idle, settled⟩ id owed
    rcases kept id owed with done | task | held | waits
    · exact .inl done
    · rw [idle] at task
      cases task
    · obtain ⟨e, member, rfl⟩ := mem_map.mp held
      have pos := sound.served (ne_nil_of_mem member)
      exact (settled e member).imp_right fun waits => .inr (.inr ⟨pos, waits⟩)
    · exact .inr (.inr (.inr waits))

lemma represented_step (sound : Sound settings s) (ev : Event) :
    Represented settings (step settings s ev) ↔ Keeps settings s ev := by
  cases ev with
  | commit op rules input => exact represented_commit sound kept op rules input
  | read i now => exact represented_read sound kept i now
  | insert i ok => exact represented_insert sound kept i ok
  | claim now => exact iff_of_true (represented_claim kept now) trivial
  | process error now ok => exact represented_process kept sound error now ok
  | retryEntry id now => exact iff_of_true (represented_retryEntry kept id now) trivial
  | purgeCompleted before => exact iff_of_true (represented_purgeCompleted kept before) trivial
  | purgeAllOlder before => exact represented_purgeAllOlder kept sound before
  | crash => exact represented_crash kept sound

end

end

/-- Over every run, what is owed stays represented exactly when no step is one of
those that lose an entry. -/
theorem stays_represented_iff (settings : Settings) (events : List Event) :
    Run.Always (step settings) (Represented settings) start events ↔
      Run.Each (step settings) (Keeps settings) start events := by
  refine Run.always_iff_each_of_invariant
    (I := fun s => Sound settings s ∧ Represented settings s) (fun _ h => h.2) ?_ ?_
    ⟨sound_start settings, fun _ => (nomatch ·)⟩ events
  · rintro s ev ⟨sound, kept⟩ good
    exact ⟨sound_step sound ev, (represented_step kept sound ev).mpr good⟩
  · rintro s ev ⟨sound, kept⟩ bad still
    exact bad ((represented_step kept sound ev).mp still)

/-- **The outbox makes nothing up and inserts nothing twice**, across crashes too. -/
theorem outbox_sound (settings : Settings) (events : List Event) :
    Run.Always (step settings) (Sound settings) start events :=
  Run.always_of_step (P := Sound settings) (fun _ ev h => sound_step h ev) (sound_start settings) events

def rule : ReplicationRule where
  id := "r"
  status := .enabled
  filter := .empty
  destination := ⟨"copy", "https://replica.example.com", "us-east-1", "c"⟩
  deleteMarkerReplication := .enabled

def written : EmitInput := ⟨"b", "k", none, .put, [], []⟩

def defaults : Settings := ⟨100, 10, 5⟩

/-- A put is committed and journaled, the worker claims its entry, and the server
crashes. The entry stays in flight for good. -/
theorem claimed_entry_lost : ¬ Represented defaults
    ([.commit .putObject [rule] written, .read 0 (some 0), .insert 0 true, .claim 0, .crash].foldl
      (step defaults) start) := by
  rw [represented_iff]
  intro kept
  have lost := kept (0, 0) (by decide +kernel)
  revert lost
  unfold State.Kept
  decide +kernel

end Arca.Replication.Outbox
