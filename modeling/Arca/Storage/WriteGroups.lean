import Mathlib

/-!
# Group commit of the SQLite writer

The committer takes the writes that have queued up and runs them in one transaction,
each under a savepoint of its own. Here every statement around a write may fail, a
write may fail or panic with part of its work done, and SQLite may end the whole
transaction under it.
-/
namespace Arca.WriteGroups
open List Option
variable {σ ρ ε : Type*}

/-- An open transaction: what it has written so far and its savepoints, the last one first. -/
structure Transaction (σ : Type*) where
  working : σ
  saved : List σ

namespace Transaction

def savepoint (t : Transaction σ) : Transaction σ := { t with saved := t.working :: t.saved }

def release (t : Transaction σ) : Transaction σ := { t with saved := t.saved.tail }

def rollbackTo (t : Transaction σ) : Transaction σ := { t with working := t.saved.headD t.working }

end Transaction

/-- What running a write comes to; `autocommit` is set after an I/O error. -/
structure Ran (σ ρ ε : Type*) where
  state : σ
  result : Option (Except ε ρ)
  autocommit : Bool

inductive Outcome (ρ ε : Type*) where
  | pending
  | done (result : Except ε ρ)
  | panicked

inductive WriteError (ε : Type*) where
  | write (e : ε)
  | group (message : String)

abbrev Reply (ρ ε : Type*) := Except (WriteError ε) ρ

structure Job (σ ρ ε : Type*) where
  write : σ → Ran σ ρ ε
  savepointError : Option String
  rollbackError : Option String
  releaseError : Option String

/-- `catch_unwind` makes an outcome of a panic. -/
def Ran.outcome (ran : Ran σ ρ ε) : Outcome ρ ε :=
  match ran.result with
  | some result => .done result
  | none => .panicked

def Ran.isOk (ran : Ran σ ρ ε) : Bool :=
  match ran.result with
  | some (.ok _) => true
  | _ => false

def unreached (jobs : List (Job σ ρ ε)) : List (Outcome ρ ε) := jobs.map fun _ => .pending

/-- The loop of `commit_group`; an error ends it and drops the transaction. -/
def runJobs (t : Transaction σ) :
    List (Job σ ρ ε) → Except String (Transaction σ) × List (Outcome ρ ε)
  | [] => (.ok t, [])
  | job :: jobs =>
    match job.savepointError with
    | some e => (.error ("SAVEPOINT: " ++ e), .pending :: unreached jobs)
    | none =>
      let t := t.savepoint
      let ran := job.write t.working
      let t := { t with working := ran.state }
      if ran.autocommit then
        (.error "the transaction was rolled back by a failed write",
          ran.outcome :: unreached jobs)
      else if ran.isOk then
        match job.releaseError with
        | some e => (.error ("RELEASE: " ++ e), ran.outcome :: unreached jobs)
        | none =>
          let (result, outcomes) := runJobs t.release jobs
          (result, ran.outcome :: outcomes)
      else
        match job.rollbackError with
        | some e => (.error ("ROLLBACK TO: " ++ e), ran.outcome :: unreached jobs)
        | none =>
          let t := t.rollbackTo
          match job.releaseError with
          | some e => (.error ("RELEASE: " ++ e), ran.outcome :: unreached jobs)
          | none =>
            let (result, outcomes) := runJobs t.release jobs
            (result, ran.outcome :: outcomes)

structure Group (σ ρ ε : Type*) where
  jobs : List (Job σ ρ ε)
  closed : Bool
  beginError : Option String
  commitError : Option String

/-- A transaction that is not committed is rolled back when it is dropped, and a COMMIT
that fails leaves nothing durable. -/
def commitGroup (durable : σ) (g : Group σ ρ ε) : Except String σ × List (Outcome ρ ε) :=
  match g.beginError with
  | some e => (.error ("BEGIN: " ++ e), unreached g.jobs)
  | none =>
    match runJobs ⟨durable, []⟩ g.jobs with
    | (.error message, outcomes) => (.error message, outcomes)
    | (.ok t, outcomes) =>
      match g.commitError with
      | some e => (.error ("COMMIT: " ++ e), outcomes)
      | none => (.ok t.working, outcomes)

/-- The answer to a caller; `none` where the code is `unreachable!`. -/
def finish (outcome : Outcome ρ ε) (group : Except String Unit) : Option (Reply ρ ε) :=
  match outcome, group with
  | .done (.error e), _ => some (.error (.write e))
  | .done (.ok r), .ok () => some (.ok r)
  | .panicked, _ => some (.error (.group "the write panicked"))
  | _, .error message => some (.error (.group message))
  | .pending, .ok () => none

/-- One turn of `run_groups`. On a closed connection the jobs are dropped, and each caller
finds its channel closed. -/
def runGroup (durable : σ) (g : Group σ ρ ε) : σ × List (Option (Reply ρ ε)) :=
  if g.closed then
    (durable, g.jobs.map fun _ =>
      some (.error (.group "the write group was dropped: writer connection closed")))
  else
    let (result, outcomes) := commitGroup durable g
    (result.toOption.getD durable, outcomes.map (finish · (result.map fun _ => ())))

def runGroups (durable : σ) : List (Group σ ρ ε) → σ × List (List (Option (Reply ρ ε)))
  | [] => (durable, [])
  | g :: groups =>
    let (d, replies) := runGroup durable g
    let (d', rest) := runGroups d groups
    (d', replies :: rest)

/-- The writes take effect one after another, each in a transaction of its own, and
return these results. -/
inductive Replays : σ → List (Job σ ρ ε × ρ) → σ → Prop where
  | nil {d : σ} : Replays d [] d
  | cons {d d' d'' : σ} {job : Job σ ρ ε} {r : ρ} {rest : List (Job σ ρ ε × ρ)}
      (ran : job.write d = ⟨d', some (.ok r), false⟩) (rest_replays : Replays d' rest d'') :
      Replays d ((job, r) :: rest) d''

/-- The jobs that were told they succeeded, with what they were told. -/
def succeeded (jobs : List (Job σ ρ ε)) (replies : List (Option (Reply ρ ε))) :
    List (Job σ ρ ε × ρ) :=
  (jobs.zip replies).filterMap fun (job, reply) =>
    match reply with
    | some (.ok r) => some (job, r)
    | _ => none

/-- The group is reported failed and has left nothing. -/
def Failed (d : σ) (result : σ × List (Option (Reply ρ ε))) : Prop :=
  result.1 = d ∧ ∀ reply ∈ result.2, ∃ e, reply = some (.error e)

/-- What becomes of the neighbours of a job that does not succeed. -/
def Unharmed (d : σ) (g : Group σ ρ ε) : Prop :=
  ∀ before job after, g.jobs = before ++ job :: after →
    (∀ r, (runGroup d g).2[before.length]? ≠ some (some (.ok r))) →
    Failed d (runGroup d g) ∨
      ((runGroup d g).1 = (runGroup d { g with jobs := before ++ after }).1 ∧
        (runGroup d g).2.eraseIdx before.length =
          (runGroup d { g with jobs := before ++ after }).2)

/-- A job seen from outside its savepoint: it ends the group, or leaves the data for the
next job. -/
def turn (d : σ) (job : Job σ ρ ε) : Except (String × Outcome ρ ε) (σ × Outcome ρ ε) :=
  let ran := job.write d
  match job.savepointError with
  | some e => .error ("SAVEPOINT: " ++ e, .pending)
  | none =>
    if ran.autocommit then
      .error ("the transaction was rolled back by a failed write", ran.outcome)
    else if ran.isOk then
      match job.releaseError with
      | some e => .error ("RELEASE: " ++ e, ran.outcome)
      | none => .ok (ran.state, ran.outcome)
    else
      match job.rollbackError with
      | some e => .error ("ROLLBACK TO: " ++ e, ran.outcome)
      | none =>
        match job.releaseError with
        | some e => .error ("RELEASE: " ++ e, ran.outcome)
        | none => .ok (d, ran.outcome)

section
variable {d d' : σ} {saved : List σ} {job : Job σ ρ ε} {jobs : List (Job σ ρ ε)}
  {outcome : Outcome ρ ε}

lemma runJobs_cons : runJobs ⟨d, saved⟩ (job :: jobs) = match turn d job with
    | .error (message, outcome) => (.error message, outcome :: unreached jobs)
    | .ok (d', outcome) =>
      ((runJobs ⟨d', saved⟩ jobs).1, outcome :: (runJobs ⟨d', saved⟩ jobs).2) := by
  simp only [runJobs, turn, Transaction.savepoint]
  cases job.savepointError with
  | some e => rfl
  | none =>
    by_cases ended : (job.write d).autocommit
    · simp [ended]
    by_cases ok : (job.write d).isOk
    · simp only [ended, ok, if_true]
      cases job.releaseError <;> rfl
    · simp only [ended, ok]
      cases job.rollbackError with
      | some e => rfl
      | none => cases job.releaseError <;> rfl

/-- A job that has had its turn took effect as a whole, or failed and left nothing. -/
inductive Turned (d : σ) (job : Job σ ρ ε) : σ → Outcome ρ ε → Prop where
  | ok {d' : σ} {r : ρ} (ran : job.write d = ⟨d', some (.ok r), false⟩) :
      Turned d job d' (.done (.ok r))
  | failed {e : ε} : Turned d job d (.done (.error e))
  | panicked : Turned d job d .panicked

lemma turned_of_turn (h : turn d job = .ok (d', outcome)) : Turned d job d' outcome := by
  simp only [turn] at h
  split at h
  · cases h
  split at h
  · cases h
  next alive =>
  split at h
  · next ok =>
      split at h
      · cases h
      cases h
      rcases ran : job.write d with ⟨state, result, autocommit⟩
      rw [ran] at ok alive
      match result, ok with
      | some (.ok r), _ =>
        obtain rfl : autocommit = false := by simpa using alive
        exact .ok ran
  · next failed =>
      split at h
      · cases h
      split at h
      · cases h
      cases h
      rcases ran : job.write d with ⟨state, result, autocommit⟩
      rw [ran] at failed
      match result, failed with
      | some (.error e), _ => exact .failed
      | none, _ => exact .panicked

end

section
variable {d d' : σ} {jobs : List (Job σ ρ ε)} {t : Transaction σ} {outcomes : List (Outcome ρ ε)}

lemma length_runJobs (t : Transaction σ) (jobs : List (Job σ ρ ε)) :
    (runJobs t jobs).2.length = jobs.length := by
  induction jobs generalizing t with
  | nil => rfl
  | cons job jobs ih =>
    obtain ⟨working, saved⟩ := t
    rw [runJobs_cons]
    cases turn working job with
    | error stopped => simp [unreached]
    | ok went => simp [ih]

def taken (jobs : List (Job σ ρ ε)) (outcomes : List (Outcome ρ ε)) : List (Job σ ρ ε × ρ) :=
  (jobs.zip outcomes).filterMap fun (job, outcome) =>
    match outcome with
    | .done (.ok r) => some (job, r)
    | _ => none

/-- A loop that comes to its end has run every job, and the data is what those that
succeeded make of it one after another. -/
lemma replays_of_runJobs (h : runJobs ⟨d, []⟩ jobs = (.ok t, outcomes)) :
    Replays d (taken jobs outcomes) t.working ∧ ∀ o ∈ outcomes, o ≠ .pending := by
  induction jobs generalizing d outcomes with
  | nil =>
    cases h
    exact ⟨.nil, nofun⟩
  | cons job jobs ih =>
    rw [runJobs_cons] at h
    cases turned : turn d job with
    | error stopped => simp [turned] at h
    | ok went =>
      obtain ⟨d', outcome⟩ := went
      simp only [turned, Prod.mk.injEq] at h
      obtain ⟨ended, rfl⟩ := h
      obtain ⟨replays, reached⟩ := ih (Prod.ext ended rfl)
      cases turned_of_turn turned with
      | ok ran => exact ⟨.cons ran replays, by simpa using reached⟩
      | failed | panicked => exact ⟨replays, by simpa using reached⟩

/-- Without a job that failed, the others run as they did with it. -/
lemma runJobs_without {before after : List (Job σ ρ ε)} {job : Job σ ρ ε}
    (h : runJobs ⟨d, []⟩ (before ++ job :: after) = (.ok t, outcomes))
    (failed : ∀ r, outcomes[before.length]? ≠ some (.done (.ok r))) :
    runJobs ⟨d, []⟩ (before ++ after) = (.ok t, outcomes.eraseIdx before.length) := by
  induction before generalizing d outcomes with
  | nil =>
    rw [nil_append, runJobs_cons] at h
    cases turned : turn d job with
    | error stopped => simp [turned] at h
    | ok went =>
      obtain ⟨d', outcome⟩ := went
      simp only [turned, Prod.mk.injEq] at h
      obtain ⟨ended, rfl⟩ := h
      cases turned_of_turn turned with
      | ok ran => exact absurd rfl (failed _)
      | failed => exact Prod.ext ended rfl
      | panicked => exact Prod.ext ended rfl
  | cons first before ih =>
    rw [cons_append, runJobs_cons] at h
    rw [cons_append, runJobs_cons]
    cases turned : turn d first with
    | error stopped => simp [turned] at h
    | ok went =>
      simp only [turned, Prod.mk.injEq] at h
      obtain ⟨ended, rfl⟩ := h
      have rest := ih (Prod.ext ended rfl) failed
      simp only [rest]
      rfl

section
variable (d : σ) (g : Group σ ρ ε)

/-- How a group ends: it fails as a whole, or it is committed after all its jobs. -/
lemma commitGroup_cases : (∃ message, (commitGroup d g).1 = .error message) ∨
    ∃ t outcomes, g.beginError = none ∧ g.commitError = none ∧
      runJobs ⟨d, []⟩ g.jobs = (.ok t, outcomes) ∧ commitGroup d g = (.ok t.working, outcomes) := by
  unfold commitGroup
  cases begun : g.beginError with
  | some e => exact .inl ⟨_, rfl⟩
  | none =>
    rcases ran : runJobs ⟨d, []⟩ g.jobs with ⟨result, outcomes⟩
    cases result with
    | error message => exact .inl ⟨message, rfl⟩
    | ok t =>
      cases committed : g.commitError with
      | some e => exact .inl ⟨_, rfl⟩
      | none => exact .inr ⟨t, outcomes, rfl, rfl, rfl, rfl⟩

lemma length_commitGroup : (commitGroup d g).2.length = g.jobs.length := by
  have length := length_runJobs ⟨d, []⟩ g.jobs
  unfold commitGroup
  cases g.beginError with
  | some e => simp [unreached]
  | none =>
    rcases ran : runJobs ⟨d, []⟩ g.jobs with ⟨result, outcomes⟩
    rw [ran] at length
    cases result with
    | error message => exact length
    | ok t => cases g.commitError <;> exact length

lemma finish_error (outcome : Outcome ρ ε) (message : String) :
    ∃ e, finish outcome (.error message) = some (.error e) := by
  match outcome with
  | .pending => exact ⟨_, rfl⟩
  | .done (.ok r) => exact ⟨_, rfl⟩
  | .done (.error e) => exact ⟨_, rfl⟩
  | .panicked => exact ⟨_, rfl⟩

lemma succeeded_map_finish (jobs : List (Job σ ρ ε)) (outcomes : List (Outcome ρ ε)) :
    succeeded jobs (outcomes.map (finish · (.ok ()))) = taken jobs outcomes := by
  rw [succeeded, taken, zip_map_right, filterMap_map]
  refine filterMap_congr fun entry _ => ?_
  obtain ⟨job, outcome⟩ := entry
  match outcome with
  | .pending => rfl
  | .done (.ok r) => rfl
  | .done (.error e) => rfl
  | .panicked => rfl

lemma runGroup_cases : Failed d (runGroup d g) ∨
    ∃ t outcomes, g.closed = false ∧ g.beginError = none ∧ g.commitError = none ∧
      runJobs ⟨d, []⟩ g.jobs = (.ok t, outcomes) ∧
      runGroup d g = (t.working, outcomes.map (finish · (.ok ()))) := by
  unfold runGroup
  cases closed : g.closed with
  | true =>
    refine .inl ⟨rfl, fun reply mem => ?_⟩
    obtain ⟨_, -, rfl⟩ := mem_map.mp mem
    exact ⟨_, rfl⟩
  | false =>
    rcases commitGroup_cases d g with ⟨message, failed⟩ | ⟨t, outcomes, begun, committed, ran, done⟩
    · refine .inl ?_
      rcases result : commitGroup d g with ⟨outcome, outcomes⟩
      rw [result] at failed
      subst failed
      refine ⟨rfl, fun reply mem => ?_⟩
      obtain ⟨outcome, -, rfl⟩ := mem_map.mp mem
      exact finish_error outcome message
    · refine .inr ⟨t, outcomes, rfl, begun, committed, ran, ?_⟩
      rw [done]
      rfl

lemma length_runGroup : (runGroup d g).2.length = g.jobs.length := by
  unfold runGroup
  split
  · exact length_map ..
  · exact (length_map ..).trans (length_commitGroup d g)

lemma finish_ne_none {outcome : Outcome ρ ε} (reached : outcome ≠ .pending) :
    finish outcome (.ok ()) ≠ none := by
  match outcome, reached with
  | .done (.ok r), _ => exact some_ne_none _
  | .done (.error e), _ => exact some_ne_none _
  | .panicked, _ => exact some_ne_none _

lemma answered_runGroup : ∀ reply ∈ (runGroup d g).2, reply ≠ none := by
  intro reply mem
  rcases runGroup_cases d g with ⟨-, failed⟩ | ⟨t, outcomes, -, -, -, ran, done⟩
  · obtain ⟨e, rfl⟩ := failed reply mem
    exact some_ne_none _
  · rw [done] at mem
    obtain ⟨outcome, here, rfl⟩ := mem_map.mp mem
    exact finish_ne_none ((replays_of_runJobs ran).2 outcome here)

lemma succeeded_of_failed {replies : List (Option (Reply ρ ε))}
    (failed : ∀ reply ∈ replies, ∃ e, reply = some (.error e)) : succeeded jobs replies = [] := by
  rw [succeeded, filterMap_eq_nil_iff]
  rintro ⟨job, reply⟩ mem
  obtain ⟨e, rfl⟩ := failed reply (of_mem_zip mem).2
  rfl

lemma replays_runGroup : Replays d (succeeded g.jobs (runGroup d g).2) (runGroup d g).1 := by
  rcases runGroup_cases d g with ⟨unchanged, failed⟩ | ⟨t, outcomes, -, -, -, ran, done⟩
  · rw [succeeded_of_failed failed, unchanged]
    exact .nil
  · rw [done, succeeded_map_finish]
    exact (replays_of_runJobs ran).1

lemma unharmed : Unharmed d g := by
  intro before job after split failed
  rcases runGroup_cases d g with all_failed | ⟨t, outcomes, opened, begun, committed, ran, done⟩
  · exact .inl all_failed
  rw [split] at ran
  have not_done : ∀ r, outcomes[before.length]? ≠ some (.done (.ok r)) := by
    intro r here
    refine failed r ?_
    rw [done, getElem?_map, here]
    rfl
  have without := runJobs_without ran not_done
  have alone : runGroup d { g with jobs := before ++ after } =
      (t.working, (outcomes.eraseIdx before.length).map (finish · (.ok ()))) := by
    simp only [runGroup, commitGroup, opened, begun, committed, without]
    rfl
  refine .inr ?_
  rw [alone, done, eraseIdx_map]
  exact ⟨rfl, rfl⟩

lemma Replays.trans {d d' d'' : σ} {xs ys : List (Job σ ρ ε × ρ)} (h : Replays d xs d')
    (h' : Replays d' ys d'') : Replays d (xs ++ ys) d'' := by
  induction h with
  | nil => exact h'
  | cons ran _ ih => exact .cons ran (ih h')

lemma succeeded_append {jobs jobs' : List (Job σ ρ ε)} {replies replies' : List (Option (Reply ρ ε))}
    (length : replies.length = jobs.length) :
    succeeded (jobs ++ jobs') (replies ++ replies') =
      succeeded jobs replies ++ succeeded jobs' replies' := by
  rw [succeeded, zip_append length.symm, filterMap_append]
  rfl

variable (groups : List (Group σ ρ ε))

lemma replays_runGroups :
    Replays d (succeeded (groups.flatMap Group.jobs) (runGroups d groups).2.flatten)
      (runGroups d groups).1 := by
  induction groups generalizing d with
  | nil => exact .nil
  | cons g groups ih =>
    rw [flatMap_cons]
    simp only [runGroups, flatten_cons]
    rw [succeeded_append (length_runGroup d g)]
    exact (replays_runGroup d g).trans (ih _)

lemma answered_runGroups :
    (runGroups d groups).2.map List.length = groups.map (·.jobs.length) ∧
      ∀ reply ∈ (runGroups d groups).2.flatten, reply ≠ none := by
  induction groups generalizing d with
  | nil => exact ⟨rfl, nofun⟩
  | cons g groups ih =>
    obtain ⟨lengths, answered⟩ := ih (runGroup d g).1
    refine ⟨?_, fun reply mem => ?_⟩
    · simp only [runGroups, map_cons, length_runGroup, lengths]
    · simp only [runGroups, flatten_cons] at mem
      rcases mem_append.mp mem with here | later
      · exact answered_runGroup d g reply here
      · exact answered reply later

end

end

end Arca.WriteGroups
