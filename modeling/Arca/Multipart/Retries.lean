import Arca.Multipart.Ownership

/-!
# Which complete requests succeed

A complete request whose upload is gone is answered from the current object of
the key. Here a run is any history: requests on any uploads, other writes and
deletes of objects, and operations received from peers.
-/
namespace Arca.Multipart
open ObjectTable

def Phase.answer : Phase → Option Reply
  | .discarding reply _ | .done reply => some reply
  | _ => none

section
variable (s : Node)

def CommittedAs (bucket key u etag : String) : Prop :=
  ∃ c ∈ s.completed, c.bucket = bucket ∧ c.key = key ∧ c.uploadId = u ∧ c.etag = etag

instance (s : Node) (bucket key u etag : String) : Decidable (CommittedAs s bucket key u etag) :=
  inferInstanceAs (Decidable (∃ c ∈ s.completed, _))

/-- A complete request that succeeds gives the ETag of the object of its upload. -/
def Answered (job : Job) : Prop :=
  ∀ bucket key u request etag, job.call = .complete bucket key u request →
    job.phase.answer = some (.ok etag) → CommittedAs s bucket key u etag

def Honest : Prop := ∀ (i : Nat) (job : Job), s.jobs[i]? = some job → Answered s job

/-- When a request finds its upload gone and the key has a multipart object, that
object has the ETag of one the same upload was committed as. -/
def Recorded : Event → Prop
  | .read i => ∀ bucket key u request r,
      s.jobs[i]? = some ⟨.complete bucket key u request, .retrying⟩ →
      fetchCurrentObject bucket key s.table.rows = some r → '-' ∈ r.etag.toList →
      CommittedAs s bucket key u r.etag
  | _ => True

def PathOk (job : Job) : Prop :=
  ∀ bucket key u request, job.call = .complete bucket key u request →
    match job.phase with
    | .checking upload | .listing upload | .assembling upload _ _ =>
      upload.bucket = bucket ∧ upload.key = key
    | .assembled _ record _ => record.bucket = bucket ∧ record.key = key
    | .stored _ => False
    | _ => True

def Paths : Prop := ∀ (i : Nat) (job : Job), s.jobs[i]? = some job → PathOk job

end

variable {a : Assembler} {s s' : Node} {i : Nat} {job : Job} {phase : Phase}

lemma answered_of_none {call : Call} (h : phase.answer = none) : Answered s ⟨call, phase⟩ := by
  intro bucket key u request etag _ answer
  cases h.symm.trans answer

lemma Answered.mono (grows : ∀ c ∈ s.completed, c ∈ s'.completed) (h : Answered s job) :
    Answered s' job := by
  intro bucket key u request etag call answer
  obtain ⟨c, mem, same⟩ := h bucket key u request etag call answer
  exact ⟨c, grows c mem, same⟩

lemma honest_goes (h : Honest s) (goes : Goes s s' i job phase)
    (grows : ∀ c ∈ s.completed, c ∈ s'.completed) :
    Honest s' ↔ Answered s' { job with phase := phase } := by
  constructor
  · intro after
    refine after i _ ?_
    rw [goes.jobs, getElem?_setPhase goes.here, if_pos rfl]
  · intro own k job' at_k
    rw [goes.jobs, getElem?_setPhase goes.here] at at_k
    split at at_k
    · cases at_k
      exact own
    · exact (h k job' at_k).mono grows

lemma paths_goes (h : Paths s) (goes : Goes s s' i job phase)
    (own : PathOk { job with phase := phase }) : Paths s' := by
  intro k job' at_k
  rw [goes.jobs, getElem?_setPhase goes.here] at at_k
  split at at_k
  · cases at_k
    exact own
  · exact h k job' at_k

lemma paths_read (h : Paths s) (here : s.jobs[i]? = some job) :
    Paths (s.setPhase i job (s.look a job)) := by
  have before := h i job here
  refine paths_goes h ⟨here, rfl⟩ ?_
  have looks := looks_look (a := a) (s := s) job
  generalize s.look a job = next at looks
  intro bucket key u request call
  cases looks with
  | same => exact before bucket key u request call
  | checking call' found =>
    cases call.symm.trans call'
    exact found.2
  | listing call' phase | assembling call' phase selected =>
    have now := before bucket key u request call
    rwa [phase] at now
  | refused | receiving | retrying | answered | closing => trivial

lemma paths_step (h : Paths s) (e : Event) : Paths (step a s e) := by
  have moves := moves_step (a := a) (s := s) e
  generalize step a s e = s' at moves
  cases moves with
  | stay | create | receivePart | receiveUpload | receiveClose | objects => exact h
  | arrive call =>
    intro k job at_k
    rcases job_of_arrive at_k with old | rfl
    · exact h k job old
    · exact fun _ _ _ _ _ => trivial
  | read here => exact paths_read h here
  | store blobId body now here phase part =>
    refine paths_goes h ⟨here, rfl⟩ fun bucket key u request call => ?_
    rw [call] at part
    cases part
  | giveUp here phase left | commitPart uuid here phase | close uuid here phase
  | discard here phase mem | discardAssembled blobId here phase =>
    exact paths_goes h ⟨here, rfl⟩ fun _ _ _ _ _ => trivial
  | assemble here phase call assembled written tag =>
    refine paths_goes h ⟨here, rfl⟩ fun bucket key u request call' => ?_
    have now := h _ _ here bucket key u request call'
    rw [phase] at now
    rw [written]
    exact now
  | commitObject uuid here phase call =>
    unfold Node.commitObject
    split
    · exact paths_goes h ⟨here, rfl⟩ fun _ _ _ _ _ => trivial
    · split
      · exact paths_goes h ⟨here, rfl⟩ fun _ _ _ _ _ => trivial
      · exact paths_goes h ⟨here, rfl⟩ fun _ _ _ _ _ => trivial
  | @fail i job here =>
    refine paths_goes h ⟨here, rfl⟩ fun _ _ _ _ _ => ?_
    cases job.phase <;> trivial

lemma honest_read (h : Honest s) (here : s.jobs[i]? = some job) :
    Honest (s.setPhase i job (s.look a job)) ↔ Recorded s (.read i) := by
  rw [honest_goes h ⟨here, rfl⟩ fun _ mem => mem]
  constructor
  · intro own bucket key u request r at_i current dash
    cases here.symm.trans at_i
    refine own bucket key u request r.etag rfl ?_
    simp [Node.look, current, dash, Phase.answer]
  · intro recorded
    have before := h i job here
    have looks := looks_look (a := a) (s := s) job
    generalize s.look a job = next at looks
    cases looks with
    | same => exact before
    | refused code => exact fun _ _ _ _ _ _ answer => nomatch answer
    | @answered bucket key u request r call phase current dash =>
      intro bucket' key' u' request' etag call' answer
      cases call.symm.trans call'
      cases answer
      refine recorded bucket key u request r ?_ current dash
      rw [here, ← call, ← phase]
    | receiving | retrying | checking | listing | assembling | closing => exact answered_of_none rfl

lemma honest_other (h : Honest s) (paths : Paths s) {e : Event} (other : ∀ i, e ≠ .read i) :
    Honest (step a s e) := by
  have moves := moves_step (a := a) (s := s) e
  generalize step a s e = s' at moves
  have silent : ∀ {i : Nat} {job : Job} {phase : Phase} {s' : Node}, Goes s s' i job phase →
      (∀ c ∈ s.completed, c ∈ s'.completed) → (∀ etag, phase.answer ≠ some (.ok etag)) → Honest s' :=
    fun goes grows quiet => (honest_goes h goes grows).mpr fun _ _ _ _ etag _ answer =>
      absurd answer (quiet etag)
  cases moves with
  | stay | create | receivePart | receiveUpload | receiveClose | objects => exact h
  | read here => exact absurd rfl (other _)
  | arrive call =>
    intro k job at_k
    rcases job_of_arrive at_k with old | rfl
    · exact h k job old
    · exact answered_of_none rfl
  | store blobId body now here phase part | giveUp here phase left | close uuid here phase
  | discardAssembled blobId here phase => exact silent ⟨here, rfl⟩ (fun _ mem => mem) fun _ => nofun
  | assemble here phase call assembled written tag =>
    exact silent ⟨here, rfl⟩ (fun _ mem => mem) fun _ => nofun
  | @commitPart i job part uuid here phase =>
    refine (honest_goes h (steps_commitPart here part).toGoes fun _ mem => mem).mpr ?_
    intro bucket key u request etag call answer
    have now := paths i job here bucket key u request call
    rw [phase] at now
    exact now.elim
  | @commitObject i job matched record composite bucket key u request uuid here phase call =>
    unfold Node.commitObject
    split
    · exact silent ⟨here, rfl⟩ (fun _ mem => mem) fun _ => nofun
    · split
      · exact silent ⟨here, rfl⟩ (fun _ mem => mem) fun _ => nofun
      · next table installed =>
          have goes := (steps_install here u request record composite table).toGoes
          refine (honest_goes h goes fun c mem => List.mem_append_left _ mem).mpr ?_
          intro bucket' key' u' request' etag call' answer
          cases call.symm.trans call'
          cases answer
          have path := paths i job here bucket key u request call
          rw [phase] at path
          exact ⟨_, List.mem_append_right _ (List.mem_singleton_self _), path.1, path.2, rfl, rfl⟩
  | @discard i job reply blobs blobId here phase mem =>
    refine (honest_goes h ⟨here, rfl⟩ fun _ mem => mem).mpr ?_
    intro bucket key u request etag call answer
    refine h i job here bucket key u request etag call ?_
    rw [phase]
    exact answer
  | @fail i job here =>
    refine (honest_goes h ⟨here, rfl⟩ fun _ mem => mem).mpr ?_
    intro bucket key u request etag call answer
    refine h i job here bucket key u request etag call ?_
    revert answer
    cases job.phase <;> simp [Phase.fail, Phase.answer]

lemma honest_step (h : Honest s) (paths : Paths s) (e : Event) :
    Honest (step a s e) ↔ Recorded s e := by
  by_cases read : ∃ i, e = .read i
  · obtain ⟨i, rfl⟩ := read
    unfold step
    dsimp only
    cases here : s.jobs[i]? with
    | none =>
      refine iff_of_true h ?_
      intro bucket key u request r at_i
      cases here.symm.trans at_i
    | some job => exact honest_read h here
  · rw [not_exists] at read
    refine iff_of_true (honest_other h paths read) ?_
    cases e with
    | read i => exact absurd rfl (read i)
    | _ => trivial

/-- A complete request succeeds only for an upload that was committed, exactly when no request
whose upload is gone meets the multipart object of another. -/
theorem complete_honest_iff (a : Assembler) {s : Node} (idle : s.jobs = []) (es : List Event) :
    Run.Always (step a) Honest s es ↔ Run.Each (step a) Recorded s es := by
  have honest : Honest s := fun i job here => by simp [idle] at here
  have paths : Paths s := fun i job here => by simp [idle] at here
  rw [← Run.always_and_iff (Q := Paths) (fun s e h => paths_step h e) paths]
  refine Run.always_iff_each (fun s e h => ?_) ⟨honest, paths⟩ es
  rw [honest_step h.1 h.2]
  exact ⟨fun after => after.1, fun recorded => ⟨recorded, paths_step h.2 e⟩⟩

def otherUpload : MultipartUploadRecord := { opened with uploadId := "w" }

/-- Two uploads for one key: w is completed, u is aborted, and u is completed. -/
def abortedThenCompleted : List Event :=
  [.create otherUpload,
    .arrive (.uploadPart "b" "k" "w" 1), .read 0, .store 0 "A" onePart 1, .commit 0 "",
    .arrive (.complete "b" "k" "w" completePart), .read 1, .read 1, .read 1, .assemble 1 "F" none 2,
    .commit 1 "",
    .arrive (.abort "u"), .read 2, .commit 2 "",
    .arrive (.complete "b" "k" "u" completePart), .read 3, .read 3]

theorem complete_honest_iff_aborted : emptyNode.jobs = [] ∧
    (Run.Always (step plainAssembler) Honest emptyNode abortedThenCompleted ↔
      Run.Each (step plainAssembler) Recorded emptyNode abortedThenCompleted) :=
  ⟨rfl, complete_honest_iff plainAssembler rfl abortedThenCompleted⟩

/-- The request for the aborted upload succeeds with the ETag of the other one. -/
theorem aborted_upload_completes :
    (abortedThenCompleted.foldl (step plainAssembler) emptyNode).jobs[3]? =
        some ⟨.complete "b" "k" "u" completePart, .done (.ok "-1")⟩ ∧
      (abortedThenCompleted.foldl (step plainAssembler) emptyNode).completed.map Completed.uploadId =
        ["w"] := by
  decide +kernel

end Arca.Multipart
