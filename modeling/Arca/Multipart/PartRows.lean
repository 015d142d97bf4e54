import Arca.Multipart.Ownership

/-!
# Parts whose upload is gone

`put_part` writes the row of a part without a look at the upload. Any jobs, and
operations received from peers, run here in any interleaving.
-/
namespace Arca.Multipart
open ObjectTable MultipartTables

section
variable (s : Node)

def PartsBelong : Prop :=
  ∀ p ∈ s.multipart.parts, (s.multipart.getMultipartUpload p.uploadId).isSome

/-- Blob collection keeps the blobs that object and part rows name, and the parts
that a blob named by a row lists. -/
def Referenced (x : String) : Prop :=
  ∃ b, x ∈ s.disk.reach b ∧ ((∃ r ∈ s.table.rows, r.isTombstone = false ∧ r.blobId = b) ∨
    ∃ p ∈ s.multipart.parts, p.blobId = b)

/-- A blob belongs to an upload under way or to an object, or can be collected. -/
def Accounted : Prop :=
  ∀ x, (∃ p ∈ s.multipart.parts, (s.multipart.getMultipartUpload p.uploadId).isSome ∧
      x ∈ s.disk.reach p.blobId) ∨
    (∃ r ∈ s.table.rows, r.isTombstone = false ∧ x ∈ s.disk.reach r.blobId) ∨ ¬ Referenced s x

def UploadThere : Event → Prop
  | .commit i _ => ∀ call part, s.jobs[i]? = some ⟨call, .stored part⟩ →
      (s.multipart.getMultipartUpload part.uploadId).isSome
  | .receivePart part => (s.multipart.getMultipartUpload part.uploadId).isSome
  | _ => True

def Phase.isFinished : Phase → Bool
  | .discarding _ blobs => blobs.isEmpty
  | .done _ => true
  | _ => false

def Quiescent : Prop := ∀ job ∈ s.jobs, job.phase.isFinished

end

variable {a : Assembler} {s : Node} {i : Nat} {job : Job}

lemma accounted_of_partsBelong (h : PartsBelong s) : Accounted s := by
  intro x
  by_cases referenced : Referenced s x
  · obtain ⟨b, reached, ⟨r, mem, live, rfl⟩ | ⟨p, mem, rfl⟩⟩ := referenced
    · exact .inr (.inl ⟨r, mem, live, reached⟩)
    · exact .inl ⟨p, mem, h p mem, reached⟩
  · exact .inr (.inr referenced)

variable {t : MultipartTables}

section
variable (h : ∀ p ∈ t.parts, (t.getMultipartUpload p.uploadId).isSome)
include h

lemma partsBelong_putPart (part : PartRecord) :
    (∀ p ∈ (t.putPart part).parts, ((t.putPart part).getMultipartUpload p.uploadId).isSome) ↔
      (t.getMultipartUpload part.uploadId).isSome := by
  constructor
  · intro after
    exact after part (mem_putPart.mpr (.inr rfl))
  · intro there p mem
    rcases mem_putPart.mp mem with ⟨old, -⟩ | rfl
    · exact h p old
    · exact there

lemma partsBelong_takeUpload (u : String) :
    ∀ p ∈ (t.takeUpload u).parts, ((t.takeUpload u).getMultipartUpload p.uploadId).isSome := by
  intro p mem
  obtain ⟨old, other⟩ := mem_takeUpload.mp mem
  rw [getMultipartUpload_takeUpload, if_neg other]
  exact h p old

lemma partsBelong_create (record : MultipartUploadRecord) :
    ∀ p ∈ (t.createMultipartUpload record).parts,
      ((t.createMultipartUpload record).getMultipartUpload p.uploadId).isSome := by
  unfold createMultipartUpload
  split
  · exact h
  · intro p mem
    have before := h p mem
    unfold getMultipartUpload at before ⊢
    simp [before]

end

lemma partsBelong_commit (h : PartsBelong s) (here : s.jobs[i]? = some job) (uuid : String)
    (other : ∀ part, job.phase ≠ .stored part) : PartsBelong (step a s (.commit i uuid)) := by
  unfold step
  dsimp only
  rw [here]
  dsimp only
  split
  · next phase => exact absurd phase (other _)
  · unfold Node.commitObject
    split
    · exact h
    · split
      · exact h
      · exact partsBelong_takeUpload h _
  · exact partsBelong_takeUpload h _
  · exact h

lemma multipart_assemble {upload : MultipartUploadRecord} {request : CompleteRequest}
    {matched : List PartRecord} {checksum : Option ObjectChecksum} {blobId : String}
    {masterKey : Option String} {now : Instant} :
    (s.assemble a i job upload request matched checksum blobId masterKey now).multipart =
      s.multipart := by
  unfold Node.assemble
  dsimp only
  split
  · rfl
  · split <;> rfl

def LeavesUploads : Event → Prop
  | .arrive _ | .read _ | .store .. | .assemble .. | .discard .. | .fail _ | .objects _ => True
  | _ => False

lemma multipart_step {e : Event} (quiet : LeavesUploads e) :
    (step a s e).multipart = s.multipart := by
  cases e with
  | arrive | objects => rfl
  | read i | fail i =>
    unfold step
    dsimp only
    split <;> rfl
  | store i blobId body now =>
    unfold step
    dsimp only
    split
    · rfl
    · split <;> rfl
  | assemble i blobId masterKey now =>
    unfold step
    dsimp only
    split
    · rfl
    · split
      · exact multipart_assemble
      · rfl
  | discard i blobId =>
    unfold step
    dsimp only
    split
    · rfl
    · split
      · split <;> rfl
      · rfl
      · rfl
  | _ => exact quiet.elim

lemma partsBelong_step (h : PartsBelong s) (e : Event) :
    PartsBelong (step a s e) ↔ UploadThere s e := by
  cases e with
  | commit i uuid =>
    cases here : s.jobs[i]? with
    | none =>
      refine iff_of_true ?_ fun call part at_i => nomatch here.symm.trans at_i
      unfold step
      dsimp only
      rw [here]
      exact h
    | some job =>
      obtain ⟨call, phase⟩ := job
      by_cases stored : ∃ part, phase = .stored part
      · obtain ⟨part, rfl⟩ := stored
        have result : (step a s (.commit i uuid)).multipart = s.multipart.putPart part := by
          unfold step
          dsimp only
          rw [here]
          rfl
        unfold PartsBelong
        rw [result, partsBelong_putPart h]
        constructor
        · intro there call' part' at_i
          cases here.symm.trans at_i
          exact there
        · exact fun there => there call part here
      · rw [not_exists] at stored
        refine iff_of_true (partsBelong_commit h here uuid stored) fun call' part at_i => ?_
        cases here.symm.trans at_i
        exact absurd rfl (stored part)
  | receivePart part => exact partsBelong_putPart h part
  | receiveClose u => exact iff_of_true (partsBelong_takeUpload h u) trivial
  | create record | receiveUpload record => exact iff_of_true (partsBelong_create h record) trivial
  | arrive | read | store | assemble | discard | fail | objects =>
    refine iff_of_true ?_ trivial
    unfold PartsBelong
    rw [multipart_step (by trivial)]
    exact h

def IsWindDown : Event → Prop
  | .fail _ | .discard .. => True
  | _ => False

def Phase.rank : Phase → Nat
  | .discarding _ blobs => blobs.length
  | .done _ => 0
  | _ => 1

def rank (s : Node) : Nat := (s.jobs.map fun job => job.phase.rank).sum

lemma rank_setPhase_lt (here : s.jobs[i]? = some job) {phase : Phase}
    (lower : phase.rank < job.phase.rank) : rank (s.setPhase i job phase) < rank s :=
  Run.sum_map_set_lt (fun job : Job => job.phase.rank) here lower

/-- From every state the jobs can end without another commit. -/
lemma exists_windDown (s : Node) : ∃ evs : List Event,
    Run.Each (step a) (fun _ e => IsWindDown e) s evs ∧ Quiescent (evs.foldl (step a) s) := by
  refine Run.exists_rest rank (fun s busy => ?_) s
  simp only [Quiescent, not_forall] at busy
  obtain ⟨job, mem, unfinished⟩ := busy
  obtain ⟨i, here⟩ := List.mem_iff_getElem?.mp mem
  obtain ⟨call, phase⟩ := job
  have fails : step a s (.fail i) = s.setPhase i ⟨call, phase⟩ phase.fail := by
    simp [step, here]
  cases phase with
  | discarding reply blobs =>
    cases blobs with
    | nil => exact absurd rfl unfinished
    | cons b blobs =>
      have removes : step a s (.discard i b) =
          s.discard i ⟨call, .discarding reply (b :: blobs)⟩ reply (b :: blobs) b := by
        simp [step, here]
      refine ⟨.discard i b, trivial, ?_⟩
      rw [removes]
      refine rank_setPhase_lt here ?_
      simp [Phase.rank]
  | done reply => exact absurd rfl unfinished
  | _ =>
    refine ⟨.fail i, trivial, ?_⟩
    rw [fails]
    exact rank_setPhase_lt here Nat.zero_lt_one

lemma partsBelong_windDown (s : Node) (e : Event) (down : IsWindDown e) :
    PartsBelong (step a s e) ↔ PartsBelong s := by
  unfold PartsBelong
  cases e with
  | fail | discard => rw [multipart_step (by trivial)]
  | _ => exact down.elim

/-- **The parts rows belong to uploads in the quiescent state, exactly when the run writes the
row of a part only while its upload is there.** -/
theorem parts_belong_iff (a : Assembler) {s : Node} (belong : PartsBelong s) (es : List Event) :
    (∀ before after windDown, es = before ++ after → (∀ e ∈ windDown, IsWindDown e) →
      Quiescent ((before ++ windDown).foldl (step a) s) →
      PartsBelong ((before ++ windDown).foldl (step a) s) ∧
        Accounted ((before ++ windDown).foldl (step a) s)) ↔
      Run.Each (step a) UploadThere s es := by
  rw [← Run.at_rest_iff (P := PartsBelong) (W := fun _ e => IsWindDown e) (Q := Quiescent)
    (fun s e h => partsBelong_step h e) partsBelong_windDown exists_windDown belong es]
  refine forall₃_congr fun before after windDown => forall_congr' fun _ => ?_
  rw [Run.each_forall]
  refine forall₂_congr fun _ _ => ?_
  exact ⟨And.left, fun belong => ⟨belong, accounted_of_partsBelong belong⟩⟩

/-- The request has seen the upload, which is aborted while the body arrives. -/
def abortedUnderPart : List Event :=
  [.arrive (.uploadPart "b" "k" "u" 1), .read 0, .store 0 "A" onePart 1,
    .arrive (.abort "u"), .read 1, .commit 1 "", .commit 0 ""]

lemma partsBelong_emptyNode : PartsBelong emptyNode := List.forall_mem_nil _

theorem parts_belong_iff_aborted : PartsBelong emptyNode ∧
    ((∀ before after windDown, abortedUnderPart = before ++ after → (∀ e ∈ windDown, IsWindDown e) →
        Quiescent ((before ++ windDown).foldl (step plainAssembler) emptyNode) →
        PartsBelong ((before ++ windDown).foldl (step plainAssembler) emptyNode) ∧
          Accounted ((before ++ windDown).foldl (step plainAssembler) emptyNode)) ↔
      Run.Each (step plainAssembler) UploadThere emptyNode abortedUnderPart) :=
  ⟨partsBelong_emptyNode, parts_belong_iff plainAssembler partsBelong_emptyNode abortedUnderPart⟩

/-- The part is stored with success and belongs to no upload. -/
theorem part_outlives_upload :
    (abortedUnderPart.foldl (step plainAssembler) emptyNode).jobs.map Job.phase =
        [.discarding (.ok onePart.etag) [], .discarding .noContent []] ∧
      (abortedUnderPart.foldl (step plainAssembler) emptyNode).multipart.uploads = [] ∧
      (abortedUnderPart.foldl (step plainAssembler) emptyNode).multipart.parts.map PartRecord.blobId =
        ["A"] := by
  decide +kernel

end Arca.Multipart
