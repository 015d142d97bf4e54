import Arca.Multipart.Jobs

/-!
# Who owns a blob

Every blob id in use has one owner: the row of a part, a live row of an object, which
owns the parts its blob lists as well, or a job that has written the blob and not
committed it, or that has still to remove it.
-/
namespace Arca.Multipart
open ObjectTable List BlobDisk

def Live (r : ObjectRecord) : Prop := r.isDeleteMarker = false ∧ r.isTombstone = false

instance (r : ObjectRecord) : Decidable (Live r) := inferInstanceAs (Decidable (_ ∧ _))

structure IsPart (d : BlobDisk) (key u : String) (c : CompositePart) (e : CompletePart) : Prop where
  present : (d.files c.blobId).isSome
  sidecar : ∃ m, d.sidecars c.blobId = some m ∧ m.key = partKey key u e.partNumber ∧
    m.etag.toList = trimQuotes e.etag

def AsMatched (d : BlobDisk) (c : Completed) : Prop :=
  ∀ m parts, d.sidecars c.blobId = some m → m.composite = some parts →
    List.Forall₂ (IsPart d c.key c.uploadId) parts (CompleteRequest.namedParts c.request.parts)

def NoDangling (s : Node) : Prop :=
  ∀ r ∈ s.table.rows, Live r → s.disk.CanServe r.blobId ∧
    ∀ c ∈ s.completed, c.blobId = r.blobId → AsMatched s.disk c

structure Ready (s : Node) (i : Nat) (matched : List PartRecord) (record : ObjectRecord) (u : String)
    (request : CompleteRequest) : Prop where
  here : ∃ bucket key,
    s.jobs[i]? = some ⟨.complete bucket key u request, .assembled matched record true⟩
  upload : (s.multipart.getMultipartUpload u).isSome
  accepted : request.pre.accepts (fetchCurrentObject record.bucket record.key s.table.rows)

/-- What a composite is committed with is still what the parts table holds. -/
def KeepsMatched (s : Node) : Event → Prop
  | .commit i _ => ∀ matched record u request, Ready s i matched record u request →
      ∀ p ∈ matched, p ∈ s.multipart.parts
  | _ => True

/-- The requests and lifecycle aborts of one upload; a blob id that is drawn was
never drawn before. -/
def OnUpload (u : String) (s : Node) : Event → Prop
  | .arrive call => call.uploadId = u
  | .store _ blobId _ _ | .assemble _ blobId _ _ => blobId ∉ s.issued
  | .read _ | .commit .. | .discard .. | .fail _ => True
  | _ => False

instance (u : String) (s : Node) : (e : Event) → Decidable (OnUpload u s e)
  | .arrive _ => inferInstanceAs (Decidable (_ = _))
  | .store .. | .assemble .. => inferInstanceAs (Decidable (¬ _))
  | .read _ | .commit .. | .discard .. | .fail _ => .isTrue trivial
  | .create _ | .receivePart _ | .receiveUpload _ | .receiveClose _ | .objects _ => .isFalse id

def IsDiscard : Event → Prop
  | .discard .. => True
  | _ => False

inductive Owner where
  | part (uploadId : String) (partNumber : Nat)
  | row (bucket key : String) (version : Option String)
  | job (i : Nat)
  deriving DecidableEq

/-- The removal of the empty id, which a delete marker has, touches nothing. -/
def Phase.owned (d : BlobDisk) : Phase → List String
  | .stored part => [part.blobId]
  | .assembled _ record _ => [record.blobId]
  | .refused blobId _ => [blobId]
  | .discarding _ blobs => (blobs.filter (· ≠ "")).flatMap d.reach
  | _ => []

def Owns (s : Node) : Owner → String → Prop
  | .part u n, x => ∃ p ∈ s.multipart.parts, p.uploadId = u ∧ p.partNumber = n ∧ p.blobId = x
  | .row bucket key version, x => ∃ r ∈ s.table.rows, Live r ∧ r.bucket = bucket ∧ r.key = key ∧
      r.versionId = version ∧ x ∈ s.disk.reach r.blobId
  | .job i, x => ∃ job, s.jobs[i]? = some job ∧ x ∈ job.phase.owned s.disk

variable {p : PartRecord} {x blobId b : String} {d d' : BlobDisk} {phase : Phase} {reply : Reply}
  {blobs : List String} {matched : List PartRecord}

lemma owns_part {s : Node} (mem : p ∈ s.multipart.parts) :
    Owns s (.part p.uploadId p.partNumber) p.blobId := ⟨p, mem, rfl, rfl, rfl⟩

lemma owns_row {s : Node} {r : ObjectRecord} (mem : r ∈ s.table.rows) (live : Live r)
    (reached : x ∈ s.disk.reach r.blobId) : Owns s (.row r.bucket r.key r.versionId) x :=
  ⟨r, mem, live, rfl, rfl, rfl, reached⟩

structure Ownership (s : Node) : Prop where
  unique : ∀ {o o' x}, Owns s o x → Owns s o' x → o = o'
  issued : ∀ {o x}, Owns s o x → x ∈ s.issued
  named : ∀ {o x}, Owns s o x → x ≠ ""

variable {a : Assembler} {s s' : Node} {u : MultipartUploadRecord} {i : Nat} {job : Job}

/-- Blobs change hands: what an owner has was had by an owner that stands for it. -/
lemma Ownership.of_move (h : Ownership s) (move : Owner → Owner)
    (from_ : ∀ {o x}, Owns s' o x → ∃ o₀, Owns s o₀ x ∧ move o₀ = o)
    (grows : ∀ x ∈ s.issued, x ∈ s'.issued) : Ownership s' where
  unique {o o' x} owns owns' := by
    obtain ⟨o₀, before, rfl⟩ := from_ owns
    obtain ⟨o₁, before', rfl⟩ := from_ owns'
    rw [h.unique before before']
  issued {o x} owns := by
    obtain ⟨o₀, before, -⟩ := from_ owns
    exact grows x (h.issued before)
  named {o x} owns := by
    obtain ⟨o₀, before, -⟩ := from_ owns
    exact h.named before

lemma Ownership.of_subset (h : Ownership s) (from_ : ∀ {o x}, Owns s' o x → Owns s o x)
    (grows : ∀ x ∈ s.issued, x ∈ s'.issued) : Ownership s' :=
  h.of_move id (fun owns => ⟨_, from_ owns, rfl⟩) grows

lemma Ownership.of_fresh (h : Ownership s) (fresh : blobId ∉ s.issued)
    (blank : "" ∈ s.issued) (from_ : ∀ {o x}, Owns s' o x → Owns s o x ∨ (o = .job i ∧ x = blobId))
    (grows : s'.issued = blobId :: s.issued) : Ownership s' where
  unique {o o' x} owns owns' := by
    rcases from_ owns with old | ⟨rfl, rfl⟩ <;> rcases from_ owns' with old' | ⟨rfl, same⟩
    · exact h.unique old old'
    · exact absurd (h.issued old) (same ▸ fresh)
    · exact absurd (h.issued old') fresh
    · rfl
  issued {o x} owns := by
    rw [grows]
    rcases from_ owns with old | ⟨-, rfl⟩
    · exact mem_cons_of_mem _ (h.issued old)
    · exact mem_cons_self ..
  named {o x} owns := by
    rcases from_ owns with old | ⟨-, rfl⟩
    · exact h.named old
    · exact fun eq => fresh (eq ▸ blank)

lemma mem_reach_self (d : BlobDisk) (x : String) : x ∈ d.reach x := mem_cons_self ..

lemma owned_subset
    (shrink : ∀ b ∈ phase.owned d, d'.reach b ⊆ d.reach b) : phase.owned d' ⊆ phase.owned d := by
  cases phase with
  | discarding reply blobs =>
    intro x hx
    obtain ⟨b, hb, reached⟩ := mem_flatMap.mp hx
    have mem : b ∈ Phase.owned d (.discarding reply blobs) :=
      mem_flatMap.mpr ⟨b, hb, mem_reach_self d b⟩
    exact mem_flatMap.mpr ⟨b, hb, shrink b mem reached⟩
  | _ => exact List.Subset.refl _

structure Goes (s s' : Node) (i : Nat) (job : Job) (phase : Phase) : Prop where
  here : s.jobs[i]? = some job
  jobs : s'.jobs = (s.setPhase i job phase).jobs

/-- On the blobs that have an owner the disk lists no more than before. -/
structure Steps (s s' : Node) (i : Nat) (job : Job) (phase : Phase) : Prop
    extends Goes s s' i job phase where
  shrink : ∀ {o b}, Owns s o b → s'.disk.reach b ⊆ s.disk.reach b

lemma Steps.owns_job (h : Steps s s' i job phase) {k : Nat} (owns : Owns s' (.job k) x) :
    (k = i ∧ x ∈ phase.owned s'.disk) ∨ (k ≠ i ∧ Owns s (.job k) x) := by
  obtain ⟨job', at_k, mem⟩ := owns
  rw [h.jobs, getElem?_setPhase h.here] at at_k
  split at at_k
  · next same =>
      cases at_k
      exact .inl ⟨same, mem⟩
  · next other =>
      refine .inr ⟨other, job', at_k, owned_subset (fun b hb => ?_) mem⟩
      exact h.shrink (o := .job k) ⟨job', at_k, hb⟩

lemma Steps.owns_row (h : Steps s s' i job phase) (table : s'.table = s.table)
    {bucket key : String} {version : Option String}
    (owns : Owns s' (.row bucket key version) x) : Owns s (.row bucket key version) x := by
  obtain ⟨r, mem, live, hb, hk, hv, reached⟩ := owns
  rw [table] at mem
  have self : Owns s (.row bucket key version) r.blobId :=
    ⟨r, mem, live, hb, hk, hv, mem_reach_self _ _⟩
  exact ⟨r, mem, live, hb, hk, hv, h.shrink self reached⟩

lemma Steps.owns (h : Steps s s' i job phase) (table : s'.table = s.table)
    (multipart : s'.multipart = s.multipart) {o : Owner} (owns : Owns s' o x) :
    Owns s o x ∨ (o = .job i ∧ x ∈ phase.owned s'.disk) := by
  cases o with
  | part u n =>
    obtain ⟨p, mem, rest⟩ := owns
    exact .inl ⟨p, multipart ▸ mem, rest⟩
  | row bucket key version => exact .inl (h.owns_row table owns)
  | job k =>
    rcases h.owns_job owns with ⟨rfl, mem⟩ | ⟨-, old⟩
    · exact .inr ⟨rfl, mem⟩
    · exact .inl old

def SameAt (d d' : BlobDisk) (x : String) : Prop :=
  d'.files x = d.files x ∧ d'.sidecars x = d.sidecars x

lemma sameAt_part (body : Bytes) (m : SidecarMeta) (other : x ≠ b) :
    SameAt d ((d.writeRaw b body).writeSidecar b m) x :=
  ⟨by simp [other], by simp [other]⟩

lemma sameAt_leavesBehind (left : LeavesBehind d d' b) (other : x ≠ b) : SameAt d d' x := by
  rcases left with rfl | ⟨body, rfl⟩
  · exact ⟨rfl, rfl⟩
  · exact ⟨by simp [other], rfl⟩

lemma sameAt_assembles {ids : List String}
    {composite : Option (List CompositePart)} (h : d.Assembles ids b (d', composite))
    (m : SidecarMeta) (other : x ≠ b) : SameAt d (d'.writeSidecar b m) x := by
  rcases h with ⟨parts, eq, -⟩ | ⟨body, eq⟩
  · obtain ⟨rfl, rfl⟩ := Prod.mk.inj eq
    exact ⟨rfl, by simp [other]⟩
  · obtain ⟨rfl, rfl⟩ := Prod.mk.inj eq
    exact sameAt_part body m other

lemma reach_of_sameAt (same : SameAt d d' x) : d'.reach x = d.reach x := by
  simp only [reach, listed, same.2]

lemma canServe_of_sameAt (same : ∀ y ∈ d.reach x, SameAt d d' y)
    (h : d.CanServe x) : d'.CanServe x := by
  obtain ⟨m, sidecar, served⟩ := h
  have self := same x (mem_reach_self d x)
  refine ⟨m, self.2.trans sidecar, ?_⟩
  cases composite : m.composite with
  | none =>
    simp only [composite] at served ⊢
    rwa [self.1]
  | some parts =>
    simp only [composite] at served ⊢
    intro p mem
    have listed : p.blobId ∈ d.reach x :=
      mem_cons_of_mem _ (mem_map_of_mem (by simpa [listed, sidecar, composite]))
    rw [(same _ listed).1]
    exact served p mem

lemma isPart_of_sameAt {key u : String} {c : CompositePart} {e : CompletePart}
    (same : SameAt d d' c.blobId) (h : IsPart d key u c e) : IsPart d' key u c e where
  present := same.1 ▸ h.present
  sidecar := same.2 ▸ h.sidecar

lemma asMatched_of_sameAt {c : Completed}
    (same : ∀ y ∈ d.reach c.blobId, SameAt d d' y) (h : AsMatched d c) : AsMatched d' c := by
  intro m parts sidecar composite
  rw [(same _ (mem_reach_self d _)).2] at sidecar
  have listed : ∀ p ∈ parts, p.blobId ∈ d.reach c.blobId := fun p mem =>
    mem_cons_of_mem _ (mem_map_of_mem (by simpa [listed, sidecar, composite]))
  have before := h m parts sidecar composite
  rw [forall₂_iff_get] at before ⊢
  refine ⟨before.1, fun n inside inside' => ?_⟩
  exact isPart_of_sameAt (same _ (listed _ (get_mem ..))) (before.2 n inside inside')

/-- The blob of a part is there with the sidecar of the part. -/
structure Backed (d : BlobDisk) (key : String) (p : PartRecord) : Prop where
  present : (d.files p.blobId).isSome
  sidecar : ∃ m, d.sidecars p.blobId = some m ∧ m.composite = none ∧
    m.key = partKey key p.uploadId p.partNumber ∧ m.etag = p.etag

lemma Backed.of_sameAt {key : String}
    (same : SameAt d d' p.blobId) (h : Backed d key p) : Backed d' key p where
  present := same.1 ▸ h.present
  sidecar := same.2 ▸ h.sidecar

lemma Backed.reach {key : String} (h : Backed d key p) : d.reach p.blobId = [p.blobId] := by
  obtain ⟨m, sidecar, composite, -⟩ := h.sidecar
  simp [BlobDisk.reach, BlobDisk.listed, sidecar, composite]

def Pending (s : Node) (x : String) : Prop :=
  ∃ (i : Nat) (job : Job) (reply : Reply) (blobs : List String),
    s.jobs[i]? = some job ∧ job.phase = .discarding reply blobs ∧ x ∈ blobs

def Lost (s : Node) (x : String) : Prop := s.disk.files x = none ∨ Pending s x

lemma Goes.pending_own
    (h : Goes s s' i job (.discarding reply blobs)) (mem : x ∈ blobs) : Pending s' x :=
  ⟨i, { job with phase := .discarding reply blobs }, reply, blobs,
    by rw [h.jobs, getElem?_setPhase h.here, if_pos rfl], rfl, mem⟩

lemma Goes.pending (h : Goes s s' i job phase)
    (keep : ∀ reply blobs, job.phase = .discarding reply blobs → x ∈ blobs →
      ∃ reply' blobs', phase = .discarding reply' blobs' ∧ x ∈ blobs')
    (before : Pending s x) : Pending s' x := by
  obtain ⟨k, job', reply, blobs, at_k, discarding, mem⟩ := before
  by_cases same : k = i
  · subst same
    cases at_k.symm.trans h.here
    obtain ⟨reply', blobs', eq, mem'⟩ := keep reply blobs discarding mem
    exact ⟨k, _, reply', blobs', by rw [h.jobs, getElem?_setPhase h.here, if_pos rfl], eq, mem'⟩
  · refine ⟨k, job', reply, blobs, ?_, discarding, mem⟩
    rw [h.jobs, getElem?_setPhase h.here, if_neg same]
    exact at_k

/-- Of the blobs with ids that were drawn before, sidecars only go away and no lost
one comes back. -/
structure Erodes (s s' : Node) : Prop where
  grows : ∀ x ∈ s.issued, x ∈ s'.issued
  sidecars : ∀ x ∈ s.issued, s'.disk.sidecars x = s.disk.sidecars x ∨ s'.disk.sidecars x = none
  lost : ∀ x ∈ s.issued, Lost s x → Lost s' x

lemma Goes.erodes (h : Goes s s' i job phase)
    (keeps : ∀ reply blobs, job.phase = .discarding reply blobs → phase = job.phase)
    (same : ∀ x ∈ s.issued, SameAt s.disk s'.disk x) (grows : ∀ x ∈ s.issued, x ∈ s'.issued) :
    Erodes s s' where
  grows := grows
  sidecars x mem := .inl (same x mem).2
  lost x mem lost := by
    refine lost.imp (same x mem).1.trans (h.pending fun reply blobs discarding mem => ?_)
    exact ⟨reply, blobs, (keeps reply blobs discarding).trans discarding, mem⟩

lemma erodes_fresh (here : s.jobs[i]? = some job)
    (fresh : blobId ∉ s.issued) {disk : BlobDisk} (same : ∀ x, x ≠ blobId → SameAt s.disk disk x)
    (busy : ∀ reply blobs, job.phase ≠ .discarding reply blobs) :
    Erodes s { s.setPhase i job phase with disk, issued := blobId :: s.issued } := by
  have goes : Goes s { s.setPhase i job phase with disk, issued := blobId :: s.issued } i job phase :=
    ⟨here, rfl⟩
  exact goes.erodes (fun _ _ eq => absurd eq (busy _ _))
    (fun x mem => same x fun eq => fresh (eq ▸ mem)) fun _ => mem_cons_of_mem _

lemma erodes_discard (here : s.jobs[i]? = some job)
    (phase : job.phase = .discarding reply blobs) (blobId : String) :
    Erodes s (s.discard i job reply blobs blobId) where
  grows _ mem := mem
  sidecars x _ := by
    rw [Node.discard, sidecars_delete]
    split
    · exact .inr rfl
    · exact .inl rfl
  lost x _ before := by
    have goes : Goes s (s.discard i job reply blobs blobId) i job
        (.discarding reply (blobs.erase blobId)) := ⟨here, rfl⟩
    by_cases removed : x ∈ s.disk.reach blobId
    · exact .inl (by rw [Node.discard, files_delete, if_pos removed])
    · refine before.imp (fun gone => ?_) (goes.pending fun reply' blobs' eq mem' => ?_)
      · rw [Node.discard, files_delete, if_neg removed, gone]
      · obtain ⟨rfl, rfl⟩ := Phase.discarding.inj (phase.symm.trans eq)
        refine ⟨reply, _, rfl, (mem_erase_of_ne ?_).mpr mem'⟩
        rintro rfl
        exact removed (mem_reach_self _ _)

lemma erodes_discardAssembled (here : s.jobs[i]? = some job)
    {code : S3ErrorCode} (phase : job.phase = .refused blobId code) :
    Erodes s (s.discardAssembled i job blobId code) where
  grows _ mem := mem
  sidecars x _ := by
    rw [Node.discardAssembled, sidecars_deleteBlobFileRaw]
    split
    · exact .inr rfl
    · exact .inl rfl
  lost x _ before := by
    have goes : Goes s (s.discardAssembled i job blobId code) i job (.done (.error code)) := ⟨here, rfl⟩
    refine before.imp (fun gone => ?_) (goes.pending fun _ _ eq => nomatch phase.symm.trans eq)
    simp [Node.discardAssembled, gone]

/-- The parts a complete request matched are those it names. While the upload is
there they are rows still, or their blobs are lost. -/
structure Matches (u : MultipartUploadRecord) (s : Node) (call : Call) (matched : List PartRecord) :
    Prop where
  entries : ∃ bucket key request, call = .complete bucket key u.uploadId request ∧
    List.Forall₂ (fun p e => p.uploadId = u.uploadId ∧ p.partNumber = e.partNumber ∧
      p.etag.toList = trimQuotes e.etag) matched (CompleteRequest.namedParts request.parts)
  kept : (s.multipart.getMultipartUpload u.uploadId).isSome → ∀ p ∈ matched,
    p ∈ s.multipart.parts ∨ Lost s p.blobId
  issued : ∀ p ∈ matched, p.blobId ∈ s.issued

/-- The sidecar of an assembled blob lists the matched parts, or the blob has a
file of its own. -/
structure Final (u : MultipartUploadRecord) (d : BlobDisk) (matched : List PartRecord)
    (record : ObjectRecord) (composite : Bool) : Prop where
  live : Live record
  bucket : record.bucket = u.bucket
  key : record.key = u.key
  sidecar : ∃ m, d.sidecars record.blobId = some m ∧
    ((composite = true ∧ ∃ parts, m.composite = some parts ∧
        List.Forall₂ (fun c p => c.blobId = p.blobId) parts matched) ∨
      (composite = false ∧ m.composite = none ∧ (d.files record.blobId).isSome))

lemma Final.of_sameAt {record : ObjectRecord}
    {composite : Bool} (same : SameAt d d' record.blobId) (h : Final u d matched record composite) :
    Final u d' matched record composite where
  live := h.live
  bucket := h.bucket
  key := h.key
  sidecar := by
    obtain ⟨m, sidecar, kind⟩ := h.sidecar
    exact ⟨m, same.2.trans sidecar, same.1 ▸ kind⟩

def PhaseOk (u : MultipartUploadRecord) (s : Node) (job : Job) : Prop :=
  match job.phase with
  | .receiving _ => ∀ bucket key n, job.call.part = some (bucket, key, n) → key = u.key
  | .stored p => p.uploadId = u.uploadId ∧ Backed s.disk u.key p
  | .checking upload | .listing upload => upload = u
  | .assembling upload matched _ => upload = u ∧ Matches u s job.call matched
  | .assembled matched record composite =>
    Matches u s job.call matched ∧ Final u s.disk matched record composite
  | _ => True

structure Sound (u : MultipartUploadRecord) (s : Node) : Prop where
  owners : Ownership s
  served : NoDangling s
  backed : ∀ p ∈ s.multipart.parts, p.uploadId = u.uploadId → Backed s.disk u.key p
  keyed : ∀ p ∈ s.multipart.parts, ∀ q ∈ s.multipart.parts,
    p.uploadId = q.uploadId → p.partNumber = q.partNumber → p = q
  dead : ∀ r ∈ s.table.rows, ¬ Live r → r.blobId = ""
  blank : "" ∈ s.issued ∧ s.disk.sidecars "" = none
  upload : ∀ r, s.multipart.getMultipartUpload u.uploadId = some r → r = u
  first : (s.multipart.getMultipartUpload u.uploadId).isSome → s.completed = []

structure Inv (u : MultipartUploadRecord) (s : Node) : Prop extends Sound u s where
  onUpload : ∀ (i : Nat) (job : Job), s.jobs[i]? = some job → job.call.uploadId = u.uploadId
  jobs : ∀ (i : Nat) (job : Job), s.jobs[i]? = some job → PhaseOk u s job

lemma phaseOk_of_same (h : PhaseOk u s job)
    (same : ∀ x ∈ job.phase.owned s.disk, SameAt s.disk s'.disk x)
    (matching : ∀ matched, Matches u s job.call matched → Matches u s' job.call matched) :
    PhaseOk u s' job := by
  unfold PhaseOk at h ⊢
  cases phase : job.phase with
  | stored p =>
    simp only [phase] at h same ⊢
    exact ⟨h.1, h.2.of_sameAt (same _ (mem_singleton_self _))⟩
  | assembling upload matched checksum =>
    simp only [phase] at h ⊢
    exact ⟨h.1, matching _ h.2⟩
  | assembled matched record composite =>
    simp only [phase] at h same ⊢
    exact ⟨matching _ h.1, h.2.of_sameAt (same _ (mem_singleton_self _))⟩
  | receiving | checking | listing =>
    simp only [phase] at h ⊢
    exact h
  | arrived | retrying | refused | closing | discarding | done => trivial

/-- The blobs of other owners are left alone, and no lost blob comes back. -/
structure LocalStep (s s' : Node) (i : Nat) (job : Job) (phase : Phase) : Prop
    extends Steps s s' i job phase where
  table : s'.table = s.table
  multipart : s'.multipart = s.multipart
  completed : s'.completed = s.completed
  erodes : Erodes s s'
  same : ∀ {o x}, Owns s o x → o ≠ .job i → SameAt s.disk s'.disk x

namespace LocalStep
variable {phase : Phase}

section
variable (h : LocalStep s s' i job phase)
include h

lemma noDangling (served : NoDangling s) : NoDangling s' := by
  intro r mem live
  rw [h.table] at mem
  have same : ∀ y ∈ s.disk.reach r.blobId, SameAt s.disk s'.disk y := fun y reached =>
    h.same (owns_row mem live reached) (nomatch ·)
  refine ⟨canServe_of_sameAt same (served r mem live).1, fun c hc eq => ?_⟩
  rw [h.completed] at hc
  exact asMatched_of_sameAt (eq ▸ same) ((served r mem live).2 c hc eq)

lemma keeps_matches {call : Call}
    (before : Matches u s call matched) : Matches u s' call matched where
  entries := before.entries
  kept present p mem := by
    rw [h.multipart] at present ⊢
    exact (before.kept present p mem).imp_right (h.erodes.lost _ (before.issued p mem))
  issued p mem := h.erodes.grows _ (before.issued p mem)

lemma sound (before : Sound u s) (owners : Ownership s')
    (blank : s'.disk.sidecars "" = none) : Sound u s' where
  owners := owners
  served := h.noDangling before.served
  backed p mem on := by
    rw [h.multipart] at mem
    exact (before.backed p mem on).of_sameAt (h.same (owns_part mem) (nomatch ·))
  keyed := by
    rw [h.multipart]
    exact before.keyed
  dead := by
    rw [h.table]
    exact before.dead
  blank := ⟨h.erodes.grows _ before.blank.1, blank⟩
  upload := by
    rw [h.multipart]
    exact before.upload
  first := by
    rw [h.multipart, h.completed]
    exact before.first

lemma inv (before : Inv u s) (owners : Ownership s')
    (blank : s'.disk.sidecars "" = none) (own : PhaseOk u s' { job with phase := phase }) :
    Inv u s' where
  toSound := h.sound before.toSound owners blank
  onUpload k job' at_k := by
    rw [h.jobs, getElem?_setPhase h.here] at at_k
    split at at_k
    · cases at_k
      exact before.onUpload i job h.here
    · exact before.onUpload k job' at_k
  jobs k job' at_k := by
    rw [h.jobs, getElem?_setPhase h.here] at at_k
    split at at_k
    · cases at_k
      exact own
    · next other =>
        refine phaseOk_of_same (before.jobs k job' at_k) (fun x hx => ?_) fun _ => h.keeps_matches
        exact h.same (o := .job k) ⟨job', at_k, hx⟩ (fun eq => other (Owner.job.inj eq))

end

end LocalStep

lemma localStep_setPhase (here : s.jobs[i]? = some job)
    (pending : ∀ reply blobs, job.phase = .discarding reply blobs → phase = job.phase) :
    LocalStep s (s.setPhase i job phase) i job phase := by
  have goes : Goes s (s.setPhase i job phase) i job phase := ⟨here, rfl⟩
  exact ⟨⟨goes, fun _ => List.Subset.refl _⟩, rfl, rfl, rfl,
    goes.erodes pending (fun _ _ => ⟨rfl, rfl⟩) fun _ mem => mem, fun _ _ => ⟨rfl, rfl⟩⟩

lemma inv_setPhase (h : Inv u s) (here : s.jobs[i]? = some job)
    (pending : ∀ reply blobs, job.phase = .discarding reply blobs → phase = job.phase)
    (owned : phase.owned s.disk ⊆ job.phase.owned s.disk)
    (own : PhaseOk u (s.setPhase i job phase) { job with phase := phase }) :
    Inv u (s.setPhase i job phase) := by
  have local_ := localStep_setPhase here pending
  refine local_.inv h (h.owners.of_subset (fun owns => ?_) fun _ mem => mem) h.blank.2 own
  rcases local_.owns rfl rfl owns with old | ⟨rfl, mem⟩
  · exact old
  · exact ⟨job, here, owned mem⟩

lemma look_discarding (h : job.phase = .discarding reply blobs) : s.look a job = job.phase := by
  unfold Node.look
  rw [h]

lemma inv_read (h : Inv u s) (here : s.jobs[i]? = some job) :
    Inv u (s.setPhase i job (s.look a job)) := by
  have on := h.onUpload i job here
  have ok := h.jobs i job here
  have pending : ∀ reply blobs, job.phase = .discarding reply blobs → s.look a job = job.phase :=
    fun _ _ => look_discarding
  have found_upload : ∀ {bucket key upload}, Found s bucket key u.uploadId upload →
      upload = u ∧ key = u.key := fun found => by
    have same := h.upload _ found.1
    exact ⟨same, same ▸ found.2.2.symm⟩
  have looks := looks_look (a := a) (s := s) job
  generalize s.look a job = phase at looks pending
  cases looks with
  | same =>
    exact inv_setPhase h here pending (List.Subset.refl _) <|
      phaseOk_of_same ok (fun _ _ => ⟨rfl, rfl⟩) fun _ =>
        (localStep_setPhase here pending).keeps_matches
  | receiving part found =>
    rw [on] at found
    refine inv_setPhase h here pending (nil_subset _) fun bucket key n eq => ?_
    cases part.symm.trans eq
    exact (found_upload found).2
  | checking call found =>
    rw [call] at on
    cases on
    exact inv_setPhase h here pending (nil_subset _) (found_upload found).1
  | listing call phase =>
    simp only [PhaseOk, phase] at ok
    exact inv_setPhase h here pending (nil_subset _) ok
  | assembling call phase selected =>
    simp only [PhaseOk, phase] at ok
    rw [call] at on
    cases on
    obtain ⟨stored, entries⟩ := (forall₂_and_left _ _).mp (forall₂_selectParts selected)
    replace stored := fun p mem => MultipartTables.mem_listParts.mp (stored p mem)
    refine inv_setPhase h here pending (nil_subset _)
      ⟨ok, ⟨_, _, _, call, ?_⟩, fun _ p mem => .inl (stored p mem).1, fun p mem => ?_⟩
    · exact (forall₂_and_left _ _).mpr ⟨fun p mem => (stored p mem).2, entries⟩
    · exact h.owners.issued (owns_part (stored p mem).1)
  | refused | retrying | answered | closing =>
    exact inv_setPhase h here pending (nil_subset _) trivial

lemma inv_fail (h : Inv u s) (here : s.jobs[i]? = some job) :
    Inv u (s.setPhase i job job.phase.fail) := by
  apply inv_setPhase h here
  · intro reply blobs discarding
    rw [discarding]
    rfl
  · cases job.phase with
    | discarding reply blobs => exact List.Subset.refl _
    | _ => exact nil_subset _
  · unfold PhaseOk
    cases job.phase <;> trivial

variable {disk : BlobDisk}

section
variable (here : s.jobs[i]? = some job) (fresh : blobId ∉ s.issued)
include here fresh

lemma localStep_fresh (h : Ownership s) (same : ∀ x, x ≠ blobId → SameAt s.disk disk x)
    (busy : ∀ reply blobs, job.phase ≠ .discarding reply blobs) :
    LocalStep s { s.setPhase i job phase with disk, issued := blobId :: s.issued } i job phase := by
  have other : ∀ x ∈ s.issued, SameAt s.disk disk x := fun x mem =>
    same x fun eq => fresh (eq ▸ mem)
  exact ⟨⟨⟨here, rfl⟩, fun owns => (reach_of_sameAt (other _ (h.issued owns))) ▸ List.Subset.refl _⟩,
    rfl, rfl, rfl, erodes_fresh here fresh same busy, fun owns _ => other _ (h.issued owns)⟩

lemma inv_fresh (h : Inv u s) (same : ∀ x, x ≠ blobId → SameAt s.disk disk x)
    (busy : ∀ reply blobs, job.phase ≠ .discarding reply blobs)
    (owned : phase.owned disk ⊆ [blobId])
    (own : PhaseOk u { s.setPhase i job phase with disk, issued := blobId :: s.issued }
      { job with phase := phase }) :
    Inv u { s.setPhase i job phase with disk, issued := blobId :: s.issued } := by
  have local_ : LocalStep s { s.setPhase i job phase with disk, issued := blobId :: s.issued }
      i job phase := localStep_fresh here fresh h.owners same busy
  have blank : disk.sidecars "" = none :=
    (same "" fun eq => fresh (eq ▸ h.blank.1)).2.trans h.blank.2
  refine local_.inv h (h.owners.of_fresh (i := i) fresh h.blank.1 (fun owns => ?_) rfl) blank own
  rcases local_.owns rfl rfl owns with old | ⟨rfl, mem⟩
  · exact .inl old
  · exact .inr ⟨rfl, mem_singleton.mp (owned mem)⟩

variable {upload : MultipartUploadRecord}

lemma inv_store (h : Inv u s)
    (phase : job.phase = .receiving upload) {bucket key : String} {n : Nat}
    (part : job.call.part = some (bucket, key, n)) (body : PartBody) (now : Instant) :
    Inv u (s.storePart i job bucket key job.call.uploadId n blobId body now) := by
  have ok := h.jobs i job here
  simp only [PhaseOk, phase] at ok
  have same_key := ok _ _ _ part
  subst same_key
  refine inv_fresh here fresh h (fun x => sameAt_part _ _) (fun _ _ eq => nomatch phase.symm.trans eq)
    (List.Subset.refl _) ⟨h.onUpload i job here, ⟨?_, ?_⟩⟩
  · simp
  · exact ⟨_, by simp; rfl, rfl, rfl, rfl⟩

lemma inv_giveUp (h : Inv u s) (left : LeavesBehind s.disk disk blobId)
    (busy : ∀ reply blobs, job.phase ≠ .discarding reply blobs) :
    Inv u { s.setPhase i job (.done (.error .internalError)) with
      disk, issued := blobId :: s.issued } :=
  inv_fresh here fresh h (fun _ => sameAt_leavesBehind left) busy (nil_subset _) trivial

lemma inv_assemble (h : Inv u s) {checksum : Option ObjectChecksum}
    (phase : job.phase = .assembling upload matched checksum)
    {composite : Option (List CompositePart)}
    (assembled : s.disk.Assembles (matched.map PartRecord.blobId) blobId (disk, composite))
    {request : CompleteRequest} {etag : String} {size : Nat} {masterKey : Option String} {now : Instant}
    {record : ObjectRecord} (written : record =
      assembledRecord upload request matched checksum blobId etag size masterKey now) :
    Inv u { s.setPhase i job (.assembled matched record composite.isSome) with
      disk := disk.writeSidecar blobId (assembledSidecar record composite)
      issued := blobId :: s.issued } := by
  have ok := h.jobs i job here
  simp only [PhaseOk, phase] at ok
  obtain ⟨rfl, matching⟩ := ok
  have busy : ∀ reply blobs, job.phase ≠ .discarding reply blobs :=
    fun _ _ eq => nomatch phase.symm.trans eq
  have id_eq : record.blobId = blobId := by rw [written]; rfl
  have same : ∀ x, x ≠ blobId → SameAt s.disk
      (disk.writeSidecar blobId (assembledSidecar record composite)) x :=
    fun x => sameAt_assembles assembled _
  refine inv_fresh here fresh h same busy (by simp [Phase.owned, id_eq])
    ⟨(localStep_fresh here fresh h.owners same busy).keeps_matches matching, ?_, ?_, ?_, ?_⟩
  · rw [written]
    exact ⟨rfl, rfl⟩
  · rw [written]; rfl
  · rw [written]; rfl
  · refine ⟨assembledSidecar record composite, by simp [id_eq], ?_⟩
    rcases assembled with ⟨parts, eq, lists⟩ | ⟨body, eq⟩
    · obtain ⟨rfl, rfl⟩ := Prod.mk.inj eq
      refine .inl ⟨rfl, parts, rfl, ?_⟩
      exact (forall₂_map_right_iff.mp lists).imp fun _ _ listed => listed.1
    · obtain ⟨rfl, rfl⟩ := Prod.mk.inj eq
      exact .inr ⟨rfl, rfl, by simp [id_eq]⟩

end

lemma reach_delete_subset (d : BlobDisk) (b x : String) : (d.delete b).reach x ⊆ d.reach x := by
  unfold reach listed
  rw [sidecars_delete]
  split
  · simp
  · exact List.Subset.refl _

lemma reach_blank (h : Sound u s) : s.disk.reach "" = [""] := by
  simp [reach, listed, h.blank.2]

section
variable (here : s.jobs[i]? = some job)
include here

lemma inv_discard (h : Inv u s)
    (phase : job.phase = .discarding reply blobs)
    (mem : blobId ∈ blobs) : Inv u (s.discard i job reply blobs blobId) := by
  have owned : ∀ x ∈ s.disk.reach blobId, x ≠ "" → Owns s (.job i) x := by
    intro x reached named
    refine ⟨job, here, ?_⟩
    rw [phase]
    refine mem_flatMap.mpr ⟨blobId, mem_filter.mpr ⟨mem, ?_⟩, reached⟩
    rw [decide_eq_true_eq]
    rintro rfl
    rw [reach_blank h.toSound, mem_singleton] at reached
    exact named reached
  have same : ∀ {o x}, Owns s o x → o ≠ .job i → SameAt s.disk (s.disk.delete blobId) x := by
    intro o x owns other
    have outside : x ∉ s.disk.reach blobId := fun reached =>
      other (h.owners.unique owns (owned x reached (h.owners.named owns)))
    exact ⟨by rw [files_delete, if_neg outside],
      by rw [sidecars_delete, if_neg outside]⟩
  have local_ : LocalStep s (s.discard i job reply blobs blobId) i job
      (.discarding reply (blobs.erase blobId)) :=
    ⟨⟨⟨here, rfl⟩, fun _ => reach_delete_subset _ _ _⟩, rfl, rfl, rfl,
      erodes_discard here phase blobId, same⟩
  refine local_.inv h (h.owners.of_subset (fun owns => ?_) fun _ mem => mem) ?_ trivial
  · rcases local_.owns rfl rfl owns with old | ⟨rfl, hx⟩
    · exact old
    · obtain ⟨b, hb, reached⟩ := mem_flatMap.mp hx
      refine ⟨job, here, ?_⟩
      rw [phase]
      refine mem_flatMap.mpr ⟨b, ?_, reach_delete_subset _ _ _ reached⟩
      exact mem_filter.mpr ((mem_filter.mp hb).imp_left mem_of_mem_erase)
  · rw [Node.discard, sidecars_delete]
    split
    · rfl
    · exact h.blank.2

lemma inv_discardAssembled (h : Inv u s)
    {code : S3ErrorCode} (phase : job.phase = .refused blobId code) :
    Inv u (s.discardAssembled i job blobId code) := by
  have owned : Owns s (.job i) blobId := ⟨job, here, by simp [phase, Phase.owned]⟩
  have same : ∀ {o x}, Owns s o x → o ≠ .job i →
      SameAt s.disk (s.disk.deleteBlobFileRaw blobId) x := by
    intro o x owns other
    have apart : x ≠ blobId := by
      rintro rfl
      exact other (h.owners.unique owns owned)
    exact ⟨by simp [apart], by simp [apart]⟩
  have shrink : ∀ x, (s.disk.deleteBlobFileRaw blobId).reach x ⊆ s.disk.reach x := by
    intro x
    unfold reach listed
    rw [sidecars_deleteBlobFileRaw]
    split
    · simp
    · exact List.Subset.refl _
  have local_ : LocalStep s (s.discardAssembled i job blobId code) i job (.done (.error code)) :=
    ⟨⟨⟨here, rfl⟩, fun _ => shrink _⟩, rfl, rfl, rfl, erodes_discardAssembled here phase, same⟩
  refine local_.inv h (h.owners.of_subset (fun owns => ?_) fun _ mem => mem) ?_ trivial
  · rcases local_.owns rfl rfl owns with old | ⟨-, hx⟩
    · exact old
    · cases hx
  · simp [Node.discardAssembled, h.blank.2]

lemma steps_commitPart (part : PartRecord) :
    Steps s (s.commitPart i job part) i job (.discarding (.ok part.etag)
      ((s.multipart.oldPart part).map PartRecord.blobId).toList) :=
  ⟨⟨here, rfl⟩, fun _ => List.Subset.refl _⟩

lemma steps_close (v : String) : Steps s (s.close i job v) i job
      (.discarding .noContent ((s.multipart.partsOf v).map PartRecord.blobId)) :=
  ⟨⟨here, rfl⟩, fun _ => List.Subset.refl _⟩

lemma steps_install (v : String) (request : CompleteRequest)
    (record : ObjectRecord) (composite : Bool) (table : ObjectTable) :
    Steps s (s.install i job v request record composite table) i job
      (.discarding (.ok record.etag)
        (((s.table.overwritten record.bucket record.key).map ObjectRecord.blobId).toList ++
          if composite then [] else (s.multipart.partsOf v).map PartRecord.blobId)) :=
  ⟨⟨here, rfl⟩, fun _ => List.Subset.refl _⟩

end

end Arca.Multipart
