import Arca.Storage.BlobStore

/-!
# Shipping blobs and rows to a peer

A node writes a blob and its sidecar, and the sidecar's write ships both to the peer.
Any request may be lost, or may fail at the peer before the file or before the
sidecar is stored. The log of the requests that reached the peer is kept beside the
two stores; no step reads it.
-/
namespace Arca.Cluster

/-- How far the peer gets with a blob it receives. -/
inductive Progress where
  | nothing
  | file
  | stored
  deriving DecidableEq

structure BlobRequest where
  id : String
  sidecar : SidecarMeta
  body : Bytes
  progress : Progress

namespace BlobRequest

def accepted (q : BlobRequest) : Bool := blobIdIsValid q.id && q.sidecar.hasValidBlobRefs

def WritesFile (q : BlobRequest) (id : String) : Prop :=
  q.id = id ∧ q.accepted ∧ q.sidecar.composite = none ∧ q.progress ≠ .nothing

def WritesSidecar (q : BlobRequest) (id : String) : Prop :=
  q.id = id ∧ q.accepted ∧ q.progress = .stored

instance (q : BlobRequest) (id : String) : Decidable (q.WritesFile id) := by
  unfold WritesFile; infer_instance

instance (q : BlobRequest) (id : String) : Decidable (q.WritesSidecar id) := by
  unfold WritesSidecar; infer_instance

end BlobRequest

/-- A composite blob carries no file. -/
def receiveBlob (d : BlobDisk) (q : BlobRequest) : BlobDisk :=
  if !q.accepted then d
  else match q.progress with
  | .nothing => d
  | .file => if q.sidecar.composite.isNone then d.writeRaw q.id q.body else d
  | .stored =>
    (if q.sidecar.composite.isNone then d.writeRaw q.id q.body else d).writeSidecar q.id q.sidecar

structure ObjectAck where
  applied : Bool
  hasBlob : Bool
  deriving DecidableEq

def receiveObject (d : BlobDisk) (record : ObjectRecord) : Option ObjectAck :=
  if !record.hasValidBlobRef then none
  else some ⟨true, record.blobId = "" || (d.sidecars record.blobId).isSome⟩

structure FanOut where
  origin : BlobDisk
  peer : BlobDisk
  table : ObjectTable
  log : List BlobRequest

namespace FanOut

def start (origin : BlobDisk) (table : ObjectTable) : FanOut := ⟨origin, .empty, table, []⟩

/-- What is put into the body of a blob request: nothing for a composite, and no
request is made when the file cannot be read. -/
def bodyOf (d : BlobDisk) (id : String) (m : SidecarMeta) : Option Bytes :=
  if m.composite.isSome then some [] else d.files id

section
variable (s : FanOut)

def deliver (q : BlobRequest) : FanOut :=
  { s with peer := receiveBlob s.peer q, log := s.log ++ [q] }

/-- `write_sidecar` of the cluster store; `progress` is `none` for a request
that is lost on the way. -/
def writeSidecar (id : String) (m : SidecarMeta) (progress : Option Progress) : FanOut :=
  let s := { s with origin := s.origin.writeSidecar id m }
  match bodyOf s.origin id m, progress with
  | some body, some progress => s.deliver ⟨id, m, body, progress⟩
  | _, _ => s

/-- The node fetches a blob it has no sidecar of from the peer. -/
def repairOrigin (id : String) : FanOut :=
  match s.origin.sidecars id, s.peer.sidecars id with
  | none, some m =>
    match bodyOf s.peer id m with
    | some body => { s with
        origin := (if m.composite.isNone then s.origin.writeRaw id body else s.origin).writeSidecar id m }
    | none => s
  | _, _ => s

/-- The peer fetches a blob it has no sidecar of from the node. -/
def repairPeer (id : String) (progress : Progress) : FanOut :=
  match s.peer.sidecars id, s.origin.sidecars id with
  | none, some m =>
    match bodyOf s.origin id m with
    | some body => s.deliver ⟨id, m, body, progress⟩
    | none => s
  | _, _ => s

/-- `CompleteMultipartUpload`: missing parts are fetched, the parts assembled and
the sidecar of the result written. -/
def complete (parts : List String) (output : String) (m : SidecarMeta)
    (progress : Option Progress) : FanOut :=
  let s := parts.foldl repairOrigin s
  match s.origin.concat parts output with
  | none => s
  | some (origin, composite) =>
    writeSidecar { s with origin } output { m with composite } progress

end

end FanOut

inductive FanOutEvent where
  | put (id : String) (body : Bytes)
  | writeSidecar (id : String) (m : SidecarMeta) (progress : Option Progress)
  | complete (parts : List String) (output : String) (m : SidecarMeta) (progress : Option Progress)
  | delete (id : String)
  | repairPeer (id : String) (progress : Progress)
  | sendObject (record : ObjectRecord)

namespace FanOut

def step (s : FanOut) : FanOutEvent → FanOut
  | .put id body => { s with origin := s.origin.writeRaw id body }
  | .writeSidecar id m progress => s.writeSidecar id m progress
  | .complete parts output m progress => s.complete parts output m progress
  | .delete id => { s with origin := s.origin.delete id }
  | .repairPeer id progress => s.repairPeer id progress
  | .sendObject record =>
    if record.hasValidBlobRef then { s with table := s.table.applyRemoteObject record } else s

/-- A full acknowledgement of a row that names a blob says that the blob is there. -/
def AckServes (s : FanOut) : FanOutEvent → Prop
  | .sendObject record => record.blobId ≠ "" → receiveObject s.peer record = some ⟨true, true⟩ →
      s.peer.CanServe record.blobId
  | _ => True

def lastSidecar (log : List BlobRequest) (id : String) : Option SidecarMeta :=
  ((log.filter fun q => decide (q.WritesSidecar id)).getLast?).map BlobRequest.sidecar

/-- When a row arrives whose blob is a composite, a request has brought the file
of each of its parts. -/
def PartsArrived (s : FanOut) : FanOutEvent → Prop
  | .sendObject record => ∀ m, lastSidecar s.log record.blobId = some m →
      ∀ parts, m.composite = some parts →
        ∀ p ∈ parts, ∃ q ∈ s.log, q.WritesFile p.blobId
  | _ => True

variable {d : BlobDisk} {q : BlobRequest} {s : FanOut} {id : String}

lemma files_receiveBlob :
    ((receiveBlob d q).files id).isSome ↔ (d.files id).isSome ∨ q.WritesFile id := by
  unfold receiveBlob BlobRequest.WritesFile
  cases accepted : q.accepted <;> cases composite : q.sidecar.composite <;>
    cases progress : q.progress <;>
    rcases eq_or_ne q.id id with same | same <;>
    simp [BlobDisk.writeRaw, BlobDisk.writeSidecar, eq_comm (a := id), same]

lemma sidecars_receiveBlob :
    (receiveBlob d q).sidecars id = if q.WritesSidecar id then some q.sidecar else d.sidecars id := by
  by_cases writes : q.WritesSidecar id
  · obtain ⟨rfl, accepted, stored⟩ := writes
    rw [if_pos ⟨rfl, accepted, stored⟩]
    simp [receiveBlob, accepted, stored, BlobDisk.writeSidecar]
  · rw [if_neg writes]
    unfold receiveBlob
    unfold BlobRequest.WritesSidecar at writes
    cases accepted : q.accepted <;> cases composite : q.sidecar.composite <;>
      cases progress : q.progress <;>
      simp_all [BlobDisk.writeRaw, BlobDisk.writeSidecar, Function.update_of_ne, eq_comm (a := id)]

lemma lastSidecar_append (log : List BlobRequest) :
    lastSidecar (log ++ [q]) id = if q.WritesSidecar id then some q.sidecar else lastSidecar log id := by
  unfold lastSidecar
  split_ifs with writes
  · simp [writes]
  · simp [writes]

variable {m : SidecarMeta}

lemma exists_of_lastSidecar {log : List BlobRequest}
    (h : lastSidecar log id = some m) : ∃ q ∈ log, q.WritesSidecar id ∧ q.sidecar = m := by
  obtain ⟨q, last, rfl⟩ := Option.map_eq_some_iff.mp h
  have mem := List.mem_filter.mp (List.mem_of_getLast? last)
  exact ⟨q, mem.1, of_decide_eq_true mem.2, rfl⟩

/-- The peer holds exactly what the requests of the log left behind. -/
structure Logged (s : FanOut) : Prop where
  files : ∀ id, (s.peer.files id).isSome ↔ ∃ q ∈ s.log, q.WritesFile id
  sidecars : ∀ id, s.peer.sidecars id = lastSidecar s.log id

lemma Logged.start (origin : BlobDisk) (table : ObjectTable) : Logged (start origin table) where
  files id := by simp [FanOut.start, BlobDisk.empty]
  sidecars id := rfl

lemma Logged.deliver (h : Logged s) (q : BlobRequest) : Logged (s.deliver q) where
  files id := by
    show ((receiveBlob s.peer q).files id).isSome ↔ ∃ x ∈ s.log ++ [q], x.WritesFile id
    rw [files_receiveBlob, h.files]
    simp [or_and_right, exists_or]
  sidecars id := by
    show (receiveBlob s.peer q).sidecars id = lastSidecar (s.log ++ [q]) id
    rw [sidecars_receiveBlob, lastSidecar_append, h.sidecars]

lemma Logged.of_peer (h : Logged s) {s' : FanOut} (peer : s'.peer = s.peer) (log : s'.log = s.log) :
    Logged s' where
  files id := by rw [peer, log]; exact h.files id
  sidecars id := by rw [peer, log]; exact h.sidecars id

lemma Logged.writeSidecar (h : Logged s) (id : String) (m : SidecarMeta)
    (progress : Option Progress) : Logged (s.writeSidecar id m progress) := by
  unfold FanOut.writeSidecar
  have local_ : Logged { s with origin := s.origin.writeSidecar id m } := h.of_peer rfl rfl
  dsimp only
  split
  · exact local_.deliver _
  · exact local_

lemma repairOrigin_frame (s : FanOut) (id : String) :
    (s.repairOrigin id).peer = s.peer ∧ (s.repairOrigin id).log = s.log := by
  unfold repairOrigin
  split
  · split <;> exact ⟨rfl, rfl⟩
  · exact ⟨rfl, rfl⟩

section
variable (h : Logged s)
include h

lemma Logged.repairOrigin (parts : List String) :
    Logged (parts.foldl FanOut.repairOrigin s) := by
  induction parts generalizing s with
  | nil => exact h
  | cons id parts ih =>
    exact ih (h.of_peer (repairOrigin_frame s id).1 (repairOrigin_frame s id).2)

lemma Logged.complete (parts : List String) (output : String) (m : SidecarMeta)
    (progress : Option Progress) : Logged (s.complete parts output m progress) := by
  unfold FanOut.complete
  have repaired := h.repairOrigin parts
  dsimp only
  split
  · exact repaired
  · next origin composite _ =>
      have assembled : Logged { parts.foldl FanOut.repairOrigin s with origin } :=
        repaired.of_peer rfl rfl
      exact assembled.writeSidecar output { m with composite } progress

lemma Logged.repairPeer (id : String) (progress : Progress) :
    Logged (s.repairPeer id progress) := by
  unfold FanOut.repairPeer
  split
  · split
    · exact h.deliver _
    · exact h
  · exact h

lemma Logged.step (e : FanOutEvent) : Logged (s.step e) := by
  cases e with
  | put id body => exact h.of_peer rfl rfl
  | writeSidecar id m progress => exact h.writeSidecar id m progress
  | complete parts output m progress => exact h.complete parts output m progress
  | delete id => exact h.of_peer rfl rfl
  | repairPeer id progress => exact h.repairPeer id progress
  | sendObject record =>
    unfold FanOut.step
    dsimp only
    split
    · exact h.of_peer rfl rfl
    · exact h

lemma Logged.file_of_sidecar
    (held : s.peer.sidecars id = some m) (plain : m.composite = none) : (s.peer.files id).isSome := by
  rw [h.sidecars] at held
  obtain ⟨q, mem, ⟨same, accepted, stored⟩, rfl⟩ := exists_of_lastSidecar held
  exact (h.files id).mpr ⟨q, mem, same, accepted, plain, by simp [stored]⟩

lemma Logged.valid_of_sidecar
    (held : s.peer.sidecars id = some m) : blobIdIsValid id = true := by
  rw [h.sidecars] at held
  obtain ⟨q, _, ⟨rfl, accepted, _⟩, _⟩ := exists_of_lastSidecar held
  exact (Bool.and_eq_true_iff.mp accepted).1

end

lemma ne_empty_of_valid (valid : blobIdIsValid id = true) : id ≠ "" := by
  rintro rfl
  revert valid
  decide

lemma ackServes_iff_partsArrived (h : Logged s) (e : FanOutEvent) :
    AckServes s e ↔ PartsArrived s e := by
  cases e with
  | sendObject record =>
    constructor
    · intro serves m held parts composite p mem
      rw [← h.sidecars] at held
      have valid := h.valid_of_sidecar held
      have named := ne_empty_of_valid valid
      have ack : receiveObject s.peer record = some ⟨true, true⟩ := by
        simp [receiveObject, ObjectRecord.hasValidBlobRef, valid, held]
      obtain ⟨m', held', files⟩ := serves named ack
      obtain rfl := Option.some.inj (held.symm.trans held')
      rw [composite] at files
      exact (h.files _).mp (files p mem)
    · intro arrived named ack
      have present : (s.peer.sidecars record.blobId).isSome := by
        unfold receiveObject at ack
        split_ifs at ack
        simpa [named] using ack
      obtain ⟨m, held⟩ := Option.isSome_iff_exists.mp present
      refine ⟨m, held, ?_⟩
      cases composite : m.composite with
      | none => exact h.file_of_sidecar held composite
      | some parts =>
        intro p mem
        exact (h.files _).mpr (arrived m (h.sidecars _ ▸ held) parts composite p mem)
  | _ => exact Iff.rfl

/-- Along every run of requests, full acknowledgements speak the truth exactly
when each row of a composite blob arrives after the files of all its parts. -/
theorem full_ack_serves_iff (origin : BlobDisk) (table : ObjectTable) (es : List FanOutEvent) :
    Run.Each step AckServes (start origin table) es ↔
      Run.Each step PartsArrived (start origin table) es :=
  Run.each_congr (P := Logged) (fun _ e h => h.step e) (fun _ e h => ackServes_iff_partsArrived h e)
    (Logged.start origin table) es

/-- **A peer has the file of every plain blob that it has a sidecar of**, however the requests
were lost or broken off. -/
theorem peer_sidecar_has_file (origin : BlobDisk) (table : ObjectTable) (es : List FanOutEvent) :
    Run.Always step (fun s => ∀ id m, s.peer.sidecars id = some m → blobIdIsValid id = true ∧
      (m.composite = none → (s.peer.files id).isSome)) (start origin table) es := by
  have always := Run.always_of_step (P := Logged) (fun _ e h => h.step e) (Logged.start origin table) es
  exact always.mono fun _ h id m held => ⟨h.valid_of_sidecar held, h.file_of_sidecar held⟩

def partId : String := "00000000-0000-4000-8000-000000000001"

def objectId : String := "00000000-0000-4000-8000-000000000002"

def partSidecar : SidecarMeta :=
  { bucket := "b", key := "k#u#1", size := 1, etag := "55a54008ad1ba589aa210d2629c1df41"
    encryption := false, compression := false, versionId := none, composite := none }

/-- The request for the only part is lost, those for the completed upload are not. -/
def lostPart : List FanOutEvent :=
  [.put partId [1], .writeSidecar partId partSidecar none,
    .complete [partId] objectId { partSidecar with key := "k" } (some .stored),
    .sendObject { ObjectRecord.written with blobId := objectId }]

/-- The peer acknowledges the row in full and has no byte of the object. -/
theorem lostPart_acked : ¬ Run.Each step AckServes (start .empty (.empty true)) lostPart := by
  intro serves
  have canServe := serves.2.2.2.1 (by decide) (by decide +kernel)
  revert canServe
  decide +kernel

end FanOut
end Arca.Cluster
