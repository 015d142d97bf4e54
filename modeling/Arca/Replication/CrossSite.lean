import Arca.Lifecycle.Metadata
import Arca.Replication.Journal

/-!
# Replication of one key to another site

The clients of the source, the worker with the steps of `process_entry`, and the
object of the key at the destination, which is written by the worker alone. The rule
stays, the destination keeps to the protocol of an object store, and no journal
update fails; a delivery can fail with or without effect. A batch has any size, for
entries of other keys take part in it. Blobs do not change, so what is read of one
depends on its id alone.
-/
namespace Arca.Replication.CrossSite
open Cluster Lifecycle ObjectTable Conditional List

structure Link where
  bucket : String
  key : String
  rule : ReplicationRule
  settings : Settings
  content : String → Bytes

abbrev Tags := String → Option String

/-- What replication is to carry over of an object. -/
structure View where
  content : Bytes
  metadata : List (String × String)
  tags : Tags

structure Copy where
  content : Bytes
  contentType : Option String
  metadata : List (String × String)
  tags : Tags
  lastModified : Instant

def Copy.view (c : Copy) : View := ⟨c.content, c.metadata, c.tags⟩

/-- A request that does not commit emits nothing. -/
def commits (m : Metadata) : Client → Bool
  | .write w given d =>
    (w.run d m.store).isOk && (retag w given d m.store.objects m.tags).isSome
  | .putObjectTags bucket key version given => (m.tags.write bucket key version given).isSome
  | _ => true

/-- `single` is true of `DeleteObject` and false of the deletes of a batch or of the
lifecycle worker, which do not emit. -/
def emitInput (m : Metadata) (single : Bool) : Client → Option EmitInput
  | .write (.put o _ _ _) given d | .write (.complete _ o _ _) given d =>
    some ⟨o.bucket, o.key, assignedVersion m.store.objects o.bucket d.uuid, .put, given, []⟩
  | .write (.deleteLatest bucket key _ owner) _ d =>
    (ObjectMutation.deletedLatest m.store.objects bucket key owner d.uuid d.now).bind fun old =>
      if single && old.isDeleteMarker then some ⟨bucket, key, old.versionId, .deleteMarker, [], []⟩
      else none
  | .putObjectTags bucket key version given =>
    some ⟨bucket, key, if version = "" then none else some version, .tag, given, []⟩
  | _ => none

namespace Link
variable (link : Link)

def emitted (m : Metadata) (n : ℕ) (single : Bool) (now : Instant) (c : Client) :
    List JournalEntry :=
  if commits m c then
    ((emitInput m single c).filter fun i => i.bucket = link.bucket && i.key = link.key).toList.flatMap
      fun input => newEntries n [link.rule] input now
  else []

def record (m : Metadata) (e : JournalEntry) : Option ObjectRecord :=
  match e.versionId with
  | some version => liveVersion link.bucket link.key version m.store.objects.rows
  | none => fetchCurrentObject link.bucket link.key m.store.objects.rows

def destinationNewer (m : Metadata) (destination : Option Copy) (e : JournalEntry) : Bool :=
  destination.any fun c => (link.record m e).any fun r =>
    r.lastModified ≤ c.lastModified / 1000000000 * 1000000000

end Link

inductive Payload where
  | put (content : Bytes) (contentType : Option String) (metadata : List (String × String))
  | delete
  | tagging (tags : Tags)

/-- What is sent for an entry; `none` when the object of a put is gone. A put carries
no tags, and the stored names of the metadata once more prefixed. -/
def Link.payload (link : Link) (m : Metadata) (e : JournalEntry) : Option Payload :=
  match e.eventType with
  | .put => (link.record m e).map fun r => .put (link.content r.blobId) r.contentType
      (r.metadata.map fun (k, v) => ("x-amz-meta-" ++ k, v))
  | .deleteMarker => some .delete
  | .tag => some (.tagging (m.tags link.bucket link.key (e.versionId.getD "")))

/-- The destination after a request; `none` when it answers with an error. -/
def Payload.apply (arrival : Instant) (destination : Option Copy) : Payload → Option (Option Copy)
  | .put content contentType metadata =>
    some (some ⟨content, contentType, metadata, fun _ => none, arrival⟩)
  | .delete => some none
  | .tagging tags => destination.map fun c => some { c with tags }

inductive Delivery where
  | answered
  /-- The request took effect, but its answer did not come back. -/
  | unanswered
  | lost
  deriving DecidableEq

inductive Stage where
  | check
  | fetch
  | send (payload : Payload)

structure State where
  source : Metadata
  requests : ℕ
  journal : List JournalEntry
  batch : List JournalEntry
  stage : Stage
  destination : Option Copy

inductive Event where
  | client (c : Client) (single : Bool) (now : Instant)
  | claim (limit : ℕ) (now : Instant)
  /-- The comparison of the times; `reached` is the outcome of the `HEAD` request. -/
  | check (reached : Bool) (now : Instant)
  | fetch (ok : Bool) (now : Instant)
  | send (delivery : Delivery) (arrival now : Instant)

namespace State

def done (s : State) (e : JournalEntry) (rest : List JournalEntry) (now : Instant) : State :=
  { s with batch := rest, stage := .check, journal := complete e now s.journal }

def failed (s : State) (settings : Settings) (e : JournalEntry) (rest : List JournalEntry)
    (error : String) (now : Instant) : State :=
  { s with batch := rest, stage := .check, journal := markFailed settings e error now s.journal }

end State

variable (link : Link)

section
variable (s : State)

def step : Event → State
  | .client c single now =>
    { s with
      source := s.source.serve c
      requests := s.requests + 1
      journal := s.journal ++ link.emitted s.source s.requests single now c }
  | .claim limit now =>
    if s.batch = [] then
      let (journal, batch) := claimBatch limit now s.journal
      { s with journal, batch }
    else s
  | .check reached now => match s.stage, s.batch with
      | .check, e :: rest =>
        if reached && link.destinationNewer s.source s.destination e && e.eventType = .put then
          s.done e rest now
        else { s with stage := .fetch }
      | _, _ => s
  | .fetch ok now => match s.stage, s.batch with
      | .fetch, e :: rest =>
        if ok then match link.payload s.source e with
          | some payload => { s with stage := .send payload }
          | none => s.done e rest now
        else s.failed link.settings e rest "network error" now
      | _, _ => s
  | .send delivery arrival now => match s.stage, s.batch with
      | .send payload, e :: rest => match delivery, payload.apply arrival s.destination with
          | .answered, some destination => { s with destination }.done e rest now
          | .unanswered, some destination =>
            { s with destination }.failed link.settings e rest "network error" now
          | _, _ => s.failed link.settings e rest "network error" now
      | _, _ => s

def Link.current (m : Metadata) : Option View :=
  (fetchCurrentObject link.bucket link.key m.store.objects.rows).map fun r =>
    ⟨link.content r.blobId, r.metadata, m.tags link.bucket link.key (r.versionId.getD "")⟩

def Agree : Prop := link.current s.source = s.destination.map Copy.view

def Quiet : Prop := ∀ e ∈ s.journal, e.status = .completed

def Converged : Prop := Quiet s → Agree link s

def State.Last (e : JournalEntry) : Prop :=
  ∀ r ∈ s.journal, r.id = e.id ∨ r.status = .completed

/-- The object at the destination is the current one after the request. -/
def Suits : Payload → Prop
  | .put content _ metadata => link.current s.source = some ⟨content, metadata, fun _ => none⟩
  | .delete => link.current s.source = none
  | .tagging tags => ∀ c, s.destination = some c →
      link.current s.source = some ⟨c.content, c.metadata, tags⟩

/-- A request without an entry leaves the current object as it is, unless entries are open; and
what is done for the last open entry brings the destination to the current object. -/
def Brings : Event → Prop
  | .client c single now => link.emitted s.source s.requests single now c = [] → Quiet s →
      link.current (s.source.serve c) = link.current s.source
  | .claim .. => True
  | .check reached _ => ∀ e rest, s.stage = .check → s.batch = e :: rest → s.Last e →
      reached → link.destinationNewer s.source s.destination e → e.eventType = .put → Agree link s
  | .fetch ok _ => ∀ e rest, s.stage = .fetch → s.batch = e :: rest → s.Last e →
      ok → link.payload s.source e = none → Agree link s
  | .send delivery _ _ => ∀ payload e rest, s.stage = .send payload → s.batch = e :: rest →
      s.Last e → delivery = .answered → Suits link s payload

def Held : Prop := ∀ e ∈ s.batch, ∃ r ∈ s.journal, r.id = e.id

end

variable {link} {s : State}
  {now : Instant} {e : JournalEntry} {rest : List JournalEntry} {settings : Settings}

lemma exists_updateStatus {id id' : EntryId} {status : Status} {attempts : ℕ}
    {error : Option String} {next : Instant} {rows : List JournalEntry}
    (there : ∃ r ∈ rows, r.id = id') :
    ∃ r ∈ updateStatus id status attempts error next now rows,
      r.id = id' ∧ (id' = id → r.status = status) := by
  obtain ⟨r, row, rfl⟩ := there
  refine ⟨_, mem_map_of_mem row, ?_⟩
  split
  · exact ⟨rfl, fun _ => rfl⟩
  · next other => exact ⟨rfl, fun same => absurd same other⟩

lemma held_done (batch : s.batch = e :: rest)
    (held : Held s) (now : Instant) : Held (s.done e rest now) := by
  intro e' member
  obtain ⟨r, row, same, _⟩ := exists_updateStatus (held e' (batch ▸ mem_cons_of_mem _ member))
  exact ⟨r, row, same⟩

lemma held_failed (batch : s.batch = e :: rest) (held : Held s) {error : String} :
    Held (s.failed settings e rest error now) := by
  intro e' member
  obtain ⟨r, row, same, _⟩ := exists_updateStatus (held e' (batch ▸ mem_cons_of_mem _ member))
  exact ⟨r, row, same⟩

lemma quiet_done_iff : Quiet (s.done e rest now) ↔ s.Last e := by
  refine forall_mem_map.trans (forall₂_congr fun r _ => ?_)
  split
  · next same => exact iff_of_true rfl (.inl same)
  · next other => exact (or_iff_right other).symm

lemma not_quiet_failed (batch : s.batch = e :: rest) (held : Held s) {error : String} :
    ¬ Quiet (s.failed settings e rest error now) := by
  intro quiet
  obtain ⟨r, row, _, status⟩ := exists_updateStatus (held e (batch ▸ mem_cons_self))
  have done := quiet r row
  rw [status rfl] at done
  split at done <;> cases done

lemma converged_done_iff : Converged link (s.done e rest now) ↔ (s.Last e → Agree link s) :=
  imp_congr quiet_done_iff Iff.rfl

lemma agree_apply_iff {payload : Payload} {arrival : Instant} {destination : Option Copy}
    (applied : payload.apply arrival s.destination = some destination) :
    Agree link { s with destination } ↔ Suits link s payload := by
  cases payload with
  | put content contentType metadata => cases applied; exact Iff.rfl
  | delete => cases applied; exact Iff.rfl
  | tagging tags =>
    obtain ⟨c, there, rfl⟩ := Option.map_eq_some_iff.mp applied
    refine ⟨fun agree c' there' => ?_, fun suits => suits c there⟩
    cases there.symm.trans there'
    exact agree

lemma held_step (held : Held s) (ev : Event) : Held (step link s ev) := by
  cases ev with
  | client c single now =>
    intro e member
    obtain ⟨r, row, same⟩ := held e member
    exact ⟨r, mem_append_left _ row, same⟩
  | claim limit now =>
    dsimp only [step]
    split
    · exact fun e member => ⟨e, (mem_filter.mp member).1, rfl⟩
    · exact held
  | check reached now =>
    dsimp only [step]
    split
    · next e rest _ batch =>
        split
        · exact held_done batch held now
        · exact held
    · exact held
  | fetch ok now =>
    dsimp only [step]
    split
    · next e rest _ batch =>
        split
        · split
          · exact held
          · exact held_done batch held now
        · exact held_failed batch held
    · exact held
  | send delivery arrival now =>
    dsimp only [step]
    split
    · next payload e rest _ batch =>
        split
        · exact held_done (s := { s with destination := _ }) batch held now
        · exact held_failed (s := { s with destination := _ }) batch held
        · exact held_failed batch held
    · exact held

lemma converged_client (kept : Converged link s) (c : Client) (single : Bool) (now : Instant) :
    Converged link (step link s (.client c single now)) ↔ Brings link s (.client c single now) := by
  have new : ∀ e ∈ link.emitted s.source s.requests single now c, e.status = .pending := by
    intro e member
    unfold Link.emitted at member
    split at member
    · obtain ⟨input, _, entry⟩ := mem_flatMap.mp member
      obtain ⟨i, bound, rfl⟩ := mem_mapIdx.mp entry
      rfl
    · cases member
  have quiet_iff : Quiet (step link s (.client c single now)) ↔
      link.emitted s.source s.requests single now c = [] ∧ Quiet s := by
    constructor
    · intro quiet
      refine ⟨eq_nil_iff_forall_not_mem.mpr fun e member => ?_,
        fun e member => quiet e (mem_append_left _ member)⟩
      have done := quiet e (mem_append_right _ member)
      rw [new e member] at done
      cases done
    · rintro ⟨none_emitted, quiet⟩ e member
      change e ∈ s.journal ++ _ at member
      rw [none_emitted, append_nil] at member
      exact quiet e member
  rw [Converged, quiet_iff, and_imp]
  refine imp_congr_right fun _ => imp_congr_right fun quiet => ?_
  change link.current (s.source.serve c) = s.destination.map Copy.view ↔ _
  rw [← show link.current s.source = s.destination.map Copy.view from kept quiet]

lemma converged_claim (kept : Converged link s) (limit : ℕ) (now : Instant) :
    Converged link (step link s (.claim limit now)) := by
  dsimp only [step]
  split
  · intro quiet
    refine kept fun e member => ?_
    have there := quiet _ (mem_claimBatch_iff.mpr ⟨e, member, rfl⟩)
    split at there
    · cases there
    · exact there
  · exact kept

lemma forall_head_iff {at_stage : Prop} {Q : JournalEntry → Prop} (stage : at_stage)
    (batch : s.batch = e :: rest) :
    (∀ e rest, at_stage → s.batch = e :: rest → Q e) ↔ Q e := by
  simp_all

lemma converged_check (kept : Converged link s) (reached : Bool) (now : Instant) :
    Converged link (step link s (.check reached now)) ↔ Brings link s (.check reached now) := by
  dsimp only [step, Brings]
  split
  · next e rest stage batch =>
      rw [forall_head_iff (Q := fun e => s.Last e → reached → link.destinationNewer s.source
        s.destination e → e.eventType = .put → Agree link s) stage batch]
      split
      · next skips =>
          simp only [Bool.and_eq_true, decide_eq_true_eq] at skips
          rw [converged_done_iff]
          simp only [skips, forall_const]
      · next goes =>
          refine iff_of_true kept fun _ h₁ h₂ h₃ => absurd ?_ goes
          simp only [h₁, h₂, h₃, decide_true, Bool.and_true]
  · next other =>
      exact iff_of_true kept fun e rest stage batch => absurd batch (other e rest stage)

lemma converged_fetch (held : Held s) (kept : Converged link s) (ok : Bool) (now : Instant) :
    Converged link (step link s (.fetch ok now)) ↔ Brings link s (.fetch ok now) := by
  dsimp only [step, Brings]
  split
  · next e rest stage batch =>
      rw [forall_head_iff (Q := fun e => s.Last e → ok → link.payload s.source e = none →
        Agree link s) stage batch]
      split
      · next good =>
          split
          · next payload found =>
              refine iff_of_true kept fun _ _ gone => ?_
              rw [found] at gone
              cases gone
          · next gone =>
              rw [converged_done_iff]
              simp only [good, gone, forall_const]
      · next bad =>
          exact iff_of_true (fun quiet => absurd quiet (not_quiet_failed batch held))
            fun _ good => absurd good bad
  · next other =>
      exact iff_of_true kept fun e rest stage batch => absurd batch (other e rest stage)

lemma converged_send (held : Held s) (kept : Converged link s) (delivery : Delivery)
    (arrival now : Instant) : Converged link (step link s (.send delivery arrival now)) ↔
      Brings link s (.send delivery arrival now) := by
  dsimp only [step, Brings]
  split
  · next payload e rest stage batch =>
      have here : (∀ payload' e' rest', s.stage = .send payload' → s.batch = e' :: rest' →
          s.Last e' → delivery = .answered → Suits link s payload') ↔
          (s.Last e → delivery = .answered → Suits link s payload) := by
        simp_all
      rw [here]
      split
      · next destination applied =>
          rw [converged_done_iff, agree_apply_iff applied]
          simp only [forall_const]
          exact Iff.rfl
      · next destination applied =>
          refine iff_of_true (fun quiet => absurd quiet ?_) fun _ => (nomatch ·)
          exact not_quiet_failed (s := { s with destination }) batch held
      · next answered _ =>
          refine iff_of_true (fun quiet => absurd quiet (not_quiet_failed batch held)) ?_
          rintro _ rfl
          cases applied : payload.apply arrival s.destination with
          | some destination => exact absurd applied (answered destination rfl)
          | none =>
            -- only tags can be refused, for want of an object
            cases payload with
            | put | delete => cases applied
            | tagging tags =>
              intro c there
              rw [Payload.apply, there] at applied
              cases applied
  · next other =>
      exact iff_of_true kept fun payload e rest stage batch => absurd batch (other payload e rest stage)

lemma converged_step (held : Held s) (kept : Converged link s) (ev : Event) :
    Converged link (step link s ev) ↔ Brings link s ev := by
  cases ev with
  | client c single now => exact converged_client kept c single now
  | claim limit now => exact iff_of_true (converged_claim kept limit now) trivial
  | check reached now => exact converged_check kept reached now
  | fetch ok now => exact converged_fetch held kept ok now
  | send delivery arrival now => exact converged_send held kept delivery arrival now

/-- A source without objects, with versioning as it may be. -/
def start (versioning : String → VersioningState) (clusterMode : Bool) : State where
  source :=
    { store := ⟨⟨[], versioning, clusterMode⟩, ⟨[], []⟩⟩
      tags _ _ _ _ := none
      buckets := []
      rules _ := none
      one _ _ := Nat.zero_le _ }
  requests := 0
  journal := []
  batch := []
  stage := .check
  destination := none

def sampleLink : Link where
  bucket := "b"
  key := "k"
  rule := ⟨"r", .enabled, .empty, ⟨"copy", "https://replica.example.com", "us-east-1", "c"⟩, .enabled⟩
  settings := ⟨100, 10, 5⟩
  content blob := blob.toList.map fun c => UInt8.ofNat c.toNat

def put (blob version : String) (now : Instant) : Event :=
  .client (.write (.put (freshObject blob "e") .unset now ⟨none, none⟩) [] ⟨version, now⟩) true now

/-- Both versions are written before the first is delivered, so its copy is younger
than the second version. -/
def overtaken : List Event :=
  [put "A" "v1" 1000000000, put "B" "v2" 2000000000, .claim 100 3000000000, .check true 3000000000,
    .fetch true 3000000000, .send .answered 3000000000 3000000000, .check true 4000000000]

end Arca.Replication.CrossSite
