import Arca.Lib.Run
import Arca.Lib.Volatile

/-!
# In-place rewrite of a blob and its sidecar

`commit_rewrite_sync` and `resolve_pending_sync` with a step for each call to the
file system, over the four files of one blob, which are in one directory. Each call
can fail, and between any two calls the machine can crash. A rename or removal is
durable once the directory is synchronised; until then a crash can undo it on its
own. The new blob and the journal are written and synchronised before they get
their names. Contents are never looked at, so they are of any type.
-/
namespace Arca.InPlace
open Volatile

structure Files (β μ : Type) where
  blob : β
  sidecar : μ
  tmp : Option β
  pending : Option μ

inductive Change (μ : Type) where
  | writeJournal (sidecar : μ)
  | swap
  | publish
  | removeTmp
  | removeJournal

variable {β μ : Type}

/-- A rename without its source changes nothing. -/
def Files.apply (f : Files β μ) : Change μ → Files β μ
  | .writeJournal m => { f with pending := some m }
  | .swap => match f.tmp with
      | some b => { f with blob := b, tmp := none }
      | none => f
  | .publish => match f.pending with
      | some m => { f with sidecar := m, pending := none }
      | none => f
  | .removeTmp => { f with tmp := none }
  | .removeJournal => { f with pending := none }

abbrev Disk (β μ : Type) := Cached (Files β μ) (Change μ)

inductive Stage where
  | stopped
  | journal
  | syncJournal
  | dropTmp
  | swap
  | undoTmp
  | undoJournal
  | syncSwap
  | publish
  | syncPublish
  | removeTmp
  | discardTmp
  | discardJournal
  deriving DecidableEq

structure State (β μ : Type) where
  disk : Disk β μ
  stage : Stage
  newSidecar : μ

inductive Event where
  | advance (ok : Bool)
  | crash (keep : Nat → Bool)
  | resolve

namespace State

section
variable (s : State β μ)

def files : Files β μ := s.disk.visible Files.apply

def push (c : Change μ) (next : Stage) : State β μ :=
  { s with disk := s.disk.push c, stage := next }

variable (next : Stage)

def sync : State β μ :=
  { s with disk := s.disk.sync Files.apply, stage := next }

def goto : State β μ := { s with stage := next }

@[simp] lemma files_push (c : Change μ) (next : Stage) :
    (s.push c next).files = s.files.apply c := visible_push c

@[simp] lemma files_sync : (s.sync next).files = s.files := rfl

def succeed : State β μ :=
  match s.stage with
  | .stopped => s
  | .journal => s.push (.writeJournal s.newSidecar) .syncJournal
  | .syncJournal => s.sync .swap
  | .dropTmp => s.push .removeTmp .stopped
  | .swap => s.push .swap .syncSwap
  | .undoTmp => s.push .removeTmp .undoJournal
  | .undoJournal => s.push .removeJournal .stopped
  | .syncSwap => s.sync .publish
  | .publish => s.push .publish .syncPublish
  | .syncPublish => s.sync .stopped
  | .removeTmp => s.push .removeTmp .stopped
  | .discardTmp => s.push .removeTmp .discardJournal
  | .discardJournal => s.push .removeJournal .stopped

/-- Where the code goes on after a call that fails. -/
def afterFailure : Stage → Stage
  | .journal | .syncJournal => .dropTmp
  | .swap => .undoTmp
  | .undoTmp => .undoJournal
  | _ => .stopped

/-- The first look of `resolve_pending_sync`. -/
def look : Stage :=
  match s.files.pending, s.files.tmp with
  | none, none => .stopped
  | none, some _ => .removeTmp
  | some _, some _ => .discardTmp
  | some _, none => .publish

end

end State

def step (s : State β μ) : Event → State β μ
  | .advance true => s.succeed
  | .advance false => s.goto (State.afterFailure s.stage)
  | .crash keep => { s with disk := s.disk.crash Files.apply keep, stage := .stopped }
  | .resolve => if s.stage = .stopped then s.goto s.look else s

def start (blob newBlob : β) (sidecar newSidecar : μ) : State β μ :=
  ⟨⟨⟨blob, sidecar, some newBlob, none⟩, []⟩, .journal, newSidecar⟩

def resolved (s : State β μ) : State β μ :=
  [Event.resolve, .advance true, .advance true].foldl step s

/-- What it makes of the files. -/
def Files.resolve (f : Files β μ) : Files β μ :=
  match f.pending, f.tmp with
  | none, _ => { f with tmp := none }
  | some _, some _ => { f with tmp := none, pending := none }
  | some m, none => { f with sidecar := m, pending := none }

lemma resolved_spec {s : State β μ} (stopped : s.stage = .stopped) :
    (resolved s).stage = .stopped ∧ (resolved s).files = s.files.resolve := by
  have began : resolved s = ((s.goto s.look).succeed).succeed := by
    simp [resolved, step, stopped]
  rw [began]
  unfold State.look Files.resolve
  cases journal : s.files.pending with
  | none =>
    cases tmp : s.files.tmp with
    | none =>
      refine ⟨rfl, ?_⟩
      change s.files = ⟨s.files.blob, s.files.sidecar, none, none⟩
      rw [← journal, ← tmp]
    | some b =>
      have run : ((s.goto .removeTmp).succeed).succeed = s.push .removeTmp .stopped := rfl
      refine ⟨rfl, (congrArg State.files run).trans ?_⟩
      rw [State.files_push, Files.apply, journal]
  | some m =>
    cases tmp : s.files.tmp with
    | some b =>
      have run : ((s.goto .discardTmp).succeed).succeed =
        (s.push .removeTmp .discardJournal).push .removeJournal .stopped := rfl
      refine ⟨rfl, (congrArg State.files run).trans ?_⟩
      rw [State.files_push, State.files_push, Files.apply, Files.apply]
    | none =>
      have run : ((s.goto .publish).succeed).succeed = (s.push .publish .syncPublish).sync .stopped := rfl
      refine ⟨rfl, (congrArg State.files run).trans ?_⟩
      rw [State.files_sync, State.files_push, Files.apply, journal, tmp]

section
variable (blob newBlob : β) (sidecar newSidecar : μ)

/-- The pair is one of the two, and nothing of the rewrite is left. -/
def Whole (f : Files β μ) : Prop :=
  f.tmp = none ∧ f.pending = none ∧
    ((f.blob = blob ∧ f.sidecar = sidecar) ∨ (f.blob = newBlob ∧ f.sidecar = newSidecar))

/-- Once nothing runs, a resolve that completes makes the pair whole. -/
def Recovers (s : State β μ) : Prop :=
  s.stage = .stopped → (resolved s).stage = .stopped ∧
    Whole blob newBlob sidecar newSidecar (resolved s).files

end

/-- A crash does not keep the removal of the new blob when the journal stays, nor the
new sidecar without the new blob. -/
def KeptOrderly (f : Files β μ) (unsynced kept : List (Change μ)) : Prop :=
  (.removeTmp ∈ kept → .removeJournal ∈ kept ∨ (f.pending = none ∧ ∀ m, .writeJournal m ∉ kept)) ∧
    (.publish ∈ kept → .swap ∈ unsynced → .swap ∈ kept)

/-- Nor is the new blob removed before the journal, which would still name it. -/
def Orderly (s : State β μ) : Event → Prop
  | .crash keep => KeptOrderly s.disk.durable s.disk.unsynced (survivors keep 0 s.disk.unsynced)
  | .advance ok => match s.stage with
      | .dropTmp => ok = true → s.files.pending = none
      | .undoJournal | .discardJournal => ok = false → s.files.tmp ≠ none
      | _ => True
  | .resolve => True

section
variable (blob newBlob : β) (sidecar newSidecar : μ)

inductive Rest : Files β μ → List (Change μ) → Prop
  | old : Rest ⟨blob, sidecar, none, none⟩ []
  | begun : Rest ⟨blob, sidecar, some newBlob, none⟩ []
  | dropped : Rest ⟨blob, sidecar, some newBlob, none⟩ [.removeTmp]
  | journaling : Rest ⟨blob, sidecar, some newBlob, none⟩ [.writeJournal newSidecar]
  | journaling_undone :
      Rest ⟨blob, sidecar, some newBlob, none⟩ [.writeJournal newSidecar, .removeTmp, .removeJournal]
  | journaled : Rest ⟨blob, sidecar, some newBlob, some newSidecar⟩ []
  | undone : Rest ⟨blob, sidecar, some newBlob, some newSidecar⟩ [.removeTmp, .removeJournal]
  | withdrawn : Rest ⟨blob, sidecar, some newBlob, some newSidecar⟩ [.removeJournal]
  | withdrawn_dropped :
      Rest ⟨blob, sidecar, some newBlob, some newSidecar⟩ [.removeJournal, .removeTmp]
  | swapping : Rest ⟨blob, sidecar, some newBlob, some newSidecar⟩ [.swap]
  | swapping_publishing : Rest ⟨blob, sidecar, some newBlob, some newSidecar⟩ [.swap, .publish]
  | swapped : Rest ⟨newBlob, sidecar, none, some newSidecar⟩ []
  | publishing : Rest ⟨newBlob, sidecar, none, some newSidecar⟩ [.publish]
  | new : Rest ⟨newBlob, newSidecar, none, none⟩ []

inductive Config : Stage → Files β μ → List (Change μ) → Prop
  | stopped {f l} (rest : Rest blob newBlob sidecar newSidecar f l) : Config .stopped f l
  | journal : Config .journal ⟨blob, sidecar, some newBlob, none⟩ []
  | syncJournal :
      Config .syncJournal ⟨blob, sidecar, some newBlob, none⟩ [.writeJournal newSidecar]
  | dropTmp : Config .dropTmp ⟨blob, sidecar, some newBlob, none⟩ []
  | dropTmp_journaling :
      Config .dropTmp ⟨blob, sidecar, some newBlob, none⟩ [.writeJournal newSidecar]
  | swap : Config .swap ⟨blob, sidecar, some newBlob, some newSidecar⟩ []
  | undoTmp : Config .undoTmp ⟨blob, sidecar, some newBlob, some newSidecar⟩ []
  | undoJournal : Config .undoJournal ⟨blob, sidecar, some newBlob, some newSidecar⟩ []
  | undoJournal_dropped :
      Config .undoJournal ⟨blob, sidecar, some newBlob, some newSidecar⟩ [.removeTmp]
  | syncSwap : Config .syncSwap ⟨blob, sidecar, some newBlob, some newSidecar⟩ [.swap]
  | publish : Config .publish ⟨newBlob, sidecar, none, some newSidecar⟩ []
  | publish_swapping : Config .publish ⟨blob, sidecar, some newBlob, some newSidecar⟩ [.swap]
  | syncPublish : Config .syncPublish ⟨newBlob, sidecar, none, some newSidecar⟩ [.publish]
  | syncPublish_swapping :
      Config .syncPublish ⟨blob, sidecar, some newBlob, some newSidecar⟩ [.swap, .publish]
  | removeTmp : Config .removeTmp ⟨blob, sidecar, some newBlob, none⟩ []
  | removeTmp_withdrawn :
      Config .removeTmp ⟨blob, sidecar, some newBlob, some newSidecar⟩ [.removeJournal]
  | discardTmp : Config .discardTmp ⟨blob, sidecar, some newBlob, some newSidecar⟩ []
  | discardTmp_journaling :
      Config .discardTmp ⟨blob, sidecar, some newBlob, none⟩ [.writeJournal newSidecar]
  | discardJournal :
      Config .discardJournal ⟨blob, sidecar, some newBlob, some newSidecar⟩ [.removeTmp]
  | discardJournal_journaling :
      Config .discardJournal ⟨blob, sidecar, some newBlob, none⟩ [.writeJournal newSidecar, .removeTmp]

def Inv (s : State β μ) : Prop :=
  Config blob newBlob sidecar newSidecar s.stage s.disk.durable s.disk.unsynced ∧
    s.newSidecar = newSidecar

end

variable {blob newBlob : β} {sidecar newSidecar : μ} {s : State β μ}

lemma inv_start : Inv blob newBlob sidecar newSidecar (start blob newBlob sidecar newSidecar) :=
  ⟨.journal, rfl⟩

variable {f : Files β μ} {l : List (Change μ)}

lemma whole_of_rest (h : Rest blob newBlob sidecar newSidecar f l) :
    Whole blob newBlob sidecar newSidecar (l.foldl Files.apply f).resolve := by
  cases h <;> simp [Files.apply, Files.resolve, Whole]

section
variable (h : Inv blob newBlob sidecar newSidecar s)
include h

lemma recovers_of_inv : Recovers blob newBlob sidecar newSidecar s := by
  intro stopped
  obtain ⟨ends, files⟩ := resolved_spec stopped
  refine ⟨ends, ?_⟩
  rw [files]
  have config := h.1
  rw [stopped] at config
  cases config with
  | stopped rest => exact whole_of_rest rest

lemma inv_advance {ok : Bool}
    (orderly : Orderly s (.advance ok)) : Inv blob newBlob sidecar newSidecar (step s (.advance ok)) := by
  obtain ⟨⟨f, l⟩, stage, m⟩ := s
  change Config _ _ _ _ stage f l ∧ m = newSidecar at h
  obtain ⟨config, rfl⟩ := h
  refine ⟨?_, by cases ok <;> cases stage <;> rfl⟩
  cases config with
  | stopped rest => cases ok <;> exact .stopped rest
  | dropTmp_journaling =>
    cases ok with
    | true => cases orderly rfl
    | false => exact .stopped .journaling
  | undoJournal_dropped | discardJournal =>
    cases ok with
    | true => exact .stopped .undone
    | false => exact absurd rfl (orderly rfl)
  | discardJournal_journaling =>
    cases ok with
    | true => exact .stopped .journaling_undone
    | false => exact absurd rfl (orderly rfl)
  | _ => cases ok <;> constructor <;> constructor

lemma inv_resolve : Inv blob newBlob sidecar newSidecar (step s .resolve) := by
  by_cases stopped : s.stage = .stopped
  · have began : step s .resolve = s.goto s.look := if_pos stopped
    obtain ⟨⟨f, l⟩, stage, m⟩ := s
    change Config _ _ _ _ stage f l ∧ m = newSidecar at h
    obtain ⟨config, rfl⟩ := h
    cases stopped
    cases config with
    | stopped rest => exact ⟨by cases rest <;> constructor <;> constructor, rfl⟩
  · have busy : step s .resolve = s := if_neg stopped
    rw [busy]
    exact h

end

/-- What a crash can leave of the files. -/
lemma crash_cases {stage : Stage}
    (h : Config blob newBlob sidecar newSidecar stage f l) (keep : Nat → Bool) :
    (KeptOrderly f l (survivors keep 0 l) ∧
      Rest blob newBlob sidecar newSidecar ((survivors keep 0 l).foldl Files.apply f) []) ∨
    (¬ KeptOrderly f l (survivors keep 0 l) ∧
      ((survivors keep 0 l).foldl Files.apply f).resolve = ⟨blob, newSidecar, none, none⟩) := by
  cases h with
  | stopped rest =>
    cases rest <;> cases h0 : keep 0 <;> cases h1 : keep 1 <;> cases h2 : keep 2 <;>
      simp [KeptOrderly, survivors, h0, h1, h2, Files.apply, Files.resolve] <;> constructor
  | _ =>
    cases h0 : keep 0 <;> cases h1 : keep 1 <;>
      simp [KeptOrderly, survivors, h0, h1, Files.apply, Files.resolve] <;> constructor

lemma inv_step (h : Inv blob newBlob sidecar newSidecar s) (e : Event) (orderly : Orderly s e) :
    Inv blob newBlob sidecar newSidecar (step s e) := by
  cases e with
  | advance ok => exact inv_advance h orderly
  | resolve => exact inv_resolve h
  | crash keep =>
    obtain ⟨-, rest⟩ | ⟨torn, -⟩ := crash_cases h.1 keep
    · exact ⟨.stopped rest, h.2⟩
    · exact absurd orderly torn

lemma not_recovers (blobs : blob ≠ newBlob) (sidecars : sidecar ≠ newSidecar)
    (stopped : s.stage = .stopped) (files : s.files.resolve = ⟨blob, newSidecar, none, none⟩) :
    ¬ Recovers blob newBlob sidecar newSidecar s := by
  intro recovers
  obtain ⟨-, -, -, pair⟩ := recovers stopped
  rw [(resolved_spec stopped).2, files] at pair
  exact pair.elim (fun old => sidecars old.2.symm) fun new => blobs new.1

lemma not_recovers_step (blobs : blob ≠ newBlob) (sidecars : sidecar ≠ newSidecar)
    (h : Inv blob newBlob sidecar newSidecar s) (e : Event) (torn : ¬ Orderly s e) :
    ¬ Recovers blob newBlob sidecar newSidecar (step s e) := by
  cases e with
  | resolve => exact absurd trivial torn
  | crash keep =>
    obtain ⟨orderly, -⟩ | ⟨-, mixed⟩ := crash_cases h.1 keep
    · exact absurd orderly torn
    · exact not_recovers blobs sidecars rfl mixed
  | advance ok =>
    obtain ⟨⟨f, l⟩, stage, m⟩ := s
    change Config _ _ _ _ stage f l ∧ m = newSidecar at h
    obtain ⟨config, rfl⟩ := h
    cases config with
    | dropTmp_journaling =>
      cases ok with
      | true => exact not_recovers blobs sidecars rfl rfl
      | false => exact absurd (nomatch ·) torn
    | undoJournal_dropped | discardJournal | discardJournal_journaling =>
      cases ok with
      | true => exact absurd (nomatch ·) torn
      | false => exact not_recovers blobs sidecars rfl rfl
    | dropTmp => exact absurd (fun _ => rfl) torn
    | undoJournal => exact absurd (fun _ => (nomatch ·)) torn
    | _ => exact absurd trivial torn

/-- Each file has a content of the rewrite. -/
structure Drawn (blob newBlob : β) (sidecar newSidecar : μ) (f : Files β μ) : Prop where
  blob : f.blob = blob ∨ f.blob = newBlob
  sidecar : f.sidecar = sidecar ∨ f.sidecar = newSidecar
  tmp : ∀ b, f.tmp = some b → b = newBlob
  pending : ∀ m, f.pending = some m → m = newSidecar

lemma Drawn.apply (h : Drawn blob newBlob sidecar newSidecar f) {c : Change μ}
    (written : ∀ m, c = .writeJournal m → m = newSidecar) :
    Drawn blob newBlob sidecar newSidecar (f.apply c) := by
  cases c with
  | writeJournal m => exact ⟨h.blob, h.sidecar, h.tmp, fun _ same => Option.some.inj same ▸ written m rfl⟩
  | swap =>
    dsimp only [Files.apply]
    split
    · next b there => exact ⟨.inr (h.tmp b there), h.sidecar, nofun, h.pending⟩
    · exact h
  | publish =>
    dsimp only [Files.apply]
    split
    · next m there => exact ⟨h.blob, .inr (h.pending m there), h.tmp, nofun⟩
    · exact h
  | removeTmp => exact ⟨h.blob, h.sidecar, nofun, h.pending⟩
  | removeJournal => exact ⟨h.blob, h.sidecar, h.tmp, nofun⟩

lemma Drawn.foldl (h : Drawn blob newBlob sidecar newSidecar f)
    (written : ∀ m, .writeJournal m ∈ l → m = newSidecar) :
    Drawn blob newBlob sidecar newSidecar (l.foldl Files.apply f) := by
  induction l generalizing f with
  | nil => exact h
  | cons c l ih =>
    refine ih (h.apply ?_) fun m mem => written m (List.mem_cons_of_mem c mem)
    rintro m rfl
    exact written m List.mem_cons_self

structure DrawnState (blob newBlob : β) (sidecar newSidecar : μ) (s : State β μ) : Prop where
  durable : Drawn blob newBlob sidecar newSidecar s.disk.durable
  written : ∀ m, .writeJournal m ∈ s.disk.unsynced → m = newSidecar
  newSidecar : s.newSidecar = newSidecar

section
variable (h : DrawnState blob newBlob sidecar newSidecar s)
include h

lemma DrawnState.push {c : Change μ}
    (written : ∀ m, c = .writeJournal m → m = newSidecar) (next : Stage) :
    DrawnState blob newBlob sidecar newSidecar (s.push c next) := by
  refine ⟨h.durable, fun m mem => ?_, h.newSidecar⟩
  obtain earlier | last := List.mem_append.mp mem
  · exact h.written m earlier
  · exact written m (List.mem_singleton.mp last).symm

lemma DrawnState.sync (next : Stage) : DrawnState blob newBlob sidecar newSidecar (s.sync next) :=
  ⟨h.durable.foldl h.written, nofun, h.newSidecar⟩

lemma DrawnState.step (e : Event) : DrawnState blob newBlob sidecar newSidecar (step s e) := by
  cases e with
  | resolve =>
    dsimp only [InPlace.step]
    split
    · exact ⟨h.durable, h.written, h.newSidecar⟩
    · exact h
  | crash keep =>
    exact ⟨h.durable.foldl fun m mem => h.written m (mem_of_mem_survivors mem), nofun, h.newSidecar⟩
  | advance ok =>
    cases ok with
    | false => exact ⟨h.durable, h.written, h.newSidecar⟩
    | true =>
      dsimp only [InPlace.step, State.succeed]
      cases s.stage with
      | stopped => exact h
      | journal => exact h.push (fun m same => (Change.writeJournal.inj same).symm.trans h.newSidecar) _
      | syncJournal | syncSwap | syncPublish => exact h.sync _
      | dropTmp | swap | undoTmp | undoJournal | publish | removeTmp | discardTmp
      | discardJournal =>
        refine h.push (fun m same => ?_) _
        cases same

end

lemma recovers_of_drawn (same : blob = newBlob ∨ sidecar = newSidecar)
    (h : DrawnState blob newBlob sidecar newSidecar s) : Recovers blob newBlob sidecar newSidecar s := by
  intro stopped
  obtain ⟨ends, files⟩ := resolved_spec stopped
  have drawn : Drawn blob newBlob sidecar newSidecar s.files := h.durable.foldl h.written
  refine ⟨ends, ?_⟩
  rw [files]
  generalize s.files = f at drawn
  obtain ⟨b, m, tmp, pending⟩ := f
  have one_of : ∀ x, x = sidecar ∨ x = newSidecar →
      (b = blob ∧ x = sidecar) ∨ (b = newBlob ∧ x = newSidecar) := by
    intro x sidecars
    obtain rfl | rfl := same
    · exact sidecars.imp (⟨drawn.blob.elim id id, ·⟩) (⟨drawn.blob.elim id id, ·⟩)
    · exact drawn.blob.imp (⟨·, sidecars.elim id id⟩) (⟨·, sidecars.elim id id⟩)
  cases pending with
  | none => exact ⟨rfl, rfl, one_of m drawn.sidecar⟩
  | some journal =>
    cases tmp with
    | some new => exact ⟨rfl, rfl, one_of m drawn.sidecar⟩
    | none => exact ⟨rfl, rfl, one_of journal (.inr (drawn.pending journal rfl))⟩

/-- However it is interrupted, a rewrite ends with the old pair or the new one exactly when the
files are removed in order. -/
theorem rewrite_recovers_iff (blob newBlob : β) (sidecar newSidecar : μ) (es : List Event) :
    Run.Always step (Recovers blob newBlob sidecar newSidecar)
        (start blob newBlob sidecar newSidecar) es ↔
      blob = newBlob ∨ sidecar = newSidecar ∨
        Run.Each step Orderly (start blob newBlob sidecar newSidecar) es := by
  by_cases same : blob = newBlob ∨ sidecar = newSidecar
  · refine iff_of_true ?_ (or_assoc.mp (.inl same))
    have drawn : DrawnState blob newBlob sidecar newSidecar (start blob newBlob sidecar newSidecar) :=
      ⟨⟨.inl rfl, .inl rfl, fun _ h => (Option.some.inj h).symm, nofun⟩, nofun, rfl⟩
    exact (Run.always_of_step (fun s e h => h.step e) drawn es).mono fun s => recovers_of_drawn same
  · obtain ⟨blobs, sidecars⟩ := not_or.mp same
    rw [or_iff_right blobs, or_iff_right sidecars]
    exact Run.always_iff_each_of_invariant (I := Inv blob newBlob sidecar newSidecar)
      (fun _ => recovers_of_inv) (fun _ e h => inv_step h e)
      (fun _ e h => not_recovers_step blobs sidecars h e) inv_start es

/-- The rewrite stops after its journal. The recovery removes the new blob and stops. -/
def crashedDiscard : List Event :=
  [.advance true, .advance true, .crash fun _ => true, .resolve, .advance true, .crash fun _ => true]

theorem old_blob_new_sidecar :
    (resolved (crashedDiscard.foldl step (start "old" "new" "old.meta" "new.meta"))).files =
        ⟨"old", "new.meta", none, none⟩ ∧
      ¬ Recovers "old" "new" "old.meta" "new.meta"
        (crashedDiscard.foldl step (start "old" "new" "old.meta" "new.meta")) :=
  ⟨rfl, not_recovers (by decide) (by decide) rfl rfl⟩

end Arca.InPlace
