import Arca.Lib.Run

/-!
# Transactions behind one gate

Transactions over a shared store, each of which queries the store once and later
writes and commits. Most query behind the gate. An early one queries first; what it
saw decides whether it goes on to take the gate or commits without it. The gate is
held until commit and a query never waits. Events of a transaction that cannot happen
yet, or any more, change nothing.
-/
namespace GatedWrites
open List
variable {ι σ ρ : Type*} [DecidableEq ι]

structure Transaction (σ ρ : Type*) where
  early : Bool
  query : σ → ρ
  gated : ρ → Bool
  write : ρ → σ → σ

def Transaction.serial (x : Transaction σ ρ) (s : σ) : σ := x.write (x.query s) s

inductive Phase (ρ : Type*) where
  | idle
  | queried (seen : ρ)
  | waiting
  | holding (seen : ρ)
  | committed

structure System (ι σ ρ : Type*) where
  store : σ
  gate : Option ι
  phase : ι → Phase ρ
  order : List ι

inductive Event (ι : Type*) where
  | query (i : ι)
  | gate (i : ι)
  | commit (i : ι)

namespace System

def start (s : σ) : System ι σ ρ := ⟨s, none, fun _ => .idle, []⟩

def setPhase (s : System ι σ ρ) (i : ι) (p : Phase ρ) : System ι σ ρ :=
  { s with phase := Function.update s.phase i p }

def finish (s : System ι σ ρ) (i : ι) (gate : Option ι) (store : σ) : System ι σ ρ :=
  ⟨store, gate, Function.update s.phase i .committed, s.order ++ [i]⟩

def step (txs : ι → Transaction σ ρ) (s : System ι σ ρ) : Event ι → System ι σ ρ
  | .query i => match s.phase i with
      | .idle => if (txs i).early then s.setPhase i (.queried ((txs i).query s.store)) else s
      | .waiting => s.setPhase i (.holding ((txs i).query s.store))
      | _ => s
  | .gate i => if s.gate.isSome then s else match s.phase i with
      | .idle => if (txs i).early then s else { s.setPhase i .waiting with gate := some i }
      | .queried seen =>
        if (txs i).gated seen then { s.setPhase i (.holding seen) with gate := some i } else s
      | _ => s
  | .commit i => match s.phase i with
      | .queried seen => if (txs i).gated seen then s
          else s.finish i s.gate ((txs i).write seen s.store)
      | .holding seen => s.finish i none ((txs i).write seen s.store)
      | _ => s

variable (txs : ι → Transaction σ ρ)

/-- All that one event can do. -/
inductive Moves (s : System ι σ ρ) : Event ι → System ι σ ρ → Prop
  | stay (e : Event ι) : Moves s e s
  | query (i : ι) (phase : s.phase i = .idle) (early : (txs i).early = true) :
      Moves s (.query i) (s.setPhase i (.queried ((txs i).query s.store)))
  | queryBehind (i : ι) (phase : s.phase i = .waiting) :
      Moves s (.query i) (s.setPhase i (.holding ((txs i).query s.store)))
  | gate (i : ι) (free : s.gate = none) (phase : s.phase i = .idle) (late : (txs i).early = false) :
      Moves s (.gate i) { s.setPhase i .waiting with gate := some i }
  | gateEarly (i : ι) (seen : ρ) (free : s.gate = none) (phase : s.phase i = .queried seen)
      (gated : (txs i).gated seen = true) :
      Moves s (.gate i) { s.setPhase i (.holding seen) with gate := some i }
  | commitFree (i : ι) (seen : ρ) (phase : s.phase i = .queried seen)
      (ungated : (txs i).gated seen = false) :
      Moves s (.commit i) (s.finish i s.gate ((txs i).write seen s.store))
  | commitHolding (i : ι) (seen : ρ) (phase : s.phase i = .holding seen) :
      Moves s (.commit i) (s.finish i none ((txs i).write seen s.store))

lemma step_moves (s : System ι σ ρ) (e : Event ι) : Moves txs s e (step txs s e) := by
  cases e with
  | query i =>
    cases phase : s.phase i with
    | idle =>
      cases early : (txs i).early with
      | true => simpa only [step, phase, early, if_true] using Moves.query i phase early
      | false => simpa [step, phase, early] using Moves.stay (.query i)
    | waiting => simpa only [step, phase] using Moves.queryBehind i phase
    | queried seen | holding seen | committed =>
      simpa only [step, phase] using Moves.stay (.query i)
  | gate i =>
    cases free : s.gate with
    | some j => simpa only [step, free, Option.isSome_some, if_true] using Moves.stay (.gate i)
    | none =>
      cases phase : s.phase i with
      | idle =>
        cases early : (txs i).early with
        | true => simpa [step, free, phase, early] using Moves.stay (.gate i)
        | false => simpa [step, free, phase, early] using Moves.gate i free phase early
      | queried seen =>
        cases gated : (txs i).gated seen with
        | true =>
          simpa [step, free, phase, gated] using Moves.gateEarly i seen free phase gated
        | false => simpa [step, free, phase, gated] using Moves.stay (.gate i)
      | waiting | holding seen | committed => simpa [step, free, phase] using Moves.stay (.gate i)
  | commit i =>
    cases phase : s.phase i with
    | idle | waiting | committed => simpa only [step, phase] using Moves.stay (.commit i)
    | queried seen =>
      cases gated : (txs i).gated seen with
      | true => simpa [step, phase, gated] using Moves.stay (.commit i)
      | false => simpa [step, phase, gated] using Moves.commitFree i seen phase gated
    | holding seen => simpa only [step, phase] using Moves.commitHolding i seen phase

/-- What an early transaction saw still serves when it writes, and one that
commits without the gate changes nothing. -/
def Fresh (s : System ι σ ρ) : Event ι → Prop
  | .commit i => (txs i).early = true →
      (∀ seen, s.phase i = .holding seen → (txs i).write seen s.store = (txs i).serial s.store) ∧
      (∀ seen, s.phase i = .queried seen → (txs i).gated seen = false →
        (txs i).write seen s.store = s.store ∧ (txs i).serial s.store = s.store)
  | _ => True

/-- The committed store is that of the transactions one after another, in the
order of their commits, and what a transaction saw behind the gate is current. -/
structure Serial (start : σ) (s : System ι σ ρ) : Prop where
  store : s.store = s.order.foldl (fun t i => (txs i).serial t) start
  nodup : s.order.Nodup
  committed : ∀ i, i ∈ s.order ↔ s.phase i = .committed
  queried : ∀ i seen, s.phase i = .queried seen → (txs i).early = true
  waiting : ∀ i, s.phase i = .waiting → s.gate = some i ∧ (txs i).early = false
  holding : ∀ i seen, s.phase i = .holding seen →
    s.gate = some i ∧ ((txs i).early = false → seen = (txs i).query s.store)

variable {txs} {start : σ} {s : System ι σ ρ}

omit [DecidableEq ι] in
lemma serial_start (t : σ) : Serial txs t (System.start t : System ι σ ρ) where
  store := rfl
  nodup := nodup_nil
  committed i := by simp [System.start]
  queried i seen h := by cases h
  waiting i h := by cases h
  holding i seen h := by cases h

lemma Serial.advance (h : Serial txs start s) {i : ι} {p : Phase ρ} {gate : Option ι}
    (before : s.phase i ≠ .committed) (after : p ≠ .committed)
    (others : ∀ j, j ≠ i → s.gate = some j → gate = some j)
    (queried : ∀ seen, p = .queried seen → (txs i).early = true)
    (waiting : p = .waiting → gate = some i ∧ (txs i).early = false)
    (holding : ∀ seen, p = .holding seen →
      gate = some i ∧ ((txs i).early = false → seen = (txs i).query s.store)) :
    Serial txs start { s.setPhase i p with gate := gate } where
  store := h.store
  nodup := h.nodup
  committed j := by
    rw [show ({ s.setPhase i p with gate := gate } : System ι σ ρ).order = s.order from rfl, h.committed]
    by_cases same : j = i
    · subst same
      simp [setPhase, before, after]
    · simp [setPhase, same]
  queried j seen hj := by
    by_cases same : j = i
    · subst same
      exact queried seen (by simpa [setPhase] using hj)
    · exact h.queried j seen (by simpa [setPhase, same] using hj)
  waiting j hj := by
    by_cases same : j = i
    · subst same
      exact waiting (by simpa [setPhase] using hj)
    · obtain ⟨held, late⟩ := h.waiting j (by simpa [setPhase, same] using hj)
      exact ⟨others j same held, late⟩
  holding j seen hj := by
    by_cases same : j = i
    · subst same
      exact holding seen (by simpa [setPhase] using hj)
    · obtain ⟨held, current⟩ := h.holding j seen (by simpa [setPhase, same] using hj)
      exact ⟨others j same held, current⟩

/-- A commit that leaves what the serial transaction leaves. The transaction that
still waits or holds afterwards, if any, sees an unchanged store. -/
lemma Serial.finish (h : Serial txs start s) {i : ι} {gate : Option ι} {store : σ}
    (before : s.phase i ≠ .committed) (serial : store = (txs i).serial s.store)
    (others : ∀ j, j ≠ i → s.gate = some j → gate = some j ∧ store = s.store) :
    Serial txs start (s.finish i gate store) where
  store := by
    rw [System.finish, foldl_append, ← h.store, serial]
    rfl
  nodup := by
    have fresh : i ∉ s.order := fun hi => before ((h.committed i).mp hi)
    exact nodup_append.mpr ⟨h.nodup, nodup_singleton i, fun a ha b hb => by
      rw [mem_singleton.mp hb]
      exact fun same => fresh (same ▸ ha)⟩
  committed j := by
    by_cases same : j = i
    · subst same
      simp [System.finish]
    · simp [System.finish, same, h.committed]
  queried j seen hj := by
    by_cases same : j = i
    · subst same
      simp [System.finish] at hj
    · exact h.queried j seen (by simpa [System.finish, same] using hj)
  waiting j hj := by
    by_cases same : j = i
    · subst same
      simp [System.finish] at hj
    · obtain ⟨held, late⟩ := h.waiting j (by simpa [System.finish, same] using hj)
      exact ⟨(others j same held).1, late⟩
  holding j seen hj := by
    by_cases same : j = i
    · subst same
      simp [System.finish] at hj
    · obtain ⟨held, current⟩ := h.holding j seen (by simpa [System.finish, same] using hj)
      obtain ⟨held', unchanged⟩ := others j same held
      refine ⟨held', fun late => ?_⟩
      rw [current late, System.finish, unchanged]

lemma serial_step (h : Serial txs start s) {e : Event ι} (fresh : Fresh txs s e) :
    Serial txs start (step txs s e) := by
  have moved := step_moves txs s e
  generalize step txs s e = s' at moved
  cases moved with
  | stay => exact h
  | query i phase early =>
    exact h.advance (by rw [phase]; exact nofun) nofun (fun _ _ held => held)
      (fun _ _ => early) nofun nofun
  | queryBehind i phase =>
    obtain ⟨held, -⟩ := h.waiting i phase
    refine h.advance (by rw [phase]; exact nofun) nofun (fun _ _ held => held) nofun nofun ?_
    intro seen same
    obtain rfl := Phase.holding.inj same
    exact ⟨held, fun _ => rfl⟩
  | gate i free phase late =>
    exact h.advance (by rw [phase]; exact nofun) nofun (fun j _ held => by rw [free] at held; cases held)
      nofun (fun _ => ⟨rfl, late⟩) nofun
  | gateEarly i seen free phase _ =>
    refine h.advance (by rw [phase]; exact nofun) nofun
      (fun j _ held => by rw [free] at held; cases held) nofun nofun fun _ _ => ⟨rfl, fun late => ?_⟩
    rw [h.queried i seen phase] at late
    cases late
  | commitFree i seen phase ungated =>
    obtain ⟨quiet, serial⟩ := (fresh (h.queried i seen phase)).2 seen phase ungated
    exact h.finish (by rw [phase]; exact nofun) (quiet.trans serial.symm)
      fun j _ held => ⟨held, quiet⟩
  | commitHolding i seen phase =>
    obtain ⟨held, current⟩ := h.holding i seen phase
    refine h.finish (by rw [phase]; exact nofun) ?_ fun j other held' => ?_
    · cases early : (txs i).early with
      | true => exact (fresh early).1 seen phase
      | false => rw [current early]; rfl
    · exact absurd (Option.some.inj (held'.symm.trans held)) other

/-- A run whose early transactions stay fresh is serial in the order of commits. -/
lemma serial_run (txs : ι → Transaction σ ρ) (t : σ) {events : List (Event ι)}
    (fresh : Run.Each (step txs) (Fresh txs) (System.start t) events) :
    Serial txs t (events.foldl (step txs) (System.start t)) :=
  Run.foldl_of_each (P := Serial txs t) (fun _ _ h ok => serial_step h ok) (serial_start t) fresh

end System
end GatedWrites
