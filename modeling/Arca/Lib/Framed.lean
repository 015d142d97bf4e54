import Mathlib

/-!
# Readers of a stream that arrives in frames

A reader looks at the input it has buffered. It takes some of it and goes on, stops
with a result, or waits for the next frame. What it gives out is collected until it
stops; a failed run gives out nothing.
-/
namespace Framed
variable {σ β ο ε τ : Type*}

inductive Turn (σ β ο ε τ : Type*) where
  | wait
  | take (out : List ο) (rest : List β) (next : σ)
  | stop (result : Except ε τ)

/-- The same turn with more input behind what was looked at. -/
def Turn.extend (more : List β) : Turn σ β ο ε τ → Turn σ β ο ε τ
  | .wait => .wait
  | .take out rest next => .take out (rest ++ more) next
  | .stop result => .stop result

structure Reader (σ β ο ε τ : Type*) where
  turn : σ → List β → Turn σ β ο ε τ
  /-- The input has ended while the reader waits. -/
  atEnd : σ → List β → Except ε τ

inductive Drained (σ β ο ε τ : Type*) where
  | waiting (out : List ο) (state : σ) (buf : List β)
  | stopped (out : List ο) (result : Except ε τ)

def Drained.after (out : List ο) : Drained σ β ο ε τ → Drained σ β ο ε τ
  | .waiting out' s buf => .waiting (out ++ out') s buf
  | .stopped out' result => .stopped (out ++ out') result

def after (out : List ο) (result : Except ε (List ο × τ)) : Except ε (List ο × τ) :=
  result.map fun (out', t) => (out ++ out', t)

@[simp] lemma after_error (out : List ο) (e : ε) :
    after out (.error e : Except ε (List ο × τ)) = .error e := rfl

@[simp] lemma after_ok (out out' : List ο) (t : τ) :
    after out (.ok (out', t) : Except ε (List ο × τ)) = .ok (out ++ out', t) := rfl

@[simp] lemma after_nil (result : Except ε (List ο × τ)) : after [] result = result := by
  cases result <;> rfl

lemma after_after (out out' : List ο) (result : Except ε (List ο × τ)) :
    after out (after out' result) = after (out ++ out') result := by
  cases result with
  | error e => rfl
  | ok p => simp [after, Except.map]

variable {result : Except ε (List ο × τ)}

lemma after_eq_error_iff {out : List ο} {e : ε} :
    after out result = .error e ↔ result = .error e := by
  cases result <;> simp [after, Except.map]

lemma after_eq_ok_iff {out out' : List ο} {t : τ} :
    after out result = .ok (out', t) ↔ ∃ more, result = .ok (more, t) ∧ out' = out ++ more := by
  cases result with
  | error e => simp
  | ok p =>
    obtain ⟨more, u⟩ := p
    simp only [after_ok, Except.ok.injEq, Prod.mk.injEq]
    constructor
    · rintro ⟨rfl, rfl⟩
      exact ⟨more, ⟨rfl, rfl⟩, rfl⟩
    · rintro ⟨_, ⟨rfl, rfl⟩, rfl⟩
      exact ⟨rfl, rfl⟩

namespace Reader
variable (R : Reader σ β ο ε τ)

/-- Turns until the reader waits or stops; every turn uses up some input, so the
size of the buffer bounds their number. -/
def drainFor : ℕ → σ → List β → Drained σ β ο ε τ
  | 0, s, buf => .waiting [] s buf
  | n + 1, s, buf =>
    match R.turn s buf with
    | .wait => .waiting [] s buf
    | .take out rest next => (drainFor n next rest).after out
    | .stop result => .stopped [] result

def drain (s : σ) (buf : List β) : Drained σ β ο ε τ := R.drainFor (buf.length + 1) s buf

def run (s : σ) (buf : List β) : List (List β) → Except ε (List ο × τ)
  | [] =>
    match R.drain s buf with
    | .waiting out s' buf' => (R.atEnd s' buf').map fun t => (out, t)
    | .stopped out result => result.map fun t => (out, t)
  | frame :: frames =>
    match R.drain s buf with
    | .waiting out s' buf' => after out (run s' (buf' ++ frame) frames)
    | .stopped out result => result.map fun t => (out, t)

/-- A reader that does the same with more input at hand. -/
structure Steady : Prop where
  shrinks : ∀ {s buf out rest next}, R.turn s buf = .take out rest next →
    rest.length < buf.length
  stop_append : ∀ {s buf result} more, R.turn s buf = .stop result →
    R.turn s (buf ++ more) = .stop result
  take_append : ∀ {s buf out rest next} more, R.turn s buf = .take out rest next →
    R.turn s (buf ++ more) = .take out (rest ++ more) next ∨
    (rest = [] ∧ ∃ out' rest' next', R.turn next more = .take out' rest' next' ∧
      R.turn s (buf ++ more) = .take (out ++ out') rest' next') ∨
    (rest = [] ∧ ∃ e, R.turn next more = .stop (.error e) ∧
      R.turn s (buf ++ more) = .stop (.error e))

variable {R}

/-- It is enough that a turn stays the same with more input behind. -/
lemma Steady.of_extend (shrinks : ∀ {s buf out rest next}, R.turn s buf = .take out rest next →
      rest.length < buf.length) (extend : ∀ {s buf} more, R.turn s buf ≠ .wait →
      R.turn s (buf ++ more) = (R.turn s buf).extend more) : R.Steady where
  shrinks := shrinks
  stop_append := by
    intro s buf result more turn
    rw [extend more (by rw [turn]; nofun), turn]
    rfl
  take_append := by
    intro s buf out rest next more turn
    rw [extend more (by rw [turn]; nofun), turn]
    exact .inl rfl

variable {s : σ} {buf rest input : List β} {result : Except ε τ} {out : List ο}

lemma Steady.drainFor_eq (steady : R.Steady) {n m : ℕ}
    (hn : buf.length < n) (hm : buf.length < m) : R.drainFor n s buf = R.drainFor m s buf := by
  induction n generalizing m s buf with
  | zero => omega
  | succ n ih =>
    cases m with
    | zero => omega
    | succ m =>
      simp only [drainFor]
      cases turn : R.turn s buf with
      | wait => rfl
      | stop result => rfl
      | take out rest next =>
        have shorter := steady.shrinks turn
        simp only
        rw [ih (by omega) (show rest.length < m by omega)]

lemma drain_wait (turn : R.turn s buf = .wait) : R.drain s buf = .waiting [] s buf := by
  simp [drain, drainFor, turn]

lemma drain_stop (turn : R.turn s buf = .stop result) : R.drain s buf = .stopped [] result := by
  simp [drain, drainFor, turn]

lemma Steady.drain_take (steady : R.Steady) {next : σ}
    (turn : R.turn s buf = .take out rest next) :
    R.drain s buf = (R.drain next rest).after out := by
  have shorter := steady.shrinks turn
  have first : R.drain s buf = (R.drainFor buf.length next rest).after out := by
    simp only [drain, drainFor, turn]
  rw [first, steady.drainFor_eq shorter (Nat.lt_succ_self rest.length)]
  rfl

/-- Reads a whole input that arrives at once. -/
def whole (R : Reader σ β ο ε τ) (s : σ) (input : List β) : Except ε (List ο × τ) := R.run s input []

lemma whole_wait (turn : R.turn s input = .wait) :
    R.whole s input = (R.atEnd s input).map fun t => ([], t) := by
  simp [whole, run, drain_wait turn]

lemma whole_stop
    (turn : R.turn s input = .stop result) : R.whole s input = result.map fun t => ([], t) := by
  simp [whole, run, drain_stop turn]

lemma Steady.whole_take (steady : R.Steady) {next : σ}
    (turn : R.turn s input = .take out rest next) :
    R.whole s input = after out (R.whole next rest) := by
  simp only [whole, run, steady.drain_take turn]
  cases R.drain next rest with
  | waiting out' s' buf' =>
    simp only [Drained.after]
    cases R.atEnd s' buf' <;> rfl
  | stopped out' result => cases result <;> rfl

/-- A turn taken with part of the input at hand loses nothing. -/
lemma Steady.whole_take_append (steady : R.Steady) {next : σ}
    (turn : R.turn s buf = .take out rest next) (more : List β) :
    R.whole s (buf ++ more) = after out (R.whole next (rest ++ more)) := by
  obtain same | ⟨rfl, out', rest', next', later, joined⟩ | ⟨rfl, e, later, joined⟩ :=
    steady.take_append more turn
  · exact steady.whole_take same
  · rw [steady.whole_take joined, List.nil_append, steady.whole_take later, after_after]
  · rw [whole_stop joined, List.nil_append, whole_stop later]
    rfl

/-- Draining a first part of the input loses nothing either. -/
lemma Steady.whole_append (steady : R.Steady) (s : σ) (buf more : List β) :
    R.whole s (buf ++ more) = match R.drain s buf with
      | .waiting out s' buf' => after out (R.whole s' (buf' ++ more))
      | .stopped out result => result.map fun t => (out, t) := by
  -- on the size of the buffer: each turn leaves a smaller one
  induction size : buf.length using Nat.strong_induction_on generalizing s buf with
  | _ size ih =>
    cases turn : R.turn s buf with
    | wait => simp [drain_wait turn]
    | stop result =>
      rw [whole_stop (steady.stop_append more turn), drain_stop turn]
    | take out rest next =>
      have shorter := steady.shrinks turn
      rw [steady.whole_take_append turn more, steady.drain_take turn,
        ih rest.length (size ▸ shorter) next rest rfl]
      cases R.drain next rest with
      | waiting out' s' buf' => simp only [Drained.after, after_after]
      | stopped out' result => cases result <;> rfl

/-- **A steady reader cannot tell how its input was cut into frames.** -/
lemma Steady.run_eq_whole (steady : R.Steady) (s : σ) (buf : List β) (frames : List (List β)) :
    R.run s buf frames = R.whole s (buf ++ frames.flatten) := by
  induction frames generalizing s buf with
  | nil => simp [whole]
  | cons frame frames ih =>
    rw [steady.whole_append s buf, run]
    cases R.drain s buf with
    | waiting out s' buf' => simp only [ih, List.flatten_cons, List.append_assoc]
    | stopped out result => rfl

end Reader

end Framed
