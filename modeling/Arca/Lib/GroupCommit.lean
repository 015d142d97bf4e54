import Arca.Lib.Run

/-!
# Group commit

Requests to a store that has one writer. A request may look at the committed store
and be refused there; otherwise it submits its writes. The writes of a group run one
after another, a refused one leaving no trace, and the group is committed or rolled
back as a whole. A job of one write that was refused is answered with its own error
even when its group is rolled back. What was decided is kept in `order`, in the order
in which it took effect.
-/
namespace GroupCommit
open List Option

structure Service (κ ω ε δ τ σ : Type*) where
  /-- What a request is told by the committed store, and whether it goes on when
  it cannot read it. -/
  look : κ → σ → Except ε Unit
  blind : κ → Bool
  writes : κ → τ → List ω
  batch : κ → Bool
  run : ω → δ → σ → Except ε σ
  maxGroup : Nat

inductive Entry (κ ω ε δ σ : Type*) where
  /-- Refused on the committed store. -/
  | looked (request : Nat) (call : κ) (error : ε) (store : σ)
  /-- Run in a group that was committed. -/
  | ran (request part : Nat) (write : ω) (drawn : δ) (before : σ) (result : Except ε σ)
  /-- Refused in a group that was rolled back. -/
  | undone (request part : Nat) (write : ω) (error : ε) (store : σ)

structure Job (ω : Type*) where
  request : Nat
  batch : Bool
  writes : List ω

/-- A request is answered for each of its writes, with no verdict after an
internal error. -/
inductive Phase (κ ε : Type*) where
  | arrived (call : κ)
  | ready (call : κ)
  | queued
  | answered (verdicts : List (Option (Except ε Unit)))

structure Turn (κ ω ε δ σ : Type*) where
  job : Job ω
  entries : Option (List (Entry κ ω ε δ σ))

structure Group (κ ω ε δ σ : Type*) where
  left : Nat
  store : σ
  turns : List (Turn κ ω ε δ σ)

structure System (κ ω ε δ σ : Type*) where
  store : σ
  requests : List (Phase κ ε)
  queue : List (Job ω)
  group : Option (Group κ ω ε δ σ)
  order : List (Entry κ ω ε δ σ)

inductive Event (κ δ τ : Type*) where
  | arrive (call : κ)
  | look (i : Nat)
  | lookFails (i : Nat)
  | giveUp (i : Nat)
  | submit (i : Nat) (stamp : τ)
  | start (size : Nat)
  | turn (drawn : Option (Nat → δ))
  | commit
  | abort

variable {κ ω ε δ τ σ : Type*}

namespace Entry

def request : Entry κ ω ε δ σ → Nat
  | looked i .. | ran i .. | undone i .. => i

def part : Entry κ ω ε δ σ → Nat
  | looked .. => 0
  | ran _ k .. | undone _ k .. => k

def verdict : Entry κ ω ε δ σ → Except ε Unit
  | looked _ _ x _ | undone _ _ _ x _ => .error x
  | ran _ _ _ _ _ result => result.map fun _ => ()

def before : Entry κ ω ε δ σ → σ
  | looked _ _ _ s | ran _ _ _ _ s _ | undone _ _ _ _ s => s

def after : Entry κ ω ε δ σ → σ
  | looked _ _ _ s | undone _ _ _ _ s | ran _ _ _ _ s (.error _) => s
  | ran _ _ _ _ _ (.ok s) => s

def undo (store : σ) : Entry κ ω ε δ σ → Option (Entry κ ω ε δ σ)
  | ran i k w _ _ (.error x) => some (undone i k w x store)
  | _ => none

end Entry

/-- Each entry starts from the store the one before it left. -/
def Linked : σ → List (Entry κ ω ε δ σ) → Prop
  | _, [] => True
  | s, e :: es => e.before = s ∧ Linked e.after es

def finish (s : σ) (es : List (Entry κ ω ε δ σ)) : σ := es.foldl (fun _ e => e.after) s

variable (S : Service κ ω ε δ τ σ)

def runWrites (i : Nat) (drawn : Nat → δ) : Nat → List ω → σ → List (Entry κ ω ε δ σ)
  | _, [], _ => []
  | k, w :: ws, s =>
    let e : Entry κ ω ε δ σ := .ran i k w (drawn k) s (S.run w (drawn k) s)
    e :: runWrites i drawn (k + 1) ws e.after

def noVerdicts (job : Job ω) : List (Option (Except ε Unit)) := job.writes.map fun _ => none

namespace Turn

def verdicts (t : Turn κ ω ε δ σ) : List (Option (Except ε Unit)) :=
  match t.entries with
  | none => noVerdicts t.job
  | some es => es.map fun e => some e.verdict

def undone (store : σ) (t : Turn κ ω ε δ σ) : List (Entry κ ω ε δ σ) :=
  if t.job.batch then [] else (t.entries.getD []).filterMap (Entry.undo store)

def undoneVerdicts (t : Turn κ ω ε δ σ) : List (Option (Except ε Unit)) :=
  if t.job.batch then noVerdicts t.job
  else match t.entries with
  | none => noVerdicts t.job
  | some es => es.map fun e => match e.verdict with
      | .ok () => none
      | .error x => some (.error x)

end Turn

namespace Group

section
variable (g : Group κ ω ε δ σ)

def entries : List (Entry κ ω ε δ σ) := g.turns.flatMap fun t => t.entries.getD []

def undone (store : σ) : List (Entry κ ω ε δ σ) :=
  g.turns.flatMap (Turn.undone store)

def take (job : Job ω) (drawn : Option (Nat → δ)) : Group κ ω ε δ σ :=
  let entries := drawn.map fun d => runWrites S job.request d 0 job.writes g.store
  ⟨g.left - 1, finish g.store (entries.getD []), g.turns ++ [⟨job, entries⟩]⟩

end

end Group

def answer (requests : List (Phase κ ε)) (i : Nat) (verdicts : List (Option (Except ε Unit))) :
    List (Phase κ ε) := requests.set i (.answered verdicts)

def answerAll {α : Type*} (owner : α → Nat) (verdicts : α → List (Option (Except ε Unit)))
    (xs : List α) (requests : List (Phase κ ε)) : List (Phase κ ε) :=
  xs.foldl (fun rs x => answer rs (owner x) (verdicts x)) requests

namespace System

section
variable (s : System κ ω ε δ σ)

def look (i : Nat) (call : κ) : System κ ω ε δ σ :=
  match S.look call s.store with
  | .ok () => { s with requests := s.requests.set i (.ready call) }
  | .error x =>
    { s with
      requests := answer s.requests i [some (.error x)]
      order := s.order ++ [.looked i call x s.store] }

def commitGroup (g : Group κ ω ε δ σ) : System κ ω ε δ σ :=
  { s with
    store := g.store
    requests := answerAll (fun t => t.job.request) Turn.verdicts g.turns s.requests
    group := none
    order := s.order ++ g.entries }

/-- The jobs that the group had not come to fail with it. -/
def abortGroup (g : Group κ ω ε δ σ) : System κ ω ε δ σ :=
  { s with
    requests := answerAll Job.request noVerdicts (s.queue.take g.left)
      (answerAll (fun t => t.job.request) Turn.undoneVerdicts g.turns s.requests)
    queue := s.queue.drop g.left
    group := none
    order := s.order ++ g.undone s.store }

def step : Event κ δ τ → System κ ω ε δ σ
  | .arrive call => { s with requests := s.requests ++ [.arrived call] }
  | .look i =>
    match s.requests[i]? with
    | some (.arrived call) => s.look S i call
    | _ => s
  | .lookFails i =>
    match s.requests[i]? with
    | some (.arrived call) =>
      if S.blind call then { s with requests := s.requests.set i (.ready call) }
      else { s with requests := answer s.requests i [none] }
    | _ => s
  | .giveUp i =>
    match s.requests[i]? with
    | some (.arrived _) | some (.ready _) => { s with requests := answer s.requests i [none] }
    | _ => s
  | .submit i stamp =>
    match s.requests[i]? with
    | some (.ready call) =>
      { s with
        requests := s.requests.set i .queued
        queue := s.queue ++ [⟨i, S.batch call, S.writes call stamp⟩] }
    | _ => s
  | .start size =>
    match s.group with
    | some _ => s
    | none => { s with group := some ⟨min size (min S.maxGroup s.queue.length), s.store, []⟩ }
  | .turn drawn =>
    match s.group, s.queue with
    | some g, job :: queue =>
      if g.left = 0 then s else { s with queue, group := some (g.take S job drawn) }
    | _, _ => s
  | .commit =>
    match s.group with
    | some g => if g.left = 0 then s.commitGroup g else s
    | none => s
  | .abort =>
    match s.group with
    | some g => s.abortGroup g
    | none => s

def added : Event κ δ τ → List (Entry κ ω ε δ σ)
  | .look i =>
    match s.requests[i]? with
    | some (.arrived call) =>
      match S.look call s.store with
      | .ok () => []
      | .error x => [.looked i call x s.store]
    | _ => []
  | .commit =>
    match s.group with
    | some g => if g.left = 0 then g.entries else []
    | none => []
  | .abort =>
    match s.group with
    | some g => g.undone s.store
    | none => []
  | _ => []

end

end System
open GroupCommit.System

variable {S} {s start : σ} {es fs : List (Entry κ ω ε δ σ)}

lemma finish_append : finish s (es ++ fs) = finish (finish s es) fs := foldl_append

lemma linked_append : Linked s (es ++ fs) ↔ Linked s es ∧ Linked (finish s es) fs := by
  induction es generalizing s with
  | nil => exact ⟨fun h => ⟨trivial, h⟩, fun h => h.2⟩
  | cons e es ih => exact (and_congr_right fun _ => ih).trans and_assoc.symm

lemma linked_runWrites (i : Nat) (drawn : Nat → δ) (ws : List ω) (k : Nat) (s : σ) :
    Linked s (runWrites S i drawn k ws s) := by
  induction ws generalizing k s with
  | nil => trivial
  | cons w ws ih => exact ⟨rfl, ih (k + 1) _⟩

/-- Entries that change nothing, on one store. -/
lemma linked_of_still (h : ∀ e ∈ es, e.before = s ∧ e.after = s) : Linked s es ∧ finish s es = s := by
  induction es with
  | nil => exact ⟨trivial, rfl⟩
  | cons e es ih =>
    obtain ⟨⟨before, after⟩, rest⟩ := forall_mem_cons.mp h
    obtain ⟨linked, ends⟩ := ih rest
    refine ⟨⟨before, by rwa [after]⟩, ?_⟩
    change finish e.after es = s
    rwa [after]

def Ran (S : Service κ ω ε δ τ σ) (i k : Nat) (e : Entry κ ω ε δ σ) : Prop :=
  ∃ w d s, e = .ran i k w d s (S.run w d s)

variable {i k j : Nat} {e : Entry κ ω ε δ σ} {g : Group κ ω ε δ σ} {requests : List (Phase κ ε)}
  {p : Phase κ ε} {v : Except ε Unit} {t : Turn κ ω ε δ σ}

lemma ran_runWrites {drawn : Nat → δ} {ws : List ω}
    (h : (runWrites S i drawn k ws s)[j]? = some e) : Ran S i (k + j) e := by
  induction ws generalizing k j s with
  | nil => cases h
  | cons w ws ih =>
    cases j with
    | zero => exact ⟨w, drawn k, s, (some.inj h).symm⟩
    | succ j =>
      have rest := ih (k := k + 1) h
      rwa [Nat.add_right_comm, Nat.add_assoc] at rest

lemma mem_undone {store : σ} {x : Entry κ ω ε δ σ} : x ∈ g.undone store ↔
    ∃ t ∈ g.turns, t.job.batch = false ∧ ∃ i k w d b error,
      .ran i k w d b (.error error) ∈ t.entries.getD [] ∧ x = .undone i k w error store := by
  refine mem_flatMap.trans (exists_congr fun t => and_congr_right fun _ => ?_)
  unfold Turn.undone
  cases t.job.batch with
  | true => simp
  | false =>
    simp only [Bool.false_eq_true, if_false, mem_filterMap, true_and]
    constructor
    · rintro ⟨e, mem, undo⟩
      unfold Entry.undo at undo
      split at undo
      · cases undo
        exact ⟨_, _, _, _, _, _, mem, rfl⟩
      · cases undo
    · rintro ⟨i, k, w, d, b, error, mem, rfl⟩
      exact ⟨_, mem, rfl⟩

lemma still_undone : ∀ u ∈ g.undone s, u.before = s ∧ u.after = s := by
  intro u mem
  obtain ⟨t, -, -, i, k, w, d, b, error, -, rfl⟩ := mem_undone.mp mem
  exact ⟨rfl, rfl⟩

structure Turn.Ok (S : Service κ ω ε δ τ σ) (t : Turn κ ω ε δ σ) : Prop where
  ran : ∀ es, t.entries = some es → ∀ k e, es[k]? = some e → Ran S t.job.request k e

structure Group.Ok (S : Service κ ω ε δ τ σ) (store : σ) (g : Group κ ω ε δ σ) : Prop where
  linked : Linked store g.entries
  finish : finish store g.entries = g.store
  turns : ∀ t ∈ g.turns, t.Ok S

structure Serial (S : Service κ ω ε δ τ σ) (start : σ) (s : System κ ω ε δ σ) : Prop where
  linked : Linked start s.order
  finish : finish start s.order = s.store
  group : ∀ g, s.group = some g → g.Ok S s.store

/-- A request that was given a verdict has its entry. -/
def Answered (s : System κ ω ε δ σ) : Prop :=
  ∀ i verdicts, s.requests[i]? = some (.answered verdicts) →
    ∀ k v, verdicts[k]? = some (some v) →
      ∃ e ∈ s.order, e.request = i ∧ e.part = k ∧ e.verdict = v

lemma Group.Ok.ran (h : g.Ok S s) (mem : e ∈ g.entries) : ∃ i k, Ran S i k e := by
  obtain ⟨t, turn, mem⟩ := mem_flatMap.mp mem
  cases entries : t.entries with
  | none => simp [entries] at mem
  | some es =>
    rw [entries, getD_some] at mem
    obtain ⟨k, at_k⟩ := mem_iff_getElem?.mp mem
    exact ⟨t.job.request, k, (h.turns t turn).ran es entries k e at_k⟩

lemma Group.Ok.take (h : g.Ok S s) (job : Job ω)
    (drawn : Option (Nat → δ)) : (g.take S job drawn).Ok S s := by
  have entries : (g.take S job drawn).entries = g.entries ++
      (drawn.map fun d => runWrites S job.request d 0 job.writes g.store).getD [] := by
    simp [Group.entries, Group.take]
  constructor
  · rw [entries, linked_append, h.finish]
    refine ⟨h.linked, ?_⟩
    cases drawn with
    | none => trivial
    | some d => exact linked_runWrites job.request d job.writes 0 g.store
  · rw [entries, finish_append, h.finish]
    rfl
  · intro t mem
    rcases mem_append.mp mem with old | new
    · exact h.turns t old
    · cases mem_singleton.mp new
      refine ⟨fun es eq k e at_k => ?_⟩
      obtain ⟨d, -, rfl⟩ := map_eq_some_iff.mp eq
      have ran := ran_runWrites at_k
      rwa [Nat.zero_add] at ran

lemma serial_step {s : System κ ω ε δ σ} (h : Serial S start s) (e : Event κ δ τ) :
    Serial S start (s.step S e) := by
  have quiet : ∀ (requests : List (Phase κ ε)) (queue : List (Job ω)),
      Serial S start { s with requests, queue } := fun _ _ => ⟨h.linked, h.finish, h.group⟩
  cases e with
  | arrive call => exact quiet _ _
  | look i =>
    simp only [step]
    split
    · unfold look
      split
      · exact quiet _ _
      · refine ⟨linked_append.mpr ⟨h.linked, h.finish.symm, trivial⟩, ?_, h.group⟩
        rw [finish_append, h.finish]
        rfl
    · exact h
  | lookFails i =>
    simp only [step]
    split
    · split <;> exact quiet _ _
    · exact h
  | giveUp i =>
    simp only [step]
    split
    · exact quiet _ _
    · exact quiet _ _
    · exact h
  | submit i stamp =>
    simp only [step]
    split
    · exact quiet _ _
    · exact h
  | start size =>
    simp only [step]
    split
    · exact h
    · refine ⟨h.linked, h.finish, fun g eq => ?_⟩
      cases eq
      exact ⟨trivial, rfl, forall_mem_nil _⟩
  | turn drawn =>
    simp only [step]
    split
    · next g job queue group _ =>
        split
        · exact h
        · refine ⟨h.linked, h.finish, fun g' eq => ?_⟩
          cases eq
          exact (h.group g group).take job drawn
    · exact h
  | commit =>
    simp only [step]
    split
    · next g group =>
        split
        · have ok := h.group g group
          refine ⟨linked_append.mpr ⟨h.linked, ?_⟩, ?_, fun g' eq => nomatch eq⟩
          · rw [h.finish]
            exact ok.linked
          · change finish start (s.order ++ g.entries) = g.store
            rw [finish_append, h.finish, ok.finish]
        · exact h
    · exact h
  | abort =>
    simp only [step]
    split
    · next g group =>
        obtain ⟨linked, ends⟩ := linked_of_still (still_undone (g := g) (s := s.store))
        refine ⟨linked_append.mpr ⟨h.linked, ?_⟩, ?_, fun g' eq => nomatch eq⟩
        · rw [h.finish]
          exact linked
        · change finish start (s.order ++ g.undone s.store) = s.store
          rw [finish_append, h.finish, ends]
    · exact h

lemma order_step (s : System κ ω ε δ σ) (e : Event κ δ τ) :
    (s.step S e).order = s.order ++ s.added S e := by
  cases e with
  | look i =>
    simp only [step, added]
    split
    · unfold look
      split <;> simp_all
    · simp
  | commit =>
    simp only [step, added]
    split
    · split
      · rfl
      · simp
    · simp
  | abort =>
    simp only [step, added]
    split
    · rfl
    · simp
  | arrive call => exact (append_nil _).symm
  | lookFails i | turn drawn =>
    simp only [step, added, append_nil]
    split
    · split <;> rfl
    · rfl
  | giveUp i | submit i stamp | start size =>
    simp only [step, added, append_nil]
    split <;> rfl

section Added
variable {s : System κ ω ε δ σ} {x : Entry κ ω ε δ σ}

lemma mem_added_look : x ∈ s.added S (.look i) ↔ ∃ call error,
    s.requests[i]? = some (.arrived call) ∧ S.look call s.store = .error error ∧
      x = .looked i call error s.store := by
  simp only [added]
  split
  · next call here =>
      cases verdict : S.look call s.store with
      | ok => simp [here, verdict]
      | error error => simp [here, verdict]
  · next other =>
      refine iff_of_false not_mem_nil ?_
      rintro ⟨call, error, here, -⟩
      exact other call here

lemma mem_added_commit :
    x ∈ s.added S .commit ↔ ∃ g, s.group = some g ∧ g.left = 0 ∧ x ∈ g.entries := by
  simp only [added]
  cases s.group with
  | none => simp
  | some g => by_cases full : g.left = 0 <;> simp [full]

lemma mem_added_abort : x ∈ s.added S .abort ↔ ∃ g, s.group = some g ∧ x ∈ g.undone s.store := by
  simp only [added]
  cases s.group <;> simp

end Added

lemma answered_of_mono {s s' : System κ ω ε δ σ} (h : Answered s) (more : s.order ⊆ s'.order)
    (fresh : ∀ i verdicts, s'.requests[i]? = some (.answered verdicts) →
      s.requests[i]? = some (.answered verdicts) ∨ ∀ k v, verdicts[k]? = some (some v) →
        ∃ e ∈ s'.order, e.request = i ∧ e.part = k ∧ e.verdict = v) : Answered s' := by
  intro i verdicts here k v at_k
  rcases fresh i verdicts here with old | new
  · obtain ⟨e, mem, entry⟩ := h i verdicts old k v at_k
    exact ⟨e, more mem, entry⟩
  · exact new k v at_k

lemma getElem?_set_cases {α : Type*} {xs : List α} {x y : α}
    (h : (xs.set i x)[j]? = some y) : xs[j]? = some y ∨ j = i ∧ y = x := by
  rw [getElem?_set] at h
  split at h
  · next same =>
      split at h
      · exact .inr ⟨same.symm, (some.inj h).symm⟩
      · cases h
  · exact .inl h

lemma answerAll_cases {α : Type*} {owner : α → Nat}
    {verdicts : α → List (Option (Except ε Unit))} {xs : List α}
    (h : (answerAll owner verdicts xs requests)[i]? = some p) :
    requests[i]? = some p ∨ ∃ x ∈ xs, i = owner x ∧ p = .answered (verdicts x) := by
  induction xs generalizing requests with
  | nil => exact .inl h
  | cons x xs ih =>
    rcases ih h with old | ⟨y, mem, new⟩
    · rcases getElem?_set_cases old with old | new
      · exact .inl old
      · exact .inr ⟨x, mem_cons_self, new⟩
    · exact .inr ⟨y, mem_cons_of_mem x mem, new⟩

lemma no_verdict {job : Job ω} : (noVerdicts job)[k]? ≠ some (some v) := by
  unfold noVerdicts
  rw [getElem?_map, ne_eq, map_eq_some_iff]
  rintro ⟨_, -, none⟩
  cases none

variable {verdicts : List (Option (Except ε Unit))}

lemma unanswered
    (h : (requests.set i p)[j]? = some (.answered verdicts)) (other : ∀ vs, p ≠ .answered vs) :
    requests[j]? = some (.answered verdicts) := by
  rcases getElem?_set_cases h with old | ⟨-, eq⟩
  · exact old
  · exact absurd eq.symm (other verdicts)

lemma failed {order : List (Entry κ ω ε δ σ)}
    (h : (answer requests i [none])[j]? = some (.answered verdicts)) :
    requests[j]? = some (.answered verdicts) ∨ ∀ k v, verdicts[k]? = some (some v) →
      ∃ e ∈ order, e.request = j ∧ e.part = k ∧ e.verdict = v := by
  rcases getElem?_set_cases h with old | ⟨-, eq⟩
  · exact .inl old
  · refine .inr fun k v at_k => ?_
    cases eq
    cases k <;> simp at at_k

lemma verdict_of_turn (h : g.Ok S s) (mem : t ∈ g.turns) (at_k : t.verdicts[k]? = some (some v)) :
    ∃ e ∈ g.entries, e.request = t.job.request ∧ e.part = k ∧ e.verdict = v := by
  unfold Turn.verdicts at at_k
  cases entries : t.entries with
  | none =>
    simp only [entries] at at_k
    exact absurd at_k no_verdict
  | some es =>
    simp only [entries, getElem?_map, map_eq_some_iff, some.injEq] at at_k
    obtain ⟨e, at_k, rfl⟩ := at_k
    obtain ⟨w, d, b, rfl⟩ := (h.turns t mem).ran es entries k e at_k
    refine ⟨_, mem_flatMap.mpr ⟨t, mem, ?_⟩, rfl, rfl, rfl⟩
    rw [entries]
    exact mem_of_getElem? at_k

lemma verdict_of_undone (h : g.Ok S s) (mem : t ∈ g.turns)
    (at_k : t.undoneVerdicts[k]? = some (some v)) (store : σ) :
    ∃ e ∈ g.undone store, e.request = t.job.request ∧ e.part = k ∧ e.verdict = v := by
  unfold Turn.undoneVerdicts at at_k
  split at at_k
  · exact absurd at_k no_verdict
  · next single =>
      cases entries : t.entries with
      | none =>
        simp only [entries] at at_k
        exact absurd at_k no_verdict
      | some es =>
        simp only [entries, getElem?_map, map_eq_some_iff] at at_k
        obtain ⟨e, at_k, refused⟩ := at_k
        obtain ⟨w, d, b, rfl⟩ := (h.turns t mem).ran es entries k e at_k
        cases result : S.run w d b with
        | ok => simp [Entry.verdict, result, Except.map] at refused
        | error x =>
          simp only [Entry.verdict, result, Except.map, some.injEq] at refused
          refine ⟨.undone t.job.request k w x store, ?_, rfl, rfl, refused⟩
          rw [result] at at_k
          refine mem_undone.mpr ⟨t, mem, Bool.not_eq_true _ ▸ single, _, k, w, d, b, x, ?_, rfl⟩
          rw [entries]
          exact mem_of_getElem? at_k

variable {s : System κ ω ε δ σ}

lemma answered_step (serial : Serial S start s) (h : Answered s)
    (e : Event κ δ τ) : Answered (s.step S e) := by
  have grows : s.order ⊆ (s.step S e).order := by
    rw [order_step]
    exact subset_append_left _ _
  refine answered_of_mono h grows fun j verdicts here => ?_
  cases e with
  | arrive call =>
    refine .inl ?_
    simp only [step, getElem?_append] at here
    split at here
    · exact here
    · cases at_new : j - s.requests.length <;> simp [at_new] at here
  | look i =>
    simp only [step] at here ⊢
    split at here
    · next call _ =>
        simp only [look] at here ⊢
        split at here
        · exact .inl (unanswered here nofun)
        · next x _ =>
            rcases getElem?_set_cases here with old | ⟨rfl, eq⟩
            · exact .inl old
            · cases eq
              refine .inr fun k v at_k => ?_
              cases k with
              | zero =>
                simp only [getElem?_cons_zero, some.injEq] at at_k
                exact ⟨.looked j call x s.store, by simp, rfl, rfl, at_k⟩
              | succ k => simp at at_k
    · exact .inl here
  | lookFails i =>
    simp only [step] at here
    split at here
    · split at here
      · exact .inl (unanswered here nofun)
      · exact failed here
    · exact .inl here
  | giveUp i =>
    simp only [step] at here
    split at here
    · exact failed here
    · exact failed here
    · exact .inl here
  | submit i stamp =>
    simp only [step] at here
    split at here
    · exact .inl (unanswered here nofun)
    · exact .inl here
  | start size =>
    simp only [step] at here
    split at here <;> exact .inl here
  | turn drawn =>
    simp only [step] at here
    split at here
    · split at here <;> exact .inl here
    · exact .inl here
  | commit =>
    rw [order_step]
    simp only [step, added] at here ⊢
    split at here
    · next g group =>
        split at here
        · next full =>
            rcases answerAll_cases here with old | ⟨t, mem, rfl, eq⟩
            · exact .inl old
            · cases eq
              refine .inr fun k v at_k => ?_
              obtain ⟨e, entry, facts⟩ := verdict_of_turn (serial.group g group) mem at_k
              exact ⟨e, by simp [full, entry], facts⟩
        · exact .inl here
    · exact .inl here
  | abort =>
    rw [order_step]
    simp only [step, added] at here ⊢
    split at here
    · next g group =>
        rcases answerAll_cases here with here | ⟨job, -, -, eq⟩
        · rcases answerAll_cases here with old | ⟨t, mem, rfl, eq⟩
          · exact .inl old
          · cases eq
            refine .inr fun k v at_k => ?_
            obtain ⟨e, entry, facts⟩ := verdict_of_undone (serial.group g group) mem at_k s.store
            exact ⟨e, by simp [entry], facts⟩
        · cases eq
          exact .inr fun k v at_k => absurd at_k no_verdict
    · exact .inl here

/-- The requests are served as in `order`: it leads from the first store to the
committed one, holds every verdict given, and each of its entries is right. -/
structure Linearized (start : σ) (Correct : Entry κ ω ε δ σ → Prop) (s : System κ ω ε δ σ) : Prop where
  linked : Linked start s.order
  finish : finish start s.order = s.store
  answered : Answered s
  correct : ∀ e ∈ s.order, Correct e

structure Idle (s : System κ ω ε δ σ) : Prop where
  requests : s.requests = []
  group : s.group = none
  order : s.order = []

lemma Idle.serial (h : Idle s) : Serial S s.store s := by
  refine ⟨?_, ?_, fun g eq => ?_⟩
  · rw [h.order]
    trivial
  · rw [h.order]
    rfl
  · rw [h.group] at eq
    cases eq

lemma Idle.answered (h : Idle s) : Answered s := by
  intro i verdicts here
  simp [h.requests] at here

/-- A run is linearized throughout exactly when every entry it adds is right. -/
lemma linearized_iff {Correct : Entry κ ω ε δ σ → Prop} (idle : Idle s)
    (es : List (Event κ δ τ)) :
    Run.Always (step S) (Linearized s.store Correct) s es ↔
      Run.Each (step S) (fun s e => ∀ x ∈ s.added S e, Correct x) s es := by
  have inv : Serial S s.store s ∧ Answered s := ⟨idle.serial, idle.answered⟩
  have keep : ∀ (s' : System κ ω ε δ σ) (e : Event κ δ τ), Serial S s.store s' ∧ Answered s' →
      Serial S s.store (s'.step S e) ∧ Answered (s'.step S e) :=
    fun s' e h => ⟨serial_step h.1 e, answered_step h.1 h.2 e⟩
  rw [← Run.always_and_iff keep inv]
  refine Run.always_iff_each (fun s' e h => ?_) ⟨⟨inv.1.linked, inv.1.finish, inv.2, ?_⟩, inv⟩ es
  · have next := keep s' e h.2
    constructor
    · intro after x mem
      exact after.1.correct x (order_step s' e ▸ mem_append_right _ mem)
    · intro right
      refine ⟨⟨next.1.linked, next.1.finish, next.2, fun x mem => ?_⟩, next⟩
      rw [order_step, mem_append] at mem
      exact mem.elim (h.1.correct x) (right x)
  · rw [idle.order]
    exact forall_mem_nil _

end GroupCommit
