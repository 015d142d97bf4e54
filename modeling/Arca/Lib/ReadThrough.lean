import Arca.Lib.Run

/-!
# A cache in front of a store

A lookup that misses reads the store and puts what it read into the cache some time
later. A write commits and then clears what it may have changed from the cache, in
one or more steps. A generation is counted up by every clearing; a guarded cache
takes an answer only if the generation is still the one from before the store was
read.

Every state of the store is known by the number of writes committed before it. For each
key the floor is the newest write that touches it and is past its clearing: an older
state must not be the answer of a lookup that starts now.
-/
namespace ReadThrough
open Function
variable {κ ω σ υ : Type*}

structure Design (κ ω σ υ : Type*) where
  read : κ → σ → υ
  write : ω → σ → σ
  keeps : κ → υ → Bool
  guarded : Bool
  touches : ω → κ → Bool
  clears : ω → List (κ → Bool)
  clearsOnError : ω → Bool
  /-- Whether a write whose caller went away counts once it has committed. -/
  countsDropped : Bool
  covers : ∀ w k, touches w k → ∃ c ∈ clears w, c k

structure Entry (υ : Type*) where
  value : υ
  stamp : ℕ

inductive Reader (κ υ : Type*) where
  | asked (key : κ) (floor : ℕ)
  | noted (key : κ) (floor generation : ℕ)
  | fetched (key : κ) (floor generation : ℕ) (entry : Entry υ)

inductive Phase where
  | running
  | committed (stamp : ℕ)
  | failed

structure Writer (κ ω : Type*) where
  write : ω
  phase : Phase
  left : List (κ → Bool)
  dropped : Bool

/-- The answer of a lookup, with the floor of its key when it started. -/
structure Answer (κ υ : Type*) where
  key : κ
  floor : ℕ
  entry : Entry υ

structure State (κ ω σ υ : Type*) where
  store : σ
  commits : ℕ
  generation : ℕ
  cache : κ → Option (Entry υ)
  floor : κ → ℕ
  readers : ℕ → Option (Reader κ υ)
  writers : ℕ → Option (Writer κ ω)
  answers : List (Answer κ υ)
  history : ℕ → σ

def State.initial (store : σ) : State κ ω σ υ where
  store := store
  commits := 0
  generation := 0
  cache _ := none
  floor _ := 0
  readers _ := none
  writers _ := none
  answers := []
  history _ := store

inductive Event (κ ω : Type*) where
  | start (id : ℕ) (key : κ)
  | note (id : ℕ)
  | fetch (id : ℕ)
  | fail (id : ℕ)
  | insert (id : ℕ)
  | submit (id : ℕ) (write : ω)
  | commit (id : ℕ)
  | refuse (id : ℕ)
  | clear (id : ℕ)
  | drop (id : ℕ)
  | evict (key : κ)

variable (D : Design κ ω σ υ)

section
variable (s : State κ ω σ υ)

def State.raise (stamp : ℕ) (keys : κ → Bool) : State κ ω σ υ :=
  { s with floor := fun k => if keys k then max (s.floor k) stamp else s.floor k }

def State.setReader (id : ℕ) (r : Option (Reader κ υ)) : State κ ω σ υ :=
  { s with readers := update s.readers id r }

def State.setWriter (id : ℕ) (w : Writer κ ω) : State κ ω σ υ :=
  { s with writers := update s.writers id (some w) }

/-- Whether an answer read in this generation goes into the cache. -/
def Admits (key : κ) (generation : ℕ) (entry : Entry υ) : Prop :=
  D.keeps key entry.value ∧ (D.guarded → generation = s.generation)

instance (s : State κ ω σ υ) (key : κ) (generation : ℕ) (entry : Entry υ) :
    Decidable (Admits D s key generation entry) := inferInstanceAs (Decidable (_ ∧ (_ → _)))

def step [DecidableEq κ] (s : State κ ω σ υ) : Event κ ω → State κ ω σ υ
  | .start id key =>
    match s.cache key with
    | some entry => { s with answers := ⟨key, s.floor key, entry⟩ :: s.answers }
    | none =>
      match s.readers id with
      | none => s.setReader id (some (.asked key (s.floor key)))
      | some _ => s
  | .note id =>
    match s.readers id with
    | some (.asked key floor) => s.setReader id (some (.noted key floor s.generation))
    | _ => s
  | .fetch id =>
    match s.readers id with
    | some (.noted key floor generation) =>
      s.setReader id (some (.fetched key floor generation ⟨D.read key s.store, s.commits⟩))
    | _ => s
  | .fail id => s.setReader id none
  | .insert id =>
    match s.readers id with
    | some (.fetched key floor generation entry) =>
      { s.setReader id none with
        cache := if Admits D s key generation entry then update s.cache key (some entry)
          else s.cache
        answers := ⟨key, floor, entry⟩ :: s.answers }
    | _ => s
  | .submit id write =>
    match s.writers id with
    | none => s.setWriter id ⟨write, .running, D.clears write, false⟩
    | some _ => s
  | .commit id =>
    match s.writers id with
    | some ⟨write, .running, left, dropped⟩ =>
      let store := D.write write s.store
      let s := { s with
        store := store
        commits := s.commits + 1
        history := update s.history (s.commits + 1) store }
      let s := s.setWriter id ⟨write, .committed s.commits, left, dropped⟩
      if dropped ∧ D.countsDropped then s.raise s.commits (D.touches write) else s
    | _ => s
  | .refuse id =>
    match s.writers id with
    | some ⟨write, .running, left, dropped⟩ =>
      s.setWriter id ⟨write, .failed, if D.clearsOnError write then left else [], dropped⟩
    | _ => s
  | .clear id =>
    match s.writers id with
    | some ⟨write, .committed stamp, c :: left, false⟩ =>
      let s := { s with
        cache := fun k => if c k then none else s.cache k
        generation := s.generation + 1 }
      (s.setWriter id ⟨write, .committed stamp, left, false⟩).raise stamp
        fun k => c k && D.touches write k
    | some ⟨write, .failed, c :: left, false⟩ =>
      let s := { s with
        cache := fun k => if c k then none else s.cache k
        generation := s.generation + 1 }
      s.setWriter id ⟨write, .failed, left, false⟩
    | _ => s
  | .drop id =>
    match s.writers id with
    | some ⟨write, .committed stamp, c :: left, _⟩ =>
      let s := s.setWriter id ⟨write, .committed stamp, c :: left, true⟩
      if D.countsDropped then s.raise stamp (D.touches write) else s
    | some ⟨write, phase, c :: left, _⟩ => s.setWriter id ⟨write, phase, c :: left, true⟩
    | _ => s
  | .evict key => { s with cache := update s.cache key none }

structure Shows (s : State κ ω σ υ) (key : κ) (floor : ℕ) (entry : Entry υ) : Prop where
  fresh : floor ≤ entry.stamp
  past : entry.stamp ≤ s.commits
  value : entry.value = D.read key (s.history entry.stamp)

/-- The call has returned, or its caller is gone and it counts all the same. -/
def Writer.Settled (w : Writer κ ω) : Prop :=
  w.left = [] ∨ w.dropped = true ∧ D.countsDropped = true

/-- Every answer is a state of the store no older than the writes that were past their clearing
when its lookup started. -/
structure Coherent (s : State κ ω σ υ) : Prop where
  answers : ∀ a ∈ s.answers, Shows D s a.key a.floor a.entry
  cache : ∀ k entry, s.cache k = some entry → Shows D s k (s.floor k) entry
  settled : ∀ id w stamp k, s.writers id = some w → w.phase = .committed stamp → w.Settled D →
    D.touches w.write k → stamp ≤ s.floor k

/-- No answer goes into the cache behind the clearing of a write it does not know, and no
abandoned write leaves anything older behind. -/
def Undisturbed : Event κ ω → Prop
  | .insert id => ∀ key floor generation entry,
      s.readers id = some (.fetched key floor generation entry) →
      Admits D s key generation entry → s.floor key ≤ entry.stamp
  | .commit id => ∀ write left, s.writers id = some ⟨write, .running, left, true⟩ →
      D.countsDropped → ∀ k, D.touches write k → s.cache k = none
  | .drop id => ∀ write stamp c left dropped,
      s.writers id = some ⟨write, .committed stamp, c :: left, dropped⟩ →
      D.countsDropped → ∀ k entry, D.touches write k → s.cache k = some entry → stamp ≤ entry.stamp
  | _ => True

end

section Frames
variable {D} {s : State κ ω σ υ}

@[simp] lemma raise_floor (stamp : ℕ) (keys : κ → Bool) (k : κ) :
    (s.raise stamp keys).floor k = if keys k then max (s.floor k) stamp else s.floor k := rfl

lemma le_raise (stamp : ℕ) (keys : κ → Bool) (k : κ) :
    s.floor k ≤ (s.raise stamp keys).floor k := by
  rw [raise_floor]
  split
  · exact le_max_left ..
  · exact le_rfl

lemma raise_le {stamp bound : ℕ} {keys : κ → Bool} {k : κ} (old : s.floor k ≤ bound)
    (new : keys k → stamp ≤ bound) : (s.raise stamp keys).floor k ≤ bound := by
  rw [raise_floor]
  split
  · exact max_le old (new ‹_›)
  · exact old

lemma update_cases {α β : Type*} [DecidableEq α] {f : α → Option β} {P : α → β → Prop} {a : α}
    {b : Option β} (new : ∀ y, b = some y → P a y) (x : α) (y : β)
    (here : update f a b x = some y) : f x = some y ∨ P x y := by
  by_cases same : x = a
  · subst same
    exact .inr (new y (by simpa using here))
  · exact .inl (by simpa [same] using here)

lemma Shows.mono {t : State κ ω σ υ} {key : κ} {floor floor' : ℕ} {entry : Entry υ}
    (shown : Shows D s key floor entry) (fresh : floor' ≤ entry.stamp)
    (commits : s.commits ≤ t.commits)
    (history : ∀ n ≤ s.commits, t.history n = s.history n) : Shows D t key floor' entry where
  fresh := fresh
  past := shown.past.trans commits
  value := by rw [history _ shown.past]; exact shown.value

end Frames

def Reader.Sound (s : State κ ω σ υ) : Reader κ υ → Prop
  | .asked _ floor => floor ≤ s.commits
  | .noted _ floor generation => floor ≤ s.commits ∧ generation ≤ s.generation
  | .fetched key floor generation entry => Shows D s key floor entry ∧ generation ≤ s.generation

/-- What a write under way has still to clear of what it touches. -/
def Writer.Sound (s : State κ ω σ υ) (w : Writer κ ω) : Prop :=
  match w.phase with
  | .running => w.left = D.clears w.write
  | .committed stamp => stamp ≤ s.commits ∧ ∀ k, D.touches w.write k →
      stamp ≤ s.floor k ∨ (∃ c ∈ w.left, c k) ∧ ¬ (w.dropped = true ∧ D.countsDropped = true)
  | .failed => True

structure Inv (s : State κ ω σ υ) : Prop where
  answers : ∀ a ∈ s.answers, Shows D s a.key a.floor a.entry
  cache : ∀ k entry, s.cache k = some entry → Shows D s k (s.floor k) entry
  floor : ∀ k, s.floor k ≤ s.commits
  current : s.history s.commits = s.store
  readers : ∀ id r, s.readers id = some r → r.Sound D s
  writers : ∀ id w, s.writers id = some w → w.Sound D s

lemma Inv.coherent {s : State κ ω σ υ} (inv : Inv D s) : Coherent D s where
  answers := inv.answers
  cache := inv.cache
  settled id w stamp k here committed settled touched := by
    have sound := inv.writers id w here
    simp only [Writer.Sound, committed] at sound
    rcases sound.2 k touched with past | ⟨⟨c, waiting, -⟩, stays⟩
    · exact past
    · rcases settled with done | gone
      · rw [done] at waiting
        exact absurd waiting List.not_mem_nil
      · exact absurd gone stays

lemma inv_initial (store : σ) : Inv D (State.initial store : State κ ω σ υ) where
  answers := by simp [State.initial]
  cache := by simp [State.initial]
  floor _ := le_rfl
  current := rfl
  readers := by simp [State.initial]
  writers := by simp [State.initial]

section Steps
variable {D} {s t : State κ ω σ υ}

/-- What a step has to show: it goes on from the same history, and what it adds or raises
is sound. -/
structure Extends (s t : State κ ω σ υ) : Prop where
  commits : s.commits ≤ t.commits
  generation : s.generation ≤ t.generation
  history : ∀ n ≤ s.commits, t.history n = s.history n
  floor : ∀ k, s.floor k ≤ t.floor k

lemma Extends.refl_of (commits : t.commits = s.commits) (generation : s.generation ≤ t.generation)
    (history : t.history = s.history) (floor : ∀ k, s.floor k ≤ t.floor k) : Extends s t where
  commits := commits.ge
  generation := generation
  history n _ := by rw [history]
  floor := floor

lemma Reader.Sound.extends {r : Reader κ υ} (sound : r.Sound D s) (ext : Extends s t) :
    r.Sound D t := by
  cases r with
  | asked key floor => exact le_trans (b := s.commits) sound ext.commits
  | noted key floor generation =>
    exact ⟨sound.1.trans ext.commits, sound.2.trans ext.generation⟩
  | fetched key floor generation entry =>
    exact ⟨sound.1.mono sound.1.fresh ext.commits ext.history, sound.2.trans ext.generation⟩

lemma Writer.Sound.extends {w : Writer κ ω} (sound : w.Sound D s) (ext : Extends s t) :
    w.Sound D t := by
  obtain ⟨write, phase, left, dropped⟩ := w
  cases phase with
  | running => exact sound
  | committed stamp =>
    exact ⟨sound.1.trans ext.commits, fun k touched =>
      (sound.2 k touched).imp_left fun past => past.trans (ext.floor k)⟩
  | failed => trivial

lemma Inv.step_of (inv : Inv D s) (ext : Extends s t) (floor : ∀ k, t.floor k ≤ t.commits)
    (current : t.history t.commits = t.store)
    (answers : ∀ a ∈ t.answers, a ∈ s.answers ∨ Shows D t a.key a.floor a.entry)
    (cache : ∀ k entry, t.cache k = some entry →
      s.cache k = some entry ∧ t.floor k ≤ entry.stamp ∨ Shows D t k (t.floor k) entry)
    (readers : ∀ id r, t.readers id = some r → s.readers id = some r ∨ r.Sound D t)
    (writers : ∀ id w, t.writers id = some w → s.writers id = some w ∨ w.Sound D t) : Inv D t where
  answers := by
    intro a given
    rcases answers a given with old | new
    · have shown := inv.answers a old
      exact shown.mono shown.fresh ext.commits ext.history
    · exact new
  cache := by
    intro k entry held
    rcases cache k entry held with ⟨old, fresh⟩ | new
    · exact (inv.cache k entry old).mono fresh ext.commits ext.history
    · exact new
  floor := floor
  current := current
  readers id r here := (readers id r here).elim (fun old => (inv.readers id r old).extends ext) fun new => new
  writers id w here := (writers id w here).elim (fun old => (inv.writers id w old).extends ext) fun new => new

lemma Inv.kept (inv : Inv D s) (k : κ) (entry : Entry υ) (held : s.cache k = some entry) :
    s.cache k = some entry ∧ s.floor k ≤ entry.stamp :=
  ⟨held, (inv.cache k entry held).fresh⟩

variable {id : ℕ}

lemma Inv.setReader (inv : Inv D s) {reader : Option (Reader κ υ)}
    (sound : ∀ r, reader = some r → r.Sound D s) : Inv D (s.setReader id reader) :=
  have same : Extends s (s.setReader id reader) := .refl_of rfl le_rfl rfl fun _ => le_rfl
  inv.step_of same inv.floor inv.current (fun _ given => .inl given)
    (fun k entry held => .inl (inv.kept k entry held))
    (update_cases fun r new => (sound r new).extends same) (fun _ _ here => .inl here)

variable {writer : Writer κ ω}

lemma Inv.setWriter (inv : Inv D s) (sound : writer.Sound D s) :
    Inv D (s.setWriter id writer) :=
  have same : Extends s (s.setWriter id writer) := .refl_of rfl le_rfl rfl fun _ => le_rfl
  inv.step_of same inv.floor inv.current (fun _ given => .inl given)
    (fun k entry held => .inl (inv.kept k entry held)) (fun _ _ here => .inl here)
    (update_cases fun w new => by cases new; exact sound.extends same)

lemma Inv.invalidate (inv : Inv D s) (c : κ → Bool) : Inv D { s with
      cache := fun k => if c k then none else s.cache k
      generation := s.generation + 1 } :=
  inv.step_of (.refl_of rfl (Nat.le_succ _) rfl fun _ => le_rfl) inv.floor inv.current
    (fun _ given => .inl given)
    (fun k entry held => by
      have old : s.cache k = some entry := by
        dsimp only at held
        split at held
        · cases held
        · exact held
      exact .inl (inv.kept k entry old))
    (fun _ _ here => .inl here) (fun _ _ here => .inl here)

lemma Inv.commit (inv : Inv D s) (store : σ) : Inv D { s with
      store := store
      commits := s.commits + 1
      history := update s.history (s.commits + 1) store } := by
  have before : ∀ n ≤ s.commits, update s.history (s.commits + 1) store n = s.history n :=
    fun n early => update_of_ne (by omega) ..
  exact inv.step_of ⟨Nat.le_succ _, le_rfl, before, fun _ => le_rfl⟩
    (fun k => (inv.floor k).trans (Nat.le_succ _)) (update_self ..)
    (fun _ given => .inl given) (fun k entry held => .inl (inv.kept k entry held))
    (fun _ _ here => .inl here) (fun _ _ here => .inl here)

/-- A write goes on to a state in which it is sound once the floors of what it touches are
raised; nothing older is cached there. -/
lemma Inv.settle (inv : Inv D s) {stamp : ℕ} {keys : κ → Bool} (past : stamp ≤ s.commits)
    (clear : ∀ k entry, keys k → s.cache k = some entry → stamp ≤ entry.stamp)
    (sound : writer.Sound D (s.raise stamp keys)) :
    Inv D ((s.setWriter id writer).raise stamp keys) :=
  have raised : Extends s ((s.setWriter id writer).raise stamp keys) :=
    .refl_of rfl le_rfl rfl (le_raise stamp keys)
  inv.step_of raised (fun k => raise_le (inv.floor k) fun _ => past) inv.current
    (fun _ given => .inl given)
    (fun k entry held => .inl ⟨held, raise_le (inv.cache k entry held).fresh fun touched =>
      clear k entry touched held⟩)
    (fun _ _ here => .inl here)
    (update_cases fun w new => by
      cases new
      exact sound.extends (.refl_of rfl le_rfl rfl fun _ => le_rfl))

variable [DecidableEq κ]

lemma Inv.insert (inv : Inv D s) {key : κ} {floor generation : ℕ} {entry : Entry υ}
    (here : s.readers id = some (.fetched key floor generation entry))
    (quiet : Admits D s key generation entry → s.floor key ≤ entry.stamp) :
    Inv D { s.setReader id none with
      cache := if Admits D s key generation entry then update s.cache key (some entry)
        else s.cache
      answers := ⟨key, floor, entry⟩ :: s.answers } := by
  have shown : Shows D s key floor entry := (inv.readers id _ here).1
  refine inv.step_of (.refl_of rfl le_rfl rfl fun _ => le_rfl) inv.floor inv.current ?_ ?_ ?_
    (fun _ _ here => .inl here)
  · intro a given
    rcases List.mem_cons.mp given with rfl | old
    · exact .inr ⟨shown.fresh, shown.past, shown.value⟩
    · exact .inl old
  · intro k held cached
    dsimp only at cached
    by_cases admitted : Admits D s key generation entry
    · rw [if_pos admitted] at cached
      by_cases same : k = key
      · subst same
        rw [update_self, Option.some.injEq] at cached
        subst cached
        exact .inr ⟨quiet admitted, shown.past, shown.value⟩
      · rw [update_of_ne same] at cached
        exact .inl (inv.kept k held cached)
    · rw [if_neg admitted] at cached
      exact .inl (inv.kept k held cached)
  · exact update_cases fun r none => by cases none

lemma Inv.evict (inv : Inv D s) (key : κ) : Inv D { s with cache := update s.cache key none } :=
  inv.step_of (.refl_of rfl le_rfl rfl fun _ => le_rfl) inv.floor inv.current (fun _ given => .inl given)
    (fun k entry held => by
      have old := update_cases (P := fun _ _ => False) (fun _ absent => by cases absent) k entry held
      have old := old.resolve_right id
      exact .inl (inv.kept k entry old))
    (fun _ _ here => .inl here) (fun _ _ here => .inl here)

lemma inv_step (e : Event κ ω) (inv : Inv D s) (quiet : Undisturbed D s e) :
    Inv D (step D s e) := by
  cases e with
  | start id key =>
    dsimp only [step]
    split
    next entry held =>
      have shown := inv.cache key entry held
      refine inv.step_of (.refl_of rfl le_rfl rfl fun _ => le_rfl) inv.floor inv.current ?_
        (fun k entry held => .inl (inv.kept k entry held))
        (fun _ _ here => .inl here) (fun _ _ here => .inl here)
      intro a given
      rcases List.mem_cons.mp given with rfl | old
      · exact .inr ⟨shown.fresh, shown.past, shown.value⟩
      · exact .inl old
    · split
      · exact inv.setReader fun r new => by cases new; exact inv.floor key
      · exact inv
  | note id =>
    dsimp only [step]
    split
    next key floor here =>
      exact inv.setReader fun r new => by cases new; exact ⟨inv.readers id _ here, le_rfl⟩
    · exact inv
  | fetch id =>
    dsimp only [step]
    split
    next key floor generation here =>
      have known : floor ≤ s.commits ∧ generation ≤ s.generation := inv.readers id _ here
      refine inv.setReader fun r new => ?_
      cases new
      exact ⟨⟨known.1, le_rfl, by rw [inv.current]⟩, known.2⟩
    · exact inv
  | fail id => exact inv.setReader fun r new => by cases new
  | insert id =>
    dsimp only [step]
    split
    next key floor generation entry here =>
      exact inv.insert here (quiet key floor generation entry here)
    · exact inv
  | submit id write =>
    dsimp only [step]
    split
    · exact inv.setWriter rfl
    · exact inv
  | commit id =>
    dsimp only [step]
    split
    next write left dropped here =>
      have whole : left = D.clears write := inv.writers id _ here
      have done := inv.commit (D.write write s.store)
      split
      next gone =>
        refine done.settle le_rfl (fun k entry touched held => ?_) ⟨le_rfl, fun k touched => .inl ?_⟩
        · rw [gone.1] at here
          have absent : s.cache k = none := quiet write left here gone.2 k touched
          exact absurd (absent.symm.trans held) (by simp)
        · rw [raise_floor, if_pos touched]
          exact le_max_right ..
      next stays =>
        refine done.setWriter ⟨le_rfl, fun k touched => .inr ⟨?_, stays⟩⟩
        rw [whole]
        exact D.covers write k touched
    · exact inv
  | refuse id =>
    dsimp only [step]
    split
    · exact inv.setWriter trivial
    · exact inv
  | clear id =>
    dsimp only [step]
    split
    next write stamp c left here =>
      obtain ⟨past, waiting⟩ := inv.writers id _ here
      refine (inv.invalidate c).settle past (fun k entry cleared held => ?_) ⟨past, fun k touched => ?_⟩
      · have covered : c k = true := (Bool.and_eq_true_iff.mp cleared).1
        simp [covered] at held
      · rcases waiting k touched with raised | ⟨⟨d, waits, covered⟩, stays⟩
        · exact .inl (raised.trans (le_raise (s := s) stamp (fun k => c k && D.touches write k) k))
        · rcases List.mem_cons.mp waits with rfl | later
          · left
            rw [raise_floor, if_pos (Bool.and_eq_true_iff.mpr ⟨covered, touched⟩)]
            exact le_max_right ..
          · exact .inr ⟨⟨d, later, covered⟩, stays⟩
    next write c left here => exact (inv.invalidate c).setWriter trivial
    · exact inv
  | drop id =>
    dsimp only [step]
    split
    next write stamp c left dropped here =>
      obtain ⟨past, waiting⟩ := inv.writers id _ here
      split
      next counts =>
        refine inv.settle past (fun k entry touched held =>
          quiet write stamp c left dropped here counts k entry touched held) ⟨past, fun k touched => .inl ?_⟩
        rw [raise_floor, if_pos touched]
        exact le_max_right ..
      next ignores =>
        exact inv.setWriter ⟨past, fun k touched =>
          (waiting k touched).imp_right fun left => ⟨left.1, fun both => ignores both.2⟩⟩
    next write phase c left dropped other here =>
      have sound := inv.writers id _ here
      cases phase with
      | running => exact inv.setWriter sound
      | committed stamp => exact absurd rfl (other stamp)
      | failed => exact inv.setWriter trivial
    · exact inv
  | evict key => exact inv.evict key

/-- A disturbed step leaves an entry in the cache that is older than its floor. -/
lemma not_coherent_step (e : Event κ ω) (inv : Inv D s) (disturbed : ¬ Undisturbed D s e) :
    ¬ Coherent D (step D s e) := by
  intro coherent
  apply disturbed
  cases e with
  | insert id =>
    intro key floor generation entry here admitted
    have shown := coherent.cache key entry (by simp [step, here, admitted])
    simpa [step, here, State.setReader] using shown.fresh
  | commit id =>
    intro write left here counts k touched
    by_contra cached
    obtain ⟨entry, held⟩ := Option.ne_none_iff_exists'.mp cached
    have shown := coherent.cache k entry (by simp [step, here, counts, State.raise, State.setWriter, held])
    have late : s.commits + 1 ≤ entry.stamp := by
      have := shown.fresh
      simp only [step, here, counts, and_self, if_true, raise_floor, touched] at this
      exact (le_max_right ..).trans this
    have early := (inv.cache k entry held).past
    omega
  | drop id =>
    intro write stamp c left dropped here counts k entry touched held
    have shown := coherent.cache k entry (by simp [step, here, counts, State.raise, State.setWriter, held])
    have fresh := shown.fresh
    simp only [step, here, counts, if_true, raise_floor, touched] at fresh
    exact (le_max_right ..).trans fresh
  | start | note | fetch | fail | submit | refuse | clear | evict => trivial

/-- A cache stays coherent throughout a run exactly when no step of it is disturbed. -/
lemma coherent_iff_undisturbed (store : σ) (events : List (Event κ ω)) :
    Run.Always (step D) (Coherent D) (State.initial store) events ↔
      Run.Each (step D) (Undisturbed D) (State.initial store) events := by
  refine Run.always_iff_each_of_invariant (I := Inv D) (fun _ inv => inv.coherent) ?_ ?_
    (inv_initial D store) events
  · exact fun _ e inv quiet => inv_step e inv quiet
  · exact fun _ e inv disturbed => not_coherent_step e inv disturbed

end Steps

/-! In a guarded cache an answer that is put in behind a clearing is refused, so only
writes whose callers went away can disturb it. -/

section
variable (s : State κ ω σ υ)

def Abandoned (key : κ) (stamp : ℕ) : Prop :=
  ∃ id write left, s.writers id = some ⟨write, .committed stamp, left, true⟩ ∧ D.touches write key

/-- No answer goes in that does not know an abandoned write, which leaves nothing older behind. -/
def Accounted : Event κ ω → Prop
  | .insert id => ∀ key floor generation entry,
      s.readers id = some (.fetched key floor generation entry) →
      Admits D s key generation entry → ∀ stamp, Abandoned D s key stamp → stamp ≤ entry.stamp
  | e => Undisturbed D s e

def Writer.Past (w : Writer κ ω) : Prop :=
  ∀ stamp, w.phase = .committed stamp → stamp ≤ s.commits

end

/-- Since an answer was read in the present generation, floors were raised for writes
whose callers are gone only. -/
structure Guard (s : State κ ω σ υ) : Prop where
  floor : ∀ k, s.floor k ≤ s.commits
  writers : ∀ id w, s.writers id = some w → w.Past s
  abandoned : ∀ key stamp, Abandoned D s key stamp → stamp ≤ s.floor key
  noted : ∀ id key floor generation, s.readers id = some (.noted key floor generation) →
    generation ≤ s.generation
  fetched : ∀ id key floor generation entry,
    s.readers id = some (.fetched key floor generation entry) →
    generation ≤ s.generation ∧
      (generation = s.generation → s.floor key ≤ entry.stamp ∨ Abandoned D s key (s.floor key))

lemma guard_initial (store : σ) : Guard D (State.initial store : State κ ω σ υ) where
  floor _ := le_rfl
  writers := by simp [State.initial]
  abandoned := by simp [State.initial, Abandoned]
  noted := by simp [State.initial]
  fetched := by simp [State.initial]

section Guards
variable {D} {s : State κ ω σ υ}

section
variable (guard : Guard D s)
include guard

lemma Guard.setReader {id : ℕ} {reader : Option (Reader κ υ)}
    (noted : ∀ key floor generation, reader = some (.noted key floor generation) →
      generation ≤ s.generation)
    (fetched : ∀ key floor generation entry, reader = some (.fetched key floor generation entry) →
      generation ≤ s.generation ∧ s.floor key ≤ entry.stamp) : Guard D (s.setReader id reader) where
  floor := guard.floor
  writers := guard.writers
  abandoned := guard.abandoned
  noted other key floor generation here := by
    by_cases same : other = id
    · subst same
      exact noted key floor generation (by simpa [State.setReader] using here)
    · exact guard.noted other key floor generation (by simpa [State.setReader, same] using here)
  fetched other key floor generation entry here := by
    by_cases same : other = id
    · subst same
      obtain ⟨old, fresh⟩ := fetched key floor generation entry (by simpa [State.setReader] using here)
      exact ⟨old, fun _ => .inl fresh⟩
    · exact guard.fetched other key floor generation entry
        (by simpa [State.setReader, same] using here)

lemma Guard.setWriter {id : ℕ} {writer : Writer κ ω} (sound : writer.Past s)
    (here : writer.dropped = true → ∀ stamp, writer.phase = .committed stamp → False)
    (gone : ∀ write stamp left, s.writers id ≠ some ⟨write, .committed stamp, left, true⟩) :
    Guard D (s.setWriter id writer) := by
  have same : ∀ key stamp, Abandoned D (s.setWriter id writer) key stamp ↔ Abandoned D s key stamp := by
    intro key stamp
    refine exists_congr fun other => exists_congr fun write => exists_congr fun left =>
      and_congr_left fun _ => ?_
    by_cases own : other = id
    · subst own
      refine iff_of_false (fun new => ?_) (gone write stamp left)
      have new : writer = ⟨write, .committed stamp, left, true⟩ := by
        simpa [State.setWriter] using new
      subst new
      exact here rfl stamp rfl
    · simp [State.setWriter, own]
  exact
    { floor := guard.floor
      writers := fun other w found =>
        (update_cases (P := fun _ (w : Writer κ ω) => w.Past s)
          (fun w new => by cases new; exact sound) other w found).elim
          (fun old => guard.writers other w old) fun new => new
      abandoned := fun key stamp found => guard.abandoned key stamp ((same key stamp).mp found)
      noted := guard.noted
      fetched := fun other key floor generation entry found =>
        (guard.fetched other key floor generation entry found).imp_right fun current now =>
          (current now).imp_right (same key _).mpr }

lemma Guard.abandon {id : ℕ} {write : ω} {stamp : ℕ} {left : List (κ → Bool)}
    (past : stamp ≤ s.commits)
    (kept : ∀ write' stamp' left', s.writers id = some ⟨write', .committed stamp', left', true⟩ →
      write' = write ∧ stamp' = stamp) :
    Guard D ((s.setWriter id ⟨write, .committed stamp, left, true⟩).raise stamp (D.touches write)) := by
  set t := (s.setWriter id ⟨write, .committed stamp, left, true⟩).raise stamp (D.touches write)
  have self : t.writers id = some ⟨write, .committed stamp, left, true⟩ := update_self ..
  have others : ∀ other, other ≠ id → t.writers other = s.writers other :=
    fun other differs => update_of_ne differs ..
  have new : ∀ key, D.touches write key → Abandoned D t key stamp :=
    fun key touched => ⟨id, write, left, self, touched⟩
  have old : ∀ key n, Abandoned D s key n → Abandoned D t key n := by
    rintro key n ⟨other, write', left', found, touched⟩
    by_cases own : other = id
    · subst own
      obtain ⟨rfl, rfl⟩ := kept write' n left' found
      exact new key touched
    · exact ⟨other, write', left', (others other own).trans found, touched⟩
  have floor : ∀ key, t.floor key =
      if D.touches write key then max (s.floor key) stamp else s.floor key := fun _ => rfl
  refine ⟨fun k => raise_le (guard.floor k) fun _ => past, ?_, ?_, guard.noted, ?_⟩
  · intro other w found
    by_cases own : other = id
    · subst own
      cases self.symm.trans found
      intro n committed
      cases committed
      exact past
    · exact guard.writers other w ((others other own).symm.trans found)
  · rintro key n ⟨other, write', left', found, touched⟩
    by_cases own : other = id
    · subst own
      cases self.symm.trans found
      rw [floor key, if_pos touched]
      exact le_max_right ..
    · have before := guard.abandoned key n
        ⟨other, write', left', (others other own).symm.trans found, touched⟩
      exact before.trans (le_raise stamp (D.touches write) key)
  · intro reader key seen generation entry found
    refine (guard.fetched reader key seen generation entry found).imp_right fun current now => ?_
    rw [floor key]
    by_cases raised : D.touches write key = true ∧ s.floor key ≤ stamp
    · rw [if_pos raised.1, max_eq_right raised.2]
      exact .inr (new key raised.1)
    · have same : (if D.touches write key then max (s.floor key) stamp else s.floor key) = s.floor key := by
        split
        next touched => exact max_eq_left (not_le.mp fun le => raised ⟨touched, le⟩).le
        · rfl
      rw [same]
      exact (current now).imp_right (old key _)

lemma Guard.clear (cache : κ → Option (Entry υ)) (stamp : ℕ)
    (past : stamp ≤ s.commits) (keys : κ → Bool) :
    Guard D (State.raise { s with cache := cache, generation := s.generation + 1 } stamp keys) where
  floor k := raise_le (guard.floor k) fun _ => past
  writers := guard.writers
  abandoned key n found := (guard.abandoned key n found).trans (le_raise stamp keys key)
  noted id key floor generation found := (guard.noted id key floor generation found).trans (Nat.le_succ _)
  fetched id key floor generation entry found := by
    have before := (guard.fetched id key floor generation entry found).1
    refine ⟨before.trans (Nat.le_succ _), fun now => ?_⟩
    have now : generation = s.generation + 1 := now
    omega

lemma Guard.commit (store : σ) : Guard D { s with
      store := store
      commits := s.commits + 1
      history := update s.history (s.commits + 1) store } where
  floor k := (guard.floor k).trans (Nat.le_succ _)
  writers id w found stamp committed := (guard.writers id w found stamp committed).trans (Nat.le_succ _)
  abandoned := guard.abandoned
  noted := guard.noted
  fetched := guard.fetched

end

/-- In a guarded cache an insertion is disturbed by nothing but writes whose callers are
gone. -/
lemma undisturbed_iff_accounted (guarded : D.guarded = true) (guard : Guard D s)
    (e : Event κ ω) : Undisturbed D s e ↔ Accounted D s e := by
  cases e with
  | insert id =>
    constructor
    · intro quiet key floor generation entry here admitted stamp found
      exact (guard.abandoned key stamp found).trans (quiet key floor generation entry here admitted)
    · intro known key floor generation entry here admitted
      obtain ⟨-, current⟩ := guard.fetched id key floor generation entry here
      rcases current (admitted.2 guarded) with fresh | found
      · exact fresh
      · exact known key floor generation entry here admitted _ found
  | start | note | fetch | fail | submit | commit | refuse | clear | drop | evict => exact Iff.rfl

variable [DecidableEq κ]

lemma guard_step (counts : D.countsDropped = true) (e : Event κ ω) (guard : Guard D s) :
    Guard D (step D s e) := by
  cases e with
  | start id key =>
    dsimp only [step]
    split
    · exact ⟨guard.floor, guard.writers, guard.abandoned, guard.noted, guard.fetched⟩
    · split
      · exact guard.setReader (fun _ _ _ new => by cases new) (fun _ _ _ _ new => by cases new)
      · exact guard
  | note id =>
    dsimp only [step]
    split
    · exact guard.setReader (fun _ _ _ new => by cases new; exact le_rfl)
        (fun _ _ _ _ new => by cases new)
    · exact guard
  | fetch id =>
    dsimp only [step]
    split
    next key floor generation here =>
      refine guard.setReader (fun _ _ _ new => by cases new) (fun _ _ _ _ new => ?_)
      cases new
      exact ⟨guard.noted id key floor generation here, guard.floor key⟩
    · exact guard
  | fail id =>
    exact guard.setReader (fun _ _ _ new => by cases new) (fun _ _ _ _ new => by cases new)
  | insert id =>
    dsimp only [step]
    split
    · have gone : Guard D (s.setReader id none) :=
        guard.setReader (fun _ _ _ new => by cases new) (fun _ _ _ _ new => by cases new)
      exact ⟨gone.floor, gone.writers, gone.abandoned, gone.noted, gone.fetched⟩
    · exact guard
  | submit id write =>
    dsimp only [step]
    split
    next here =>
      refine guard.setWriter (fun _ committed => by cases committed) (fun gone => by cases gone) ?_
      simp [here]
    · exact guard
  | commit id =>
    dsimp only [step]
    split
    next write left dropped here =>
      have done := guard.commit (D.write write s.store)
      split
      next gone =>
        rw [gone.1]
        exact done.abandon le_rfl (by simp [here])
      next stays =>
        have caller : dropped = false := by simpa [counts] using stays
        refine done.setWriter (fun _ committed => by cases committed; exact le_rfl) ?_ (by simp [here])
        simp [caller]
    · exact guard
  | refuse id =>
    dsimp only [step]
    split
    next here =>
      refine guard.setWriter (fun _ committed => by cases committed) ?_ (by simp [here])
      simp
    · exact guard
  | clear id =>
    dsimp only [step]
    split
    next write stamp c left here =>
      have past : stamp ≤ s.commits := guard.writers id _ here stamp rfl
      have moved : Guard D (s.setWriter id ⟨write, .committed stamp, left, false⟩) :=
        guard.setWriter (fun _ committed => by cases committed; exact past) (by simp) (by simp [here])
      exact moved.clear _ stamp past _
    next write c left here =>
      have moved : Guard D (s.setWriter id ⟨write, .failed, left, false⟩) :=
        guard.setWriter (fun _ committed => by cases committed) (by simp) (by simp [here])
      have cleared := moved.clear (fun k => if c k then none else s.cache k) 0 (Nat.zero_le _)
        fun _ => false
      exact ⟨cleared.floor, cleared.writers, cleared.abandoned, cleared.noted, cleared.fetched⟩
    · exact guard
  | drop id =>
    dsimp only [step]
    split
    next write stamp c left dropped here =>
      rw [if_pos counts]
      refine guard.abandon (guard.writers id _ here stamp rfl) fun write' stamp' left' found => ?_
      cases here.symm.trans found
      exact ⟨rfl, rfl⟩
    next write phase c left dropped other here =>
      refine guard.setWriter (fun n committed => guard.writers id _ here n committed) ?_ ?_
      · rintro - n rfl
        exact other n rfl
      · rintro write' n left' found
        cases here.symm.trans found
        exact other n rfl
    · exact guard
  | evict key => exact ⟨guard.floor, guard.writers, guard.abandoned, guard.noted, guard.fetched⟩

/-- A guarded cache stays coherent throughout a run exactly when every write whose caller
went away is accounted for. -/
lemma coherent_iff_accounted (guarded : D.guarded = true) (counts : D.countsDropped = true)
    (store : σ) (events : List (Event κ ω)) :
    Run.Always (step D) (Coherent D) (State.initial store) events ↔
      Run.Each (step D) (Accounted D) (State.initial store) events := by
  refine (coherent_iff_undisturbed store events).trans
    (Run.each_congr (fun _ e guard => guard_step counts e guard) ?_ (guard_initial D store) events)
  exact fun _ e guard => undisturbed_iff_accounted guarded guard e

end Guards
end ReadThrough
