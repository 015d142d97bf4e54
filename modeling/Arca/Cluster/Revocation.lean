import Arca.Cluster.ControlMerge
import Arca.Lib.Run
import Arca.Types

/-!
# Replication of one control-plane entity

One node, the origin, mutates a credential, a user or a grant attachment. Every
mutation that takes effect fans an op out to the peers; ops in flight arrive at
any time, any number of times or never, and the receiver stamps its own clock on
an upsert. Snapshots taken of a node are merged into any node at any later time.
The parents of an attachment are not mutated and stay alive everywhere.
-/
namespace Arca.Cluster
open Function Slot

/-- How the store of one entity family creates a row: the `updated_at` it is
given, and whether an existing row is overwritten or makes the call fail. -/
structure Family (α : Type) where
  createStamp : α → Instant → Instant
  createOverwrites : Bool

def credentials : Family Credential := ⟨fun c _ => c.createdAt, false⟩

def userGrants : Family Unit := ⟨fun _ now => now, true⟩

def Credential.change (active : Option Bool) (description : Option String) :
    Option (Credential → Credential) :=
  if active.isNone && description.isNone then none
  else some fun c =>
    { c with active := active.getD c.active, description := description.getD c.description }

def User.change (username description : Option String) : Option (User → User) :=
  if username.isNone && description.isNone then none
  else some fun u =>
    { u with username := username.getD u.username, description := description.getD u.description }

inductive Mutation (α : Type) where
  | create (row : α)
  | update (change : Option (α → α))
  | delete

inductive ControlOp (α : Type) where
  | upsert (row : α)
  | delete
  deriving DecidableEq

instance [DecidableEq α] : LawfulBEq (ControlOp α) := instLawfulBEq

instance [DecidableEq α] : LawfulBEq (Slot α) := instLawfulBEq

structure Mutated (α : Type) where
  slot : Slot α
  op : ControlOp α
  stamp : Option Instant

variable {α ν : Type}

/-- `none` when the mutation fails or finds no row: nothing is fanned out. -/
def mutateSlot (F : Family α) (now : Instant) (s : Slot α) : Mutation α → Option (Mutated α)
  | .create r =>
    if s.row.isSome && !F.createOverwrites then none
    else some ⟨⟨some (r, F.createStamp r now), none⟩, .upsert r, some (F.createStamp r now)⟩
  | .update change =>
    match s.row, change with
    | none, _ => none
    | some (r, _), none => some ⟨s, .upsert r, none⟩
    | some (r, _), some f => some ⟨{ s with row := some (f r, now) }, .upsert (f r), some now⟩
  | .delete =>
    if s.row.isSome then some ⟨⟨none, some now⟩, .delete, some now⟩ else none

/-- `receive_op`: an upsert is stamped with the receiver's clock, a delete leaves
no tombstone. -/
def receiveOp (now : Instant) (s : Slot α) : ControlOp α → Slot α
  | .upsert r => { s with row := some (r, now) }
  | .delete => { s with row := none }

structure ClusterState (ν α : Type) where
  nodes : ν → Slot α
  sent : List (ControlOp α)
  snapshots : List (Slot α)
  /-- Of the origin's last mutation, its timestamp and the row it left. -/
  last : Option (Instant × Option α)

inductive Event (ν α : Type) where
  | mutate (m : Mutation α) (now : Instant)
  | deliver (node : ν) (op : ControlOp α) (now : Instant)
  | snapshot (node : ν)
  | merge (node : ν) (remote : Slot α)

/-- An op is delivered only to a peer and only if it was fanned out; a snapshot
is merged only if it was taken. -/
def step [DecidableEq ν] [DecidableEq α] (F : Family α) (origin : ν) (s : ClusterState ν α) :
    Event ν α → ClusterState ν α
  | .mutate m now =>
    match mutateSlot F now (s.nodes origin) m with
    | none => s
    | some e =>
      { s with
        nodes := update s.nodes origin e.slot
        sent := e.op :: s.sent
        last := match e.stamp with
          | some t => some (t, e.slot.row.map Prod.fst)
          | none => s.last }
  | .deliver node op now =>
    if node ≠ origin ∧ op ∈ s.sent then
      { s with nodes := update s.nodes node (receiveOp now (s.nodes node) op) }
    else s
  | .snapshot node => { s with snapshots := s.nodes node :: s.snapshots }
  | .merge node remote =>
    if remote ∈ s.snapshots then
      { s with
        nodes := update s.nodes node
          ((s.nodes node).applyMerge ((s.nodes node).planMerge true remote)) }
    else s

/-- All nodes hold the same row, or none at all. -/
def start (row : Option (α × Instant)) : ClusterState ν α where
  nodes _ := ⟨row, none⟩
  sent := []
  snapshots := []
  last := row.map fun (r, t) => (t, some r)

section
variable (s : ClusterState ν α)

/-- Every pair of nodes has merged with nothing left to do. -/
def Quiet : Prop :=
  ∀ n m, ((s.nodes n).planMerge true (s.nodes m)).isEmpty = true

def intended : Option α := s.last.bind Prod.snd

/-- When the cluster is quiet every node holds the row of the last mutation. -/
def FollowsOrigin : Prop :=
  Quiet s → ∀ n, (s.nodes n).row.map Prod.fst = intended s

/-- The slots that still matter: of the nodes, and of snapshots in flight. -/
def Held (x : Slot α) : Prop := (∃ n, x = s.nodes n) ∨ x ∈ s.snapshots

end

/-- A mutation is stamped later than all that is held, and no stale upsert is received after it. -/
def InOrder (F : Family α) (origin : ν) (s : ClusterState ν α) : Event ν α → Prop
  | .mutate m now => ∀ e, mutateSlot F now (s.nodes origin) m = some e → ∀ t, e.stamp = some t →
      ∀ x, Held s x → x.rowStamp < t ∧ x.deadStamp < t
  | .deliver _ (.upsert r) now => ∀ t row, s.last = some (t, row) → now < t ∨ row = some r
  | _ => True

/-- A slot that cannot undo the last mutation: a row as new as it is its row, and
a tombstone is no newer, nor as new while the row is meant to live. -/
structure Fits (since : Instant) (cur : Option α) (x : Slot α) : Prop where
  row : ∀ r t, x.row = some (r, t) → since ≤ t → cur = some r
  dead : x.deadStamp ≤ since
  alive : cur ≠ none → x.deadStamp < since

/-- The origin's own slot carries its last mutation. -/
def Carries (since : Instant) (x : Slot α) : Option α → Prop
  | some r => ∃ t, since ≤ t ∧ x.row = some (r, t)
  | none => x.row = none ∧ x.dead = some since

structure Inv (origin : ν) (s : ClusterState ν α) : Prop where
  untouched : s.last = none → s.sent = [] ∧ ∀ x, Held s x → x = empty
  fits : ∀ since cur, s.last = some (since, cur) → ∀ x, Held s x → Fits since cur x
  carries : ∀ since cur, s.last = some (since, cur) → Carries since (s.nodes origin) cur

variable {F : Family α} {origin : ν} {s : ClusterState ν α} {since : Instant} {cur : Option α}
  {x y : Slot α}

lemma held_update [DecidableEq ν] {n : ν} (h : Held { s with nodes := update s.nodes n y } x) :
    x = y ∨ Held s x := by
  obtain ⟨m, rfl⟩ | hx := h
  · by_cases same : m = n
    · subst same
      exact .inl (update_self ..)
    · exact .inr (.inl ⟨m, update_of_ne same ..⟩)
  · exact .inr (.inr hx)

lemma inv_start (row : Option (α × Instant)) : Inv origin (start row : ClusterState ν α) := by
  cases row with
  | none =>
    refine ⟨fun _ => ⟨rfl, ?_⟩, (fun _ _ h => nomatch h), (fun _ _ h => nomatch h)⟩
    rintro x (⟨n, rfl⟩ | hx)
    · rfl
    · cases hx
  | some p =>
    obtain ⟨r, t⟩ := p
    refine ⟨(fun h => nomatch h), ?_, ?_⟩
    · rintro since cur h x (⟨n, rfl⟩ | hx)
      · obtain ⟨rfl, rfl⟩ := Prod.mk.inj (Option.some.inj h)
        refine ⟨?_, bot_le, fun _ => WithBot.bot_lt_coe _⟩
        rintro _ _ h' _
        exact congrArg (Option.map Prod.fst) h'
      · cases hx
    · intro since cur h
      obtain ⟨rfl, rfl⟩ := Prod.mk.inj (Option.some.inj h)
      exact ⟨t, le_rfl, rfl⟩

variable {t now : Instant} {m : Mutation α} {e : Mutated α}

lemma Fits.of_later (h : x.rowStamp < t ∧ x.deadStamp < t) (cur : Option α) : Fits t cur x := by
  refine ⟨?_, h.2.le, fun _ => h.2⟩
  intro r u hr hle
  have stamp : x.rowStamp = (u : WithBot Instant) := by simp [Slot.rowStamp, Slot.alive, hr, stampOf]
  exact absurd (WithBot.coe_lt_coe.mp (stamp ▸ h.1)) (not_lt.mpr hle)

lemma mutateSlot_stamped
    (h : mutateSlot F now x m = some e) (ht : e.stamp = some t) (later : x.deadStamp < t) :
    Carries t e.slot (e.slot.row.map Prod.fst) ∧ Fits t (e.slot.row.map Prod.fst) e.slot := by
  have fits : ∀ (r : α) (d : Option Instant), stampOf d < t →
      Fits t (some r) (⟨some (r, t), d⟩ : Slot α) := by
    intro r d hd
    refine ⟨?_, hd.le, fun _ => hd⟩
    rintro _ _ h _
    exact congrArg (Option.map Prod.fst) h
  cases m with
  | create r =>
    simp only [mutateSlot] at h
    split at h
    · cases h
    · obtain rfl := Option.some.inj h
      obtain rfl := Option.some.inj ht
      exact ⟨⟨_, le_rfl, rfl⟩, fits r none (WithBot.bot_lt_coe _)⟩
  | update change =>
    simp only [mutateSlot] at h
    split at h
    · cases h
    · obtain rfl := Option.some.inj h
      cases ht
    · obtain rfl := Option.some.inj h
      obtain rfl := Option.some.inj ht
      exact ⟨⟨_, le_rfl, rfl⟩, fits _ x.dead later⟩
  | delete =>
    simp only [mutateSlot] at h
    split at h
    · obtain rfl := Option.some.inj h
      obtain rfl := Option.some.inj ht
      exact ⟨⟨rfl, rfl⟩, (fun _ _ h => nomatch h), le_rfl, fun h => absurd rfl h⟩
    · cases h

lemma mutateSlot_unstamped (h : mutateSlot F now x m = some e) (ht : e.stamp = none) :
    e.slot = x ∧ x.row ≠ none := by
  cases m with
  | create r =>
    simp only [mutateSlot] at h
    split at h
    · cases h
    · obtain rfl := Option.some.inj h
      cases ht
  | update change =>
    simp only [mutateSlot] at h
    split at h
    · cases h
    · next r t hr =>
        obtain rfl := Option.some.inj h
        exact ⟨rfl, by simp [hr]⟩
    · obtain rfl := Option.some.inj h
      cases ht
  | delete =>
    simp only [mutateSlot] at h
    split at h
    · obtain rfl := Option.some.inj h
      cases ht
    · cases h

lemma Fits.merge (hx : Fits since cur x) (hy : Fits since cur y) :
    Fits since cur (x.applyMerge (x.planMerge true y)) := by
  by_cases dead : x.DeadWith y
  · rw [applyMerge_of_dead dead]
    have stamp : (⟨none, latest x.dead y.dead⟩ : Slot α).deadStamp = max x.deadStamp y.deadStamp :=
      stampOf_latest _ _
    refine ⟨(fun _ _ h => nomatch h), ?_, ?_⟩
    · rw [stamp]
      exact max_le hx.dead hy.dead
    · intro live
      rw [stamp]
      exact max_lt (hx.alive live) (hy.alive live)
  · rw [applyMerge_of_alive dead]
    refine ⟨?_, bot_le, fun _ => WithBot.bot_lt_coe _⟩
    intro r t h
    split at h
    · exact hy.row r t h
    · exact hx.row r t h

/-- While the row is meant to live, no deletion wins against the origin. -/
lemma Carries.not_deadWith {r : α} (hc : Carries since x (some r)) (hx : Fits since (some r) x)
    (hy : Fits since (some r) y) : ¬ x.DeadWith y := by
  obtain ⟨t, hle, hr⟩ := hc
  have reach : (since : WithBot Instant) ≤ x.rowStamp := by
    simpa [rowStamp, alive, hr, stampOf] using hle
  apply not_lt.mpr
  apply max_le
  · exact ((hx.alive (by simp)).le.trans reach).trans (le_max_left _ _)
  · exact ((hy.alive (by simp)).le.trans reach).trans (le_max_left _ _)

lemma Carries.deadWith (hc : Carries since x none) (hy : Fits since none y) : x.DeadWith y := by
  obtain ⟨hr, hd⟩ := hc
  have behind : y.rowStamp < since := by
    cases hy' : y.row with
    | none => simp [rowStamp, alive, hy', stampOf]
    | some p =>
      have : ¬ since ≤ p.2 := fun hle => by cases hy.row p.1 p.2 hy' hle
      simpa [rowStamp, alive, hy', stampOf] using this
  apply lt_of_lt_of_le _ (le_max_left _ _)
  have stamp : x.deadStamp = (since : WithBot Instant) := by simp [deadStamp, hd, stampOf]
  rw [stamp]
  exact max_lt (by simp [rowStamp, alive, hr, stampOf]) behind

/-- A merge does not take the last mutation away from the slot that carries it. -/
lemma Carries.merge (hc : Carries since x cur) (hx : Fits since cur x) (hy : Fits since cur y) :
    Carries since (x.applyMerge (x.planMerge true y)) cur := by
  cases cur with
  | some r =>
    rw [applyMerge_of_alive (hc.not_deadWith hx hy)]
    obtain ⟨t, hle, hr⟩ := hc
    by_cases newer : optionLt x.alive y.alive = true
    · -- a newer row elsewhere is the row of the last mutation too
      cases hy' : y.row with
      | none => simp [alive, hr, hy', optionLt] at newer
      | some p =>
        obtain ⟨q, u⟩ := p
        have htu : t < u := by simpa [alive, hr, hy', optionLt] using newer
        have same := hy.row q u hy' (hle.trans htu.le)
        exact ⟨u, hle.trans htu.le, by simp [newer, Option.some.inj same]⟩
    · exact ⟨t, hle, by simp [newer, hr]⟩
  | none =>
    rw [applyMerge_of_dead (hc.deadWith hy)]
    have stamp : x.deadStamp = stampOf (some since) := congrArg stampOf hc.2
    have top : stampOf (latest x.dead y.dead) = stampOf (some since) := by
      rw [stampOf_latest]
      exact (max_eq_left (hy.dead.trans stamp.ge)).trans stamp
    exact ⟨rfl, stampOf_inj.mp top⟩

section steps
variable [DecidableEq ν] {n : ν}

section
variable (inv : Inv origin s)
include inv

lemma Inv.update (untouched : s.last = none → y = empty)
    (fits : ∀ since cur, s.last = some (since, cur) → Fits since cur y)
    (carries : n = origin → ∀ since cur, s.last = some (since, cur) → Carries since y cur) :
    Inv origin { s with nodes := update s.nodes n y } := by
  refine ⟨fun h => ⟨(inv.untouched h).1, fun x hx => ?_⟩, fun since cur h x hx => ?_, fun since cur h => ?_⟩
  · obtain rfl | hx := held_update hx
    · exact untouched h
    · exact (inv.untouched h).2 x hx
  · obtain rfl | hx := held_update hx
    · exact fits since cur h
    · exact inv.fits since cur h x hx
  · by_cases same : n = origin
    · subst same
      simpa using carries rfl since cur h
    · have other : origin ≠ n := fun h => same h.symm
      simpa [update_of_ne other] using inv.carries since cur h

lemma Inv.mutate [DecidableEq α]
    (inOrder : InOrder F origin s (.mutate m now)) :
    Inv origin (step F origin s (.mutate m now)) := by
  cases h : mutateSlot F now (s.nodes origin) m with
  | none => simpa [step, h] using inv
  | some e =>
    have later := inOrder e h
    have own : Held s (s.nodes origin) := .inl ⟨origin, rfl⟩
    cases ht : e.stamp with
    | none =>
      -- nothing is written: only the op fanned out is new
      obtain ⟨same, hrow⟩ := mutateSlot_unstamped h ht
      have unchanged : Function.update s.nodes origin e.slot = s.nodes := by
        rw [same]
        exact update_eq_self origin s.nodes
      simp only [step, h, ht, unchanged]
      refine ⟨fun hl => ?_, inv.fits, inv.carries⟩
      have empty := (inv.untouched hl).2 _ own
      exact absurd (congrArg row empty) hrow
    | some t =>
      obtain ⟨carries, fits⟩ := mutateSlot_stamped h ht (later t ht _ own).2
      simp only [step, h, ht]
      refine ⟨(fun hl => nomatch hl), ?_, ?_⟩
      · intro since cur hl x hx
        obtain ⟨rfl, rfl⟩ := Prod.mk.inj (Option.some.inj hl)
        obtain rfl | hx := held_update hx
        · exact fits
        · exact .of_later (later t ht x hx) _
      · intro since cur hl
        obtain ⟨rfl, rfl⟩ := Prod.mk.inj (Option.some.inj hl)
        simpa using carries

lemma Inv.deliver [DecidableEq α] {op : ControlOp α}
    (inOrder : InOrder F origin s (.deliver n op now)) :
    Inv origin (step F origin s (.deliver n op now)) := by
  by_cases h : n ≠ origin ∧ op ∈ s.sent
  · obtain ⟨peer, sent⟩ := h
    have old : ∀ since cur, s.last = some (since, cur) → Fits since cur (s.nodes n) :=
      fun since cur hl => inv.fits since cur hl _ (.inl ⟨n, rfl⟩)
    simp only [step, peer, sent, ne_eq, not_false_eq_true, and_self, if_true]
    apply inv.update
    · intro hl
      rw [(inv.untouched hl).1] at sent
      cases sent
    · intro since cur hl
      refine ⟨fun r t hr hle => ?_, ?_, ?_⟩
      · cases op with
        | upsert q =>
          obtain ⟨rfl, rfl⟩ := Prod.mk.inj (Option.some.inj hr)
          obtain behind | same := inOrder since cur hl
          · exact absurd hle (not_le.mpr behind)
          · exact same
        | delete => cases hr
      · cases op <;> exact (old since cur hl).dead
      · cases op <;> exact (old since cur hl).alive
    · exact fun same => absurd same peer
  · simpa only [step, h, if_false] using inv

omit [DecidableEq ν] in
lemma Inv.snapshot (n : ν) :
    Inv origin { s with snapshots := s.nodes n :: s.snapshots } := by
  have held : ∀ x, Held { s with snapshots := s.nodes n :: s.snapshots } x → Held s x := by
    rintro x (hx | hx)
    · exact .inl hx
    · obtain rfl | hx := List.mem_cons.mp hx
      · exact .inl ⟨n, rfl⟩
      · exact .inr hx
  exact ⟨fun hl => ⟨(inv.untouched hl).1, fun x hx => (inv.untouched hl).2 x (held x hx)⟩,
    fun since cur hl x hx => inv.fits since cur hl x (held x hx), inv.carries⟩

lemma Inv.merge {remote : Slot α} (taken : remote ∈ s.snapshots) :
    Inv origin { s with
      nodes := Function.update s.nodes n
        ((s.nodes n).applyMerge ((s.nodes n).planMerge true remote)) } := by
  have mine : Held s (s.nodes n) := .inl ⟨n, rfl⟩
  have theirs : Held s remote := .inr taken
  apply inv.update
  · intro hl
    rw [(inv.untouched hl).2 _ mine, (inv.untouched hl).2 _ theirs]
    rfl
  · intro since cur hl
    exact (inv.fits since cur hl _ mine).merge (inv.fits since cur hl _ theirs)
  · rintro rfl since cur hl
    exact (inv.carries since cur hl).merge (inv.fits since cur hl _ mine)
      (inv.fits since cur hl _ theirs)

end

lemma inv_step [DecidableEq α] (s : ClusterState ν α) (ev : Event ν α) (inv : Inv origin s)
    (inOrder : InOrder F origin s ev) : Inv origin (step F origin s ev) := by
  cases ev with
  | mutate m now => exact inv.mutate inOrder
  | deliver n op now => exact inv.deliver inOrder
  | snapshot n => exact inv.snapshot n
  | merge n remote =>
    by_cases taken : remote ∈ s.snapshots
    · simpa only [step, taken, if_true] using inv.merge taken
    · simpa only [step, taken, if_false] using inv

end steps

/-- With nothing left to merge against the origin, a node holds its row. -/
lemma Inv.followsOrigin (inv : Inv origin s) : FollowsOrigin s := by
  intro quiet n
  have idle := quiet n origin
  have own : Held s (s.nodes origin) := .inl ⟨origin, rfl⟩
  have other : Held s (s.nodes n) := .inl ⟨n, rfl⟩
  cases hl : s.last with
  | none =>
    rw [(inv.untouched hl).2 _ other]
    simp [intended, hl, empty]
  | some p =>
    obtain ⟨since, cur⟩ := p
    have carries := inv.carries since cur hl
    have fits := inv.fits since cur hl
    have goal : (s.nodes n).row.map Prod.fst = cur := by
      cases cur with
      | none =>
        have dead := carries.deadWith (fits _ other)
        simp [((isEmpty_of_dead_iff (deadWith_comm.mp dead)).mp idle).1]
      | some r =>
        have alive := carries.not_deadWith (fits _ own) (fits _ other)
        have behind := ((isEmpty_of_alive_iff fun h => alive (deadWith_comm.mp h)).mp idle).2
        obtain ⟨t, hle, hr⟩ := carries
        cases hn : (s.nodes n).row with
        | none => simp [Slot.rowStamp, Slot.alive, hr, hn, stampOf] at behind
        | some q =>
          have htq : t ≤ q.2 := by
            simpa [Slot.rowStamp, Slot.alive, hr, hn, stampOf] using behind
          have same := (fits _ other).row q.1 q.2 hn (hle.trans htq)
          simp [Option.some.inj same]
    simp [intended, hl, goal]

def key : Credential where
  accessKeyId := "AKIA"
  secretAccessKey := "secret"
  description := ""
  createdAt := 10
  active := true
  userId := "u"

def deactivate : Mutation Credential := .update (Credential.change (some false) none)

/-- The op of the creation arrives at the peer once more, after the op of the
deactivation, and a merge takes its row back to the origin. -/
def staleUpsert : List (Event Bool Credential) :=
  [.mutate (.create key) 10, .mutate deactivate 20,
    .deliver true (.upsert { key with active := false }) 21, .deliver true (.upsert key) 30,
    .snapshot true, .merge false ⟨some (key, 30), none⟩]

end Arca.Cluster
