import Arca.Backends.Agreement
import Arca.Cluster.DelayedDelete
import Arca.Cluster.Membership
import Arca.Cluster.Revocation

/-!
# Purging tombstones

A node drops its tombstones past the grace window if no published peer is both dead
and unseen for that long. Rows, manifests and fan-outs of the cluster are followed
from the purge on: they bring the deleted row back exactly when some copy of it was
left, at a node or on its way, when the tombstone went.
-/
namespace Arca.Cluster
open ObjectTable ObjectRecord Backends Function Replicas Slot

structure Grave where
  bucket : String
  key : String
  version : Option String
  diedAt : Instant

/-- A live row of the version from before its deletion. -/
def Grave.Older (g : Grave) (r : ObjectRecord) : Prop :=
  named g.bucket g.key g.version r = true ∧ r.isTombstone = false ∧ r.lastModified < g.diedAt

lemma Grave.Older.congr {g : Grave} {r x : ObjectRecord} (h : g.Older r)
    (same : r.replicated = x.replicated) : g.Older x := by
  have name : named g.bucket g.key g.version x = named g.bucket g.key g.version x.replicated := rfl
  have dead : x.isTombstone = x.replicated.isTombstone := rfl
  have time : x.lastModified = x.replicated.lastModified := rfl
  unfold Grave.Older
  rw [name, dead, time, ← same]
  exact h

inductive GcEvent (ν : Type) where
  | mutate (n : ν) (m : ObjectMutation)
  | lock (n : ν) (change : LockChange) (bucket key : String) (version : Option String)
      (now : Instant)
  | deliver (n : ν) (message : ObjectMessage) (now : Instant)
  | serve (n : ν)
  | pull (n : ν) (row : ObjectRecord)
  | gc (n : ν) (peers : List PeerNode) (now : Instant) (grace : Int)

namespace Replicas
variable {ν : Type} [DecidableEq ν]

/-- Messages and manifest rows reach any node at any time, again and again. -/
def gcStep (s : Replicas ν) : GcEvent ν → Replicas ν
  | .mutate n m =>
    match m.commit (s.tables n) with
    | none => s
    | some (t, message) => { s.setTable n t with sent := s.sent ++ message.toList }
  | .lock n change bucket key version now =>
    let t := ((s.tables n).perform (change.op bucket key version now)).1
    { s.setTable n t with
      sent := s.sent ++
        ((lockRow bucket key version t.rows).map fun r => .object (selected r)).toList }
  | .deliver n message now =>
    if message ∈ s.sent then s.setTable n (message.applyTo (s.tables n) now) else s
  | .serve n => { s with served := s.served ++ (s.tables n).rows }
  | .pull n row => if row ∈ s.served then s.setTable n ((s.tables n).applyRemoteObject row) else s
  | .gc n peers now grace =>
    if (tombstoneGcBlockers peers now grace).isEmpty then
      s.setTable n ((s.tables n).purgeTombstones (now - grace))
    else s

/-- No copy of the row from before the deletion is held or on its way. -/
def Spared (g : Grave) (s : Replicas ν) : Prop := ∀ r, InPlay s r → ¬ g.Older r

/-- Later writes are stamped no earlier than the deletion. -/
def Timely (g : Grave) : GcEvent ν → Prop
  | .mutate _ m => g.diedAt ≤ m.stamp
  | _ => True

def Revived (g : Grave) (n : ν) (s : Replicas ν) : Prop := ∃ r ∈ (s.tables n).rows, g.Older r

variable {g : Grave} {s : Replicas ν} {n : ν} {t : ObjectTable} {r : ObjectRecord}

lemma Spared.setTable (h : Spared g s)
    (rows : ∀ r ∈ t.rows, ¬ g.Older r) : Spared g (s.setTable n t) := by
  rintro r (⟨m, mem⟩ | served | sent)
  · by_cases same : m = n
    · subst same
      simp only [setTable, update_self] at mem
      exact rows r mem
    · simp only [Replicas.setTable, update_of_ne same] at mem
      exact h r (.inl ⟨m, mem⟩)
  · exact h r (.inr (.inl served))
  · exact h r (.inr (.inr sent))

omit [DecidableEq ν] in
lemma Spared.send (h : Spared g s) {message : Option ObjectMessage}
    (new : ∀ r, message = some (.object r) → ¬ g.Older r) :
    Spared g { s with sent := s.sent ++ message.toList } := by
  rintro r (table | served | sent)
  · exact h r (.inl table)
  · exact h r (.inr (.inl served))
  · rcases List.mem_append.mp sent with old | last
    · exact h r (.inr (.inr old))
    · exact new r (Option.mem_toList.mp last)

section
variable (rows : ∀ r ∈ t.rows, ¬ g.Older r)
include rows

lemma not_older_applyRemoteObject {record : ObjectRecord}
    (received : ¬ g.Older record) :
    ∀ r ∈ (t.applyRemoteObject record).rows, ¬ g.Older r := by
  intro r hr older
  rcases mem_applyRemoteObject hr with ⟨x, hx, same⟩ | ⟨row, written, same⟩
  · exact rows x hx (older.congr same)
  · have older := older.congr same
    unfold remoteWrite at written
    cases found : versionRow record.bucket record.key record.versionId t.rows with
    | none =>
      rw [found] at written
      obtain rfl := Option.some.inj written
      exact received older
    | some held =>
      rw [found] at written
      rcases resolve_cases written with ⟨rfl, -⟩ | ⟨rfl, tie, -⟩
      · exact received older
      · refine rows held (List.mem_of_find?_eq_some found) ?_
        have spec := mergeRegisters_spec record held
        obtain ⟨name, live, time⟩ := older
        refine ⟨?_, spec.2.2.1 ▸ live, spec.1 ▸ time⟩
        have columns : (record.mergeRegisters held).bucket = held.bucket ∧
            (record.mergeRegisters held).key = held.key ∧
            (record.mergeRegisters held).versionId = held.versionId := by
          unfold mergeRegisters
          split_ifs <;> exact ⟨rfl, rfl, rfl⟩
        rw [named_iff, columns.1, columns.2.1, columns.2.2] at name
        exact named_iff.mpr name

lemma not_older_traced {m : ObjectMutation}
    (timely : g.diedAt ≤ m.stamp) (h : ObjectMutation.Traced t m r) :
    ¬ g.Older r := by
  intro older
  rcases h with ⟨x, hx, same⟩ | ⟨-, x, hx, same⟩ | ⟨new, written, same⟩
  · exact rows x hx (older.congr same)
  · exact absurd (older.congr same).2.1 (by simp [tombstone])
  · have stamp := (ObjectMutation.writes_spec written).1
    exact absurd (older.congr same).2.2 (by rw [stamp]; exact not_lt.mpr timely)

lemma not_older_changeLock
    (change : LockChange) (bucket key : String) (version : Option String) (now : Instant) :
    ∀ r ∈ (t.perform (change.op bucket key version now)).1.rows, ¬ g.Older r := by
  intro r hr older
  rw [change.perform_rows] at hr
  rcases mem_updateWhere hr with old | ⟨x, hx, -, rfl⟩
  · exact rows r old older
  · refine rows x hx ?_
    obtain ⟨bucket, key, version, time, -, dead, -⟩ := change.on_columns now x
    obtain ⟨name, live, older⟩ := older
    rw [named_iff, bucket, key, version] at name
    exact ⟨named_iff.mpr name, dead ▸ live, time ▸ older⟩

end

lemma spared_step (h : Spared g s) {e : GcEvent ν} (timely : Timely g e) :
    Spared g (gcStep s e) := by
  have held : ∀ n, ∀ r ∈ (s.tables n).rows, ¬ g.Older r := fun n r hr => h r (.inl ⟨n, hr⟩)
  cases e with
  | mutate n m =>
    cases committed : m.commit (s.tables n) with
    | none => simpa only [gcStep, committed] using h
    | some result =>
      obtain ⟨rows, carried⟩ := ObjectMutation.traced_commit committed
      simp only [gcStep, committed]
      exact (h.setTable fun r hr => not_older_traced (held n) timely (rows r hr)).send
        fun r carries => not_older_traced (held n) timely (carried r carries)
  | lock n change bucket key version now =>
    have rows := not_older_changeLock (held n) change bucket key version now
    refine (h.setTable rows).send fun r carries older => ?_
    obtain ⟨x, found, same⟩ := Option.map_eq_some_iff.mp carries
    obtain rfl := ObjectMessage.object.inj same
    refine rows x ?_ older
    cases version with
    | some version => exact List.mem_of_find?_eq_some found
    | none => exact List.mem_of_find?_eq_some found
  | deliver n message now =>
    unfold gcStep
    dsimp only
    split
    · next sent =>
        refine h.setTable ?_
        cases message with
        | object record => exact not_older_applyRemoteObject (held n) (h record (.inr (.inr sent)))
        | versionDelete bucket key argument =>
          intro r hr older
          rcases mem_applyRemoteVersionDelete hr with ⟨x, hx, same⟩ | ⟨x, hx, -, -, same⟩
          · exact held n x hx (older.congr same)
          · exact absurd (older.congr same).2.1 (by simp [tombstone])
    · exact h
  | serve n =>
    rintro r (table | served | sent)
    · exact h r (.inl table)
    · rcases List.mem_append.mp served with old | new
      · exact h r (.inr (.inl old))
      · exact held n r new
    · exact h r (.inr (.inr sent))
  | pull n row =>
    unfold gcStep
    dsimp only
    split
    · next served =>
        exact h.setTable (not_older_applyRemoteObject (held n) (h row (.inr (.inl served))))
    · exact h
  | gc n peers now grace =>
    unfold gcStep
    dsimp only
    split
    · exact h.setTable fun r hr => held n r (mem_deleteWhere hr)
    · exact h

structure Buried (g : Grave) (n : ν) (s : Replicas ν) : Prop where
  tombstone : ∃ d ∈ (s.tables n).rows, named g.bucket g.key g.version d = true ∧
    d.isTombstone = true ∧ d.lastModified = g.diedAt
  single : Single g.bucket g.key g.version (s.tables n).rows

lemma purged_eq {peers : List PeerNode} {now : Instant} {grace : Int}
    (guard : tombstoneGcBlockers peers now grace = []) :
    gcStep s (.gc n peers now grace) =
      s.setTable n ((s.tables n).purgeTombstones (now - grace)) := by
  unfold gcStep
  simp only [guard, List.isEmpty_nil, if_true]

lemma spared_purge_iff (n : ν) (before : Instant) :
    Spared g (s.setTable n ((s.tables n).purgeTombstones before)) ↔ Spared g s := by
  refine ⟨fun h r inPlay older => ?_, fun h =>
    h.setTable fun r hr => h r (.inl ⟨n, mem_deleteWhere hr⟩)⟩
  rcases inPlay with ⟨m, mem⟩ | served | sent
  · refine h r (.inl ⟨m, ?_⟩) older
    by_cases same : m = n
    · subst same
      simp only [setTable, update_self]
      exact List.mem_filter.mpr ⟨mem, by simp [older.2.1]⟩
    · simpa only [setTable, update_of_ne same] using mem
  · exact h r (.inr (.inl served)) older
  · exact h r (.inr (.inr sent)) older

lemma Buried.absent {before : Instant} (h : Buried g n s) (past : g.diedAt < before) :
    versionRow g.bucket g.key g.version
      ((s.setTable n ((s.tables n).purgeTombstones before)).tables n).rows = none := by
  obtain ⟨d, hd, own, dead, time⟩ := h.tombstone
  simp only [setTable, update_self]
  refine List.find?_eq_none.mpr fun x hx name => ?_
  have found := h.single.eq_versionRow (mem_deleteWhere hx) name
  rw [h.single.eq_versionRow hd own] at found
  obtain rfl := Option.some.inj found
  have kept := (List.mem_filter.mp hx).2
  simp [dead, time, past] at kept

lemma older_of_absent (older : g.Older r)
    (absent : versionRow g.bucket g.key g.version t.rows = none) :
    ∃ x ∈ (t.applyRemoteObject r).rows, g.Older x := by
  have after : (versionRow g.bucket g.key g.version (t.applyRemoteObject r).rows).map replicated =
    _ := versionRow_applyRemoteObject t r
  rw [if_pos older.1, absent, receive, Option.map_some] at after
  obtain ⟨x, found, same⟩ := Option.map_eq_some_iff.mp after
  exact ⟨x, List.mem_of_find?_eq_some found, older.congr same.symm⟩

lemma revive (absent : versionRow g.bucket g.key g.version (s.tables n).rows = none)
    (left : ¬ Spared g s) :
    ∃ es, Run.Each gcStep (fun _ e => Timely g e) s es ∧ Revived g n (es.foldl gcStep s) := by
  unfold Spared at left
  push Not at left
  obtain ⟨r, inPlay, older⟩ := left
  have pulled : ∀ s' : Replicas ν, r ∈ s'.served → s'.tables n = s.tables n →
      Revived g n (gcStep s' (.pull n r)) := by
    intro s' served same
    obtain ⟨x, hx, kept⟩ := older_of_absent older absent
    refine ⟨x, ?_, kept⟩
    simpa only [gcStep, if_pos served, setTable, update_self, same] using hx
  rcases inPlay with ⟨m, mem⟩ | served | sent
  · exact ⟨[.serve m, .pull n r], ⟨trivial, trivial, trivial⟩,
      pulled _ (List.mem_append_right _ mem) rfl⟩
  · exact ⟨[.pull n r], ⟨trivial, trivial⟩, pulled s served rfl⟩
  · refine ⟨[.deliver n (.object r) 0], ⟨trivial, trivial⟩, ?_⟩
    obtain ⟨x, hx, kept⟩ := older_of_absent older absent
    refine ⟨x, ?_, kept⟩
    simpa only [List.foldl_cons, List.foldl_nil, gcStep, if_pos sent, setTable,
      update_self, ObjectMessage.applyTo] using hx

lemma object_purge_iff {peers : List PeerNode} {now : Instant} {grace : Int}
    (guard : tombstoneGcBlockers peers now grace = []) (buried : Buried g n s)
    (past : g.diedAt < now - grace) :
    (∀ es, Run.Each gcStep (fun _ e => Timely g e) (gcStep s (.gc n peers now grace)) es →
      ¬ Revived g n (es.foldl gcStep (gcStep s (.gc n peers now grace)))) ↔ Spared g s := by
  rw [purged_eq guard, ← spared_purge_iff n (now - grace)]
  exact Run.avoids_iff (P := Spared g) (fun _ _ h timely => spared_step h timely)
    (fun s h ⟨r, hr, older⟩ => h r (.inl ⟨n, hr⟩) older) (revive (buried.absent past))

end Replicas

def Slot.purge {α : Type} (s : Slot α) (before : Instant) : Slot α :=
  { s with dead := s.dead.filter fun deletedAt => !decide (deletedAt < before) }

structure Copies (ν α : Type) where
  nodes : ν → Slot α
  sent : List (ControlOp α)
  snapshots : List (Slot α)

inductive CopyEvent (ν α : Type) where
  | mutate (n : ν) (m : Mutation α) (now : Instant)
  | cascade (n : ν)
  | deliver (n : ν) (op : ControlOp α) (now : Instant)
  | snapshot (n : ν)
  | merge (n : ν) (remote : Slot α) (parentsAlive : Bool)
  | gc (n : ν) (peers : List PeerNode) (now : Instant) (grace : Int)

/-- The payload of a row the slot's own tombstone does not hide. -/
def Slot.Offers {α : Type} (x : Slot α) (r : α) : Prop :=
  ∃ t, x.row = some (r, t) ∧ x.deadStamp ≤ t

lemma Slot.row_applyMerge {α : Type} {mine remote : Slot α} {parentsAlive : Bool} {r : α}
    {t : Instant} (h : (mine.applyMerge (mine.planMerge parentsAlive remote)).row = some (r, t)) :
    mine.row = some (r, t) ∨ remote.Offers r := by
  by_cases dead : mine.DeadWith remote
  · rw [applyMerge_of_dead dead] at h
    cases h
  · rw [applyMerge_of_alive dead] at h
    dsimp only at h
    split at h
    · next taken =>
        -- the row that wins is newer than every tombstone of the two
        refine .inr ⟨t, h, ?_⟩
        have newer : mine.rowStamp < remote.rowStamp :=
          (optionLt_iff _ _).mp (Bool.and_eq_true_iff.mp taken).1
        have bound : remote.deadStamp ≤ max mine.rowStamp remote.rowStamp :=
          (le_max_right _ _).trans (not_lt.mp dead)
        rw [max_eq_right newer.le] at bound
        simpa [rowStamp, alive, h, stampOf] using bound
    · exact .inl h

namespace Copies
variable {ν α : Type} [DecidableEq ν]

def setNode (s : Copies ν α) (n : ν) (x : Slot α) : Copies ν α :=
  { s with nodes := update s.nodes n x }

/-- Any node mutates the entity. A parent's deletion takes the row and leaves no
tombstone of its own. -/
def gcStep [DecidableEq α] (F : Family α) (s : Copies ν α) : CopyEvent ν α → Copies ν α
  | .mutate n m now =>
    match mutateSlot F now (s.nodes n) m with
    | none => s
    | some e => { s.setNode n e.slot with sent := e.op :: s.sent }
  | .cascade n => s.setNode n { s.nodes n with row := none }
  | .deliver n op now =>
    if op ∈ s.sent then s.setNode n (receiveOp now (s.nodes n) op) else s
  | .snapshot n => { s with snapshots := s.nodes n :: s.snapshots }
  | .merge n remote parentsAlive =>
    if remote ∈ s.snapshots then
      s.setNode n ((s.nodes n).applyMerge ((s.nodes n).planMerge parentsAlive remote))
    else s
  | .gc n peers now grace =>
    if (tombstoneGcBlockers peers now grace).isEmpty then
      s.setNode n ((s.nodes n).purge (now - grace))
    else s

/-- No payload from before the deletion is held, offered or on its way. A node
that hides its row under its own tombstone counts: it may purge that too. -/
structure Spared (old : α → Prop) (s : Copies ν α) : Prop where
  held : ∀ n r t, (s.nodes n).row = some (r, t) → ¬ old r
  offered : ∀ x ∈ s.snapshots, ∀ r, x.Offers r → ¬ old r
  sent : ∀ r, .upsert r ∈ s.sent → ¬ old r

/-- Later writes leave no payload from before the deletion. -/
def Timely (old : α → Prop) : CopyEvent ν α → Prop
  | .mutate _ (.create r) _ => ¬ old r
  | .mutate _ (.update (some f)) _ => ∀ r, ¬ old (f r)
  | _ => True

def Revived (old : α → Prop) (n : ν) (s : Copies ν α) : Prop :=
  ∃ r t, (s.nodes n).row = some (r, t) ∧ old r

variable {F : Family α} {old : α → Prop} {s : Copies ν α} {n : ν} {x : Slot α}

lemma Spared.setNode (h : Spared old s)
    (row : ∀ r t, x.row = some (r, t) → ¬ old r) : Spared old (s.setNode n x) := by
  refine ⟨fun m r t held => ?_, h.offered, h.sent⟩
  by_cases same : m = n
  · subst same
    exact row r t (by simpa only [Copies.setNode, update_self] using held)
  · exact h.held m r t (by simpa only [Copies.setNode, update_of_ne same] using held)

omit [DecidableEq ν] in
lemma not_old_mutateSlot {m : Mutation α} {now : Instant} {e : Mutated α}
    (held : ∀ r t, x.row = some (r, t) → ¬ old r) (timely : Timely old (.mutate n m now))
    (done : mutateSlot F now x m = some e) :
    (∀ r t, e.slot.row = some (r, t) → ¬ old r) ∧ ∀ r, e.op = .upsert r → ¬ old r := by
  cases m with
  | create row =>
    simp only [mutateSlot] at done
    split at done
    · cases done
    · cases done
      exact ⟨fun r t same => by cases same; exact timely, fun r same => by cases same; exact timely⟩
  | update change =>
    simp only [mutateSlot] at done
    split at done
    · cases done
    · next r t row =>
        cases done
        exact ⟨held, fun r same => by cases same; exact held _ _ row⟩
    · next r t f row =>
        cases done
        exact ⟨fun r t same => by cases same; exact timely _,
          fun r same => by cases same; exact timely _⟩
  | delete =>
    simp only [mutateSlot] at done
    split at done
    · cases done
      exact ⟨by rintro r t ⟨⟩, by rintro r ⟨⟩⟩
    · cases done

variable [DecidableEq α]

lemma spared_step (h : Spared old s) {e : CopyEvent ν α} (timely : Timely old e) :
    Spared old (gcStep F s e) := by
  cases e with
  | mutate n m now =>
    cases done : mutateSlot F now (s.nodes n) m with
    | none => simpa only [gcStep, done] using h
    | some e =>
      obtain ⟨row, op⟩ := not_old_mutateSlot (h.held n) timely done
      simp only [gcStep, done]
      refine ⟨(h.setNode row).held, h.offered, fun r sent => ?_⟩
      rcases List.mem_cons.mp sent with new | before
      · exact op r new.symm
      · exact h.sent r before
  | cascade n => exact h.setNode fun r t row => nomatch row
  | deliver n op now =>
    unfold gcStep
    dsimp only
    split
    · next sent =>
        refine h.setNode fun r t row => ?_
        cases op with
        | upsert r' =>
          cases row
          exact h.sent r sent
        | delete => cases row
    · exact h
  | snapshot n =>
    refine ⟨h.held, fun x taken r offers => ?_, h.sent⟩
    rcases List.mem_cons.mp taken with rfl | before
    · obtain ⟨t, row, -⟩ := offers
      exact h.held n r t row
    · exact h.offered x before r offers
  | merge n remote parentsAlive =>
    unfold gcStep
    dsimp only
    split
    · next taken =>
        refine h.setNode fun r t row => ?_
        rcases row_applyMerge row with mine | offers
        · exact h.held n r t mine
        · exact h.offered remote taken r offers
    · exact h
  | gc n peers now grace =>
    unfold gcStep
    dsimp only
    split
    · exact h.setNode (h.held n)
    · exact h

omit [DecidableEq α] in
lemma spared_purge_iff (n : ν) (before : Instant) :
    Spared old (s.setNode n ((s.nodes n).purge before)) ↔ Spared old s := by
  refine ⟨fun h => ⟨fun m r t row => h.held m r t ?_, h.offered, h.sent⟩,
    fun h => h.setNode (h.held n)⟩
  by_cases same : m = n
  · subst same
    simpa only [Copies.setNode, update_self, purge] using row
  · simpa only [Copies.setNode, update_of_ne same] using row

omit [DecidableEq ν] [DecidableEq α] in
lemma merge_empty {r : α} (offers : x.Offers r) :
    ∃ t, (Slot.empty.applyMerge (Slot.empty.planMerge true x)).row = some (r, t) := by
  obtain ⟨t, row, visible⟩ := offers
  have alive : ¬ (empty : Slot α).DeadWith x := by
    have stamp : x.rowStamp = t := by simp [rowStamp, alive, row, stampOf]
    have none : (empty : Slot α).deadStamp = ⊥ := rfl
    rw [Slot.DeadWith, none, stamp, max_eq_right bot_le]
    exact not_lt.mpr (visible.trans (le_max_right _ _))
  rw [applyMerge_of_alive alive]
  simp [Slot.empty, Slot.alive, row, optionLt]

lemma merged {r : α} (taken : x ∈ s.snapshots)
    (absent : s.nodes n = Slot.empty) (offers : x.Offers r) (isOld : old r) :
    Revived old n (gcStep F s (.merge n x true)) := by
  obtain ⟨t, row⟩ := merge_empty offers
  refine ⟨r, t, ?_, isOld⟩
  simpa only [gcStep, if_pos taken, Copies.setNode, update_self, absent] using row

omit [DecidableEq α] in
lemma purge_succ (x : Slot α) : ∃ before, x.purge before = ⟨x.row, none⟩ := by
  refine ⟨(x.dead.map (· + 1)).getD 0, ?_⟩
  cases dead : x.dead with
  | none => simp [purge, dead]
  | some d => simp [purge, dead, Option.filter]

lemma revive (absent : s.nodes n = Slot.empty) (left : ¬ Spared old s) :
    ∃ es, Run.Each (gcStep F) (fun _ e => Timely old e) s es ∧
      Revived old n (es.foldl (gcStep F) s) := by
  by_contra safe
  push Not at safe
  refine left ⟨fun m r t row isOld => ?_, fun x taken r offers isOld => ?_, fun r sent isOld => ?_⟩
  · -- a peer that hides its row drops its own tombstone first
    obtain ⟨before, shown⟩ := purge_succ (s.nodes m)
    have other : n ≠ m := by
      rintro rfl
      rw [absent] at row
      cases row
    refine safe [.gc m [] before 0, .snapshot m, .merge n ⟨(s.nodes m).row, none⟩ true]
      ⟨trivial, trivial, trivial, trivial⟩ (merged (F := F) ?_ ?_ ⟨t, row, bot_le⟩ isOld)
    · simp [gcStep, tombstoneGcBlockers, Copies.setNode, shown]
    · simpa [gcStep, tombstoneGcBlockers, Copies.setNode, update_of_ne other] using absent
  · exact safe [.merge n x true] ⟨trivial, trivial⟩ (merged (F := F) taken absent offers isOld)
  · refine safe [.deliver n (.upsert r) 0] ⟨trivial, trivial⟩ ⟨r, 0, ?_, isOld⟩
    simp only [List.foldl_cons, List.foldl_nil, gcStep, if_pos sent, Copies.setNode,
      update_self, receiveOp]

lemma control_purge_iff {peers : List PeerNode} {now : Instant} {grace : Int}
    (guard : tombstoneGcBlockers peers now grace = []) {diedAt : Instant}
    (buried : s.nodes n = ⟨none, some diedAt⟩) (past : diedAt < now - grace) :
    (∀ es, Run.Each (gcStep F) (fun _ e => Timely old e) (gcStep F s (.gc n peers now grace)) es →
      ¬ Revived old n (es.foldl (gcStep F) (gcStep F s (.gc n peers now grace)))) ↔
      Spared old s := by
  have purged : gcStep F s (.gc n peers now grace) =
      s.setNode n ((s.nodes n).purge (now - grace)) := by
    unfold gcStep
    simp only [guard, List.isEmpty_nil, if_true]
  rw [purged, ← spared_purge_iff n (now - grace)]
  refine Run.avoids_iff (P := Spared old) (fun _ _ h timely => spared_step h timely)
    (fun s h ⟨r, t, row, isOld⟩ => h.held n r t row isOld) (revive ?_)
  simp [Copies.setNode, buried, Slot.purge, Slot.empty, Option.filter, past]

end Copies

lemma tombstoneGcBlockers_eq_nil {peers : List PeerNode} {now : Instant} {grace : Int}
    (seen : ∀ p ∈ peers, p.alive = true ∨ ∃ t, p.lastSeen = some t ∧ now - grace ≤ t) :
    tombstoneGcBlockers peers now grace = [] := by
  refine List.filter_eq_nil_iff.mpr fun p mem => ?_
  rcases seen p mem with alive | ⟨t, contact, recent⟩
  · simp [alive]
  · simp only [contact, Option.any_some, recent, decide_true, Bool.not_true, Bool.and_false]
    exact Bool.false_ne_true

/-- With every published peer in contact the purge goes ahead. The deleted row
then stays away for good exactly if no copy of it was left. -/
theorem purge_safe_iff {ν : Type} [DecidableEq ν] (n : ν) {peers : List PeerNode} {now : Instant}
    {grace : Int}
    (seen : ∀ p ∈ peers, p.alive = true ∨ ∃ t, p.lastSeen = some t ∧ now - grace ≤ t) :
    (∀ (s : Replicas ν) (g : Grave), Replicas.Buried g n s → g.diedAt < now - grace →
      ((∀ es, Run.Each gcStep (fun _ e => Replicas.Timely g e)
          (s.gcStep (.gc n peers now grace)) es →
        ¬ Replicas.Revived g n (es.foldl gcStep (s.gcStep (.gc n peers now grace)))) ↔
        Replicas.Spared g s)) ∧
    ∀ (α : Type) [DecidableEq α] (F : Family α) (s : Copies ν α) (old : α → Prop)
      (diedAt : Instant), s.nodes n = ⟨none, some diedAt⟩ → diedAt < now - grace →
      ((∀ es, Run.Each (Copies.gcStep F) (fun _ e => Copies.Timely old e)
          (s.gcStep F (.gc n peers now grace)) es →
        ¬ Copies.Revived old n
          (es.foldl (Copies.gcStep F) (s.gcStep F (.gc n peers now grace)))) ↔
        Copies.Spared old s) := by
  have guard := tombstoneGcBlockers_eq_nil seen
  exact ⟨fun s g buried past => object_purge_iff guard buried past,
    fun α _ F s old diedAt buried past => Copies.control_purge_iff guard buried past⟩

/-- The peer answers its probe and proves the cluster key, but it runs another
configuration: it is alive and never reconciled. -/
def drifted : Membership :=
  Membership.tick ⟨some "f", none, 3600, []⟩ ["p"]
    (fun _ => .contact ⟨"p", .proven, some "g", none⟩) 1000

def twoTables (mine theirs : List ObjectRecord) : Replicas Bool where
  tables n := ⟨if n then mine else theirs, fun _ => .unversioned, true⟩
  sent := []
  served := []

lemma drifted_inContact :
    ∀ p ∈ drifted.peers, p.alive = true ∨ ∃ t, p.lastSeen = some t ∧ (1000 : Instant) - 100 ≤ t := by
  have alive : drifted.peers.all PeerNode.alive = true := by decide +kernel
  exact fun p mem => .inl (List.all_eq_true.mp alive p mem)

/-- Where the peer has buried the version and the attachment too, both stay
away. -/
theorem purge_safe_iff_bothBuried :
    (∀ es, Run.Each gcStep (fun _ e => Replicas.Timely ⟨"b", "k", none, 500⟩ e)
        ((twoTables [tombstone 500 written] [tombstone 500 written]).gcStep
          (.gc true drifted.peers 1000 100)) es →
      ¬ Replicas.Revived ⟨"b", "k", none, 500⟩ true (es.foldl gcStep
        ((twoTables [tombstone 500 written] [tombstone 500 written]).gcStep
          (.gc true drifted.peers 1000 100)))) ∧
    ∀ es, Run.Each (Copies.gcStep userGrants) (fun _ e => Copies.Timely (fun _ => True) e)
        ((⟨fun _ => ⟨none, some 500⟩, [], []⟩ : Copies Bool Unit).gcStep userGrants
          (.gc true drifted.peers 1000 100)) es →
      ¬ Copies.Revived (fun _ => True) true (es.foldl (Copies.gcStep userGrants)
        ((⟨fun _ => ⟨none, some 500⟩, [], []⟩ : Copies Bool Unit).gcStep userGrants
          (.gc true drifted.peers 1000 100))) := by
  obtain ⟨objects, controls⟩ := purge_safe_iff true drifted_inContact
  refine ⟨(objects _ ⟨"b", "k", none, 500⟩ ⟨?_, ?_⟩ ?_).mpr ?_,
    (controls Unit userGrants _ (fun _ => True) 500 ?_ ?_).mpr ?_⟩
  · exact ⟨tombstone 500 written, List.mem_singleton_self _, by decide +kernel⟩
  · show List.countP _ _ ≤ 1
    decide +kernel
  · decide
  · rintro r (⟨n, mem⟩ | served | sent) older
    · have buried : r = tombstone 500 written := by
        cases n <;> simpa [twoTables] using mem
      rw [buried] at older
      exact absurd older.2.1 (by decide)
    · cases served
    · cases sent
  · rfl
  · decide
  · exact ⟨(fun n r t row => nomatch row), (fun x taken => nomatch taken), (fun r sent => nomatch sent)⟩

def deletedHere : Replicas Bool :=
  [GcEvent.mutate true (.deleteLatest "b" "k" anyTime "root" "u" 500),
    .gc true drifted.peers 1000 100].foldl gcStep (twoTables [written] [written])

def detachedHere : Copies Bool Unit :=
  [CopyEvent.mutate true .delete 500, .gc true drifted.peers 1000 100].foldl
    (Copies.gcStep userGrants) ⟨fun _ => ⟨some ((), 100), none⟩, [], []⟩

/-- The peer kept the row and the attachment while it was not reconciled. Its
probes are answered, so the node purges, and the next pull brings both back. -/
theorem drifted_peer_revives : (∀ p ∈ drifted.peers, p.alive = true ∧ p.eligible = false) ∧
    (deletedHere.tables true).rows = [] ∧
    fetchCurrentObject "b" "k" (([GcEvent.serve false, .pull true written].foldl gcStep
      deletedHere).tables true).rows = some written ∧
    detachedHere.nodes true = Slot.empty ∧
    ([CopyEvent.snapshot false, .merge true ⟨some ((), 100), none⟩ true].foldl
      (Copies.gcStep userGrants) detachedHere).nodes true = ⟨some ((), 100), none⟩ := by
  decide +kernel

end Arca.Cluster
