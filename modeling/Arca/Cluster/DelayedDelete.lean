import Arca.Cluster.ObjectFanOut

/-!
# A put after deletes of its key

One node, the origin, mutates a key; its messages reach the other nodes late,
in any order and any number of times, and nodes pull each other's rows from
manifests that may be old. A replicated delete is stamped by the clock of the
node that receives it. The rows served in manifests and the messages sent stay
available for ever, so every delay and repetition is some run.
-/
namespace Arca.Cluster
open ObjectTable ObjectRecord List Option ObjectMutation

structure Replicas (ν : Type) where
  tables : ν → ObjectTable
  sent : List ObjectMessage
  served : List ObjectRecord

inductive ReplicaEvent (ν : Type) where
  | mutate (m : ObjectMutation)
  | deliver (n : ν) (message : ObjectMessage) (now : Instant)
  | serve (n : ν)
  | pull (n : ν) (row : ObjectRecord)

namespace Replicas
variable {ν : Type} [DecidableEq ν]

def setTable (s : Replicas ν) (n : ν) (t : ObjectTable) : Replicas ν :=
  { s with tables := Function.update s.tables n t }

/-- Messages go from the origin to the other nodes. -/
def step (origin : ν) (s : Replicas ν) : ReplicaEvent ν → Replicas ν
  | .mutate m =>
    match m.commit (s.tables origin) with
    | none => s
    | some (t, message) => { s.setTable origin t with sent := s.sent ++ message.toList }
  | .deliver n message now =>
    if n ≠ origin ∧ message ∈ s.sent then s.setTable n (message.applyTo (s.tables n) now) else s
  | .serve n => { s with served := s.served ++ (s.tables n).rows }
  | .pull n row => if row ∈ s.served then s.setTable n ((s.tables n).applyRemoteObject row) else s

def run (origin : ν) (s : Replicas ν) (es : List (ReplicaEvent ν)) : Replicas ν :=
  es.foldl (step origin) s

def InPlay (s : Replicas ν) (r : ObjectRecord) : Prop :=
  (∃ n, r ∈ (s.tables n).rows) ∨ r ∈ s.served ∨ .object r ∈ s.sent

/-- What a step can bring into play. -/
inductive Derived (origin : ν) (s : Replicas ν) : ReplicaEvent ν → ObjectRecord → Prop where
  | kept {e r} (x : ObjectRecord) (inPlay : InPlay s x) (same : r.replicated = x.replicated) :
      Derived origin s e r
  | merged {e r} (x held row : ObjectRecord) (inPlay : InPlay s x) (holds : InPlay s held)
      (name : named x.bucket x.key x.versionId held = true)
      (decision : x.resolveReplicated held = some row) (same : r.replicated = row.replicated) :
      Derived origin s e r
  | deleted {n bucket key argument now r} (x : ObjectRecord) (peer : n ≠ origin)
      (sent : .versionDelete bucket key argument ∈ s.sent) (mem : x ∈ (s.tables n).rows)
      (name : named bucket key (versionArg argument) x = true) (live : x.isTombstone = false)
      (same : r.replicated = (tombstone now x).replicated) :
      Derived origin s (.deliver n (.versionDelete bucket key argument) now) r
  | written {m r} (traced : ObjectMutation.Traced (s.tables origin) m r) : Derived origin s (.mutate m) r

variable {origin : ν} {s : Replicas ν} {e : ReplicaEvent ν} {r : ObjectRecord}

lemma derived_setTable {n : ν} {t : ObjectTable} (new : ∀ r ∈ t.rows, Derived origin s e r)
    (h : InPlay (s.setTable n t) r) : Derived origin s e r := by
  rcases h with ⟨m, mem⟩ | served | sent
  · by_cases same : m = n
    · subst same
      simp only [setTable, Function.update_self] at mem
      exact new r mem
    · simp only [setTable, Function.update_of_ne same] at mem
      exact .kept r (.inl ⟨m, mem⟩) rfl
  · exact .kept r (.inr (.inl served)) rfl
  · exact .kept r (.inr (.inr sent)) rfl

omit [DecidableEq ν] in
lemma derived_applyRemoteObject {n : ν} {row : ObjectRecord} (available : InPlay s row)
    (h : r ∈ ((s.tables n).applyRemoteObject row).rows) :
    Derived origin s e r := by
  rcases mem_applyRemoteObject h with ⟨x, hx, same⟩ | ⟨w, decision, same⟩
  · exact .kept x (.inl ⟨n, hx⟩) same
  · unfold remoteWrite at decision
    cases found : versionRow row.bucket row.key row.versionId (s.tables n).rows with
    | none =>
      rw [found] at decision
      cases decision
      exact .kept row available same
    | some held =>
      rw [found] at decision
      exact .merged row held w available (.inl ⟨n, mem_of_find?_eq_some found⟩)
        (find?_some found) decision same

lemma derived_step (h : InPlay (step origin s e) r) : Derived origin s e r := by
  cases e with
  | mutate m =>
    unfold step at h
    cases committed : m.commit (s.tables origin) with
    | none =>
      simp only [committed] at h
      exact .kept r h rfl
    | some result =>
      simp only [committed] at h
      obtain ⟨rows, carried⟩ := traced_commit committed
      rcases h with table | served | sent
      · exact derived_setTable (fun x hx => .written (rows x hx)) (.inl table)
      · exact .kept r (.inr (.inl served)) rfl
      · rcases mem_append.mp sent with old | new
        · exact .kept r (.inr (.inr old)) rfl
        · exact .written (carried r (mem_toList.mp new))
  | deliver n message now =>
    unfold step at h
    dsimp only at h
    split at h
    · next able =>
        refine derived_setTable (fun x hx => ?_) h
        cases message with
        | object record => exact derived_applyRemoteObject (.inr (.inr able.2)) hx
        | versionDelete bucket key argument =>
          rcases mem_applyRemoteVersionDelete hx with ⟨y, hy, same⟩ | ⟨y, hy, name, live, same⟩
          · exact .kept y (.inl ⟨n, hy⟩) same
          · exact .deleted y able.1 able.2 hy name live same
    · exact .kept r h rfl
  | serve n =>
    rcases h with table | served | sent
    · exact .kept r (.inl table) rfl
    · rcases mem_append.mp served with old | new
      · exact .kept r (.inr (.inl old)) rfl
      · exact .kept r (.inl ⟨n, new⟩) rfl
    · exact .kept r (.inr (.inr sent)) rfl
  | pull n row =>
    unfold step at h
    dsimp only at h
    split at h
    · next able =>
        exact derived_setTable (fun x hx => derived_applyRemoteObject (.inr (.inl able)) hx) h
    · exact .kept r h rfl

lemma setTable_tables (n m : ν) (t : ObjectTable) :
    (s.setTable n t).tables m = if m = n then t else s.tables m := by
  simp [setTable, Function.update_apply]

lemma tables_step (origin : ν) (s : Replicas ν) (e : ReplicaEvent ν) (n : ν) :
    (step origin s e).tables n = s.tables n ∨
    (∃ row, InPlay s row ∧ (step origin s e).tables n = (s.tables n).applyRemoteObject row) ∨
    (∃ bucket key argument now, e = .deliver n (.versionDelete bucket key argument) now ∧
      n ≠ origin ∧ .versionDelete bucket key argument ∈ s.sent ∧
      (step origin s e).tables n = (s.tables n).applyRemoteVersionDelete bucket key argument now) ∨
    (n = origin ∧ ∃ m t message, e = .mutate m ∧ m.commit (s.tables origin) = some (t, message) ∧
      (step origin s e).tables n = t) := by
  cases e with
  | mutate m =>
    unfold step
    cases committed : m.commit (s.tables origin) with
    | none => exact .inl (by simp only [committed])
    | some result =>
      simp only [committed]
      rw [setTable_tables]
      split
      · next same => exact .inr (.inr (.inr ⟨same, m, _, _, rfl, committed, rfl⟩))
      · exact .inl rfl
  | deliver n' message now =>
    unfold step
    dsimp only
    split
    · next able =>
        rw [setTable_tables]
        split
        · next same =>
            subst same
            cases message with
            | object record => exact .inr (.inl ⟨record, .inr (.inr able.2), rfl⟩)
            | versionDelete bucket key argument =>
              exact .inr (.inr (.inl ⟨bucket, key, argument, now, rfl, able.1, able.2, rfl⟩))
        · exact .inl rfl
    · exact .inl rfl
  | serve n' => exact .inl rfl
  | pull n' row =>
    unfold step
    dsimp only
    split
    · next able =>
        rw [setTable_tables]
        split
        · next same =>
            subst same
            exact .inr (.inl ⟨row, .inr (.inl able), rfl⟩)
        · exact .inl rfl
    · exact .inl rfl

/-! ## Rows of the put's version

`P` is the row the put stores. -/

variable {P : ObjectRecord}

def Ours (P r : ObjectRecord) : Prop := named P.bucket P.key P.versionId r = true

instance (P r : ObjectRecord) : Decidable (Ours P r) := inferInstanceAs (Decidable (_ = true))

variable {x y : ObjectRecord}

lemma Ours.congr (h : Ours P r) (same : r.replicated = x.replicated) : Ours P x := by
  have ours : Ours P r.replicated := h
  rw [same] at ours
  exact ours

def All (P : ObjectRecord) (Q : ObjectRecord → Prop) (s : Replicas ν) : Prop :=
  ∀ r, InPlay s r → Ours P r → Q r

/-- The step rule for a property of rows that does not look at `is_latest`. -/
lemma all_step {Q : ObjectRecord → Prop} (respects : ∀ r, Q r.replicated ↔ Q r)
    (merge : ∀ x held row, Q x → Q held → x.resolveReplicated held = some row → Q row)
    (deleted : ∀ n bucket key argument now x,
      e = .deliver n (.versionDelete bucket key argument) now → x ∈ (s.tables n).rows → Ours P x →
      named bucket key (versionArg argument) x = true → x.isTombstone = false → n ≠ origin →
      .versionDelete bucket key argument ∈ s.sent → Q x → Q (tombstone now x))
    (written : ∀ m, e = .mutate m → ∀ r, Ours P r → ObjectMutation.Traced (s.tables origin) m r → Q r)
    (h : All P Q s) : All P Q (step origin s e) := by
  intro r inPlay ours
  have congr : ∀ {x : ObjectRecord}, r.replicated = x.replicated → (Q x → Q r) ∧ Ours P x := by
    intro x same
    exact ⟨fun hx => (respects r).mp (same ▸ (respects x).mpr hx), ours.congr same⟩
  cases derived_step inPlay with
  | kept x inPlay same => exact (congr same).1 (h x inPlay (congr same).2)
  | merged x held row inPlay holds name decision same =>
    have own : named x.bucket x.key x.versionId row = true :=
      named_resolve decision (named_self x) name
    obtain ⟨rb, rk, rv⟩ := named_iff.mp own
    obtain ⟨hb, hk, hv⟩ := named_iff.mp name
    obtain ⟨pb, pk, pv⟩ := named_iff.mp (congr same).2
    have oursX : Ours P x := named_iff.mpr ⟨rb ▸ pb, rk ▸ pk, rv ▸ pv⟩
    have oursHeld : Ours P held :=
      named_iff.mpr ⟨hb.trans (rb ▸ pb), hk.trans (rk ▸ pk), hv.trans (rv ▸ pv)⟩
    exact (congr same).1 (merge x held row (h x inPlay oursX) (h held holds oursHeld) decision)
  | deleted x peer sent mem name live same =>
    have oursX : Ours P x := (congr same).2
    exact (congr same).1 (deleted _ _ _ _ _ x rfl mem oursX name live peer sent
      (h x (.inl ⟨_, mem⟩) oursX))
  | written traced => exact written _ rfl r ours traced

/-- The put wins against the row: it is older, or a tombstone of another write
with the same time. -/
def Below (P r : ObjectRecord) : Prop :=
  r.lastModified < P.lastModified ∨
    r.lastModified = P.lastModified ∧ r.etag ≠ P.etag ∧ r.blobId = ""

/-- A tombstone the put cannot replace. -/
def Above (P r : ObjectRecord) : Prop :=
  r.isTombstone = true ∧ (P.lastModified < r.lastModified ∨
    r.lastModified = P.lastModified ∧ r.etag = P.etag)

/-- What is newer than the put is a tombstone, and so is a rival of the same time. -/
def Tame (P r : ObjectRecord) : Prop :=
  (P.lastModified < r.lastModified → r.isTombstone = true) ∧
    (r.lastModified = P.lastModified → r.etag ≠ P.etag → r.blobId = "")

/-- The delivered delete stamps what it finds of the put's version earlier than
the put, or at the same time over another write. -/
def Earlier (origin : ν) (P : ObjectRecord) (s : Replicas ν) : ReplicaEvent ν → Prop
  | .deliver n (.versionDelete bucket key argument) now =>
    n ≠ origin → .versionDelete bucket key argument ∈ s.sent →
      ∀ x ∈ (s.tables n).rows, Ours P x → named bucket key (versionArg argument) x = true →
        x.isTombstone = false →
        now < P.lastModified ∨ now = P.lastModified ∧ x.etag ≠ P.etag
  | _ => True

lemma below_merge {held row : ObjectRecord} (hx : Below P x ∨ x.replicated = P.replicated)
    (hh : Below P held ∨ held.replicated = P.replicated)
    (decision : x.resolveReplicated held = some row) :
    Below P row ∨ row.replicated = P.replicated := by
  rcases resolve_cases decision with ⟨rfl, _⟩ | ⟨rfl, time, tag, differs⟩
  · exact hx
  · obtain ⟨rowTime, rowTag, _, rowBlob⟩ := mergeRegisters_spec x held
    rcases hh with (older | ⟨tie, rival, blob⟩) | same
    · exact .inl (.inl (rowTime.trans_lt older))
    · refine .inl (.inr ⟨rowTime.trans tie, fun eq => rival (rowTag ▸ eq), ?_⟩)
      rcases rowBlob with eq | eq
      · exact eq.trans blob
      · rcases hx with (older | ⟨_, _, blob'⟩) | same
        · exact absurd (time.symm.trans tie) older.ne
        · exact eq.trans blob'
        · have tagP : x.replicated.etag = P.replicated.etag := by rw [same]
          exact absurd (tag.symm.trans tagP) rival
    · have timeP : held.replicated.lastModified = P.replicated.lastModified := by rw [same]
      have tagP : held.replicated.etag = P.replicated.etag := by rw [same]
      rcases hx with (older | ⟨_, rival, _⟩) | sameX
      · exact absurd (time.symm.trans timeP) older.ne
      · exact absurd (tag.trans tagP) rival
      · rw [resolve_same (sameX.trans same.symm)] at decision
        cases decision

lemma tame_merge {held row : ObjectRecord} (hx : Tame P x) (hh : Tame P held)
    (decision : x.resolveReplicated held = some row) : Tame P row := by
  rcases resolve_cases decision with ⟨rfl, _⟩ | ⟨rfl, time, tag, _⟩
  · exact hx
  · obtain ⟨rowTime, rowTag, rowDead, rowBlob⟩ := mergeRegisters_spec x held
    refine ⟨fun newer => rowDead.trans (hh.1 (rowTime ▸ newer)), fun tie rival => ?_⟩
    rw [rowTime] at tie
    rw [rowTag] at rival
    rcases rowBlob with eq | eq
    · exact eq.trans (hh.2 tie rival)
    · exact eq.trans (hx.2 (time.symm.trans tie) (tag ▸ rival))

lemma tame_tombstone (now : Instant) (x : ObjectRecord) : Tame P (tombstone now x) :=
  ⟨fun _ => rfl, fun _ _ => rfl⟩

lemma below_tombstone {now : Instant}
    (h : now < P.lastModified ∨ now = P.lastModified ∧ x.etag ≠ P.etag) : Below P (tombstone now x) :=
  h.imp id fun tie => ⟨tie.1, tie.2, rfl⟩

lemma above_merge {held row : ObjectRecord} (hx : Tame P x) (hh : Above P held)
    (decision : x.resolveReplicated held = some row) : Above P row := by
  obtain ⟨dead, place⟩ := hh
  rcases resolve_cases decision with ⟨rfl, newer | ⟨time, rival, rank⟩⟩ | ⟨rfl, time, tag, _⟩
  · have later : P.lastModified < row.lastModified := by
      rcases place with later | ⟨tie, _⟩
      · exact later.trans newer
      · exact tie ▸ newer
    exact ⟨hx.1 later, .inl later⟩
  · rcases place with later | ⟨tie, tag⟩
    · have later' : P.lastModified < row.lastModified := time ▸ later
      exact ⟨hx.1 later', .inl later'⟩
    · -- a rival of the put's own time is a tombstone and loses the tiebreak
      rw [hx.2 (time.symm.trans tie) (tag ▸ rival)] at rank
      exact absurd rank (not_lt_empty _)
  · obtain ⟨rowTime, rowTag, rowDead, _⟩ := mergeRegisters_spec x held
    refine ⟨rowDead.trans dead, place.imp (fun later => rowTime ▸ later) fun tie => ?_⟩
    exact ⟨rowTime.trans tie.1, rowTag.trans tie.2⟩

def Singles (P : ObjectRecord) (s : Replicas ν) : Prop :=
  ∀ n, Single P.bucket P.key P.versionId (s.tables n).rows

def held (P : ObjectRecord) (s : Replicas ν) (n : ν) : Option ObjectRecord :=
  (versionRow P.bucket P.key P.versionId (s.tables n).rows).map replicated

/-- What a mutation is allowed to do along the runs considered: insert only tame
rows, and no second row of the put's version. -/
def Allowed (origin : ν) (P : ObjectRecord) (s : Replicas ν) : ReplicaEvent ν → Prop
  | .mutate m =>
    (∀ new, m.writes (s.tables origin) = some new → Tame P new) ∧
    (P.versionId = none ∨ P.versionId ≠ m.drawn ∨
      versionRow P.bucket P.key P.versionId (s.tables origin).rows = none)
  | _ => True

lemma singles_step (h : Singles P s) (allowed : Allowed origin P s e) :
    Singles P (step origin s e) := by
  intro n
  rcases tables_step origin s e n with
    eq | ⟨row, _, eq⟩ | ⟨b, k, argument, now, _, _, _, eq⟩ | ⟨rfl, m, t, message, rfl, committed, eq⟩
  · exact eq ▸ h n
  · exact eq ▸ (h n).applyRemoteObject row
  · exact eq ▸ (h n).applyRemoteVersionDelete b k argument now
  · exact eq ▸ single_commit (h n) allowed.2 committed

lemma tame_step (h : All P (Tame P) s) (allowed : Allowed origin P s e) :
    All P (Tame P) (step origin s e) := by
  refine all_step (fun _ => Iff.rfl) (fun _ _ _ => tame_merge)
    (fun _ _ _ _ now x _ _ _ _ _ _ _ _ => tame_tombstone now x) ?_ h
  rintro m rfl r ours (⟨x, hx, same⟩ | ⟨_, x, hx, same⟩ | ⟨new, writes, same⟩)
  · have tame : Tame P x.replicated := h x (.inl ⟨origin, hx⟩) (ours.congr same)
    exact (same ▸ tame : Tame P r.replicated)
  · have tame : Tame P (tombstone m.stamp x).replicated := tame_tombstone m.stamp x
    exact (same ▸ tame : Tame P r.replicated)
  · have tame : Tame P new.replicated := allowed.1 new writes
    exact (same ▸ tame : Tame P r.replicated)

def Orderly (P : ObjectRecord) (s : Replicas ν) : Prop := Singles P s ∧ All P (Tame P) s

/-- A peer holds a tombstone that the put cannot replace. -/
def Lost (origin : ν) (P : ObjectRecord) (s : Replicas ν) : Prop :=
  ∃ n, n ≠ origin ∧ ∃ r, held P s n = some r ∧ Above P r

lemma above_receive {held row : ObjectRecord} (above : Above P held) (tame : Tame P row) :
    ∃ r, (receive (some held) row).map replicated = some r ∧ Above P r := by
  cases decision : row.resolveReplicated held with
  | none => exact ⟨held.replicated, by rw [receive, decision]; rfl, above⟩
  | some result =>
    have aboveResult : Above P result := above_merge tame above decision
    exact ⟨result.replicated, by rw [receive, decision]; rfl, aboveResult⟩

lemma lost_step (tame : All P (Tame P) s) (lost : Lost origin P s) :
    Lost origin P (step origin s e) := by
  obtain ⟨n, peer, r, holds, above⟩ := lost
  refine ⟨n, peer, ?_⟩
  obtain ⟨y, found, rfl⟩ := map_eq_some_iff.mp holds
  rcases tables_step origin s e n with
    eq | ⟨row, inPlay, eq⟩ | ⟨b, k, argument, now, _, _, _, eq⟩ | ⟨same, _⟩
  · exact ⟨y.replicated, by rw [held, eq, found, map_some], above⟩
  · rw [held, eq, versionRow_applyRemoteObject, found]
    split
    · next ours => exact above_receive above (tame row inPlay ours)
    · exact ⟨y.replicated, rfl, above⟩
  · rw [held, eq, versionRow_applyRemoteVersionDelete, found]
    have dead : y.isTombstone = true := above.1
    exact ⟨y.replicated, by simp [dead], above⟩
  · exact absurd same peer

lemma lost_of_not_earlier (singles : Singles P s) (late : ¬ Earlier origin P s e) :
    Lost origin P (step origin s e) := by
  cases e with
  | deliver n message now =>
    cases message with
    | object record => exact absurd trivial late
    | versionDelete bucket key argument =>
      simp only [Earlier, Classical.not_imp, not_forall] at late
      obtain ⟨peer, sent, x, mem, ours, name, live, place⟩ := late
      refine ⟨n, peer, (tombstone now x).replicated, ?_, rfl, ?_⟩
      · have found := (singles n).eq_versionRow mem ours
        have after : (step origin s (.deliver n (.versionDelete bucket key argument) now)).tables n =
            (s.tables n).applyRemoteVersionDelete bucket key argument now := by
          simp only [step, peer, sent, ne_eq, not_false_eq_true, and_self, if_true,
            setTable_tables]
          rfl
        rw [held, after, versionRow_applyRemoteVersionDelete, found]
        simp [name, live]
      · have later := not_lt.mp fun h => place (.inl h)
        rcases later.lt_or_eq with lt | eq
        · exact .inl lt
        · refine .inr ⟨eq.symm, ?_⟩
          by_contra rival
          exact place (.inr ⟨eq.symm, rival⟩)
  | mutate m | serve n | pull n row => exact absurd trivial late

/-- In play are only rows the put wins against, and the put itself. -/
def Losing (P r : ObjectRecord) : Prop := Below P r ∨ r.replicated = P.replicated

lemma losing_step (mild : ∀ m, e = .mutate m → m.stamp < P.lastModified ∨
      m.isDelete = false ∧ ∀ new, m.writes (s.tables origin) = some new →
        new.replicated = P.replicated) (earlier : Earlier origin P s e) (h : All P (Losing P) s) :
    All P (Losing P) (step origin s e) := by
  refine all_step (fun _ => Iff.rfl) (fun _ _ _ => below_merge) ?_ ?_ h
  · rintro n bucket key argument now x rfl mem ours name live peer sent _
    exact .inl (below_tombstone (earlier peer sent x mem ours name live))
  · rintro m rfl r ours traced
    have congr : ∀ {x : ObjectRecord}, r.replicated = x.replicated → Losing P x → Losing P r :=
      fun same hx => (same ▸ hx : Losing P r.replicated)
    rcases traced with ⟨x, hx, same⟩ | ⟨delete, x, hx, same⟩ | ⟨new, writes, same⟩
    · exact congr same (h x (.inl ⟨origin, hx⟩) (ours.congr same))
    · rcases mild m rfl with early | ⟨put, _⟩
      · exact congr same (.inl (.inl early))
      · rw [put] at delete
        cases delete
    · rcases mild m rfl with early | ⟨_, stores⟩
      · have time := (writes_spec writes).1
        exact congr same (.inl (.inl (time.trans_lt early)))
      · exact congr same (.inr (stores new writes))

lemma resolve_losing {row : ObjectRecord} (hy : y.replicated = P.replicated)
    (losing : Losing P row) : row.resolveReplicated y = none := by
  have time : y.replicated.lastModified = P.replicated.lastModified := by rw [hy]
  have tag : y.replicated.etag = P.replicated.etag := by rw [hy]
  dsimp only [replicated] at time tag
  rcases losing with (older | ⟨tie, rival, blob⟩) | same
  · unfold resolveReplicated
    rw [if_neg (by rw [time]; exact older.asymm), if_pos (by rw [time]; exact older)]
  · unfold resolveReplicated
    rw [if_neg (by rw [time, tie]; exact lt_irrefl _), if_neg (by rw [time, tie]; exact lt_irrefl _),
      if_pos (by rw [tag]; exact rival), if_neg (by rw [blob]; exact not_lt_empty _)]
  · exact resolve_same (same.trans hy.symm)

lemma receive_put (hy : y.replicated = P.replicated) (blob : P.blobId ≠ "")
    {o : Option ObjectRecord} (losing : ∀ x, o = some x → Losing P x) :
    (receive o y).map replicated = some P.replicated := by
  have time : y.replicated.lastModified = P.replicated.lastModified := by rw [hy]
  have tag : y.replicated.etag = P.replicated.etag := by rw [hy]
  have blobs : y.replicated.blobId = P.replicated.blobId := by rw [hy]
  dsimp only [replicated] at time tag blobs
  cases o with
  | none => exact congrArg some hy
  | some x =>
    rcases losing x rfl with (older | ⟨tie, rival, empty⟩) | same
    · have wins : y.resolveReplicated x = some y := by
        unfold resolveReplicated
        rw [if_pos (by rw [time]; exact older)]
      rw [receive, wins]
      exact congrArg some hy
    · have wins : y.resolveReplicated x = some y := by
        unfold resolveReplicated
        have rank : x.blobId < y.blobId := by
          rw [empty, blobs]
          exact lt_of_le_of_ne (not_lt.mp (not_lt_empty _)) blob.symm
        rw [if_neg (by rw [time, tie]; exact lt_irrefl _),
          if_neg (by rw [time, tie]; exact lt_irrefl _),
          if_pos (by rw [tag]; exact rival.symm), if_pos rank]
      rw [receive, wins]
      exact congrArg some hy
    · rw [receive, resolve_same (hy.trans same.symm)]
      exact congrArg some same

lemma held_origin_step (quiet : ∀ m, e ≠ .mutate m) (losing : All P (Losing P) s)
    (h : held P s origin = some P.replicated) :
    held P (step origin s e) origin = some P.replicated := by
  obtain ⟨y, found, hy⟩ := map_eq_some_iff.mp h
  rcases tables_step origin s e origin with
    eq | ⟨row, inPlay, eq⟩ | ⟨_, _, _, _, _, peer, _⟩ | ⟨_, m, _, _, eq, _⟩
  · rw [held, eq, found]
    exact congrArg some hy
  · rw [held, eq, versionRow_applyRemoteObject, found]
    split
    · next ours =>
        rw [receive, resolve_losing hy (losing row inPlay ours)]
        exact congrArg some hy
    · exact congrArg some hy
  · exact absurd rfl peer
  · exact absurd eq (quiet m)

/-- No row of the put's version is taken by a node from another one any more. -/
def Drained (P : ObjectRecord) (s : Replicas ν) : Prop :=
  ∀ n m, ∀ r ∈ (s.tables m).rows, Ours P r →
    (versionRow P.bucket P.key P.versionId ((s.tables n).applyRemoteObject r).rows).map replicated =
      held P s n

def putRow (origin : ν) (s : Replicas ν) (before : List (ReplicaEvent ν)) (record : ObjectRecord)
    (uuid : String) : ObjectRecord :=
  ObjectTable.storedRow ((run origin s before).tables origin) record uuid

def Prior (record : ObjectRecord) (uuid : String) : ReplicaEvent ν → Prop
  | .mutate m => m.stamp < record.lastModified ∧ m.drawn ≠ some uuid
  | _ => True

def Quiet : ReplicaEvent ν → Prop
  | .mutate _ => False
  | _ => True

/-- The origin mutates, then makes the put, and then mutates no more. Its clock
has moved on by the time of the put, and rows of the put's version found at the
start are older. -/
structure PutAfter (origin : ν) (s : Replicas ν) (before after : List (ReplicaEvent ν))
    (record : ObjectRecord) (pre : Option ObjectRecord → Bool) (uuid : String) : Prop where
  prior : ∀ e ∈ before, Prior record uuid e
  quiet : ∀ e ∈ after, Quiet e
  accepted : (((run origin s before).tables origin).installObject record pre uuid).isSome
  live : record.isTombstone = false
  blob : record.blobId ≠ ""
  older : ∀ r, InPlay s r → Ours (putRow origin s before record uuid) r →
    (putRow origin s before record uuid).versionId = none ∧ r.lastModified < record.lastModified
  single : Singles (putRow origin s before record uuid) s

namespace PutAfter

variable {before after : List (ReplicaEvent ν)} {record : ObjectRecord}
  {pre : Option ObjectRecord → Bool} {uuid : String}

lemma versionId_putRow (origin : ν) (s : Replicas ν) (before : List (ReplicaEvent ν))
    (record : ObjectRecord) (uuid : String) :
    (putRow origin s before record uuid).versionId = none ∨
      (putRow origin s before record uuid).versionId = some uuid ∧
        ((run origin s before).tables origin).versioning record.bucket = .enabled := by
  unfold putRow ObjectTable.storedRow ObjectTable.assignedVersion
  split
  · next enabled => exact .inr ⟨rfl, enabled⟩
  · exact .inl rfl

section
variable (h : PutAfter origin s before after record pre uuid)
include h

lemma null_before : All (putRow origin s before record uuid)
      (fun _ => (putRow origin s before record uuid).versionId = none) (run origin s before) := by
  have prior : Run.Each (step origin) (fun _ => Prior record uuid) s before :=
    Run.each_of_forall (fun _ _ h => h) h.prior s
  refine Run.foldl_of_each ?_ (fun r inPlay ours => (h.older r inPlay ours).1) prior
  intro s' e all fresh
  refine all_step (fun _ => Iff.rfl) (fun _ _ _ hx _ _ => hx) (fun _ _ _ _ _ _ _ _ _ _ _ _ _ hx => hx)
    ?_ all
  rintro m rfl r ours (⟨x, hx, same⟩ | ⟨_, x, hx, same⟩ | ⟨new, writes, same⟩)
  · exact all x (.inl ⟨origin, hx⟩) (ours.congr same)
  · have oursX : Ours (putRow origin s before record uuid) (tombstone m.stamp x) := ours.congr same
    exact all x (.inl ⟨origin, hx⟩) oursX
  · have version : new.versionId = (putRow origin s before record uuid).versionId :=
      (named_iff.mp (ours.congr same)).2.2
    rcases versionId_putRow origin s before record uuid with null | ⟨drawn, _⟩
    · exact null
    · rcases (writes_spec writes).2 with none | some
      · exact version.symm.trans none
      · exact absurd (some.symm.trans (version.trans drawn)) fresh.2

lemma absent_before
    (enabled : ((run origin s before).tables origin).versioning record.bucket = .enabled) :
    versionRow record.bucket record.key (some uuid) ((run origin s before).tables origin).rows = none := by
  have version : (putRow origin s before record uuid).versionId = some uuid := if_pos enabled
  refine find?_eq_none.mpr fun r mem own => ?_
  have ours : Ours (putRow origin s before record uuid) r := by
    rw [Ours, version]
    exact own
  have null := h.null_before r (.inl ⟨origin, mem⟩) ours
  rw [version] at null
  cases null

lemma allowed : Run.Each (step origin) (Allowed origin (putRow origin s before record uuid)) s
      (before ++ .mutate (.put record pre uuid) :: after) := by
  refine Run.each_append.mpr ⟨?_, ⟨?_, ?_⟩, ?_⟩
  · refine Run.each_of_forall (fun s' e prior => ?_) h.prior s
    cases e with
    | mutate m =>
      refine ⟨fun new writes => ?_, ?_⟩
      · have early : new.lastModified < record.lastModified :=
          (writes_spec writes).1.trans_lt prior.1
        exact ⟨fun later => absurd later early.asymm, fun tie => absurd tie early.ne⟩
      · rcases versionId_putRow origin s before record uuid with null | ⟨drawn, _⟩
        · exact .inl null
        · exact .inr (.inl fun eq => prior.2 (eq.symm.trans drawn))
    | deliver n message now => trivial
    | serve n => trivial
    | pull n row => trivial
  · intro new writes
    obtain rfl := some.inj writes
    exact ⟨fun later => absurd later (lt_irrefl _), fun _ rival => absurd rfl rival⟩
  · rcases versionId_putRow origin s before record uuid with null | ⟨drawn, enabled⟩
    · exact .inl null
    · refine .inr (.inr ?_)
      rw [drawn]
      exact h.absent_before enabled
  · refine Run.each_of_forall (fun s' e quiet => ?_) h.quiet _
    cases e with
    | mutate m => exact absurd quiet id
    | deliver n message now => trivial
    | serve n => trivial
    | pull n row => trivial

/-- With all deletes stamped early enough, the put is in play with rows it wins
against only, and the origin holds it. -/
lemma kept
    (earlier : Run.Each (step origin) (Earlier origin (putRow origin s before record uuid)) s
      (before ++ .mutate (.put record pre uuid) :: after)) :
    All (putRow origin s before record uuid) (Losing (putRow origin s before record uuid))
        (run origin s (before ++ .mutate (.put record pre uuid) :: after)) ∧
      held (putRow origin s before record uuid)
        (run origin s (before ++ .mutate (.put record pre uuid) :: after)) origin =
          some (putRow origin s before record uuid).replicated := by
  obtain ⟨early, _, late⟩ := Run.each_append.mp earlier
  have prior : Run.Each (step origin) (fun _ => Prior record uuid) s before :=
    Run.each_of_forall (fun _ _ h => h) h.prior s
  have start : All (putRow origin s before record uuid)
      (Losing (putRow origin s before record uuid)) s :=
    fun r inPlay ours => .inl (.inl (h.older r inPlay ours).2)
  have losing : All (putRow origin s before record uuid)
      (Losing (putRow origin s before record uuid)) (run origin s before) := by
    refine Run.foldl_of_each (fun s' e all step => ?_) start (early.and prior)
    exact losing_step (fun m eq => .inl (eq ▸ step.2 : Prior record uuid (.mutate m)).1) step.1 all
  -- the put itself
  obtain ⟨t, done⟩ := isSome_iff_exists.mp h.accepted
  have committed : (put record pre uuid).commit ((run origin s before).tables origin) =
      some (t, some (.object (putRow origin s before record uuid))) := by
    rw [commit, done]
    rfl
  have stored : held (putRow origin s before record uuid)
      (step origin (run origin s before) (.mutate (.put record pre uuid))) origin =
        some (putRow origin s before record uuid).replicated := by
    have after_put : (step origin (run origin s before) (.mutate (.put record pre uuid))).tables origin =
        t := by
      simp only [step, committed]
      rw [setTable_tables, if_pos rfl]
    rw [held, after_put]
    exact versionRow_installObject done h.absent_before
  have losing_put : All (putRow origin s before record uuid)
      (Losing (putRow origin s before record uuid))
      (step origin (run origin s before) (.mutate (.put record pre uuid))) := by
    refine losing_step (fun m eq => .inr ?_) trivial losing
    cases eq
    exact ⟨rfl, fun new writes => by rw [← some.inj writes]; rfl⟩
  -- what follows it
  have quiet : Run.Each (step origin) (fun _ => Quiet)
      (step origin (run origin s before) (.mutate (.put record pre uuid))) after :=
    Run.each_of_forall (fun _ _ h => h) h.quiet _
  have final := Run.foldl_of_each (P := fun s' => All (putRow origin s before record uuid)
      (Losing (putRow origin s before record uuid)) s' ∧
      held (putRow origin s before record uuid) s' origin =
        some (putRow origin s before record uuid).replicated) (fun s' e inv step => ?_)
    ⟨losing_put, stored⟩ (late.and quiet)
  · rw [run, foldl_append]
    exact final
  · have silent : ∀ m, e ≠ .mutate m := by
      rintro m rfl
      exact step.2
    exact ⟨losing_step (fun m eq => absurd eq (silent m)) step.1 inv.1,
      held_origin_step silent inv.1 inv.2⟩

end

end PutAfter

/-- Once anti-entropy has drained, the acknowledged put is live on every node exactly when
every delivered delete stamped what it found before the put. -/
theorem put_survives_iff {before after : List (ReplicaEvent ν)} {record : ObjectRecord}
    {pre : Option ObjectRecord → Bool} {uuid : String}
    (h : PutAfter origin s before after record pre uuid)
    (drained : Drained (putRow origin s before record uuid)
      (run origin s (before ++ .mutate (.put record pre uuid) :: after))) :
    (∀ n, held (putRow origin s before record uuid)
        (run origin s (before ++ .mutate (.put record pre uuid) :: after)) n =
          some (putRow origin s before record uuid).replicated) ↔
      Run.Each (step origin) (Earlier origin (putRow origin s before record uuid)) s
        (before ++ .mutate (.put record pre uuid) :: after) := by
  constructor
  · intro all
    have start : Orderly (putRow origin s before record uuid) s := by
      refine ⟨h.single, fun r inPlay ours => ?_⟩
      have older : r.lastModified < record.lastModified := (h.older r inPlay ours).2
      exact ⟨fun later => absurd later older.asymm, fun tie => absurd tie older.ne⟩
    refine Run.each_of_not_end (P := Orderly (putRow origin s before record uuid))
      (B := Lost origin (putRow origin s before record uuid))
      (fun s' e inv allowed => ⟨singles_step inv.1 allowed, tame_step inv.2 allowed⟩)
      (fun s' e inv _ late => lost_of_not_earlier inv.1 late)
      (fun s' e inv _ lost => lost_step inv.2 lost) start h.allowed ?_
    rintro ⟨n, _, r, holds, dead, _⟩
    have eq : some (putRow origin s before record uuid).replicated = some r := (all n).symm.trans holds
    rw [← some.inj eq] at dead
    exact absurd (dead.symm.trans h.live) (by decide)
  · intro earlier n
    obtain ⟨losing, stored⟩ := h.kept earlier
    obtain ⟨y, found, hy⟩ := map_eq_some_iff.mp stored
    have ours : Ours (putRow origin s before record uuid) y := find?_some found
    have settled := drained n origin y (mem_of_find?_eq_some found) ours
    rw [← settled, versionRow_applyRemoteObject]
    rw [Ours] at ours
    rw [if_pos ours]
    refine receive_put hy h.blob fun x holds => losing x (.inl ⟨n, ?_⟩) (find?_some holds)
    exact mem_of_find?_eq_some holds

def twoNodes : Replicas Bool := ⟨fun _ => .empty true, [], []⟩

def firstPut : ObjectRecord := { written with lastModified := 10 }

def secondPut : ObjectRecord := { written with blobId := "7", etag := "e2" }

def anyTime : Option ObjectRecord → Bool := fun _ => true

/-- The object is written, reaches the peer, and is deleted at time 50. -/
def writeAndDelete : List (ReplicaEvent Bool) :=
  [.mutate (.put firstPut anyTime "u1"), .deliver false (.object firstPut) 11,
    .mutate (.deleteLatest "b" "k" anyTime "root" "u2" 50)]

/-- The peer learns of the second put, and then of the delete at its time `now`;
after that both nodes pull from each other. -/
def deliverBoth (now : Instant) : List (ReplicaEvent Bool) :=
  [.deliver false (.object secondPut) 101, .deliver false (.versionDelete "b" "k" "null") now,
    .serve false, .pull true (tombstone now secondPut.replicated), .serve true,
    .pull false secondPut]

lemma putAfter_writeAndDelete (now : Instant) :
    PutAfter true twoNodes writeAndDelete (deliverBoth now) secondPut anyTime "u3" where
  prior := by
    intro e mem
    simp only [writeAndDelete, mem_cons, not_mem_nil, or_false] at mem
    rcases mem with rfl | rfl | rfl
    · exact ⟨by decide, by decide⟩
    · trivial
    · exact ⟨by decide, by decide⟩
  quiet := by
    intro e mem
    simp only [deliverBoth, mem_cons, not_mem_nil, or_false] at mem
    rcases mem with rfl | rfl | rfl | rfl | rfl | rfl <;> trivial
  accepted := by decide +kernel
  live := rfl
  blob := by decide
  older := by
    rintro r (⟨n, mem⟩ | served | sent) _
    · cases mem
    · cases served
    · cases sent
  single n := Nat.zero_le 1

theorem put_survives_iff_promptDelete :
    PutAfter true twoNodes writeAndDelete (deliverBoth 60) secondPut anyTime "u3" ∧
    ∀ n, held (putRow true twoNodes writeAndDelete secondPut "u3")
      (run true twoNodes (writeAndDelete ++ .mutate (.put secondPut anyTime "u3") :: deliverBoth 60)) n =
        some (putRow true twoNodes writeAndDelete secondPut "u3").replicated := by
  refine ⟨putAfter_writeAndDelete 60, (put_survives_iff (putAfter_writeAndDelete 60) ?_).mpr ?_⟩
  · intro n m
    revert n m
    decide +kernel
  · refine ⟨trivial, trivial, trivial, trivial, trivial, ?_, trivial, trivial, trivial, trivial, trivial⟩
    intro _ _ x _ _ _ _
    exact .inl (by decide)

/-- The delete is delivered at the peer's time 200, the put was made at 100: the
put is dead on both nodes. -/
theorem lateDelete_destroys_put :
    PutAfter true twoNodes writeAndDelete (deliverBoth 200) secondPut anyTime "u3" ∧
    Drained (putRow true twoNodes writeAndDelete secondPut "u3")
      (run true twoNodes (writeAndDelete ++ .mutate (.put secondPut anyTime "u3") :: deliverBoth 200)) ∧
    ¬ ∀ n, held (putRow true twoNodes writeAndDelete secondPut "u3")
      (run true twoNodes (writeAndDelete ++ .mutate (.put secondPut anyTime "u3") :: deliverBoth 200)) n =
        some (putRow true twoNodes writeAndDelete secondPut "u3").replicated := by
  refine ⟨putAfter_writeAndDelete 200, ?_, by decide +kernel⟩
  intro n m
  revert n m
  decide +kernel

end Replicas
end Arca.Cluster
