import Arca.Lib.PrefixRange
import Arca.Lib.Text

/-!
# Listings with a delimiter

`list_delimited` over the current objects of a bucket, which are known by their keys. A query
gives at most a hundred keys under the prefix. Where they end in a group, the next query starts
behind the keys of the group, but for those that go on with the last character there is.
-/
namespace Arca.Delimited
open List Option PrefixRange

structure Keys where
  keys : List Text
  sorted : keys.Pairwise (· < ·)

structure Query where
  keyPrefix : Text
  delim : Text
  marker : Option Text
  maxKeys : ℕ

def listBatch : ℕ := 100

inductive ListFrom where
  | start
  | after (key : Text)
  | pastPrefix (group : Text)
  deriving DecidableEq

inductive Listed where
  | record (key : Text)
  | group (name : Text)
  deriving DecidableEq

structure Page where
  items : List Listed
  truncated : Bool
  deriving DecidableEq

def pastPrefix (group : Text) : Text := group ++ [Char.ofNat 0x10ffff]

/-- The text up to the end of the first delimiter. -/
def upTo (delim : Text) : Text → Option Text
  | [] => if delim = [] then some [] else none
  | c :: s => if delim <+: c :: s then some delim else (upTo delim s).map (c :: ·)

def commonPrefix (keyPrefix delim key : Text) : Option Text :=
  (upTo delim (key.drop keyPrefix.length)).map (key.take keyPrefix.length ++ ·)

namespace Query
variable (q : Query)

def groupOf (key : Text) : Option Text := commonPrefix q.keyPrefix q.delim key

def item (key : Text) : Listed := (q.groupOf key).elim (.record key) .group

/-- The key is in a group that an earlier page gave, or that this one ends with. -/
def passes (last : Option Listed) (key : Text) : Bool :=
  (q.groupOf key).any fun group => q.marker.any (group ≤ ·) || last = some (.group group)

def visit (items : List Listed) (key : Text) : Except Page (List Listed) :=
  if q.passes items.getLast? key then .ok items
  else if q.maxKeys ≤ items.length then .error ⟨items, true⟩
  else .ok (items ++ [q.item key])

def cursor : ListFrom → Option Text
  | .start => q.marker
  | .after key => some key
  | .pastPrefix group => some (pastPrefix group)

def next (last : Text) : ListFrom := (q.groupOf last).elim (.after last) .pastPrefix

end Query

namespace Keys
variable (s : Keys) (q : Query)

def under (keyPrefix : Text) : List Text := s.keys.filter (keyPrefix <+: ·)

def behind (cursor : Option Text) : List Text := (s.under q.keyPrefix).filter fun k => cursor.all (· < k)

def listObjects (cursor : Option Text) : List Text := (s.behind q cursor).take listBatch

end Keys

inductive State where
  | fetching (place : ListFrom) (items : List Listed)
  | returned (page : Page)
  deriving DecidableEq

section
variable (s : Keys) (q : Query)

def step : State → State
  | .returned page => .returned page
  | .fetching place items =>
    let records := s.listObjects q (q.cursor place)
    match records.foldlM q.visit items with
    | .error page => .returned page
    | .ok items =>
      match records.getLast? with
      | none => .returned ⟨items, false⟩
      | some last =>
        if records.length < listBatch then .returned ⟨items, false⟩
        else .fetching (q.next last) items

def run (n : ℕ) : State := (step s q)^[n] (.fetching .start [])

end

namespace Query
variable {q : Query}

/-- What the loop adds to a page that has `last` at its end, without the limit. -/
def grouped (q : Query) (last : Option Listed) : List Text → List Listed
  | [] => []
  | k :: ks => if q.passes last k then q.grouped last ks else q.item k :: q.grouped (some (q.item k)) ks

lemma length_grouped_le (last : Option Listed) (ks : List Text) :
    (q.grouped last ks).length ≤ ks.length := by
  induction ks generalizing last with
  | nil => exact le_rfl
  | cons k ks ih =>
    unfold grouped
    split
    · exact (ih last).trans (Nat.le_succ _)
    · exact Nat.succ_le_succ (ih _)

lemma foldlM_visit {items : List Listed} (room : items.length ≤ q.maxKeys) (ks : List Text) :
    ks.foldlM q.visit items =
      if (items ++ q.grouped items.getLast? ks).length ≤ q.maxKeys then
        .ok (items ++ q.grouped items.getLast? ks)
      else .error ⟨(items ++ q.grouped items.getLast? ks).take q.maxKeys, true⟩ := by
  induction ks generalizing items with
  | nil => simp [grouped, room, pure, Except.pure]
  | cons k ks ih =>
    rw [foldlM_cons, visit, grouped]
    cases q.passes items.getLast? k with
    | true => exact ih room
    | false =>
      simp only [Bool.false_eq_true, if_false]
      by_cases full : q.maxKeys ≤ items.length
      · have same : items.length = q.maxKeys := le_antisymm room full
        rw [if_pos full, if_neg (by simp [same]), take_append_of_le_length full, take_of_length_le room]
        rfl
      · have room : (items ++ [q.item k]).length ≤ q.maxKeys := by simp; omega
        have more := ih room
        rw [getLast?_concat, append_assoc] at more
        rw [if_neg full]
        exact more

end Query

section
variable {s : Keys} {q : Query} {a b : ListFrom} {items items' : List Listed} {k last : Text}

lemma step_fetching (visited : (s.listObjects q (q.cursor a)).foldlM q.visit items = .ok items')
    (ends : (s.listObjects q (q.cursor a)).getLast? = some last) :
    step s q (.fetching a items) = if (s.listObjects q (q.cursor a)).length < listBatch then
      .returned ⟨items', false⟩ else .fetching (q.next last) items' := by
  simp only [step, visited, ends]

lemma fetching_of_step (h : step s q (.fetching a items) = .fetching b items') :
    (s.listObjects q (q.cursor a)).length = listBatch ∧
      ∃ last, (s.listObjects q (q.cursor a)).getLast? = some last ∧ b = q.next last := by
  unfold step at h
  dsimp only at h
  split at h
  · cases h
  · split at h
    · cases h
    · next last ends =>
      split_ifs at h with short
      cases h
      exact ⟨le_antisymm (length_take_le ..) (not_lt.mp short), last, ends, rfl⟩

lemma mem_behind {cursor : Option Text} : k ∈ s.behind q cursor ↔
    k ∈ s.under q.keyPrefix ∧ ∀ c ∈ cursor, c < k := by
  simp [Keys.behind, Option.all_eq_true]

lemma sorted_behind (cursor : Option Text) : (s.behind q cursor).Pairwise (· < ·) :=
  (s.sorted.filter _).filter _

lemma le_getLast {l : List Text} (sorted : l.Pairwise (· < ·)) (ends : l.getLast? = some last)
    (mem : k ∈ l) : k ≤ last := by
  obtain ⟨front, rfl⟩ := getLast?_eq_some_iff.mp ends
  rcases mem_append.mp mem with early | here
  · exact ((pairwise_append.mp sorted).2.2 k early last mem_cons_self).le
  · exact (mem_singleton.mp here).le

lemma filter_behind {α : Type*} {r : α → α → Prop} [DecidableRel r] {before rest : List α}
    (asymm : ∀ {a b}, r a b → ¬ r b a) (sorted : (before ++ rest).Pairwise r) :
    ((before ++ rest).filter fun x => before.getLast?.all fun m => decide (r m x)) = rest := by
  obtain ⟨front, -, across⟩ := pairwise_append.mp sorted
  rw [filter_append, filter_eq_nil_iff.mpr, filter_eq_self.mpr, nil_append]
  · intro x mem
    rw [Option.all_eq_true]
    intro m ends
    exact decide_eq_true (across m (mem_of_getLast? ends) x mem)
  · intro x mem
    cases ends : before.getLast? with
    | none => exact absurd (getLast?_eq_none_iff.mp ends ▸ mem) not_mem_nil
    | some m =>
      obtain ⟨first, rfl⟩ := getLast?_eq_some_iff.mp ends
      have last : ¬ r m x := by
        rcases mem_append.mp mem with early | here
        · exact asymm ((pairwise_append.mp front).2.2 x early m mem_cons_self)
        · exact mem_singleton.mp here ▸ fun self => asymm self self
      simpa using last

/-- A full query ends at a key with ninety-nine others before it. -/
lemma exists_index {cursor : Option Text} (full : (s.listObjects q cursor).length = listBatch)
    (ends : (s.listObjects q cursor).getLast? = some last) :
    ∃ i, 99 ≤ i ∧ (s.under q.keyPrefix)[i]? = some last := by
  obtain ⟨front, split⟩ := getLast?_eq_some_iff.mp ends
  have within : front ++ [last] <+ s.under q.keyPrefix :=
    split ▸ (take_sublist ..).trans (filter_sublist ..)
  obtain ⟨before, rest, whole, early, late⟩ := append_sublist_iff.mp within
  obtain ⟨j, there⟩ := mem_iff_getElem?.mp (singleton_sublist.mp late)
  have many : front.length = 99 := by
    rw [split, length_append] at full
    exact Nat.succ.inj full
  refine ⟨before.length + j, many ▸ early.length_le.trans (Nat.le_add_right ..), ?_⟩
  rw [whole, getElem?_append_right (Nat.le_add_right ..), Nat.add_sub_cancel_left, there]

/-- Apart from the first ninety-nine, no key goes on behind its group with the last character
and more. -/
def Keys.Bounded (s : Keys) (keyPrefix delim : Text) : Prop :=
  ∀ i k group, 99 ≤ i → (s.under keyPrefix)[i]? = some k →
    commonPrefix keyPrefix delim k = some group → k ≤ pastPrefix group

/-- The query from `b` starts behind all that was found from `a`, and is a later one. -/
structure Advances (s : Keys) (q : Query) (a b : ListFrom) : Prop where
  seen : ∀ k ∈ s.listObjects q (q.cursor a), ∃ c, q.cursor b = some c ∧ k ≤ c
  later : ∀ k ∈ s.behind q (q.cursor b), k ∈ s.behind q (q.cursor a)

lemma Advances.trans {c : ListFrom} (h : Advances s q a b) (h' : Advances s q b c)
    (nonempty : s.listObjects q (q.cursor b) ≠ []) : Advances s q a c := by
  refine ⟨fun k mem => ?_, fun k mem => h.later k (h'.later k mem)⟩
  obtain ⟨c', here, le⟩ := h.seen k mem
  obtain ⟨x, found⟩ := exists_mem_of_ne_nil _ nonempty
  obtain ⟨d, there, above⟩ := h'.seen x found
  exact ⟨d, there, le.trans (((mem_behind.mp (mem_of_mem_take found)).2 c' here).le.trans above)⟩

lemma advances_of_step (bounded : s.Bounded q.keyPrefix q.delim)
    (h : step s q (.fetching a items) = .fetching b items') :
    s.listObjects q (q.cursor a) ≠ [] ∧ Advances s q a b := by
  obtain ⟨full, last, ends, rfl⟩ := fetching_of_step h
  have nonempty : s.listObjects q (q.cursor a) ≠ [] := by
    intro none
    rw [none] at full
    cases full
  have above : ∃ c, q.cursor (q.next last) = some c ∧ last ≤ c := by
    unfold Query.next
    cases group : q.groupOf last with
    | none => exact ⟨last, rfl, le_rfl⟩
    | some g =>
      obtain ⟨i, far, there⟩ := exists_index full ends
      exact ⟨pastPrefix g, rfl, bounded i last g far there group⟩
  obtain ⟨c, here, le⟩ := above
  refine ⟨nonempty, fun k mem => ⟨c, here, (le_getLast (sorted_behind _).take ends mem).trans le⟩, fun k mem => ?_⟩
  obtain ⟨listed, past⟩ := mem_behind.mp mem
  have last_behind := (mem_behind.mp (mem_of_mem_take (mem_of_getLast? ends))).2
  exact mem_behind.mpr ⟨listed, fun c' told => (last_behind c' told).trans (le.trans_lt (past c here))⟩

lemma behind_shrinks (advances : Advances s q a b)
    (nonempty : s.listObjects q (q.cursor a) ≠ []) :
    (s.behind q (q.cursor b)).length < (s.behind q (q.cursor a)).length := by
  obtain ⟨x, found⟩ := exists_mem_of_ne_nil _ nonempty
  obtain ⟨c, here, le⟩ := advances.seen x found
  have nodup : (x :: s.behind q (q.cursor b)).Nodup :=
    nodup_cons.mpr ⟨fun mem => ((mem_behind.mp mem).2 c here).not_ge le, (sorted_behind _).imp ne_of_lt⟩
  exact (nodup.subperm (cons_subset.mpr ⟨mem_of_mem_take found, advances.later⟩)).length_le

lemma run_succ (n : ℕ) : run s q (n + 1) = step s q (run s q n) := Function.iterate_succ_apply' ..

lemma exists_returned (bounded : s.Bounded q.keyPrefix q.delim) {n : ℕ}
    (here : run s q n = .fetching a items) : ∃ n page, run s q n = .returned page := by
  induction left : (s.behind q (q.cursor a)).length using Nat.strong_induction_on
    generalizing n a items with
  | _ size ih =>
    cases next : run s q (n + 1) with
    | returned page => exact ⟨n + 1, page, next⟩
    | fetching b items' =>
      rw [run_succ, here] at next
      obtain ⟨nonempty, advances⟩ := advances_of_step bounded next
      exact ih _ (left ▸ behind_shrinks advances nonempty) (run_succ n ▸ here ▸ next) rfl

lemma advances_run (bounded : s.Bounded q.keyPrefix q.delim) {m n : ℕ} (lt : m < n)
    (first : run s q m = .fetching a items) (second : run s q n = .fetching b items') :
    Advances s q a b := by
  induction n generalizing b items' with
  | zero => cases lt
  | succ n ih =>
    rw [run_succ] at second
    cases before : run s q n with
    | returned page =>
      rw [before] at second
      cases second
    | fetching c between =>
      rw [before] at second
      obtain ⟨nonempty, advances⟩ := advances_of_step bounded second
      rcases Nat.lt_succ_iff_lt_or_eq.mp lt with lt | rfl
      · exact (ih lt before).trans advances nonempty
      · rw [first] at before
        cases before
        exact advances

lemma listObjects_of_index {keyPrefix delim : Text} {i : ℕ} (far : 99 ≤ i)
    (there : (s.under keyPrefix)[i]? = some k) : ∃ marker,
      let q : Query := ⟨keyPrefix, delim, marker, 100⟩
      (s.listObjects q marker).length = 100 ∧ (s.listObjects q marker).getLast? = some k := by
  have sorted : (s.under keyPrefix).Pairwise (· < ·) := s.sorted.filter _
  obtain ⟨before, rest, whole, length⟩ : ∃ before rest, s.under keyPrefix = before ++ rest ∧
      before.length = i - 99 :=
    ⟨_, _, (take_append_drop (i - 99) _).symm, by
      have := (List.getElem?_eq_some_iff.mp there).1
      rw [length_take]
      omega⟩
  rw [whole] at sorted
  have found : rest[99]? = some k := by
    rwa [whole, getElem?_append_right (by omega), length, Nat.sub_sub_self far] at there
  have long := (List.getElem?_eq_some_iff.mp found).1
  refine ⟨before.getLast?, ?_⟩
  dsimp only [Keys.listObjects, Keys.behind]
  rw [whole, filter_behind lt_asymm sorted, getLast?_take, length_take]
  exact ⟨min_eq_left long, by simp [listBatch, found]⟩

end

/-- A hundred and one keys in a group, each going on with the last character and another. -/
def crowded : Keys where
  keys := (List.range 101).map fun i => pastPrefix ['/'] ++ [Char.ofNat (i + 48)]
  sorted := by decide +kernel

end Arca.Delimited
