import Mathlib.Data.List.Destutter
import Mathlib.Data.List.Sort
import Mathlib.Order.Defs.LinearOrder

/-!
# The last entry of each key

Sorting stably by a key, reversing, dropping the entries that repeat the key before them
and reversing again leaves of each key the entry that was given last, with the keys
ascending.
-/
namespace LastPerKey
open List
variable {α κ : Type*} [LinearOrder κ] (key : α → κ)

def sorted (l : List α) : List α := l.insertionSort fun a b => key a ≤ key b

def lastPerKey (l : List α) : List α :=
  ((sorted key l).reverse.destutter fun a b => key a ≠ key b).reverse

def lastEntry (l : List α) (k : κ) : Option α := l.reverse.find? (key · = k)

variable {key} {l : List α} {x : α} {k : κ}

instance total_le : Std.Total fun a b => key a ≤ key b := ⟨fun a b => le_total (key a) (key b)⟩

instance isTrans_le : IsTrans α fun a b => key a ≤ key b := ⟨fun _ _ _ => le_trans⟩

/-- The sort is stable: the entries of one key stay in the order they were given in. -/
lemma filter_sorted (k : κ) (l : List α) :
    (sorted key l).filter (key · = k) = l.filter (key · = k) := by
  have same : (l.filter (key · = k)).Pairwise fun a b => key a ≤ key b := by
    refine pairwise_of_forall_mem_list fun a ha b hb => ?_
    have first : key a = k := by simpa using (mem_filter.mp ha).2
    have second : key b = k := by simpa using (mem_filter.mp hb).2
    exact (first.trans second.symm).le
  have inside : (l.filter (key · = k)).Sublist (sorted key l) :=
    sublist_insertionSort same filter_sublist
  have kept : (l.filter (key · = k)).Sublist ((sorted key l).filter (key · = k)) := by
    simpa using inside.filter (key · = k)
  refine (kept.eq_of_length ?_).symm
  exact ((perm_insertionSort _ l).filter _).length_eq.symm

lemma lastEntry_sorted (k : κ) (l : List α) : lastEntry key (sorted key l) k = lastEntry key l k := by
  unfold lastEntry
  rw [← head?_filter, ← head?_filter, filter_reverse, filter_reverse, filter_sorted]

/-- In a list that descends by key, what is left begins each run. -/
lemma mem_destutter'_iff {a : α} (descends : (a :: l).Pairwise fun a b => key b ≤ key a) :
    x ∈ l.destutter' (fun a b => key a ≠ key b) a ↔ (a :: l).find? (key · = key x) = some x := by
  induction l generalizing a with
  | nil =>
    rw [destutter'_nil, mem_singleton, find?_singleton]
    constructor
    · rintro rfl
      rw [if_pos (decide_eq_true rfl)]
    · intro found
      split at found
      · exact (Option.some.inj found).symm
      · cases found
  | cons b l ih =>
    obtain ⟨above, rest⟩ := pairwise_cons.mp descends
    by_cases same : key a = key b
    · have short : (a :: l).Pairwise fun a b => key b ≤ key a :=
        pairwise_cons.mpr ⟨fun c mem => above c (mem_cons_of_mem _ mem), rest.of_cons⟩
      rw [destutter'_cons_neg _ (not_not.mpr same), ih short, find?_cons, find?_cons,
        find?_cons, ← same]
      split <;> rfl
    · rw [destutter'_cons_pos _ same, mem_cons, ih rest, find?_cons (a := a)]
      have below : ∀ c ∈ b :: l, key c < key a := by
        intro c mem
        refine lt_of_le_of_lt ?_ (lt_of_le_of_ne (above b mem_cons_self) (Ne.symm same))
        rcases mem_cons.mp mem with rfl | mem
        · exact le_rfl
        · exact (pairwise_cons.mp rest).1 c mem
      by_cases here : key a = key x
      · rw [decide_eq_true here]
        constructor
        · rintro (rfl | later)
          · rfl
          · exact absurd here (below x (mem_of_find?_eq_some later)).ne'
        · exact fun found => .inl (Option.some.inj found).symm
      · rw [decide_eq_false here]
        tauto

lemma descends_reverse (key : α → κ) (l : List α) :
    (sorted key l).reverse.Pairwise fun a b => key b ≤ key a :=
  pairwise_reverse.mpr (pairwise_insertionSort _ l)

/-- **The entry given last** for each key is what is left. -/
lemma mem_lastPerKey_iff : x ∈ lastPerKey key l ↔ lastEntry key l (key x) = some x := by
  rw [lastPerKey, mem_reverse, ← lastEntry_sorted, lastEntry]
  have descends := descends_reverse key l
  cases order : (sorted key l).reverse with
  | nil => simp
  | cons a rest =>
    rw [order] at descends
    exact mem_destutter'_iff descends

lemma isChain_strict (down : l.Pairwise fun a b => key b ≤ key a)
    (steps : l.IsChain fun a b => key a ≠ key b) : l.IsChain fun a b => key b < key a := by
  induction l with
  | nil => exact .nil
  | cons a l ih =>
    cases l with
    | nil => exact .singleton a
    | cons b l =>
      obtain ⟨other, rest⟩ := isChain_cons_cons.mp steps
      obtain ⟨above, below⟩ := pairwise_cons.mp down
      refine isChain_cons_cons.mpr ⟨?_, ih below rest⟩
      exact lt_of_le_of_ne (above b mem_cons_self) (Ne.symm other)

/-- The keys ascend, each once. -/
lemma pairwise_lastPerKey (key : α → κ) (l : List α) :
    (lastPerKey key l).Pairwise fun a b => key a < key b := by
  rw [lastPerKey, pairwise_reverse]
  have down := (descends_reverse key l).sublist
    (destutter_sublist (fun a b => key a ≠ key b) _)
  have steps := isChain_destutter (fun a b => key a ≠ key b) (sorted key l).reverse
  exact isChain_iff_pairwise.mp (isChain_strict down steps)

lemma mem_keys_lastPerKey_iff : k ∈ (lastPerKey key l).map key ↔ k ∈ l.map key := by
  simp only [mem_map, mem_lastPerKey_iff]
  constructor
  · rintro ⟨x, last, rfl⟩
    exact ⟨x, mem_reverse.mp (mem_of_find?_eq_some last), rfl⟩
  · rintro ⟨x, mem, rfl⟩
    have some : (lastEntry key l (key x)).isSome := by
      rw [lastEntry, find?_isSome]
      exact ⟨x, mem_reverse.mpr mem, decide_eq_true rfl⟩
    obtain ⟨y, last⟩ := Option.isSome_iff_exists.mp some
    have same : key y = key x := by simpa using find?_some last
    exact ⟨y, same ▸ last, same⟩

end LastPerKey
