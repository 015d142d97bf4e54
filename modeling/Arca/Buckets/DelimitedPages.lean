import Arca.Buckets.Delimited

/-!
# What the pages of a delimited listing hold

Grouping the keys one by one gives the distinct items in their order.
-/
namespace Arca.Delimited
open List Option PrefixRange Query

lemma upTo_spec {delim t u : Text} (h : upTo delim t = some u) :
    delim.length ≤ u.length ∧ u <+: t ∧ ∀ t', u <+: t' → upTo delim t' = some u := by
  have found : ∀ t', delim <+: t' → upTo delim t' = some delim := by
    intro t' here
    cases t' with
    | nil => simp [upTo, prefix_nil.mp here]
    | cons c t' => exact if_pos here
  induction t generalizing u with
  | nil =>
    rw [upTo] at h
    split_ifs at h with empty
    obtain rfl := some.inj h
    exact ⟨by simp [empty], nil_prefix, fun t' _ => empty ▸ found t' (empty ▸ nil_prefix)⟩
  | cons c t ih =>
    rw [upTo] at h
    split_ifs at h with here
    · obtain rfl := some.inj h
      exact ⟨le_rfl, here, found⟩
    · obtain ⟨v, later, rfl⟩ := map_eq_some_iff.mp h
      obtain ⟨long, start, same⟩ := ih later
      refine ⟨long.trans (Nat.le_succ _), cons_prefix_cons.mpr ⟨rfl, start⟩, fun t' under => ?_⟩
      cases t' with
      | nil => exact absurd (prefix_nil.mp under) (cons_ne_nil _ _)
      | cons x t' =>
        obtain ⟨rfl, tail⟩ := cons_prefix_cons.mp under
        have absent : ¬ delim <+: c :: t' := fun early => here <|
          (prefix_of_prefix_length_le early under (long.trans (Nat.le_succ _))).trans (cons_prefix_cons.mpr ⟨rfl, start⟩)
        rw [upTo, if_neg absent, same t' tail]
        rfl

def Listed.key : Listed → Text
  | .record key => key
  | .group name => name

section
variable {s : Keys} {q : Query} {k k' group : Text} {last : Option Listed} {l : List Text}

lemma groupOf_spec (under : q.keyPrefix <+: k) (h : q.groupOf k = some group) :
    group <+: k ∧ ∀ k', group <+: k' → q.groupOf k' = some group := by
  obtain ⟨rest, rfl⟩ := under
  obtain ⟨u, found, rfl⟩ := map_eq_some_iff.mp h
  rw [drop_left] at found
  rw [take_left]
  obtain ⟨-, start, same⟩ := upTo_spec found
  refine ⟨(prefix_append_right_inj _).mpr start, ?_⟩
  rintro k' ⟨more, rfl⟩
  rw [append_assoc, groupOf, commonPrefix, drop_left, take_left, same _ (prefix_append ..)]
  rfl

lemma item_of_group (h : q.groupOf k = some group) : q.item k = .group group := by
  rw [item, h]
  rfl

lemma item_of_none (h : q.groupOf k = none) : q.item k = .record k := by
  rw [item, h]
  rfl

lemma key_item_le (under : q.keyPrefix <+: k) : (q.item k).key ≤ k := by
  cases h : q.groupOf k with
  | none => rw [item_of_none h]; exact le_rfl
  | some group => rw [item_of_group h]; exact le_of_prefix (groupOf_spec under h).1

def Query.Before (q : Query) (it : Listed) (k : Text) : Prop :=
  it.key < (q.item k).key ∨ ∃ group, it = .group group ∧ q.groupOf k = some group

lemma before_of_lt (under : q.keyPrefix <+: k) (under' : q.keyPrefix <+: k') (lt : k < k') :
    q.Before (q.item k) k' := by
  cases h' : q.groupOf k' with
  | none => exact .inl (item_of_none h' ▸ (key_item_le under).trans_lt lt)
  | some group =>
    by_cases inside : group <+: k
    · exact .inr ⟨group, item_of_group ((groupOf_spec under' h').2 k inside), h'⟩
    · have below := ( lt_iff_of_prefix (groupOf_spec under' h').1 (prefix_refl group) inside).2.mp lt
      exact .inl (item_of_group h' ▸ (key_item_le under).trans_lt below)

lemma grouped_append (last : Option Listed) (a b : List Text) : q.grouped last (a ++ b) =
    q.grouped last a ++ q.grouped ((q.grouped last a).getLast?.or last) b := by
  induction a generalizing last with
  | nil => rfl
  | cons k a ih =>
    rw [cons_append, grouped, grouped]
    split
    · exact ih last
    · rw [ih, cons_append, getLast?_cons]
      cases (q.grouped (some (q.item k)) a).getLast? <;> rfl

/-- No key of the group is listed any more. -/
def Query.Settled (q : Query) (last : Option Listed) (group : Text) : Prop :=
  (∃ m ∈ q.marker, group ≤ m) ∨ last = some (.group group)

lemma passes_iff (h : q.groupOf k = some group) : q.passes last k = true ↔ q.Settled last group := by
  simp [passes, h, Query.Settled, Option.any_eq_true]

lemma settled_concat (h : q.groupOf k = some group) :
    q.Settled ((q.grouped last (l ++ [k])).getLast?.or last) group := by
  rw [grouped_append, getLast?_append, Option.or_assoc]
  rw [grouped]
  split
  · next passed => exact (passes_iff h).mp passed
  · exact .inr (congrArg some (item_of_group h))

lemma grouped_of_settled (under : ∀ k ∈ l, group <+: k → q.groupOf k = some group)
    (sorted : l.Pairwise (· < ·)) (above : ∀ k ∈ l, group < k) (settled : q.Settled last group) :
    q.grouped last l = q.grouped last (l.filter fun k => ¬ group <+: k) := by
  induction l with
  | nil => rfl
  | cons k l ih =>
    obtain ⟨own, under⟩ := forall_mem_cons.mp under
    obtain ⟨lt, above⟩ := forall_mem_cons.mp above
    obtain ⟨below, sorted⟩ := pairwise_cons.mp sorted
    by_cases inside : group <+: k
    · rw [filter_cons_of_neg (by simpa using inside), grouped,
        if_pos ((passes_iff (own inside)).mpr settled)]
      exact ih under sorted above
    · rw [filter_eq_self.mpr]
      intro x mem
      refine decide_eq_true ?_
      rcases mem_cons.mp mem with rfl | later
      · exact inside
      · -- it would start with the group, and so come before `k`
        intro start
        exact lt_asymm lt (( lt_iff_of_prefix start (prefix_refl _) inside).2.mp (below x later))

lemma pairwise_grouped (under : ∀ k ∈ l, q.keyPrefix <+: k) (sorted : l.Pairwise (· < ·))
    (before : ∀ it ∈ last, ∀ k ∈ l, q.Before it k) :
    (q.grouped last l).Pairwise (fun a b => a.key < b.key) ∧
      ∀ it ∈ last, ∀ x ∈ q.grouped last l, it.key < x.key := by
  induction l generalizing last with
  | nil => exact ⟨.nil, fun _ _ x none => absurd none not_mem_nil⟩
  | cons k l ih =>
    obtain ⟨own, under⟩ := forall_mem_cons.mp under
    obtain ⟨below, sorted⟩ := pairwise_cons.mp sorted
    rw [grouped]
    split
    · exact ih under sorted fun it told x mem => before it told x (mem_cons_of_mem _ mem)
    · next listed =>
      have behind : ∀ it ∈ some (q.item k), ∀ x ∈ l, q.Before it x := by
        rintro _ ⟨⟩ x mem
        exact before_of_lt own (under x mem) (below x mem)
      obtain ⟨rest, above⟩ := ih under sorted behind
      refine ⟨pairwise_cons.mpr ⟨above _ rfl, rest⟩, fun it told x mem => ?_⟩
      have lt : it.key < (q.item k).key := by
        rcases before it told k mem_cons_self with lt | ⟨group, rfl, same⟩
        · exact lt
        · exact absurd ((passes_iff same).mpr (.inr told)) listed
      rcases mem_cons.mp mem with rfl | mem
      · exact lt
      · exact lt.trans (above _ rfl x mem)

variable {it : Listed}

lemma mem_grouped (behind : ∀ k ∈ l, ∀ m ∈ q.marker, m < k)
    (h : it ∈ q.grouped last l) : ∃ k ∈ l, q.item k = it ∧ ∀ m ∈ q.marker, m < it.key := by
  induction l generalizing last with
  | nil => cases h
  | cons k l ih =>
    obtain ⟨own, behind⟩ := forall_mem_cons.mp behind
    rw [grouped] at h
    split at h
    · obtain ⟨x, mem, found⟩ := ih behind h
      exact ⟨x, mem_cons_of_mem _ mem, found⟩
    · next listed =>
      rcases mem_cons.mp h with rfl | h
      · refine ⟨k, mem_cons_self, rfl, fun m told => ?_⟩
        cases same : q.groupOf k with
        | none => exact item_of_none same ▸ own m told
        | some group =>
          rw [passes_iff same] at listed
          exact item_of_group same ▸ not_le.mp fun le => listed (.inl ⟨m, told, le⟩)
      · obtain ⟨x, mem, found⟩ := ih behind h
        exact ⟨x, mem_cons_of_mem _ mem, found⟩

lemma item_mem_grouped (mem : k ∈ l) (past : ∀ m ∈ q.marker, m < (q.item k).key) :
    some (q.item k) = last ∨ q.item k ∈ q.grouped last l := by
  induction l generalizing last with
  | nil => cases mem
  | cons x l ih =>
    rw [grouped]
    split
    · next passed =>
      rcases mem_cons.mp mem with rfl | mem
      · cases same : q.groupOf k with
        | none => simp [passes, same] at passed
        | some group =>
          rw [item_of_group same] at past ⊢
          rcases (passes_iff same).mp passed with ⟨m, told, le⟩ | ends
          · exact absurd (past m told) (not_lt.mpr le)
          · exact .inl ends.symm
      · exact ih mem
    · rcases mem_cons.mp mem with rfl | mem
      · exact .inr mem_cons_self
      · rcases @ih (some (q.item x)) mem with same | later
        · exact .inr (some.inj same ▸ mem_cons_self)
        · exact .inr (mem_cons_of_mem _ later)

/-- The distinct items of the keys, in order, from the marker on. -/
def Keys.items (s : Keys) (q : Query) : List Listed :=
  ((s.under q.keyPrefix).map q.item).dedup.filter fun it => q.marker.all (· < it.key)

lemma mem_under : k ∈ s.under q.keyPrefix → q.keyPrefix <+: k :=
  fun mem => of_decide_eq_true (mem_filter.mp mem).2

lemma sorted_under : (s.under q.keyPrefix).Pairwise (· < ·) := s.sorted.filter _

lemma pairwise_items : (s.items q).Pairwise (fun a b => a.key < b.key) := by
  have ordered : ((s.under q.keyPrefix).map q.item).Pairwise fun a b => a = b ∨ a.key < b.key := by
    refine pairwise_map.mpr (sorted_under.imp_of_mem fun mem mem' lt => ?_)
    rcases before_of_lt (mem_under mem) (mem_under mem') lt with lt | ⟨group, own, other⟩
    · exact .inr lt
    · exact .inl (own.trans (item_of_group other).symm)
  refine (((ordered.sublist (dedup_sublist _)).and (nodup_dedup _)).imp ?_).filter _
  rintro a b ⟨same | lt, other⟩
  · exact absurd same other
  · exact lt

lemma mem_items : it ∈ s.items q ↔
    (∃ k ∈ s.under q.keyPrefix, q.item k = it) ∧ ∀ m ∈ q.marker, m < it.key := by
  simp [Keys.items, Option.all_eq_true]

lemma grouped_behind : q.grouped none (s.behind q q.marker) = s.items q := by
  have under : ∀ k ∈ s.behind q q.marker, q.keyPrefix <+: k := fun k mem => mem_under (mem_behind.mp mem).1
  have sorted := (@pairwise_grouped q none _ under (sorted_behind _) nofun).1
  have nodup : ∀ {l : List Listed}, l.Pairwise (fun a b => a.key < b.key) → l.Nodup :=
    fun sorted => sorted.imp fun {a b} lt (same : a = b) => lt_irrefl _ (same ▸ lt)
  refine ((perm_ext_iff_of_nodup (nodup sorted) (nodup pairwise_items)).mpr fun it => ?_).eq_of_pairwise
    (fun a b _ _ lt gt => absurd lt gt.asymm) sorted pairwise_items
  rw [mem_items]
  constructor
  · intro mem
    obtain ⟨k, found, same, past⟩ := mem_grouped (fun k mem => (mem_behind.mp mem).2) mem
    exact ⟨⟨k, (mem_behind.mp found).1, same⟩, past⟩
  · rintro ⟨⟨k, mem, rfl⟩, past⟩
    have there := mem_behind.mpr ⟨mem, fun m told => (past m told).trans_le (key_item_le (mem_under mem))⟩
    exact (item_mem_grouped there past).resolve_left nofun

def Sound (s : Keys) (q : Query) : State → Prop
  | .fetching place items => items.length ≤ q.maxKeys ∧
      items ++ q.grouped items.getLast? (s.behind q (q.cursor place)) = s.items q
  | .returned page => page.items = (s.items q).take q.maxKeys ∧
      (page.truncated = true ↔ q.maxKeys < (s.items q).length)

lemma drop_behind {cursor : Option Text} (ends : (s.listObjects q cursor).getLast? = some k) :
    (s.behind q cursor).drop listBatch = s.behind q (some k) := by
  have found := mem_behind.mp (mem_of_mem_take (mem_of_getLast? ends))
  have whole : (s.behind q cursor).take listBatch ++ (s.behind q cursor).drop listBatch = _ :=
    take_append_drop ..
  have rest := filter_behind lt_asymm (whole ▸ sorted_behind cursor)
  have ends : ((s.behind q cursor).take listBatch).getLast? = some k := ends
  rw [whole, ends] at rest
  rw [← rest, Keys.behind, Keys.behind, List.filter_filter]
  refine filter_congr fun x _ => ?_
  rw [Bool.eq_iff_iff, Bool.and_eq_true, Option.all_eq_true, Option.all_eq_true, and_iff_left_iff_imp]
  intro past m told
  exact decide_eq_true ((found.2 m told).trans (of_decide_eq_true (past k rfl)))

lemma grouped_next (ends : l.getLast? = some k) (under : q.keyPrefix <+: k) :
    q.grouped ((q.grouped last l).getLast?.or last) (s.behind q (some k)) =
      q.grouped ((q.grouped last l).getLast?.or last) (s.behind q (q.cursor (q.next k))) := by
  unfold Query.next
  cases same : q.groupOf k with
  | none => rfl
  | some group =>
    obtain ⟨start, own⟩ := groupOf_spec under same
    obtain ⟨front, rfl⟩ := getLast?_eq_some_iff.mp ends
    have settled : q.Settled ((q.grouped last (front ++ [k])).getLast?.or last) group := settled_concat same
    have left_out : ∀ c, group <+: c → q.grouped _ (s.behind q (some c)) = _ := fun c start =>
      grouped_of_settled (fun x _ => own x) (sorted_behind _)
        (fun x mem => ( le_of_prefix start).trans_lt ((mem_behind.mp mem).2 c rfl)) settled
    have past : group <+: pastPrefix group := prefix_append ..
    rw [left_out k start, elim_some, cursor, left_out _ past, Keys.behind, Keys.behind,
      List.filter_filter, List.filter_filter]
    congr 1
    refine filter_congr fun x _ => ?_
    by_cases inside : group <+: x
    · simp [inside]
    · simp [inside, ( lt_iff_of_prefix start past inside).1]

lemma sound_step {st : State} (h : Sound s q st) : Sound s q (step s q st) := by
  cases st with
  | returned page => exact h
  | fetching place items =>
    obtain ⟨room, total⟩ := h
    unfold step
    dsimp only
    rw [foldlM_visit room]
    have split : s.behind q (q.cursor place) = s.listObjects q (q.cursor place) ++ _ :=
      (take_append_drop listBatch _).symm
    rw [split, grouped_append, ← append_assoc] at total
    generalize gained : q.grouped items.getLast? (s.listObjects q (q.cursor place)) = new at total
    by_cases fits : (items ++ new).length ≤ q.maxKeys
    · have complete : (s.listObjects q (q.cursor place)).length < listBatch →
          Sound s q (.returned ⟨items ++ new, false⟩) := by
        intro short
        have none : (s.behind q (q.cursor place)).drop listBatch = [] := by
          rw [Keys.listObjects, length_take] at short
          exact drop_eq_nil_of_le (by omega)
        rw [none, grouped, append_nil] at total
        exact ⟨by rw [← total, take_of_length_le fits], by simpa [← total] using fits⟩
      rw [if_pos fits]
      cases ends : (s.listObjects q (q.cursor place)).getLast? with
      | none => exact complete (by rw [getLast?_eq_none_iff.mp ends]; decide)
      | some k =>
        dsimp only
        split
        · next short => exact complete short
        · have found := (mem_behind.mp (mem_of_mem_take (mem_of_getLast? ends))).1
          refine ⟨fits, ?_⟩
          rw [getLast?_append, ← gained, ← grouped_next ends (mem_under found), ← drop_behind ends, gained]
          exact total
    · have beyond : q.maxKeys < (s.items q).length := by
        rw [← total, length_append]
        omega
      rw [if_neg fits]
      refine ⟨?_, by simpa using beyond⟩
      rw [← total, take_append_of_le_length (not_le.mp fits).le]

lemma sound_run (n : ℕ) : Sound s q (run s q n) := by
  induction n with
  | zero => exact ⟨Nat.zero_le _, grouped_behind⟩
  | succ n ih => exact run_succ n ▸ sound_step ih

def Returns (s : Keys) (q : Query) (page : Page) : Prop := ∃ n, run s q n = .returned page

/-- The pages from a marker on, up to one that is not truncated. -/
inductive Walk (s : Keys) (q : Query) : Option Text → List Listed → Prop
  | last {marker : Option Text} {items : List Listed} : Returns s { q with marker } ⟨items, false⟩ →
      Walk s q marker items
  | more {marker : Option Text} {items rest : List Listed} {it : Listed} :
      Returns s { q with marker } ⟨items, true⟩ → items.getLast? = some it →
      Walk s q (some it.key) rest → Walk s q marker (items ++ rest)

lemma Returns.page {page : Page} (h : Returns s q page) : page.items = (s.items q).take q.maxKeys ∧
    (page.truncated = true ↔ q.maxKeys < (s.items q).length) := by
  obtain ⟨n, here⟩ := h
  have sound := sound_run (s := s) (q := q) n
  rwa [here] at sound

lemma items_next {n : ℕ} (ends : ((s.items q).take n).getLast? = some it) :
    s.items { q with marker := some it.key } = (s.items q).drop n := by
  have mem := mem_of_mem_take (mem_of_getLast? ends)
  have rest := filter_behind (r := fun a b : Listed => a.key < b.key) lt_asymm
    ((take_append_drop n (s.items q)).symm ▸ pairwise_items)
  rw [take_append_drop, ends] at rest
  rw [← rest, Keys.items, Keys.items, List.filter_filter]
  refine filter_congr fun x _ => ?_
  rw [all_some, all_some, Bool.eq_iff_iff, Bool.and_eq_true, Option.all_eq_true]
  refine ⟨fun lt => ⟨lt, fun m told => decide_eq_true ?_⟩, And.left⟩
  exact ((mem_items.mp mem).2 m told).trans (of_decide_eq_true lt)

lemma Walk.eq_items {marker : Option Text} {all : List Listed} (walk : Walk s q marker all) :
    all = s.items { q with marker } := by
  induction walk with
  | last returned =>
    obtain ⟨items, truncated⟩ := returned.page
    have short := not_lt.mp (mt truncated.mpr Bool.false_ne_true)
    exact items.trans (take_of_length_le short)
  | more returned ends _ ih =>
    obtain ⟨items, -⟩ := returned.page
    subst items
    have next := items_next ends
    rw [ih, next, take_append_drop]

lemma walk_items (pos : 0 < q.maxKeys)
    (returns : ∀ marker, ∃ page, Returns s { q with marker } page) (marker : Option Text) :
    Walk s q marker (s.items { q with marker }) := by
  induction left : (s.items { q with marker }).length using Nat.strong_induction_on
    generalizing marker with
  | _ size ih =>
    obtain ⟨⟨items, truncated⟩, returned⟩ := returns marker
    obtain ⟨rfl, more⟩ := returned.page
    cases truncated with
    | false =>
      have short := not_lt.mp (mt more.mpr Bool.false_ne_true)
      rw [take_of_length_le short] at returned
      exact .last returned
    | true =>
      have long := more.mp rfl
      cases ends : ((s.items { q with marker }).take q.maxKeys).getLast? with
      | none =>
        have none := congrArg length (getLast?_eq_none_iff.mp ends)
        rw [length_take, length_nil] at none
        omega
      | some it =>
        have next := items_next ends
        have rest := ih _ (by rw [next, length_drop]; dsimp only at long; omega) (some it.key) rfl
        rw [next] at rest
        exact take_append_drop q.maxKeys (s.items { q with marker }) ▸ Walk.more returned ends rest

/-- **The pages of a delimited listing hold the distinct items of the keys behind the marker,
in their order, each once.** -/
theorem delimited_listing_groups (s : Keys) (q : Query) :
    (s.items q).Pairwise (fun a b => a.key < b.key) ∧
    (∀ page, Returns s q page → page.items = (s.items q).take q.maxKeys ∧
      (page.truncated = true ↔ q.maxKeys < (s.items q).length)) ∧
    (∀ all, Walk s q q.marker all → all = s.items q) ∧
    (0 < q.maxKeys → (∀ marker, ∃ page, Returns s { q with marker } page) →
      Walk s q q.marker (s.items q)) := by
  refine ⟨pairwise_items, fun page => Returns.page, fun all walk => ?_, fun pos returns => ?_⟩
  · exact walk.eq_items
  · exact walk_items pos returns q.marker

end
end Arca.Delimited
