import Arca.Lifecycle.Pass

/-!
# Configurations that are accepted and panic

Slices of a text and sums of dates that Rust panics on, in the parser of the
lifecycle document, in the lifecycle worker and in the default retention. A panic
is `none`, or its own failure of the parser. In the worker it ends the pass.
-/
namespace Arca.Lifecycle
open List

def minInstant : Instant := -96465292 * dayNanos

def maxInstant : Instant := 95026237 * dayNanos - 1

/-- A date that the time library can represent. -/
structure DateTime where
  instant : Instant
  low : minInstant ≤ instant
  high : instant ≤ maxInstant
  deriving DecidableEq

def durationDays (n : Nat) : Option Int :=
  if n * 86400 ≤ 9223372036854775 then some (n * dayNanos) else none

namespace DateTime

def shift (t : DateTime) (d : Int) : Option DateTime :=
  if h : minInstant ≤ t.instant + d ∧ t.instant + d ≤ maxInstant then some ⟨t.instant + d, h.1, h.2⟩
  else none

def daysBefore (t : DateTime) (n : Nat) : Option DateTime := (durationDays n).bind fun d => t.shift (-d)

def daysAfter (t : DateTime) (n : Nat) : Option DateTime := (durationDays n).bind t.shift

variable {t u : DateTime} {n : Nat}

lemma shift_eq_some_iff {d : Int} : t.shift d = some u ↔ u.instant = t.instant + d := by
  obtain ⟨u, low, high⟩ := u
  unfold shift
  constructor
  · intro h
    split at h
    · cases h
      rfl
    · cases h
  · rintro rfl
    exact dif_pos ⟨low, high⟩

lemma dayNanos_nonneg (n : Nat) : (0 : Int) ≤ n * dayNanos :=
  Int.mul_nonneg (Int.natCast_nonneg n) (by decide)

lemma durationDays_eq (h : n * dayNanos ≤ maxInstant - minInstant) :
    durationDays n = some (n * dayNanos) := by
  refine if_pos ?_
  have bound : (n : Int) * (86400 * 1000000000) ≤
      95026237 * (86400 * 1000000000) - 1 - -96465292 * (86400 * 1000000000) := h
  omega

lemma eq_of_durationDays {d : Int} (h : durationDays n = some d) : d = n * dayNanos := by
  unfold durationDays at h
  split at h
  · exact (Option.some.inj h).symm
  · cases h

lemma bind_shift_eq_some_iff {f : Int → Int}
    (span : u.instant = t.instant + f (n * dayNanos) → n * dayNanos ≤ maxInstant - minInstant) :
    ((durationDays n).bind fun d => t.shift (f d)) = some u ↔
      u.instant = t.instant + f (n * dayNanos) := by
  constructor
  · intro h
    obtain ⟨d, days, shifted⟩ := Option.bind_eq_some_iff.mp h
    rw [shift_eq_some_iff.mp shifted, eq_of_durationDays days]
  · intro h
    rw [durationDays_eq (span h), Option.bind_some, shift_eq_some_iff, h]

lemma daysBefore_eq_some_iff : t.daysBefore n = some u ↔ u.instant = t.instant - n * dayNanos := by
  refine bind_shift_eq_some_iff (f := Neg.neg) fun h => ?_
  have days : n * dayNanos = t.instant - u.instant := by rw [h, ← sub_eq_add_neg, sub_sub_cancel]
  rw [days]
  exact Int.sub_le_sub t.high u.low

lemma daysAfter_eq_some_iff : t.daysAfter n = some u ↔ u.instant = t.instant + n * dayNanos := by
  refine bind_shift_eq_some_iff (f := id) fun h => ?_
  have days : n * dayNanos = u.instant - t.instant := by rw [h, id, add_sub_cancel_left]
  rw [days]
  exact Int.sub_le_sub u.high t.low

lemma exists_daysBefore_iff :
    (∃ u, t.daysBefore n = some u) ↔ minInstant ≤ t.instant - n * dayNanos := by
  constructor
  · rintro ⟨u, h⟩
    rw [← daysBefore_eq_some_iff.mp h]
    exact u.low
  · intro low
    have high : t.instant - n * dayNanos ≤ maxInstant :=
      (Int.sub_le_self t.instant (dayNanos_nonneg n)).trans t.high
    exact ⟨⟨_, low, high⟩, daysBefore_eq_some_iff.mpr rfl⟩

lemma exists_daysAfter_iff :
    (∃ u, t.daysAfter n = some u) ↔ t.instant + n * dayNanos ≤ maxInstant := by
  constructor
  · rintro ⟨u, h⟩
    rw [← daysAfter_eq_some_iff.mp h]
    exact u.high
  · intro high
    have low : minInstant ≤ t.instant + n * dayNanos :=
      t.low.trans (Int.le_add_of_nonneg_right (dayNanos_nonneg n))
    exact ⟨⟨_, low, high⟩, daysAfter_eq_some_iff.mpr rfl⟩

end DateTime

section
variable (readDate : String → Option Instant)

def loopFrom (now : DateTime) (days : Option Nat) (loop : Instant → Listing) : Option (List Listing) :=
  match days with
  | none => some []
  | some n => (now.daysBefore n).map fun cutoff => [loop cutoff.instant]

def LifecycleRule.evaluateFrom (bucket : String) (now : DateTime) (rule : LifecycleRule)
    (days : Option Nat) : Option (List Listing) := do
  let expired ← loopFrom now days fun cutoff => .expired ⟨bucket, rule, cutoff⟩ none
  let noncurrent ← loopFrom now (rule.noncurrentVersionExpiration.map (·.noncurrentDays)) fun cutoff =>
    .noncurrent bucket ⟨rule.filter.requiredPrefix, rule.filter.requiredTags, cutoff,
      (rule.noncurrentVersionExpiration.bind (·.newerNoncurrentVersions)).getD 0⟩ none
  let uploads ← loopFrom now rule.abortDaysAfterInitiation fun cutoff =>
    .uploads bucket rule.filter.requiredPrefix cutoff none
  some (expired ++ noncurrent ++ uploads)

def LifecycleRule.evaluate (bucket : String) (now : DateTime) (rule : LifecycleRule) :
    Option (List Listing) :=
  if rule.status ≠ .enabled then some []
  else match rule.expiration with
  | none => rule.evaluateFrom bucket now none
  | some (.days n) => rule.evaluateFrom bucket now (some n)
  | some (.date text) => match readDate text with
      | none => some []
      | some target =>
        if 0 < Int.tdiv (target - now.instant) 1000000000 then some []
        else rule.evaluateFrom bucket now (some 0)
  | some (.expiredObjectDeleteMarker _) => some []

def evaluateRules (bucket : String) (now : DateTime) : List LifecycleRule → Option (List Listing)
  | [] => some []
  | rule :: rules => do
      let first ← rule.evaluate readDate bucket now
      let rest ← evaluateRules bucket now rules
      some (first ++ rest)

structure BucketRules where
  name : String
  now : DateTime
  rules : List LifecycleRule

def BucketRules.evaluate (b : BucketRules) : Option (List Listing) :=
  evaluateRules readDate b.name b.now b.rules

def evaluateBuckets : List BucketRules → List String
  | [] => []
  | b :: bs => b.name :: if (b.evaluate readDate).isSome then evaluateBuckets bs else []

/-- Beside buckets that cause no panic, the rules let the pass come to every one. -/
def GoesOn (bucket : String) (now : DateTime) (rules : List LifecycleRule) : Prop :=
  ∀ before after : List BucketRules, (∀ b ∈ before ++ after, (b.evaluate readDate).isSome = true) →
    evaluateBuckets readDate (before ++ ⟨bucket, now, rules⟩ :: after) =
      (before ++ ⟨bucket, now, rules⟩ :: after).map BucketRules.name

end

def LifecycleRule.dayCounts (rule : LifecycleRule) : List Nat :=
  (match rule.expiration with
    | some (.days n) => [n]
    | _ => []) ++
  (rule.noncurrentVersionExpiration.map (·.noncurrentDays)).toList ++
  rule.abortDaysAfterInitiation.toList

def DateTime.Reaches (now : DateTime) (n : Nat) : Prop := minInstant ≤ now.instant - n * dayNanos

section
variable {readDate : String → Option Instant} {bucket : String} {now : DateTime} {rule : LifecycleRule}
  {l : List Listing}

lemma loopFrom_eq_some_iff {days : Option Nat} {loop : Instant → Listing} :
    loopFrom now days loop = some l ↔ (∀ n ∈ days.toList, now.Reaches n) ∧
      (days.map fun n : Nat => loop (now.instant - n * dayNanos)).toList = l := by
  cases days with
  | none => simp [loopFrom]
  | some n =>
    simp only [Option.toList_some, forall_mem_singleton, Option.map_some, loopFrom,
      Option.map_eq_some_iff]
    rw [DateTime.Reaches, ← DateTime.exists_daysBefore_iff]
    constructor
    · rintro ⟨u, shifted, rfl⟩
      exact ⟨⟨u, shifted⟩, by rw [DateTime.daysBefore_eq_some_iff.mp shifted]⟩
    · rintro ⟨⟨u, shifted⟩, rfl⟩
      exact ⟨u, shifted, by rw [DateTime.daysBefore_eq_some_iff.mp shifted]⟩

/-- A rule that is not skipped runs when each of its days is a date, and its loops
are those of the pass. -/
lemma evaluateFrom_eq_some_iff {days : Option Nat} : rule.evaluateFrom bucket now days = some l ↔
      (∀ n ∈ days.toList ++ (rule.noncurrentVersionExpiration.map (·.noncurrentDays)).toList ++
        rule.abortDaysAfterInitiation.toList, now.Reaches n) ∧
      (days.map fun n : Nat => Listing.expired ⟨bucket, rule, now.instant - n * dayNanos⟩ none).toList ++
        ((rule.noncurrentExpiry now.instant).map fun expiry =>
          Listing.noncurrent bucket expiry none).toList ++
        (rule.abortDaysAfterInitiation.map fun n : Nat => Listing.uploads bucket
          rule.filter.requiredPrefix (now.instant - n * dayNanos) none).toList = l := by
  have noncurrent : ((rule.noncurrentVersionExpiration.map (·.noncurrentDays)).map fun n : Nat =>
      Listing.noncurrent bucket ⟨rule.filter.requiredPrefix, rule.filter.requiredTags,
        now.instant - n * dayNanos,
        (rule.noncurrentVersionExpiration.bind (·.newerNoncurrentVersions)).getD 0⟩ none) =
      (rule.noncurrentExpiry now.instant).map fun expiry => Listing.noncurrent bucket expiry none := by
    rw [LifecycleRule.noncurrentExpiry]
    cases rule.noncurrentVersionExpiration <;> rfl
  simp only [LifecycleRule.evaluateFrom, Option.bind_eq_bind, Option.bind_eq_some_iff,
    loopFrom_eq_some_iff, noncurrent, forall_mem_append, Option.some.injEq]
  constructor
  · rintro ⟨_, ⟨first, rfl⟩, _, ⟨second, rfl⟩, _, ⟨third, rfl⟩, rfl⟩
    exact ⟨⟨⟨first, second⟩, third⟩, rfl⟩
  · rintro ⟨⟨⟨first, second⟩, third⟩, rfl⟩
    exact ⟨_, ⟨first, rfl⟩, _, ⟨second, rfl⟩, _, ⟨third, rfl⟩, rfl⟩

lemma reaches_zero (now : DateTime) : now.Reaches 0 := by
  rw [DateTime.Reaches, Nat.cast_zero, zero_mul, sub_zero]
  exact now.low

lemma skipped_iff (skipped : rule.isSkipped readDate now.instant = true)
    (none_run : rule.evaluate readDate bucket now = some []) :
    rule.evaluate readDate bucket now = some l ↔
      (rule.isSkipped readDate now.instant = false → ∀ n ∈ rule.dayCounts, now.Reaches n) ∧
      rule.listings readDate bucket now.instant = l := by
  rw [none_run, Option.some.injEq, LifecycleRule.listings, if_pos skipped]
  exact (and_iff_right fun runs => absurd (skipped.symm.trans runs) (by decide)).symm

lemma runs_iff_reaches (days : Option Nat) (runs : rule.isSkipped readDate now.instant = false)
    (evaluated : rule.evaluate readDate bucket now = rule.evaluateFrom bucket now days)
    (counted : (∀ n ∈ days.toList ++ (rule.noncurrentVersionExpiration.map (·.noncurrentDays)).toList ++
      rule.abortDaysAfterInitiation.toList, now.Reaches n) ↔ ∀ n ∈ rule.dayCounts, now.Reaches n)
    (cutoff : rule.expiration.bind (Expiration.cutoff readDate now.instant) =
      days.map fun n : Nat => now.instant - n * dayNanos) :
    rule.evaluate readDate bucket now = some l ↔
      (rule.isSkipped readDate now.instant = false → ∀ n ∈ rule.dayCounts, now.Reaches n) ∧
      rule.listings readDate bucket now.instant = l := by
  rw [evaluated, evaluateFrom_eq_some_iff, counted, LifecycleRule.listings, runs, cutoff,
    Option.map_map, forall_prop_of_true rfl]
  rfl

lemma evaluate_eq_some_iff : rule.evaluate readDate bucket now = some l ↔
    (rule.isSkipped readDate now.instant = false → ∀ n ∈ rule.dayCounts, now.Reaches n) ∧
      rule.listings readDate bucket now.instant = l := by
  by_cases enabled : rule.status = .enabled
  · cases action : rule.expiration with
    | none =>
      refine runs_iff_reaches none ?_ ?_ ?_ ?_ <;>
        simp [LifecycleRule.isSkipped, LifecycleRule.evaluate, LifecycleRule.dayCounts, enabled, action]
    | some e =>
      cases e with
      | days n =>
        refine runs_iff_reaches (some n) ?_ ?_ ?_ ?_ <;>
          simp [LifecycleRule.isSkipped, LifecycleRule.evaluate, LifecycleRule.dayCounts,
            Expiration.cutoff, enabled, action]
      | expiredObjectDeleteMarker flag =>
        refine skipped_iff ?_ ?_ <;>
          simp [LifecycleRule.isSkipped, LifecycleRule.evaluate, Expiration.cutoff, enabled, action]
      | date text =>
        cases read : readDate text with
        | none =>
          refine skipped_iff ?_ ?_ <;> simp [LifecycleRule.isSkipped, LifecycleRule.evaluate,
            Expiration.cutoff, enabled, action, read]
        | some target =>
          by_cases ahead : 0 < Int.tdiv (target - now.instant) 1000000000
          · refine skipped_iff ?_ ?_ <;> simp [LifecycleRule.isSkipped, LifecycleRule.evaluate,
              Expiration.cutoff, enabled, action, read, ahead]
          · refine runs_iff_reaches (some 0) ?_ ?_ ?_ ?_ <;> simp [LifecycleRule.isSkipped,
              LifecycleRule.evaluate, LifecycleRule.dayCounts, Expiration.cutoff, enabled, action,
              read, ahead, reaches_zero]
  · refine skipped_iff ?_ ?_ <;> simp [LifecycleRule.isSkipped, LifecycleRule.evaluate, enabled]

variable {rules : List LifecycleRule}

lemma exists_evaluateRules_iff :
    (evaluateRules readDate bucket now rules).isSome = true ↔ ∀ rule ∈ rules,
      rule.isSkipped readDate now.instant = false → ∀ n ∈ rule.dayCounts, now.Reaches n := by
  induction rules with
  | nil => exact iff_of_true rfl (forall_mem_nil _)
  | cons rule rules ih =>
    rw [forall_mem_cons, ← ih, evaluateRules]
    cases first : rule.evaluate readDate bucket now with
    | none =>
      refine iff_of_false (by simp) fun h => ?_
      have run : rule.evaluate readDate bucket now = some _ := evaluate_eq_some_iff.mpr ⟨h.1, rfl⟩
      cases first.symm.trans run
    | some loops =>
      rw [and_iff_right (evaluate_eq_some_iff.mp first).1]
      cases evaluateRules readDate bucket now rules <;> simp

lemma goesOn_iff : GoesOn readDate bucket now rules ↔
    (BucketRules.evaluate readDate ⟨bucket, now, rules⟩).isSome = true := by
  have through : ∀ {bs : List BucketRules} (cs : List BucketRules),
      (∀ b ∈ bs, (b.evaluate readDate).isSome = true) → evaluateBuckets readDate (bs ++ cs) =
        bs.map BucketRules.name ++ evaluateBuckets readDate cs := by
    intro bs cs run
    induction bs with
    | nil => rfl
    | cons b bs ih =>
      obtain ⟨first, rest⟩ := forall_mem_cons.mp run
      rw [cons_append, evaluateBuckets, if_pos first, ih rest, map_cons, cons_append]
  constructor
  · intro goes
    -- a bucket without rules comes next
    have next := goes [] [⟨bucket, now, []⟩] (forall_mem_singleton.mpr rfl)
    by_contra stops
    rw [nil_append, evaluateBuckets, if_neg stops] at next
    cases next
  · intro runs before after others
    obtain ⟨first, rest⟩ := forall_mem_append.mp others
    rw [through _ first, evaluateBuckets, if_pos runs, ← append_nil after, through [] rest]
    simp [evaluateBuckets]

end

/-- A character of the text ends with its `n`th byte. -/
def HasBoundary (n : Nat) (text : Text) : Prop :=
  ∃ start, start <+: text ∧ (start.map Char.utf8Size).sum = n

/-- The rule has an action, and each of its periods is positive. -/
structure ActionsValid (r : LifecycleRule) : Prop where
  some_action : r.expiration.isSome = true ∨ r.noncurrentVersionExpiration.isSome = true ∨
    r.abortDaysAfterInitiation.isSome = true
  days : r.expiration ≠ some (.days 0)
  noncurrent : ∀ n, r.noncurrentVersionExpiration = some n → n.noncurrentDays ≠ 0
  abort : r.abortDaysAfterInitiation ≠ some 0

/-- The first rule that is refused is refused for the length of its id, and a
character of the id goes over its fiftieth byte. -/
inductive Cuts : List String → List LifecycleRule → Prop
  | here {seen r rules} (actions : ActionsValid r) (long : 255 < r.id.utf8ByteSize)
      (within : ¬ HasBoundary 50 r.id.toList) : Cuts seen (r :: rules)
  | later {seen r rules} (actions : ActionsValid r) (short : r.id.utf8ByteSize ≤ 255)
      (unseen : r.id = "" ∨ r.id ∉ seen) (rest : Cuts (r.id :: seen) rules) : Cuts seen (r :: rules)

variable {n : Nat}

lemma takeBytes_eq_some_iff {text start : Text} : takeBytes n text = some start ↔
    start <+: text ∧ (start.map Char.utf8Size).sum = n := by
  fun_induction takeBytes n text generalizing start with
  | case1 text =>
    constructor
    · rintro ⟨⟩
      exact ⟨ nil_prefix, rfl⟩
    · rintro ⟨-, empty⟩
      cases start with
      | nil => rfl
      | cons c start =>
        rw [map_cons, sum_cons] at empty
        have := c.utf8Size_pos
        omega
  | case2 n =>
    refine iff_of_false (by simp) ?_
    rintro ⟨nothing, size⟩
    rw [prefix_nil.mp nothing] at size
    cases size
  | case3 n c text fits ih =>
    rw [Option.map_eq_some_iff]
    constructor
    · rintro ⟨rest, taken, rfl⟩
      obtain ⟨begins, size⟩ := ih.mp taken
      refine ⟨(prefix_cons_inj c).mpr begins, ?_⟩
      rw [map_cons, sum_cons, size]
      omega
    · rintro ⟨begins, size⟩
      cases start with
      | nil => cases size
      | cons b start =>
        obtain ⟨rfl, within⟩ := cons_prefix_cons.mp begins
        rw [map_cons, sum_cons] at size
        exact ⟨start, ih.mpr ⟨within, by omega⟩, rfl⟩
  | case4 n c text wide =>
    refine iff_of_false (by simp) ?_
    rintro ⟨begins, size⟩
    cases start with
    | nil => cases size
    | cons b start =>
      obtain ⟨rfl, -⟩ := cons_prefix_cons.mp begins
      rw [map_cons, sum_cons] at size
      omega

lemma exists_sliceTo {s : String} :
    (∃ start, sliceTo n s = .ok start) ↔ HasBoundary n s.toList := by
  unfold sliceTo HasBoundary
  simp only [← takeBytes_eq_some_iff]
  cases takeBytes n s.toList <;> simp

lemma sliceTo_eq_panic {s : String} (h : ¬ HasBoundary n s.toList) :
    sliceTo n s = .error .panic := by
  rw [← exists_sliceTo] at h
  unfold sliceTo at h ⊢
  cases cut : takeBytes n s.toList with
  | none => rfl
  | some start => exact absurd ⟨String.ofList start, by rw [cut]⟩ h

lemma validateRule_cases (seen : List String) (r : LifecycleRule) :
    (¬ ActionsValid r ∧ ∃ e, validateRule seen r = .error (.refused e)) ∨
      (ActionsValid r ∧ validateRule seen r =
        if 255 < r.id.utf8ByteSize then do
          let start ← sliceTo 50 r.id
          .error (.refused (invalid
            ("Rule ID '" ++ start ++ "...' exceeds maximum length of 255 characters")))
        else if r.id ≠ "" && r.id ∈ seen then
          .error (.refused (invalid ("Duplicate rule ID: '" ++ r.id ++ "'")))
        else .ok ()) := by
  unfold validateRule
  split
  · next none_given =>
      refine .inl ⟨fun valid => ?_, _, rfl⟩
      simp only [Bool.and_eq_true, Option.isNone_iff_eq_none] at none_given
      obtain ⟨⟨a, b⟩, c⟩ := none_given
      simpa [a, b, c] using valid.some_action
  · next given =>
      split
      · next zero => exact .inl ⟨fun valid => valid.days zero, _, rfl⟩
      · next days =>
          split
          · next zero =>
              refine .inl ⟨fun valid => ?_, _, rfl⟩
              cases there : r.noncurrentVersionExpiration with
              | none => simp [there] at zero
              | some n => exact valid.noncurrent n there (by simpa [there] using zero)
          · next noncurrent =>
              split
              · next zero => exact .inl ⟨fun valid => valid.abort zero, _, rfl⟩
              · next abort =>
                  refine .inr ⟨⟨?_, days, fun n there zero => ?_, abort⟩, rfl⟩
                  · rw [Bool.and_eq_true, Bool.and_eq_true, not_and_or, not_and_or] at given
                    simpa [or_assoc, Option.isSome_iff_ne_none] using given
                  · exact noncurrent (by simp [there, zero])

lemma validateRules_eq_panic_iff {seen : List String} {rules : List LifecycleRule} :
    validateRules seen rules = .error .panic ↔ Cuts seen rules := by
  induction rules generalizing seen with
  | nil => exact iff_of_false (nomatch ·) (nomatch ·)
  | cons r rules ih =>
    rw [validateRules]
    obtain ⟨invalid, e, refused⟩ | ⟨valid, checked⟩ := validateRule_cases seen r
    · rw [refused]
      refine iff_of_false (nomatch ·) fun cuts => ?_
      cases cuts with
      | here actions => exact invalid actions
      | later actions => exact invalid actions
    · rw [checked]
      by_cases long : 255 < r.id.utf8ByteSize
      · rw [if_pos long]
        by_cases boundary : HasBoundary 50 r.id.toList
        · obtain ⟨start, sliced⟩ := exists_sliceTo.mpr boundary
          rw [sliced]
          refine iff_of_false (nomatch ·) fun cuts => ?_
          cases cuts with
          | here _ _ within => exact within boundary
          | later _ short => exact absurd long (Nat.not_lt.mpr short)
        · rw [sliceTo_eq_panic boundary]
          exact iff_of_true rfl (.here valid long boundary)
      · rw [if_neg long]
        by_cases repeated : r.id ≠ "" ∧ r.id ∈ seen
        · rw [if_pos (by simpa using repeated)]
          refine iff_of_false (nomatch ·) fun cuts => ?_
          cases cuts with
          | here _ length => exact long length
          | later _ _ unseen => exact unseen.elim repeated.1 fun other => other repeated.2
        · rw [if_neg (by simpa using repeated)]
          refine ih.trans ⟨fun rest => ?_, fun cuts => ?_⟩
          · refine .later valid (Nat.not_lt.mp long) ?_ rest
            exact (not_and_or.mp repeated).imp_left not_not.mp
          · cases cuts with
            | here _ length => exact absurd length long
            | later _ _ _ rest => exact rest

lemma parse_ne_panic_iff {xs : List XmlRule} : parseLifecycleConfiguration xs ≠ .error .panic ↔
    ∀ rules, parseRules xs = .ok rules → rules.length ≤ 1000 → ¬ Cuts [] rules := by
  unfold parseLifecycleConfiguration
  cases read : parseRules xs with
  | error e => exact iff_of_true (nomatch ·) fun _ => (nomatch ·)
  | ok rules =>
    simp only [Except.ok.injEq, forall_eq']
    rw [← validateRules_eq_panic_iff]
    cases rules with
    | nil => exact iff_of_true (nomatch ·) fun _ => (nomatch ·)
    | cons r rules =>
      change (validateLifecycleConfiguration (r :: rules) >>= fun _ => pure (r :: rules)) ≠ _ ↔ _
      rw [validateLifecycleConfiguration, if_neg (by simp)]
      by_cases many : 1000 < (r :: rules).length
      · rw [if_pos many]
        exact iff_of_true (nomatch ·) fun few => absurd many (Nat.not_lt.mpr few)
      · rw [if_neg many, forall_prop_of_true (Nat.not_lt.mp many)]
        cases validateRules [] (r :: rules) with
        | ok => exact iff_of_true (nomatch ·) (nomatch ·)
        | error x =>
          change ¬ (Except.error x : Except Failure (List LifecycleRule)) = .error .panic ↔ _
          rw [Except.error.injEq, Except.error.injEq]

def retainUntil (d : DefaultRetention) (now : DateTime) : Option DateTime :=
  match d.days, d.years with
  | some days, _ => now.daysAfter days
  | none, some years => now.daysAfter (years * 365)
  | none, none => some now

lemma retainUntil_eq (d : DefaultRetention) (now : DateTime) :
    retainUntil d now = now.daysAfter d.periodDays := by
  obtain ⟨mode, days, years⟩ := d
  match days, years with
  | some days, _ => rfl
  | none, some years => rfl
  | none, none =>
    refine (DateTime.daysAfter_eq_some_iff.mpr ?_).symm
    rw [DefaultRetention.periodDays, Nat.cast_zero, zero_mul, add_zero]

lemma retained_iff {d : DefaultRetention} (positive : 0 < d.periodDays) (now : DateTime) :
    (∃ date, retainUntil d now = some date ∧ now.instant < date.instant) ↔
      now.instant + d.periodDays * dayNanos ≤ maxInstant := by
  rw [← DateTime.exists_daysAfter_iff, retainUntil_eq]
  refine exists_congr fun date => and_iff_left_of_imp fun later => ?_
  rw [DateTime.daysAfter_eq_some_iff.mp later]
  exact Int.lt_add_of_pos_right _ (Int.mul_pos (Int.natCast_pos.mpr positive) (by decide))

/-- A document does no harm exactly when the first id too long can be cut at its fiftieth byte
and all its periods lead to dates. -/
theorem configurations_harmless_iff (readDate : String → Option Instant) (xs : List XmlRule)
    (x : XmlLockConfiguration) (bucket : String) (now : DateTime) :
    (parseLifecycleConfiguration xs ≠ .error .panic ∧
      (∀ rules, parseLifecycleConfiguration xs = .ok rules → GoesOn readDate bucket now rules) ∧
      (∀ c d, parseObjectLockConfiguration x = .ok c → c.defaultRetention = some d →
        ∃ date, retainUntil d now = some date ∧ now.instant < date.instant)) ↔
    ((∀ rules, parseRules xs = .ok rules → rules.length ≤ 1000 → ¬ Cuts [] rules) ∧
      (∀ rules, parseLifecycleConfiguration xs = .ok rules → ∀ rule ∈ rules,
        rule.isSkipped readDate now.instant = false → ∀ n ∈ rule.dayCounts, now.Reaches n) ∧
      (∀ c d, parseObjectLockConfiguration x = .ok c → c.defaultRetention = some d →
        now.instant + d.periodDays * dayNanos ≤ maxInstant)) := by
  refine and_congr parse_ne_panic_iff (and_congr ?_ ?_)
  · exact forall₂_congr fun rules _ => goesOn_iff.trans exists_evaluateRules_iff
  · refine forall₂_congr fun c d => forall₂_congr fun parsed default => ?_
    exact retained_iff (periodDays_pos_of_parse parsed default) now

def dayOne : DateTime := ⟨20454 * dayNanos, by decide, by decide⟩

/-- The id has its twenty-sixth `é` over its fiftieth byte. -/
def longId : XmlRule :=
  ⟨some (String.ofList ('a' :: replicate 128 'é')), "Enabled", none, some ⟨some 1, none, none⟩, none,
    none⟩

def farRule : XmlRule :=
  ⟨some "far", "Enabled", none, some ⟨some 4294967295, none, none⟩, none, none⟩

def farDays : LifecycleRule := ⟨"far", .enabled, .empty, some (.days 4294967295), none, none⟩

def farYears : XmlLockConfiguration :=
  ⟨some "Enabled", some (some ⟨some "COMPLIANCE", none, some 4294967295⟩)⟩

/-- An id that makes the parser panic, days that keep the pass from the next bucket,
and years after which no put into the bucket returns. -/
theorem documents_panic : parseLifecycleConfiguration [longId] = .error .panic ∧
    (parseLifecycleConfiguration [farRule] = .ok [farDays] ∧
      evaluateBuckets (fun _ => none) [⟨"b", dayOne, [farDays]⟩, ⟨"c", dayOne, []⟩] = ["b"]) ∧
    parseObjectLockConfiguration farYears = .ok ⟨true, some ⟨"COMPLIANCE", none, some 4294967295⟩⟩ ∧
    retainUntil ⟨"COMPLIANCE", none, some 4294967295⟩ dayOne = none := by
  refine ⟨?_, ⟨?_, ?_⟩, ?_, ?_⟩ <;> decide +kernel

end Arca.Lifecycle
