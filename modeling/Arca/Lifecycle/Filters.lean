import Arca.Lifecycle.Selection

/-!
# Lifecycle filters

Which object versions the rules of an accepted document act on, against the
prefixes and tags that the document states. Dates are read by the time library.
-/
namespace Arca.Lifecycle
open List Option ObjectRecord

def batchSize : Nat := 100

section
variable (readDate : String → Option Instant)

/-- Current objects last modified before this instant expire. A date less than a
second ahead has passed. -/
def Expiration.cutoff (now : Instant) : Expiration → Option Instant
  | days n => some (now - n * dayNanos)
  | date text =>
    (readDate text).bind fun target =>
      if 0 < Int.tdiv (target - now) 1000000000 then none else some now
  | expiredObjectDeleteMarker _ => none

def LifecycleRule.noncurrentExpiry (rule : LifecycleRule) (now : Instant) : Option NoncurrentExpiry :=
  rule.noncurrentVersionExpiration.map fun n =>
    ⟨rule.filter.requiredPrefix, rule.filter.requiredTags, now - n.noncurrentDays * dayNanos,
      n.newerNoncurrentVersions.getD 0⟩

/-- An expiration without a cutoff skips the whole rule. -/
def LifecycleRule.isSkipped (rule : LifecycleRule) (now : Instant) : Bool :=
  rule.status ≠ .enabled || rule.expiration.any fun e => (e.cutoff readDate now).isNone

inductive Applies (rule : LifecycleRule) (now : Instant) (v : Versions) (bucket : String)
    (r : ObjectRecord) : Prop where
  | expiration (runs : rule.isSkipped readDate now = false) {e : Expiration} {cutoff : Instant}
      (action : rule.expiration = some e) (before : e.cutoff readDate now = some cutoff)
      (after : Option String) (listed : r ∈ listExpiredObjects v bucket rule.filter.requiredPrefix
        rule.filter.requiredTags cutoff after batchSize)
  | noncurrent (runs : rule.isSkipped readDate now = false) {expiry : NoncurrentExpiry}
      (action : rule.noncurrentExpiry now = some expiry) (after : Option (String × VersionPosition))
      (listed : r ∈ listNoncurrentExpiredVersions v bucket expiry after batchSize)

end

def Satisfies (e : RuleElement) (v : Versions) (r : ObjectRecord) : Prop :=
  (∀ p ∈ e.prefixes, p.toList <+: r.key.toList) ∧
    ∀ t ∈ e.tags, v.tags r.bucket r.key (tagVersion r) t.key = some t.value

/-- `And` counts before `Tag` and `Tag` before `Prefix`. -/
def inForce : Option XmlFilter → String × List XmlTag
  | none => ("", [])
  | some ⟨_, _, some a⟩ => (a.keyPrefix.getD "", a.tags)
  | some ⟨_, some t, none⟩ => ("", [t])
  | some ⟨p, none, none⟩ => (p.getD "", [])

def RuleElement.Follows (e : RuleElement) : Prop :=
  (∀ p ∈ e.prefixes, p.toList <+: (inForce e.filter).1.toList) ∧
    ∀ t ∈ e.tags, t ∈ (inForce e.filter).2

/-- No version has two values under one tag key. -/
def Consistent (tags : List XmlTag) : Prop :=
  ∀ t ∈ tags, ∀ u ∈ tags, t.key = u.key → t.value = u.value

/-- The rule acts on objects at some time: it is enabled and its expiration, if it
has one, is for a number of days or a date that can be read. -/
def XmlRule.acts (readDate : String → Option Instant) (x : XmlRule) : Bool :=
  x.status = "Enabled" && match x.expiration with
    | none => x.noncurrentVersionExpiration.isSome
    | some ⟨some _, _, _⟩ => true
    | some ⟨none, some text, _⟩ => (readDate text).isSome
    | some ⟨none, none, _⟩ => false

lemma requiredPrefix_parseFilter (f : Option XmlFilter) :
    (parseFilter f).requiredPrefix = if (inForce f).1 = "" then none else some (inForce f).1 := by
  obtain _ | ⟨p, t, a⟩ := f
  · rfl
  · obtain _ | ⟨q, tags⟩ := a
    · obtain _ | t := t
      · obtain _ | p := p
        · rfl
        · change (if p = "" then LifecycleFilter.empty else .keyPrefix p).requiredPrefix =
            if p = "" then none else some p
          split
          · rfl
          · next given => exact if_neg given
      · rfl
    · obtain _ | q := q <;> rfl

lemma requiredTags_parseFilter (f : Option XmlFilter) :
    (parseFilter f).requiredTags = (inForce f).2.map fun t => (t.key, t.value) := by
  obtain _ | ⟨p, t, a⟩ := f
  · rfl
  · obtain _ | a := a
    · obtain _ | t := t
      · obtain _ | p := p
        · rfl
        · simp only [parseFilter, inForce]
          split <;> rfl
      · rfl
    · rfl

variable {f : Option XmlFilter} {b k w : String} {rows : List ObjectRecord}
  {expiry : NoncurrentExpiry}

lemma all_requiredPrefix_iff {key : String} :
    (parseFilter f).requiredPrefix.all (inPrefixRange · key) = true ↔
      (inForce f).1.toList <+: key.toList := by
  rw [requiredPrefix_parseFilter]
  split
  · next none_given => simp [none_given]
  · simp [inPrefixRange_iff]

variable {tags : TagTable}

lemma hasTags_requiredTags_iff {r : ObjectRecord} :
    hasTags tags (parseFilter f).requiredTags r = true ↔
      ∀ t ∈ (inForce f).2, tags r.bucket r.key (tagVersion r) t.key = some t.value := by
  rw [requiredTags_parseFilter, hasTags, List.all_map, List.all_eq_true]
  simp

variable {readDate : String → Option Instant} {e : RuleElement} {rule : LifecycleRule}
  {now : Instant} {v : Versions} {bucket : String} {r : ObjectRecord}

lemma inForce_of_applies (parsed : Parsed e.toXmlRule rule)
    (h : Applies readDate rule now v bucket r) :
    (inForce e.filter).1.toList <+: r.key.toList ∧
      ∀ t ∈ (inForce e.filter).2, v.tags r.bucket r.key (tagVersion r) t.key = some t.value := by
  cases h with
  | expiration runs action before after listed =>
    obtain ⟨row, -, rfl, expired⟩ := mem_listExpiredObjects listed
    simp only [expiredRow, parsed.filter, Bool.and_eq_true] at expired
    exact ⟨all_requiredPrefix_iff.mp expired.1.2, hasTags_requiredTags_iff.mp expired.2⟩
  | noncurrent runs action after listed =>
    obtain ⟨n, -, rfl⟩ := map_eq_some_iff.mp action
    obtain ⟨row, inside, rfl, -, tagged⟩ := mem_listNoncurrentExpiredVersions listed
    simp only [versionsInRange, parsed.filter, mem_filter, Bool.and_eq_true] at inside
    rw [parsed.filter] at tagged
    exact ⟨all_requiredPrefix_iff.mp inside.2.2, hasTags_requiredTags_iff.mp tagged⟩

lemma runs_iff : rule.isSkipped readDate now = false ↔ rule.status = .enabled ∧
    ∀ e, rule.expiration = some e → (e.cutoff readDate now).isSome = true := by
  unfold LifecycleRule.isSkipped
  rw [Bool.or_eq_false_iff]
  refine and_congr (by simp) ?_
  cases rule.expiration with
  | none => simp
  | some e => simp only [any_some, isNone_eq_false_iff, some.injEq, forall_eq']

lemma status_eq_enabled_iff (parsed : Parsed e.toXmlRule rule) :
    rule.status = .enabled ↔ e.status = "Enabled" := by
  have status := parsed.status
  unfold parseStatus at status
  split at status
  · next enabled =>
      rw [← Except.ok.inj status]
      exact iff_of_true rfl enabled
  · next other =>
      refine iff_of_false (fun enabled => ?_) other
      rw [enabled] at status
      split at status <;> cases status

lemma acts_of_applies (parsed : Parsed e.toXmlRule rule)
    (h : Applies readDate rule now v bucket r) : e.acts readDate = true := by
  have runs : rule.isSkipped readDate now = false := by
    cases h <;> assumption
  obtain ⟨enabled, cutoffs⟩ := runs_iff.mp runs
  rw [XmlRule.acts, Bool.and_eq_true]
  refine ⟨by simpa using (status_eq_enabled_iff parsed).mp enabled, ?_⟩
  have expiration := parsed.expiration
  have noncurrent := parsed.noncurrent
  cases given : e.expiration with
  | none =>
    rw [given] at expiration
    have none_parsed : rule.expiration = none := (Except.ok.inj expiration).symm
    cases h with
    | expiration runs action => cases none_parsed.symm.trans action
    | noncurrent runs action =>
      obtain ⟨n, parsed_some, -⟩ := map_eq_some_iff.mp action
      cases stated : e.noncurrentVersionExpiration with
      | none =>
        rw [stated, parsed_some] at noncurrent
        cases noncurrent
      | some => rfl
  | some x =>
    obtain ⟨days, date, marker⟩ := x
    rw [given] at expiration
    cases days with
    | some days => rfl
    | none =>
      cases date with
      | some text =>
        have some_cutoff := cutoffs _ (Except.ok.inj expiration).symm
        cases read : readDate text with
        | none =>
          rw [Expiration.cutoff, read] at some_cutoff
          cases some_cutoff
        | some target =>
          dsimp only
          rw [read]
          rfl
      | none =>
        cases marker with
        | none => cases expiration
        | some flag =>
          have some_cutoff := cutoffs _ (Except.ok.inj expiration).symm
          cases some_cutoff

def tagsInForce (tags : List XmlTag) : TagTable :=
  fun _ _ _ key => (tags.find? fun t => t.key = key).map XmlTag.value

lemma tagsInForce_eq_some {tags : List XmlTag} {t : XmlTag}
    (h : tagsInForce tags b k w t.key = some t.value) : t ∈ tags := by
  obtain ⟨u, found, value⟩ := map_eq_some_iff.mp h
  have same : u = t := by
    have key : u.key = t.key := by simpa using find?_some found
    cases t
    cases key
    cases value
    rfl
  exact same ▸ mem_of_find?_eq_some found

lemma tagsInForce_of_mem {tags : List XmlTag} (consistent : Consistent tags)
    {t : XmlTag} (mem : t ∈ tags) : tagsInForce tags b k w t.key = some t.value := by
  unfold tagsInForce
  cases found : tags.find? fun u => u.key = t.key with
  | none => exact absurd (by simp) (find?_eq_none.mp found t mem)
  | some u =>
    have key : u.key = t.key := by simpa using find?_some found
    exact congrArg some (consistent u (mem_of_find?_eq_some found) t mem key)

variable (key : String)

def sampleVersion (isLatest : Bool) (n : Nat) : ObjectRecord :=
  { written with
    bucket := "b", key, isLatest, lastModified := n, versionId := some (toString n) }

lemma exists_cutoff {x : Expiration} (readable : ∀ text, x = .date text → (readDate text).isSome = true)
    (marker : ∀ flag, x ≠ .expiredObjectDeleteMarker flag) :
    ∃ now cutoff, x.cutoff readDate now = some cutoff ∧ (0 : Int) < cutoff := by
  cases x with
  | days n =>
    refine ⟨n * dayNanos + 1, _, rfl, ?_⟩
    rw [add_sub_cancel_left]
    exact Int.one_pos
  | date text =>
    obtain ⟨target, read⟩ := isSome_iff_exists.mp (readable text rfl)
    refine ⟨max target 1, max target 1, ?_, lt_of_lt_of_le Int.one_pos (le_max_right ..)⟩
    have passed : ¬ 0 < Int.tdiv (target - max target 1) 1000000000 := by
      have nonpos : target - max target 1 ≤ 0 := sub_nonpos.mpr (le_max_left ..)
      have le := Int.tdiv_le_tdiv (show (0 : Int) < 1000000000 by decide) nonpos
      exact not_lt.mpr (le.trans_eq (Int.zero_tdiv _))
    rw [Expiration.cutoff, read, bind_some, if_neg passed]
  | expiredObjectDeleteMarker flag => exact absurd rfl (marker flag)

lemma listExpiredObjects_single {row : ObjectRecord} {keyPrefix : Option String}
    {wanted : List (String × String)} {cutoff : Instant}
    (expired : expiredRow ⟨[row], tags⟩ bucket keyPrefix wanted cutoff row = true) :
    listExpiredObjects ⟨[row], tags⟩ bucket keyPrefix wanted cutoff none batchSize =
      [ObjectTable.selected row] := by
  simp [listExpiredObjects, expired, batchSize]

variable (n : Nat)

/-- The versions of a key from the newest on, which is the current one. -/
def chain : List ObjectRecord :=
  (List.range (n + 1)).reverse.map fun i => sampleVersion key (i = n) i

def newerVersions : List ObjectRecord :=
  (List.range (n + 1)).reverse.map fun i => sampleVersion key (i = n) (i + 1)

lemma chain_succ : chain key (n + 1) = newerVersions key n ++ [sampleVersion key false 0] := by
  rw [chain, newerVersions, range_succ_eq_map]
  simp [Function.comp_def, map_reverse]

lemma pairwise_chain : (chain key n).Pairwise newerFirst := by
  rw [chain, pairwise_map, pairwise_reverse]
  refine pairwise_lt_range.imp fun lt => .inl ?_
  exact Int.ofNat_lt.mpr lt

lemma windows_append (since : Option Instant) (rank : Nat) (front rows : List ObjectRecord) :
    windows since rank (front ++ rows) = windows since rank front ++
      windows ((front.getLast?.map lastModified).or since)
        (rank + front.countP isNoncurrent) rows := by
  induction front generalizing since rank with
  | nil => simp [windows]
  | cons r front ih =>
    have last : ((r :: front).getLast?.map lastModified).or since =
        (front.getLast?.map lastModified).or (some r.lastModified) := by
      rw [getLast?_cons]
      cases front.getLast? <;> rfl
    have count : rank + (r :: front).countP isNoncurrent =
        (if isNoncurrent r then rank + 1 else rank) + front.countP isNoncurrent := by
      rw [countP_cons]
      split <;> omega
    simp only [cons_append, windows, ih, last, count]

lemma rank_le_of_mem_windows {since : Option Instant} {rank : Nat}
    {w : ObjectRecord × Option Instant × Nat} (h : w ∈ windows since rank rows) :
    w.2.2 ≤ rank + rows.countP isNoncurrent := by
  induction rows generalizing since rank with
  | nil => cases h
  | cons r rows ih =>
    rw [countP_cons]
    obtain rfl | h := mem_cons.mp h
    · dsimp only
      split <;> omega
    · have le := ih h
      split at le <;> next counted => simp only [counted, if_true, Bool.false_eq_true, if_false]; omega

variable {key : String}

lemma mem_chain {n : Nat} (h : r ∈ chain key n) :
    r.bucket = "b" ∧ r.key = key ∧ r.isTombstone = false := by
  obtain ⟨i, -, rfl⟩ := mem_map.mp h
  exact ⟨rfl, rfl, rfl⟩

lemma countP_newerVersions : (newerVersions key n).countP isNoncurrent = n := by
  have below : (List.range n).countP
      (isNoncurrent ∘ fun i => sampleVersion key (i = n) (i + 1)) = (List.range n).length := by
    refine countP_eq_length.mpr fun i mem => ?_
    simp [isNoncurrent, sampleVersion, (mem_range.mp mem).ne, written]
  rw [newerVersions, countP_map, countP_reverse, range_succ, countP_append, below,
    length_range]
  simp [isNoncurrent, sampleVersion]

lemma getLast_newerVersions :
    (newerVersions key n).getLast?.map lastModified = some 1 := by
  rw [newerVersions, getLast?_map, getLast?_reverse, range_succ_eq_map]
  rfl

/-- Of the versions of a chain only the oldest ranks below the newer ones. -/
lemma filter_windows_chain (old : (1 : Int) < expiry.cutoff)
    (tagged : hasTags tags expiry.tags (sampleVersion key false 0) = true) :
    ((windows none 0 (chain key (expiry.keepNewer + 1))).filter fun w =>
      expiredVersion ⟨rows, tags⟩ expiry w && Option.all (comesAfter w.1) none) =
      [(sampleVersion key false 0, some 1, expiry.keepNewer + 1)] := by
  have none_newer : ((windows none 0 (newerVersions key expiry.keepNewer)).filter fun w =>
      expiredVersion ⟨rows, tags⟩ expiry w && Option.all (comesAfter w.1) none) = [] := by
    refine filter_eq_nil_iff.mpr fun w mem => ?_
    have le := rank_le_of_mem_windows mem
    rw [countP_newerVersions] at le
    simp [expiredVersion, not_lt.mpr (show w.2.2 ≤ expiry.keepNewer by omega)]
  rw [chain_succ, windows_append, filter_append, none_newer, countP_newerVersions,
    getLast_newerVersions]
  have oldest : expiredVersion ⟨rows, tags⟩ expiry
      (sampleVersion key false 0, some 1, expiry.keepNewer + 1) = true := by
    simpa [expiredVersion, old, isNoncurrent, sampleVersion, written] using tagged
  have single : windows ((some 1).or none) (0 + expiry.keepNewer) [sampleVersion key false 0] =
      [(sampleVersion key false 0, some 1, expiry.keepNewer + 1)] := by
    rw [Nat.zero_add]
    rfl
  rw [single, nil_append, filter_singleton, oldest]
  rfl

lemma listNoncurrentExpiredVersions_chain
    (fits : expiry.keyPrefix.all (inPrefixRange · key) = true) (old : (1 : Int) < expiry.cutoff)
    (tagged : hasTags tags expiry.tags (sampleVersion key false 0) = true) :
    listNoncurrentExpiredVersions ⟨chain key (expiry.keepNewer + 1), tags⟩ "b" expiry none batchSize =
      [ObjectTable.selected (sampleVersion key false 0)] := by
  have all : versionsInRange ⟨chain key (expiry.keepNewer + 1), tags⟩ "b" expiry =
      chain key (expiry.keepNewer + 1) := by
    refine filter_eq_self.mpr fun r mem => ?_
    obtain ⟨bucket, same, live⟩ := mem_chain mem
    simp [bucket, same, live, fits]
  have keys : (chain key (expiry.keepNewer + 1)).map ObjectRecord.key =
      List.replicate (expiry.keepNewer + 2) key := by
    simp [eq_replicate_iff, chain, sampleVersion]
  have whole : ((chain key (expiry.keepNewer + 1)).filter fun r => r.key = key) =
      chain key (expiry.keepNewer + 1) :=
    filter_eq_self.mpr fun r mem => by simp [(mem_chain mem).2.1]
  have one_key : [key].insertionSort (· ≤ ·) = [key] := rfl
  unfold listNoncurrentExpiredVersions
  simp only [all, keys]
  rw [replicate_dedup (by omega), one_key, flatMap_singleton, whole,
    (pairwise_chain key _).insertionSort_eq, filter_windows_chain old tagged]
  rfl

section
variable (parsed : Parsed e.toXmlRule rule)
include parsed

lemma noncurrent_of_acts (acts : e.acts readDate = true)
    (stated : e.expiration = none) :
    rule.expiration = none ∧ ∃ n, rule.noncurrentVersionExpiration = some n := by
  have expiration := parsed.expiration
  have noncurrent := parsed.noncurrent
  rw [stated] at expiration
  rw [XmlRule.acts, stated, Bool.and_eq_true] at acts
  refine ⟨(Except.ok.inj expiration).symm, ?_⟩
  obtain ⟨x, eq⟩ := isSome_iff_exists.mp acts.2
  rw [eq] at noncurrent
  obtain ⟨days, newer⟩ := x
  cases days with
  | some days => exact ⟨_, (Except.ok.inj noncurrent).symm⟩
  | none =>
    cases newer with
    | some newer => exact ⟨_, (Except.ok.inj noncurrent).symm⟩
    | none => cases noncurrent

lemma cutoff_of_acts (acts : e.acts readDate = true)
    {x : XmlExpiration} (stated : e.expiration = some x) :
    ∃ action now cutoff, rule.expiration = some action ∧
      action.cutoff readDate now = some cutoff ∧ (0 : Int) < cutoff := by
  have expiration := parsed.expiration
  rw [stated] at expiration
  rw [XmlRule.acts, stated, Bool.and_eq_true] at acts
  have reached : ∀ action : Expiration, rule.expiration = some action →
      (∀ text, action = .date text → (readDate text).isSome = true) →
      (∀ flag, action ≠ .expiredObjectDeleteMarker flag) →
      ∃ action now cutoff, rule.expiration = some action ∧
        action.cutoff readDate now = some cutoff ∧ (0 : Int) < cutoff := by
    intro action parsed_some readable marker
    obtain ⟨now, cutoff, eq, pos⟩ := exists_cutoff readable marker
    exact ⟨action, now, cutoff, parsed_some, eq, pos⟩
  obtain ⟨days, date, flag⟩ := x
  cases days with
  | some days =>
    exact reached _ (Except.ok.inj expiration).symm (fun _ eq => nomatch eq) fun _ eq => nomatch eq
  | none =>
    cases date with
    | some text =>
      refine reached _ (Except.ok.inj expiration).symm (fun _ eq => ?_) fun _ eq => nomatch eq
      cases eq
      exact acts.2
    | none => cases acts.2

lemma exists_applies (acts : e.acts readDate = true)
    (consistent : Consistent (inForce e.filter).2)
    (fits : (inForce e.filter).1.toList <+: key.toList) :
    ∃ now rows r, Applies readDate rule now ⟨rows, tagsInForce (inForce e.filter).2⟩ "b" r ∧
      r.key = key := by
  have enabled : rule.status = .enabled := by
    rw [XmlRule.acts, Bool.and_eq_true] at acts
    exact (status_eq_enabled_iff parsed).mpr (by simpa using acts.1)
  have matching : rule.filter.requiredPrefix.all (inPrefixRange · key) = true := by
    rw [parsed.filter]
    exact all_requiredPrefix_iff.mpr fits
  have tagged : ∀ r : ObjectRecord,
      hasTags (tagsInForce (inForce e.filter).2) rule.filter.requiredTags r = true := by
    intro r
    rw [parsed.filter]
    exact hasTags_requiredTags_iff.mpr fun t mem => tagsInForce_of_mem consistent mem
  cases stated : e.expiration with
  | some x =>
    obtain ⟨action, now, cutoff, parsed_some, eq, pos⟩ := cutoff_of_acts parsed acts stated
    have runs : rule.isSkipped readDate now = false := by
      refine runs_iff.mpr ⟨enabled, fun other same => ?_⟩
      cases parsed_some.symm.trans same
      rw [eq]
      rfl
    refine ⟨now, [sampleVersion key true 0], ObjectTable.selected (sampleVersion key true 0),
      .expiration runs parsed_some eq none ?_, rfl⟩
    rw [listExpiredObjects_single, mem_singleton]
    simp only [expiredRow, tagged, Bool.and_true, Bool.and_eq_true]
    exact ⟨⟨⟨⟨rfl, rfl⟩, rfl⟩, decide_eq_true pos⟩, matching⟩
  | none =>
    obtain ⟨parsed_none, n, parsed_some⟩ := noncurrent_of_acts parsed acts stated
    have runs : rule.isSkipped readDate (n.noncurrentDays * dayNanos + 2) = false := by
      refine runs_iff.mpr ⟨enabled, fun other same => ?_⟩
      cases parsed_none.symm.trans same
    obtain ⟨expiry, action, same_start, same_tags, old⟩ : ∃ expiry,
        rule.noncurrentExpiry (n.noncurrentDays * dayNanos + 2) = some expiry ∧
          expiry.keyPrefix = rule.filter.requiredPrefix ∧ expiry.tags = rule.filter.requiredTags ∧
          (1 : Int) < expiry.cutoff := by
      refine ⟨_, congrArg _ parsed_some, rfl, rfl, ?_⟩
      dsimp only
      rw [add_sub_cancel_left]
      decide
    refine ⟨_, chain key (expiry.keepNewer + 1), ObjectTable.selected (sampleVersion key false 0),
      .noncurrent runs action none ?_, rfl⟩
    rw [listNoncurrentExpiredVersions_chain (same_start ▸ matching) old (same_tags ▸ tagged _),
      mem_singleton]

end

/-- Among the keys of objects, which are not empty, a prefix that follows from
another starts it. -/
lemma prefix_of_keys {p q : String}
    (h : ∀ key : String, key ≠ "" → q.toList <+: key.toList → p.toList <+: key.toList) :
    p.toList <+: q.toList := by
  by_cases some_prefix : q = ""
  · subst some_prefix
    have first := h "a" (by decide) nil_prefix
    have second := h "b" (by decide) nil_prefix
    cases text : p.toList with
    | nil => exact nil_prefix
    | cons c rest =>
      rw [text] at first second
      have is_a : c = 'a' := (cons_prefix_cons.mp first).1
      have is_b : c = 'b' := (cons_prefix_cons.mp second).1
      cases is_a.symm.trans is_b
  · exact h q some_prefix (prefix_refl _)

lemma follows_of_respected (parsed : Parsed e.toXmlRule rule) (acts : e.acts readDate = true)
    (consistent : Consistent (inForce e.filter).2)
    (respected : ∀ now v bucket r, Applies readDate rule now v bucket r → Satisfies e v r) :
    e.Follows := by
  refine ⟨fun p mem => prefix_of_keys fun key _ fits => ?_, fun t mem => ?_⟩
  · obtain ⟨now, rows, r, applies, rfl⟩ := exists_applies parsed acts consistent fits
    exact (respected now _ "b" r applies).1 p mem
  · obtain ⟨now, rows, r, applies, -⟩ :=
      exists_applies parsed acts consistent (prefix_refl (inForce e.filter).1.toList)
    have value : tagsInForce _ r.bucket r.key (tagVersion r) t.key = some t.value :=
      (respected now _ "b" r applies).2 t mem
    exact tagsInForce_eq_some value

lemma respected_of_follows (parsed : Parsed e.toXmlRule rule)
    (follows : e.acts readDate = true → Consistent (inForce e.filter).2 → e.Follows)
    (applies : Applies readDate rule now v bucket r) : Satisfies e v r := by
  obtain ⟨fits, tagged⟩ := inForce_of_applies parsed applies
  have consistent : Consistent (inForce e.filter).2 := by
    intro t mem u mem' same
    have first := tagged t mem
    rw [same, tagged u mem'] at first
    exact (some.inj first).symm
  obtain ⟨prefixes, tags⟩ := follows (acts_of_applies parsed applies) consistent
  exact ⟨fun p mem => (prefixes p mem).trans fits, fun t mem => tagged t (tags t mem)⟩

lemma exists_mem_zip {α β : Type} {as : List α} {bs : List β} (same : as.length = bs.length) {a : α}
    (mem : a ∈ as) : ∃ b, (a, b) ∈ as.zip bs := by
  rw [← map_fst_zip same.le] at mem
  obtain ⟨⟨_, b⟩, paired, rfl⟩ := mem_map.mp mem
  exact ⟨b, paired⟩

/-- **The rules of an accepted document act only on versions that meet all their conditions,
exactly when every prefix and tag of an element follows from those in force.** -/
theorem filters_honoured_iff (readDate : String → Option Instant) {document : List RuleElement}
    {rules : List LifecycleRule}
    (accepted : parseLifecycleConfiguration (document.map RuleElement.toXmlRule) = .ok rules) :
    (∀ e rule, (e, rule) ∈ document.zip rules → ∀ now v bucket r,
      Applies readDate rule now v bucket r → Satisfies e v r) ↔
      ∀ e ∈ document, e.acts readDate = true → Consistent (inForce e.filter).2 → e.Follows := by
  have all := forall₂_map_left_iff.mp (forall₂_of_parse accepted)
  constructor
  · intro respected e mem acts consistent
    obtain ⟨rule, paired⟩ := exists_mem_zip all.length_eq mem
    have parsed := (forall₂_iff_zip.mp all).2 paired
    exact follows_of_respected (parsed_of_parseRule parsed) acts consistent (respected e rule paired)
  · intro follows e rule paired now v bucket r applies
    have parsed := parsed_of_parseRule ((forall₂_iff_zip.mp all).2 paired)
    exact respected_of_follows parsed (follows e (of_mem_zip paired).1) applies

/-- Objects below `logs/` with a tag, in the form in which the tag hides the prefix. -/
def prefixAndTag : List RuleElement :=
  [⟨⟨some "tmp", "Enabled", some ⟨some "logs/", some ⟨"class", "temp"⟩, none⟩,
    some ⟨some 1, none, none⟩, none, none⟩, []⟩]

def tagOnly : LifecycleRule :=
  ⟨"tmp", .enabled, .tag "class" "temp", some (.days 1), none, none⟩

theorem filters_honoured_iff_prefixAndTag :
    parseLifecycleConfiguration (prefixAndTag.map RuleElement.toXmlRule) = .ok [tagOnly] ∧
    ((∀ e rule, (e, rule) ∈ prefixAndTag.zip [tagOnly] → ∀ now v bucket r,
      Applies (fun _ => none) rule now v bucket r → Satisfies e v r) ↔
      ∀ e ∈ prefixAndTag, e.acts (fun _ => none) = true → Consistent (inForce e.filter).2 →
        e.Follows) := by
  have accepted : parseLifecycleConfiguration (prefixAndTag.map RuleElement.toXmlRule) =
      .ok [tagOnly] := by
    decide +kernel
  exact ⟨accepted, filters_honoured_iff (fun _ => none) accepted⟩

def tagged : Versions :=
  ⟨[sampleVersion "data/1" true 0], fun _ _ _ key => if key = "class" then some "temp" else none⟩

/-- The accepted rule expires an object that its prefix does not allow. -/
theorem prefix_beside_tag_ignored :
    parseLifecycleConfiguration (prefixAndTag.map RuleElement.toXmlRule) = .ok [tagOnly] ∧
      (listExpiredObjects tagged "b" tagOnly.filter.requiredPrefix tagOnly.filter.requiredTags 1 none
        batchSize).map ObjectRecord.key = ["data/1"] ∧
      prefixAndTag.flatMap RuleElement.prefixes = ["logs/"] ∧
      ¬ "logs/".toList <+: "data/1".toList := by
  refine ⟨?_, ?_, ?_, ?_⟩ <;> decide +kernel

end Arca.Lifecycle
