import Arca.Auth.Canonical
import Arca.Auth.SignedHeaders
import Arca.Handlers.Parameters
import Arca.Lib.Spelling
import Arca.Security.ActionAgreement

/-!
# What a signature says of the operation

A signature covers the decoded pairs of the query, in any order, and the headers it
names. The handlers look at the text of the query as it was sent, at the first or the
last value of a parameter, and at one header. The requests are path-style, as the
handlers receive them.
-/
namespace Arca.Security
open Auth Http Handlers List Option Handlers ObjectConfig

structure SameSigned (env : Environment) (names : List Text) (r r' : Request) : Prop where
  method : r'.method = r.method
  uri : canonicalUri r'.uri.path = canonicalUri r.uri.path
  query : canonicalQueryString env.primitives (r'.uri.query.getD []) =
    canonicalQueryString env.primitives (r.uri.query.getD [])
  headers : selectHeaders env.primitives (headerTexts env r') names =
    selectHeaders env.primitives (headerTexts env r) names
  payload : payloadHash r'.headers = payloadHash r.headers

/-- The operation that the handlers select, with the values of the parameters it
reads. -/
def run (P : Primitives) (target : Target) (method : Method) (query : Text) (copySource : Bool) :
    Option (Operation × List (Option Text)) :=
  (dispatch P target method query copySource).map fun op => (op, op.paramValues (queryPairs P query))

def command (P : Primitives) (r : Request) : Target × Option (Operation × List (Option Text)) :=
  let target := Target.ofPath r.uri.path
  (target, run P target r.method (r.uri.query.getD []) (hasCopySource r.headers))

section signatures
variable {env : Environment} {names : List Text} {r r' : Request}

lemma canonicalUri_path (uri : Uri) : canonicalUri uri.path = uri.path := by
  have rooted := uri.rooted
  rw [canonicalUri, if_neg]
  intro empty
  simp [empty] at rooted

lemma SameSigned.path (h : SameSigned env names r r') : r'.uri.path = r.uri.path := by
  have same := h.uri
  rwa [canonicalUri_path, canonicalUri_path] at same

/-- Another text of the same pairs, in any order. -/
def Respelled (P : Primitives) (q q' : Text) : Prop := '#' ∉ q' ∧ (queryPairs P q').Perm (queryPairs P q)

/-- Neither another spelling of the query nor an unsigned copy source makes a
difference. -/
def Fixed (P : Primitives) (target : Target) (method : Method) (q : Text) (copySource : Bool)
    (signed : Prop) : Prop :=
  ∀ q' copySource', Respelled P q q' → (signed → copySource' = copySource) →
    run P target method q' copySource' = run P target method q copySource

def copySourceHeader : HeaderName := header "x-amz-copy-source" (by decide)

lemma hasCopySource_iff (headers : Headers) :
    hasCopySource headers = true ↔ headers.values copySourceName ≠ [] := by
  rw [hasCopySource, Headers.get_eq_head?, isSome_head?]

lemma payloadHash_withValues (headers : Headers) (values : List Bytes) :
    payloadHash (headers.withValues copySourceHeader values) = payloadHash headers := by
  have other : "x-amz-content-sha256".toList ≠ copySourceHeader.val := by decide
  rw [payloadHash, payloadHash, Headers.getStr, Headers.getStr, Headers.get_eq_head?, Headers.get_eq_head?,
    Headers.values_withValues_of_ne headers other]

/-- Headers with or without a copy source that are otherwise the same. -/
lemma exists_headers (P : Primitives) (headers : Headers) {copySource : Bool}
    (h : Signs P names copySourceName → copySource = hasCopySource headers) :
    ∃ headers' : Headers, hasCopySource headers' = copySource ∧ payloadHash headers' = payloadHash headers ∧
      ∀ name, Signs P names name → headers'.values name = headers.values name := by
  by_cases signed : Signs P names copySourceName
  · exact ⟨headers, (h signed).symm, rfl, fun _ _ => rfl⟩
  · let values : List Bytes := if copySource then [[]] else []
    refine ⟨headers.withValues copySourceHeader values, ?_, payloadHash_withValues headers values, ?_⟩
    · have own : (headers.withValues copySourceHeader values).values copySourceName = values :=
        Headers.values_withValues_self headers copySourceHeader values
      rw [Bool.eq_iff_iff, hasCopySource_iff, own]
      cases copySource <;> simp [values]
    · intro name signs
      apply Headers.values_withValues_of_ne
      rintro rfl
      exact signed signs

lemma command_fixed_iff :
    (∀ r', SameSigned env names r r' → command env.primitives r' = command env.primitives r) ↔
      Fixed env.primitives (Target.ofPath r.uri.path) r.method (r.uri.query.getD [])
        (hasCopySource r.headers) (Signs env.primitives names copySourceName) := by
  constructor
  · rintro same q' copySource ⟨hash, perm⟩ signed
    obtain ⟨headers, copy, payload, values⟩ := exists_headers env.primitives r.headers signed
    let r' : Request := ⟨r.method, { r.uri with query := some q', unhashed := hash }, headers⟩
    have signature : SameSigned env names r r' :=
      { method := rfl
        uri := rfl
        query := canonicalQueryString_eq_iff.mpr perm
        headers := selectHeaders_of_values rfl values
        payload := payload }
    have commands := congrArg Prod.snd (same r' signature)
    simp only [command, r', getD_some, copy] at commands
    exact commands
  · intro fixed r' signature
    have copy : Signs env.primitives names copySourceName →
        hasCopySource r'.headers = hasCopySource r.headers := by
      intro signs
      rw [Bool.eq_iff_iff, hasCopySource_iff, hasCopySource_iff, ne_eq, ne_eq,
        values_eq_nil_iff_of_selectHeaders signs (by decide) signature.headers]
    simp only [command, signature.path, signature.method]
    rw [fixed _ _ ⟨r'.uri.unhashed, canonicalQueryString_eq_iff.mp signature.query⟩ copy]

end signatures

section spellings
variable {P : Primitives} {q q' w : Text} {words : List Text} {p : Text × Text}

lemma lossy (P : Primitives) : FormQuery.Lossy P.fromUtf8Lossy :=
  ⟨P.fromUtf8Lossy_toUtf8, P.fromUtf8Lossy_ascii⟩

/-- No key or value can be spelled with one of the words. -/
def WordFree (P : Primitives) (words : List Text) (pairs : List (Text × Text)) : Prop :=
  ∀ w ∈ words, ∀ p ∈ pairs,
    ¬ (FormQuery.Spelled P.fromUtf8Lossy w p.1 ∨ FormQuery.Spelled P.fromUtf8Lossy w p.2)

/-- No key begins with one of the words. -/
def KeyFree (words : List Text) (pairs : List (Text × Text)) : Prop :=
  ∀ w ∈ words, ∀ p ∈ pairs, ¬ w <+: p.1

def Probes (words : List Text) : Prop := ∀ w ∈ words, FormQuery.IsProbe w

instance (words : List Text) : Decidable (Probes words) := inferInstanceAs (Decidable (∀ _ ∈ _, _))

def SmallWords (words : List Text) : Prop := ∀ w ∈ words, FormQuery.IsSmallWord w

instance (words : List Text) : Decidable (SmallWords words) := inferInstanceAs (Decidable (∀ _ ∈ _, _))

lemma WordFree.not_infix (free : WordFree P words (queryPairs P q)) (probes : Probes words)
    (spelling : Respelled P q q') (member : w ∈ words) : ¬ w <:+: q' := by
  intro inside
  obtain ⟨p, found, spelled⟩ := FormQuery.spelled_of_contains (lossy P) (probes w member) inside
  exact free w member p (spelling.2.mem_iff.mp found) spelled

lemma KeyFree.not_prefix (free : KeyFree words (queryPairs P q)) (small : SmallWords words)
    (spelling : Respelled P q q') (member : w ∈ words) : ¬ w <+: q' := by
  intro start
  obtain ⟨p, found, key⟩ :=
    FormQuery.key_of_prefix (lossy P) (small w member) start
  exact free w member p (spelling.2.mem_iff.mp found) key

lemma KeyFree.not_amp (free : KeyFree words (queryPairs P q)) (small : SmallWords words)
    (spelling : Respelled P q q') (member : w ∈ words) : ¬ '&' :: w <:+: q' := by
  intro inside
  obtain ⟨p, found, key⟩ :=
    FormQuery.key_of_amp (lossy P) (small w member) inside
  exact free w member p (spelling.2.mem_iff.mp found) key

lemma exists_plain {l : List (Text × Text)} (perm : l.Perm (queryPairs P q)) :
    ∃ q', Respelled P q q' ∧ queryPairs P q' = l ∧ ∀ w, FormQuery.IsSmallWord w → ¬ w <:+: q' := by
  obtain ⟨q', hash, read, plain⟩ := FormQuery.exists_escaped (lossy P) l
  have pairs : queryPairs P q' = l := read
  exact ⟨q', ⟨hash, by rw [pairs]; exact perm⟩, pairs, plain⟩

lemma exists_containing_of_not_wordFree (probes : Probes words)
    (h : ¬ WordFree P words (queryPairs P q)) : ∃ q', Respelled P q q' ∧ ∃ w ∈ words, w <:+: q' := by
  simp only [WordFree, not_forall, not_not] at h
  obtain ⟨w, member, p, found, spelled⟩ := h
  obtain ⟨q', hash, read, inside⟩ := FormQuery.exists_containing (lossy P) (probes w member) found spelled
  have pairs : queryPairs P q' = queryPairs P q := read
  exact ⟨q', ⟨hash, by rw [pairs]⟩, w, member, inside⟩

lemma exists_starting_of_not_keyFree (small : SmallWords words)
    (h : ¬ KeyFree words (queryPairs P q)) : ∃ q', Respelled P q q' ∧ ∃ w ∈ words, w <+: q' := by
  simp only [KeyFree, not_forall, not_not] at h
  obtain ⟨w, member, p, found, start⟩ := h
  obtain ⟨q', hash, perm, inside⟩ :=
    FormQuery.exists_starting (lossy P) (small w member).1 found start
  exact ⟨q', ⟨hash, perm⟩, w, member, inside⟩

lemma Respelled.amp_cons (h : Respelled P q q') : Respelled P q ('&' :: q') := by
  have pairs : queryPairs P ('&' :: q') = queryPairs P q' := by
    exact FormQuery.parse_amp_cons _
  refine ⟨?_, by rw [pairs]; exact h.2⟩
  intro member
  obtain absurd | member := mem_cons.mp member
  · cases absurd
  · exact h.1 member

end spellings

section dispatching
variable {P : Primitives} {target : Target} {method : Method} {q : Text} {copySource : Bool} {signed : Prop}

def valued (op : Operation) (pairs : List (Text × Text)) : Operation × List (Option Text) :=
  (op, op.paramValues pairs)

/-- What the handler does where no word in the text decides. -/
def ContentFixed (content : List (Text × Text) → Bool → Operation) (pairs : List (Text × Text))
    (copySource : Bool) (signed : Prop) : Prop :=
  ∀ l copySource', l.Perm pairs → (signed → copySource' = copySource) →
    valued (content l copySource') l = valued (content pairs copySource) pairs

variable {content : List (Text × Text) → Bool → Operation}

/-- A handler that first tests the text of the query: every spelling can be made to fail the
test. -/
lemma fixed_iff_of_test (hash : '#' ∉ q) {free : Prop} (test : Text → Prop)
    (reach : ¬ free → ∃ q', Respelled P q q' ∧ test q')
    (absent : free → ∀ q', Respelled P q q' → ¬ test q')
    (plain : ∀ q', (∀ w, FormQuery.IsSmallWord w → ¬ w <:+: q') → ¬ test q')
    (content_eq : ∀ q' c, ¬ test q' → dispatch P target method q' c = some (content (queryPairs P q') c))
    (special : ∀ q' c l c', test q' → dispatch P target method q' c ≠ some (content l c')) :
    Fixed P target method q copySource signed ↔
      free ∧ ContentFixed content (queryPairs P q) copySource signed := by
  have run_eq : ∀ q' c, ¬ test q' →
      run P target method q' c = some (valued (content (queryPairs P q') c) (queryPairs P q')) := by
    intro q' c failed
    rw [run, content_eq q' c failed]
    rfl
  constructor
  · intro fixed
    obtain ⟨plainQuery, spelling, pairs, words⟩ := exists_plain (List.Perm.refl (queryPairs P q))
    have base := fixed plainQuery copySource spelling fun _ => rfl
    rw [run_eq _ _ (plain _ words), pairs] at base
    constructor
    · by_contra spelled
      obtain ⟨q', spelling', passed⟩ := reach spelled
      have other := fixed q' copySource spelling' fun _ => rfl
      rw [← base, run] at other
      obtain ⟨op, selected, eq⟩ := map_eq_some_iff.mp other
      rw [(Prod.mk.inj eq).1] at selected
      exact special q' copySource _ _ passed selected
    · intro l copySource' perm same
      obtain ⟨q', spelling', pairs', words'⟩ := exists_plain perm
      have other := fixed q' copySource' spelling' same
      rw [run_eq _ _ (plain _ words'), pairs', ← base] at other
      exact some.inj other
  · rintro ⟨words, settled⟩ q' copySource' spelling same
    rw [run_eq q' copySource' (absent words q' spelling),
      run_eq q copySource (absent words q ⟨hash, .refl _⟩)]
    exact congrArg some (settled _ _ spelling.2 same)

lemma fixed_iff_of_content (hash : '#' ∉ q)
    (content_eq : ∀ q' c, dispatch P target method q' c = some (content (queryPairs P q') c)) :
    Fixed P target method q copySource signed ↔ ContentFixed content (queryPairs P q) copySource signed := by
  have iff : Fixed P target method q copySource signed ↔
      True ∧ ContentFixed content (queryPairs P q) copySource signed := by
    apply fixed_iff_of_test hash fun _ => False
    · exact fun absurd => (absurd trivial).elim
    · exact fun _ _ _ => id
    · exact fun _ _ => id
    · exact fun q' c _ => content_eq q' c
    · exact fun _ _ _ _ => False.elim
  rwa [true_and] at iff

lemma contentFixed_const (op : Operation) (pairs : List (Text × Text)) (copySource : Bool) (signed : Prop) :
    ContentFixed (fun _ _ => op) pairs copySource signed ↔ op.ReadsOneValue pairs := by
  rw [← paramValues_settled_iff]
  constructor
  · intro settled l perm
    exact (Prod.mk.inj (settled l copySource perm fun _ => rfl)).2
  · intro settled l _ perm _
    rw [valued, settled l perm, valued]

variable {op : Operation}

lemma readsOneValue_of_empty (none : op.firstParams ++ op.lastParams = [])
    (pairs : List (Text × Text)) : op.ReadsOneValue pairs := by
  intro key member
  rw [none] at member
  cases member

def putBucketWords : List Text := putConfigs.map BucketConfig.name ++ unimplementedPutOps

def deleteBucketWords : List Text := deleteConfigs.map BucketConfig.name

lemma createBucket_cases (q : Text) :
    ((∃ w ∈ putBucketWords, w <+: q) ∧ createBucket q ≠ .createBucket) ∨
      ((∀ w ∈ putBucketWords, ¬ w <+: q) ∧ createBucket q = .createBucket) := by
  unfold createBucket
  split
  · next config found =>
      have member := mem_of_find?_eq_some found
      have start : config.name <+: q := by simpa using find?_some found
      refine .inl ⟨⟨config.name, mem_append_left _ (mem_map_of_mem member), start⟩, ?_⟩
      simp
  · next absent =>
      split
      · next found =>
          obtain ⟨w, member, start⟩ := any_eq_true.mp found
          exact .inl ⟨⟨w, mem_append_right _ member, isPrefixOf_iff_prefix.mp start⟩, by simp⟩
      · next unimplemented =>
          refine .inr ⟨?_, rfl⟩
          intro w member start
          obtain member | member := mem_append.mp member
          · obtain ⟨config, listed, rfl⟩ := mem_map.mp member
            exact find?_eq_none.mp absent config listed ( isPrefixOf_iff_prefix.mpr start)
          · exact unimplemented (any_eq_true.mpr ⟨w, member, isPrefixOf_iff_prefix.mpr start⟩)

lemma deleteBucket_cases (q : Text) :
    ((∃ w ∈ deleteBucketWords, w <+: q) ∧ deleteBucket q ≠ .deleteBucket) ∨
      ((∀ w ∈ deleteBucketWords, ¬ w <+: q) ∧ deleteBucket q = .deleteBucket) := by
  unfold deleteBucket
  split
  · next config found =>
      have member := mem_of_find?_eq_some found
      have start : config.name <+: q := by simpa using find?_some found
      exact .inl ⟨⟨config.name, mem_map_of_mem member, start⟩, by simp⟩
  · next absent =>
      refine .inr ⟨?_, rfl⟩
      intro w member start
      obtain ⟨config, listed, rfl⟩ := mem_map.mp member
      exact find?_eq_none.mp absent config listed ( isPrefixOf_iff_prefix.mpr start)

variable {words : List Text} {l pairs : List (Text × Text)} {has : Text → Bool} {p : Text → Prop}

lemma fixed_iff_of_prefixes (hash : '#' ∉ q) (small : SmallWords words)
    {select : Text → Operation} (selected : ∀ q' c, dispatch P target method q' c = some (select q'))
    (cases : ∀ q', ((∃ w ∈ words, w <+: q') ∧ select q' ≠ op) ∨ ((∀ w ∈ words, ¬ w <+: q') ∧ select q' = op)) :
    Fixed P target method q copySource signed ↔
      KeyFree words (queryPairs P q) ∧ op.ReadsOneValue (queryPairs P q) := by
  have test : ∀ q', (∃ w ∈ words, w <+: q') ↔ select q' ≠ op := by
    intro q'
    obtain ⟨found, other⟩ | ⟨absent, same⟩ := cases q'
    · exact iff_of_true found other
    · apply iff_of_false
      · rintro ⟨w, member, start⟩
        exact absent w member start
      · exact not_not.mpr same
  rw [← contentFixed_const op (queryPairs P q) copySource signed]
  apply fixed_iff_of_test hash fun q' => ∃ w ∈ words, w <+: q'
  · intro spelled
    exact exists_starting_of_not_keyFree small spelled
  · rintro free q' spelling ⟨w, member, start⟩
    exact free.not_prefix small spelling member start
  · rintro q' plain ⟨w, member, start⟩
    exact plain w (small w member) start.isInfix
  · intro q' c failed
    rw [selected, not_not.mp (mt (test q').mpr failed)]
  · intro q' c l c' passed
    rw [selected]
    exact fun eq => (test q').mp passed (some.inj eq)

variable {name : Text}

/-- The test for a subresource that POST handlers make: a key that begins with the
word is needed to pass it, and such a key can always be made to. -/
lemma namesSubresource_cases (h : namesSubresource q name = true) :
    name <+: q ∨ '&' :: name <:+: q := by
  simp only [namesSubresource, Bool.or_eq_true, decide_eq_true_eq, isPrefixOf_iff_prefix,
    Text.contains] at h
  obtain (((rfl | rfl) | start) | start) | inside := h
  · exact .inl (prefix_refl _)
  · exact .inl (prefix_append _ _)
  · exact .inl ((prefix_append _ _).trans start)
  · exact .inl ((prefix_append _ _).trans start)
  · exact .inr inside

lemma namesSubresource_amp (h : name <+: q) : namesSubresource ('&' :: q) name = true := by
  have inside : '&' :: name <:+: '&' :: q := (cons_prefix_cons.mpr ⟨rfl, h⟩).isInfix
  simp [namesSubresource, Text.contains, inside]

lemma fixed_iff_of_subresource (hash : '#' ∉ q) (small : FormQuery.IsSmallWord name)
    {content : List (Text × Text) → Operation} (other : ∀ l, op ≠ content l)
    (selected : ∀ q' c, dispatch P target method q' c =
      some (if namesSubresource q' name then op else content (queryPairs P q'))) :
    Fixed P target method q copySource signed ↔
      KeyFree [name] (queryPairs P q) ∧
        ContentFixed (fun l _ => content l) (queryPairs P q) copySource signed := by
  have words : SmallWords [name] := by simpa [SmallWords] using small
  apply fixed_iff_of_test hash fun q' => namesSubresource q' name = true
  · intro spelled
    obtain ⟨q', spelling, w, member, start⟩ := exists_starting_of_not_keyFree words spelled
    obtain rfl := mem_singleton.mp member
    exact ⟨'&' :: q', spelling.amp_cons, namesSubresource_amp start⟩
  · intro free q' spelling passed
    obtain start | inside := namesSubresource_cases passed
    · exact free.not_prefix words spelling (by simp) start
    · exact free.not_amp words spelling (by simp) inside
  · intro q' plain passed
    obtain start | inside := namesSubresource_cases passed
    · exact plain name small start.isInfix
    · exact plain name small ((suffix_cons _ _).isInfix.trans inside)
  · intro q' c failed
    rw [selected, if_neg failed]
  · intro q' c l c' passed
    rw [selected, if_pos passed]
    exact fun eq => other l (some.inj eq)

/-! A bucket's GET reads decoded keys only. -/

def bucketGetKeys : List Text :=
  "location".toList :: getConfigs.map BucketConfig.name ++ unimplementedGetOps ++
    [BucketConfig.versioning.name]

def listType : Text := "list-type".toList

/-- The listing of a bucket: one version of it, and one value of each parameter. -/
def ListingFixed (pairs : List (Text × Text)) : Prop :=
  (¬ Occurs pairs listType ∧ Operation.listObjectsV1.ReadsOneValue pairs) ∨
  (Occurs pairs listType ∧ (∀ v, (listType, v) ∈ pairs → v = "2".toList) ∧
    Operation.listObjectsV2.ReadsOneValue pairs) ∨
  (Occurs pairs listType ∧ ∀ v, (listType, v) ∈ pairs → v ≠ "2".toList)

def BucketGetFixed (pairs : List (Text × Text)) : Prop :=
  (∃ key ∈ bucketGetKeys, Occurs pairs key) ∨
  if Occurs pairs "uploads".toList then Operation.listMultipartUploads.ReadsOneValue pairs
  else if Occurs pairs "versions".toList then Operation.listObjectVersions.ReadsOneValue pairs
  else ListingFixed pairs

/-- `get_bucket` as a function of which keys there are and of the listing. -/
def bucketView (has : Text → Bool) (listing : Operation) : Operation :=
  if has "location".toList then .getBucketLocation
  else match getConfigs.find? (has ·.name) with
    | some config => .getBucketConfig config
    | none =>
      if unimplementedGetOps.any has then .notImplemented
      else if has BucketConfig.versioning.name then .getBucketConfig .versioning
      else if has "uploads".toList then .listMultipartUploads
      else if has "versions".toList then .listObjectVersions
      else listing

lemma getBucket_of_perm (perm : l.Perm pairs) :
    getBucket l = bucketView (hasKey pairs) (listObjects l) := by
  have keys : hasKey l = hasKey pairs := funext (hasKey_perm perm)
  rw [← keys]
  rfl

lemma bucketView_of_key (h : ∃ key ∈ bucketGetKeys, has key = true)
    (listing : Operation) : bucketView has listing = bucketView has .listBuckets ∧
      (bucketView has listing).firstParams ++ (bucketView has listing).lastParams = [] := by
  unfold bucketView
  cases noConfig : getConfigs.find? (has ·.name) with
  | some config => split_ifs <;> exact ⟨rfl, rfl⟩
  | none =>
    split_ifs with noLocation implemented noVersioning
    · exact ⟨rfl, rfl⟩
    · exact ⟨rfl, rfl⟩
    · exact ⟨rfl, rfl⟩
    all_goals
      obtain ⟨key, member, found⟩ := h
      simp only [bucketGetKeys, List.cons_append, List.mem_cons, List.mem_append, List.mem_map,
        not_mem_nil, or_false] at member
      obtain rfl | (⟨config, listed, rfl⟩ | unimplemented) | rfl := member
      · exact absurd found noLocation
      · exact absurd found (find?_eq_none.mp noConfig config listed)
      · exact absurd (any_eq_true.mpr ⟨key, unimplemented, found⟩) implemented
      · exact absurd found noVersioning

lemma bucketView_of_no_key (h : ∀ key ∈ bucketGetKeys, ¬ has key = true)
    (listing : Operation) : bucketView has listing =
      if has "uploads".toList then .listMultipartUploads
      else if has "versions".toList then .listObjectVersions else listing := by
  have noLocation := h "location".toList (by simp [bucketGetKeys])
  have noConfig : getConfigs.find? (has ·.name) = none := by
    apply find?_eq_none.mpr
    intro config listed
    apply h config.name
    simp only [bucketGetKeys, cons_append, mem_cons, mem_append]
    exact .inr (.inl (.inl (mem_map_of_mem listed)))
  have implemented : unimplementedGetOps.any has = false := by
    apply any_eq_false.mpr
    intro key listed
    apply h key
    simp only [bucketGetKeys, cons_append, mem_cons, mem_append]
    exact .inr (.inl (.inr listed))
  have noVersioning := h BucketConfig.versioning.name (by simp [bucketGetKeys])
  simp only [bucketView, noLocation, noConfig, implemented, noVersioning, Bool.false_eq_true, if_false]

lemma contentFixed_congr {content content' : List (Text × Text) → Bool → Operation}
    (same : ∀ l c, l.Perm pairs → content l c = content' l c) :
    ContentFixed content pairs copySource signed ↔ ContentFixed content' pairs copySource signed := by
  apply forall₃_congr
  intro l c perm
  rw [same l c perm, same pairs copySource (.refl _)]

lemma contentFixed_of_const
    (op : Operation) (const : ∀ l c, l.Perm pairs → content l c = op) :
    ContentFixed content pairs copySource signed ↔ op.ReadsOneValue pairs :=
  (contentFixed_congr const).trans (contentFixed_const op pairs copySource signed)

lemma occurs_perm (perm : l.Perm pairs) (key : Text) :
    Occurs l key ↔ Occurs pairs key := exists_congr fun _ => perm.mem_iff

lemma exists_firstParam {key : Text} (present : Occurs pairs key) (perm : l.Perm pairs) :
    ∃ v, (key, v) ∈ pairs ∧ firstParam l key = some v := by
  cases found : firstParam l key with
  | none => exact absurd ((occurs_perm perm key).mpr present) (firstParam_eq_none_iff.mp found)
  | some v => exact ⟨v, perm.mem_iff.mp (mem_of_firstParam found), rfl⟩

section
variable (l : List (Text × Text))

lemma listObjects_eq : listObjects l = match firstParam l listType with
      | none => .listObjectsV1
      | some version => if version = "2".toList then .listObjectsV2 else .notImplemented := rfl

lemma contentFixed_listObjects :
    ContentFixed (fun l _ => listObjects l) pairs copySource signed ↔ ListingFixed pairs := by
  have read : ∀ {l : List (Text × Text)} {v : Text}, firstParam l listType = some v →
      listObjects l = if v = "2".toList then .listObjectsV2 else .notImplemented := by
    intro l v found
    rw [listObjects_eq, found]
  by_cases present : Occurs pairs listType
  · -- some value comes first in every order, and each value does in one
    by_cases allTwo : ∀ v, (listType, v) ∈ pairs → v = "2".toList
    · rw [contentFixed_of_const .listObjectsV2]
      · constructor
        · exact fun single => .inr (.inl ⟨present, allTwo, single⟩)
        · rintro (⟨absent, -⟩ | ⟨-, -, single⟩ | ⟨⟨v, member⟩, noTwo⟩)
          · exact absurd present absent
          · exact single
          · exact absurd (allTwo v member) (noTwo v member)
      · intro l _ perm
        obtain ⟨v, member, found⟩ := exists_firstParam present perm
        rw [read found, if_pos (allTwo v member)]
    · by_cases noTwo : ∀ v, (listType, v) ∈ pairs → v ≠ "2".toList
      · rw [contentFixed_of_const .notImplemented]
        · exact iff_of_true (readsOneValue_of_empty rfl pairs) (.inr (.inr ⟨present, noTwo⟩))
        · intro l _ perm
          obtain ⟨v, member, found⟩ := exists_firstParam present perm
          rw [read found, if_neg (noTwo v member)]
      · apply iff_of_false
        · intro settled
          push Not at allTwo noTwo
          obtain ⟨v, member, other⟩ := allTwo
          obtain ⟨v', member', two⟩ := noTwo
          obtain ⟨rest, perm⟩ := perm_cons_of_mem member
          obtain ⟨rest', perm'⟩ := perm_cons_of_mem member'
          have one : listObjects ((listType, v) :: rest) = listObjects pairs :=
            (Prod.mk.inj (settled _ copySource perm fun _ => rfl)).1
          have both : listObjects ((listType, v') :: rest') = listObjects pairs :=
            (Prod.mk.inj (settled _ copySource perm' fun _ => rfl)).1
          rw [← one, read (firstParam_cons_self ..), read (firstParam_cons_self ..), if_neg other,
            if_pos two] at both
          cases both
        · simp only [ListingFixed, present, allTwo, noTwo, not_true, false_and, and_false, or_false,
            not_false_iff]
  · rw [contentFixed_of_const .listObjectsV1]
    · simp only [ListingFixed, present, not_false_iff, true_and, false_and, or_false]
    · intro l _ perm
      rw [listObjects_eq, firstParam_eq_none_iff.mpr (mt (occurs_perm perm _).mp present)]

lemma contentFixed_getBucket :
    ContentFixed (fun l _ => getBucket l) pairs copySource signed ↔ BucketGetFixed pairs := by
  by_cases settled : ∃ key ∈ bucketGetKeys, hasKey pairs key = true
  · have view := bucketView_of_key settled
    rw [contentFixed_of_const (bucketView (hasKey pairs) .listBuckets)]
    · refine iff_of_true (readsOneValue_of_empty (view .listBuckets).2 pairs) (.inl ?_)
      obtain ⟨key, member, found⟩ := settled
      exact ⟨key, member, hasKey_iff.mp found⟩
    · intro l _ perm
      rw [getBucket_of_perm perm, (view _).1]
  · push Not at settled
    have view := bucketView_of_no_key settled
    have noKey : ¬ ∃ key ∈ bucketGetKeys, Occurs pairs key := by
      rintro ⟨key, member, found⟩
      exact settled key member (hasKey_iff.mpr found)
    unfold BucketGetFixed
    rw [or_iff_right noKey]
    split
    · next uploads =>
        apply contentFixed_of_const
        intro l _ perm
        rw [getBucket_of_perm perm, view, if_pos (hasKey_iff.mpr uploads)]
    · next noUploads =>
        have absent := mt hasKey_iff.mp noUploads
        split
        · next versions =>
            apply contentFixed_of_const
            intro l _ perm
            rw [getBucket_of_perm perm, view, if_neg absent, if_pos (hasKey_iff.mpr versions)]
        · next noVersions =>
            refine (contentFixed_congr ?_).trans contentFixed_listObjects
            intro l _ perm
            rw [getBucket_of_perm perm, view, if_neg absent, if_neg (mt hasKey_iff.mp noVersions)]

def objectPutWords : List Text :=
  [tagging.name, retention.name, legalHold.name]

def objectGetWords : List Text := objectPutWords ++ ["uploadId".toList, "attributes".toList]

def objectDeleteWords : List Text := [tagging.name]

lemma fixed_iff_of_words (hash : '#' ∉ q) (probes : Probes words)
    (found : ∀ q' c l c', (∃ w ∈ words, w <:+: q') → dispatch P target method q' c ≠ some (content l c'))
    (absent : ∀ q' c, (∀ w ∈ words, ¬ w <:+: q') →
      dispatch P target method q' c = some (content (queryPairs P q') c)) :
    Fixed P target method q copySource signed ↔
      WordFree P words (queryPairs P q) ∧ ContentFixed content (queryPairs P q) copySource signed := by
  apply fixed_iff_of_test hash fun q' => ∃ w ∈ words, w <:+: q'
  · intro spelled
    exact exists_containing_of_not_wordFree probes spelled
  · rintro free q' spelling ⟨w, member, inside⟩
    exact free.not_infix probes spelling member inside
  · rintro q' plain ⟨w, member, inside⟩
    exact plain w (probes w member).isSmallWord inside
  · intro q' c failed
    apply absent
    intro w member inside
    exact failed ⟨w, member, inside⟩
  · exact found

lemma forall_objectPutWords : (∀ w ∈ objectPutWords, p w) ↔
    p tagging.name ∧ p retention.name ∧ p legalHold.name := by
  simp only [objectPutWords, forall_mem_cons, not_mem_nil, false_imp_iff, implies_true, and_true]

lemma forall_objectGetWords : (∀ w ∈ objectGetWords, p w) ↔
    (p tagging.name ∧ p retention.name ∧ p legalHold.name) ∧
      p "uploadId".toList ∧ p "attributes".toList := by
  rw [objectGetWords, forall_mem_append, forall_objectPutWords]
  simp only [forall_mem_cons, not_mem_nil, false_imp_iff, implies_true, and_true]

lemma getObject_eq_iff (q : Text) :
    getObject q = .getObject ↔ ∀ w ∈ objectGetWords, ¬ w <:+: q := by
  rw [forall_objectGetWords]
  unfold getObject Text.contains
  simp only [decide_eq_true_eq]
  split_ifs <;> simp_all

lemma putObject_of_absent (h : ∀ w ∈ objectPutWords, ¬ w <:+: q) (l : List (Text × Text)) (c : Bool) :
    putObject q l c = putContent l c := by
  obtain ⟨tagging, retention, hold⟩ := forall_objectPutWords.mp h
  simp only [putObject, Text.contains, tagging, retention, hold, decide_false, Bool.false_eq_true,
    if_false]

lemma putContent_ne_config (c : Bool) (config : ObjectConfig) :
    putContent l c ≠ .putObjectConfig config := by
  unfold putContent
  split
  · split_ifs <;> simp
  · split_ifs <;> simp

lemma putObject_of_found (h : ∃ w ∈ objectPutWords, w <:+: q) (l : List (Text × Text)) (c : Bool) :
    ∃ config, putObject q l c = .putObjectConfig config := by
  unfold putObject
  simp only [Text.contains, decide_eq_true_eq]
  split_ifs with tagging retention hold
  · exact ⟨_, rfl⟩
  · exact ⟨_, rfl⟩
  · exact ⟨_, rfl⟩
  · have absent : ∀ w ∈ objectPutWords, ¬ w <:+: q := forall_objectPutWords.mpr ⟨tagging, retention, hold⟩
    obtain ⟨w, member, inside⟩ := h
    exact absurd inside (absent w member)

def partNumber : Text := "partNumber".toList

def uploadId : Text := "uploadId".toList

def isPartNumber (t : Text) : Prop := Text.parseNat 10 Text.decValue (2 ^ 32) t ≠ none

/-- One part number and one upload, unless no part number is one; the copy source has to be
signed. -/
def PutContentFixed (signed : Prop) (pairs : List (Text × Text)) : Prop :=
  if Occurs pairs partNumber ∧ Occurs pairs uploadId then
    (∀ v, (partNumber, v) ∈ pairs → ¬ isPartNumber v) ∨
      (signed ∧ SingleValued pairs partNumber ∧ SingleValued pairs uploadId)
  else signed

lemma putContent_eq (c : Bool) :
    putContent l c = match firstParam l partNumber, firstParam l uploadId with
      | some number, some _ =>
        if (Text.parseNat 10 Text.decValue (2 ^ 32) number).isNone then .invalidPartNumber
        else if c then .uploadPartCopy
        else .uploadPart
      | _, _ => if c then .copyObject else .putObject := rfl

end

lemma putContent_whole (h : ¬ (Occurs l partNumber ∧ Occurs l uploadId)) (c : Bool) :
    putContent l c = if c then .copyObject else .putObject := by
  rw [putContent_eq]
  split
  · next number upload foundNumber foundUpload =>
      exact absurd ⟨⟨_, mem_of_firstParam foundNumber⟩, ⟨_, mem_of_firstParam foundUpload⟩⟩ h
  · rfl

lemma putContent_part {v : Text} (number : firstParam l partNumber = some v)
    (upload : Occurs l uploadId) (c : Bool) :
    putContent l c = if (Text.parseNat 10 Text.decValue (2 ^ 32) v).isNone then .invalidPartNumber
      else if c then .uploadPartCopy else .uploadPart := by
  cases found : firstParam l uploadId with
  | none => exact absurd upload (firstParam_eq_none_iff.mp found)
  | some u => rw [putContent_eq, number, found]

lemma signed_of_settled
    (settled : ContentFixed content pairs copySource signed) (perm : l.Perm pairs)
    (differ : content l true ≠ content l false) : signed := by
  by_contra unsigned
  have one := (Prod.mk.inj (settled l true perm fun s => absurd s unsigned)).1
  have other := (Prod.mk.inj (settled l false perm fun s => absurd s unsigned)).1
  exact differ (one.trans other.symm)

lemma contentFixed_putContent :
    ContentFixed putContent pairs copySource signed ↔ PutContentFixed signed pairs := by
  unfold PutContentFixed
  split
  · next both =>
      obtain ⟨present, upload⟩ := both
      have uploadOf : ∀ l, l.Perm pairs → Occurs l uploadId := fun l perm => (occurs_perm perm _).mpr upload
      by_cases invalid : ∀ v, (partNumber, v) ∈ pairs → ¬ isPartNumber v
      · -- every order is refused
        refine iff_of_true ((contentFixed_of_const .invalidPartNumber ?_).mpr (readsOneValue_of_empty rfl _))
          (.inl invalid)
        intro l c perm
        obtain ⟨v, member, found⟩ := exists_firstParam present perm
        have none := not_not.mp (invalid v member)
        rw [putContent_part found (uploadOf l perm), none]
        rfl
      · rw [or_iff_right invalid]
        push Not at invalid
        obtain ⟨v, member, valid⟩ := invalid
        have valid : ¬ (Text.parseNat 10 Text.decValue (2 ^ 32) v).isNone = true := by
          rw [isNone_iff_eq_none]
          exact valid
        let op : Operation := if copySource then .uploadPartCopy else .uploadPart
        have params : op.firstParams ++ op.lastParams = [partNumber, uploadId] := by
          cases copySource <;> rfl
        have single : op.ReadsOneValue pairs ↔ SingleValued pairs partNumber ∧ SingleValued pairs uploadId := by
          unfold Operation.ReadsOneValue
          rw [params]
          simp
        rw [← single]
        constructor
        · intro settled
          obtain ⟨rest, perm⟩ := perm_cons_of_mem member
          have part := fun c => putContent_part (firstParam_cons_self rest partNumber v) (uploadOf _ perm) c
          simp only [if_neg valid] at part
          refine ⟨signed_of_settled settled perm (by simp [part]), ?_⟩
          -- the order with a valid number first settles the operation of all
          have base : putContent pairs copySource = op :=
            (Prod.mk.inj (settled _ copySource perm fun _ => rfl)).1.symm.trans (part copySource)
          apply paramValues_settled_iff.mp
          intro l perm'
          have whole := settled l copySource perm' fun _ => rfl
          rw [valued, valued, base] at whole
          obtain ⟨same, values⟩ := Prod.mk.inj whole
          rwa [same] at values
        · rintro ⟨isSigned, values⟩ l c perm same
          rw [same isSigned]
          have constant : ∀ l, l.Perm pairs → putContent l copySource = op := by
            intro l perm
            obtain ⟨v', member', found⟩ := exists_firstParam present perm
            obtain rfl := (single.mp values).1 v v' member member'
            rw [putContent_part found (uploadOf l perm), if_neg valid]
          rw [valued, valued, constant l perm, constant pairs (.refl _), paramValues_settled_iff.mpr values l perm]
  · next whole =>
      have content : ∀ l c, l.Perm pairs → putContent l c = if c then .copyObject else .putObject := by
        intro l c perm
        apply putContent_whole
        rwa [occurs_perm perm, occurs_perm perm]
      constructor
      · intro settled
        exact signed_of_settled settled (.refl _) (by simp [content])
      · intro isSigned l c perm same
        rw [same isSigned, content l _ perm, content pairs _ (.refl _)]
        cases copySource <;> rfl

/-- The condition on the decoded pairs, and on whether the copy source is signed. -/
def FixedBySignature (P : Primitives) (signed : Prop) (pairs : List (Text × Text)) :
    Target → Method → Prop
  | .bucket _, .get => BucketGetFixed pairs
  | .bucket _, .put => KeyFree putBucketWords pairs
  | .bucket _, .delete => KeyFree deleteBucketWords pairs
  | .bucket _, .post => KeyFree ["delete".toList] pairs
  | .object _ _, .get => WordFree P objectGetWords pairs ∧ Operation.getObject.ReadsOneValue pairs
  | .object _ _, .head => Operation.headObject.ReadsOneValue pairs
  | .object _ _, .put => WordFree P objectPutWords pairs ∧ PutContentFixed signed pairs
  | .object _ _, .delete => WordFree P objectDeleteWords pairs ∧
      if Occurs pairs uploadId then SingleValued pairs uploadId else SingleValued pairs "versionId".toList
  | .object _ _, .post => KeyFree ["uploads".toList] pairs ∧ SingleValued pairs uploadId
  | _, _ => True

lemma readsOneValue_singleton {key : Text} (h : op.firstParams ++ op.lastParams = [key])
    (pairs : List (Text × Text)) : op.ReadsOneValue pairs ↔ SingleValued pairs key := by
  rw [Operation.ReadsOneValue, h]
  simp

lemma fixed_of_const {selected : Option Operation}
    (h : ∀ q' c, dispatch P target method q' c = selected)
    (plain : ∀ op ∈ selected, op.firstParams ++ op.lastParams = []) :
    Fixed P target method q copySource signed := by
  intro q' copySource' spelling _
  rw [run, run, h, h]
  cases selected with
  | none => rfl
  | some op =>
    have single := readsOneValue_of_empty (plain op rfl) (queryPairs P q)
    simp only [map_some, paramValues_settled_iff.mpr single _ spelling.2]

lemma fixed_bucket_iff (hash : '#' ∉ q) (b : Text) :
    Fixed P (.bucket b) method q copySource signed ↔
      FixedBySignature P signed (queryPairs P q) (.bucket b) method := by
  cases method with
  | get => exact (fixed_iff_of_content hash fun _ _ => rfl).trans contentFixed_getBucket
  | head => exact iff_of_true (fixed_of_const (fun _ _ => rfl) (by rintro _ ⟨⟩; rfl)) trivial
  | put =>
    refine (fixed_iff_of_prefixes hash (by decide) (fun _ _ => rfl) createBucket_cases).trans ?_
    exact and_iff_left (readsOneValue_of_empty rfl _)
  | delete =>
    refine (fixed_iff_of_prefixes hash (by decide) (fun _ _ => rfl) deleteBucket_cases).trans ?_
    exact and_iff_left (readsOneValue_of_empty rfl _)
  | post =>
    have iff : Fixed P (.bucket b) .post q copySource signed ↔ _ ∧
        ContentFixed (fun _ _ => .notImplemented) (queryPairs P q) copySource signed :=
      fixed_iff_of_subresource hash (by decide) (fun _ => by simp) fun _ _ => rfl
    rw [iff, contentFixed_const]
    exact and_iff_left (readsOneValue_of_empty rfl _)
  | other name => exact iff_of_true (fixed_of_const (fun _ _ => rfl) (by rintro _ ⟨⟩)) trivial

lemma fixed_object_iff (hash : '#' ∉ q) (b k : Text) :
    Fixed P (.object b k) method q copySource signed ↔
      FixedBySignature P signed (queryPairs P q) (.object b k) method := by
  cases method with
  | get =>
    have iff : Fixed P (.object b k) .get q copySource signed ↔ WordFree P objectGetWords (queryPairs P q) ∧
        ContentFixed (fun _ _ => .getObject) (queryPairs P q) copySource signed := by
      apply fixed_iff_of_words hash (by decide)
      · rintro q' c l c' ⟨w, member, inside⟩ eq
        exact (getObject_eq_iff q').mp (some.inj eq) w member inside
      · intro q' c absent
        exact congrArg some ((getObject_eq_iff q').mpr absent)
    rw [iff, contentFixed_const]
    rfl
  | head =>
    have iff : Fixed P (.object b k) .head q copySource signed ↔
        ContentFixed (fun _ _ => .headObject) (queryPairs P q) copySource signed :=
      fixed_iff_of_content hash fun _ _ => rfl
    rw [iff, contentFixed_const]
    rfl
  | put =>
    have iff : Fixed P (.object b k) .put q copySource signed ↔ WordFree P objectPutWords (queryPairs P q) ∧
        ContentFixed putContent (queryPairs P q) copySource signed := by
      apply fixed_iff_of_words hash (by decide)
      · intro q' c l c' found eq
        obtain ⟨config, selected⟩ := putObject_of_found found (queryPairs P q') c
        exact putContent_ne_config l c' config ((some.inj eq).symm.trans selected)
      · intro q' c absent
        exact congrArg some (putObject_of_absent absent _ c)
    rw [iff, contentFixed_putContent]
    rfl
  | delete =>
    let content : List (Text × Text) → Bool → Operation := fun l _ =>
      if hasKey l uploadId then .abortMultipartUpload else .deleteObject
    have iff : Fixed P (.object b k) .delete q copySource signed ↔
        WordFree P objectDeleteWords (queryPairs P q) ∧
          ContentFixed content (queryPairs P q) copySource signed := by
      apply fixed_iff_of_words hash (by decide)
      · rintro q' c l c' ⟨w, member, inside⟩ eq
        obtain rfl := mem_singleton.mp member
        have selected : deleteObject q' (queryPairs P q') = .deleteObjectTagging := by
          simp only [deleteObject, Text.contains, inside, decide_true, if_true]
        have other : content l c' = .deleteObjectTagging := (some.inj eq).symm.trans selected
        simp only [content] at other
        split at other <;> cases other
      · intro q' c absent
        have tagging := absent _ (mem_singleton.mpr rfl)
        refine congrArg some ?_
        simp only [deleteObject, Text.contains, tagging, decide_false, Bool.false_eq_true, if_false]
        rfl
    rw [iff]
    apply and_congr_right
    intro _
    split
    · next present =>
        rw [contentFixed_of_const .abortMultipartUpload, readsOneValue_singleton rfl]
        · rfl
        · intro l c perm
          exact if_pos (hasKey_iff.mpr ((occurs_perm perm _).mpr present))
    · next missing =>
        rw [contentFixed_of_const .deleteObject, readsOneValue_singleton rfl]
        intro l c perm
        exact if_neg (mt hasKey_iff.mp (mt (occurs_perm perm _).mp missing))
  | post =>
    have iff : Fixed P (.object b k) .post q copySource signed ↔ _ ∧
        ContentFixed (fun l _ => if hasKey l uploadId then .completeMultipartUpload else .notImplemented)
          (queryPairs P q) copySource signed :=
      fixed_iff_of_subresource hash (by decide)
        (fun l => by cases hasKey l uploadId <;> simp) fun _ _ => rfl
    rw [iff]
    apply and_congr_right
    intro _
    by_cases present : Occurs (queryPairs P q) uploadId
    · rw [contentFixed_of_const .completeMultipartUpload, readsOneValue_singleton rfl]
      · rfl
      · intro l c perm
        exact if_pos (hasKey_iff.mpr ((occurs_perm perm _).mpr present))
    · rw [contentFixed_of_const .notImplemented]
      · refine iff_of_true (readsOneValue_of_empty rfl _) ?_
        intro v _ member
        exact absurd ⟨v, member⟩ present
      · intro l c perm
        exact if_neg (mt hasKey_iff.mp (mt (occurs_perm perm _).mp present))
  | other name => exact iff_of_true (fixed_of_const (fun _ _ => rfl) (by rintro _ ⟨⟩)) trivial

end dispatching

def deleteTagging : Uri :=
  { bucketUri with query := some "tagging".toList, unhashed := by decide }

def deleteTaggingEscaped : Uri :=
  { bucketUri with query := some "%74agging=".toList, unhashed := by decide }

def signedTagging : Request := tenantRequest .delete deleteTagging [localhost] []

/-- The request as it was signed, with its query spelled in another way. -/
def respelledTagging : Request := { signedTagging with uri := deleteTaggingEscaped }

end Arca.Security
