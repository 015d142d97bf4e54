import Arca.Lib.Percent

/-!
# Requests, their normalisation and routing

Paths that the admin and cluster routers take are not S3 requests.
-/
namespace Arca.Http
open List Option

inductive Method where
  | get
  | head
  | put
  | delete
  | post
  | other (name : Text)
  deriving DecidableEq, Repr

def Method.asStr : Method → Text
  | get => "GET".toList
  | head => "HEAD".toList
  | put => "PUT".toList
  | delete => "DELETE".toList
  | post => "POST".toList
  | other name => name

/-- A path starts with a slash and ends before the query, which ends before the
fragment. -/
structure Uri where
  path : Text
  query : Option Text
  authority : Option Text
  rooted : path.head? = some '/'
  unmarked : '?' ∉ path ∧ '#' ∉ path
  unhashed : '#' ∉ query.getD []
  deriving DecidableEq

section
variable (t : Text)

/-- The names of headers are ASCII and kept in lower case. -/
def IsHeaderName : Prop := (t.all fun c => c.toNat < 65 || (90 < c.toNat && c.toNat < 128)) = true

instance : DecidablePred IsHeaderName := fun _ => inferInstanceAs (Decidable (_ = _))

abbrev HeaderName := {t : Text // IsHeaderName t}

def header (name : String) (h : IsHeaderName name.toList) : HeaderName := ⟨name.toList, h⟩

abbrev Headers := List (HeaderName × Bytes)

structure Request where
  method : Method
  uri : Uri
  headers : Headers
  deriving DecidableEq

def Headers.get (headers : Headers) (name : Text) : Option Bytes :=
  (headers.find? fun h => h.1.val = name).map Prod.snd

def toStr (value : Bytes) : Option Text :=
  if value.all fun b => (32 ≤ b && b < 127) || b == 9 then
    some (value.map fun b => Char.ofNat b.toNat)
  else none

def Headers.getStr (headers : Headers) (name : Text) : Option Text :=
  (headers.get name).bind toStr

def isPathChar (c : Char) : Bool :=
  let v := c.toNat
  v == 0x21 || (0x24 ≤ v && v ≤ 0x3B) || v == 0x3D || (0x40 ≤ v && v ≤ 0x5F) ||
    (0x61 ≤ v && v ≤ 0x7A) || v == 0x7C || v == 0x7E || 0x7F ≤ v || v == 0x22 || v == 0x7B || v == 0x7D

def isQueryChar (c : Char) : Bool :=
  let v := c.toNat
  v == 0x21 || (0x24 ≤ v && v ≤ 0x3B) || v == 0x3D || 0x3F ≤ v

def isMark (c : Char) : Bool := c == '?' || c == '#'

def cutPath : Text := t.takeWhile (!isMark ·)

def cutQuery : Option Text :=
  match t.dropWhile (!isMark ·) with
  | '?' :: query => some (query.takeWhile (· != '#'))
  | _ => none

lemma unmarked_cutPath : '?' ∉ cutPath t ∧ '#' ∉ cutPath t := by
  constructor
  · intro member
    have := mem_takeWhile_imp member
    simp [isMark] at this
  · intro member
    have := mem_takeWhile_imp member
    simp [isMark] at this

lemma unhashed_cutQuery : '#' ∉ (cutQuery t).getD [] := by
  unfold cutQuery
  split
  · intro member
    simpa using mem_takeWhile_imp member
  · simp

lemma cutPath_of_unmarked {t : Text} (h : '?' ∉ t ∧ '#' ∉ t) : cutPath t = t := by
  apply takeWhile_eq_self_iff.mpr
  intro c member
  have question : c ≠ '?' := fun e => h.1 (e ▸ member)
  have hash : c ≠ '#' := fun e => h.2 (e ▸ member)
  simp [isMark, question, hash]

/-- A target in origin form; `none` when it is too long or holds a character that
is not allowed. -/
def Uri.parse : Option Uri :=
  if h : (cutPath t).head? = some '/' then
    if t.toUtf8.length ≤ 65534 ∧ (cutPath t).all isPathChar ∧ ((cutQuery t).getD []).all isQueryChar then
      some ⟨cutPath t, cutQuery t, none, h, unmarked_cutPath t, unhashed_cutQuery t⟩
    else none
  else none

lemma of_parse {t : Text} {u : Uri} (h : Uri.parse t = some u) :
    u.path = cutPath t ∧ u.query = cutQuery t := by
  unfold Uri.parse at h
  split at h
  · split at h
    · obtain rfl := some.inj h
      exact ⟨rfl, rfl⟩
    · cases h
  · cases h

def bucketForHost (host domain : Text) : Option Text :=
  (Text.stripSuffix domain (host.takeWhile (· != ':'))).bind fun h =>
    (Text.stripSuffix ".".toList h).bind fun bucket =>
      if bucket ≠ [] ∧ '.' ∉ bucket then some bucket else none

def pathStylePath (bucket path : Text) : Text :=
  if path = "/".toList then '/' :: bucket else '/' :: bucket ++ path

def Uri.withPath (uri : Uri) (path : Text) : Text :=
  match uri.query with
  | some query => path ++ '?' :: query
  | none => path

def Request.host (r : Request) : Option Text :=
  (r.headers.getStr "host".toList).or r.uri.authority

/-- The bucket a host names, and the target the request is rewritten to. -/
def Request.virtualHost (r : Request) (domain : Option Text) : Option (Text × Uri) :=
  domain.bind fun domain => r.host.bind fun host => (bucketForHost host domain).bind fun bucket =>
    (Uri.parse (r.uri.withPath (pathStylePath bucket r.uri.path))).map (bucket, ·)

def stripSlash (uri : Uri) : Uri :=
  if 1 < uri.path.length ∧ uri.path.getLast? = some '/' ∧ '/' ∉ uri.path.tail.dropLast then
    (Uri.parse (uri.withPath uri.path.dropLast)).getD uri
  else uri

def Request.normalize (domain : Option Text) (r : Request) : Request :=
  { r with uri := stripSlash (((r.virtualHost domain).map Prod.snd).getD r.uri) }

inductive Target where
  | service
  | bucket (bucket : Text)
  | object (bucket key : Text)
  deriving DecidableEq, Repr

def Target.ofPath (path : Text) : Target :=
  let trimmed := (Text.stripPrefix "/".toList path).getD path
  match trimmed.splitOnce '/' with
  | none => if trimmed = [] then .service else .bucket trimmed
  | some (b, k) => if b = [] then .service else if k = [] then .bucket b else .object b k

def route (path : Text) : Option Target :=
  match path with
  | '/' :: trimmed =>
    match Text.splitOnce '/' trimmed with
    | none => some (if trimmed = [] then .service else .bucket trimmed)
    | some (b, k) => if b ≠ [] ∧ k ≠ [] then some (.object b k) else none
  | _ => none

def decodeParam : Option Text := Text.fromUtf8 (Percent.decode t.toUtf8)

end

def Target.decode : Target → Option Target
  | service => some service
  | bucket b => (decodeParam b).map bucket
  | object b k => (decodeParam b).bind fun b => (decodeParam k).map (object b)

def Target.serves : Target → Method → Bool
  | service, .get => true
  | service, .head => true
  | service, _ => false
  | _, .other _ => false
  | _, _ => true

section decoding
variable {t u : Text}

lemma decodeParam_eq_some_iff : decodeParam t = some u ↔ Percent.decode t.toUtf8 = u.toUtf8 :=
  Text.fromUtf8_eq_some_iff

def Unescaped (t : Text) : Prop := Percent.decode t.toUtf8 = t.toUtf8

instance : DecidablePred Unescaped := fun _ => inferInstanceAs (Decidable (_ = _))

lemma length_decodeParam_le (h : decodeParam t = some u) : u.toUtf8.length ≤ t.toUtf8.length := by
  rw [← decodeParam_eq_some_iff.mp h]
  exact Percent.length_decode_le _

lemma eq_of_decodeParam_of_length (h : decodeParam t = some u)
    (same : u.toUtf8.length = t.toUtf8.length) : u = t := by
  have decoded := decodeParam_eq_some_iff.mp h
  rw [← decoded] at same
  apply Text.toUtf8_injective
  rw [← decoded, Percent.decode_eq_self_of_length same]

lemma count_slash_le_of_decodeParam (h : decodeParam t = some u) : t.count '/' ≤ u.count '/' := by
  have ascii : '/'.toNat < 128 := by decide
  rw [← Text.count_toUtf8 ascii, ← Text.count_toUtf8 ascii, ← decodeParam_eq_some_iff.mp h]
  exact Percent.count_le_count_decode (by decide) (by decide) _

lemma toUtf8_append_slash (t u : Text) :
    Text.toUtf8 (t ++ '/' :: u) = t.toUtf8 ++ 47 :: u.toUtf8 := by
  rw [Text.toUtf8_append]
  rfl

lemma unescaped_append_slash : Unescaped (t ++ '/' :: u) ↔ Unescaped t ∧ Unescaped u := by
  unfold Unescaped
  rw [toUtf8_append_slash, Percent.decode_append_cons (by decide) (by decide)]
  constructor
  · intro h
    have lengths := congrArg List.length h
    simp only [length_append, length_cons] at lengths
    have left := Percent.length_decode_le t.toUtf8
    have right := Percent.length_decode_le u.toUtf8
    exact ⟨Percent.decode_eq_self_of_length (by omega), Percent.decode_eq_self_of_length (by omega)⟩
  · rintro ⟨left, right⟩
    rw [left, right]

lemma unescaped_nil : Unescaped [] := rfl

lemma decodeParam_self_iff : decodeParam t = some t ↔ Unescaped t := decodeParam_eq_some_iff

end decoding

section targets
variable {x b k : Text}

lemma ofPath_segment (free : '/' ∉ x) :
    Target.ofPath ('/' :: x) = if x = [] then .service else .bucket x := by
  simp [Target.ofPath, Text.stripPrefix, Text.splitOnce_eq_none_iff.mpr free]

lemma ofPath_segments (free : '/' ∉ b) (k : Text) : Target.ofPath ('/' :: (b ++ '/' :: k)) =
      if b = [] then .service else if k = [] then .bucket b else .object b k := by
  have cut : Text.splitOnce '/' (b ++ '/' :: k) = some (b, k) :=
    Text.splitOnce_eq_some_iff.mpr ⟨rfl, free⟩
  simp [Target.ofPath, Text.stripPrefix, cut]

lemma segments_cases (x : Text) : '/' ∉ x ∨ ∃ b k, x = b ++ '/' :: k ∧ '/' ∉ b := by
  cases cut : Text.splitOnce '/' x with
  | none => exact .inl (Text.splitOnce_eq_none_iff.mp cut)
  | some p => exact .inr ⟨p.1, p.2, Text.splitOnce_eq_some_iff.mp cut⟩

lemma path_of_bucket (h : Target.ofPath ('/' :: x) = .bucket b) :
    '/' ∉ b ∧ (x = b ∨ x = b ++ ['/']) := by
  obtain free | ⟨b', k', rfl, free⟩ := segments_cases x
  · rw [ofPath_segment free] at h
    split at h
    · cases h
    · obtain rfl := Target.bucket.inj h
      exact ⟨free, .inl rfl⟩
  · rw [ofPath_segments free] at h
    split_ifs at h with hb hk
    · obtain rfl := Target.bucket.inj h
      exact ⟨free, .inr (by rw [hk])⟩

lemma path_of_object (h : Target.ofPath ('/' :: x) = .object b k) : x = b ++ '/' :: k := by
  obtain free | ⟨b', k', rfl, free⟩ := segments_cases x
  · rw [ofPath_segment free] at h
    split at h <;> cases h
  · rw [ofPath_segments free] at h
    split_ifs at h with hb hk
    obtain ⟨rfl, rfl⟩ := Target.object.inj h
    rfl

variable {path : Text}

lemma ofPath_of_route {t : Target} (h : route path = some t) :
    Target.ofPath path = t := by
  unfold route at h
  split at h
  · next trimmed =>
      split at h
      · next cut =>
          rw [ofPath_segment (Text.splitOnce_eq_none_iff.mp cut)]
          exact some.inj h
      · next b k cut =>
          obtain ⟨rfl, free⟩ := Text.splitOnce_eq_some_iff.mp cut
          split at h
          · next nonempty =>
              rw [ofPath_segments free, if_neg nonempty.1, if_neg nonempty.2]
              exact some.inj h
          · cases h
  · cases h

lemma cutPath_withPath (h : '?' ∉ path ∧ '#' ∉ path) (uri : Uri) :
    cutPath (uri.withPath path) = path := by
  cases eq : uri.query with
  | none =>
    simp only [Uri.withPath, eq]
    exact cutPath_of_unmarked h
  | some query =>
    have plain := takeWhile_eq_self_iff.mp (cutPath_of_unmarked h)
    simp only [Uri.withPath, eq, cutPath]
    rw [takeWhile_append_of_pos plain]
    simp [isMark]

/-- A host label with a character that ends the path of a target. -/
def Marked (label : Text) : Prop := '?' ∈ label ∨ '#' ∈ label

instance : DecidablePred Marked := fun _ => inferInstanceAs (Decidable (_ ∨ _))

lemma cutPath_marked {label : Text} (h : Marked label) (rest : Text) :
    cutPath (label ++ rest) = cutPath label := by
  have short : ¬ (cutPath label).length = label.length := by
    intro whole
    have all := takeWhile_eq_self_iff.mp (( takeWhile_prefix _).eq_of_length whole)
    obtain member | member := h
    · simpa [isMark] using all _ member
    · simpa [isMark] using all _ member
  unfold cutPath at short ⊢
  rw [takeWhile_append, if_neg short]

/-- The path of a virtual-hosted request once it is rewritten. A mark in the label
cuts the path of the request off. -/
lemma path_of_virtualHost {r : Request} {domain : Option Text} {label : Text} {uri : Uri}
    (h : r.virtualHost domain = some (label, uri)) :
    label ≠ [] ∧
      uri.path = if Marked label then '/' :: cutPath label else pathStylePath label r.uri.path := by
  obtain ⟨domain, -, h⟩ := bind_eq_some_iff.mp h
  obtain ⟨host, -, h⟩ := bind_eq_some_iff.mp h
  obtain ⟨bucket, found, h⟩ := bind_eq_some_iff.mp h
  obtain ⟨_, parsed, eq⟩ := map_eq_some_iff.mp h
  obtain ⟨rfl, rfl⟩ := Prod.mk.inj eq
  constructor
  · obtain ⟨stem, -, found⟩ := bind_eq_some_iff.mp found
    obtain ⟨label, -, found⟩ := bind_eq_some_iff.mp found
    split at found
    · next nonempty =>
        obtain rfl := some.inj found
        exact nonempty.1
    · cases found
  · rw [(of_parse parsed).1]
    split
    · next marked =>
        -- whatever follows the label, it is cut off with it
        obtain ⟨rest, shape⟩ : ∃ rest, r.uri.withPath (pathStylePath bucket r.uri.path) =
            '/' :: (bucket ++ rest) := by
          unfold Uri.withPath pathStylePath
          split <;> split
          · exact ⟨_, rfl⟩
          · exact ⟨_, by rw [append_assoc]; rfl⟩
          · exact ⟨[], by simp⟩
          · exact ⟨_, rfl⟩
        have first : cutPath ('/' :: (bucket ++ rest)) = '/' :: cutPath (bucket ++ rest) := by
          simp [cutPath, isMark]
        rw [shape, first, cutPath_marked marked]
    · next plain =>
        apply cutPath_withPath
        obtain ⟨question, hash⟩ := not_or.mp plain
        unfold pathStylePath
        split
        · simp [question, hash]
        · simp [question, hash, r.uri.unmarked]

lemma cutQuery_withPath (h : '?' ∉ path ∧ '#' ∉ path) (uri : Uri) :
    cutQuery (uri.withPath path) = uri.query := by
  have plain := takeWhile_eq_self_iff.mp (cutPath_of_unmarked h)
  cases eq : uri.query with
  | none =>
    simp only [Uri.withPath, eq, cutQuery]
    rw [dropWhile_eq_nil_iff.mpr plain]
  | some query =>
    have clean := uri.unhashed
    rw [eq, getD_some] at clean
    simp only [Uri.withPath, eq, cutQuery]
    rw [dropWhile_append_of_pos plain]
    have mark : (!isMark '?') = false := by decide
    rw [dropWhile_cons_of_neg (by simp [mark])]
    simp only [some.injEq]
    apply takeWhile_eq_self_iff.mpr
    intro c member
    simpa using fun e : c = '#' => clean (e ▸ member)

lemma query_stripSlash (uri : Uri) : (stripSlash uri).query = uri.query := by
  unfold stripSlash
  split
  · cases parsed : Uri.parse (uri.withPath uri.path.dropLast) with
    | none => rfl
    | some stripped =>
      rw [getD_some, (of_parse parsed).2]
      apply cutQuery_withPath
      exact ⟨fun h => uri.unmarked.1 (mem_of_mem_dropLast h),
        fun h => uri.unmarked.2 (mem_of_mem_dropLast h)⟩
  · rfl

lemma ofPath_stripSlash (uri : Uri) :
    Target.ofPath (stripSlash uri).path = Target.ofPath uri.path := by
  unfold stripSlash
  split
  · next bucketPath =>
      obtain ⟨long, last, inner⟩ := bucketPath
      cases parsed : Uri.parse (uri.withPath uri.path.dropLast) with
      | none => rfl
      | some stripped =>
        have unmarked : '?' ∉ uri.path.dropLast ∧ '#' ∉ uri.path.dropLast :=
          ⟨fun h => uri.unmarked.1 (mem_of_mem_dropLast h),
            fun h => uri.unmarked.2 (mem_of_mem_dropLast h)⟩
        rw [getD_some, (of_parse parsed).1, cutPath_withPath unmarked]
        -- the path is a slash, a segment and a slash
        obtain ⟨x, path⟩ : ∃ x, uri.path = '/' :: x := by
          cases eq : uri.path with
          | nil => simp [eq] at long
          | cons c x => exact ⟨x, by simpa [eq] using uri.rooted⟩
        rw [path] at long last inner ⊢
        have nonempty : x ≠ [] := by
          rintro rfl
          simp at long
        obtain ⟨segment, rfl⟩ : ∃ segment, x = segment ++ ['/'] := by
          refine ⟨x.dropLast, ?_⟩
          rw [getLast?_cons_of_ne_nil nonempty, getLast?_eq_some_getLast nonempty] at last
          rw [← some.inj last, dropLast_append_getLast]
        have free : '/' ∉ segment := by simpa using inner
        rw [ofPath_segments free]
        have start : ('/' :: (segment ++ ['/'])).dropLast = '/' :: segment := by
          rw [← cons_append, dropLast_concat]
        rw [start, ofPath_segment free]
        simp
  · rfl

end targets

end Arca.Http
