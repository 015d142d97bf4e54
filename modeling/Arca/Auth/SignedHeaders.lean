import Arca.Auth.Middleware

/-!
# The headers a signature covers

The canonical headers are made from the values of the headers named as signed, and
from nothing else of the request.
-/
namespace Arca.Http
open List

variable (headers : Headers)

def Headers.values (name : Text) : List Bytes :=
  (headers.filter fun h => h.1.val = name).map Prod.snd

lemma Headers.get_eq_head? (name : Text) : headers.get name = (headers.values name).head? := by
  rw [get, values, head?_map, head?_filter]

lemma Headers.values_cons (h : HeaderName × Bytes) (headers : Headers) (name : Text) :
    Headers.values (h :: headers) name =
      if h.1.val = name then h.2 :: headers.values name else headers.values name := by
  by_cases same : h.1.val = name <;> simp [values, same]

def Headers.withValues (name : HeaderName) (values : List Bytes) : Headers :=
  headers.filter (fun h => h.1 ≠ name) ++ values.map fun v => (name, v)

lemma Headers.values_withValues_self (name : HeaderName) (vs : List Bytes) :
    (headers.withValues name vs).values name.val = vs := by
  have left : (headers.filter fun h => h.1 ≠ name).filter (fun h => h.1.val = name.val) = [] := by
    simp [Subtype.ext_iff]
  have right : (vs.map fun v => (name, v)).filter (fun h => h.1.val = name.val) =
      vs.map fun v => (name, v) := by simp [filter_eq_self]
  rw [values, withValues, filter_append, left, right]
  simp

lemma Headers.values_withValues_of_ne {name : HeaderName} {other : Text}
    (h : other ≠ name.val) (vs : List Bytes) :
    (headers.withValues name vs).values other = headers.values other := by
  have left : (headers.filter fun h => h.1 ≠ name).filter (fun h => h.1.val = other) =
      headers.filter fun h => h.1.val = other := by
    rw [filter_filter]
    apply filter_congr
    intro x _
    by_cases same : x.1.val = other
    · have : x.1 ≠ name := fun e => h (by rw [← same, e])
      simp [same, this]
    · simp [same]
  have right : (vs.map fun v => (name, v)).filter (fun h => h.1.val = other) = [] := by
    simp [filter_eq_nil_iff, h.symm]
  rw [values, withValues, filter_append, left, right, append_nil, values]

end Arca.Http

namespace Arca.Auth
open Http List

section signed
variable {env : Environment} {P : Primitives} {names : List Text} {r r' : Request}

def Signs (P : Primitives) (names : List Text) (name : Text) : Prop :=
  ∃ n ∈ names, P.toLowercase n = name

lemma toLowercase_headerName (P : Primitives) (name : HeaderName) :
    P.toLowercase name.val = name.val := by
  have chars : ∀ c ∈ name.val, c.toNat < 65 ∨ 90 < c.toNat ∧ c.toNat < 128 := by
    intro c member
    simpa using all_eq_true.mp name.property c member
  rw [P.toLowercase_ascii]
  · rw [Text.lower]
    conv_rhs => rw [← map_id name.val]
    apply map_congr_left
    intro c member
    have range := chars c member
    rw [Char.toLower, dif_neg, id]
    rintro ⟨low, high⟩
    have low : 65 ≤ c.toNat := UInt32.le_iff_toNat_le.mp low
    have high : c.toNat ≤ 90 := UInt32.le_iff_toNat_le.mp high
    omega
  · intro c member
    have range := chars c member
    omega

def hostName : Text := "host".toList

def signedValues (env : Environment) (r : Request) (name : Text) : List Text :=
  (r.headers.values name).map (headerValueToString env) ++
    if name = hostName ∧ r.headers.values name = [] then r.uri.authority.toList else []

lemma filterMap_headers (headers : Headers) (name : Text) :
    (headers.map fun h => (h.1.val, headerValueToString env h.2)).filterMap (fun (n, v) =>
        if P.toLowercase n = name then some (name, trimHeaderValue v) else none) =
      ((headers.values name).map (headerValueToString env)).map fun v => (name, trimHeaderValue v) := by
  induction headers with
  | nil => rfl
  | cons h headers ih =>
    simp only [map_cons, filterMap_cons, toLowercase_headerName, Headers.values_cons, ih]
    by_cases same : h.1.val = name <;> simp [same]

lemma any_host_iff (env : Environment) (headers : Headers) :
    ((headers.map fun h => (h.1.val, headerValueToString env h.2)).any (·.1 = hostName)) = true ↔
      headers.values hostName ≠ [] := by
  rw [any_map, any_eq_true, Headers.values, ne_eq, map_eq_nil_iff, filter_eq_nil_iff]
  simp only [Function.comp_apply, decide_eq_true_eq, not_forall, not_not, exists_prop]

lemma headerTexts_eq (env : Environment) (r : Request) :
    headerTexts env r = (r.headers.map fun h => (h.1.val, headerValueToString env h.2)) ++
      if r.headers.values hostName = [] then r.uri.authority.toList.map fun a => (hostName, a) else [] := by
  change (if (r.headers.map fun h => (h.1.val, headerValueToString env h.2)).any (·.1 = hostName) then _
    else _) = _
  by_cases absent : r.headers.values hostName = []
  · rw [if_neg (fun found => (any_host_iff env r.headers).mp found absent), if_pos absent]
    cases r.uri.authority with
    | none => exact (append_nil _).symm
    | some authority => rfl
  · rw [if_pos ((any_host_iff env r.headers).mpr absent), if_neg absent, append_nil]

lemma selectHeaders_headerTexts :
    selectHeaders P (headerTexts env r) names = names.flatMap fun name =>
      (signedValues env r (P.toLowercase name)).map fun v => (P.toLowercase name, trimHeaderValue v) := by
  have lower_host : P.toLowercase hostName = hostName :=
    toLowercase_headerName P (header "host" (by decide))
  apply flatMap_congr
  intro name _
  rw [signedValues, map_append, ← filterMap_headers]
  rw [headerTexts_eq, filterMap_append]
  congr 1
  by_cases host : P.toLowercase name = hostName
  · by_cases absent : r.headers.values hostName = []
    · cases r.uri.authority <;> simp [host, absent, lower_host]
    · simp [host, absent]
  · have other : P.toLowercase hostName ≠ P.toLowercase name := by
      rw [lower_host]
      exact Ne.symm host
    split
    · cases r.uri.authority <;> simp [host, other]
    · simp [host]

lemma selectHeaders_of_values (authority : r'.uri.authority = r.uri.authority)
    (same : ∀ name, Signs P names name → r'.headers.values name = r.headers.values name) :
    selectHeaders P (headerTexts env r') names = selectHeaders P (headerTexts env r) names := by
  rw [selectHeaders_headerTexts, selectHeaders_headerTexts]
  apply flatMap_congr
  intro name member
  have values := same (P.toLowercase name) ⟨name, member, rfl⟩
  rw [signedValues, signedValues, values, authority]

lemma exists_mem_selectHeaders_iff {name : Text} :
    (∃ v, (name, v) ∈ selectHeaders P (headerTexts env r) names) ↔
      Signs P names name ∧ signedValues env r name ≠ [] := by
  rw [selectHeaders_headerTexts]
  simp only [mem_flatMap, mem_map, Prod.mk.injEq]
  constructor
  · rintro ⟨_, n, member, v, found, rfl, -⟩
    exact ⟨⟨n, member, rfl⟩, ne_nil_of_mem found⟩
  · rintro ⟨⟨n, member, rfl⟩, present⟩
    obtain ⟨v, found⟩ := exists_mem_of_ne_nil _ present
    exact ⟨_, n, member, v, found, rfl, rfl⟩

lemma values_eq_nil_iff_of_selectHeaders {name : Text} (signs : Signs P names name)
    (host : name ≠ hostName)
    (same : selectHeaders P (headerTexts env r') names = selectHeaders P (headerTexts env r) names) :
    r'.headers.values name = [] ↔ r.headers.values name = [] := by
  have present : ∀ r : Request, signedValues env r name ≠ [] ↔ r.headers.values name ≠ [] := by
    simp [signedValues, host]
  have found : (∃ v, (name, v) ∈ selectHeaders P (headerTexts env r') names) ↔ _ :=
    exists_mem_selectHeaders_iff
  rw [same, exists_mem_selectHeaders_iff, present, present] at found
  simpa [signs, not_iff_not] using found.symm

end signed

end Arca.Auth
