import Arca.Auth.Sigv4

/-!
# What the canonical query string tells

It tells the decoded pairs up to their order, and nothing else of the query.
-/
namespace Arca.Auth
open List

lemma ascii_of_mem_encode {bs : Bytes} {b : UInt8} (h : b ∈ Percent.encode isUnreserved bs) :
    b.toNat < 128 ∧ b ≠ 38 ∧ b ≠ 61 := by
  have kept : ∀ b : UInt8, isUnreserved b = true → b.toNat < 128 ∧ b ≠ 38 ∧ b ≠ 61 := by decide +kernel
  have digits : ∀ n : Fin 16, (Percent.hexUpper n).toNat < 128 ∧ Percent.hexUpper n ≠ 38 ∧
      Percent.hexUpper n ≠ 61 := by decide
  obtain ⟨unreserved, -⟩ | rfl | ⟨n, small, rfl⟩ := Percent.mem_encode h
  · exact kept b unreserved
  · decide
  · exact digits ⟨n, small⟩

lemma toUtf8_uriEncode (t : Text) : (uriEncode t).toUtf8 = Percent.encode isUnreserved t.toUtf8 :=
  Percent.toUtf8_asciiText fun _ h => (ascii_of_mem_encode h).1

lemma uriEncode_injective : Function.Injective uriEncode := by
  intro t u same
  have decoded : ∀ t : Text, Percent.decode (uriEncode t).toUtf8 = t.toUtf8 := by
    intro t
    rw [toUtf8_uriEncode]
    exact Percent.decode_encode rfl t.toUtf8
  apply Text.toUtf8_injective
  rw [← decoded t, ← decoded u, same]

lemma amp_notMem_uriEncode (t : Text) : '&' ∉ uriEncode t := by
  rw [← Text.mem_toUtf8_iff (by decide), toUtf8_uriEncode]
  exact fun h => (ascii_of_mem_encode h).2.1 rfl

lemma equals_notMem_uriEncode (t : Text) : '=' ∉ uriEncode t := by
  rw [← Text.mem_toUtf8_iff (by decide), toUtf8_uriEncode]
  exact fun h => (ascii_of_mem_encode h).2.2 rfl

def Separable (pairs : List (Text × Text)) : Prop := ∀ p ∈ pairs, '&' ∉ p.1 ∧ '&' ∉ p.2 ∧ '=' ∉ p.1

variable {pairs a b : List (Text × Text)}

lemma splitOn_joinPairs (h : Separable pairs) (nonempty : pairs ≠ []) :
    (joinPairs pairs).splitOn '&' = pairs.map fun (k, v) => k ++ '=' :: v := by
  apply splitOn_intercalate
  · intro piece member
    obtain ⟨p, hp, rfl⟩ := mem_map.mp member
    simp [(h p hp).1, (h p hp).2.1]
  · simpa using nonempty

lemma joinPairs_ne_nil (h : Separable pairs) (nonempty : pairs ≠ []) : joinPairs pairs ≠ [] := by
  intro empty
  have split := splitOn_joinPairs h nonempty
  obtain ⟨p, rest, rfl⟩ := exists_cons_of_ne_nil nonempty
  simp [empty] at split

lemma joinPairs_injective (ha : Separable a) (hb : Separable b)
    (same : joinPairs a = joinPairs b) : a = b := by
  by_cases emptyA : a = []
  · by_contra differ
    exact joinPairs_ne_nil hb (fun e => differ (by rw [emptyA, e])) (by rw [← same, emptyA]; rfl)
  by_cases emptyB : b = []
  · exact absurd (by rw [same, emptyB]; rfl) (joinPairs_ne_nil ha emptyA)
  have pieces := splitOn_joinPairs ha emptyA
  rw [same, splitOn_joinPairs hb emptyB] at pieces
  -- the first `=` of a piece ends its key
  have read : ∀ pairs : List (Text × Text), Separable pairs →
      (pairs.map fun (k, v) => k ++ '=' :: v).map (Text.splitOnce '=') = pairs.map some := by
    intro pairs h
    rw [map_map]
    apply map_congr_left
    intro p hp
    exact Text.splitOnce_eq_some_iff.mpr ⟨rfl, (h p hp).2.2⟩
  have mapped := congrArg (List.map (Text.splitOnce '=')) pieces
  rw [read b hb, read a ha] at mapped
  exact (map_injective_iff.mpr (Option.some_injective _) mapped).symm

lemma pairLe_iff {a b : Text × Text} : pairLe a b ↔ toLex a ≤ toLex b := Prod.Lex.le_iff.symm

instance : Std.Total pairLe where
  total a b := by
    rw [pairLe_iff, pairLe_iff]
    exact le_total _ _

instance : IsTrans (Text × Text) pairLe where
  trans a b c := by
    rw [pairLe_iff, pairLe_iff, pairLe_iff]
    exact le_trans

instance : Std.Antisymm pairLe where
  antisymm a b := by
    rw [pairLe_iff, pairLe_iff]
    intro hab hba
    exact toLex.injective (le_antisymm hab hba)

lemma insertionSort_eq_iff : a.insertionSort pairLe = b.insertionSort pairLe ↔ a.Perm b := by
  have sorted := fun l : List (Text × Text) => perm_insertionSort pairLe l
  constructor
  · intro same
    exact (sorted a).symm.trans (same ▸ sorted b)
  · intro perm
    exact List.Perm.eq_of_pairwise' (pairwise_insertionSort pairLe a)
      (pairwise_insertionSort pairLe b) ((sorted a).trans (perm.trans (sorted b).symm))

def encodePair (p : Text × Text) : Text × Text := (uriEncode p.1, uriEncode p.2)

lemma encodePair_injective : Function.Injective encodePair := by
  intro p q same
  obtain ⟨key, value⟩ := Prod.mk.inj same
  exact Prod.ext (uriEncode_injective key) (uriEncode_injective value)

lemma separable_encoded (pairs : List (Text × Text)) :
    Separable ((pairs.map encodePair).insertionSort pairLe) := by
  intro p member
  obtain ⟨q, -, rfl⟩ := mem_map.mp ((perm_insertionSort pairLe _).mem_iff.mp member)
  exact ⟨amp_notMem_uriEncode _, amp_notMem_uriEncode _, equals_notMem_uriEncode _⟩

lemma canonicalPairs_eq_iff : canonicalPairs a = canonicalPairs b ↔ a.Perm b := by
  have shape : ∀ pairs, canonicalPairs pairs = joinPairs ((pairs.map encodePair).insertionSort pairLe) :=
    fun _ => rfl
  rw [shape, shape, ← map_perm_map_iff encodePair_injective, ← insertionSort_eq_iff]
  constructor
  · exact joinPairs_injective (separable_encoded a) (separable_encoded b)
  · exact congrArg joinPairs

lemma canonicalQueryString_eq_iff {P : Primitives} {q q' : Text} :
    canonicalQueryString P q = canonicalQueryString P q' ↔ (queryPairs P q).Perm (queryPairs P q') :=
  canonicalPairs_eq_iff

end Arca.Auth
