import Arca.Buckets.Emptiness

/-!
# Listing all versions page by page

`list_all_object_versions` reads pages of a thousand rows, each from the position of the
last row before. The columns of the position are never changed in a row, so a row that is
in the table all the time is on one of the pages, whatever is written between them.
-/
namespace Arca.BucketLife
open ObjectTable Lifecycle List

/-- The listing order: keys ascending, and the versions of a key from the newest on. -/
def listRank (key : String) (p : VersionPosition) : String ×ₗ (Instantᵒᵈ ×ₗ Stringᵒᵈ) :=
  toLex (key, toLex (OrderDual.toDual p.lastModified, OrderDual.toDual p.versionId))

def rowRank (r : ObjectRecord) : String ×ₗ (Instantᵒᵈ ×ₗ Stringᵒᵈ) :=
  listRank r.key (VersionPosition.of r)

variable {a b : ObjectRecord}

lemma listsBefore_iff : listsBefore a b ↔ rowRank a ≤ rowRank b := by
  simp only [rowRank, listRank, Prod.Lex.toLex_le_toLex, OrderDual.toDual_lt_toDual,
    OrderDual.toDual_le_toDual, EmbeddingLike.apply_eq_iff_eq, VersionPosition.of]
  rfl

lemma isPast_iff {marker : String} {p : VersionPosition} {r : ObjectRecord} :
    isPast (some marker) (some p) r = true ↔ listRank marker p < rowRank r := by
  simp only [isPast, rowRank, listRank, Prod.Lex.toLex_lt_toLex, OrderDual.toDual_lt_toDual,
    EmbeddingLike.apply_eq_iff_eq, VersionPosition.of, Bool.or_eq_true, Bool.and_eq_true,
    decide_eq_true_eq, eq_comm (a := r.key), eq_comm (a := r.lastModified)]

lemma rowRank_eq_iff : rowRank a = rowRank b ↔
    a.key = b.key ∧ a.lastModified = b.lastModified ∧ tagVersion a = tagVersion b := by
  simp [rowRank, listRank, VersionPosition.of]

instance : Std.Total listsBefore := ⟨fun a b => by
  rw [listsBefore_iff, listsBefore_iff]
  exact le_total _ _⟩

instance : IsTrans ObjectRecord listsBefore := ⟨fun a b c hab hbc => by
  rw [listsBefore_iff] at hab hbc ⊢
  exact hab.trans hbc⟩

variable {t : Tables} {bucket : String} {keyPrefix keyMarker : Option String}
  {after : Option VersionPosition} {limit : ℕ} {r : ObjectRecord}

/-- A row that the query selects is on the page, or the page is full of rows that come before. -/
lemma listed_or_later (mem : r ∈ t.objects) (own : r.bucket = bucket)
    (live : r.isTombstone = false) (in_range : keyPrefix.all (inPrefixRange · r.key) = true)
    (past : isPast (keyMarker.filter (· ≠ "")) after r = true) :
    selected r ∈ t.listObjectVersionsFrom bucket keyPrefix keyMarker after limit ∨
      (t.listObjectVersionsFrom bucket keyPrefix keyMarker after limit).length = limit ∧
        ∀ x ∈ t.listObjectVersionsFrom bucket keyPrefix keyMarker after limit,
          rowRank x ≤ rowRank r := by
  unfold Tables.listObjectVersionsFrom
  dsimp only
  generalize found : t.objects.filter _ = rows
  have sorted := pairwise_insertionSort listsBefore rows
  have there : r ∈ rows.insertionSort listsBefore := by
    rw [mem_insertionSort, ← found, mem_filter]
    simp only [own, live, in_range, past, decide_true, Bool.not_false, Bool.and_self, and_self, mem]
  generalize rows.insertionSort listsBefore = order at sorted there
  rw [← take_append_drop limit order] at sorted there
  rcases mem_append.mp there with front | back
  · exact .inl (mem_map_of_mem front)
  · refine .inr ⟨?_, ?_⟩
    · have long : limit < order.length := by
        by_contra short
        rw [drop_eq_nil_of_le (not_lt.mp short)] at back
        cases back
      simp [long.le]
    · intro x listed
      obtain ⟨y, front, rfl⟩ := mem_map.mp listed
      exact listsBefore_iff.mp ((pairwise_append.mp sorted).2.2 y front r back)

lemma mem_listed (h : r ∈ t.listObjectVersionsFrom bucket keyPrefix keyMarker after limit) :
    ∃ x ∈ t.objects, r = selected x ∧ x.bucket = bucket ∧ x.isTombstone = false := by
  obtain ⟨x, taken, rfl⟩ := mem_map.mp h
  have mem := (mem_insertionSort _).mp (mem_of_mem_take taken)
  obtain ⟨mem, chosen⟩ := mem_filter.mp mem
  simp only [Bool.and_eq_true, decide_eq_true_eq, Bool.not_eq_true'] at chosen
  exact ⟨x, mem, rfl, chosen.1.1.1, chosen.1.1.2⟩

end Arca.BucketLife
