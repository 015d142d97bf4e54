import Arca.Handlers.ObjectLock
import Arca.Lib.PrefixRange
import Arca.Lifecycle.Configuration

/-!
# What a lifecycle rule selects

The two queries by which the worker finds the object versions of a rule. Texts are
compared by their code points, which is the order of their bytes; a prefix is a
range of keys. Instants are compared as such: their texts all have one form, in
which the order is the same. Versions of a key that differ neither in time nor in
id do not occur.
-/
namespace Arca.Lifecycle
open List

def nextChar (c : Char) : Option Char :=
  if c.toNat = 0xd7ff then some (Char.ofNat 0xe000)
  else if (c.toNat + 1).isValidChar then some (Char.ofNat (c.toNat + 1))
  else none

def prefixUpperBound (p : Text) : Option Text := PrefixRange.upperBound nextChar p

/-- `push_prefix_filter`. -/
def inPrefixRange (p key : String) : Bool :=
  p.toList ≤ key.toList && (prefixUpperBound p.toList).all fun bound => key.toList < bound

lemma isValidChar_toNat (c : Char) : c.toNat.isValidChar := c.valid

lemma lt_iff_toNat {a b : Char} : a < b ↔ a.toNat < b.toNat := Char.lt_def.trans UInt32.lt_iff_toNat_lt

lemma le_iff_toNat {a b : Char} : a ≤ b ↔ a.toNat ≤ b.toNat := Char.le_def.trans UInt32.le_iff_toNat_le

lemma isNext_nextChar : PrefixRange.IsNext nextChar where
  lt_iff {a b} next x := by
    have valid := isValidChar_toNat x
    rw [lt_iff_toNat, le_iff_toNat]
    unfold nextChar at next
    split at next
    · next last =>
        cases next
        rw [last, Char.toNat_ofNat, if_pos (by decide)]
        omega
    · split at next
      · next there =>
          cases next
          rw [Char.toNat_ofNat, if_pos there]
          omega
      · cases next
  top {a} next x := by
    have valid := isValidChar_toNat x
    have here := isValidChar_toNat a
    rw [le_iff_toNat]
    unfold nextChar at next
    split at next
    · cases next
    · split at next
      · cases next
      · next gone => omega

lemma inPrefixRange_iff {p key : String} : inPrefixRange p key = true ↔ p.toList <+: key.toList := by
  rw [← PrefixRange.mem_range_iff isNext_nextChar]
  simp [inPrefixRange, prefixUpperBound, Option.all_eq_true]

/-- What `push_prefix_filter` asks of a key: SQLite compares the bytes of the texts. -/
def pushPrefixFilter (p key : Text) : Bool :=
  p.toUtf8 ≤ key.toUtf8 && (prefixUpperBound p).all fun bound => key.toUtf8 < bound.toUtf8

/-- The range of a prefix holds exactly the keys that start with it. -/
theorem prefix_filter_exact (p key : Text) : pushPrefixFilter p key = true ↔ p <+: key := by
  rw [← PrefixRange.mem_range_iff isNext_nextChar]
  simp [pushPrefixFilter, prefixUpperBound, Option.all_eq_true, ← List.not_lt, Text.toUtf8_lt_iff]

/-- The value under a tag key of a version, given by bucket, key and version id. -/
abbrev TagTable := String → String → String → String → Option String

/-- `COALESCE(version_id, '')`. -/
def tagVersion (r : ObjectRecord) : String := r.versionId.getD ""

def hasTags (tags : TagTable) (wanted : List (String × String)) (r : ObjectRecord) : Bool :=
  wanted.all fun (k, v) => tags r.bucket r.key (tagVersion r) k = some v

structure Versions where
  rows : List ObjectRecord
  tags : TagTable

variable (v : Versions) (bucket : String)

def expiredRow (keyPrefix : Option String)
    (tags : List (String × String)) (cutoff : Instant) (r : ObjectRecord) : Bool :=
  r.bucket = bucket && r.isLatest && !r.isDeleteMarker && r.lastModified < cutoff &&
    keyPrefix.all (inPrefixRange · r.key) && hasTags v.tags tags r

def listExpiredObjects (keyPrefix : Option String)
    (tags : List (String × String)) (cutoff : Instant) (startAfter : Option String) (maxKeys : Nat) :
    List ObjectRecord :=
  (((v.rows.filter fun r => expiredRow v bucket keyPrefix tags cutoff r &&
      startAfter.all (· < r.key)).insertionSort fun a b => a.key ≤ b.key).take maxKeys).map
    ObjectTable.selected

structure NoncurrentExpiry where
  keyPrefix : Option String
  tags : List (String × String)
  cutoff : Instant
  keepNewer : Nat

structure VersionPosition where
  lastModified : Instant
  versionId : String
  deriving DecidableEq

def VersionPosition.of (r : ObjectRecord) : VersionPosition := ⟨r.lastModified, tagVersion r⟩

/-- `ORDER BY last_modified DESC, COALESCE(version_id, '') DESC`. -/
def newerFirst (a b : ObjectRecord) : Prop :=
  b.lastModified < a.lastModified ∨ (a.lastModified = b.lastModified ∧ tagVersion b ≤ tagVersion a)

instance : DecidableRel newerFirst := fun _ _ => inferInstanceAs (Decidable (_ ∨ _))

def isNoncurrent (r : ObjectRecord) : Bool := !r.isLatest && !r.isDeleteMarker

/-- The versions of a key from the newest on, each with the time of the next newer
one and the number of noncurrent versions down to it. -/
def windows (since : Option Instant) (rank : Nat) :
    List ObjectRecord → List (ObjectRecord × Option Instant × Nat)
  | [] => []
  | r :: rows =>
    let rank := if isNoncurrent r then rank + 1 else rank
    (r, since, rank) :: windows (some r.lastModified) rank rows

def comesAfter (r : ObjectRecord) : String × VersionPosition → Bool
  | (key, position) => key < r.key || (key = r.key && (r.lastModified < position.lastModified ||
      (r.lastModified = position.lastModified && tagVersion r < position.versionId)))

variable (rule : NoncurrentExpiry)

def expiredVersion (w : ObjectRecord × Option Instant × Nat) : Bool :=
  isNoncurrent w.1 && w.2.1.any (· < rule.cutoff) && rule.keepNewer < w.2.2 &&
    hasTags v.tags rule.tags w.1

/-- The inner query keeps whole keys. -/
def versionsInRange : List ObjectRecord :=
  v.rows.filter fun r => r.bucket = bucket && !r.isTombstone && rule.keyPrefix.all (inPrefixRange · r.key)

def listNoncurrentExpiredVersions
    (after : Option (String × VersionPosition)) (maxKeys : Nat) : List ObjectRecord :=
  let rows := versionsInRange v bucket rule
  let keys := ((rows.map ObjectRecord.key).dedup).insertionSort (· ≤ ·)
  let found := keys.flatMap fun key =>
    (windows none 0 ((rows.filter fun r => r.key = key).insertionSort newerFirst)).filter fun w =>
      expiredVersion v rule w && after.all (comesAfter w.1)
  ((found.map Prod.fst).take maxKeys).map ObjectTable.selected

variable {r : ObjectRecord}

lemma mem_listExpiredObjects {v : Versions} {bucket : String} {keyPrefix : Option String}
    {tags : List (String × String)} {cutoff : Instant} {startAfter : Option String} {maxKeys : Nat}
    (h : r ∈ listExpiredObjects v bucket keyPrefix tags cutoff startAfter maxKeys) :
    ∃ row ∈ v.rows, r = ObjectTable.selected row ∧
      expiredRow v bucket keyPrefix tags cutoff row = true := by
  obtain ⟨row, mem, rfl⟩ := mem_map.mp h
  have mem := (mem_insertionSort _).mp (mem_of_mem_take mem)
  obtain ⟨mem, expired⟩ := mem_filter.mp mem
  exact ⟨row, mem, rfl, (Bool.and_eq_true_iff.mp expired).1⟩

lemma mem_of_mem_windows {since : Option Instant} {rank : Nat} {rows : List ObjectRecord}
    {w : ObjectRecord × Option Instant × Nat} (h : w ∈ windows since rank rows) : w.1 ∈ rows := by
  induction rows generalizing since rank with
  | nil => cases h
  | cons r rows ih =>
    obtain rfl | h := mem_cons.mp h
    · exact mem_cons_self
    · exact mem_cons_of_mem _ (ih h)

lemma mem_listNoncurrentExpiredVersions {v : Versions} {bucket : String} {rule : NoncurrentExpiry}
    {after : Option (String × VersionPosition)} {maxKeys : Nat}
    (h : r ∈ listNoncurrentExpiredVersions v bucket rule after maxKeys) :
    ∃ row ∈ versionsInRange v bucket rule, r = ObjectTable.selected row ∧ isNoncurrent row = true ∧
      hasTags v.tags rule.tags row = true := by
  obtain ⟨row, taken, rfl⟩ := mem_map.mp h
  obtain ⟨w, found, rfl⟩ := mem_map.mp (mem_of_mem_take taken)
  obtain ⟨key, -, among⟩ := mem_flatMap.mp found
  obtain ⟨window, expired⟩ := mem_filter.mp among
  have mem := (mem_insertionSort _).mp (mem_of_mem_windows window)
  simp only [expiredVersion, Bool.and_eq_true] at expired
  exact ⟨w.1, (mem_filter.mp mem).1, rfl, expired.1.1.1.1, expired.1.2⟩

end Arca.Lifecycle
