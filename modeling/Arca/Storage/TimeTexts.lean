import Arca.Storage.ObjectTable
import Arca.Lib.Text

/-!
# Timestamps as texts

SQLite compares the texts that `to_rfc3339` writes. A fraction has as many groups of
three digits as it needs, so the texts differ in length. Years have four digits, as in
RFC 3339: `parse_from_rfc3339` reads no others.
-/
namespace Arca
open List ObjectTable

/-- Date, second of the day and nanoseconds; in a leap second there is one second more of
these. -/
structure Utc where
  year : ℕ
  month : ℕ
  day : ℕ
  secs : ℕ
  frac : ℕ
  year_lt : year < 10000
  month_le : month ≤ 12
  day_le : day ≤ 31
  secs_lt : secs < 86400
  frac_lt : frac < 2000000000
  leap : 1000000000 ≤ frac → secs % 60 = 59

/-- The last `w` digits of a number. -/
def digits : ℕ → ℕ → Text
  | 0, _ => []
  | w + 1, n => digits w (n / 10) ++ [Text.hexDigit (n % 10)]

/-- The digits of a fraction in groups of three, up to where only zeros are left. -/
def groups : ℕ → ℕ → Text
  | 0, _ => []
  | k + 1, n => if n = 0 then [] else digits 3 (n / 1000 ^ k) ++ groups k (n % 1000 ^ k)

namespace Utc
variable (u : Utc)

/-- The order of date and time, as a number. -/
def instant : Instant :=
  ((((u.year * 13 + u.month) * 32 + u.day) * 86400 + u.secs) * 2000000000 + u.frac : ℕ)

def toRfc3339 : Text :=
  let nanos := u.frac % 1000000000
  digits 4 u.year ++ '-' :: (digits 2 u.month ++ '-' :: (digits 2 u.day ++ 'T' ::
    (digits 2 (u.secs / 3600) ++ ':' :: (digits 2 (u.secs / 60 % 60) ++ ':' ::
    (digits 2 (u.secs % 60 + u.frac / 1000000000) ++
    ((if nanos = 0 then [] else '.' :: groups 3 nanos) ++ "+00:00".toList))))))

/-- What SQLite compares. -/
def stored : Bytes := u.toRfc3339.toUtf8

end Utc

/-- `sortsAfter` on the stored texts. -/
def storedAfter (a b : Utc × ObjectRecord) : Bool :=
  a.1.stored < b.1.stored || (a.1.stored = b.1.stored && (versionLt a.2.versionId b.2.versionId ||
    (a.2.versionId = b.2.versionId && a.2.blobId < b.2.blobId)))

/-- The row to which `recompute_is_latest` gives the flag. -/
def storedWinner (bucket key : String) (rows : List (Utc × ObjectRecord)) :
    Option (Utc × ObjectRecord) :=
  rows.find? fun r => atKey bucket key r.2 && !r.2.isTombstone &&
    rows.all fun x => !(atKey bucket key x.2 && !x.2.isTombstone && storedAfter r x)

/-- A row with its timestamp parsed. -/
def parsed (r : Utc × ObjectRecord) : ObjectRecord := { r.2 with lastModified := r.1.instant }

lemma digits_lt {w a b : ℕ} (less : a < b) (small : b < 10 ^ w) (x y : Text) :
    digits w a ++ x < digits w b ++ y := by
  have table : ∀ b < 10, ∀ a < b, Text.hexDigit a < Text.hexDigit b := by decide
  induction w generalizing a b x y with
  | zero => omega
  | succ w ih =>
    simp only [digits, append_assoc]
    rw [pow_succ] at small
    rcases Nat.lt_or_ge (a / 10) (b / 10) with higher | same
    · exact ih higher (by omega) _ _
    · rw [show a / 10 = b / 10 by omega]
      refine append_left_lt (cons_lt_cons_iff.mpr (.inl ?_))
      exact table _ (Nat.mod_lt _ (by decide)) _ (by omega)

/-- A field decides, or leaves it to the fields after it. -/
lemma field_lt {w a b : ℕ} (small : b < 10 ^ w) {x y : Text} (sep : Char)
    (less : a < b ∨ a = b ∧ x < y) : digits w a ++ sep :: x < digits w b ++ sep :: y := by
  rcases less with lt | ⟨rfl, lt⟩
  · exact digits_lt lt small _ _
  · exact append_left_lt (cons_lt_cons_iff.mpr (.inr ⟨rfl, lt⟩))

lemma groups_lt {k m n : ℕ} (less : m < n) (small : n < 1000 ^ k) (x : Text) :
    groups k m ++ '+' :: x < groups k n ++ '+' :: x := by
  have table : ∀ k < 10, '+' < Text.hexDigit k := by decide
  induction k generalizing m n with
  | zero => omega
  | succ k ih =>
    rw [groups, groups, if_neg (show n ≠ 0 by omega), append_assoc]
    by_cases none : m = 0
    · rw [if_pos none]
      exact cons_lt_cons_iff.mpr (.inl (table _ (Nat.mod_lt _ (by decide))))
    · rw [if_neg none, append_assoc]
      rcases lt_or_eq_of_le (Nat.div_le_div_right less.le) with high | same
      · exact digits_lt high (Nat.div_lt_of_lt_mul (by rwa [pow_succ] at small)) _ _
      · have m_eq := Nat.div_add_mod m (1000 ^ k)
        have n_eq := Nat.div_add_mod n (1000 ^ k)
        rw [same] at m_eq ⊢
        exact append_left_lt (ih (by omega) (Nat.mod_lt _ (by positivity)))

lemma fraction_lt {m n : ℕ} (less : m < n) (small : n < 1000000000) (x : Text) :
    (if m = 0 then [] else '.' :: groups 3 m) ++ '+' :: x <
      (if n = 0 then [] else '.' :: groups 3 n) ++ '+' :: x := by
  rw [if_neg (show n ≠ 0 by omega)]
  split_ifs
  · exact cons_lt_cons_iff.mpr (.inl (by decide))
  · exact cons_lt_cons_iff.mpr (.inr ⟨rfl, groups_lt less small x⟩)

namespace Utc
variable {u v : Utc}

lemma stored_lt (less : u.instant < v.instant) : u.stored < v.stored := by
  have number := Int.ofNat_lt.mp less
  have := u.month_le
  have := u.day_le
  have := u.secs_lt
  have := u.leap
  have := u.frac_lt
  have := v.month_le
  have := v.day_le
  have := v.secs_lt
  have := v.leap
  have := v.frac_lt
  refine Text.toUtf8_lt_iff.mpr (field_lt v.year_lt _ ?_)
  by_cases year : u.year < v.year
  · exact .inl year
  refine .inr ⟨by omega, field_lt (by omega) _ ?_⟩
  by_cases month : u.month < v.month
  · exact .inl month
  refine .inr ⟨by omega, field_lt (by omega) _ ?_⟩
  by_cases day : u.day < v.day
  · exact .inl day
  refine .inr ⟨by omega, field_lt (by omega) _ ?_⟩
  have order : u.secs < v.secs ∨ u.secs = v.secs ∧ u.frac < v.frac := by omega
  clear number
  by_cases hour : u.secs / 3600 < v.secs / 3600
  · exact .inl hour
  refine .inr ⟨by omega, field_lt (by omega) _ ?_⟩
  by_cases minute : u.secs / 60 % 60 < v.secs / 60 % 60
  · exact .inl minute
  refine .inr ⟨by omega, ?_⟩
  by_cases second : u.secs % 60 + u.frac / 1000000000 < v.secs % 60 + v.frac / 1000000000
  · exact digits_lt second (by omega) _ _
  · rw [show u.secs % 60 + u.frac / 1000000000 = v.secs % 60 + v.frac / 1000000000 by omega]
    exact append_left_lt (fraction_lt (by omega) (by omega) _)

lemma stored_eq (same : u.instant = v.instant) : u.stored = v.stored := by
  have number := Int.ofNat_inj.mp same
  obtain ⟨year, month, day, secs, frac⟩ : u.year = v.year ∧ u.month = v.month ∧ u.day = v.day ∧
      u.secs = v.secs ∧ u.frac = v.frac := by
    have := u.month_le
    have := u.day_le
    have := u.secs_lt
    have := u.frac_lt
    have := v.month_le
    have := v.day_le
    have := v.secs_lt
    have := v.frac_lt
    omega
  simp only [stored, toRfc3339, year, month, day, secs, frac]

lemma stored_iff : (u.stored < v.stored ↔ u.instant < v.instant) ∧
    (u.stored = v.stored ↔ u.instant = v.instant) := by
  rcases lt_trichotomy u.instant v.instant with less | same | more
  · have order := stored_lt less
    exact ⟨iff_of_true order less, iff_of_false (fun eq => List.lt_irrefl _ (eq ▸ order)) less.ne⟩
  · have eq := stored_eq same
    exact ⟨iff_of_false (eq ▸ List.lt_irrefl _) same.not_lt, iff_of_true eq same⟩
  · have order := stored_lt more
    exact ⟨iff_of_false (List.lt_asymm order) more.not_gt,
      iff_of_false (fun eq => List.lt_irrefl _ (eq ▸ order)) more.ne'⟩

end Utc

lemma storedAfter_eq (a b : Utc × ObjectRecord) : storedAfter a b = sortsAfter (parsed a) (parsed b) := by
  simp only [storedAfter, sortsAfter, parsed]
  congr! 2
  · exact decide_eq_decide.mpr Utc.stored_iff.1
  · exact decide_eq_decide.mpr Utc.stored_iff.2

/-- **Stored timestamps compare like instants**, and the flag of a key goes to the row that
has it on parsed timestamps. -/
theorem stored_order_chronological (u v : Utc) (bucket key : String)
    (rows : List (Utc × ObjectRecord)) :
    (u.stored < v.stored ↔ u.instant < v.instant) ∧ (u.stored = v.stored ↔ u.instant = v.instant) ∧
    (storedWinner bucket key rows).map parsed =
      (rows.map parsed).find? (canHead bucket key (rows.map parsed)) := by
  refine ⟨Utc.stored_iff.1, Utc.stored_iff.2, ?_⟩
  rw [find?_map, storedWinner]
  congr 2
  funext r
  simp only [storedAfter_eq, canHead, Function.comp_apply, all_map]
  rfl

end Arca
