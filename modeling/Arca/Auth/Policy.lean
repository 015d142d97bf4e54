import Arca.Lib.Text

/-!
# Policies

Actions, statements and their evaluation with deny overriding allow. The matcher
of resource patterns is the iterative one with a single backtracking point; its
loop is bounded by a number of rounds that is shown to suffice.
-/
namespace Arca.Auth
open List

inductive Action where
  | createBucket
  | deleteBucket
  | listBucket
  | listAllMyBuckets
  | getBucketLocation
  | getBucketEncryption
  | putBucketEncryption
  | deleteBucketEncryption
  | getObject
  | putObject
  | deleteObject
  | getBucketObjectLockConfiguration
  | putBucketObjectLockConfiguration
  | getObjectRetention
  | putObjectRetention
  | getObjectLegalHold
  | putObjectLegalHold
  | bypassGovernanceRetention
  deriving DecidableEq, Repr

def Action.name : Action → Text
  | createBucket => "s3:CreateBucket".toList
  | deleteBucket => "s3:DeleteBucket".toList
  | listBucket => "s3:ListBucket".toList
  | listAllMyBuckets => "s3:ListAllMyBuckets".toList
  | getBucketLocation => "s3:GetBucketLocation".toList
  | getBucketEncryption => "s3:GetBucketEncryption".toList
  | putBucketEncryption => "s3:PutBucketEncryption".toList
  | deleteBucketEncryption => "s3:DeleteBucketEncryption".toList
  | getObject => "s3:GetObject".toList
  | putObject => "s3:PutObject".toList
  | deleteObject => "s3:DeleteObject".toList
  | getBucketObjectLockConfiguration => "s3:GetBucketObjectLockConfiguration".toList
  | putBucketObjectLockConfiguration => "s3:PutBucketObjectLockConfiguration".toList
  | getObjectRetention => "s3:GetObjectRetention".toList
  | putObjectRetention => "s3:PutObjectRetention".toList
  | getObjectLegalHold => "s3:GetObjectLegalHold".toList
  | putObjectLegalHold => "s3:PutObjectLegalHold".toList
  | bypassGovernanceRetention => "s3:BypassGovernanceRetention".toList

inductive Effect where
  | allow
  | deny
  deriving DecidableEq, Repr

structure Statement where
  effect : Effect
  action : List Text
  resource : List Text
  deriving DecidableEq, Repr

structure PolicyDocument where
  statement : List Statement
  deriving DecidableEq, Repr

inductive Evaluation where
  | allow
  | deny
  | noMatch
  deriving DecidableEq, Repr

def matchesAction (pattern action : Text) : Bool :=
  if pattern = "*".toList then true
  else match Text.stripSuffix "*".toList pattern with
    | some start => start.isPrefixOf action
    | none => pattern == action

/-- Where the matcher stands: what is left of the pattern and of the text, and
the same for the place behind the last star it may come back to. -/
structure GlobState where
  pat : Text
  txt : Text
  star : Option (Text × Text)

def GlobState.backtrack (s : GlobState) : Option GlobState :=
  s.star.map fun (pat, txt) => ⟨pat, txt.tail, some (pat, txt.tail)⟩

def globLoop : ℕ → GlobState → Bool
  | 0, _ => false
  | rounds + 1, s =>
    match s.txt with
    | [] => s.pat.all (· == '*')
    | c :: txt =>
      match s.pat with
      | [] => (s.backtrack.map (globLoop rounds)).getD false
      | p :: pat =>
        if p = '?' ∨ p = c then globLoop rounds { s with pat := pat, txt := txt }
        else if p = '*' then globLoop rounds { s with pat := pat, star := some (pat, c :: txt) }
        else (s.backtrack.map (globLoop rounds)).getD false

def globRounds (pattern text : Text) : ℕ := (text.length + 1) * (pattern.length + 2) + pattern.length + 1

def globMatch (pattern text : Text) : Bool :=
  globLoop (globRounds pattern text) ⟨pattern, text, none⟩

def matchesResource (pattern resource : Text) : Bool :=
  if pattern = "*".toList then true else globMatch pattern resource

def evaluateStatement (stmt : Statement) (action resource : Text) : Evaluation :=
  if !stmt.action.any (matchesAction · action) then .noMatch
  else if !stmt.resource.any (matchesResource · resource) then .noMatch
  else match stmt.effect with
    | .allow => .allow
    | .deny => .deny

def denyOverrides (foundAllow : Bool) : List Evaluation → Evaluation
  | [] => if foundAllow then .allow else .noMatch
  | .deny :: _ => .deny
  | .allow :: rest => denyOverrides true rest
  | .noMatch :: rest => denyOverrides foundAllow rest

def evaluatePolicy (doc : PolicyDocument) (action resource : Text) : Evaluation :=
  denyOverrides false (doc.statement.map (evaluateStatement · action resource))

def evaluateGrants (grants : List PolicyDocument) (action resource : Text) : Evaluation :=
  denyOverrides false (grants.map (evaluatePolicy · action resource))

/-- A bound on the rounds left: coming back to a star shortens the text behind
it, every other round shortens the pattern. -/
def GlobState.roundsLeft (size : ℕ) (s : GlobState) : ℕ :=
  (match s.star with
    | none => s.txt.length + 1
    | some (_, txt) => txt.length) * (size + 2) + s.pat.length + 1

/-- Every character of the pattern stands for a part of the text: a star for any part, a `?`
for any character, another one for itself. -/
def Spells : Text → Text → Prop
  | [], text => text = []
  | p :: pat, text => ∃ part rest, text = part ++ rest ∧
      (p = '*' ∨ ∃ c, part = [c] ∧ (p = '?' ∨ p = c)) ∧ Spells pat rest

/-- The text left fits from here on, or when more of the text is left to the last star. -/
def GlobState.Accepts (s : GlobState) : Prop :=
  Spells s.pat s.txt ∨ ∃ p ∈ s.star, ∃ k, Spells p.1 (p.2.drop (k + 1))

/-- Behind the last star the text was read letter by letter, and no star of it for one of
the pattern. -/
structure GlobState.Within (size : ℕ) (s : GlobState) : Prop where
  pat : s.pat.length ≤ size
  plain : '*' ∉ s.txt
  star : ∀ p ∈ s.star, p.1.length ≤ size ∧ '*' ∉ p.2 ∧
    ∃ q, '*' ∉ q ∧ p.1 = q ++ s.pat ∧ s.txt = p.2.drop q.length

open GlobState

variable {s : GlobState} {pat txt q : Text} {c p : Char} {size n : ℕ}

lemma spells_star : Spells ('*' :: pat) txt ↔ ∃ k, Spells pat (txt.drop k) := by
  constructor
  · rintro ⟨part, rest, rfl, -, h⟩
    exact ⟨part.length, by rwa [drop_left]⟩
  · rintro ⟨k, h⟩
    exact ⟨_, _, (take_append_drop k txt).symm, .inl rfl, h⟩

lemma spells_cons (letter : p ≠ '*') :
    Spells (p :: pat) (c :: txt) ↔ (p = '?' ∨ p = c) ∧ Spells pat txt := by
  constructor
  · rintro ⟨part, rest, eq, star | ⟨d, rfl, fits⟩, h⟩
    · exact absurd star letter
    · obtain ⟨rfl, rfl⟩ := cons.inj eq
      exact ⟨fits, h⟩
  · exact fun ⟨fits, h⟩ => ⟨[c], txt, rfl, .inr ⟨c, rfl, fits⟩, h⟩

lemma spells_nil : Spells pat [] ↔ pat.all (· == '*') = true := by
  induction pat with
  | nil => simp [Spells]
  | cons p pat ih => simp [Spells, ih]

lemma spells_drop (letters : '*' ∉ q) (h : Spells (q ++ pat) txt) : Spells pat (txt.drop q.length) := by
  induction q generalizing txt with
  | nil => exact h
  | cons p q ih =>
    obtain ⟨letter, letters⟩ := not_or.mp (mt mem_cons.mpr letters)
    obtain ⟨part, rest, rfl, star | ⟨c, rfl, -⟩, h⟩ := h
    · exact absurd star.symm letter
    · exact ih letters h

lemma accepts_fresh : Accepts ⟨pat, txt, some (pat, txt)⟩ ↔ ∃ k, Spells pat (txt.drop k) := by
  rw [← Nat.or_exists_add_one]
  simp [Accepts]

lemma GlobState.Within.fresh (short : pat.length ≤ size) (plain : '*' ∉ txt) :
    Within size ⟨pat, txt, some (pat, txt)⟩ := by
  refine ⟨short, plain, fun p mem => ?_⟩
  obtain rfl := Option.some.inj mem
  exact ⟨short, plain, [], not_mem_nil, rfl, rfl⟩

/-- What fits behind the last star fits from here on, with more of the text passed over. -/
lemma GlobState.Within.accepts (h : s.Within size) (accepts : s.Accepts) :
    ∃ k, Spells s.pat (s.txt.drop k) := by
  rcases accepts with fits | ⟨⟨pat, txt⟩, star, k, fits⟩
  · exact ⟨0, fits⟩
  · obtain ⟨-, -, q, letters, same, left⟩ := h.star _ star
    refine ⟨k + 1, ?_⟩
    rw [left, drop_drop, Nat.add_comm, ← drop_drop]
    exact spells_drop letters (same ▸ fits)

lemma globLoop_iff (within : s.Within size) (enough : s.roundsLeft size ≤ n) :
    globLoop n s = true ↔ s.Accepts := by
  induction n generalizing s with
  | zero => simp [roundsLeft] at enough
  | succ n ih =>
    have further := within.accepts
    -- where the rest does not fit, the loop goes back to the last star
    have back : s.txt ≠ [] → ¬ Spells s.pat s.txt →
        ((s.backtrack.map (globLoop n)).getD false = true ↔ s.Accepts) := by
      intro nonempty misfit
      rw [Accepts, or_iff_right misfit, backtrack]
      cases star : s.star with
      | none => simp
      | some x =>
        obtain ⟨short, plain, q, -, -, left⟩ := within.star x star
        obtain ⟨pat, _ | ⟨d, txt⟩⟩ := x
        · exact absurd (left.trans drop_nil) nonempty
        · have next := ih (.fresh short (not_or.mp (mt mem_cons.mpr plain)).2) (by
            simp only [roundsLeft, star, length_cons, Nat.add_mul] at enough short ⊢
            omega)
          simp [next, accepts_fresh]
    obtain ⟨pat, txt, star⟩ := s
    cases txt with
    | nil =>
      refine spells_nil.symm.trans ⟨.inl, fun h => ?_⟩
      obtain ⟨k, fits⟩ := further h
      rwa [drop_nil] at fits
    | cons c txt =>
      obtain ⟨letter, plain⟩ := not_or.mp (mt mem_cons.mpr within.plain)
      cases pat with
      | nil => exact back (cons_ne_nil _ _) (cons_ne_nil _ _)
      | cons p pat =>
        have short := within.pat
        simp only [length_cons] at short
        simp only [globLoop]
        split_ifs with fits wild
        · have other : p ≠ '*' := by rintro rfl; simp_all
          rw [ih ⟨Nat.le_of_succ_le short, plain, fun x mem => ?_⟩, Accepts, Accepts, spells_cons other,
            and_iff_right fits]
          · cases star <;> simp only [roundsLeft, length_cons, Nat.add_mul] at enough ⊢ <;> omega
          · obtain ⟨short, free, q, letters, same, left⟩ := within.star x mem
            refine ⟨short, free, q ++ [p], by simp [letters, other.symm], by simp [same], ?_⟩
            rw [length_append, ← drop_drop, ← left]
            rfl
        · subst wild
          rw [ih (.fresh (by omega) within.plain), accepts_fresh]
          · refine ⟨fun h => .inl (spells_star.mpr h), fun h => ?_⟩
            obtain ⟨k, fits⟩ := further h
            obtain ⟨j, fits⟩ := spells_star.mp fits
            exact ⟨_, drop_drop ▸ fits⟩
          · cases star with
            | none => simp only [roundsLeft, length_cons, Nat.add_mul] at enough ⊢; omega
            | some x =>
              obtain ⟨-, -, q, -, -, left⟩ := within.star x rfl
              have longer := (drop_sublist q.length x.2).length_le
              rw [← left] at longer
              have := Nat.mul_le_mul_right (size + 2) longer
              simp only [roundsLeft, length_cons] at this enough ⊢
              omega
        · exact back (cons_ne_nil _ _) fun h => fits ((spells_cons wild).mp h).1

-- a star of the resource is taken for the one of the pattern
example : matchesResource "b/*".toList "b/*k".toList = false := by decide

end Arca.Auth
