import Arca.Storage.Replica
import Arca.Types

/-!
# Preconditions of conditional writes and deletes

An ETag is stored without quotes and sent with them.
-/
namespace Arca
open List

def quote : Char := Char.ofNat 34

def trimQuotes (t : Text) : Text := (t.dropWhile (· = quote)).rdropWhile (· = quote)

def etagMatches (header etag : Text) : Bool :=
  let trimmed := Text.trim header
  trimmed = ['*'] ||
    (trimmed.splitOn ',').any fun v => trimQuotes (Text.trim v) = trimQuotes etag

def quotedEtag (r : ObjectRecord) : Text := quote :: r.etag.toList ++ [quote]

structure WritePrecondition where
  ifMatch : Option Text
  ifNoneMatch : Option Text
  deriving DecidableEq

namespace WritePrecondition

/-- The current object is the one `get_object` would see. -/
def evaluate (p : WritePrecondition) (current : Option ObjectRecord) : Except S3ErrorCode Unit :=
  match p.ifMatch, current with
  | some _, none => .error .noSuchKey
  | some expected, some r =>
    if !etagMatches expected (quotedEtag r) then .error .preconditionFailed
    else if p.ifNoneMatch.any (etagMatches · (quotedEtag r)) then .error .preconditionFailed
    else .ok ()
  | none, some r =>
    if p.ifNoneMatch.any (etagMatches · (quotedEtag r)) then .error .preconditionFailed else .ok ()
  | none, none => .ok ()

def accepts (p : WritePrecondition) (current : Option ObjectRecord) : Bool :=
  (p.evaluate current).isOk

end WritePrecondition

/-- An instant is counted in nanoseconds. -/
def wholeSeconds (t : Instant) : Int := t / 1000000000

structure DeletePrecondition where
  ifMatch : Option Text
  ifMatchLastModified : Option Instant
  ifMatchSize : Option Nat
  ifMatchBlobId : Option String
  deriving DecidableEq

namespace DeletePrecondition

/-- Nothing is asked of an absent object. -/
def evaluate (p : DeletePrecondition) : Option ObjectRecord → Except S3ErrorCode Unit
  | none => .ok ()
  | some r =>
    if p.ifMatch.any (fun expected => !etagMatches expected (quotedEtag r)) then
      .error .preconditionFailed
    else if p.ifMatchLastModified.any (fun t => wholeSeconds r.lastModified ≠ wholeSeconds t) then
      .error .preconditionFailed
    else if p.ifMatchSize.any (r.size ≠ ·) then .error .preconditionFailed
    else if p.ifMatchBlobId.any (r.blobId ≠ ·) then .error .preconditionFailed
    else .ok ()

def accepts (p : DeletePrecondition) (current : Option ObjectRecord) : Bool :=
  (p.evaluate current).isOk

end DeletePrecondition

namespace ObjectTable

/-- What `install_object` commits and the object it overwrites. -/
def installObjectIf (t : ObjectTable) (record : ObjectRecord) (pre : WritePrecondition)
    (uuid : String) : Except S3ErrorCode ObjectTable :=
  match pre.evaluate (fetchCurrentObject record.bucket record.key t.rows) with
  | .error code => .error code
  | .ok () => .ok ((t.installObject record pre.accepts uuid).getD t)

lemma installObject_of_accepts {t : ObjectTable} {record : ObjectRecord}
    {pre : Option ObjectRecord → Bool} (uuid : String)
    (ok : pre (fetchCurrentObject record.bucket record.key t.rows) = true) :
    (t.installObject record pre uuid).isSome :=
  Option.isSome_iff_exists.mpr ⟨_, installObject_eq_some_iff.mpr ⟨ok, rfl⟩⟩

variable {t t' : ObjectTable} {record : ObjectRecord} {uuid : String}

lemma installObjectIf_of_accepts {pre : WritePrecondition} (uuid : String)
    (accepted : pre.accepts (fetchCurrentObject record.bucket record.key t.rows) = true) :
    ∃ t', t.installObjectIf record pre uuid = .ok t' := by
  unfold installObjectIf
  cases verdict : pre.evaluate (fetchCurrentObject record.bucket record.key t.rows) with
  | error code =>
    rw [WritePrecondition.accepts, verdict] at accepted
    cases accepted
  | ok => exact ⟨_, rfl⟩

lemma installObjectIf_ok {pre : WritePrecondition}
    (h : t.installObjectIf record pre uuid = .ok t') :
    pre.accepts (fetchCurrentObject record.bucket record.key t.rows) = true ∧
      t.installObject record pre.accepts uuid = some t' := by
  unfold installObjectIf at h
  cases verdict : pre.evaluate (fetchCurrentObject record.bucket record.key t.rows) with
  | error code => simp [verdict] at h
  | ok =>
    have accepted : pre.accepts (fetchCurrentObject record.bucket record.key t.rows) = true := by
      rw [WritePrecondition.accepts, verdict]
      rfl
    simp only [verdict, Except.ok.injEq] at h
    obtain ⟨t₁, installed⟩ := Option.isSome_iff_exists.mp (installObject_of_accepts uuid accepted)
    rw [installed] at h
    exact ⟨accepted, h ▸ installed⟩

variable {pre : Option ObjectRecord → Bool}

lemma mem_installObject
    (h : t.installObject record pre uuid = some t') {r : ObjectRecord} (mem : r ∈ t'.rows) :
    (∃ x ∈ t.rows, t.replaced record.bucket record.key x = false ∧ r.replicated = x.replicated) ∨
      r.replicated = (t.storedRow record uuid).replicated := by
  have image := mem_map_of_mem (f := ObjectRecord.replicated) mem
  rw [map_replicated_installObject h, mem_append, mem_singleton] at image
  refine image.imp_left fun old => ?_
  obtain ⟨x, hx, eq⟩ := mem_map.mp old
  obtain ⟨mem, stays⟩ := mem_filter.mp hx
  exact ⟨x, mem, by simpa using stays, eq.symm⟩

lemma exists_installObject
    (h : t.installObject record pre uuid = some t') :
    ∃ r ∈ t'.rows, r.replicated = (t.storedRow record uuid).replicated := by
  have image : (t.storedRow record uuid).replicated ∈ t'.rows.map ObjectRecord.replicated := by
    rw [map_replicated_installObject h]
    exact mem_append_right _ (mem_singleton_self _)
  exact mem_map.mp image

end ObjectTable
end Arca
