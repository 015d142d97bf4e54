import Arca.Storage.StampedWrites
import Arca.Lib.Text

/-!
# The blob store of one node

A composite blob, the result of a multipart upload assembled without copying, has a
sidecar that lists its parts and no file of its own. Of the encryption and
compression data of a sidecar only the presence is kept, which is all that `concat`
reads.
-/
namespace Arca
open Function

structure CompositePart where
  blobId : String
  plaintextSize : Nat
  plaintextEtag : String
  deriving DecidableEq

structure SidecarMeta where
  bucket : String
  key : String
  size : Nat
  etag : String
  encryption : Bool
  compression : Bool
  versionId : Option String
  composite : Option (List CompositePart)
  deriving DecidableEq

def SidecarMeta.hasValidBlobRefs (m : SidecarMeta) : Bool :=
  match m.composite with
  | none => true
  | some parts => parts.all fun p => blobIdIsValid p.blobId

structure BlobDisk where
  files : String → Option Bytes
  sidecars : String → Option SidecarMeta

namespace BlobDisk

def empty : BlobDisk := ⟨fun _ => none, fun _ => none⟩

def writeRaw (d : BlobDisk) (id : String) (body : Bytes) : BlobDisk :=
  { d with files := update d.files id (some body) }

def writeSidecar (d : BlobDisk) (id : String) (m : SidecarMeta) : BlobDisk :=
  { d with sidecars := update d.sidecars id (some m) }

def deleteBlobFileRaw (d : BlobDisk) (id : String) : BlobDisk :=
  ⟨update d.files id none, update d.sidecars id none⟩

/-- A composite takes its parts with it. -/
def delete (d : BlobDisk) (id : String) : BlobDisk :=
  match (d.sidecars id).bind SidecarMeta.composite with
  | some parts => (parts.foldl (fun d p => d.deleteBlobFileRaw p.blobId) d).deleteBlobFileRaw id
  | none => d.deleteBlobFileRaw id

def isMd5Hex (etag : String) : Bool :=
  etag.toList.length = 32 && etag.toList.all fun c =>
    c.isDigit || ('a' ≤ c && c ≤ 'f') || ('A' ≤ c && c ≤ 'F')

def compositeParts (d : BlobDisk) : List String → Option (List CompositePart)
  | [] => some []
  | id :: ids =>
    match d.sidecars id with
    | none => none
    | some m =>
      if m.encryption || m.compression || !isMd5Hex m.etag then none
      else (compositeParts d ids).map (⟨id, m.size, m.etag⟩ :: ·)

/-- Assembles parts: without copying where that is possible, else into a file.
`none` when a file to copy is missing. -/
def concat (d : BlobDisk) (parts : List String) (output : String) :
    Option (BlobDisk × Option (List CompositePart)) :=
  match d.compositeParts parts with
  | some composite => some (d, some composite)
  | none => (parts.mapM d.files).map fun bodies => (d.writeRaw output bodies.flatten, none)

/-- Every byte of the blob can be read: the sidecar is there, and with it the
file, or the file of every part it lists. -/
def CanServe (d : BlobDisk) (id : String) : Prop :=
  ∃ m, d.sidecars id = some m ∧
    match m.composite with
    | none => (d.files id).isSome
    | some parts => ∀ p ∈ parts, (d.files p.blobId).isSome

instance (d : BlobDisk) (id : String) : Decidable (d.CanServe id) :=
  decidable_of_iff ((d.sidecars id).any fun m =>
      match m.composite with
      | none => (d.files id).isSome
      | some parts => parts.all fun p => (d.files p.blobId).isSome) <| by
    unfold CanServe
    cases d.sidecars id with
    | none => simp
    | some m => cases composite : m.composite <;> simp [composite]

def listed (d : BlobDisk) (id : String) : List CompositePart :=
  ((d.sidecars id).bind SidecarMeta.composite).getD []

/-- The ids that `delete` removes the file and the sidecar of. -/
def reach (d : BlobDisk) (id : String) : List String := id :: (d.listed id).map CompositePart.blobId

section Fields
variable (d : BlobDisk) (id x : String)

@[simp] lemma files_deleteBlobFileRaw :
    (d.deleteBlobFileRaw id).files x = if x = id then none else d.files x :=
  update_apply ..

@[simp] lemma sidecars_deleteBlobFileRaw :
    (d.deleteBlobFileRaw id).sidecars x = if x = id then none else d.sidecars x :=
  update_apply ..

@[simp] lemma files_writeRaw (body : Bytes) :
    (d.writeRaw id body).files x = if x = id then some body else d.files x :=
  update_apply ..

@[simp] lemma sidecars_writeRaw (body : Bytes) : (d.writeRaw id body).sidecars = d.sidecars := rfl

@[simp] lemma files_writeSidecar (m : SidecarMeta) : (d.writeSidecar id m).files = d.files := rfl

@[simp] lemma sidecars_writeSidecar (m : SidecarMeta) :
    (d.writeSidecar id m).sidecars x = if x = id then some m else d.sidecars x :=
  update_apply ..

end Fields

lemma foldl_deleteBlobFileRaw (parts : List CompositePart) (d : BlobDisk) (x : String) :
    (parts.foldl (fun d p => d.deleteBlobFileRaw p.blobId) d).files x =
        (if x ∈ parts.map CompositePart.blobId then none else d.files x) ∧
      (parts.foldl (fun d p => d.deleteBlobFileRaw p.blobId) d).sidecars x =
        (if x ∈ parts.map CompositePart.blobId then none else d.sidecars x) := by
  induction parts generalizing d with
  | nil => simp
  | cons p parts ih =>
    rw [List.foldl_cons, (ih _).1, (ih _).2]
    by_cases same : x = p.blobId <;> simp [same]

section
variable (d : BlobDisk)

lemma delete_eq (id : String) :
    d.delete id = ((d.listed id).foldl (fun d p => d.deleteBlobFileRaw p.blobId) d).deleteBlobFileRaw id := by
  unfold delete listed
  cases (d.sidecars id).bind SidecarMeta.composite <;> rfl

lemma files_delete (id x : String) :
    (d.delete id).files x = if x ∈ d.reach id then none else d.files x := by
  rw [delete_eq, files_deleteBlobFileRaw, (foldl_deleteBlobFileRaw _ _ _).1]
  by_cases same : x = id <;> simp [reach, same]

lemma sidecars_delete (id x : String) :
    (d.delete id).sidecars x = if x ∈ d.reach id then none else d.sidecars x := by
  rw [delete_eq, sidecars_deleteBlobFileRaw, (foldl_deleteBlobFileRaw _ _ _).2]
  by_cases same : x = id <;> simp [reach, same]

/-- An entry of a composite repeats what the sidecar of its part says. -/
def Lists (c : CompositePart) (id : String) : Prop :=
  c.blobId = id ∧ ∃ m, d.sidecars id = some m ∧ c.plaintextEtag = m.etag ∧ c.plaintextSize = m.size

lemma lists_compositeParts {d : BlobDisk} {ids : List String} {parts : List CompositePart}
    (h : d.compositeParts ids = some parts) : List.Forall₂ d.Lists parts ids := by
  induction ids generalizing parts with
  | nil =>
    cases h
    exact .nil
  | cons id ids ih =>
    unfold compositeParts at h
    cases sidecar : d.sidecars id with
    | none => simp [sidecar] at h
    | some m =>
      simp only [sidecar] at h
      split at h
      · cases h
      · obtain ⟨rest, found, rfl⟩ := Option.map_eq_some_iff.mp h
        exact .cons ⟨rfl, m, sidecar, rfl, rfl⟩ (ih found)

/-- What an assembly under `output` leaves: the disk as it was and a list of the
parts, or one new file. -/
def Assembles (ids : List String) (output : String)
    (result : BlobDisk × Option (List CompositePart)) : Prop :=
  (∃ parts, result = (d, some parts) ∧ List.Forall₂ d.Lists parts ids) ∨
    ∃ body, result = (d.writeRaw output body, none)

end

lemma assembles_concat {d : BlobDisk} {ids : List String} {output : String}
    {result : BlobDisk × Option (List CompositePart)} (h : d.concat ids output = some result) :
    d.Assembles ids output result := by
  unfold concat at h
  cases composite : d.compositeParts ids with
  | some parts =>
    simp only [composite, Option.some.injEq] at h
    exact .inl ⟨parts, h.symm, lists_compositeParts composite⟩
  | none =>
    simp only [composite] at h
    obtain ⟨bodies, -, rfl⟩ := Option.map_eq_some_iff.mp h
    exact .inr ⟨_, rfl⟩

end BlobDisk
end Arca
