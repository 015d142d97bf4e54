import Arca.Blob.Accesses

/-!
# What the assembly of parts holds

The encrypting store joins its parts in order whatever they are: it lists them, or it
decrypts each and encrypts the whole again. If a part is encrypted the plain store
joins the files of the parts as they are on disk, and the result is longer than the
parts together.
-/
namespace Arca.Blob
open RangedReads List Option EncryptingBlobStore Except

def Contents (L : Libraries) (masterKey : Option MasterKey) (d : Disk) (ids : List String)
    (contents : List Bytes) : Prop :=
  List.Forall₂ (fun id content => ∃ m, Part L masterKey d id m content) ids contents

def Disk.Unencrypted (d : Disk) (id : String) : Prop :=
  ∀ m, d.sidecars id = some m → m.encryption = none

section
variable {L : Libraries} {masterKey : Option MasterKey} {d : Disk} {id : String} {ids : List String}
  {contents : List Bytes} {m : SidecarMeta} {content : Bytes}

lemma Serves.unique {read : Option ByteRange → Reading} {x y : Bytes} (hx : Serves read x)
    (hy : Serves read y) : x = y := by
  have same := hx.full.symm.trans hy.full
  exact ok.inj (congrArg BlobGetResult.stream (ok.inj same))

lemma RangedReads.Part.innerGet_serves (h : Part L masterKey d id m content) :
    Serves (innerGet L masterKey d id (d.sidecars id)) content := by
  have size : payloadSize m = content.length := by
    rw [payloadSize, h.raw, h.size]
  rw [h.sidecar]
  exact (h.payload.innerGet_eq h.single size).1

lemma RangedReads.Part.serves (h : Part L masterKey d id m content) :
    Serves (readBlob L masterKey d id) content := by
  rw [readBlob_of_raw h.sidecar h.raw, ← h.sidecar]
  exact h.innerGet_serves

variable {mk : MasterKey}

lemma RangedReads.Part.opened (h : Part L (some mk) d id m content) :
    (get L mk d id none).map BlobGetResult.stream = .ok (.ok content) :=
  congrArg (Except.map BlobGetResult.stream) h.innerGet_serves.full

lemma chainStreams_contents (h : Contents L (some mk) d ids contents) :
    chainStreams (ids.map fun id =>
      (get L mk d id none).map BlobGetResult.stream) = .ok contents.flatten := by
  induction h with
  | nil => rfl
  | cons here _ ih =>
    obtain ⟨m, part⟩ := here
    rw [map_cons, part.opened, chainStreams, ih, flatten_cons]
    rfl

lemma concatLazily_contents (h : Contents L (some mk) d ids contents) :
    concatLazily (ids.map fun id =>
      (get L mk d id none).map BlobGetResult.stream) = .ok (.ok contents.flatten) := by
  have chained := chainStreams_contents h
  cases h with
  | nil => rfl
  | cons here _ =>
    obtain ⟨m, part⟩ := here
    rw [map_cons, part.opened] at chained ⊢
    exact congrArg ok chained

lemma RangedReads.Part.plain_file (h : Part L masterKey d id m content)
    (plain : d.Unencrypted id) : d.files id = some content := by
  have payload := h.payload
  rw [plain m h.sidecar] at payload
  cases payload with
  | plain file => exact file

section
variable (h : Contents L masterKey d ids contents)
include h

lemma joinFiles_contents
    (plain : ∀ id ∈ ids, d.Unencrypted id) : FsBlobStore.joinFiles d ids = .ok contents.flatten := by
  induction h with
  | nil => rfl
  | @cons id content ids contents here _ ih =>
    obtain ⟨m, part⟩ := here
    obtain ⟨first, rest⟩ := forall_mem_cons.mp plain
    rw [FsBlobStore.joinFiles, Disk.open_, part.plain_file first, ok_bind, ih rest, ok_bind,
      flatten_cons]
    rfl

lemma Contents.listed {listed : List CompositePart}
    (told : describe d ids = some listed) : ∃ parts : List (CompositePart × Bytes),
      parts.map Prod.fst = listed ∧ parts.map Prod.snd = contents ∧
        ∀ p ∈ parts, PartStored L masterKey d p.1 p.2 := by
  induction h generalizing listed with
  | nil =>
    cases told
    exact ⟨[], rfl, rfl, forall_mem_nil _⟩
  | @cons id content ids contents here _ ih =>
    obtain ⟨m, part⟩ := here
    simp only [describe, part.sidecar] at told
    obtain ⟨rest, found, rfl⟩ := map_eq_some_iff.mp told
    obtain ⟨parts, rfl, rfl, all⟩ := ih found
    refine ⟨(⟨id, m.size, m.etag, m.encryption⟩, content) :: parts, rfl, rfl,
      forall_mem_cons.mpr ⟨?_, all⟩⟩
    exact ⟨part.payload, part.size, m, part.sidecar, part.single⟩

/-- What is left of an assembly: the blob holds the content, nothing that was there has changed,
and the reported size is the content's. -/
structure Assembly (L : Libraries) (masterKey : Option MasterKey) (d : Disk) (id : String)
    (content : Bytes) (result : Disk × BlobPutResult) (m : SidecarMeta) : Prop where
  keeps : d.Keeps (result.1.writeSidecar id m)
  stored : Stored L masterKey (result.1.writeSidecar id m) id content none
  size : result.2.size = content.length

lemma assembly_listed {listed : List CompositePart}
    (told : describe d ids = some listed) (fresh : d.sidecars id = none)
    (composite : m.composite = some listed) (raw : m.compression = none) {r : BlobPutResult}
    (size : r.size = totalSize listed) :
    Assembly L masterKey d id contents.flatten (d, r) m := by
  obtain ⟨parts, rfl, rfl, all⟩ := h.listed told
  have keeps := keeps_writeSidecar fresh m
  refine ⟨keeps, .composite parts (Function.update_self ..) composite raw rfl
    fun p mem => (all p mem).keep keeps, ?_⟩
  rw [size, totalSize, List.length_flatten, List.map_map, List.map_map]
  exact congrArg List.sum (map_congr_left fun p mem => (all p mem).size)

end

lemma RangedReads.Put.assembly {result : Disk × BlobPutResult}
    (put : Put L masterKey d id content result) (fresh : d.files id = none ∧ d.sidecars id = none)
    (naming : Naming) (etag : String) :
    Assembly L masterKey d id content result (sidecarOf naming etag result.2) := by
  obtain ⟨keeps, sidecar, payload⟩ := put.withSidecar fresh (sidecarOf naming etag result.2)
  exact ⟨keeps, .single sidecar put.single put.raw put.size payload, put.size⟩

lemma Payload.sameOn {d' : Disk} (same : d.SameOn d' ids) (mem : id ∈ ids)
    {e : Option EncryptionInfo} (h : Payload L masterKey d id e content) :
    Payload L masterKey d' id e content := by
  cases h with
  | plain file => exact .plain ((same id mem).1.trans file)
  | sealed key dek length nonce file => exact .sealed key dek length nonce ((same id mem).1.trans file)

lemma Stored.sameOn {d' : Disk} (same : d.SameOn d' (d.reach id)) {chunks : Option ℕ}
    (h : Stored L masterKey d id content chunks) : Stored L masterKey d' id content chunks := by
  have own : id ∈ d.reach id := mem_cons_self
  cases h with
  | single sidecar no_parts raw size payload =>
    exact .single (same.sidecar.trans sidecar) no_parts raw size (payload.sameOn same own)
  | compressed a level sidecar no_parts info payload =>
    exact .compressed a level (same.sidecar.trans sidecar) no_parts info (payload.sameOn same own)
  | composite parts sidecar listed raw joined all =>
    refine .composite parts (same.sidecar.trans sidecar) listed raw joined fun p mem => ?_
    have part : p.1.blobId ∈ d.reach id := mem_reach_part sidecar listed (mem_map_of_mem mem)
    obtain ⟨m, told, single⟩ := (all p mem).single
    exact ⟨(all p mem).payload.sameOn same part, (all p mem).size, m, (same _ part).2.trans told, single⟩

lemma blobIds_describe {listed : List CompositePart} (h : describe d ids = some listed) :
    listed.map CompositePart.blobId = ids := by
  induction ids generalizing listed with
  | nil =>
    cases h
    rfl
  | cons id ids ih =>
    simp only [describe] at h
    split at h
    · cases h
    · obtain ⟨rest, found, rfl⟩ := map_eq_some_iff.mp h
      rw [map_cons, ih found]

section
variable {encrypt : Option Entropy} {result : Disk × BlobPutResult}
  {stack : Option (MasterKey × Entropy)}

section
variable (concat : concatInner L stack d ids id = .ok result)
include concat

/-- All that an assembly does to the disk: it lists the parts, or writes one file. -/
lemma concat_cases :
    (∃ listed, describe d ids = some listed ∧ result.1 = d ∧ result.2.compositeParts = some listed) ∨
      ∃ file, result.1 = d.writeFile id file ∧ result.2.compositeParts = none := by
  cases stack with
  | none =>
    simp only [concatInner, FsBlobStore.concat] at concat
    split at concat
    · next listed found =>
        obtain rfl := ok.inj concat
        exact .inl ⟨listed, describe_of_fs found, rfl, rfl⟩
    · obtain ⟨joined, -, given⟩ := ok_of_bind concat
      obtain rfl := ok.inj given
      exact .inr ⟨joined, rfl, rfl⟩
  | some chosen =>
    obtain ⟨composite, told, concat⟩ := ok_of_bind concat
    cases composite with
    | some listed =>
      obtain rfl := ok.inj concat
      exact .inl ⟨listed, describe_of_encrypting told, rfl, rfl⟩
    | none =>
      obtain ⟨combined, -, concat⟩ := ok_of_bind concat
      obtain ⟨content, -, concat⟩ := ok_of_bind concat
      obtain rfl := ok.inj concat
      exact .inr ⟨_, rfl, rfl⟩

lemma blobIds_concat {listed : List CompositePart}
    (composite : result.2.compositeParts = some listed) : listed.map CompositePart.blobId = ids := by
  rcases concat_cases concat with ⟨told, described, -, same⟩ | ⟨file, -, single⟩
  · obtain rfl := some.inj (same.symm.trans composite)
    exact blobIds_describe described
  · cases single.symm.trans composite

lemma sidecars_concat : result.1.sidecars = d.sidecars := by
  rcases concat_cases concat with ⟨listed, -, same, -⟩ | ⟨file, written, -⟩
  · rw [same]
  · rw [written]
    rfl

end

/-- **The assembly holds the parts in order**, if it encrypts or no part is encrypted. -/
lemma assembly_concat (h : Contents L masterKey d ids contents)
    (fresh : d.files id = none ∧ d.sidecars id = none)
    (concat : concatInner L (stackOf masterKey encrypt) d ids id = .ok result)
    (plain : stackOf masterKey encrypt = none → ∀ p ∈ ids, d.Unencrypted p) (naming : Naming)
    (etag : String) :
    Assembly L masterKey d id contents.flatten result (sidecarOf naming etag result.2) := by
  cases stack : stackOf masterKey encrypt with
  | none =>
    rw [stack] at concat
    simp only [concatInner, FsBlobStore.concat] at concat
    split at concat
    · next listed found =>
        cases concat
        exact assembly_listed h (describe_of_fs found) fresh.2 rfl rfl rfl
    · rw [joinFiles_contents h (plain stack), ok_bind] at concat
      rw [← ok.inj concat]
      have put : Put L masterKey d id contents.flatten (d.writeFile id contents.flatten,
          ⟨contents.flatten.length, etagOf L contents.flatten, none, none, none⟩) :=
        ⟨fun fresh => keeps_writeFile fresh _, rfl, .plain (Function.update_self ..), rfl, rfl, rfl⟩
      exact put.assembly fresh naming etag
  | some chosen =>
    obtain ⟨mk, entropy⟩ := chosen
    have key := masterKey_of_stackOf stack
    subst key
    rw [stack] at concat
    obtain ⟨composite, found, concat⟩ := ok_of_bind concat
    cases composite with
    | some listed =>
      cases concat
      exact assembly_listed h (describe_of_encrypting found) fresh.2 rfl rfl rfl
    | none =>
      simp only [concatLazily_contents h, ok_bind, internalError] at concat
      rw [← ok.inj concat]
      have put : Put L (some mk) d id (Upload.content ((L.arriving contents.flatten).map (·, 4)))
          (put L mk entropy d id ((L.arriving contents.flatten).map (·, 4))) :=
        put_encrypting rfl entropy _
      rw [content_arriving] at put
      exact put.assembly fresh naming etag

lemma RangedReads.Part.file (h : Part L masterKey d id m content) :
    ∃ file, d.files id = some file ∧ content.length ≤ file.length ∧
      (m.encryption ≠ none → content.length < file.length) := by
  have payload := h.payload
  generalize m.encryption = told at payload
  cases payload with
  | plain file => exact ⟨_, file, le_rfl, fun told => absurd rfl told⟩
  | sealed _ _ _ _ file => exact ⟨_, file, (length_lt_file ..).le, fun _ => length_lt_file ..⟩

lemma length_joinFiles (h : Contents L masterKey d ids contents) :
    ∃ joined, FsBlobStore.joinFiles d ids = .ok joined ∧ contents.flatten.length ≤ joined.length ∧
      ((∃ p ∈ ids, ¬ d.Unencrypted p) → contents.flatten.length < joined.length) := by
  induction h with
  | nil => exact ⟨[], rfl, le_rfl, by simp⟩
  | @cons id content ids contents here _ ih =>
    obtain ⟨m, part⟩ := here
    obtain ⟨file, held, long, longer⟩ := part.file
    obtain ⟨rest, joined, rest_long, rest_longer⟩ := ih
    refine ⟨file ++ rest, ?_, ?_, ?_⟩
    · rw [FsBlobStore.joinFiles, Disk.open_, held, ok_bind, joined, ok_bind]
      rfl
    · rw [flatten_cons, length_append, length_append]
      omega
    · rintro ⟨p, mem, encrypted⟩
      rw [flatten_cons, length_append, length_append]
      rcases mem_cons.mp mem with rfl | later
      · have told : m.encryption ≠ none := by
          refine fun plain => encrypted fun m' sidecar => ?_
          rw [part.sidecar] at sidecar
          exact some.inj sidecar ▸ plain
        have := longer told
        omega
      · have := rest_longer ⟨p, later, encrypted⟩
        omega

lemma unencrypted_of_compositeParts {listed : List CompositePart}
    (h : FsBlobStore.compositeParts d ids = some listed) : ∀ p ∈ ids, d.Unencrypted p := by
  induction ids generalizing listed with
  | nil => exact forall_mem_nil _
  | cons id ids ih =>
    simp only [FsBlobStore.compositeParts] at h
    split at h
    · cases h
    next m sidecar =>
    split at h
    · cases h
    next plain =>
    split at h
    · cases h
    obtain ⟨rest, found, -⟩ := map_eq_some_iff.mp h
    refine forall_mem_cons.mpr ⟨fun m' told => ?_, ih found⟩
    rw [sidecar] at told
    obtain rfl := some.inj told
    simpa using fun given => plain (.inl given)

/-- **The plain store over an encrypted part** reports more bytes than the parts have. -/
lemma size_concat_encrypted (h : Contents L masterKey d ids contents)
    (concat : concatInner L none d ids id = .ok result) (encrypted : ∃ p ∈ ids, ¬ d.Unencrypted p) :
    contents.flatten.length < result.2.size := by
  simp only [concatInner, FsBlobStore.concat] at concat
  split at concat
  · next listed found =>
      obtain ⟨p, mem, told⟩ := encrypted
      exact absurd (unencrypted_of_compositeParts found p mem) told
  · obtain ⟨joined, files, -, longer⟩ := length_joinFiles h
    rw [files, ok_bind] at concat
    rw [← ok.inj concat]
    exact longer encrypted

end
end
end Arca.Blob
