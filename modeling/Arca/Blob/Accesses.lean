import Arca.Blob.Readers

/-!
# What a GET takes from the disk

A GET reads the sidecar of its blob and opens files one after another: its own file,
or the parts of a composite that the range touches.
-/
namespace Arca.Blob
open Readers List Option EncryptingBlobStore

def innerOpens (id : String) (sidecar : Option SidecarMeta) (range : Option ByteRange) :
    List String :=
  match sidecar.bind SidecarMeta.composite with
  | some parts => (planCompositeRead parts range).1.map (·.part.blobId)
  | none => [id]

/-- The files that the server's stack opens, in order: a compressed file three times for a range. -/
def opens (id : String) (sidecar : Option SidecarMeta) (range : Option ByteRange) : List String :=
  match sidecar.bind SidecarMeta.compression, range with
  | none, _ => innerOpens id sidecar range
  | some info, none => if info.originalSize = 0 then [] else innerOpens id sidecar none
  | some _, some _ => [id, id, id]

/-- A composite is not compressed, and its parts are there and have no parts. -/
def SidecarMeta.flat (d : Disk) (m : SidecarMeta) : Bool :=
  match m.composite with
  | none => true
  | some parts => m.compression.isNone &&
      parts.all fun p => (d.sidecars p.blobId).any (·.composite.isNone)

def Disk.Plain (d : Disk) (id : String) : Prop :=
  ∀ m parts, d.sidecars id = some m → m.composite = some parts → m.compression = none ∧
    ∀ p ∈ parts, (d.sidecars p.blobId).bind SidecarMeta.composite = none

/-- The disks agree on what a read of the blob takes from them. -/
structure Agree (d d' : Disk) (id : String) (range : Option ByteRange) : Prop where
  sidecar : d'.sidecars id = d.sidecars id
  files : ∀ x ∈ opens id (d.sidecars id) range, d'.files x = d.files x
  plain : d.Plain id
  plain' : d'.Plain id

section
variable {L : Libraries} {masterKey : Option MasterKey} {d d' : Disk} {id : String}
  {range : Option ByteRange}

lemma Disk.Keeps.refl (d : Disk) : d.Keeps d := ⟨fun _ _ h => h, fun _ _ h => h⟩

lemma plain_of_flat (flat : ∀ m, d.sidecars id = some m → m.flat d = true) : d.Plain id := by
  intro m parts sidecar listed
  have all := flat m sidecar
  simp only [SidecarMeta.flat, listed, Bool.and_eq_true, isNone_iff_eq_none,
    List.all_eq_true] at all
  refine ⟨all.1, fun p mem => ?_⟩
  have there := all.2 p mem
  cases part : d.sidecars p.blobId with
  | none => rfl
  | some s => simpa [part] using there

lemma Disk.Plain.no_parts {info : CompressionInfo} (plain : d.Plain id)
    (compression : (d.sidecars id).bind SidecarMeta.compression = some info) :
    (d.sidecars id).bind SidecarMeta.composite = none := by
  cases composite : (d.sidecars id).bind SidecarMeta.composite with
  | none => rfl
  | some parts =>
    obtain ⟨m, sidecar, listed⟩ := bind_eq_some_iff.mp composite
    have raw := (plain m parts sidecar listed).1
    rw [sidecar, bind_some, raw] at compression
    cases compression

variable {parts : List CompositePart} {got : BlobGetResult} {streams : List Opened}
  {m : SidecarMeta}

variable {read : PartRead}

lemma mem_planParts {s e length cum : ℕ}
    (mem : read ∈ planParts s e length cum parts) : read.part ∈ parts := by
  induction parts generalizing cum with
  | nil => cases mem
  | cons p parts ih =>
    dsimp only [planParts] at mem
    split at mem
    · exact mem_cons_of_mem _ (ih mem)
    · rcases mem_cons.mp mem with rfl | rest
      · exact mem_cons_self
      · exact mem_cons_of_mem _ (ih rest)

lemma open_congr (same : d'.files id = d.files id) (context : String) :
    d'.open_ id context = d.open_ id context := by
  rw [Disk.open_, Disk.open_, same]

lemma fs_getKnown_congr {sidecar : Option SidecarMeta}
    (no_parts : sidecar.bind SidecarMeta.composite = none) (same : d'.files id = d.files id) :
    FsBlobStore.getKnown d' id sidecar = FsBlobStore.getKnown d id sidecar := by
  funext r
  simp only [FsBlobStore.getKnown, no_parts, open_congr same]

lemma openPart_congr
    (single : (d.sidecars read.part.blobId).bind SidecarMeta.composite = none)
    (single' : (d'.sidecars read.part.blobId).bind SidecarMeta.composite = none)
    (same : d'.files read.part.blobId = d.files read.part.blobId) :
    openPart L masterKey d' read = openPart L masterKey d read := by
  cases masterKey with
  | none => simp only [openPart, FsBlobStore.getPartData, open_congr same]
  | some mk =>
    cases told : read.part.encryption with
    | some info =>
      simp only [openPart, getPart, told,
        getEncrypted, open_congr same]
    | none =>
      simp only [openPart, getPart, told, FsBlobStore.get,
        FsBlobStore.getKnown, single, single', open_congr same]

lemma innerGet_congr {sidecar : Option SidecarMeta}
    (no_parts : sidecar.bind SidecarMeta.composite = none) (same : d'.files id = d.files id) :
    innerGet L masterKey d' id sidecar = innerGet L masterKey d id sidecar := by
  cases masterKey with
  | none => exact fs_getKnown_congr no_parts same
  | some mk =>
    funext r
    simp only [innerGet, getKnown, no_parts, fs_getKnown_congr no_parts same,
      getEncrypted, open_congr same]

lemma readComposite_congr {open_ open' : PartRead → Reading}
    (same : ∀ read ∈ (planCompositeRead parts range).1, open' read = open_ read) :
    readComposite parts range open' = readComposite parts range open_ := by
  have streams : (planCompositeRead parts range).1.map (fun read => (open' read).map BlobGetResult.stream)
      = (planCompositeRead parts range).1.map fun read => (open_ read).map BlobGetResult.stream :=
    map_congr_left fun read mem => by rw [same read mem]
  simp only [readComposite, streams]

lemma innerGet_agree (agree : Agree d d' id range)
    (files : ∀ x ∈ innerOpens id (d.sidecars id) range, d'.files x = d.files x) :
    innerGet L masterKey d' id (d.sidecars id) range = innerGet L masterKey d id (d.sidecars id) range := by
  cases composite : (d.sidecars id).bind SidecarMeta.composite with
  | none =>
    rw [innerGet_congr composite (files id (by rw [innerOpens, composite]; exact mem_singleton_self id))]
  | some parts =>
    obtain ⟨m, sidecar, listed⟩ := bind_eq_some_iff.mp composite
    rw [sidecar, innerGet_composite id listed, innerGet_composite id listed]
    refine readComposite_congr fun read mem => ?_
    have named : read.part ∈ parts := mem_planParts mem
    refine openPart_congr ((agree.plain m parts sidecar listed).2 _ named)
      ((agree.plain' m parts (agree.sidecar.trans sidecar) listed).2 _ named) (files _ ?_)
    rw [innerOpens, composite]
    exact mem_map_of_mem mem

/-- **A read takes nothing else from the disk.** -/
lemma readBlob_agree (agree : Agree d d' id range) :
    readBlob L masterKey d' id range = readBlob L masterKey d id range := by
  rw [readBlob_eq, readBlob_eq, agree.sidecar]
  have files := agree.files
  cases compression : (d.sidecars id).bind SidecarMeta.compression with
  | none =>
    simp only [opens, compression] at files
    simp only [CompressingBlobStore.getKnown, compression, innerGet_agree agree files]
  | some info =>
    simp only [CompressingBlobStore.getKnown, compression]
    cases range with
    | none =>
      simp only [opens, compression] at files
      simp only [CompressingBlobStore.getCompressed, CompressingBlobStore.getCompressedFull]
      split
      · rfl
      · next some_bytes =>
          rw [if_neg some_bytes] at files
          rw [innerGet_agree agree files]
    | some r =>
      simp only [opens, compression] at files
      rw [innerGet_congr (agree.plain.no_parts compression) (files id (mem_cons_self ..))]

lemma file_of_open {file : Bytes} {context : String} (h : d.open_ id context = .ok file) :
    d.files id = some file := by
  unfold Disk.open_ at h
  split at h
  · next found => rw [found, Except.ok.inj h]
  · cases h

lemma file_of_fs {sidecar : Option SidecarMeta}
    (no_parts : sidecar.bind SidecarMeta.composite = none)
    (h : FsBlobStore.getKnown d id sidecar range = .ok got) : (d.files id).isSome := by
  simp only [FsBlobStore.getKnown, no_parts] at h
  obtain ⟨file, opened, -⟩ := ok_of_bind h
  rw [file_of_open opened]
  rfl

lemma file_of_getEncrypted {mk : MasterKey} {info : EncryptionInfo} {size : ℕ}
    (h : getEncrypted L mk d id info size range = .ok got) :
    (d.files id).isSome := by
  obtain ⟨dek, -, rest⟩ := ok_of_bind h
  obtain ⟨nonce4, -, rest⟩ := ok_of_bind rest
  obtain ⟨file, opened, -⟩ := ok_of_bind rest
  rw [file_of_open opened]
  rfl

lemma file_of_innerGet {sidecar : Option SidecarMeta}
    (no_parts : sidecar.bind SidecarMeta.composite = none)
    (h : innerGet L masterKey d id sidecar range = .ok got) : (d.files id).isSome := by
  cases masterKey with
  | none => exact file_of_fs no_parts h
  | some mk =>
    simp only [innerGet, getKnown, no_parts] at h
    split at h
    · exact file_of_getEncrypted h
    · exact file_of_fs no_parts h

lemma file_of_openPart
    (single : (d.sidecars read.part.blobId).bind SidecarMeta.composite = none)
    (h : openPart L masterKey d read = .ok got) : (d.files read.part.blobId).isSome := by
  cases masterKey with
  | none =>
    obtain ⟨file, opened, -⟩ := ok_of_bind (show FsBlobStore.getPartData d _ _ = .ok got from h)
    rw [file_of_open opened]
    rfl
  | some mk =>
    simp only [openPart, getPart] at h
    split at h
    · exact file_of_getEncrypted h
    · exact file_of_fs single h

variable {bytes : Bytes}

lemma opened_of_chainStreams
    (h : chainStreams streams = .ok bytes) : ∀ o ∈ streams, ∃ s, o = .ok s := by
  induction streams generalizing bytes with
  | nil => nofun
  | cons o rest ih =>
    cases o with
    | error e => cases h
    | ok stream =>
      obtain ⟨_, -, h⟩ := ok_of_bind h
      obtain ⟨more, rest_ok, -⟩ := ok_of_bind h
      simp_all

lemma chained_of_concatLazily {stream : Except String Bytes}
    (h : concatLazily streams = .ok stream) : chainStreams streams = stream := by
  unfold concatLazily at h
  split at h
  · cases h
  · exact Except.ok.inj h

variable {length : ℕ}

lemma opened_of_readComposite {open_ : PartRead → Reading}
    (h : readComposite parts range open_ = .ok ⟨.ok bytes, length⟩) :
    ∀ read ∈ (planCompositeRead parts range).1, ∃ got, open_ read = .ok got := by
  obtain ⟨stream, lazily, same⟩ := ok_of_bind h
  cases same
  have chained := chained_of_concatLazily lazily
  intro read mem
  obtain ⟨s, opened⟩ := opened_of_chainStreams chained _ (mem_map_of_mem mem)
  obtain ⟨got, ok, -⟩ := map_ok_iff.mp opened
  exact ⟨got, ok⟩

lemma files_of_innerGet (plain : d.Plain id)
    (h : innerGet L masterKey d id (d.sidecars id) range = .ok ⟨.ok bytes, length⟩) :
    ∀ x ∈ innerOpens id (d.sidecars id) range, (d.files x).isSome := by
  intro x mem
  unfold innerOpens at mem
  cases composite : (d.sidecars id).bind SidecarMeta.composite with
  | none =>
    rw [composite] at mem
    rw [mem_singleton.mp mem]
    exact file_of_innerGet composite h
  | some parts =>
    rw [composite] at mem
    obtain ⟨read, planned, rfl⟩ := mem_map.mp mem
    obtain ⟨m, sidecar, listed⟩ := bind_eq_some_iff.mp composite
    rw [sidecar, innerGet_composite id listed] at h
    obtain ⟨got, opened⟩ := opened_of_readComposite h read planned
    exact file_of_openPart ((plain m parts sidecar listed).2 _ (mem_planParts planned)) opened

/-- **A read that delivers has opened every file of the plan.** -/
lemma files_of_readBlob (plain : d.Plain id)
    (h : readBlob L masterKey d id range = .ok ⟨.ok bytes, length⟩) :
    ∀ x ∈ opens id (d.sidecars id) range, (d.files x).isSome := by
  intro x mem
  rw [readBlob_eq] at h
  unfold CompressingBlobStore.getKnown at h
  unfold opens at mem
  cases compression : (d.sidecars id).bind SidecarMeta.compression with
  | none =>
    rw [compression] at h mem
    exact files_of_innerGet plain h x mem
  | some info =>
    rw [compression] at h mem
    cases range with
    | none =>
      dsimp only at h mem
      split at mem
      · cases mem
      · next some_bytes =>
          simp only [CompressingBlobStore.getCompressed, CompressingBlobStore.getCompressedFull,
            if_neg some_bytes] at h
          obtain ⟨⟨stream, n⟩, inner, same⟩ := ok_of_bind h
          cases stream with
          | error e => cases same
          | ok all => exact files_of_innerGet plain inner x mem
    | some r =>
      have only : x = id := by simpa using mem
      obtain ⟨lens, counted, -⟩ := ok_of_bind h
      obtain ⟨count, fetched, -⟩ := ok_of_bind counted
      obtain ⟨got, inner, -⟩ := ok_of_bind fetched
      rw [only]
      exact file_of_innerGet (plain.no_parts compression) inner

def Disk.reach (d : Disk) (id : String) : List String :=
  id :: (((d.sidecars id).bind SidecarMeta.composite).getD []).map CompositePart.blobId

def Disk.SameOn (d d' : Disk) (ids : List String) : Prop :=
  ∀ x ∈ ids, d'.files x = d.files x ∧ d'.sidecars x = d.sidecars x

lemma mem_reach_part {p : CompositePart}
    (sidecar : d.sidecars id = some m) (listed : m.composite = some parts) (mem : p ∈ parts) :
    p.blobId ∈ d.reach id := by
  simp only [Disk.reach, sidecar, bind_some, listed, getD_some]
  exact mem_cons_of_mem _ (mem_map_of_mem mem)

lemma Disk.SameOn.sidecar (same : d.SameOn d' (d.reach id)) : d'.sidecars id = d.sidecars id :=
  (same id mem_cons_self).2

lemma Disk.SameOn.reach_eq (same : d.SameOn d' (d.reach id)) : d'.reach id = d.reach id := by
  rw [Disk.reach, Disk.reach, same.sidecar]

lemma mem_reach_of_opens {x : String} (mem : x ∈ opens id (d.sidecars id) range) :
    x ∈ d.reach id := by
  have inner : ∀ r, x ∈ innerOpens id (d.sidecars id) r → x ∈ d.reach id := by
    intro r mem
    unfold innerOpens at mem
    split at mem
    · next parts composite =>
        obtain ⟨read, planned, rfl⟩ := mem_map.mp mem
        obtain ⟨m, sidecar, listed⟩ := bind_eq_some_iff.mp composite
        exact mem_reach_part sidecar listed (mem_planParts planned)
    · rw [mem_singleton.mp mem]
      exact mem_cons_self
  unfold opens at mem
  split at mem
  · exact inner _ mem
  · split at mem
    · cases mem
    · exact inner _ mem
  · have only : x = id := by simpa using mem
    rw [only]
    exact mem_cons_self

lemma Disk.SameOn.flat (same : d.SameOn d' (d.reach id))
    (sidecar : d.sidecars id = some m) (flat : m.flat d = true) : m.flat d' = true := by
  unfold SidecarMeta.flat at flat ⊢
  split at flat
  · rfl
  · next parts listed =>
      rw [Bool.and_eq_true, List.all_eq_true] at flat ⊢
      refine ⟨flat.1, fun p mem => ?_⟩
      rw [(same _ (mem_reach_part sidecar listed mem)).2]
      exact flat.2 p mem

lemma Disk.SameOn.plain (same : d.SameOn d' (d.reach id)) (plain : d.Plain id) : d'.Plain id := by
  intro m parts sidecar listed
  rw [same.sidecar] at sidecar
  obtain ⟨raw, single⟩ := plain m parts sidecar listed
  refine ⟨raw, fun p mem => ?_⟩
  rw [(same _ (mem_reach_part sidecar listed mem)).2]
  exact single p mem

lemma Disk.SameOn.agree (same : d.SameOn d' (d.reach id)) (plain : d.Plain id)
    (range : Option ByteRange) : Agree d d' id range :=
  ⟨same.sidecar, fun x mem => (same x (mem_reach_of_opens mem)).1, plain, same.plain plain⟩

end
end Arca.Blob
