import Arca.Blob.Assembly
import Arca.Lib.LastPerKey
import Arca.Multipart.Dangling

/-!
# What CompleteMultipartUpload assembles

The request names parts in any order and a number as often as it likes; of each
number the entry given last counts. The object that the request leaves is the parts
in ascending order, except that the plain store joins the files of encrypted parts as
they are on disk.
-/
namespace Arca.Completion
open ObjectTable Multipart Blob RangedReads LastPerKey List Option PartRecord Prod

structure State where
  disk : Disk
  multipart : MultipartTables
  table : ObjectTable

def Kept (L : Libraries) (masterKey : Option MasterKey) (d : Disk) (p : PartRecord) : Prop :=
  ∃ m content, Part L masterKey d p.blobId m content ∧ p.size = content.length ∧
    p.etag = etagOf L content

structure Sound (L : Libraries) (masterKey : Option MasterKey) (s : State) : Prop where
  kept : ∀ p ∈ s.multipart.parts, Kept L masterKey s.disk p
  numbers : s.multipart.parts.Pairwise fun p q =>
    p.uploadId = q.uploadId → p.partNumber ≠ q.partNumber
  blobs : s.multipart.parts.Pairwise fun p q => p.blobId ≠ q.blobId
  rows : ∀ r ∈ s.table.rows, ∀ p ∈ s.multipart.parts, p.blobId ∉ s.disk.reach r.blobId

structure Store (L : Libraries) (masterKey : Option MasterKey) extends State where
  sound : Sound L masterKey toState

structure Drawn (s : State) where
  id : String
  file : s.disk.files id = none
  sidecar : s.disk.sidecars id = none
  rows : ∀ r ∈ s.table.rows, id ∉ s.disk.reach r.blobId

section
variable {L : Libraries} {masterKey : Option MasterKey} {d d' : Disk} {p q : PartRecord} {s : State}

lemma Kept.keep (keeps : d.Keeps d') (h : Kept L masterKey d p) : Kept L masterKey d' p := by
  obtain ⟨m, content, part, size, etag⟩ := h
  exact ⟨m, content, ⟨keeps.sidecars _ _ part.sidecar, part.single, part.raw, part.size,
    part.payload.keep keeps⟩, size, etag⟩

lemma Sound.not_drawn (h : Sound L masterKey s) (blob : Drawn s) (mem : p ∈ s.multipart.parts) :
    p.blobId ≠ blob.id := by
  obtain ⟨m, content, part, -⟩ := h.kept p mem
  intro same
  have sidecar := part.sidecar
  rw [same, blob.sidecar] at sidecar
  cases sidecar

lemma Drawn.reach (blob : Drawn s) (same : ∀ x ≠ blob.id, d.sidecars x = s.disk.sidecars x)
    {r : ObjectRecord} (mem : r ∈ s.table.rows) : d.reach r.blobId = s.disk.reach r.blobId := by
  have apart : r.blobId ≠ blob.id := fun same => blob.rows r mem (same ▸ mem_cons_self)
  rw [Disk.reach, Disk.reach, same _ apart]

end

def State.uploadPart (L : Libraries) (masterKey : Option MasterKey) (s : State) (uploadId : String)
    (partNumber : ℕ) (blob : Drawn s) (encrypt : Option Entropy) (stream : Upload) (naming : Naming)
    (checksum : Option String) (now : Instant) : State :=
  let (d, result) := putInner L (stackOf masterKey encrypt) s.disk blob.id stream
  { s with
    disk := d.writeSidecar blob.id (sidecarOf naming result.etag result)
    multipart := s.multipart.putPart
      ⟨uploadId, partNumber, blob.id, result.size, result.etag, checksum, some now⟩ }

section
variable {L : Libraries} {masterKey : Option MasterKey} {s : State} {p : PartRecord}

lemma etag_putInner (stack : Option (MasterKey × Entropy)) (d : Disk) (id : String) (stream : Upload) :
    (putInner L stack d id stream).2.etag = etagOf L stream.content := by
  cases stack with
  | none => rfl
  | some => rfl

lemma pairwise_putPart {R : PartRecord → PartRecord → Prop} {t : MultipartTables}
    (h : t.parts.Pairwise R) (new : ∀ q ∈ t.parts,
      isPart p.uploadId p.partNumber q = false → R q p) : (t.putPart p).parts.Pairwise R := by
  refine pairwise_append.mpr ⟨h.sublist filter_sublist, pairwise_singleton _ _, ?_⟩
  intro q mem x last
  rw [mem_singleton.mp last]
  obtain ⟨old, other⟩ := mem_filter.mp mem
  exact new q old (by simpa using other)

lemma sound_uploadPart (h : Sound L masterKey s) (uploadId : String) (partNumber : ℕ)
    (blob : Drawn s) (encrypt : Option Entropy) (stream : Upload) (naming : Naming)
    (checksum : Option String) (now : Instant) : Sound L masterKey
      (s.uploadPart L masterKey uploadId partNumber blob encrypt stream naming checksum now) := by
  have put := put_inner L masterKey s.disk blob.id encrypt stream
  have etag := etag_putInner (L := L) (stackOf masterKey encrypt) s.disk blob.id stream
  unfold State.uploadPart
  generalize putInner L (stackOf masterKey encrypt) s.disk blob.id stream = result at put etag
  obtain ⟨keeps, sidecar, payload⟩ := put.withSidecar ⟨blob.file, blob.sidecar⟩
    (sidecarOf naming result.2.etag result.2)
  refine ⟨fun p mem => ?_, pairwise_putPart h.numbers fun q old other upload number => ?_,
    pairwise_putPart h.blobs fun q old _ => h.not_drawn blob old, fun r row p mem reached => ?_⟩
  · rcases MultipartTables.mem_putPart.mp mem with ⟨old, -⟩ | rfl
    · exact (h.kept p old).keep keeps
    · exact ⟨_, stream.content, ⟨sidecar, put.single, put.raw, put.size, payload⟩, put.size, etag⟩
  · simp [isPart, upload, number] at other
  · rw [blob.reach (fun x other => ?_) row] at reached
    · rcases MultipartTables.mem_putPart.mp mem with ⟨old, -⟩ | rfl
      · exact h.rows r row p old reached
      · exact blob.rows r row reached
    · exact (Function.update_of_ne other ..).trans (congrFun put.sidecars x)

def Store.uploadPart (s : Store L masterKey) (uploadId : String) (partNumber : ℕ)
    (blob : Drawn s.toState) (encrypt : Option Entropy) (stream : Upload) (naming : Naming)
    (checksum : Option String) (now : Instant) : Store L masterKey :=
  ⟨_, sound_uploadPart s.sound uploadId partNumber blob encrypt stream naming checksum now⟩

end
/-- A request, with what the handler draws and reads beside it: the blob id, the randomness of
the store it writes through if that encrypts, the clock and a version id. -/
structure Request (s : State) where
  bucket : String
  key : String
  uploadId : String
  body : CompleteRequest
  blob : Drawn s
  encrypt : Option Entropy
  now : Instant
  lastModified : String
  uuid : String

structure Done where
  state : State
  record : ObjectRecord
  discards : List String

/-- A request for an upload that is gone is answered from the object of its key. -/
inductive Reply where
  | repeated (etag : String)
  | assembled (done : Done)

section
variable (L : Libraries) (masterKey : Option MasterKey) (a : Assembler) (s : State)

def repeatedReply (bucket key : String) : Except S3ErrorCode Reply :=
  match fetchCurrentObject bucket key s.table.rows with
  | none => .error .noSuchUpload
  | some r => if '-' ∈ r.etag.toList then .ok (.repeated r.etag) else .error .noSuchUpload

def namingOf (upload : MultipartUploadRecord) (lastModified : String) : Naming :=
  ⟨upload.bucket, upload.key, upload.contentType, lastModified, upload.metadata⟩

/-- The old object's blob goes with its parts. The parts of the upload go unless the new
object lists them. -/
def discardsOf (upload : MultipartUploadRecord) (composite : Bool) : List String :=
  ((s.table.overwritten upload.bucket upload.key).map fun r => s.disk.reach r.blobId).getD [] ++
    if composite then [] else (s.multipart.partsOf upload.uploadId).map blobId

def assemble (q : Request s) (upload : MultipartUploadRecord) (matched : List PartRecord)
    (checksum : Option ObjectChecksum) : Except S3ErrorCode Done := do
  let (d, r) ← (concatInner L (stackOf masterKey q.encrypt) s.disk (matched.map blobId)
    q.blob.id).mapError fun _ => S3ErrorCode.internalError
  let etag ← (compositeEtag a matched).elim (.error .internalError) .ok
  let record := assembledRecord upload q.body matched checksum q.blob.id etag r.size
    (r.encryption.map EncryptionInfo.keyId) q.now
  let d := d.writeSidecar q.blob.id (sidecarOf (namingOf upload q.lastModified) etag r)
  let table ← s.table.installObjectIf record q.body.pre q.uuid
  return ⟨⟨d, s.multipart.takeUpload q.uploadId, table⟩, record, discardsOf s upload r.compositeParts.isSome⟩

def complete (q : Request s) : Except S3ErrorCode Reply :=
  match s.multipart.getMultipartUpload q.uploadId with
  | none => repeatedReply s q.bucket q.key
  | some upload =>
    if upload.bucket ≠ q.bucket ∨ upload.key ≠ q.key then .error .noSuchUpload
    else do
      q.body.pre.evaluate (fetchCurrentObject q.bucket q.key s.table.rows)
      let (matched, checksum) ← selectParts a (s.multipart.listParts q.uploadId) upload q.body
      let done ← assemble L masterKey a s q upload matched checksum
      return .assembled done

end
/-- The parts that the entries name, with what they hold: of each number, in ascending order,
the stored part that the entry given last has the ETag of. -/
structure Chosen (L : Libraries) (masterKey : Option MasterKey) (s : State) (uploadId : String)
    (entries : List CompletePart) (chosen : List (PartRecord × Bytes)) : Prop where
  ascending : chosen.Pairwise fun x y => x.1.partNumber < y.1.partNumber
  numbers : ∀ n, n ∈ chosen.map (·.1.partNumber) ↔ n ∈ entries.map CompletePart.partNumber
  stored : ∀ x ∈ chosen, x.1 ∈ s.multipart.parts ∧ x.1.uploadId = uploadId
  named : ∀ x ∈ chosen, ∃ e, lastEntry CompletePart.partNumber entries x.1.partNumber = some e ∧
    trimQuotes e.etag = x.1.etag.toList
  reads : ∀ x ∈ chosen, Serves (readBlob L masterKey s.disk x.1.blobId) x.2

def Disk.without (d : Disk) (gone : List String) : Disk where
  files x := if x ∈ gone then none else d.files x
  sidecars x := if x ∈ gone then none else d.sidecars x

/-- The object is the chosen parts: it is in the table, it reads as their concatenation while
the discarded blobs go, and its size, its ETag and its layout are theirs. -/
structure Assembles (L : Libraries) (masterKey : Option MasterKey) (s : State) (q : Request s)
    (done : Done) (chosen : List (PartRecord × Bytes)) : Prop where
  row : ∃ r ∈ done.state.table.rows, r.replicated = (s.table.storedRow done.record q.uuid).replicated
  reads : ∀ gone ⊆ done.discards, Serves
    (readBlob L masterKey (Disk.without done.state.disk gone) done.record.blobId)
    (chosen.map snd).flatten
  size : done.record.size = (chosen.map fun x => x.1.size).sum
  etag : done.record.etag = etagOf L (chosen.map fun x => L.md5 x.2).flatten ++ "-" ++
    toString chosen.length
  layout : ∃ parts, done.record.parts = some parts ∧
    parts.map ObjectPart.partNumber = chosen.map (·.1.partNumber) ∧
    (parts.map ObjectPart.size).splitLengths (chosen.map snd).flatten = chosen.map snd

section
variable {L : Libraries} {masterKey : Option MasterKey} {a : Assembler} {s : State} {q : Request s}
  {u : String} {entries : List CompletePart} {chosen chosen' : List (PartRecord × Bytes)}

lemma Sound.part_unique (h : Sound L masterKey s) {p p' : PartRecord} (mem : p ∈ s.multipart.parts)
    (mem' : p' ∈ s.multipart.parts) (upload : p.uploadId = p'.uploadId)
    (number : p.partNumber = p'.partNumber) : p = p' := by
  have symm : Std.Symm fun p q : PartRecord => p.uploadId = q.uploadId → p.partNumber ≠ q.partNumber :=
    ⟨fun _ _ apart upload number => apart upload.symm number.symm⟩
  by_contra other
  exact h.numbers.forall mem mem' other upload number

lemma Chosen.subset (h : Sound L masterKey s) (c : Chosen L masterKey s u entries chosen)
    (c' : Chosen L masterKey s u entries chosen') : chosen ⊆ chosen' := by
  intro x mem
  have number : x.1.partNumber ∈ chosen'.map (·.1.partNumber) :=
    (c'.numbers _).mpr ((c.numbers _).mp (mem_map_of_mem mem))
  obtain ⟨y, mem', same⟩ := mem_map.mp number
  obtain ⟨here, upload⟩ := c.stored x mem
  obtain ⟨here', upload'⟩ := c'.stored y mem'
  have part : x.1 = y.1 := h.part_unique here here' (upload.trans upload'.symm) same.symm
  have content : x.2 = y.2 := (c.reads x mem).unique (part ▸ c'.reads y mem')
  exact Prod.ext part content ▸ mem'

/-- **There is one such list.** -/
lemma Chosen.unique (h : Sound L masterKey s) (c : Chosen L masterKey s u entries chosen)
    (c' : Chosen L masterKey s u entries chosen') : chosen = chosen' := by
  have nodup : ∀ {l : List (PartRecord × Bytes)},
      (l.Pairwise fun x y => x.1.partNumber < y.1.partNumber) → l.Nodup := fun sorted =>
    sorted.imp fun below same => below.ne (congrArg (fun x => x.1.partNumber) same)
  have perm := (perm_ext_iff_of_nodup (nodup c.ascending) (nodup c'.ascending)).mpr fun x =>
    ⟨fun mem => c.subset h c' mem, fun mem => c'.subset h c mem⟩
  refine perm.eq_of_pairwise (fun x y _ _ below above => ?_) c.ascending c'.ascending
  exact absurd below above.not_gt

def Holds (L : Libraries) (masterKey : Option MasterKey) (d : Disk) (x : PartRecord × Bytes) : Prop :=
  ∃ m, Part L masterKey d x.1.blobId m x.2 ∧ x.1.size = x.2.length ∧ x.1.etag = etagOf L x.2

variable {matched : List PartRecord} {checksum : Option ObjectChecksum}

lemma exists_holds {d : Disk} (h : ∀ p ∈ matched, Kept L masterKey d p) :
    ∃ chosen : List (PartRecord × Bytes), chosen.map fst = matched ∧
      ∀ x ∈ chosen, Holds L masterKey d x := by
  induction matched with
  | nil => exact ⟨[], rfl, forall_mem_nil _⟩
  | cons p matched ih =>
    obtain ⟨⟨m, content, part, size, etag⟩, rest⟩ := forall_mem_cons.mp h
    obtain ⟨chosen, rfl, all⟩ := ih rest
    exact ⟨(p, content) :: chosen, rfl, forall_mem_cons.mpr ⟨⟨m, part, size, etag⟩, all⟩⟩

lemma map_number_selectParts {stored : List PartRecord} {named : List CompletePart}
    (h : List.Forall₂ (fun p c => p ∈ stored ∧
      p.partNumber = c.partNumber ∧ p.etag.toList = trimQuotes c.etag) matched named) :
    matched.map partNumber = named.map CompletePart.partNumber := by
  induction h with
  | nil => rfl
  | cons here _ ih => rw [map_cons, map_cons, here.2.1, ih]

lemma exists_of_forall₂ {α β : Type*} {R : α → β → Prop} {l : List α} {l' : List β}
    (h : List.Forall₂ R l l') {x : α} (mem : x ∈ l) : ∃ y ∈ l', R x y := by
  induction h with
  | nil => cases mem
  | cons here _ ih =>
    rcases mem_cons.mp mem with rfl | later
    · exact ⟨_, mem_cons_self, here⟩
    · obtain ⟨y, there, related⟩ := ih later
      exact ⟨y, mem_cons_of_mem _ there, related⟩

variable {upload : MultipartUploadRecord}

/-- **The handler chooses what was named.** -/
lemma chosen_of_select (h : Sound L masterKey s)
    {request : CompleteRequest}
    (selected : selectParts a (s.multipart.listParts u) upload request = .ok (matched, checksum)) :
    ∃ chosen, chosen.map fst = matched ∧ Chosen L masterKey s u request.parts chosen ∧
      ∀ x ∈ chosen, Holds L masterKey s.disk x := by
  have pairs := forall₂_selectParts selected
  have same := map_number_selectParts pairs
  have entry := fun p => @exists_of_forall₂ _ _ _ _ _ pairs p
  have listed : ∀ p ∈ matched, p ∈ s.multipart.parts ∧ p.uploadId = u := by
    intro p mem
    obtain ⟨c, -, there, -⟩ := entry p mem
    exact MultipartTables.mem_listParts.mp there
  obtain ⟨chosen, rfl, holds⟩ := exists_holds fun p mem => h.kept p (listed p mem).1
  rw [List.map_map] at same
  refine ⟨chosen, rfl, ⟨?_, fun n => ?_, fun x mem => ?_, fun x mem => ?_, fun x mem => ?_⟩, holds⟩
  · have sorted := pairwise_map.mpr (pairwise_lastPerKey CompletePart.partNumber request.parts)
    change ((CompleteRequest.namedParts request.parts).map _).Pairwise _ at sorted
    rw [← same, pairwise_map] at sorted
    exact sorted
  · rw [show chosen.map (fun x => x.1.partNumber) = _ from same]
    exact mem_keys_lastPerKey_iff
  · exact listed _ (mem_map_of_mem mem)
  · obtain ⟨c, named, -, number, etag⟩ := entry x.1 (mem_map_of_mem mem)
    refine ⟨c, ?_, etag.symm⟩
    rw [number]
    exact mem_lastPerKey_iff.mp named
  · obtain ⟨m, part, -⟩ := holds x mem
    exact part.serves

structure Steps (L : Libraries) (masterKey : Option MasterKey) (a : Assembler) (s : State)
    (q : Request s) (done : Done) (upload : MultipartUploadRecord) (matched : List PartRecord)
    (result : Disk × BlobPutResult) : Prop where
  found : s.multipart.getMultipartUpload q.uploadId = some upload
  selected : ∃ checksum, selectParts a (s.multipart.listParts q.uploadId) upload q.body =
    .ok (matched, checksum)
  concat : concatInner L (stackOf masterKey q.encrypt) s.disk (matched.map blobId)
    q.blob.id = .ok result
  etag : compositeEtag a matched = some done.record.etag
  blobId : done.record.blobId = q.blob.id
  size : done.record.size = result.2.size
  parts : done.record.parts = some (matched.map fun p => ⟨p.partNumber, p.size, p.checksumValue⟩)
  disk : done.state.disk = result.1.writeSidecar q.blob.id
    (sidecarOf (namingOf upload q.lastModified) done.record.etag result.2)
  multipart : done.state.multipart = s.multipart.takeUpload q.uploadId
  table : s.table.installObjectIf done.record q.body.pre q.uuid = .ok done.state.table
  discards : done.discards = discardsOf s upload result.2.compositeParts.isSome

lemma steps_assemble {done : Done}
    (found : s.multipart.getMultipartUpload q.uploadId = some upload)
    (selected : selectParts a (s.multipart.listParts q.uploadId) upload q.body = .ok (matched, checksum))
    (h : assemble L masterKey a s q upload matched checksum = .ok done) :
    ∃ result, Steps L masterKey a s q done upload matched result := by
  obtain ⟨result, concat, h⟩ := ok_of_bind h
  obtain ⟨etag, told, h⟩ := ok_of_bind h
  obtain ⟨table, installed, h⟩ := ok_of_bind h
  obtain rfl := Except.ok.inj h
  have concat : concatInner L (stackOf masterKey q.encrypt) s.disk (matched.map blobId)
      q.blob.id = .ok result := by
    revert concat
    cases concatInner L (stackOf masterKey q.encrypt) s.disk (matched.map blobId) q.blob.id with
    | error => exact nofun
    | ok given => exact fun same => congrArg _ (Except.ok.inj same)
  have told : compositeEtag a matched = some etag := by
    revert told
    cases compositeEtag a matched with
    | none => exact nofun
    | some given => exact fun same => congrArg _ (Except.ok.inj same)
  exact ⟨result, found, ⟨checksum, selected⟩, concat, told, rfl, rfl, rfl, rfl, rfl, installed, rfl⟩

lemma steps_complete {done : Done} (h : complete L masterKey a s q = .ok (.assembled done)) :
    ∃ upload matched result, Steps L masterKey a s q done upload matched result := by
  unfold complete at h
  split at h
  · unfold repeatedReply at h
    split at h
    · cases h
    · split at h <;> cases h
  · next upload found =>
      split at h
      · cases h
      · obtain ⟨-, -, h⟩ := ok_of_bind h
        obtain ⟨⟨matched, checksum⟩, selected, h⟩ := ok_of_bind h
        obtain ⟨done', assembled, h⟩ := ok_of_bind h
        obtain rfl := Reply.assembled.inj (Except.ok.inj h)
        obtain ⟨result, steps⟩ := steps_assemble found selected assembled
        exact ⟨upload, matched, result, steps⟩

section
variable {done : Done} {upload : MultipartUploadRecord} {matched : List PartRecord}
  {result : Disk × BlobPutResult}

lemma Steps.contents (_ : Steps L masterKey a s q done upload (chosen.map fst) result)
    (holds : ∀ x ∈ chosen, Holds L masterKey s.disk x) :
    Contents L masterKey s.disk ((chosen.map fst).map PartRecord.blobId)
      (chosen.map snd) := by
  rw [Contents, List.map_map, List.forall₂_map_left_iff, List.forall₂_map_right_iff,
    forall₂_same]
  intro x mem
  obtain ⟨m, part, -⟩ := holds x mem
  exact ⟨m, part⟩

section
variable (steps : Steps L masterKey a s q done upload matched result)
include steps

lemma Steps.reach {x : String}
    (reached : x ∈ done.state.disk.reach done.record.blobId) :
    x = q.blob.id ∨ result.2.compositeParts.isSome ∧ ∃ p ∈ matched, p.blobId = x := by
  have sidecar : done.state.disk.sidecars q.blob.id = some (sidecarOf
      (namingOf upload q.lastModified) done.record.etag result.2) := by
    rw [steps.disk]
    exact Function.update_self ..
  rw [steps.blobId, Disk.reach, sidecar, bind_some] at reached
  refine (mem_cons.mp reached).imp_right fun listed => ?_
  change x ∈ (result.2.compositeParts.getD []).map Blob.CompositePart.blobId at listed
  cases composite : result.2.compositeParts with
  | none =>
    rw [composite] at listed
    cases listed
  | some parts =>
    rw [composite, getD_some, blobIds_concat steps.concat composite] at listed
    exact ⟨rfl, mem_map.mp listed⟩

lemma Steps.apart (h : Sound L masterKey s)
    (listed : ∀ p ∈ matched, p ∈ s.multipart.parts) {x : String} (gone : x ∈ done.discards) :
    x ∉ done.state.disk.reach done.record.blobId := by
  intro reached
  rw [steps.discards, discardsOf, mem_append] at gone
  rcases gone with old | part
  · cases replaced : s.table.overwritten upload.bucket upload.key with
    | none =>
      rw [replaced] at old
      cases old
    | some r =>
      rw [replaced, map_some, getD_some] at old
      have row := (Multipart.overwritten_spec replaced).1
      rcases steps.reach reached with rfl | ⟨-, p, mem, rfl⟩
      · exact q.blob.rows r row old
      · exact h.rows r row p (listed p mem) old
  · split at part
    · cases part
    · next single =>
        obtain ⟨p, mem, rfl⟩ := mem_map.mp part
        rcases steps.reach reached with same | ⟨composite, -⟩
        · exact h.not_drawn q.blob (MultipartTables.mem_partsOf.mp mem).1 same
        · exact single composite

lemma Steps.sidecars :
    ∀ x ≠ q.blob.id, done.state.disk.sidecars x = s.disk.sidecars x := by
  intro x other
  rw [steps.disk]
  exact (Function.update_of_ne other ..).trans (congrFun (sidecars_concat steps.concat) x)

end

lemma sameOn_without {d : Disk} {gone ids : List String} (apart : ∀ x ∈ gone, x ∉ ids) :
    d.SameOn (Disk.without d gone) ids := by
  intro x mem
  have kept : x ∉ gone := fun there => apart x there mem
  exact ⟨if_neg kept, if_neg kept⟩

lemma Steps.serves (h : Sound L masterKey s)
    (steps : Steps L masterKey a s q done upload (chosen.map fst) result)
    (listed : ∀ p ∈ chosen.map fst, p ∈ s.multipart.parts)
    (holds : ∀ x ∈ chosen, Holds L masterKey s.disk x)
    (plain : stackOf masterKey q.encrypt = none → ∀ p ∈ chosen.map fst,
      s.disk.Unencrypted p.blobId) :
    done.record.size = (chosen.map snd).flatten.length ∧ ∀ gone ⊆ done.discards, Serves
      (readBlob L masterKey (Disk.without done.state.disk gone) done.record.blobId)
      (chosen.map snd).flatten := by
  have assembly := assembly_concat (steps.contents holds) ⟨q.blob.file, q.blob.sidecar⟩ steps.concat
    (fun unencrypted => forall_mem_map.mpr (plain unencrypted))
    (namingOf upload q.lastModified) done.record.etag
  refine ⟨steps.size.trans assembly.size, fun gone less => ?_⟩
  have stored := assembly.stored
  rw [← steps.disk, ← steps.blobId] at stored
  have kept := stored.sameOn (sameOn_without fun x mem => steps.apart h listed (less mem))
  exact kept.serves.2.mpr nofun

end

lemma hexValue_hexDigit {n : ℕ} (small : n < 16) : Text.hexValue (Text.hexDigit n) = some n := by
  have all : ∀ n < 16, Text.hexValue (Text.hexDigit n) = some n := by decide
  exact all n small

lemma hexDecode_hexEncode (bytes : Bytes) : hexDecode (Text.hexEncode bytes) = some bytes := by
  induction bytes with
  | nil => rfl
  | cons b bytes ih =>
    have small := b.toNat_lt
    have high := hexValue_hexDigit (n := b.toNat / 16) (by omega)
    have low := hexValue_hexDigit (n := b.toNat % 16) (by omega)
    have same : UInt8.ofNat (16 * (b.toNat / 16) + b.toNat % 16) = b := by
      rw [Nat.div_add_mod, UInt8.ofNat_toNat]
    change (do
      let high ← Text.hexValue (Text.hexDigit (b.toNat / 16))
      let low ← Text.hexValue (Text.hexDigit (b.toNat % 16))
      (hexDecode (Text.hexEncode bytes)).map (UInt8.ofNat (16 * high + low) :: ·)) = _
    rw [high, low, ih]
    exact congrArg (fun x => some (x :: bytes)) same

lemma compositeEtag_holds {d : Disk} (digest : a.md5 = L.md5)
    (holds : ∀ x ∈ chosen, Holds L masterKey d x) : compositeEtag a (chosen.map fst) =
      some (etagOf L (chosen.map fun x => L.md5 x.2).flatten ++ "-" ++ toString chosen.length) := by
  have digests : (chosen.map fst).mapM (fun p => hexDecode p.etag.toList) =
      some (chosen.map fun x => L.md5 x.2) := by
    induction chosen with
    | nil => rfl
    | cons x chosen ih =>
      obtain ⟨⟨m, -, -, etag⟩, rest⟩ := forall_mem_cons.mp holds
      have decoded : hexDecode x.1.etag.toList = some (L.md5 x.2) := by
        rw [etag, etagOf, String.toList_ofList]
        exact hexDecode_hexEncode _
      rw [map_cons, mapM_cons, decoded, ih rest]
      rfl
  rw [compositeEtag, digests, digest, length_map]
  rfl

lemma splitLengths_flatten (contents : List Bytes) :
    (contents.map List.length).splitLengths contents.flatten = contents := by
  induction contents with
  | nil => rfl
  | cons content contents ih =>
    rw [map_cons, flatten_cons, splitLengths_cons, take_left, drop_left, ih]

/-- `plan_complete`, and the digest that the blob store takes too. -/
structure Planner (L : Libraries) extends Assembler where
  digest : md5 = L.md5

section
variable {done : Done} {upload : MultipartUploadRecord} {result : Disk × BlobPutResult}

lemma sum_sizes {d : Disk} (holds : ∀ x ∈ chosen, Holds L masterKey d x) :
    (chosen.map fun x => x.1.size).sum = (chosen.map snd).flatten.length := by
  rw [List.length_flatten, List.map_map]
  refine congrArg List.sum (map_congr_left fun x mem => ?_)
  obtain ⟨m, -, size, -⟩ := holds x mem
  exact size

lemma Steps.row
    (steps : Steps L masterKey a s q done upload matched result) :
    ∃ r ∈ done.state.table.rows, r.replicated = (s.table.storedRow done.record q.uuid).replicated :=
  exists_installObject (installObjectIf_ok steps.table).2

lemma Steps.layout (steps : Steps L masterKey a s q done upload (chosen.map fst) result)
    (holds : ∀ x ∈ chosen, Holds L masterKey s.disk x) : ∃ parts, done.record.parts = some parts ∧
      parts.map ObjectPart.partNumber = chosen.map (·.1.partNumber) ∧
      (parts.map ObjectPart.size).splitLengths (chosen.map snd).flatten = chosen.map snd := by
  refine ⟨_, steps.parts, ?_, ?_⟩
  · rw [List.map_map, List.map_map]
    rfl
  · have sizes : (chosen.map fst).map (fun p => p.size) = (chosen.map snd).map List.length := by
      rw [List.map_map, List.map_map]
      refine map_congr_left fun x mem => ?_
      obtain ⟨m, -, size, -⟩ := holds x mem
      exact size
    rw [List.map_map, show (ObjectPart.size ∘ fun p : PartRecord =>
      (⟨p.partNumber, p.size, p.checksumValue⟩ : ObjectPart)) = fun p => p.size from rfl, sizes]
    exact splitLengths_flatten _

end

/-- **CompleteMultipartUpload assembles what was named**, exactly if it writes through the
encrypting store or none of the parts it was to assemble is encrypted. -/
theorem complete_assembles_iff (s : Store L masterKey) (a : Planner L) (q : Request s.toState) :
    (∀ done, complete L masterKey a.toAssembler s.toState q = .ok (.assembled done) →
      ∃ chosen, Chosen L masterKey s.toState q.uploadId q.body.parts chosen ∧
        Assembles L masterKey s.toState q done chosen) ↔
    (∀ done, complete L masterKey a.toAssembler s.toState q = .ok (.assembled done) →
      stackOf masterKey q.encrypt = none → ∀ p ∈ s.multipart.parts, p.uploadId = q.uploadId →
        p.partNumber ∈ q.body.parts.map CompletePart.partNumber → s.disk.Unencrypted p.blobId) := by
  refine forall₂_congr fun done completed => ?_
  obtain ⟨upload, matched, result, steps⟩ := steps_complete completed
  obtain ⟨checksum, selected⟩ := steps.selected
  obtain ⟨chosen, rfl, named, holds⟩ := chosen_of_select s.sound selected
  have listed : ∀ p ∈ chosen.map fst, p ∈ s.multipart.parts := by
    rw [List.forall_mem_map]
    exact fun x mem => (named.stored x mem).1
  -- a stored part is chosen exactly when its number is named
  have chosen_iff : ∀ p ∈ s.multipart.parts, p.uploadId = q.uploadId →
      (p.partNumber ∈ q.body.parts.map CompletePart.partNumber ↔ p ∈ chosen.map fst) := by
    intro p mem own
    rw [← named.numbers]
    constructor
    · intro number
      obtain ⟨x, there, same⟩ := mem_map.mp number
      obtain ⟨stored, upload⟩ := named.stored x there
      have part := s.sound.part_unique stored mem (upload.trans own.symm) same
      exact part ▸ mem_map_of_mem there
    · intro there
      obtain ⟨x, inside, rfl⟩ := mem_map.mp there
      exact mem_map_of_mem inside
  constructor
  · rintro ⟨chosen', named', assembles⟩ unencrypted p mem own number
    obtain rfl := named.unique s.sound named'
    by_contra encrypted
    have concat := steps.concat
    rw [unencrypted] at concat
    have longer := size_concat_encrypted (steps.contents holds) concat
      ⟨p.blobId, mem_map_of_mem ((chosen_iff p mem own).mp number), encrypted⟩
    rw [← steps.size, assembles.size, sum_sizes holds] at longer
    exact lt_irrefl _ longer
  · intro plain
    obtain ⟨size, served⟩ := steps.serves s.sound listed holds fun unencrypted p there => by
      have mem := listed p there
      obtain ⟨x, inside, rfl⟩ := mem_map.mp there
      have own := (named.stored x inside).2
      exact plain unencrypted x.1 mem own ((chosen_iff x.1 mem own).mpr there)
    have etag := steps.etag
    rw [compositeEtag_holds a.digest holds] at etag
    exact ⟨chosen, named, steps.row, served, size.trans (sum_sizes holds).symm,
      (some.inj etag).symm, steps.layout holds⟩

end

def sampleLibs : Libraries := sampleAuthentic.toLibraries

def samplePlanner : Planner sampleLibs :=
  ⟨⟨sampleLibs.md5, fun _ => ([], 0), fun _ _ _ => .ok none⟩, rfl⟩

def openedStore : Store sampleLibs (some Readers.sampleMaster) where
  disk := ⟨fun _ => none, fun _ => none⟩
  multipart := ⟨[Multipart.opened], []⟩
  table := ⟨[], fun _ => .unversioned, false⟩
  sound := ⟨forall_mem_nil _, .nil, .nil, forall_mem_nil _⟩

def sampleNaming : Naming := ⟨"b", "k#u#1", none, "", []⟩

def entropyOfPart : Entropy := ⟨List.replicate 32 1, List.replicate 12 2, [0, 0, 0, 7], by decide, by decide, by decide⟩

/-- Part 1 is uploaded while the bucket encrypts. -/
def encryptedPart : Store sampleLibs (some Readers.sampleMaster) :=
  openedStore.uploadPart "u" 1 ⟨"1", rfl, rfl, forall_mem_nil _⟩ (some entropyOfPart)
    [([1, 2, 3], 4)] sampleNaming none 0

/-- The request comes when the bucket does not encrypt any more. -/
def plainRequest : Request encryptedPart.toState where
  bucket := "b"
  key := "k"
  uploadId := "u"
  body := ⟨[⟨1, (etagOf sampleLibs [1, 2, 3]).toList, []⟩], ⟨none, none⟩, "o"⟩
  blob := ⟨"2", rfl, rfl, forall_mem_nil _⟩
  encrypt := none
  now := 0
  lastModified := ""
  uuid := "v"

def Reply.done? : Reply → Option Done
  | .repeated _ => none
  | .assembled done => some done

def completed? : Option Done :=
  (complete sampleLibs (some Readers.sampleMaster) samplePlanner.toAssembler encryptedPart.toState
    plainRequest).toOption.bind Reply.done?

lemma complete_of_completed? {done : Done} (h : completed? = some done) :
    complete sampleLibs (some Readers.sampleMaster) samplePlanner.toAssembler encryptedPart.toState
      plainRequest = .ok (.assembled done) := by
  unfold completed? at h
  cases answer : complete sampleLibs (some Readers.sampleMaster) samplePlanner.toAssembler
    encryptedPart.toState plainRequest with
  | error code =>
    rw [answer] at h
    cases h
  | ok reply =>
    rw [answer] at h
    cases reply with
    | repeated etag => cases h
    | assembled given => rw [some.inj h]

def objectBytes (done : Done) : Option Bytes :=
  (Readers.collect (readBlob sampleLibs (some Readers.sampleMaster) done.state.disk done.record.blobId
    none)).toOption

/-- The object begins with the header of the encrypted file. -/
theorem encrypted_part_joined_as_ciphertext :
    encryptedPart.multipart.parts.map size = [3] ∧
    ∃ done, complete sampleLibs (some Readers.sampleMaster) samplePlanner.toAssembler
        encryptedPart.toState plainRequest = .ok (.assembled done) ∧
      done.record.size = 32 ∧ (objectBytes done).map (List.take 4) = some Encryption.magic ∧
      ¬ ∃ chosen, Chosen sampleLibs (some Readers.sampleMaster) encryptedPart.toState "u"
          plainRequest.body.parts chosen ∧
        Assembles sampleLibs (some Readers.sampleMaster) encryptedPart.toState plainRequest done chosen := by
  have sizes : encryptedPart.multipart.parts.map size = [3] := by decide +kernel
  have told : completed?.map (fun done => (done.record.size, (objectBytes done).map (List.take 4))) =
      some (32, some Encryption.magic) := by decide +kernel
  obtain ⟨done, answered, same⟩ := map_eq_some_iff.mp told
  obtain ⟨size, bytes⟩ := mk.inj same
  refine ⟨sizes, done, complete_of_completed? answered, size, bytes, ?_⟩
  rintro ⟨chosen, named, assembles⟩
  -- at most one part can be chosen, and that one has three bytes
  have small : ∀ x ∈ chosen, x.1.size = 3 := by
    intro x mem
    have there := mem_map_of_mem (f := PartRecord.size) (named.stored x mem).1
    rw [sizes] at there
    exact mem_singleton.mp there
  have single : chosen.length ≤ 1 := by
    have number : ∀ x ∈ chosen, x.1.partNumber = 1 := fun x mem => by
      have there := (named.numbers _).mp (mem_map_of_mem mem)
      exact mem_singleton.mp there
    match chosen, named.ascending, number with
    | [], _, _ => exact Nat.zero_le _
    | [_], _, _ => exact le_rfl
    | x :: y :: _, sorted, number =>
      have below := (pairwise_cons.mp sorted).1 y mem_cons_self
      rw [number x mem_cons_self, number y (mem_cons_of_mem _ mem_cons_self)] at below
      exact absurd below (lt_irrefl _)
  have total := assembles.size
  rw [size, map_congr_left small, map_const', sum_replicate, smul_eq_mul] at total
  omega

end Arca.Completion
