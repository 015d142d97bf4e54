import Arca.Multipart.Ownership

/-!
# No object without its parts

A commit hands blobs from one owner to another. The one way to two owners is a
complete request that commits parts which were replaced after it had listed them:
the job that replaced one of them owns its blob and removes it.
-/
namespace Arca.Multipart
open ObjectTable List Option MultipartTables PartRecord

variable {a : Assembler} {s s' : Node} {u : MultipartUploadRecord} {i : Nat} {job : Job}

lemma inv_commit {phase : Phase} (h : Inv u s) (steps : Steps s s' i job phase)
    (busy : ∀ reply blobs, job.phase ≠ .discarding reply blobs) (disk : s'.disk = s.disk)
    (issued : s'.issued = s.issued) (sound : Sound u s')
    (kept : (s'.multipart.getMultipartUpload u.uploadId).isSome →
      (s.multipart.getMultipartUpload u.uploadId).isSome ∧
        ∀ p ∈ s.multipart.parts, p ∈ s'.multipart.parts ∨ Lost s' p.blobId)
    (own : PhaseOk u s' { job with phase := phase }) : Inv u s' where
  toSound := sound
  onUpload k job' at_k := by
    rw [steps.jobs, getElem?_setPhase steps.here] at at_k
    split at at_k
    · cases at_k
      exact h.onUpload i job steps.here
    · exact h.onUpload k job' at_k
  jobs k job' at_k := by
    rw [steps.jobs, getElem?_setPhase steps.here] at at_k
    split at at_k
    · cases at_k
      exact own
    · refine phaseOk_of_same (h.jobs k job' at_k) (fun x _ => ⟨by rw [disk], by rw [disk]⟩)
        fun matched before => ⟨before.entries, fun present p mem => ?_, issued ▸ before.issued⟩
      have still := kept present
      rcases before.kept still.1 p mem with row | gone | pending
      · exact still.2 p row
      · exact .inr (.inl (disk ▸ gone))
      · exact .inr (.inr (steps.pending (fun _ _ eq => absurd eq (busy _ _)) pending))

lemma inv_commitPart (h : Inv u s) (here : s.jobs[i]? = some job) {part : PartRecord}
    (phase : job.phase = .stored part) : Inv u (s.commitPart i job part) := by
  have ok := h.jobs i job here
  simp only [PhaseOk, phase] at ok
  obtain ⟨on, backed⟩ := ok
  have steps := steps_commitPart here part
  -- the job and the row of the part swap their blobs
  have owners : Ownership (s.commitPart i job part) := by
    refine h.owners.of_move (Equiv.swap (.job i) (.part part.uploadId part.partNumber))
      (fun {o x} owns => ?_) fun _ mem => mem
    cases o with
    | part v n =>
      obtain ⟨p, mem, rfl, rfl, rfl⟩ := owns
      rcases mem_putPart.mp mem with ⟨old, other⟩ | rfl
      · refine ⟨_, owns_part old, Equiv.swap_apply_of_ne_of_ne (by simp) fun eq => ?_⟩
        obtain ⟨hu, hn⟩ := Owner.part.inj eq
        simp [isPart, hu, hn] at other
      · exact ⟨.job i, ⟨job, here, by simp [phase, Phase.owned]⟩, Equiv.swap_apply_left ..⟩
    | row bucket key version =>
      exact ⟨_, steps.owns_row rfl owns, Equiv.swap_apply_of_ne_of_ne (by simp) (by simp)⟩
    | job k =>
      rcases steps.owns_job owns with ⟨rfl, mem⟩ | ⟨other, old⟩
      · obtain ⟨b, hb, reached⟩ := mem_flatMap.mp mem
        obtain ⟨q, found, rfl⟩ := map_eq_some_iff.mp
          (mem_toList.mp (mem_filter.mp hb).1)
        have same := oldPart_isPart found
        have row := oldPart_mem found
        have single := (h.backed q row (same.1.trans on)).reach
        change x ∈ s.disk.reach q.blobId at reached
        rw [single, mem_singleton] at reached
        refine ⟨_, reached ▸ owns_part row, ?_⟩
        rw [same.1, same.2]
        exact Equiv.swap_apply_right ..
      · exact ⟨_, old, Equiv.swap_apply_of_ne_of_ne (fun eq => other (Owner.job.inj eq)) (by simp)⟩
  have sound : Sound u (s.commitPart i job part) := by
    refine ⟨owners, h.served, fun p mem at_u => ?_, fun p hp q hq hu hn => ?_, h.dead, h.blank,
      h.upload, h.first⟩
    · rcases mem_putPart.mp mem with ⟨old, -⟩ | rfl
      · exact h.backed p old at_u
      · exact backed
    · rcases mem_putPart.mp hp with ⟨old, other⟩ | rfl <;>
        rcases mem_putPart.mp hq with ⟨old', other'⟩ | rfl
      · exact h.keyed p old q old' hu hn
      · simp [isPart, hu, hn] at other
      · simp [isPart, hu, hn] at other'
      · rfl
  refine inv_commit h steps (by simp [phase]) rfl rfl sound
    (fun present => ⟨present, fun p mem => ?_⟩) trivial
  -- a row that is replaced has its blob with the job now
  cases same : isPart part.uploadId part.partNumber p with
  | false => exact .inl (mem_putPart.mpr (.inl ⟨mem, same⟩))
  | true =>
    obtain ⟨q, found⟩ : ∃ q, s.multipart.oldPart part = some q := by
      rw [← isSome_iff_exists, oldPart, find?_isSome]
      exact ⟨p, mem, same⟩
    have named := oldPart_isPart found
    simp only [isPart, Bool.and_eq_true, decide_eq_true_eq] at same
    have eq : q = p := h.keyed q (oldPart_mem found) p mem
      (named.1.trans same.1.symm) (named.2.trans same.2.symm)
    exact .inr (.inr (steps.pending_own (by simp [found, eq])))

lemma getMultipartUpload_taken (t : MultipartTables) (v : String) :
    (t.takeUpload v).getMultipartUpload v = none := by
  rw [getMultipartUpload_takeUpload, if_pos rfl]

lemma sound_takeUpload (h : Sound u s) (owners : Ownership s') (served : NoDangling s')
    (multipart : s'.multipart = s.multipart.takeUpload u.uploadId)
    (dead : ∀ r ∈ s'.table.rows, ¬ Live r → r.blobId = "") (disk : s'.disk = s.disk)
    (issued : s'.issued = s.issued) : Sound u s' where
  owners := owners
  served := served
  backed p mem on := by
    rw [multipart] at mem
    exact absurd on (mem_takeUpload.mp mem).2
  keyed p hp q hq := by
    rw [multipart] at hp hq
    exact h.keyed p (mem_takeUpload.mp hp).1 q (mem_takeUpload.mp hq).1
  dead := dead
  blank := by
    rw [disk, issued]
    exact h.blank
  upload r found := by
    rw [multipart, getMultipartUpload_taken] at found
    cases found
  first present := by
    rw [multipart, getMultipartUpload_taken] at present
    cases present

variable {x v : String} {e : Event}

lemma owns_parts (h : Sound u s) {b : String}
    (mem : b ∈ (s.multipart.partsOf u.uploadId).map blobId) (reached : x ∈ s.disk.reach b) :
    ∃ n, Owns s (.part u.uploadId n) x := by
  obtain ⟨p, hp, rfl⟩ := mem_map.mp mem
  obtain ⟨row, on⟩ := mem_partsOf.mp hp
  rw [(h.backed p row on).reach, mem_singleton] at reached
  exact ⟨p.partNumber, reached ▸ on ▸ owns_part row⟩

lemma inv_close (h : Inv u s) (here : s.jobs[i]? = some job) (phase : job.phase = .closing) :
    Inv u (s.close i job job.call.uploadId) := by
  rw [h.onUpload i job here]
  have steps := steps_close here u.uploadId
  let move : Owner → Owner
    | .part v n => if v = u.uploadId then .job i else .part v n
    | o => o
  have owners : Ownership (s.close i job u.uploadId) := by
    refine h.owners.of_move move (fun {o x} owns => ?_) fun _ mem => mem
    cases o with
    | part v n =>
      obtain ⟨p, mem, rfl, rfl, rfl⟩ := owns
      obtain ⟨old, other⟩ := mem_takeUpload.mp mem
      exact ⟨_, owns_part old, if_neg other⟩
    | row bucket key version => exact ⟨_, steps.owns_row rfl owns, rfl⟩
    | job k =>
      rcases steps.owns_job owns with ⟨rfl, mem⟩ | ⟨-, old⟩
      · obtain ⟨b, hb, reached⟩ := mem_flatMap.mp mem
        obtain ⟨n, before⟩ := owns_parts h.toSound (mem_filter.mp hb).1 reached
        exact ⟨_, before, if_pos rfl⟩
      · exact ⟨_, old, rfl⟩
  have sound : Sound u (s.close i job u.uploadId) :=
    sound_takeUpload h.toSound owners h.served rfl h.dead rfl rfl
  refine inv_commit h steps (fun _ _ eq => nomatch phase.symm.trans eq) rfl rfl sound
    (fun present => ?_) trivial
  change ((s.multipart.takeUpload u.uploadId).getMultipartUpload u.uploadId).isSome at present
  rw [getMultipartUpload_taken] at present
  cases present

lemma overwritten_spec {t : ObjectTable} {bucket key : String} {old : ObjectRecord}
    (h : t.overwritten bucket key = some old) : old ∈ t.rows ∧ ∀ r : ObjectRecord,
      r.bucket = old.bucket → r.key = old.key → r.versionId = old.versionId →
        t.replaced bucket key r = true := by
  unfold overwritten at h
  unfold replaced
  cases state : t.versioning bucket with
  | unversioned =>
    simp only [state] at h ⊢
    have found := find?_some h
    simp only [Bool.and_eq_true, atKey_iff] at found
    refine ⟨mem_of_find?_eq_some h, fun r hb hk _ => atKey_iff.mpr ?_⟩
    exact ⟨hb.trans found.1.1, hk.trans found.1.2⟩
  | enabled => simp [state] at h
  | suspended =>
    simp only [state] at h ⊢
    have found := find?_some h
    simp only [Bool.and_eq_true, named_iff] at found
    refine ⟨mem_of_find?_eq_some h, fun r hb hk hv => named_iff.mpr ?_⟩
    exact ⟨hb.trans found.1.1, hk.trans found.1.2.1, hv.trans found.1.2.2⟩

lemma fields_of_replicated {r x : ObjectRecord} (h : r.replicated = x.replicated) :
    r.bucket = x.bucket ∧ r.key = x.key ∧ r.versionId = x.versionId ∧ r.blobId = x.blobId ∧
      (Live r ↔ Live x) := by
  have bucket := congrArg ObjectRecord.bucket h
  have key := congrArg ObjectRecord.key h
  have version := congrArg ObjectRecord.versionId h
  have blob := congrArg ObjectRecord.blobId h
  have marker := congrArg ObjectRecord.isDeleteMarker h
  have tombstone := congrArg ObjectRecord.isTombstone h
  simp only [ObjectRecord.replicated] at marker tombstone
  refine ⟨bucket, key, version, blob, ?_⟩
  rw [Live, Live, marker, tombstone]

lemma row_of_commit {record : ObjectRecord} {pre : WritePrecondition} {uuid : String}
    {table : ObjectTable} (installed : s.table.installObjectIf record pre uuid = .ok table)
    {r : ObjectRecord} (mem : r ∈ table.rows) :
    (∃ x ∈ s.table.rows, s.table.replaced record.bucket record.key x = false ∧
        r.replicated = x.replicated) ∨
      r.replicated = (s.table.storedRow record uuid).replicated :=
  mem_installObject (installObjectIf_ok installed).2 mem

section Commit
variable {matched : List PartRecord} {record : ObjectRecord} {composite : Bool}

lemma mem_reach_final (h : Final u s.disk matched record composite) {x : String}
    (reached : x ∈ s.disk.reach record.blobId) :
    x = record.blobId ∨ (composite = true ∧ ∃ p ∈ matched, p.blobId = x) := by
  obtain ⟨m, sidecar, ⟨kind, parts, lists, same⟩ | ⟨-, plain, -⟩⟩ := h.sidecar
  · rcases mem_cons.mp reached with self | listed
    · exact .inl self
    · obtain ⟨c, mem, rfl⟩ := mem_map.mp listed
      simp only [BlobDisk.listed, sidecar, lists, bind_some, getD_some] at mem
      obtain ⟨n, inside, rfl⟩ := mem_iff_getElem.mp mem
      have length := same.length_eq
      refine .inr ⟨kind, matched[n], getElem_mem _, ?_⟩
      exact ((forall₂_iff_get.mp same).2 n inside (length ▸ inside)).symm
  · rcases mem_cons.mp reached with self | listed
    · exact .inl self
    · simp [BlobDisk.listed, sidecar, plain] at listed

lemma canServe_final (h : Sound u s) (final : Final u s.disk matched record composite)
    (rows : composite = true → ∀ p ∈ matched, p ∈ s.multipart.parts ∧ p.uploadId = u.uploadId) :
    s.disk.CanServe record.blobId := by
  obtain ⟨m, sidecar, ⟨kind, parts, lists, same⟩ | ⟨-, plain, file⟩⟩ := final.sidecar
  · refine ⟨m, sidecar, ?_⟩
    simp only [lists]
    intro c mem
    obtain ⟨n, inside, rfl⟩ := mem_iff_getElem.mp mem
    have length := same.length_eq
    have eq : parts[n].blobId = matched[n].blobId :=
      (forall₂_iff_get.mp same).2 n inside (length ▸ inside)
    have row := rows kind matched[n] (getElem_mem _)
    rw [eq]
    exact (h.backed _ row.1 row.2).present
  · exact ⟨m, sidecar, by simpa only [plain] using file⟩

lemma asMatched_final (h : Sound u s) (final : Final u s.disk matched record composite)
    (rows : composite = true → ∀ p ∈ matched, p ∈ s.multipart.parts ∧ p.uploadId = u.uploadId)
    {request : CompleteRequest} {etag : String}
    (entries : List.Forall₂ (fun p e => p.uploadId = u.uploadId ∧ p.partNumber = e.partNumber ∧
      p.etag.toList = trimQuotes e.etag) matched (CompleteRequest.namedParts request.parts)) :
    AsMatched s.disk ⟨record.bucket, record.key, u.uploadId, record.blobId, etag, request⟩ := by
  intro m parts sidecar lists
  obtain ⟨m', sidecar', ⟨kind, parts', lists', same⟩ | ⟨-, plain, -⟩⟩ := final.sidecar
  · cases sidecar.symm.trans sidecar'
    cases lists.symm.trans lists'
    have lengths := same.length_eq.trans entries.length_eq
    rw [forall₂_iff_get] at same entries ⊢
    refine ⟨lengths, fun n inside inside' => ?_⟩
    have length : n < matched.length := same.1 ▸ inside
    have eq := same.2 n inside length
    obtain ⟨on, number, etag⟩ := entries.2 n length inside'
    have backed := h.backed _ (rows kind _ (get_mem ..)).1 on
    obtain ⟨m₀, found, -, key_eq, etag_eq⟩ := backed.sidecar
    exact ⟨eq ▸ backed.present, m₀, eq ▸ found, by rw [key_eq, final.key, on, number], etag_eq ▸ etag⟩
  · cases sidecar.symm.trans sidecar'
    exact nomatch lists.symm.trans plain

end Commit

/-- Owners before a commit of those after it. -/
def commitMove (s : Node) (u : String) (i : Nat) (composite : Bool) (record : ObjectRecord)
    (uuid : String) : Owner → Owner
  | .job k =>
    if k = i then .row record.bucket record.key (s.table.assignedVersion record.bucket uuid) else .job k
  | .part v n =>
    if v = u then
      if composite then .row record.bucket record.key (s.table.assignedVersion record.bucket uuid)
      else .job i
    else .part v n
  | .row bucket key version =>
    if (s.table.overwritten record.bucket record.key).map (fun r => (r.bucket, r.key, r.versionId)) =
        some (bucket, key, version) then .job i
    else .row bucket key version

section Install
variable {matched : List PartRecord} {record : ObjectRecord} {composite : Bool} {uuid : String}
  {request : CompleteRequest} {table : ObjectTable}

lemma owns_discarded (h : Sound u s) {x : String}
    (mem : x ∈ Phase.owned s.disk (.discarding (.ok record.etag)
      (((s.table.overwritten record.bucket record.key).map ObjectRecord.blobId).toList ++
        if composite then [] else (s.multipart.partsOf u.uploadId).map blobId))) :
    ∃ o, Owns s o x ∧ commitMove s u.uploadId i composite record uuid o = .job i := by
  obtain ⟨b, hb, reached⟩ := mem_flatMap.mp mem
  obtain ⟨listed, named⟩ := mem_filter.mp hb
  rcases mem_append.mp listed with old | part
  · obtain ⟨r, overwritten, rfl⟩ := map_eq_some_iff.mp (mem_toList.mp old)
    have row := (overwritten_spec overwritten).1
    have live : Live r := by
      by_contra dead
      simp [h.dead r row dead] at named
    refine ⟨_, owns_row row live reached, ?_⟩
    simp [commitMove, overwritten]
  · cases composite with
    | true => cases part
    | false =>
      obtain ⟨n, before⟩ := owns_parts h part reached
      exact ⟨_, before, by simp [commitMove]⟩

lemma ownership_install (h : Inv u s) (here : s.jobs[i]? = some job)
    (phase : job.phase = .assembled matched record composite)
    (final : Final u s.disk matched record composite)
    (rows : composite = true → ∀ p ∈ matched, p ∈ s.multipart.parts ∧ p.uploadId = u.uploadId)
    (installed : s.table.installObjectIf record request.pre uuid = .ok table) :
    Ownership (s.install i job u.uploadId request record composite table) := by
  have steps := steps_install here u.uploadId request record composite table
  refine h.owners.of_move (commitMove s u.uploadId i composite record uuid)
    (fun {o x} owns => ?_) fun _ mem => mem
  cases o with
  | part v n =>
    obtain ⟨p, mem, rfl, rfl, rfl⟩ := owns
    obtain ⟨old, other⟩ := mem_takeUpload.mp mem
    exact ⟨_, owns_part old, if_neg other⟩
  | row b k version =>
    obtain ⟨r, mem, live, rfl, rfl, rfl, reached⟩ := owns
    rcases row_of_commit installed mem with ⟨y, row, stays, same⟩ | same
    · -- a row that stays
      obtain ⟨hb, hk, hv, blob, alive⟩ := fields_of_replicated same
      refine ⟨_, owns_row row (alive.mp live) (blob ▸ reached), ?_⟩
      rw [hb, hk, hv]
      refine if_neg fun overwritten => ?_
      obtain ⟨old, found, eq⟩ := map_eq_some_iff.mp overwritten
      simp only [Prod.mk.injEq] at eq
      have replaced := (overwritten_spec found).2 y eq.1.symm eq.2.1.symm eq.2.2.symm
      rw [stays] at replaced
      cases replaced
    · -- the new row
      obtain ⟨hb, hk, hv, blob, -⟩ := fields_of_replicated same
      rw [hb, hk, hv]
      rw [blob] at reached
      rcases mem_reach_final final reached with rfl | ⟨rfl, p, listed, rfl⟩
      · refine ⟨.job i, ⟨job, here, by simp [phase, Phase.owned]⟩, ?_⟩
        simp [commitMove, storedRow]
      · refine ⟨_, owns_part (rows rfl p listed).1, ?_⟩
        simp [commitMove, storedRow, (rows rfl p listed).2]
  | job k =>
    rcases steps.owns_job owns with ⟨rfl, mem⟩ | ⟨other, old⟩
    · exact owns_discarded h.toSound mem
    · exact ⟨_, old, if_neg other⟩

lemma noDangling_install (h : Inv u s) (here : s.jobs[i]? = some job)
    (phase : job.phase = .assembled matched record composite)
    (matching : Matches u s job.call matched) (final : Final u s.disk matched record composite)
    {bucket key : String} (call : job.call = .complete bucket key u.uploadId request)
    (present : (s.multipart.getMultipartUpload u.uploadId).isSome)
    (rows : composite = true → ∀ p ∈ matched, p ∈ s.multipart.parts ∧ p.uploadId = u.uploadId)
    (installed : s.table.installObjectIf record request.pre uuid = .ok table) :
    NoDangling (s.install i job u.uploadId request record composite table) := by
  have own : Owns s (.job i) record.blobId := ⟨job, here, by simp [phase, Phase.owned]⟩
  intro r mem live
  rcases row_of_commit installed mem with ⟨y, row, -, same⟩ | same
  · obtain ⟨-, -, -, blob, alive⟩ := fields_of_replicated same
    have before := h.served y row (alive.mp live)
    refine ⟨blob ▸ before.1, fun c hc eq => ?_⟩
    rcases mem_append.mp hc with old | new
    · exact before.2 c old (eq.trans blob)
    · -- the blob of the new row is not the one of an older row
      rw [mem_singleton] at new
      have shared : Owns s (.row y.bucket y.key y.versionId) record.blobId := by
        refine owns_row row (alive.mp live) ?_
        rw [← blob, ← eq, new]
        exact mem_reach_self _ _
      cases h.owners.unique own shared
  · obtain ⟨-, -, -, blob, -⟩ := fields_of_replicated same
    have served := canServe_final h.toSound final rows
    refine ⟨blob ▸ served, fun c hc eq => ?_⟩
    change c ∈ s.completed ++ _ at hc
    rw [h.first present, nil_append, mem_singleton] at hc
    subst hc
    obtain ⟨_, _, _, call', entries⟩ := matching.entries
    cases call.symm.trans call'
    exact asMatched_final h.toSound final rows entries

end Install

lemma inv_commitObject (h : Inv u s) (here : s.jobs[i]? = some job) {matched : List PartRecord}
    {record : ObjectRecord} {composite : Bool} (phase : job.phase = .assembled matched record composite)
    {bucket key : String} {request : CompleteRequest} (call : job.call = .complete bucket key v request)
    (uuid : String) (keeps : KeepsMatched s (.commit i uuid)) :
    Inv u (s.commitObject i job v request record composite uuid) := by
  have ok := h.jobs i job here
  simp only [PhaseOk, phase] at ok
  obtain ⟨matching, final⟩ := ok
  have on : v = u.uploadId := by
    have on := h.onUpload i job here
    rwa [call] at on
  subst on
  have busy : ∀ reply blobs, job.phase ≠ .discarding reply blobs := by simp [phase]
  have refused : ∀ code, Inv u (s.setPhase i job (.refused record.blobId code)) := fun code =>
    inv_setPhase h here (fun _ _ eq => absurd eq (busy _ _))
      (by rw [phase]; exact List.Subset.refl _) trivial
  unfold Node.commitObject
  split
  · exact refused _
  · next absent =>
      have present : (s.multipart.getMultipartUpload u.uploadId).isSome := by
        simpa [isSome_iff_ne_none] using absent
      cases installed : s.table.installObjectIf record request.pre uuid with
      | error code => exact refused code
      | ok table =>
        have rows : composite = true → ∀ p ∈ matched,
            p ∈ s.multipart.parts ∧ p.uploadId = u.uploadId := by
          rintro rfl p mem
          obtain ⟨_, _, _, -, entries⟩ := matching.entries
          have ready : Ready s i matched record u.uploadId request :=
            ⟨⟨bucket, key, by rw [here, ← call, ← phase]⟩, present, (installObjectIf_ok installed).1⟩
          exact ⟨keeps _ _ _ _ ready p mem, ((forall₂_and_left _ _).mp entries).1 p mem⟩
        have sound := sound_takeUpload h.toSound
          (ownership_install h here phase final rows installed)
          (noDangling_install h here phase matching final call present rows installed) rfl
          (fun r mem dead => ?_) rfl rfl
        · refine inv_commit h (steps_install here _ _ _ _ _) busy rfl rfl sound (fun still => ?_) trivial
          change ((s.multipart.takeUpload u.uploadId).getMultipartUpload u.uploadId).isSome at still
          rw [getMultipartUpload_taken] at still
          cases still
        · rcases row_of_commit installed mem with ⟨y, row, -, same⟩ | same
          · obtain ⟨-, -, -, blob, alive⟩ := fields_of_replicated same
            exact blob.trans (h.dead y row fun live => dead (alive.mpr live))
          · exact absurd ((fields_of_replicated same).2.2.2.2.mpr ⟨rfl, final.live.2⟩) dead

lemma erodes_arrive (call : Call) : Erodes s { s with jobs := s.jobs ++ [⟨call, .arrived⟩] } where
  grows _ mem := mem
  sidecars _ _ := .inl rfl
  lost x _ before := by
    refine before.imp_right fun ⟨k, job, reply, blobs, at_k, discarding, mem⟩ => ?_
    exact ⟨k, job, reply, blobs,
      (List.getElem?_append_left (List.getElem?_eq_some_iff.mp at_k).1).trans at_k, discarding, mem⟩

lemma inv_arrive (h : Inv u s) {call : Call} (on : call.uploadId = u.uploadId) :
    Inv u { s with jobs := s.jobs ++ [⟨call, .arrived⟩] } := by
  have owners : Ownership { s with jobs := s.jobs ++ [⟨call, .arrived⟩] } := by
    refine h.owners.of_subset (fun {o x} owns => ?_) fun _ mem => mem
    cases o with
    | part | row => exact owns
    | job k =>
      obtain ⟨job, at_k, mem⟩ := owns
      rcases job_of_arrive at_k with old | rfl
      · exact ⟨job, old, mem⟩
      · cases mem
  refine ⟨⟨owners, h.served, h.backed, h.keyed, h.dead, h.blank, h.upload, h.first⟩,
    fun k job at_k => ?_, fun k job at_k => ?_⟩
  · rcases job_of_arrive at_k with old | rfl
    · exact h.onUpload k job old
    · exact on
  · rcases job_of_arrive at_k with old | rfl
    · refine phaseOk_of_same (h.jobs k job old) (fun _ _ => ⟨rfl, rfl⟩) fun matched before => ?_
      exact ⟨before.entries, fun present p mem => (before.kept present p mem).imp_right
        ((erodes_arrive call).lost _ (before.issued p mem)), before.issued⟩
    · trivial

lemma inv_step (h : Inv u s) (on : OnUpload u.uploadId s e) (keeps : KeepsMatched s e) :
    Inv u (step a s e) := by
  have moves := moves_step (a := a) (s := s) e
  generalize step a s e = s' at moves
  cases moves with
  | stay => exact h
  | arrive call => exact inv_arrive h on
  | read here => exact inv_read h here
  | store blobId body now here phase part => exact inv_store here on h phase part body now
  | giveUp here phase left =>
    exact inv_giveUp here on h left fun _ _ eq => nomatch phase.symm.trans eq
  | assemble here phase call assembled written tag => exact inv_assemble here on h phase assembled written
  | commitPart uuid here phase => exact inv_commitPart h here phase
  | commitObject uuid here phase call => exact inv_commitObject h here phase call uuid keeps
  | close uuid here phase => exact inv_close h here phase
  | discard here phase mem => exact inv_discard here h phase mem
  | discardAssembled blobId here phase => exact inv_discardAssembled here h phase
  | fail here => exact inv_fail h here
  | create | receivePart | receiveUpload | receiveClose | objects => exact on.elim

/-- The upload is closed, and a live row lists a part whose blob is lost. -/
structure Doomed (u : MultipartUploadRecord) (s : Node) : Prop where
  closed : s.multipart.getMultipartUpload u.uploadId = none
  onUpload : ∀ (i : Nat) (job : Job), s.jobs[i]? = some job → job.call.uploadId = u.uploadId
  row : ∃ r ∈ s.table.rows, Live r ∧ r.blobId ∈ s.issued ∧
    (s.disk.sidecars r.blobId = none ∨
      ∃ m parts c, s.disk.sidecars r.blobId = some m ∧ m.composite = some parts ∧ c ∈ parts ∧
        c.blobId ∈ s.issued ∧ Lost s c.blobId)

lemma Goes.onUpload {phase : Phase} (h : Goes s s' i job phase)
    (before : ∀ (k : Nat) (job : Job), s.jobs[k]? = some job → job.call.uploadId = v) :
    ∀ (k : Nat) (job : Job), s'.jobs[k]? = some job → job.call.uploadId = v := by
  intro k job' at_k
  rw [h.jobs, getElem?_setPhase h.here] at at_k
  split at at_k
  · cases at_k
    exact before i job h.here
  · exact before k job' at_k

lemma closed_step (closed : s.multipart.getMultipartUpload v = none)
    (jobs : ∀ (k : Nat) (job : Job), s.jobs[k]? = some job → job.call.uploadId = v)
    (on : OnUpload v s e) : Erodes s (step a s e) ∧ (step a s e).table = s.table ∧
      (step a s e).multipart.getMultipartUpload v = none ∧
      ∀ (k : Nat) (job : Job), (step a s e).jobs[k]? = some job → job.call.uploadId = v := by
  have moves := moves_step (a := a) (s := s) e
  generalize step a s e = s' at moves
  cases moves with
  | stay => exact ⟨⟨fun _ mem => mem, fun _ _ => .inl rfl, fun _ _ h => h⟩, rfl, closed, jobs⟩
  | arrive call =>
    refine ⟨erodes_arrive call, rfl, closed, fun k job at_k => ?_⟩
    rcases job_of_arrive at_k with old | rfl
    · exact jobs k job old
    · exact on
  | @read i job here =>
    have goes : Goes s (s.setPhase i job (s.look a job)) i job (s.look a job) := ⟨here, rfl⟩
    exact ⟨goes.erodes (fun _ _ => look_discarding) (fun _ _ => ⟨rfl, rfl⟩) fun _ mem => mem, rfl, closed, goes.onUpload jobs⟩
  | store blobId body now here phase part =>
    have busy : ∀ reply blobs, _ ≠ Phase.discarding reply blobs :=
      fun _ _ eq => nomatch phase.symm.trans eq
    exact ⟨erodes_fresh here on (fun x => sameAt_part _ _) busy, rfl, closed, Goes.onUpload ⟨here, rfl⟩ jobs⟩
  | giveUp here phase left =>
    have busy : ∀ reply blobs, _ ≠ Phase.discarding reply blobs :=
      fun _ _ eq => nomatch phase.symm.trans eq
    exact ⟨erodes_fresh here on (fun _ => sameAt_leavesBehind left) busy, rfl, closed,
      Goes.onUpload ⟨here, rfl⟩ jobs⟩
  | assemble here phase call assembled written tag =>
    have busy : ∀ reply blobs, _ ≠ Phase.discarding reply blobs :=
      fun _ _ eq => nomatch phase.symm.trans eq
    exact ⟨erodes_fresh here on (fun x => sameAt_assembles assembled _) busy, rfl, closed,
      Goes.onUpload ⟨here, rfl⟩ jobs⟩
  | @commitPart i job part uuid here phase =>
    have goes := (steps_commitPart here part).toGoes
    exact ⟨goes.erodes (fun _ _ eq => nomatch phase.symm.trans eq) (fun _ _ => ⟨rfl, rfl⟩) fun _ mem => mem, rfl, closed,
      goes.onUpload jobs⟩
  | @commitObject i job _ record _ _ _ _ _ uuid here phase call =>
    have on := jobs _ _ here
    simp only [call, Call.uploadId] at on
    subst on
    rw [Node.commitObject, if_pos (by rw [closed]; rfl)]
    have goes : Goes s (s.setPhase i job (.refused record.blobId .noSuchUpload)) i job
      (.refused record.blobId .noSuchUpload) := ⟨here, rfl⟩
    exact ⟨goes.erodes (fun _ _ eq => nomatch phase.symm.trans eq) (fun _ _ => ⟨rfl, rfl⟩) fun _ mem => mem, rfl, closed,
      goes.onUpload jobs⟩
  | @close i job uuid here phase =>
    have goes := (steps_close here job.call.uploadId).toGoes
    refine ⟨goes.erodes (fun _ _ eq => nomatch phase.symm.trans eq) (fun _ _ => ⟨rfl, rfl⟩) fun _ mem => mem, rfl, ?_,
      goes.onUpload jobs⟩
    rw [Node.close, jobs _ _ here]
    exact getMultipartUpload_taken _ _
  | discard here phase mem =>
    exact ⟨erodes_discard here phase _, rfl, closed, Goes.onUpload ⟨here, rfl⟩ jobs⟩
  | discardAssembled blobId here phase =>
    exact ⟨erodes_discardAssembled here phase, rfl, closed, Goes.onUpload ⟨here, rfl⟩ jobs⟩
  | @fail i job here =>
    have goes : Goes s (s.setPhase i job job.phase.fail) i job job.phase.fail := ⟨here, rfl⟩
    refine ⟨goes.erodes (fun _ _ eq => ?_) (fun _ _ => ⟨rfl, rfl⟩) fun _ mem => mem, rfl, closed,
      goes.onUpload jobs⟩
    rw [eq]
    rfl
  | create | receivePart | receiveUpload | receiveClose | objects => exact on.elim

lemma doomed_step (h : Doomed u s) (on : OnUpload u.uploadId s e) : Doomed u (step a s e) := by
  obtain ⟨erodes, table, closed, jobs⟩ := closed_step (a := a) h.closed h.onUpload on
  obtain ⟨r, mem, live, issued, state⟩ := h.row
  refine ⟨closed, jobs, r, table ▸ mem, live, erodes.grows _ issued, ?_⟩
  rcases erodes.sidecars _ issued with same | gone
  · rw [same]
    refine state.imp_right fun ⟨m, parts, c, sidecar, lists, mem, drawn, lost⟩ => ?_
    exact ⟨m, parts, c, sidecar, lists, mem, erodes.grows _ drawn, erodes.lost _ drawn lost⟩
  · exact .inl gone

/-- The commit of a composite that lists a part which was replaced. -/
lemma doomed_of_breach (h : Inv u s) (breach : ¬ KeepsMatched s e) : Doomed u (step a s e) := by
  cases e with
  | commit i uuid =>
    simp only [KeepsMatched, not_forall] at breach
    obtain ⟨matched, record, v, request, ⟨⟨bucket, key, here⟩, present, accepted⟩, p, mem, replaced⟩ :=
      breach
    have on : v = u.uploadId := h.onUpload i _ here
    subst on
    obtain ⟨matching, final⟩ := h.jobs i _ here
    obtain ⟨table, installed⟩ := installObjectIf_of_accepts uuid accepted
    have result : step a s (.commit i uuid) = s.install i
        ⟨.complete bucket key u.uploadId request, .assembled matched record true⟩ u.uploadId request
        record true table := by
      simp only [step, here, Node.commitObject, installed]
      rw [if_neg (by simpa [isNone_iff_eq_none, isSome_iff_ne_none] using present)]
    rw [result]
    have goes := (steps_install here u.uploadId request record true table).toGoes
    have erodes := goes.erodes (fun _ _ eq => nomatch eq) (fun _ _ => ⟨rfl, rfl⟩) fun _ mem => mem
    obtain ⟨r, row, same⟩ := exists_installObject (installObjectIf_ok installed).2
    obtain ⟨-, -, -, blob, live⟩ := fields_of_replicated same
    have drawn : record.blobId ∈ s.issued :=
      h.owners.issued (o := .job i) ⟨_, here, mem_singleton_self _⟩
    refine ⟨getMultipartUpload_taken _ _, goes.onUpload h.onUpload, r, row,
      live.mpr ⟨rfl, final.live.2⟩, blob ▸ drawn, .inr ?_⟩
    obtain ⟨m, sidecar, ⟨-, parts, lists, listed⟩ | ⟨plain, -⟩⟩ := final.sidecar
    · obtain ⟨n, inside, rfl⟩ := mem_iff_getElem.mp mem
      have length := listed.length_eq
      have eq : parts[n].blobId = matched[n].blobId :=
        (forall₂_iff_get.mp listed).2 n (length ▸ inside) inside
      have lost : Lost s matched[n].blobId :=
        (matching.kept present _ (getElem_mem _)).resolve_left replaced
      refine ⟨m, parts, parts[n], blob ▸ sidecar, lists, getElem_mem _, ?_, ?_⟩
      · exact eq ▸ matching.issued _ (getElem_mem _)
      · exact eq ▸ erodes.lost _ (matching.issued _ (getElem_mem _)) lost
    · cases plain
  | _ => exact absurd trivial breach

lemma not_canServe_of_lists {d : BlobDisk} {m : SidecarMeta}
    {parts : List CompositePart} {c : CompositePart} (sidecar : d.sidecars x = some m)
    (lists : m.composite = some parts) (mem : c ∈ parts) (gone : d.files c.blobId = none) :
    ¬ d.CanServe x := by
  rintro ⟨m', found, served⟩
  cases sidecar.symm.trans found
  simp only [lists] at served
  have present := served c mem
  rw [gone] at present
  cases present

lemma not_canServe_of_none {d : BlobDisk} (h : d.sidecars x = none) : ¬ d.CanServe x := by
  rintro ⟨m, found, -⟩
  cases h.symm.trans found

lemma dangles_of_doomed (h : Doomed u s) :
    ∃ cleanup : List Event, (∀ e ∈ cleanup, IsDiscard e) ∧ ¬ NoDangling (cleanup.foldl (step a) s) := by
  obtain ⟨r, row, live, drawn, gone | ⟨m, parts, c, sidecar, lists, mem, -, gone | pending⟩⟩ := h.row
  · exact ⟨[], forall_mem_nil _, fun served => not_canServe_of_none gone (served r row live).1⟩
  · exact ⟨[], forall_mem_nil _, fun served => not_canServe_of_lists sidecar lists mem gone (served r row live).1⟩
  · obtain ⟨i, job, reply, blobs, here, phase, listed⟩ := pending
    have result : step a s (.discard i c.blobId) = s.discard i job reply blobs c.blobId := by
      simp [step, here, phase, listed]
    refine ⟨[.discard i c.blobId], fun e he => mem_singleton.mp he ▸ trivial, fun served => ?_⟩
    rw [foldl_cons, foldl_nil, result] at served
    have after := (served r row live).1
    have removed : (s.disk.delete c.blobId).files c.blobId = none := by
      rw [BlobDisk.files_delete, if_pos (mem_reach_self _ _)]
    rcases (erodes_discard here phase c.blobId).sidecars r.blobId drawn with same | none
    · exact not_canServe_of_lists (same.trans sidecar) lists mem removed after
    · exact not_canServe_of_none none after

structure Settled (u : MultipartUploadRecord) (s : Node) : Prop where
  idle : s.jobs = []
  opened : s.multipart.getMultipartUpload u.uploadId = some u
  unlogged : s.completed = []
  owners : Ownership s
  served : NoDangling s
  backed : ∀ p ∈ s.multipart.parts, p.uploadId = u.uploadId → Backed s.disk u.key p
  keyed : ∀ p ∈ s.multipart.parts, ∀ q ∈ s.multipart.parts,
    p.uploadId = q.uploadId → p.partNumber = q.partNumber → p = q
  dead : ∀ r ∈ s.table.rows, ¬ Live r → r.blobId = ""
  blank : "" ∈ s.issued ∧ s.disk.sidecars "" = none

lemma Settled.inv (h : Settled u s) : Inv u s where
  owners := h.owners
  served := h.served
  backed := h.backed
  keyed := h.keyed
  dead := h.dead
  blank := h.blank
  upload r found := some.inj (found.symm.trans h.opened)
  first _ := h.unlogged
  onUpload i job here := by simp [h.idle] at here
  jobs i job here := by simp [h.idle] at here

/-- **Each object keeps its blob and its parts, exactly when no complete request commits a
composite of a part that was replaced after the request had listed it.** -/
theorem no_dangling_iff (a : Assembler) {u : MultipartUploadRecord} {s : Node} (settled : Settled u s)
    {es : List Event} (on : Run.Each (step a) (OnUpload u.uploadId) s es) :
    (∀ cleanup : List Event, (∀ e ∈ cleanup, IsDiscard e) →
      Run.Always (step a) NoDangling s (es ++ cleanup)) ↔ Run.Each (step a) KeepsMatched s es := by
  constructor
  · intro safe
    refine Run.each_of_not_end (P := fun s => Inv u s ∨ Doomed u s) (A := OnUpload u.uploadId)
      (B := Doomed u) ?_ ?_ (fun _ _ _ on doomed => doomed_step doomed on) (.inl settled.inv) on ?_
    · rintro s e (inv | doomed) on
      · by_cases keeps : KeepsMatched s e
        · exact .inl (inv_step inv on keeps)
        · exact .inr (doomed_of_breach inv keeps)
      · exact .inr (doomed_step doomed on)
    · rintro s e (inv | doomed) on breach
      · exact doomed_of_breach inv breach
      · exact doomed_step doomed on
    · intro doomed
      obtain ⟨cleanup, discards, dangles⟩ := dangles_of_doomed (a := a) doomed
      refine dangles ?_
      rw [← foldl_append]
      exact (safe cleanup discards).last
  · intro keeps cleanup discards
    have both : Run.Each (step a) (fun s e => OnUpload u.uploadId s e ∧ KeepsMatched s e) s
        (es ++ cleanup) := by
      rw [Run.each_append]
      refine ⟨on.and keeps, Run.each_of_forall (fun s e discard => ?_) discards _⟩
      cases e with
      | discard => exact ⟨trivial, trivial⟩
      | _ => exact discard.elim
    have always : Run.Always (step a) (Inv u) s (es ++ cleanup) :=
      Run.always_of_each (P := Inv u) (fun _ _ inv ok => inv_step inv ok.1 ok.2) settled.inv both
    exact always.mono fun _ inv => inv.served

lemma settled_emptyNode : Settled opened emptyNode := by
  have none_owned : ∀ o x, ¬ Owns emptyNode o x := by
    rintro (⟨u, n⟩ | ⟨b, k, v⟩ | i) x
    · rintro ⟨p, mem, -⟩
      cases mem
    · rintro ⟨r, mem, -⟩
      cases mem
    · rintro ⟨job, here, -⟩
      cases here
  have owners : Ownership emptyNode :=
    ⟨fun h => (none_owned _ _ h).elim, fun h => (none_owned _ _ h).elim,
      fun h => (none_owned _ _ h).elim⟩
  exact ⟨rfl, rfl, rfl, owners, forall_mem_nil _, forall_mem_nil _, forall_mem_nil _,
    forall_mem_nil _, mem_singleton_self _, rfl⟩

def firstUpload : List Event :=
  [.arrive (.uploadPart "b" "k" "u" 1), .read 0, .store 0 "A" onePart 1, .commit 0 ""]

def assembleFirst : List Event :=
  [.arrive (.complete "b" "k" "u" completePart), .read 1, .read 1, .read 1, .assemble 1 "F" none 2]

def secondUpload : List Event :=
  [.arrive (.uploadPart "b" "k" "u" 1), .read 2, .store 2 "B" onePart 3, .commit 2 ""]

def racingUploads : List Event :=
  firstUpload ++ assembleFirst ++ secondUpload ++ [.commit 1 "", .discard 2 "A"]

theorem no_dangling_iff_race : Settled opened emptyNode ∧
    Run.Each (step plainAssembler) (OnUpload "u") emptyNode racingUploads ∧
    ((∀ cleanup : List Event, (∀ e ∈ cleanup, IsDiscard e) →
      Run.Always (step plainAssembler) NoDangling emptyNode (racingUploads ++ cleanup)) ↔
        Run.Each (step plainAssembler) KeepsMatched emptyNode racingUploads) :=
  ⟨settled_emptyNode, by decide +kernel,
    no_dangling_iff plainAssembler settled_emptyNode (by decide +kernel)⟩

/-- The complete request commits the composite of A after the second upload has
replaced A, and the second upload then removes A. -/
theorem replaced_part_dangles :
    Run.Each (step plainAssembler) (OnUpload "u") emptyNode racingUploads ∧
    ((racingUploads.foldl (step plainAssembler) emptyNode).table.rows.map ObjectRecord.blobId = ["F"] ∧
      ¬ (racingUploads.foldl (step plainAssembler) emptyNode).disk.CanServe "F") := by
  decide +kernel

end Arca.Multipart
