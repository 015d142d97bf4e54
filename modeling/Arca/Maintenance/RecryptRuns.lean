import Arca.Maintenance.RecryptRows

/-!
# What the re-encryption job completes

A row that is there from the start of the job to its end is in the target state when the
job completes without an error, unless the job did not find it: it has no version id, and
when its turn came it was not the latest of its key.
-/
namespace Arca.Recrypt
open ObjectTable BucketLife Lifecycle Blob List Function

variable {L : Libraries} {mk : MasterKey} {ssec : Bool} {job : Job} {clustered : Bool}
  {s₀ s : State} {r r₀ x : ObjectRecord}

def State.Ready (L : Libraries) (mk : MasterKey) (job : Job) (s : State) : Prop :=
  match s.phase with
  | .listing => ∀ b, s.origin b = b
  | .scanning left _ _ => (∀ b, s.origin b = b) ∧ ∀ b ∈ left, b ∈ s.listed
  | .storing x content _ => ∀ r ∈ s.tables.objects, r.blobId = x.blobId →
      Reads L mk s.disk x.blobId content
  | .swapping x new encryption queue => Copied L mk job s x new encryption queue
  | .reclaiming id _ => ∀ y ∈ s.disk.reach id, y ∈ s.used ∧
      ∀ r ∈ s.tables.objects, r.blobId ≠ "" → y ∉ s.disk.reach r.blobId
  | _ => True

/-- The job has the row's blob among its candidates, or has yet to list the row. -/
def Phase.Awaits (r : ObjectRecord) : Phase → Prop
  | .listing | .ended => True
  | .scanning (b :: left) resume out => (∃ x ∈ out, x.blobId = r.blobId) ∨ r.bucket ∈ left ∨
      r.bucket = b ∧
        isPast ((resume.map Prod.fst).filter (· ≠ "")) (resume.map Prod.snd) r = true
  | phase => ∃ x ∈ phase.pending, x.blobId = r.blobId

structure Wanted (job : Job) (s₀ s : State) (r₀ r : ObjectRecord) : Prop extends Lasts s₀ s r₀ r where
  candidate : isRecryptCandidate job.direction r₀ = true
  included : job.includes r₀ = true
  unswapped : r.blobId = r₀.blobId

lemma Wanted.congr {s' : State} (h : Wanted job s₀ s' r₀ r)
    (rows : s'.tables.objects = s.tables.objects) (origin : s'.origin = s.origin) :
    Wanted job s₀ s r₀ r :=
  ⟨h.toLasts.congr rows origin, h.candidate, h.included, h.unswapped⟩

structure Inv (L : Libraries) (mk : MasterKey) (ssec : Bool) (job : Job) (s₀ s : State) : Prop
    extends Kept L mk ssec job s₀ s where
  queued : ∀ x ∈ s.phase.pending, Queued job s x
  ready : s.Ready L mk job
  awaits : ∀ r₀ r, Wanted job s₀ s r₀ r → s.errors = 0 → (s.phase = .listing ∨ r.bucket ∈ s.listed) →
    r₀.blobId ∉ s.demoted → s.phase.Awaits r

lemma Phase.Awaits.congr {phase : Phase} (same : settled x = settled r) (blob : x.blobId = r.blobId)
    (h : phase.Awaits x) : phase.Awaits r := by
  have bucket := of_settled ObjectRecord.bucket (fun _ => rfl) same
  have past := fun marker after => of_settled (isPast marker after) (fun _ => rfl) same
  unfold Phase.Awaits at h ⊢
  split at h
  · trivial
  · trivial
  · rwa [← blob, ← bucket, ← past]
  · next other => rwa [← blob]

variable {rows queue : List ObjectRecord} {used : List String} {d : Disk} {m : Blob.SidecarMeta}

lemma Queued.clientRows (h : Kept L mk ssec job s₀ s)
    (client : ClientRows s.disk s.used s.tables.objects rows)
    (more : s.used ⊆ used) (queued : Queued job s x) :
    Queued job { s with tables := { s.tables with objects := rows }, used } x := by
  refine ⟨queued.candidate, more queued.used, queued.unswapped, queued.listed, fun r mem blob => ?_⟩
  rcases client.cases h mem (blob ▸ candidate_named queued.candidate) with ⟨z, hz, same, eq, -⟩ | new
  · exact eq ▸ queued.rows z hz (same.trans blob)
  · exact absurd (blob ▸ queued.used) new

variable {encryption : Option EncryptionInfo}

lemma Copied.clientRows (h : Kept L mk ssec job s₀ s)
    (client : ClientRows s.disk s.used s.tables.objects rows)
    (more : s.used ⊆ used) (queued : Queued job s x) {new : String}
    (copied : Copied L mk job s x new encryption queue) (phase : Phase) :
    Copied L mk job { s with tables := { s.tables with objects := rows }, used, phase }
      x new encryption queue := by
  obtain ⟨content, new_reads, old_reads⟩ := copied.reads
  refine ⟨more copied.used, copied.named, copied.apart, fun r mem object => ?_, copied.sidecar,
    copied.algorithm, content, new_reads, fun r mem blob => ?_⟩
  · rcases client.origin r mem object with ⟨z, hz, same, -⟩ | fresh
    · exact same ▸ copied.unowned z hz (same ▸ object)
    · exact fun reached => fresh _ reached copied.used
  · rcases client.cases h mem (blob ▸ candidate_named queued.candidate) with ⟨z, hz, same, -⟩ | fresh
    · exact old_reads z hz (same.trans blob)
    · exact absurd (blob ▸ queued.used) fresh

lemma Inv.ready_clientRows (h : Inv L mk ssec job s₀ s)
    (client : ClientRows s.disk s.used s.tables.objects rows) (more : s.used ⊆ used) :
    State.Ready L mk job { s with tables := { s.tables with objects := rows }, used } := by
  have ready := h.ready
  have queued := h.queued
  cases phase : s.phase <;> simp only [State.Ready, phase] at ready queued ⊢ <;> try exact ready
  case storing x content queue =>
    intro r mem blob
    have waits := queued x mem_cons_self
    rcases client.cases h.toKept mem (blob ▸ candidate_named waits.candidate) with
      ⟨z, hz, same, -⟩ | fresh
    · exact ready z hz (same.trans blob)
    · exact absurd (blob ▸ waits.used) fresh
  case swapping x new encryption queue =>
    exact ready.clientRows h.toKept client more (queued x mem_cons_self) _
  case reclaiming id queue =>
    refine fun y reached => ⟨more (ready y reached).1, fun r mem object => ?_⟩
    rcases client.origin r mem object with ⟨z, hz, same, -⟩ | fresh
    · exact same ▸ (ready y reached).2 z hz (same ▸ object)
    · exact fun met => fresh _ met (ready y reached).1

lemma Inv.clientRows (h : Inv L mk ssec job s₀ s) (rows : List ObjectRecord) :
    Inv L mk ssec job s₀ (s.clientRows rows) := by
  by_cases client : ClientRows s.disk s.used s.tables.objects rows
  · have kept := h.toKept.clientRows client
    unfold State.clientRows at kept ⊢
    rw [if_pos client] at kept ⊢
    have more := subset_append_right
      (State.owned { s with tables := { s.tables with objects := rows } }) s.used
    refine ⟨kept, fun x mem => (h.queued x mem).clientRows h.toKept client more,
      h.ready_clientRows client more, fun r₀ r wanted clean seen live => ?_⟩
    rcases client.cases h.toKept wanted.last wanted.object with ⟨z, hz, blob, same, -⟩ | fresh
    · have bucket := of_settled ObjectRecord.bucket (fun _ => rfl) same
      have before : Wanted job s₀ s r₀ z :=
        ⟨⟨wanted.first, hz, wanted.named, blob ▸ wanted.object, blob ▸ wanted.same⟩, wanted.candidate,
          wanted.included, blob.trans wanted.unswapped⟩
      exact (h.awaits r₀ z before clean (bucket ▸ seen) live).congr same blob
    · exact absurd (wanted.unswapped ▸ h.first r₀ wanted.first wanted.named) fresh
  · rwa [State.clientRows, if_neg client]

lemma sameOn_update {id : String} {file : Option Bytes} {sidecar : Option Blob.SidecarMeta}
    {ids : List String} (apart : id ∉ ids) :
    d.SameOn ⟨update d.files id file, update d.sidecars id sidecar⟩ ids := by
  intro y mem
  have other : y ≠ id := fun same => apart (same ▸ mem)
  exact ⟨update_of_ne other .., update_of_ne other ..⟩

lemma Copied.onDisk (h : Kept L mk ssec job s₀ s) {new : String}
    (same : ∀ r ∈ s.tables.objects, r.blobId ≠ "" → s.disk.SameOn d (s.disk.reach r.blobId))
    (held : s.disk.SameOn d [new]) (named : x.blobId ≠ "")
    (copied : Copied L mk job s x new encryption queue) (phase : Phase) :
    Copied L mk job { s with disk := d, phase } x new encryption queue := by
  obtain ⟨m, sidecar, single⟩ := copied.sidecar
  have reach := reach_single sidecar single
  have plain : s.disk.Plain new := by
    intro m' parts told listed
    rw [sidecar] at told
    cases told
    rw [single] at listed
    cases listed
  obtain ⟨content, new_reads, old_reads⟩ := copied.reads
  refine ⟨copied.used, copied.named, copied.apart, fun r mem object => ?_, ⟨m, ?_, single⟩,
    copied.algorithm, content, new_reads.congr (reach ▸ held) plain, fun r mem blob => ?_⟩
  · rw [(same r mem object).reach_eq]
    exact copied.unowned r mem object
  · exact (held new mem_cons_self).2.trans sidecar
  · have object : r.blobId ≠ "" := blob ▸ named
    exact (old_reads r mem blob).congr (blob ▸ same r mem object) (blob ▸ h.separate.plain mem object)

section
variable (h : Inv L mk ssec job s₀ s)
include h

lemma Inv.clientBlob (id : String) (file : Option Bytes)
    (sidecar : Option Blob.SidecarMeta) : Inv L mk ssec job s₀ (s.clientBlob id file sidecar) := by
  unfold State.clientBlob
  split
  · next free =>
      obtain ⟨unowned, unheld⟩ := free
      have same : ∀ r ∈ s.tables.objects, r.blobId ≠ "" → s.disk.SameOn
          ⟨update s.disk.files id file, update s.disk.sidecars id sidecar⟩
          (s.disk.reach r.blobId) := fun r mem object =>
        sameOn_update fun reached => unowned (mem_owned.mpr ⟨r, mem, object, reached⟩)
      refine ⟨h.toKept.onDisk _ [] same nofun s.phase s.errors, fun x mem => ?_, ?_, fun r₀ r wanted => ?_⟩
      · exact (h.queued x mem).congr rfl rfl rfl (List.Subset.refl _)
      · have ready := h.ready
        have queued := h.queued
        cases phase : s.phase <;> simp only [State.Ready, phase] at ready queued unheld ⊢ <;>
          try exact ready
        case storing x content queue =>
          intro r mem blob
          have object : r.blobId ≠ "" := blob ▸ candidate_named (queued x mem_cons_self).candidate
          exact (ready r mem blob).congr (blob ▸ same r mem object)
            (blob ▸ h.separate.plain mem object)
        case swapping x new encryption queue =>
          refine ready.onDisk h.toKept same (sameOn_update fun held => ?_)
            (candidate_named (queued x mem_cons_self).candidate) _
          exact unheld (congrArg some (mem_singleton.mp held).symm)
        case reclaiming held queue =>
          have other : held ≠ id := fun eq => unheld (congrArg some eq)
          intro y reached
          have reach : y ∈ s.disk.reach held := by
            simpa only [Disk.reach, update_of_ne other] using reached
          refine ⟨(ready y reach).1, fun r mem object => ?_⟩
          rw [(same r mem object).reach_eq]
          exact (ready y reach).2 r mem object
      · exact h.awaits r₀ r (wanted.congr rfl rfl)
  · exact h

lemma Inv.clientBuckets (buckets : List BucketInfo) :
    Inv L mk ssec job s₀ { s with tables := { s.tables with buckets } } := by
  refine ⟨⟨h.separate, h.owned, h.fresh, h.traced, h.one, h.first, fun r₀ r lasts => ?_⟩,
    fun x mem => (h.queued x mem).congr rfl rfl rfl (List.Subset.refl _), ?_,
    fun r₀ r wanted => h.awaits r₀ r (wanted.congr rfl rfl)⟩
  · have carried := h.carries r₀ r (lasts.congr rfl rfl)
    exact ⟨carried.columns, carried.kept, carried.swapped, carried.missed, carried.content⟩
  · have ready := h.ready
    cases phase : s.phase <;> simp only [State.Ready, phase] at ready ⊢ <;> try exact ready
    case swapping x new encryption queue =>
      exact ⟨ready.used, ready.named, ready.apart, ready.unowned, ready.sidecar, ready.algorithm,
        ready.reads⟩

lemma Inv.onPhase {old : Phase} (here : s.phase = old) (phase : Phase)
    (errors : ℕ) (less : phase.pending ⊆ old.pending)
    (ready : State.Ready L mk job { s with phase, errors }) (listed : phase ≠ .listing)
    (awaits : errors = 0 → s.errors = 0 ∧ ∀ r, old.Awaits r → phase.Awaits r) :
    Inv L mk ssec job s₀ { s with phase, errors } := by
  refine ⟨h.toKept.onPhase phase errors, fun x mem => ?_, ready, fun r₀ r wanted clean seen live => ?_⟩
  · exact (h.queued x (here ▸ less mem)).congr rfl rfl rfl (List.Subset.refl _)
  · obtain ⟨clean, still⟩ := awaits clean
    have waits := h.awaits r₀ r (wanted.congr rfl rfl) clean (.inr (seen.resolve_left listed)) live
    exact still r (here ▸ waits)

lemma Inv.take : Inv L mk ssec job s₀ s.take := by
  unfold State.take
  split
  · next here =>
      exact h.onPhase here .completed s.errors (List.Subset.refl _) trivial Phase.noConfusion
        fun clean => ⟨clean, fun _ awaits => awaits⟩
  · next record queue here =>
      exact h.onPhase here (.fetching record queue) s.errors (List.Subset.refl _) trivial
        Phase.noConfusion fun clean => ⟨clean, fun _ awaits => awaits⟩
  · exact h

lemma Inv.fails : Inv L mk ssec job s₀ s.fails := by
  unfold State.fails
  split
  case h_4 => exact h
  all_goals
    next here =>
      exact h.onPhase here (.next _) (s.errors + 1) (subset_cons_self _ _) trivial
        Phase.noConfusion nofun

lemma Inv.fetch : Inv L mk ssec job s₀ (s.fetch L mk) := by
  unfold State.fetch
  split
  · next record queue here =>
      split
      · next content length read =>
          exact h.onPhase here (.storing record content queue) s.errors (List.Subset.refl _)
            (fun _ _ _ => ⟨length, read⟩) Phase.noConfusion fun clean => ⟨clean, fun _ awaits => awaits⟩
      · exact h.fails
  · exact h

lemma Inv.halt : Inv L mk ssec job s₀ s.halt := by
  unfold State.halt
  split
  · exact h
  · exact h.onPhase rfl .ended s.errors (nil_subset _) trivial Phase.noConfusion
      fun clean => ⟨clean, fun _ _ => trivial⟩

/-- Before the scan is over no row was swapped. -/
lemma Inv.list : Inv L mk ssec job s₀ (s.list job) := by
  unfold State.list
  split
  · next here =>
      have unswapped : ∀ b, s.origin b = b := by
        have ready := h.ready
        rwa [State.Ready, here] at ready
      refine ⟨⟨h.separate, h.owned, h.fresh, h.traced, h.one, h.first, fun r₀ r lasts => ?_⟩,
        fun _ none => absurd none not_mem_nil, ⟨unswapped, fun b mem => mem⟩,
        fun r₀ r wanted clean seen live => ?_⟩
      · have carried := h.carries r₀ r (lasts.congr rfl rfl)
        refine ⟨carried.columns, carried.kept, fun swapped => ?_, carried.missed, carried.content⟩
        exact absurd ((unswapped _).symm.trans lasts.same) swapped
      · have bucket := seen.resolve_left Phase.noConfusion
        cases names : (s.tables.buckets.map BucketInfo.name).filter fun b => job.bucket.all (· = b) with
        | nil =>
          rw [names] at bucket
          cases bucket
        | cons b left =>
          rw [names] at bucket
          rcases mem_cons.mp bucket with here | later
          · exact .inr (.inr ⟨here, rfl⟩)
          · exact .inr (.inl later)
  · exact h

lemma Inv.queued_page (unswapped : ∀ b, s.origin b = b) {b : String}
    (listed : b ∈ s.listed) {marker : Option String} {after : Option VersionPosition} {limit : ℕ}
    (mem : x ∈ s.tables.listObjectVersionsFrom b job.keyPrefix marker after limit)
    (candidate : isRecryptCandidate job.direction x = true) : Queued job s x := by
  obtain ⟨y, hy, rfl, own, -⟩ := mem_listed mem
  have named : y.blobId ≠ "" := candidate_named candidate
  refine ⟨candidate, h.owned y hy named _ mem_cons_self, unswapped _, own ▸ listed,
    fun r hr blob => ?_⟩
  rw [h.separate.inj hy hr named blob]
  rfl

end

lemma Wanted.candidate_now (h : Kept L mk ssec job s₀ s) (wanted : Wanted job s₀ s r₀ r) :
    isRecryptCandidate job.direction r = true ∧ job.includes r = true := by
  have same := (h.carries r₀ r wanted.toLasts).kept wanted.unswapped
  rw [of_settled (isRecryptCandidate job.direction) (fun _ => rfl) same,
    of_settled job.includes (fun _ => rfl) same]
  exact ⟨wanted.candidate, wanted.included⟩

lemma Inv.found_or_past (h : Inv L mk ssec job s₀ s) (wanted : Wanted job s₀ s r₀ r)
    {resume : Option (String × VersionPosition)} {page : List ObjectRecord}
    (read : s.tables.listObjectVersionsFrom r.bucket job.keyPrefix (resume.map Prod.fst)
      (resume.map Prod.snd) 1000 = page)
    (past : isPast ((resume.map Prod.fst).filter (· ≠ "")) (resume.map Prod.snd) r = true) :
    (∃ x ∈ page.filter (isRecryptCandidate job.direction), x.blobId = r.blobId) ∨
      page.length = 1000 ∧ ∀ last, page.getLast? = some last →
        isPast ((some last.key).filter (· ≠ "")) (some (.of last)) r = true := by
  obtain ⟨candidate, included⟩ := wanted.candidate_now h.toKept
  have live : r.isTombstone = false := by
    by_contra gone
    simp [isRecryptCandidate, gone] at candidate
  rw [Job.includes, Bool.and_eq_true] at included
  rcases listed_or_later wanted.last rfl live included.2 past with found | ⟨full, later⟩
  · rw [read] at found
    exact .inl ⟨selected r, mem_filter.mpr ⟨found, candidate⟩, rfl⟩
  · rw [read] at full later
    by_cases found : selected r ∈ page
    · exact .inl ⟨selected r, mem_filter.mpr ⟨found, candidate⟩, rfl⟩
    · refine .inr ⟨full, fun last ends => ?_⟩
      have mem := mem_of_getLast? ends
      by_cases empty : last.key = ""
      · rw [empty]
        rfl
      · have marker : (some last.key).filter (· ≠ "") = some last.key := by simp [empty]
        rw [marker, isPast_iff]
        refine lt_of_le_of_ne (later last mem) fun same => found ?_
        obtain ⟨y, hy, rfl, own, unburied⟩ := mem_listed (read ▸ mem)
        obtain ⟨key, -, version⟩ := rowRank_eq_iff.mp same
        have row : y = r := h.separate.versions y hy r wanted.last unburied live own key version
        exact row ▸ mem

section Page
variable {left left' : List String} {resume resume' : Option (String × VersionPosition)}
  {out out' page : List ObjectRecord} {b : String}

lemma Phase.Awaits.of_found (found : ∃ x ∈ out, x.blobId = r.blobId) :
    (Phase.scanning left resume out).Awaits r := by
  cases left with
  | nil => exact found
  | cons b left => exact .inl found

lemma Phase.Awaits.more (h : (Phase.scanning left resume out).Awaits r) (less : out ⊆ out') :
    (Phase.scanning left resume out').Awaits r := by
  have found : (∃ x ∈ out, x.blobId = r.blobId) → ∃ x ∈ out', x.blobId = r.blobId :=
    fun ⟨x, mem, same⟩ => ⟨x, less mem, same⟩
  cases left with
  | nil => exact found h
  | cons b left => exact h.imp found id

/-- After a page: what it shows is found, and the rest is still awaited. -/
lemma Inv.onPage (h : Inv L mk ssec job s₀ s) (here : s.phase = .scanning (b :: left) resume out)
    (read : s.tables.listObjectVersionsFrom b job.keyPrefix (resume.map Prod.fst)
      (resume.map Prod.snd) 1000 = page) (less : left' ⊆ b :: left)
    (awaits : ∀ r₀ r, Wanted job s₀ s r₀ r → r.bucket ∈ left ∨ r.bucket = b ∧
        isPast ((resume.map Prod.fst).filter (· ≠ "")) (resume.map Prod.snd) r = true →
      (Phase.scanning left' resume' (page.filter (isRecryptCandidate job.direction))).Awaits r) :
    Inv L mk ssec job s₀ { s with
      phase := .scanning left' resume' (out ++ page.filter (isRecryptCandidate job.direction)) } := by
  have ready := h.ready
  rw [State.Ready, here] at ready
  obtain ⟨unswapped, listed⟩ := ready
  refine ⟨h.toKept.onPhase _ s.errors, fun x mem => ?_, ⟨unswapped, fun b mem => listed b (less mem)⟩,
    fun r₀ r wanted clean seen live => ?_⟩
  · have queued : Queued job s x := by
      rcases mem_append.mp mem with old | new
      · exact h.queued x (here ▸ old)
      · obtain ⟨shown, candidate⟩ := mem_filter.mp new
        exact h.queued_page unswapped (listed b mem_cons_self) (read ▸ shown) candidate
    exact queued.congr rfl rfl rfl (List.Subset.refl _)
  · have before : Wanted job s₀ s r₀ r := wanted.congr rfl rfl
    have waits := here ▸ h.awaits r₀ r before clean (.inr (seen.resolve_left Phase.noConfusion)) live
    rcases waits with ⟨x, mem, same⟩ | rest
    · exact .of_found ⟨x, mem_append_left _ mem, same⟩
    · exact (awaits r₀ r before rest).more (subset_append_right _ _)

lemma Inv.onLastPage (h : Inv L mk ssec job s₀ s) (here : s.phase = .scanning (b :: left) resume out)
    (read : s.tables.listObjectVersionsFrom b job.keyPrefix (resume.map Prod.fst)
      (resume.map Prod.snd) 1000 = page) (short : page.length ≠ 1000) :
    Inv L mk ssec job s₀ { s with
      phase := .scanning left none (out ++ page.filter (isRecryptCandidate job.direction)) } := by
  refine h.onPage here read (subset_cons_self _ _) fun r₀ r wanted rest => ?_
  rcases rest with later | ⟨rfl, past⟩
  · cases left with
    | nil => cases later
    | cons b' left =>
      rcases mem_cons.mp later with next | later
      · exact .inr (.inr ⟨next, rfl⟩)
      · exact .inr (.inl later)
  · rcases h.found_or_past wanted read past with found | ⟨full, -⟩
    · exact .of_found found
    · exact absurd full short

end Page

lemma Inv.page (h : Inv L mk ssec job s₀ s) : Inv L mk ssec job s₀ (s.page job) := by
  unfold State.page
  split
  · next here =>
      exact h.onPhase here (.next _) s.errors (List.Subset.refl _) trivial Phase.noConfusion
        fun clean => ⟨clean, fun _ awaits => awaits⟩
  · next b left resume out here =>
      dsimp only
      generalize read : s.tables.listObjectVersionsFrom b job.keyPrefix (resume.map Prod.fst)
        (resume.map Prod.snd) 1000 = page
      cases ends : page.getLast? with
      | none =>
        refine h.onLastPage here read ?_
        rw [getLast?_eq_none_iff.mp ends]
        decide
      | some last =>
        dsimp only
        split
        · refine h.onPage here read (List.Subset.refl _) fun r₀ r wanted rest => ?_
          rcases rest with later | ⟨rfl, past⟩
          · exact .inr (.inl later)
          · rcases h.found_or_past wanted read past with found | ⟨-, past⟩
            · exact .inl found
            · exact .inr (.inr ⟨rfl, past last ends⟩)
        · next short => exact h.onLastPage here read short
  · exact h

lemma sameOn_store {stack : Option (MasterKey × Entropy)} {new : String}
    {stream : Upload} {ids : List String} (apart : new ∉ ids) :
    d.SameOn ((putInner L stack d new stream).1.writeSidecar new m) ids := by
  intro y mem
  have other : y ≠ new := fun same => apart (same ▸ mem)
  cases stack with
  | none | some => exact ⟨update_of_ne other .., update_of_ne other ..⟩

def State.written (L : Libraries) (mk : MasterKey) (job : Job) (s : State) (new : String)
    (entropy : Entropy) (stream : Upload) : Disk × BlobPutResult :=
  putInner L (RangedReads.stackOf (some mk) (match job.direction with
    | .encrypt => some entropy
    | .decrypt => none)) s.disk new stream

lemma algorithm_written (L : Libraries) (mk : MasterKey) (job : Job) (s : State) (new : String)
    (entropy : Entropy) (stream : Upload) :
    ((s.written L mk job new entropy stream).2.encryption.map EncryptionInfo.algorithm) =
      match job.direction with
      | .encrypt => some "AES256"
      | .decrypt => none := by
  unfold State.written
  cases job.direction with
  | encrypt => rfl
  | decrypt => rfl

lemma Inv.onStored (h : Inv L mk ssec job s₀ s) {record : ObjectRecord} {content : Bytes}
    (here : s.phase = .storing record content queue)
    {new : String} (named : new ≠ "") (unused : new ∉ s.used)
    (same : ∀ r ∈ s.tables.objects, r.blobId ≠ "" → s.disk.SameOn d (s.disk.reach r.blobId))
    (sidecar : d.sidecars new = some m) (single : m.composite = none) (reads : Reads L mk d new content)
    (algorithm : encryption.map EncryptionInfo.algorithm = match job.direction with
      | .encrypt => some "AES256" | .decrypt => none) :
    Inv L mk ssec job s₀ { s with
      disk := d, used := new :: s.used, phase := .swapping record new encryption queue } := by
  have ready := h.ready
  rw [State.Ready, here] at ready
  have queued : ∀ x ∈ record :: queue, Queued job s x := fun x mem => h.queued x (here ▸ mem)
  refine ⟨h.toKept.onDisk d [new] same (fun b drawn => ?_) _ s.errors, fun x mem => ?_, ?_,
    fun r₀ r wanted clean seen live => ?_⟩
  · rw [mem_singleton.mp drawn]
    exact h.fresh new unused
  · exact (queued x mem).congr rfl rfl rfl (subset_cons_self _ _)
  · refine ⟨mem_cons_self, named, fun y mem drawn => ?_, fun r mem object reached => ?_,
      ⟨m, sidecar, single⟩, algorithm, content, reads, fun r mem blob => ?_⟩
    · exact unused (drawn ▸ (queued y mem).used)
    · rw [(same r mem object).reach_eq] at reached
      exact unused (h.owned r mem object new reached)
    · have object : r.blobId ≠ "" := blob ▸ candidate_named (queued record mem_cons_self).candidate
      exact (ready r mem blob).congr (blob ▸ same r mem object) (blob ▸ h.separate.plain mem object)
  · have waits := h.awaits r₀ r (wanted.congr rfl rfl) clean
      (.inr (seen.resolve_left Phase.noConfusion)) live
    rw [here] at waits
    exact waits

lemma Inv.store (h : Inv L mk ssec job s₀ s) (new : String) (entropy : Entropy) (stream : Upload)
    (lastModified : String) :
    Inv L mk ssec job s₀ (s.store L mk job new entropy stream lastModified) := by
  unfold State.store
  split
  · next record content queue here =>
      split
      · next drawn =>
          obtain ⟨rfl, named, unused, no_file, no_sidecar⟩ := drawn
          have put : RangedReads.Put L (some mk) s.disk new stream.content
            (s.written L mk job new entropy stream) := RangedReads.put_inner L (some mk) s.disk new _ stream
          obtain ⟨-, sidecar, payload⟩ := put.withSidecar ⟨no_file, no_sidecar⟩
            (sidecarFor record lastModified (s.written L mk job new entropy stream).2.encryption)
          refine h.onStored here named unused (fun r mem object => sameOn_store fun reached => ?_) sidecar
            rfl (reads_of_payload sidecar rfl rfl payload)
            (algorithm_written L mk job s new entropy stream)
          exact unused (h.owned r mem object _ reached)
      · exact h
  · exact h

section Swap
variable {new : String} {encryption : Option EncryptionInfo} {queue : List ObjectRecord}
  {y z : ObjectRecord} {now : Instant} {phase : Phase}

section
variable (mem : y ∈ s.tables.objects) (hit : swaps x.bucket x.key x.versionId x.blobId y = true)
include mem hit

lemma Queued.swapped (h : Kept L mk ssec job s₀ s) (turn : Queued job s x)
    (copied : Copied L mk job s x new encryption queue) (later : z ∈ queue)
    (queued : Queued job s z) : Queued job (s.swapped x new encryption now phase) z := by
  have apart := copied.apart z (mem_cons_of_mem _ later)
  refine ⟨queued.candidate, queued.used, ?_, queued.listed, fun r hr blob => ?_⟩
  · exact (update_of_ne apart ..).trans queued.unswapped
  · rcases (mem_swapped h mem hit (candidate_named turn.candidate)).mp hr with rfl | ⟨hr, -⟩
    · exact absurd blob.symm apart
    · exact queued.rows r hr blob

/-- A row that is still wanted after the swap was wanted before, and is not the one it found. -/
lemma Wanted.of_swapped (h : Kept L mk ssec job s₀ s) (turn : Queued job s x)
    (copied : Copied L mk job s x new encryption queue)
    (wanted : Wanted job s₀ (s.swapped x new encryption now phase) r₀ r) :
    Wanted job s₀ s r₀ r ∧ r.blobId ≠ x.blobId := by
  rcases (mem_swapped h mem hit (candidate_named turn.candidate)).mp wanted.last with rfl | ⟨hr, other⟩
  · have name : s.origin x.blobId = r₀.blobId := (origin_renewed phase).symm.trans wanted.same
    have drawn : new = r₀.blobId := wanted.unswapped
    exact absurd (turn.unswapped.symm.trans (name.trans drawn.symm)) (copied.apart x mem_cons_self)
  · have same : s.origin r.blobId = r₀.blobId :=
      (origin_other copied phase hr wanted.object).symm.trans wanted.same
    exact ⟨⟨⟨wanted.first, hr, wanted.named, wanted.object, same⟩, wanted.candidate, wanted.included,
      wanted.unswapped⟩, other⟩

lemma Inv.onSwap (h : Inv L mk ssec job s₀ s) (here : s.phase = .swapping x new encryption queue)
    (left : phase.pending = queue)
    (ready : State.Ready L mk job (s.swapped x new encryption now phase))
    (awaits : ∀ r, (∃ z ∈ queue, z.blobId = r.blobId) → phase.Awaits r) (listed : phase ≠ .listing) :
    Inv L mk ssec job s₀ (s.swapped x new encryption now phase) := by
  have copied : Copied L mk job s x new encryption queue := by
    have ready := h.ready
    rwa [State.Ready, here] at ready
  have queued : ∀ z ∈ x :: queue, Queued job s z := fun z mem => h.queued z (here ▸ mem)
  have turn := queued x mem_cons_self
  refine ⟨h.toKept.swapped turn copied mem hit phase, fun z later => ?_, ready,
    fun r₀ r wanted clean seen live => awaits r ?_⟩
  · have later : z ∈ queue := left ▸ later
    exact Queued.swapped mem hit h.toKept turn copied later (queued z (mem_cons_of_mem _ later))
  · obtain ⟨before, other⟩ := wanted.of_swapped mem hit h.toKept turn copied
    have unmissed : r₀.blobId ∉ s.demoted := by
      refine fun missed => live (mem_filter.mpr ⟨missed, ?_⟩)
      rw [turn.unswapped, ← wanted.unswapped]
      exact decide_eq_true other
    have waits := h.awaits r₀ r before clean (.inr (seen.resolve_left listed)) unmissed
    rw [here] at waits
    obtain ⟨z, mem, same⟩ := waits
    rcases mem_cons.mp mem with rfl | later
    · exact absurd same.symm other
    · exact ⟨z, later, same⟩

lemma ready_reclaiming (h : Inv L mk ssec job s₀ s)
    (here : s.phase = .swapping x new encryption queue) :
    State.Ready L mk job (s.swapped x new encryption now (.reclaiming x.blobId queue)) := by
  have copied : Copied L mk job s x new encryption queue := by
    have ready := h.ready
    rwa [State.Ready, here] at ready
  have turn : Queued job s x := h.queued x (here ▸ mem_cons_self)
  have named := candidate_named turn.candidate
  have blob := swaps_blobId hit
  obtain ⟨m, sidecar, single⟩ := copied.sidecar
  intro z reached
  have old : z ∈ s.disk.reach y.blobId := blob ▸ reached
  refine ⟨h.owned y mem (blob ▸ named) z old, fun r hr object met => ?_⟩
  rcases (mem_swapped h.toKept mem hit named).mp hr with rfl | ⟨hr, other⟩
  · have z_new : z = new := mem_singleton.mp (reach_single sidecar single ▸ met)
    exact copied.unowned y mem (blob ▸ named) (z_new ▸ old)
  · have same := h.separate.blobs r hr y mem object (blob ▸ named) ⟨z, met, old⟩
    exact other (same ▸ blob)

end

/-- A swap that finds no row although there is one for the blob: the row has no version id
and is not the latest. -/
lemma missed_row (turn : Queued job s x) (mem : r ∈ s.tables.objects) (blob : r.blobId = x.blobId)
    (miss : s.tables.objects.any (swaps x.bucket x.key x.versionId x.blobId) = false) :
    r.versionId = none ∧ r.isLatest = false := by
  have same := turn.rows r mem blob
  have bucket := of_settled ObjectRecord.bucket (fun _ => rfl) same
  have key := of_settled ObjectRecord.key (fun _ => rfl) same
  have version := of_settled ObjectRecord.versionId (fun _ => rfl) same
  have unfound := any_eq_false.mp miss r mem
  simp only [swaps, atKey, bucket, key, blob, decide_true, Bool.true_and, Bool.and_true, ← version]
    at unfound
  cases told : r.versionId with
  | none => exact ⟨rfl, by simpa [told] using unfound⟩
  | some v => simp [told] at unfound

lemma Inv.onMiss (h : Inv L mk ssec job s₀ s) (here : s.phase = .swapping x new encryption queue)
    (miss : s.tables.objects.any (swaps x.bucket x.key x.versionId x.blobId) = false) :
    Inv L mk ssec job s₀ { s with
      demoted := if s.tables.objects.any fun r => r.blobId = x.blobId && r.versionId = none &&
          !r.isLatest then s.origin x.blobId :: s.demoted else s.demoted
      phase := .reclaiming new queue } := by
  have copied : Copied L mk job s x new encryption queue := by
    have ready := h.ready
    rwa [State.Ready, here] at ready
  have turn : Queued job s x := h.queued x (here ▸ mem_cons_self)
  obtain ⟨m, sidecar, single⟩ := copied.sidecar
  refine ⟨h.toKept.unswapped turn _ fun b recorded => ?_, fun z later => ?_, fun z reached => ?_,
    fun r₀ r wanted clean seen live => ?_⟩
  · split at recorded
    · next demoted =>
        obtain ⟨z, hz, told⟩ := any_eq_true.mp demoted
        simp only [Bool.and_eq_true, decide_eq_true_eq] at told
        exact (mem_cons.mp recorded).elim (fun same => .inr ⟨same, z, hz, told.1.1⟩) .inl
    · exact .inl recorded
  · exact (h.queued z (here ▸ mem_cons_of_mem _ later)).congr rfl rfl rfl (List.Subset.refl _)
  · have z_new : z = new := mem_singleton.mp (reach_single sidecar single ▸ reached)
    rw [z_new]
    exact ⟨copied.used, copied.unowned⟩
  · have before : Wanted job s₀ s r₀ r := wanted.congr rfl rfl
    have unmissed : r₀.blobId ∉ s.demoted := by
      refine fun missed => live ?_
      dsimp only
      split
      · exact mem_cons_of_mem _ missed
      · exact missed
    have waits := h.awaits r₀ r before clean (.inr (seen.resolve_left Phase.noConfusion)) unmissed
    rw [here] at waits
    obtain ⟨z, mem, same⟩ := waits
    rcases mem_cons.mp mem with rfl | later
    · obtain ⟨version, latest⟩ := missed_row turn before.last same.symm miss
      refine absurd ?_ live
      have demoted : (s.tables.objects.any fun r => r.blobId = z.blobId && r.versionId = none &&
          !r.isLatest) = true :=
        any_eq_true.mpr ⟨r, before.last, by simp [same, version, latest]⟩
      rw [if_pos demoted, turn.unswapped, same, before.unswapped]
      exact mem_cons_self
    · exact ⟨z, later, same⟩

lemma Inv.swap (h : Inv L mk ssec job s₀ s) (now : Instant) :
    Inv L mk ssec job s₀ (s.swap clustered now) := by
  unfold State.swap
  split
  · next x new encryption queue here =>
      dsimp only
      split
      · next found =>
          obtain ⟨y, mem, hit⟩ := any_eq_true.mp found
          have single : Inv L mk ssec job s₀
              (s.swapped x new encryption now (.reclaiming x.blobId queue)) :=
            h.onSwap mem hit here rfl (ready_reclaiming mem hit h here) (fun _ found => found)
              Phase.noConfusion
          have shared : Inv L mk ssec job s₀ (s.swapped x new encryption now (.next queue)) :=
            h.onSwap mem hit here rfl trivial (fun _ found => found) Phase.noConfusion
          cases clustered with
          | true => exact shared
          | false => exact single
      · next miss => exact h.onMiss here (by simpa using miss)
  · exact h

lemma Inv.reclaim (h : Inv L mk ssec job s₀ s) (done : Bool) :
    Inv L mk ssec job s₀ (s.reclaim done) := by
  unfold State.reclaim
  split
  · next id queue here =>
      have ready := h.ready
      rw [State.Ready, here] at ready
      have same : ∀ r ∈ s.tables.objects, r.blobId ≠ "" → s.disk.SameOn
          (if done then Disk.delete s.disk id else s.disk) (s.disk.reach r.blobId) := by
        intro r mem object y reached
        have apart : y ∉ s.disk.reach id := fun met => (ready y met).2 r mem object reached
        cases done with
        | true => exact ⟨if_neg apart, if_neg apart⟩
        | false => exact ⟨rfl, rfl⟩
      refine ⟨h.toKept.onDisk _ [] same nofun _ s.errors, fun z mem => ?_, trivial,
        fun r₀ r wanted clean seen live => ?_⟩
      · exact (h.queued z (here ▸ mem)).congr rfl rfl rfl (List.Subset.refl _)
      · have waits := h.awaits r₀ r (wanted.congr rfl rfl) clean
          (.inr (seen.resolve_left Phase.noConfusion)) live
        rw [here] at waits
        exact waits
  · exact h

end Swap

/-- **Every step** leaves what holds along a run. -/
lemma Inv.next (h : Inv L mk ssec job s₀ s) (e : Event) :
    Inv L mk ssec job s₀ (step L mk job clustered s e) := by
  cases e with
  | list => exact h.list
  | page => exact h.page
  | take => exact h.take
  | fetch => exact h.fetch
  | store new entropy stream lastModified => exact h.store new entropy stream lastModified
  | swap now => exact h.swap now
  | reclaim done => exact h.reclaim done
  | fails => exact h.fails
  | halt => exact h.halt
  | clientRows rows => exact h.clientRows rows
  | clientBlob id file sidecar => exact h.clientBlob id file sidecar
  | clientBuckets buckets => exact h.clientBuckets buckets

structure Start where
  tables : Tables
  disk : Disk
  separate : Separate disk tables.objects

def Start.state (start : Start) : State where
  tables := start.tables
  disk := start.disk
  phase := .listing
  errors := 0
  used := (start.tables.objects.filter (·.blobId ≠ "")).flatMap fun r => start.disk.reach r.blobId
  origin := id
  listed := []
  demoted := []

lemma inv_start (start : Start) : Inv L mk ssec job start.state start.state := by
  have owned : ∀ r ∈ start.tables.objects, r.blobId ≠ "" → ∀ y ∈ start.disk.reach r.blobId,
      y ∈ start.state.used := fun r mem object y reached =>
    (mem_owned (s := start.state)).mpr ⟨r, mem, object, reached⟩
  refine ⟨⟨start.separate, owned, fun _ _ => rfl, fun _ used => used, fun a ha b hb _ nb same => ?_,
    fun r mem named => owned r mem named _ mem_cons_self, fun r₀ r lasts => ?_⟩,
    fun _ none => absurd none not_mem_nil, fun _ => rfl, fun _ _ _ _ _ _ => trivial⟩
  · exact start.separate.inj hb ha nb same
  · have same : r = r₀ := start.separate.inj lasts.first lasts.last lasts.named lasts.same
    rw [same]
    exact ⟨rfl, fun _ => rfl, fun swapped => absurd rfl swapped, fun _ => rfl, fun _ _ read => read⟩

def unswapped (r : ObjectRecord) : ObjectRecord :=
  { r with
    blobId := "", encryptionAlgorithm := none, encryptionKeyId := none, contentUpdatedAt := none }

def Framed (L : Libraries) (mk : MasterKey) (job : Job) (clustered : Bool) (s : State) (e : Event) :
    Prop :=
  e.ofJob = true → ∃ objects, (step L mk job clustered s e).tables = { s.tables with objects } ∧
    objects.map unswapped = s.tables.objects.map unswapped

section
variable (s : State)

lemma fails_tables : s.fails.tables = s.tables := by
  unfold State.fails
  split <;> rfl

lemma fetch_tables : (s.fetch L mk).tables = s.tables := by
  unfold State.fetch
  split
  · split
    · rfl
    · exact fails_tables s
  · rfl

lemma page_tables : (s.page job).tables = s.tables := by
  unfold State.page
  split
  · rfl
  · dsimp only
    split
    · rfl
    · split <;> rfl
  · rfl

lemma store_tables (new : String) (entropy : Entropy) (stream : Upload)
    (lastModified : String) : (s.store L mk job new entropy stream lastModified).tables = s.tables := by
  unfold State.store
  split
  · split <;> rfl
  · rfl

lemma framed (e : Event) : Framed L mk job clustered s e := by
  have same : ∀ {t : Tables}, t = s.tables → ∃ objects, t = { s.tables with objects } ∧
      objects.map unswapped = s.tables.objects.map unswapped := fun eq => ⟨_, eq, rfl⟩
  intro ours
  cases e with
  | list =>
    refine same ?_
    change (s.list job).tables = s.tables
    unfold State.list
    split <;> rfl
  | page => exact same (page_tables s)
  | take =>
    refine same ?_
    change s.take.tables = s.tables
    unfold State.take
    split <;> rfl
  | fails => exact same (fails_tables s)
  | fetch => exact same (fetch_tables s)
  | store new entropy stream lastModified => exact same (store_tables s new entropy stream lastModified)
  | swap now =>
    change ∃ objects, (s.swap clustered now).tables = _ ∧ _
    unfold State.swap
    split
    · dsimp only
      split
      · refine ⟨_, rfl, ?_⟩
        rw [updateWhere, map_map]
        refine map_congr_left fun r _ => ?_
        dsimp only [comp]
        split <;> rfl
      · exact same rfl
    · exact same rfl
  | reclaim done =>
    refine same ?_
    change (s.reclaim done).tables = s.tables
    unfold State.reclaim
    split <;> rfl
  | halt =>
    refine same ?_
    change s.halt.tables = s.tables
    unfold State.halt
    split <;> rfl
  | clientRows rows => cases ours
  | clientBlob id file sidecar => cases ours
  | clientBuckets buckets => cases ours

end

lemma candidate_iff : isRecryptCandidate job.direction r = true ↔ eligible r = true ∧
    inTarget job.direction r = false ∧
      (job.direction = .decrypt → r.encryptionAlgorithm = some "AES256") := by
  unfold isRecryptCandidate eligible inTarget
  cases job.direction with
  | encrypt => cases r.encryptionAlgorithm <;> grind
  | decrypt => cases r.encryptionAlgorithm <;> grind

/-- **What the job completes**: the rows it concerns are in the target state, exactly if it
knew their encryption, listed their buckets and found their rows when it came to swap them. -/
theorem recrypt_complete_iff (start : Start) (events : List Event) :
    let s := events.foldl (step L mk job clustered) start.state
    (Run.Each (step L mk job clustered) (Framed L mk job clustered) start.state events ∧
      (∀ r₀ r, Lasts start.state s r₀ r → ∀ customerKey bytes,
        plaintext L mk ssec customerKey start.disk r₀ = .ok bytes →
          plaintext L mk ssec customerKey s.disk r = .ok bytes) ∧
      (s.phase = .completed → s.errors = 0 → ∀ r₀ r, Lasts start.state s r₀ r → eligible r₀ = true →
        job.includes r₀ = true → inTarget job.direction r = true)) ↔
    (s.phase = .completed → s.errors = 0 → ∀ r₀ r, Lasts start.state s r₀ r → eligible r₀ = true →
      job.includes r₀ = true → inTarget job.direction r₀ = false →
        (job.direction = .decrypt → r₀.encryptionAlgorithm = some "AES256") ∧
          r₀.bucket ∈ s.listed ∧ r₀.blobId ∉ s.demoted) := by
  intro s
  have inv : Inv L mk ssec job start.state s :=
    (Run.always_of_step (fun s e h => h.next e) (inv_start start) events).last
  constructor
  · rintro ⟨-, -, complete⟩ completed clean r₀ r lasts able included unready
    have carried := inv.carries r₀ r lasts
    have reached := complete completed clean r₀ r lasts able included
    have swapped : r.blobId ≠ r₀.blobId := by
      intro same
      rw [of_settled (inTarget job.direction) (fun _ => rfl) (carried.kept same), unready] at reached
      cases reached
    obtain ⟨candidate, -, listed⟩ := carried.swapped swapped
    have bucket : (stripped r).bucket = (stripped r₀).bucket := by rw [carried.columns]
    have listed : r₀.bucket ∈ s.listed := Eq.subst (motive := (· ∈ s.listed)) bucket listed
    exact ⟨(candidate_iff.mp candidate).2.2, listed, fun missed => swapped (carried.missed missed)⟩
  · intro ready
    refine ⟨Run.each_of_forall (D := fun _ => True) (fun s e _ => framed s e) (fun _ _ => trivial) _, fun r₀ r lasts => (inv.carries r₀ r lasts).content,
      fun completed clean r₀ r lasts able included => ?_⟩
    have carried := inv.carries r₀ r lasts
    by_cases same : r.blobId = r₀.blobId
    · have kept := carried.kept same
      by_contra missed
      rw [of_settled (inTarget job.direction) (fun _ => rfl) kept, Bool.not_eq_true] at missed
      obtain ⟨known, listed, unmissed⟩ := ready completed clean r₀ r lasts able included missed
      have bucket := of_settled ObjectRecord.bucket (fun _ => rfl) kept
      have waits := inv.awaits r₀ r ⟨lasts, candidate_iff.mpr ⟨able, missed, known⟩, included, same⟩ clean
        (.inr (bucket ▸ listed)) unmissed
      rw [completed] at waits
      obtain ⟨x, none, -⟩ := waits
      cases none
    · exact (carried.swapped same).2.1

/-! A version from before the bucket was versioned, under a newer one. -/

def nullVersion : ObjectRecord := { ObjectRecord.written with isLatest := false }

def newerVersion : ObjectRecord :=
  { ObjectRecord.written with
    blobId := "6", versionId := some "v1", lastModified := 200
    encryptionAlgorithm := some "AES256", encryptionKeyId := some "k1" }

def versionedStart : Start where
  tables := { Tables.new false with
    buckets := [⟨"b", 0, "root"⟩]
    config := fun _ name => if name = "versioning" then some "Enabled" else none
    objects := [nullVersion, newerVersion] }
  disk := ⟨update (fun _ => none) "5" (some [1, 2, 3]),
    update (fun _ => none) "5" (some (LiveReads.sampleSidecar 3))⟩
  separate := by decide +kernel

def encryptAll : Job := ⟨.encrypt, none, none⟩

def sampleEntropy : Entropy := ⟨List.replicate 32 1, List.replicate 12 2, [0, 0, 0, 7], rfl, rfl, rfl⟩

def undisturbed : List Event :=
  [.list, .page, .page, .take, .fetch, .store "7" sampleEntropy [([1, 2, 3], 4)] "", .swap 300,
    .reclaim true, .take]

def Phase.isCompleted : Phase → Bool
  | .completed => true
  | _ => false

def undisturbedEnd : State :=
  undisturbed.foldl (step sampleAuthentic.toLibraries Readers.sampleMaster encryptAll false)
    versionedStart.state

/-- The job completes without an error, and the old version is as it was. -/
theorem noncurrent_null_version_stays_plain :
    undisturbedEnd.phase.isCompleted = true ∧ undisturbedEnd.errors = 0 ∧
    Lasts versionedStart.state undisturbedEnd nullVersion nullVersion ∧ eligible nullVersion = true ∧
    encryptAll.includes nullVersion = true ∧ inTarget .encrypt nullVersion = false := by
  have there : nullVersion ∈ undisturbedEnd.tables.objects := by decide +kernel
  have same : undisturbedEnd.origin nullVersion.blobId = nullVersion.blobId := by decide +kernel
  have named : nullVersion.blobId ≠ "" := by decide
  exact ⟨by decide +kernel, by decide +kernel, ⟨mem_cons_self, there, named, named, same⟩,
    by decide +kernel, by decide +kernel, rfl⟩

end Arca.Recrypt
