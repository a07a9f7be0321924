import FlyingKV.CrashTriple
import FlyingKV.WalTruncateScope

set_option autoImplicit false

/-!
# `Init` on whatever a crash left

`Init` repairs the directory in several steps. The number in the info file decides which
segments go; from a crash image of `Init` the next one goes on where the first one stopped,
unless the first one had removed every segment and not yet the number.
-/
namespace FlyingKV.Wal
open ByteOrder CommonUtils DecimalText DiskProgram FileUtils FramedStream CrashTriple

/-- `OK` or a file-system error. -/
def EndsWell (r : Ended WalResult) : Prop :=
  ∃ rs, r = .returned rs ∧ (rs.rc = .OK ∨ rs.rc = .FileSystemError)

/-- A number to clean up to is not the largest one, and a segment lies above it. -/
def Spares (errno : ℕ) (d : WalDir) : Prop :=
  getUncompletedTruncSegmentsMaxId errno d = invalidSegmentId ∨
    (getUncompletedTruncSegmentsMaxId errno d ≠ ulongMax ∧
      ∃ i, getUncompletedTruncSegmentsMaxId errno d < i ∧ d.get (.segment i) ≠ none)

/-! ## Whatever fails -/

theorem endsWell_ok : EndsWell (.returned .ok) := ⟨_, rfl, .inl rfl⟩

theorem endsWell_error (e : String) : EndsWell (.returned (fileSystemError e)) := ⟨_, rfl, .inr rfl⟩

theorem returns_cleanTruncStatus :
    Returns cleanTruncStatus fun rs => rs.rc = .OK ∨ rs.rc = .FileSystemError := by
  refine Returns.bind (returns_true _) fun err _ => ?_
  cases err with
  | some e => exact returns_pure (.inr rfl)
  | none =>
    refine Returns.bind (returns_true _) fun err _ => ?_
    cases err with
    | some e => exact returns_pure (.inr rfl)
    | none => exact returns_pure (.inl rfl)

theorem returns_openNewSegment (w : LogCleanWal) :
    Returns (openNewSegment w) fun o => o.2.rc = .OK ∨ o.2.rc = .FileSystemError := by
  refine Returns.bind (returns_true _) fun err _ => ?_
  cases err with
  | some e => exact returns_pure (.inr rfl)
  | none =>
    refine Returns.bind (returns_true _) fun written _ => ?_
    obtain ⟨fd, err⟩ := written
    cases err with
    | some e => exact returns_pure (.inr rfl)
    | none => exact returns_pure (.inl rfl)

theorem returns_createNewSegmentFile (w : LogCleanWal) :
    Returns (createNewSegmentFile w) fun o => o.2.rc = .OK ∨ o.2.rc = .FileSystemError := by
  unfold createNewSegmentFile
  cases w.currentSegFd with
  | none => exact returns_openNewSegment w
  | some fd =>
    refine Returns.bind (returns_true _) fun err _ => ?_
    cases err with
    | some e => exact returns_pure (.inr rfl)
    | none => exact returns_openNewSegment w

theorem returns_openCurrentSegment (w : LogCleanWal) :
    Returns (openCurrentSegment w) fun o => EndsWell o.2 := by
  refine Returns.bind (returns_true _) fun err _ => ?_
  cases err with
  | some e => exact returns_pure (endsWell_error e)
  | none =>
    refine Returns.bind (returns_true _) fun size _ => ?_
    refine Returns.bind (returns_true _) fun err _ => ?_
    cases err with
    | some e => exact returns_pure (endsWell_error e)
    | none => exact returns_pure endsWell_ok

theorem returns_initSegments (w : LogCleanWal) (ids : List ℕ) :
    Returns (initSegments w ids) fun o => EndsWell o.2 := by
  refine Returns.bind returns_cleanTruncStatus fun rs hrs => ?_
  split_ifs with hok
  · exact returns_pure ⟨rs, rfl, hrs⟩
  · cases ids with
    | nil =>
      refine Returns.bind (returns_createNewSegmentFile _) fun o ho => ?_
      obtain ⟨u, rs⟩ := o
      dsimp only
      split_ifs with hok
      · exact returns_pure ⟨rs, rfl, ho⟩
      · exact returns_openCurrentSegment _
    | cons first rest => exact returns_openCurrentSegment _

section
variable {b errno : ℕ} {d e : WalDir} {w : LogCleanWal}

theorem returns_initAfterListing {ids : List ℕ} (h : b = invalidSegmentId ∨ ids ≠ [] ∧ b ≠ ulongMax) (w : LogCleanWal) :
    Returns (initAfterListing w b ids) fun o => EndsWell o.2 := by
  by_cases h0 : b = invalidSegmentId
  · rw [initAfterListing_of_invalid _ _ h0]
    exact returns_initSegments w ids
  · obtain ⟨hne, hmax⟩ := h.resolve_left h0
    unfold initAfterListing
    rw [if_neg h0]
    cases ids with
    | nil => exact absurd rfl hne
    | cons first rest =>
      refine Returns.bind (returns_true _) fun err _ => ?_
      cases err with
      | some e => exact returns_pure (endsWell_error e)
      | none =>
        dsimp only
        rw [if_neg hmax]
        exact returns_initSegments w _

theorem Spares.listed (h : Spares errno d) :
    getUncompletedTruncSegmentsMaxId errno d = invalidSegmentId ∨
      listSegmentsAsc d ≠ [] ∧ getUncompletedTruncSegmentsMaxId errno d ≠ ulongMax := by
  refine h.imp_right fun ⟨hmax, i, _, hi⟩ => ⟨?_, hmax⟩
  exact List.ne_nil_of_mem ((mem_listSegmentsAsc d i).mpr hi)

/-- Where a segment is spared, no failure of a call leads anywhere but to an error. -/
theorem init_endsWell (h : Spares errno d) (w : LogCleanWal) (fs : Faults) :
    EndsWell (init errno w d fs).value.2 := by
  unfold init
  rw [bind_run]
  rcases nextOk_or_fault fs with hok | ⟨f, rest, rfl⟩
  · rw [syscall_nextOk hok]
    dsimp only
    rw [bind_run, peek_run, bind_run]
    dsimp only
    rcases nextOk_or_fault fs.tail with hok' | ⟨f, rest, hfault⟩
    · rw [query_nextOk hok']
      exact returns_initAfterListing h.listed _ d _
    · rw [hfault]
      exact endsWell_error f.errmsg
  · exact endsWell_error f.errmsg

/-! ## The way of `Init` over the disk -/

/-- What `Init` keeps of segment `i`. -/
def keptFile (b : ℕ) (d : WalDir) (i : ℕ) : Option Bytes :=
  if b ≠ invalidSegmentId ∧ i ≤ b then none else d.get (.segment i)

/-- The info file and the flag are as in `d`, and of the segments at most such up to `b` are gone. -/
structure Unlinking (b : ℕ) (d e : WalDir) : Prop where
  info : e.get .truncMeta = d.get .truncMeta
  flag : e.get .truncOk = d.get .truncOk
  segments : ∀ i, e.get (.segment i) = d.get (.segment i) ∨
    (b ≠ invalidSegmentId ∧ i ≤ b) ∧ e.get (.segment i) = none

/-- The number is gone, and what is kept is there. -/
structure Cleaned (b : ℕ) (d e : WalDir) : Prop where
  info : e.get .truncMeta = none
  segments : ∀ i, e.get (.segment i) = keptFile b d i

/-- Nothing was kept, and the first segment is made. -/
structure Fresh (b : ℕ) (d e : WalDir) : Prop where
  info : e.get .truncMeta = none
  unkept : ∀ i, keptFile b d i = none
  segments : ∀ i, e.get (.segment i) ≠ none ↔ i = 1

/-- The disks a crash of `Init` can leave. -/
def InitImage (b : ℕ) (d e : WalDir) : Prop := Unlinking b d e ∨ Cleaned b d e ∨ Fresh b d e

/-- The disks `Init` ends on. -/
def InitDone (b : ℕ) (d e : WalDir) : Prop := ((∃ i, keptFile b d i ≠ none) ∧ Cleaned b d e) ∨ Fresh b d e

theorem unlinking_refl (b : ℕ) (d : WalDir) : Unlinking b d d := ⟨rfl, rfl, fun _ => .inl rfl⟩

theorem Unlinking.keptFile (h : Unlinking b d e) (i : ℕ) : keptFile b e i = keptFile b d i := by
  unfold Wal.keptFile
  split_ifs with hi
  · rfl
  · exact (h.segments i).resolve_right fun hgone => hi hgone.1

theorem safe_unlinkSegments (n i : ℕ) (he : Unlinking b d e)
    (hle : ∀ j, i ≤ j → j < i + n → b ≠ invalidSegmentId ∧ j ≤ b) :
    Safe (unlinkSegments i n) e (Unlinking b d) fun err e' => err = none ∧ Unlinking b d e' ∧
      ∀ j, (i ≤ j → j < i + n → e'.get (.segment j) = none) ∧
        (e.get (.segment j) = none → e'.get (.segment j) = none) := by
  induction n generalizing i e with
  | zero =>
    refine Safe.pure ⟨rfl, he, fun j => ⟨fun h₁ h₂ => ?_, id⟩⟩
    omega
  | succ n ih =>
    refine Safe.bind (Q := fun err e' => err = none ∧ Unlinking b d e' ∧
      ∀ j, e'.get (.segment j) = if j = i then none else e.get (.segment j)) ?_ ?_
    · refine Safe.unlink _ fun e' hget => ?_
      have hseg : ∀ j, e'.get (.segment j) = if j = i then none else e.get (.segment j) := fun j => by
        rw [hget]
        simp
      have hnext : Unlinking b d e' := by
        refine ⟨by rw [hget, if_neg (by simp), he.info], by rw [hget, if_neg (by simp), he.flag], fun j => ?_⟩
        rw [hseg]
        split_ifs with hj
        · exact .inr ⟨hj ▸ hle i le_rfl (by omega), rfl⟩
        · exact he.segments j
      exact ⟨hnext, rfl, hnext, hseg⟩
    · rintro err e' ⟨rfl, he', hseg⟩
      refine (ih (i + 1) he' fun j h₁ h₂ => hle j (by omega) (by omega)).imp (fun _ => id) ?_
      rintro err e'' ⟨herr, he'', hrest⟩
      refine ⟨herr, he'', fun j => ⟨fun h₁ h₂ => ?_, fun hnone => ?_⟩⟩
      · by_cases hj : j = i
        · exact (hrest j).2 (by rw [hseg, if_pos hj])
        · exact (hrest j).1 (by omega) (by omega)
      · refine (hrest j).2 ?_
        rw [hseg, hnone, ite_self]

/-- The two files go, the number first. -/
theorem safe_cleanTruncStatus (e : WalDir) :
    Safe cleanTruncStatus e (fun e' => e'.get .truncMeta = none ∧ ∀ i, e'.get (.segment i) = e.get (.segment i))
      fun rs e' => rs = .ok ∧ e'.get .truncMeta = none ∧ ∀ i, e'.get (.segment i) = e.get (.segment i) := by
  refine Safe.bind (Q := fun err e' => err = none ∧ e'.get .truncMeta = none ∧
    ∀ i, e'.get (.segment i) = e.get (.segment i)) ?_ ?_
  · refine Safe.unlink _ fun e' hget => ?_
    have hnext : e'.get .truncMeta = none ∧ ∀ i, e'.get (.segment i) = e.get (.segment i) :=
      ⟨by rw [hget, if_pos rfl], fun i => by rw [hget, if_neg (by simp)]⟩
    exact ⟨hnext, rfl, hnext⟩
  · rintro err e' ⟨rfl, hinfo, hseg⟩
    refine Safe.bind (Q := fun err e'' => err = none ∧ e''.get .truncMeta = none ∧
      ∀ i, e''.get (.segment i) = e.get (.segment i)) ?_ ?_
    · refine Safe.unlink _ fun e'' hget => ?_
      have hnext : e''.get .truncMeta = none ∧ ∀ i, e''.get (.segment i) = e.get (.segment i) :=
        ⟨by rw [hget, if_neg (by simp), hinfo], fun i => by rw [hget, if_neg (by simp), hseg]⟩
      exact ⟨hnext, rfl, hnext⟩
    · rintro err e'' ⟨rfl, hdone⟩
      exact Safe.pure ⟨rfl, hdone⟩

/-- Opening a segment that is there changes nothing. -/
theorem safe_openCurrentSegment {P : WalDir → Prop} (h : e.get (.segment w.currentSegmentId) ≠ none) :
    Safe (openCurrentSegment w) e P fun _ e' => ∀ f, e'.get f = e.get f := by
  obtain ⟨bs, hbs⟩ := Option.ne_none_iff_exists'.mp h
  have hrun := openCurrentSegment_run bs hbs
  exact ⟨by rw [hrun]; simp, by rw [hrun]; exact fun _ => rfl, by rw [hrun]⟩

theorem safe_createFirst (hfd : w.currentSegFd = none) (hid : w.currentSegmentId = 0)
    (hinfo : e.get .truncMeta = none) (hunkept : ∀ i, keptFile b d i = none) (hnone : ∀ i, e.get (.segment i) = none) :
    Safe (createNewSegmentFile w) e (Fresh b d) fun o e' => o.2 = .ok ∧ o.1.currentSegmentId = 1 ∧ Fresh b d e' := by
  have hone : (w.currentSegmentId + 1) % 2 ^ 64 = 1 := by rw [hid]; norm_num
  unfold createNewSegmentFile
  rw [hfd]
  dsimp only
  unfold openNewSegment
  rw [hone]
  refine Safe.bind (Q := fun err e' => err = none ∧ Fresh b d e' ∧ e'.get (.segment 1) = some []) ?_ ?_
  · refine Safe.openCreate _ fun e' hget => ?_
    have hfile : e'.get (.segment 1) = some [] := by rw [hget, if_pos rfl, hnone, Option.getD_none]
    have hfresh : Fresh b d e' := by
      refine ⟨by rw [hget, if_neg (by simp), hinfo], hunkept, fun i => ?_⟩
      rw [hget]
      by_cases hi : i = 1
      · simp [hi]
      · simp [hi, hnone]
    exact ⟨hfresh, rfl, hfresh, hfile⟩
  · rintro err e' ⟨rfl, hfresh, hfile⟩
    refine Safe.bind (Q := fun o e'' => o.2 = none ∧ Fresh b d e'') ?_ ?_
    · refine Safe.append _ _ hfile fun e'' hget => ?_
      have hfresh' : Fresh b d e'' := by
        refine ⟨by rw [hget, if_neg (by simp), hfresh.info], hunkept, fun i => ?_⟩
        rw [hget]
        by_cases hi : i = 1
        · simp [hi]
        · rw [if_neg (by simpa using hi)]
          exact hfresh.segments i
      exact ⟨hfresh', rfl, hfresh'⟩
    · rintro ⟨fd, err⟩ e'' ⟨herr, hfresh'⟩
      dsimp only at herr
      subst herr
      exact Safe.pure ⟨rfl, rfl, hfresh'⟩

theorem safe_initSegments (hseg : ∀ i, e.get (.segment i) = keptFile b d i) (hfd : w.currentSegFd = none) :
    Safe (initSegments w (listSegmentsAsc e)) e (InitImage b d) fun _ => InitDone b d := by
  refine Safe.bind ((safe_cleanTruncStatus e).imp
    (fun e' h => .inr (.inl ⟨h.1, fun i => (h.2 i).trans (hseg i)⟩)) fun _ _ => id) ?_
  rintro rs e' ⟨rfl, hinfo, hsame⟩
  have hclean : Cleaned b d e' := ⟨hinfo, fun i => (hsame i).trans (hseg i)⟩
  rw [if_neg (by simp [WalResult.ok])]
  cases hlist : listSegmentsAsc e with
  | nil =>
    have hnone : ∀ i, e.get (.segment i) = none := fun i => by
      by_contra hi
      have hmem := (mem_listSegmentsAsc e i).mpr hi
      rw [hlist] at hmem
      cases hmem
    have hunkept : ∀ i, keptFile b d i = none := fun i => (hseg i).symm.trans (hnone i)
    have hmade := safe_createFirst (w := { w with minSegmentId := 1, currentSegmentId := invalidEntryId })
      hfd rfl hinfo hunkept fun i => (hsame i).trans (hnone i)
    refine Safe.bind (hmade.imp (fun _ h => .inr (.inr h)) fun _ _ => id) ?_
    rintro ⟨u, rs⟩ e'' ⟨hrs, hcur, hfresh⟩
    dsimp only at hrs hcur ⊢
    rw [hrs, if_neg (by simp [WalResult.ok])]
    refine (safe_openCurrentSegment ?_).imp (fun _ => id) fun _ x hx => .inr ?_
    · dsimp only
      rw [hcur]
      exact (hfresh.segments 1).mpr rfl
    · exact ⟨by rw [hx, hfresh.info], hunkept, fun i => by rw [hx]; exact hfresh.segments i⟩
  | cons first rest =>
    have hhere : ∀ i ∈ first :: rest, e.get (.segment i) ≠ none := fun i hi =>
      (mem_listSegmentsAsc e i).mp (hlist ▸ hi)
    refine (safe_openCurrentSegment ?_).imp (fun _ => id) fun _ x hx => .inl ⟨⟨first, ?_⟩, ?_, fun i => ?_⟩
    · dsimp only
      rw [hsame]
      exact hhere _ (List.getLast_mem _)
    · rw [← hseg]
      exact hhere first List.mem_cons_self
    · rw [hx, hinfo]
    · rw [hx]
      exact hclean.segments i

/-- The segments left by the removal loop are those that are kept. -/
theorem kept_of_unlinked {first : ℕ} {rest : List ℕ} (hlist : listSegmentsAsc d = first :: rest)
    (hb : b ≠ invalidSegmentId) (he : Unlinking b d e)
    (hgone : ∀ j, (first ≤ j → j < first + (b + 1 - first) → e.get (.segment j) = none) ∧
      (d.get (.segment j) = none → e.get (.segment j) = none)) (i : ℕ) :
    e.get (.segment i) = keptFile b d i := by
  unfold keptFile
  by_cases hi : i ≤ b
  · rw [if_pos ⟨hb, hi⟩]
    by_cases hfirst : first ≤ i
    · exact (hgone i).1 hfirst (by omega)
    · refine (hgone i).2 ?_
      by_contra hhere
      -- the list is ascending, so nothing lies before its first element
      have hsorted := (sortedLT_listSegmentsAsc d).pairwise
      have hmem := (mem_listSegmentsAsc d i).mpr hhere
      rw [hlist] at hsorted hmem
      rcases List.mem_cons.mp hmem with rfl | hmem
      · exact hfirst le_rfl
      · exact hfirst ((List.pairwise_cons.mp hsorted).1 i hmem).le
  · rw [if_neg fun h => hi h.2]
    exact (he.segments i).resolve_right fun h => hi h.1.2

theorem listSegmentsAsc_kept (hb : b ≠ invalidSegmentId) (hseg : ∀ i, e.get (.segment i) = keptFile b d i) :
    listSegmentsAsc e = (listSegmentsAsc d).filter fun s => b < s := by
  refine listSegmentsAsc_of_mem ((sortedLT_listSegmentsAsc d).pairwise.filter _).sortedLT fun i => ?_
  rw [List.mem_filter, mem_listSegmentsAsc, hseg, keptFile, decide_eq_true_eq]
  by_cases hi : i ≤ b
  · simp [hb, hi]
  · simp [hi, Nat.lt_of_not_le hi]

theorem safe_init (h : Spares errno d) (conf : LogCleanWalConfig) :
    Safe (init errno (create conf)) d (InitImage (getUncompletedTruncSegmentsMaxId errno d) d)
      fun _ => InitDone (getUncompletedTruncSegmentsMaxId errno d) d := by
  have hrun := init_run errno (create conf) d
  have hlisted := h.listed
  generalize getUncompletedTruncSegmentsMaxId errno d = b at hrun hlisted
  suffices hsafe : Safe (initAfterListing { create conf with bInited := true } b (listSegmentsAsc d)) d
      (InitImage b d) fun _ => InitDone b d from
    ⟨by rw [hrun]; exact hsafe.images, by rw [hrun]; exact hsafe.post, by rw [hrun]; exact hsafe.faults⟩
  by_cases hb : b = invalidSegmentId
  · rw [initAfterListing_of_invalid _ _ hb]
    refine safe_initSegments (fun i => ?_) rfl
    rw [keptFile, if_neg fun hh => hh.1 hb]
  · obtain ⟨hne, hmax⟩ := hlisted.resolve_left hb
    obtain ⟨first, rest, hlist⟩ := List.exists_cons_of_ne_nil hne
    rw [hlist]
    unfold initAfterListing
    rw [if_neg hb]
    refine Safe.bind ((safe_unlinkSegments (b + 1 - first) first (unlinking_refl b d)
      fun j _ hj => ⟨hb, by omega⟩).imp (fun _ => .inl) fun _ _ => id) ?_
    rintro err e ⟨rfl, he, hgone⟩
    have hseg := kept_of_unlinked hlist hb he hgone
    dsimp only
    rw [if_neg hmax, ← hlist, ← listSegmentsAsc_kept hb hseg]
    exact safe_initSegments hseg rfl

/-! ## The next `Init` -/

/-- A number other than zero and the largest one is read whatever `errno` holds. -/
theorem bound_of_errno (errno' : ℕ) (h : getUncompletedTruncSegmentsMaxId errno d = b) (h0 : b ≠ invalidSegmentId)
    (hmax : b ≠ ulongMax) : getUncompletedTruncSegmentsMaxId errno' d = b := by
  unfold getUncompletedTruncSegmentsMaxId at h ⊢
  by_cases hflag : d.exist .truncOk = true
  · rw [if_pos hflag] at h
    exact absurd h.symm h0
  · rw [if_neg hflag] at h ⊢
    cases hinfo : d.get .truncMeta with
    | none =>
      rw [hinfo] at h
      exact absurd h.symm h0
    | some text =>
      rw [hinfo] at h
      dsimp only at h ⊢
      by_cases hempty : text = []
      · rw [if_pos hempty] at h
        exact absurd h.symm h0
      · rw [if_neg hempty] at h ⊢
        unfold toUint46 at h ⊢
        unfold invalidSegmentId at h h0
        generalize strtoul (text.takeWhile (· ≠ 0)) = c at h ⊢
        dsimp only at h ⊢
        split_ifs at h <;> simp_all

theorem same_bound (hd : ∀ errno, Spares errno d) (errno errno' : ℕ) :
    getUncompletedTruncSegmentsMaxId errno' d = getUncompletedTruncSegmentsMaxId errno d := by
  by_cases h0 : getUncompletedTruncSegmentsMaxId errno d = invalidSegmentId
  · by_contra hne
    rw [h0] at hne
    have hmax := ((hd errno').resolve_left hne).1
    exact hne ((bound_of_errno errno rfl hne hmax).symm.trans h0)
  · exact bound_of_errno errno' rfl h0 ((hd errno).resolve_left h0).1

theorem InitDone.listed (h : InitDone b d e) (i : ℕ) :
    i ∈ listSegmentsAsc e ↔ keptFile b d i ≠ none ∨ (∀ j, keptFile b d j = none) ∧ i = 1 := by
  rw [mem_listSegmentsAsc]
  rcases h with ⟨⟨j, hj⟩, hclean⟩ | hfresh
  · rw [hclean.segments]
    exact ⟨.inl, fun h => h.resolve_right fun hnone => hj (hnone.1 j)⟩
  · rw [hfresh.segments]
    exact ⟨fun h => .inr ⟨hfresh.unkept, h⟩, fun h => (h.resolve_left fun hk => hk (hfresh.unkept i)).2⟩

theorem Spares.kept (h : Spares errno d) (hnone : ∀ i, keptFile (getUncompletedTruncSegmentsMaxId errno d) d i = none)
    (i : ℕ) : d.get (.segment i) = none := by
  rcases h with hb | ⟨-, j, hj, hhere⟩
  · have hi := hnone i
    rwa [keptFile, if_neg fun hh => hh.1 hb] at hi
  · have hkept := hnone j
    rw [keptFile, if_neg fun hh => absurd hh.2 (by omega)] at hkept
    exact absurd hkept hhere

/-- Segment `i` is there when `Init` is done. -/
def Stays (errno : ℕ) (d : WalDir) (i : ℕ) : Prop :=
  keptFile (getUncompletedTruncSegmentsMaxId errno d) d i ≠ none ∨
    (∀ j, keptFile (getUncompletedTruncSegmentsMaxId errno d) d j = none) ∧ i = 1

theorem keptFile_invalid (d : WalDir) (i : ℕ) : keptFile invalidSegmentId d i = d.get (.segment i) :=
  if_neg fun h => h.1 rfl

/-- From every image the next `Init` finds a segment it spares, and keeps the same. -/
theorem InitImage.next (hd : ∀ errno, Spares errno d) (he : InitImage (getUncompletedTruncSegmentsMaxId errno d) d e)
    (errno' : ℕ) :
    Spares errno' e ∧ (∀ i, Stays errno' e i ↔ Stays errno d i) ∧
      ((∃ i, d.get (.segment i) ≠ none) → ∀ i, keptFile (getUncompletedTruncSegmentsMaxId errno' e) e i =
        keptFile (getUncompletedTruncSegmentsMaxId errno d) d i) := by
  rcases he with hu | hc | hf
  · have hbound : getUncompletedTruncSegmentsMaxId errno' e = getUncompletedTruncSegmentsMaxId errno d :=
      (bound_congr errno' hu.info hu.flag).trans (same_bound hd errno errno')
    have hkept : ∀ i, keptFile (getUncompletedTruncSegmentsMaxId errno' e) e i =
        keptFile (getUncompletedTruncSegmentsMaxId errno d) d i := fun i => by
      rw [hbound]
      exact hu.keptFile i
    refine ⟨?_, fun i => by simp only [Stays, hkept], fun _ => hkept⟩
    rw [Spares, hbound]
    refine (hd errno).imp_right fun ⟨hmax, i, hlt, hhere⟩ => ⟨hmax, i, hlt, ?_⟩
    rw [(hu.segments i).resolve_right fun hgone => absurd hgone.1.2 (by omega)]
    exact hhere
  · have hbound : getUncompletedTruncSegmentsMaxId errno' e = invalidSegmentId := bound_of_no_info errno' hc.info
    have hkept : ∀ i, keptFile (getUncompletedTruncSegmentsMaxId errno' e) e i =
        keptFile (getUncompletedTruncSegmentsMaxId errno d) d i := fun i => by
      rw [hbound, keptFile_invalid, hc.segments]
    exact ⟨.inl hbound, fun i => by simp only [Stays, hkept], fun _ => hkept⟩
  · have hbound : getUncompletedTruncSegmentsMaxId errno' e = invalidSegmentId := bound_of_no_info errno' hf.info
    refine ⟨.inl hbound, fun i => ?_, fun ⟨i, hi⟩ => absurd ((hd errno).kept hf.unkept i) hi⟩
    simp only [Stays, hbound, keptFile_invalid, hf.segments, hf.unkept, ne_eq, not_true_eq_false, false_or,
      implies_true, true_and]
    exact ⟨fun h => h.elim id And.right, .inl⟩

theorem mem_listed_init (h : Spares errno d) (conf : LogCleanWalConfig) (i : ℕ) :
    i ∈ listSegmentsAsc (init errno (create conf) d []).disk ↔ Stays errno d i :=
  (safe_init h conf).post.listed i

/-- A segment of `d` is at the end what is kept of it. -/
theorem get_init (h : Spares errno d) (conf : LogCleanWalConfig)
    (hkept : ∃ i, keptFile (getUncompletedTruncSegmentsMaxId errno d) d i ≠ none) (i : ℕ) :
    (init errno (create conf) d []).disk.get (.segment i) =
      keptFile (getUncompletedTruncSegmentsMaxId errno d) d i := by
  rcases (safe_init h conf).post with ⟨-, hclean⟩ | hfresh
  · exact hclean.segments i
  · obtain ⟨j, hj⟩ := hkept
    exact absurd (hfresh.unkept j) hj

/-! ## Where it goes wrong -/

theorem recorded_unlinkSegments (n i : ℕ) (d : WalDir) : Recorded (unlinkSegments i n) d := by
  induction n generalizing i d with
  | zero => rfl
  | succ n ih =>
    have hrest := ih (i + 1) (unlink (WalFile.segment i) d []).disk
    obtain ⟨hv, hf, -⟩ := unlink_get (WalFile.segment i) d
    unfold Recorded at hrest ⊢
    simp only [unlinkSegments, bind_run, hv, hf]
    rw [← hrest, List.getLast?_append]
    cases (unlinkSegments (i + 1) n (unlink (WalFile.segment i) d []).disk []).images.getLast? with
    | some e => rfl
    | none =>
      rw [unlink_run]
      split_ifs
      · rfl
      · rfl

/-- A number and no segment. -/
theorem init_outOfBounds (hb : getUncompletedTruncSegmentsMaxId errno d ≠ invalidSegmentId)
    (hnone : ∀ i, d.get (.segment i) = none) (w : LogCleanWal) :
    (init errno w d []).value.2 = .crashed .outOfBounds := by
  obtain ⟨hv, -, -, -⟩ := cleanTruncStatus_spec d
  rw [init_run, listSegmentsAsc_of_none hnone]
  simp only [initAfterListing, if_neg hb, bind_run, hv, WalResult.ok, ne_eq, not_true_eq_false, if_false]
  rfl

theorem init_diverges (hb : getUncompletedTruncSegmentsMaxId errno d = ulongMax) {i : ℕ}
    (hi : d.get (.segment i) ≠ none) (w : LogCleanWal) : (init errno w d []).value.2 = .crashed .diverges := by
  obtain ⟨first, rest, hlist⟩ := List.exists_cons_of_ne_nil
    (List.ne_nil_of_mem ((mem_listSegmentsAsc d i).mpr hi))
  obtain ⟨hv, -, -⟩ := unlinkSegments_spec (ulongMax + 1 - first) first d
  rw [init_run, hlist, hb]
  have h0 : ulongMax ≠ invalidSegmentId := by decide
  simp only [initAfterListing, if_neg h0, bind_run, hv, if_true]
  rfl

/-- What `Init` does first with a number and a first segment is the removal. -/
theorem init_removes {first : ℕ} {rest : List ℕ} (hbound : getUncompletedTruncSegmentsMaxId errno d = b)
    (hb : b ≠ invalidSegmentId) (hlist : listSegmentsAsc d = first :: rest) (w : LogCleanWal) :
    ∃ k, init errno w d [] = (unlinkSegments first (b + 1 - first) >>= k) d [] := by
  rw [init_run, hlist, hbound]
  unfold initAfterListing
  rw [if_neg hb]
  exact ⟨_, rfl⟩

/-- Behind the removal of the last segment a crash leaves a number and no segment. -/
theorem init_image_bare (hb : getUncompletedTruncSegmentsMaxId errno d ≠ invalidSegmentId) {i : ℕ}
    (hi : d.get (.segment i) ≠ none)
    (hall : ∀ i, getUncompletedTruncSegmentsMaxId errno d < i → d.get (.segment i) = none) (w : LogCleanWal) :
    ∃ p, (∀ j, (crashAt (init errno w) d p).get (.segment j) = none) ∧
      getUncompletedTruncSegmentsMaxId errno (crashAt (init errno w) d p) =
        getUncompletedTruncSegmentsMaxId errno d := by
  obtain ⟨first, rest, hlist⟩ := List.exists_cons_of_ne_nil
    (List.ne_nil_of_mem ((mem_listSegmentsAsc d i).mpr hi))
  generalize hbound : getUncompletedTruncSegmentsMaxId errno d = b at hb hall
  obtain ⟨-, -, hget⟩ := unlinkSegments_spec (b + 1 - first) first d
  have hsafe := safe_unlinkSegments (b + 1 - first) first (unlinking_refl b d) fun j _ hj => ⟨hb, by omega⟩
  obtain ⟨-, he, hgone⟩ := hsafe.post
  obtain ⟨k, hk⟩ := init_removes hbound hb hlist w
  have hcrash : crashAt (init errno w) d (unlinkSegments first (b + 1 - first) d []).images.length =
      (unlinkSegments first (b + 1 - first) d []).disk := by
    rw [← crashAt_bind (recorded_unlinkSegments _ _ d) k]
    unfold crashAt
    rw [hk]
  refine ⟨(unlinkSegments first (b + 1 - first) d []).images.length, fun j => ?_, ?_⟩
  · rw [hcrash, kept_of_unlinked hlist hb he hgone j, keptFile]
    split_ifs with hj
    · rfl
    · exact hall j (by omega)
  · rw [hcrash]
    exact (bound_congr errno he.info he.flag).trans hbound

/-! ## The whole -/

/-- `Init` ends well whatever fails; so does the next one behind a crash, which keeps the same
segments with the same bytes. -/
structure InitTotal (d : WalDir) : Prop where
  ends : ∀ errno conf fs, EndsWell (init errno (create conf) d fs).value.2
  again : ∀ errno conf p errno' conf' fs,
    EndsWell (init errno' (create conf') (crashAt (init errno (create conf)) d p) fs).value.2
  listed : ∀ errno conf p errno' conf',
    listSegmentsAsc (init errno' (create conf') (crashAt (init errno (create conf)) d p) []).disk =
      listSegmentsAsc (init errno (create conf) d []).disk
  bytes : ∀ errno conf p errno' conf' i, d.get (.segment i) ≠ none →
    (init errno' (create conf') (crashAt (init errno (create conf)) d p) []).disk.get (.segment i) =
      (init errno (create conf) d []).disk.get (.segment i)

theorem not_endsWell (why : Stop) : ¬EndsWell (.crashed why) := by
  rintro ⟨rs, h, -⟩
  cases h

theorem spares_of_initTotal (h : InitTotal d) (conf : LogCleanWalConfig) (errno : ℕ) : Spares errno d := by
  by_contra hno
  rw [Spares, not_or, not_and, not_exists] at hno
  obtain ⟨hb, hall⟩ := hno
  by_cases hnone : ∀ i, d.get (.segment i) = none
  · have hends := h.ends errno conf []
    rw [init_outOfBounds hb hnone] at hends
    exact not_endsWell _ hends
  · obtain ⟨i, hi⟩ := not_forall.mp hnone
    by_cases hmax : getUncompletedTruncSegmentsMaxId errno d = ulongMax
    · have hends := h.ends errno conf []
      rw [init_diverges hmax hi] at hends
      exact not_endsWell _ hends
    · have hgone : ∀ j, getUncompletedTruncSegmentsMaxId errno d < j → d.get (.segment j) = none := fun j hj => by
        by_contra hhere
        exact hall hmax j ⟨hj, hhere⟩
      obtain ⟨p, hbare, hbound⟩ := init_image_bare hb hi hgone (create conf)
      have hends := h.again errno conf p errno conf []
      rw [init_outOfBounds (hbound ▸ hb) hbare] at hends
      exact not_endsWell _ hends

theorem initTotal_of_spares (hd : ∀ errno, Spares errno d) : InitTotal d := by
  have himage : ∀ errno conf p, InitImage (getUncompletedTruncSegmentsMaxId errno d) d
      (crashAt (init errno (create conf)) d p) := by
    intro errno conf p
    refine (safe_init (hd errno) conf).crashAt (.inl (unlinking_refl _ d)) (fun _ e he => ?_) p
    rcases he with ⟨-, hclean⟩ | hfresh
    · exact .inr (.inl hclean)
    · exact .inr (.inr hfresh)
  refine ⟨fun errno conf fs => init_endsWell (hd errno) _ fs, fun errno conf p errno' conf' fs => ?_,
    fun errno conf p errno' conf' => ?_, fun errno conf p errno' conf' i hi => ?_⟩
  · exact init_endsWell ((himage errno conf p).next hd errno').1 _ fs
  · obtain ⟨hspares, hstays, -⟩ := (himage errno conf p).next hd errno'
    refine (sortedLT_listSegmentsAsc _).eq_of_mem_iff (sortedLT_listSegmentsAsc _) fun i => ?_
    rw [mem_listed_init hspares, mem_listed_init (hd errno)]
    exact hstays i
  · obtain ⟨hspares, -, hkept⟩ := (himage errno conf p).next hd errno'
    have hhere : ∃ j, keptFile (getUncompletedTruncSegmentsMaxId errno d) d j ≠ none := by
      by_contra hnone
      rw [not_exists] at hnone
      exact hi ((hd errno).kept (fun j => not_not.mp (hnone j)) i)
    rw [get_init (hd errno) conf hhere, get_init hspares conf' (by simpa only [hkept ⟨i, hi⟩] using hhere),
      hkept ⟨i, hi⟩]

/-- `Init` is total behind every crash just when it always spares a segment. -/
theorem init_total_iff (d : WalDir) : InitTotal d ↔ ∀ errno, Spares errno d :=
  ⟨fun h errno => spares_of_initTotal h smallConf errno, initTotal_of_spares⟩

/-- The entry 2 lies in segment 1. A crash behind the info file of `Truncate(2)` leaves the number 2,
`Init` removes segment 1, and behind a crash right there the next `Init` reads the first of no
segments. -/
theorem init_reads_empty_list :
    (walHistory acceptAll 0 smallConf [.append (some [7])]).map (fun o =>
      let image := crashAt (truncate o.1.wal 2) o.1.dir 2
      ((init 0 (create smallConf) image []).value.2,
        listSegmentsAsc (crashAt (init 0 (create smallConf)) image 1),
        (init 0 (create smallConf) (crashAt (init 0 (create smallConf)) image 1) []).value.2)) =
      some (.returned .ok, [], .crashed .outOfBounds) := by
  decide +kernel

end

end FlyingKV.Wal
