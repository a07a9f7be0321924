import FlyingKV.CheckpointFailure

set_option autoImplicit false

/-!
# Saving and loading a checkpoint

A child that ran to its end has left a complete checkpoint, whatever was in the
directory before. `Load` gives it back unless a read asks for too large a block.
-/
namespace FlyingKV.Checkpoint
open ByteOrder DecimalText FileDir DiskProgram FileUtils FramedStream CrashTriple

/-- A checkpoint of entries that were all encoded. -/
def traveller (maxId : ℕ) (entries : List Bytes) : Traveller := ⟨maxId, entries.map some⟩

theorem encoded_traveller (maxId : ℕ) (entries : List Bytes) :
    encoded (traveller maxId entries).entries = entries := by
  unfold traveller
  induction entries with
  | nil => rfl
  | cons c rest ih => simpa [encoded] using ih

/-- At each read, the batch and the part of a record carried over to it stay a page below the
32-bit limit; the records lie in `frames` without gaps. -/
def ReadsFit (batch : ℕ) (frames : List Frame) : Prop :=
  ∀ j, j * batch ≤ streamSize frames → batch + leftoverAt (j * batch) frames ≤ 2 ^ 32 - 4096

theorem fits_iff_readsFit {batch : ℕ} (hb : 0 < batch) (frames : List Frame) :
    Fits MemPool.slotSize batch 0 frames ↔ ReadsFit batch frames := by
  unfold Fits ReadsFit
  simp only [Nat.zero_add, MemPool.allocFits_iff hb]

section
variable {judge : Judge} {conf : EntryOrderCheckpointConfig} {d : CpDir} {p : Snapshot}
  {errno : ℕ} {version : UInt8} {t : Traveller}

theorem not_isCompleted_of_lock (h : d.get .lock ≠ none) : isCompleted d = false := by
  simp [isCompleted, (exist_iff d _).mpr h]

variable (version) in
/-- Whatever checkpoint is visible before. -/
theorem saveInChild_visible (hv : visible d ≠ none) (hlen : ∀ c ∈ encoded t.entries, c.length < 2 ^ 32)
    (hpos : 0 < t.maxId) :
    Safe (saveInChild version t) d (fun _ => True) (fun _ e => e.get .lock = d.get .lock ∨
      Settled e (t.snapshot version)) :=
  (saveInChild_safe (R := fun _ => True) (fun _ _ _ _ => trivial) (fun _ h => h) t
    (fun _ _ => trivial) ((checkAndRecover_safe hv).imp (fun _ h => h) fun _ _ h => ⟨h, trivial⟩)
    hlen hpos).imp (fun _ h => h) fun _ _ h => h.imp And.right And.left

/-- The lock file is there as long as the child has not come to its end. -/
theorem doSaveInChild_completed {entryId : ℕ} (hmeta : loadMeta errno d = .ok entryId)
    (hid : entryId < t.maxId) (hlen : ∀ c ∈ encoded t.entries, c.length < 2 ^ 32)
    (hdone : isCompleted (doSaveInChild errno version t d []).disk = true) :
    Settled (doSaveInChild errno version t d []).disk (t.snapshot version) := by
  obtain ⟨-, ⟨hrs, hsame, hlocked⟩, hfaults⟩ := lock_safe
    (P := fun e => ∀ n, n ≠ CpFile.lock → e.get n = d.get n)
    (fun _ _ he h n hn => (he n (by simpa using hn)).trans (h n hn)) fun _ _ => rfl
  have hmeta' : loadMeta errno (allOf [openCreate .lock, syscall] d []).disk = .ok entryId := by
    rw [← hmeta, loadMeta, loadMeta, hsame _ (by decide)]
  have hrun : (doSaveInChild errno version t d []).disk =
      (saveInChild version t (allOf [openCreate .lock, syscall] d []).disk []).disk := by
    simp only [doSaveInChild, bind_run, hrs, hfaults, CheckpointResult.ok, ne_eq, not_true_eq_false,
      if_false, peek_run, hmeta', if_neg (not_le.mpr hid)]
  rw [hrun] at hdone ⊢
  generalize (allOf [openCreate .lock, syscall] d []).disk = e at hdone hlocked ⊢
  have hnot {e' : CpDir} (h : e'.get .lock = e.get .lock) : isCompleted e' = false :=
    not_isCompleted_of_lock (h ▸ hlocked)
  by_cases hv : visible e = none
  · have hrc : (checkAndRecover e []).value.rc ≠ .OK := by
      intro hrc
      cases hv.symm.trans (checkAndRecover_always [] hrc).2
    have hstop : (saveInChild version t e []).disk = (checkAndRecover e []).disk := by
      simp only [saveInChild, bind_run, if_pos hrc, pure_run]
    rw [hstop, hnot (leaves_checkAndRecover e [])] at hdone
    cases hdone
  · rcases (saveInChild_visible version hv hlen (by omega)).post with h | h
    · rw [hnot h] at hdone
      cases hdone
    · exact h

/-! ## Load -/

/-- What `Load` makes of a snapshot that it can decode: all of it, or a refused block. -/
theorem initLoad_settled_iff (hs : Settled d p) (hpos : 0 < p.id) (hid : p.id < ulongMax)
    (hb : 0 < conf.batchReadSize) (haccepted : ∀ c ∈ p.entries, judge c = .accepted)
    (hsmall : ∀ c ∈ p.entries, c.length + entryExtraFieldsSize < 2 ^ 32) :
    (initLoad judge errno conf d []).value = some p.pair ↔ ReadsFit conf.batchReadSize p.frames := by
  rw [← fits_iff_readsFit hb]
  constructor
  · intro hload
    by_contra hfits
    have hvisible : visible d = some (d.get .cpMeta, d.get .cp) := visible_of_flag hs.flag
    obtain ⟨e, he, hvalue⟩ := initLoad_value judge conf errno hvisible
    obtain ⟨hm, hc⟩ := Prod.mk.inj he
    rcases hs.holds with ⟨h0, -, -⟩ | ⟨-, hat⟩
    · omega
    rw [hvalue, load_files ⟨hm.trans hat.1, hc.trans hat.2⟩ hpos hid errno _ rfl] at hload
    rcases loadContent_snapshot (sound_frames haccepted hsmall)
      { create conf with bInited := true } hb e with ⟨hf, -⟩ | ⟨-, hcrash⟩
    · exact hfits hf
    · rw [CheckpointLoad.loaded, hcrash] at hload
      cases hload
  · intro hfits
    exact initLoad_recoverable (.inl hs) ⟨hid, haccepted, hsmall, fun _ => hb, fun _ => hfits⟩ errno

/-- A checkpoint whose child ran to its end is loaded back exactly if and only if each read fits. -/
theorem save_load_roundTrip_iff {m : ℕ} {entries : List Bytes}
    (hlen : ∀ c ∈ entries, c.length < 2 ^ 31) (haccepted : ∀ c ∈ entries, judge c = .accepted)
    (hb : 1 ≤ conf.batchReadSize)
    {entryId : ℕ} (hmeta : loadMeta errno d = .ok entryId) (hm : entryId < m) (hm' : m < 2 ^ 64 - 1)
    (hdone : isCompleted (doSaveInChild errno version (traveller m entries) d []).disk = true)
    (errnoLoad : ℕ) :
    (initLoad judge errnoLoad conf
        (doSaveInChild errno version (traveller m entries) d []).disk []).value = some (m, entries) ↔
      ReadsFit conf.batchReadSize (entries.map (Frame.mk [version])) := by
  have hlen32 : ∀ c ∈ encoded (traveller m entries).entries, c.length < 2 ^ 32 := fun c hc => by
    rw [encoded_traveller] at hc
    have := hlen c hc
    omega
  have hsettled := doSaveInChild_completed hmeta hm hlen32 hdone
  have hsnapshot : (traveller m entries).snapshot version = ⟨m, version, entries⟩ := by
    rw [Traveller.snapshot, encoded_traveller]
    rfl
  rw [hsnapshot] at hsettled
  refine initLoad_settled_iff hsettled (by simp only; omega) hm' hb haccepted fun c hc => ?_
  have := hlen c hc
  simp only [entryExtraFieldsSize]
  omega

end

theorem save_load_roundTrip_small :
    (initLoad acceptAll 0 smallCpConf
        (doSaveInChild 0 1 (traveller 3 [[7], [8, 9]]) Dir.empty []).disk []).value =
      some (3, [[7], [8, 9]]) := by
  refine (save_load_roundTrip_iff (by decide) (by simp) (by decide) rfl (by decide) (by decide)
    (by decide +kernel) 0).mpr ((fits_iff_readsFit (by decide) _).mp ?_)
  refine fits_of_size_le 11 (by decide) fun k hk => ?_
  rw [MemPool.allocFits_iff (by decide)]
  simp only [smallCpConf]
  omega

/-- Less than a page below the limit; the block for the first read is refused. -/
theorem load_of_huge_batch_checkpoint :
    (doSaveInParent 0 (doSaveInChild 0 1 (traveller 3 [[7]]) Dir.empty []).disk []).value =
        ⟨.OK, "", 3⟩ ∧
      (initLoad acceptAll 0 ⟨1, 2 ^ 32 - 4095, by decide⟩
        (doSaveInChild 0 1 (traveller 3 [[7]]) Dir.empty []).disk []).value = none := by
  decide +kernel

end FlyingKV.Checkpoint
