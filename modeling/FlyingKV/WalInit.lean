import FlyingKV.WalLog

set_option autoImplicit false

/-!
# `Init`

`Init` removes the segments up to the number found in the truncate-info file and
opens the last segment left, or a first one when none is left.
-/
namespace FlyingKV.Wal
open ByteOrder DecimalText FileDir DiskProgram FileUtils FramedStream

/-- Neither of the two truncation files is there. -/
def Settled (d : WalDir) : Prop := d.get .truncMeta = none ∧ d.get .truncOk = none

def inRange (a b : ℕ) : WalFile → Bool
  | .segment i => a ≤ i && i < b
  | _ => false

/-! ## Helpers of `Init` -/

theorem unlink_get {N : Type} [DecidableEq N] (n : N) (d : Dir N) :
    (unlink n d []).value = none ∧ (unlink n d []).faults = [] ∧
      ∀ m, (unlink n d []).disk.get m = if m = n then none else d.get m := by
  rw [unlink_run]
  split_ifs with h
  · exact ⟨rfl, rfl, fun m => d.get_unlink n m⟩
  · exact ⟨rfl, rfl, get_missing h⟩

theorem cleanTruncStatus_spec (d : WalDir) :
    (cleanTruncStatus d []).value = .ok ∧ (cleanTruncStatus d []).faults = [] ∧
      Settled (cleanTruncStatus d []).disk ∧
      ∀ i, (cleanTruncStatus d []).disk.get (.segment i) = d.get (.segment i) := by
  obtain ⟨hv, hf, hd⟩ := unlink_get WalFile.truncMeta d
  obtain ⟨hv', hf', hd'⟩ := unlink_get WalFile.truncOk (unlink WalFile.truncMeta d []).disk
  simp only [cleanTruncStatus, bind_run, hv, hf, hv', hf', pure_run]
  refine ⟨trivial, trivial, ⟨?_, ?_⟩, fun i => ?_⟩
  · rw [hd', hd]
    simp
  · rw [hd']
    simp
  · rw [hd', hd]
    simp

theorem inRange_zero (i : ℕ) (f : WalFile) : inRange i (i + 0) f = false := by
  cases f <;> simp [inRange]

/-- The files of a range, the first of them apart. -/
theorem ite_inRange_succ {α : Type} (i n : ℕ) (f : WalFile) (x y : α) :
    (if inRange (i + 1) (i + 1 + n) f then x else if f = .segment i then x else y) =
      if inRange i (i + (n + 1)) f then x else y := by
  cases f with
  | segment j =>
    simp only [inRange, WalFile.segment.injEq, Bool.and_eq_true, decide_eq_true_eq]
    split_ifs <;> first | rfl | omega
  | truncMeta => simp [inRange]
  | truncOk => simp [inRange]

theorem unlinkSegments_spec (n i : ℕ) (d : WalDir) :
    (unlinkSegments i n d []).value = none ∧ (unlinkSegments i n d []).faults = [] ∧
      ∀ f, (unlinkSegments i n d []).disk.get f = if inRange i (i + n) f then none else d.get f := by
  induction n generalizing i d with
  | zero => exact ⟨rfl, rfl, fun f => by rw [inRange_zero]; rfl⟩
  | succ n ih =>
    obtain ⟨hv, hf, hd⟩ := unlink_get (WalFile.segment i) d
    obtain ⟨hv', hf', hd'⟩ := ih (i + 1) (unlink (WalFile.segment i) d []).disk
    simp only [unlinkSegments, bind_run, hv, hf, hv', hf']
    exact ⟨trivial, trivial, fun f => by rw [hd', hd, ite_inRange_succ]⟩

theorem createNewSegmentFile_spec (w : LogCleanWal) (d : WalDir) (id : ℕ)
    (hid : (w.currentSegmentId + 1) % 2 ^ 64 = id) (hnone : d.get (.segment id) = none) :
    (createNewSegmentFile w d []).value =
        ({ w with
          currentSegmentId := id
          currentSegFd := some ⟨.segment id, magicNoLen⟩
          curSegFileSize := magicNoLen }, .ok) ∧
      (createNewSegmentFile w d []).faults = [] ∧
      ∀ f, (createNewSegmentFile w d []).disk.get f =
        if f = .segment id then some (segmentBytes []) else d.get f := by
  have hopen : openCreate (WalFile.segment id) d [] =
      ⟨[d.put (.segment id) []], d.put (.segment id) [], [], none⟩ := by
    rw [openCreate_run, if_neg (by simp [Dir.exist, hnone])]
  have hnew : (openNewSegment w d []).value =
        ({ w with
          currentSegmentId := id
          currentSegFd := some ⟨.segment id, magicNoLen⟩
          curSegFileSize := magicNoLen }, .ok) ∧
      (openNewSegment w d []).faults = [] ∧
      ∀ f, (openNewSegment w d []).disk.get f =
        if f = .segment id then some (segmentBytes []) else d.get f := by
    simp only [openNewSegment, hid, bind_run, hopen, writeFully_run, pure_run, length_writeBE]
    refine ⟨rfl, trivial, fun f => ?_⟩
    simp only [writeDir, Dir.get_put_self, Dir.get_put]
    split_ifs <;> simp [writeAt, segmentBytes, streamBytes]
  unfold createNewSegmentFile
  cases w.currentSegFd with
  | none => exact hnew
  | some fd => simpa only [bind_run, syscall_run] using hnew

/-! ## Files with any bytes -/

/-- The segment files are numbered from `first` on; the last of them holds the bytes `last`. -/
def HoldsFiles (d : WalDir) (first : ℕ) (closed : List Bytes) (last : Bytes) : Prop :=
  ∀ i, d.get (.segment i) = if i < first then none else (closed ++ [last])[i - first]?

theorem holds_iff_files {d : WalDir} {l : Log} :
    Holds d l ↔ HoldsFiles d l.first (l.closed.map segmentBytes) (segmentBytes l.tail) := by
  have hsegs : l.closed.map segmentBytes ++ [segmentBytes l.tail] = l.segments.map segmentBytes := by
    simp [SegmentedLog.segments]
  refine forall_congr' fun i => ?_
  rw [SegmentedLog.seg, hsegs, List.getElem?_map]
  split_ifs <;> rfl

section Files
variable {d : WalDir} {first : ℕ} {closed : List Bytes} {last : Bytes}

theorem HoldsFiles.get_last (h : HoldsFiles d first closed last) :
    d.get (.segment (first + closed.length)) = some last := by
  rw [h, if_neg (by omega), Nat.add_sub_cancel_left, List.getElem?_concat_length]

theorem HoldsFiles.get_eq_none_iff (h : HoldsFiles d first closed last) (i : ℕ) :
    d.get (.segment i) = none ↔ i < first ∨ first + closed.length < i := by
  rw [h]
  split_ifs with hi
  · simp [hi]
  · rw [List.getElem?_eq_none_iff, List.length_append, List.length_singleton]
    omega

theorem HoldsFiles.listSegmentsAsc (h : HoldsFiles d first closed last) :
    listSegmentsAsc d = List.range' first (closed.length + 1) := by
  refine listSegmentsAsc_of_mem (List.sortedLT_range' _ _ (by decide)) fun i => ?_
  rw [List.mem_range'_1, Ne, h.get_eq_none_iff]
  omega

/-- Without the files numbered up to `b`, the last of which is a closed one. -/
theorem HoldsFiles.drop (h : HoldsFiles d first closed last) {b : ℕ} (hb : b < first + closed.length)
    {d' : WalDir} (hd : ∀ i, d'.get (.segment i) = if i ≤ b then none else d.get (.segment i)) :
    HoldsFiles d' (max first (b + 1)) (closed.drop (b + 1 - first)) last := by
  intro i
  rw [hd, h i]
  exact (SegmentedLog.getElem?_from_drop _ _ hb i).symm

end Files

/-! ## The segments left are opened -/

/-- The object after `Init` on the segment files that are left. -/
def openedFiles (conf : LogCleanWalConfig) (first : ℕ) (closed : List Bytes) (last : Bytes) :
    LogCleanWal :=
  { create conf with
    bInited := true
    minSegmentId := first
    currentSegmentId := first + closed.length
    currentSegFd := some ⟨.segment (first + closed.length), last.length⟩
    vInitSegments := List.range' first (closed.length + 1) }

/-- The object after `Init` on the segments of a log. -/
def opened (conf : LogCleanWalConfig) (l : Log) : LogCleanWal :=
  { create conf with
    bInited := true
    minSegmentId := l.first
    currentSegmentId := l.current
    currentSegFd := some ⟨.segment l.current, (segmentBytes l.tail).length⟩
    vInitSegments := List.range' l.first (l.closed.length + 1) }

theorem opened_eq (conf : LogCleanWalConfig) (l : Log) :
    opened conf l = openedFiles conf l.first (l.closed.map segmentBytes) (segmentBytes l.tail) := by
  simp [opened, openedFiles, SegmentedLog.current]

/-- The object after `Init` found no segment. -/
def created (conf : LogCleanWalConfig) : LogCleanWal :=
  { create conf with
    bInited := true
    minSegmentId := 1
    currentSegmentId := 1
    currentSegFd := some ⟨.segment 1, magicNoLen⟩
    curSegFileSize := magicNoLen }

/-- `Init` ends well with the object `w` on segment files that satisfy `P`. -/
structure InitEnds (o : Outcome WalDir (LogCleanWal × Ended WalResult)) (w : LogCleanWal)
    (P : WalDir → Prop) : Prop where
  value : o.value = (w, .returned .ok)
  faults : o.faults = []
  files : P o.disk
  settled : Settled o.disk

abbrev InitOutcome (o : Outcome WalDir (LogCleanWal × Ended WalResult)) (w : LogCleanWal) (l : Log) : Prop :=
  InitEnds o w (Holds · l)

section
variable {d : WalDir} {first b : ℕ} {closed : List Bytes} {last : Bytes}

theorem openCurrentSegment_run {w : LogCleanWal} (bs : Bytes) (h : d.get (.segment w.currentSegmentId) = some bs) :
    openCurrentSegment w d [] =
      ⟨[], d, [], { w with currentSegFd := some ⟨.segment w.currentSegmentId, bs.length⟩ },
        .returned .ok⟩ := by
  simp only [openCurrentSegment, bind_run, openCreate_run, if_pos (exist_of_get h), peek_run,
    syscall_run, pure_run, h]
  rfl

theorem initSegments_nil (conf : LogCleanWalConfig) (hnone : ∀ i, d.get (.segment i) = none) :
    InitOutcome (initSegments { create conf with bInited := true } [] d []) (created conf)
      (SegmentedLog.start 1) := by
  obtain ⟨hv, hf, hset, hseg⟩ := cleanTruncStatus_spec d
  set d₁ := (cleanTruncStatus d []).disk with hd₁
  obtain ⟨hv', hf', hd'⟩ := createNewSegmentFile_spec
    { create conf with bInited := true, minSegmentId := 1, currentSegmentId := invalidEntryId } d₁
    1 rfl (by rw [hseg, hnone])
  set w₁ : LogCleanWal :=
    { create conf with bInited := true, minSegmentId := 1, currentSegmentId := invalidEntryId } with hw₁
  have hopen := openCurrentSegment_run (w := { created conf with vInitSegments := [] })
    (d := (createNewSegmentFile w₁ d₁ []).disk) (segmentBytes []) (by rw [hd', created]; simp)
  have hrun : initSegments { create conf with bInited := true } [] d [] =
      ⟨(cleanTruncStatus d []).images ++ ((createNewSegmentFile w₁ d₁ []).images ++ []),
        (createNewSegmentFile w₁ d₁ []).disk, [], created conf, .returned .ok⟩ := by
    simp only [initSegments, bind_run, hv, hf, ← hd₁, WalResult.ok, ne_eq, not_true_eq_false, if_false]
    rw [← hw₁, hv', hf']
    simp only [WalResult.ok, not_true_eq_false]
    exact congrArg (fun o : Outcome WalDir (LogCleanWal × Ended WalResult) =>
      (⟨(cleanTruncStatus d []).images ++ ((createNewSegmentFile w₁ d₁ []).images ++ o.images),
        o.disk, o.faults, o.value⟩ : Outcome _ _)) hopen
  rw [hrun]
  refine ⟨rfl, rfl, fun i => ?_, ?_, ?_⟩
  · change (createNewSegmentFile w₁ d₁ []).disk.get _ = _
    rw [hd', hseg, hnone]
    by_cases hi : i = 1
    · subst hi
      rfl
    · rw [if_neg (by simpa using hi), SegmentedLog.seg_eq_none_iff.mpr, Option.map_none]
      simp only [SegmentedLog.current, SegmentedLog.start, List.length_nil]
      omega
  · change (createNewSegmentFile w₁ d₁ []).disk.get _ = _
    rw [hd', if_neg (by simp)]
    exact hset.1
  · change (createNewSegmentFile w₁ d₁ []).disk.get _ = _
    rw [hd', if_neg (by simp)]
    exact hset.2

theorem initSegments_files (conf : LogCleanWalConfig) (h : HoldsFiles d first closed last) :
    InitEnds (initSegments { create conf with bInited := true }
      (List.range' first (closed.length + 1)) d []) (openedFiles conf first closed last)
      (HoldsFiles · first closed last) := by
  obtain ⟨hv, hf, hset, hseg⟩ := cleanTruncStatus_spec d
  have hlast : ∀ hne, (List.range' first (closed.length + 1)).getLast hne = first + closed.length := by
    intro hne
    rw [List.getLast_range']
    omega
  have hfiles : HoldsFiles (cleanTruncStatus d []).disk first closed last := fun i => by rw [hseg, h i]
  have hopen := openCurrentSegment_run (w := { openedFiles conf first closed last with currentSegFd := none })
    _ hfiles.get_last
  rw [List.range'_succ] at hlast ⊢
  have hrun : initSegments { create conf with bInited := true }
        (first :: List.range' (first + 1) closed.length) d [] =
      ⟨(cleanTruncStatus d []).images ++ [], (cleanTruncStatus d []).disk, [],
        openedFiles conf first closed last, .returned .ok⟩ := by
    simp only [initSegments, bind_run, hv, hf, WalResult.ok, ne_eq, not_true_eq_false, if_false, hlast]
    rw [← List.range'_succ]
    exact congrArg (fun o : Outcome WalDir (LogCleanWal × Ended WalResult) =>
      (⟨(cleanTruncStatus d []).images ++ o.images, o.disk, o.faults, o.value⟩ : Outcome _ _)) hopen
  rw [hrun]
  exact ⟨rfl, rfl, hfiles, hset⟩

/-! ## The whole of `Init` -/

theorem init_run (errno : ℕ) (w : LogCleanWal) (d : WalDir) :
    init errno w d [] = initAfterListing { w with bInited := true }
      (getUncompletedTruncSegmentsMaxId errno d) (listSegmentsAsc d) d [] := by
  simp only [init, bind_run, syscall_run, peek_run, query_run]
  rfl

theorem initAfterListing_of_invalid (w : LogCleanWal) (ids : List ℕ) (hb : b = invalidSegmentId) :
    initAfterListing w b ids = initSegments w ids := by
  unfold initAfterListing
  exact if_pos hb

theorem init_empty (errno : ℕ) (conf : LogCleanWalConfig) (hnone : ∀ i, d.get (.segment i) = none)
    (hbound : getUncompletedTruncSegmentsMaxId errno d = invalidSegmentId) :
    InitOutcome (init errno (create conf) d []) (created conf) (SegmentedLog.start 1) := by
  rw [init_run, listSegmentsAsc_of_none hnone, initAfterListing_of_invalid _ _ hbound]
  exact initSegments_nil conf hnone

/-- `Init` on segments `first ..` with an unfinished truncation up to `b`. -/
theorem initAfterListing_unlink {w : LogCleanWal} (h : HoldsFiles d first closed last) (hb : b ≠ invalidSegmentId)
    (hlt : b < ulongMax) :
    ∃ d₁ ids, ((initAfterListing w b (listSegmentsAsc d) d []).value = (initSegments w ids d₁ []).value ∧
      (initAfterListing w b (listSegmentsAsc d) d []).disk = (initSegments w ids d₁ []).disk ∧
      (initAfterListing w b (listSegmentsAsc d) d []).faults = (initSegments w ids d₁ []).faults) ∧
      ids = listSegmentsAsc d₁ ∧
      ∀ i, d₁.get (.segment i) = if i ≤ b then none else d.get (.segment i) := by
  obtain ⟨hv, hf, hd⟩ := unlinkSegments_spec (b + 1 - first) first d
  have hget : ∀ i, (unlinkSegments first (b + 1 - first) d []).disk.get (.segment i) =
      if i ≤ b then none else d.get (.segment i) := by
    intro i
    simp only [hd, inRange, Bool.and_eq_true, decide_eq_true_eq]
    by_cases hi : i < first
    · rw [(h.get_eq_none_iff i).mpr (Or.inl hi)]
      split_ifs <;> rfl
    · split_ifs <;> first | rfl | omega
  refine ⟨_, (listSegmentsAsc d).filter (fun s => b < s), ?_, ?_, hget⟩
  · rw [h.listSegmentsAsc, List.range'_succ]
    simp only [initAfterListing, if_neg hb, bind_run, hv, hf, if_neg hlt.ne, and_self]
  · refine (listSegmentsAsc_of_mem ?_ fun i => ?_).symm
    · rw [h.listSegmentsAsc]
      exact ((List.sortedLT_range' _ _ (by decide)).pairwise.filter _).sortedLT
    · rw [hget, List.mem_filter, h.listSegmentsAsc, List.mem_range'_1]
      simp only [decide_eq_true_eq]
      split_ifs with hi
      · simp [hi]
      · rw [Ne, h.get_eq_none_iff]
        omega

/-- `Init` keeps the files above the number `b` of the info file and opens the last of them. -/
theorem init_files (errno : ℕ) (conf : LogCleanWalConfig) (h : HoldsFiles d first closed last) (hfirst : 1 ≤ first)
    (hb : getUncompletedTruncSegmentsMaxId errno d = b) (hlt : b < ulongMax) :
    (b < first + closed.length →
      InitEnds (init errno (create conf) d [])
        (openedFiles conf (max first (b + 1)) (closed.drop (b + 1 - first)) last)
        (HoldsFiles · (max first (b + 1)) (closed.drop (b + 1 - first)) last)) ∧
    (first + closed.length ≤ b →
      InitEnds (init errno (create conf) d []) (created conf) (Holds · (SegmentedLog.start 1))) := by
  rw [init_run, hb]
  by_cases h0 : b = invalidSegmentId
  · have hb0 : b = 0 := h0
    have hdrop : closed.drop (b + 1 - first) = closed := by
      rw [show b + 1 - first = 0 by omega, List.drop_zero]
    rw [initAfterListing_of_invalid _ _ h0, h.listSegmentsAsc, hdrop, max_eq_left (by omega)]
    exact ⟨fun _ => initSegments_files conf h, fun hle => by omega⟩
  · obtain ⟨d₁, ids, ⟨hv, hd, hf⟩, rfl, hget⟩ :=
      initAfterListing_unlink (w := { create conf with bInited := true }) h h0 hlt
    constructor
    · intro hlast
      have hfiles := h.drop hlast hget
      have hs := initSegments_files conf hfiles
      rw [← hfiles.listSegmentsAsc] at hs
      exact ⟨hv.trans hs.value, hf.trans hs.faults, hd ▸ hs.files, hd ▸ hs.settled⟩
    · intro hle
      have hnone : ∀ i, d₁.get (.segment i) = none := fun i => by
        rw [hget]
        split_ifs with hi
        · rfl
        · exact (h.get_eq_none_iff i).mpr (Or.inr (by omega))
      have hs := initSegments_nil conf hnone
      rw [← listSegmentsAsc_of_none hnone] at hs
      exact ⟨hv.trans hs.value, hf.trans hs.faults, hd ▸ hs.files, hd ▸ hs.settled⟩

/-- What `Init` keeps of a log when the info file asks for a clean-up up to `b`. -/
def recover (l : Log) (b : ℕ) : Log :=
  if b < l.current then l.dropThrough b else SegmentedLog.start 1

theorem recover_of_lt {l : Log} (h : b < l.first) : recover l b = l := by
  rw [recover, if_pos (lt_of_lt_of_le h l.first_le_current), SegmentedLog.dropThrough_of_lt h]

def recovered (conf : LogCleanWalConfig) (l : Log) (b : ℕ) : LogCleanWal :=
  if b < l.current then opened conf (l.dropThrough b) else created conf

theorem init_holds (errno : ℕ) (conf : LogCleanWalConfig) {l : Log} (h : Holds d l) (hfirst : 1 ≤ l.first)
    (hlt : getUncompletedTruncSegmentsMaxId errno d < ulongMax) :
    InitOutcome (init errno (create conf) d [])
      (recovered conf l (getUncompletedTruncSegmentsMaxId errno d))
      (recover l (getUncompletedTruncSegmentsMaxId errno d)) := by
  obtain ⟨hkept, hnone⟩ := init_files errno conf (holds_iff_files.mp h) hfirst rfl hlt
  rw [List.length_map] at hkept hnone
  generalize getUncompletedTruncSegmentsMaxId errno d = b at hkept hnone
  unfold recovered recover
  split_ifs with hc
  · have hi := hkept hc
    rw [← List.map_drop] at hi
    refine ⟨?_, hi.faults, holds_iff_files.mpr hi.files, hi.settled⟩
    rw [opened_eq]
    exact hi.value
  · exact hnone (Nat.le_of_not_lt hc)

end

end FlyingKV.Wal
