import FlyingKV.WalLoad

set_option autoImplicit false

/-!
# Restarting on a directory

A restart constructs an object, initialises it and loads the log. On a directory
that holds a log it ends with an object that stands for what `Init` has left.
-/
namespace FlyingKV.Wal
open CommonUtils DecimalText FileDir DiskProgram FileUtils FramedStream

/-- Construct, `Init` and, when that is well, `Load`. -/
def reopen (judge : Judge) (errno : ℕ) (conf : LogCleanWalConfig) :
    Program WalDir WalLoad := do
  let (w, rs) ← init errno (create conf)
  if rs ≠ .returned .ok then return ⟨w, [], rs⟩
  else load judge w

section
variable {judge : Judge}
variable {conf : LogCleanWalConfig} {d : WalDir} {w : LogCleanWal} {l : Log} {v : ℕ}

variable (judge) in
theorem reopen_of_init {errno : ℕ} (hv : (init errno (create conf) d []).value = (w, .returned .ok))
    (hf : (init errno (create conf) d []).faults = []) :
    (reopen judge errno conf d []).disk = (load judge w (init errno (create conf) d []).disk []).disk ∧
      (reopen judge errno conf d []).value =
        (load judge w (init errno (create conf) d []).disk []).value := by
  simp only [reopen, bind_run, hv, hf, ne_eq, not_true_eq_false, if_false, and_self]

variable (judge) in
theorem reopen_run {errno : ℕ} (h : InitOutcome (init errno (create conf) d []) w l) :
    (reopen judge errno conf d []).disk = (load judge w (init errno (create conf) d []).disk []).disk ∧
      (reopen judge errno conf d []).value =
        (load judge w (init errno (create conf) d []).disk []).value :=
  reopen_of_init judge h.value h.faults

theorem load_created (conf : LogCleanWalConfig) (d : WalDir) :
    load judge (created conf) d [] =
      ⟨[], d, [], { created conf with bLoaded := true }, [], .returned .ok⟩ := rfl

theorem ready_created (judge : Judge) (conf : LogCleanWalConfig) (h : Holds d (SegmentedLog.start 1)) (hs : Settled d) :
    Ready judge { created conf with bLoaded := true } d (SegmentedLog.start 1) 0 where
  wf := wellFormed_start judge
  holds := h
  info := hs.1
  flag := hs.2
  pending_lt := by decide
  inited := rfl
  loaded := rfl
  index e i := by
    simp only [created, create, reduceCtorEq, false_iff]
    rintro ⟨s, hs, r, hr, -⟩
    have : r ∈ (SegmentedLog.start 1 : Log).entries := SegmentedLog.mem_entries_iff.mpr ⟨i, s, hs, hr⟩
    simp at this
  counter := rfl
  current := rfl
  fd := rfl
  fileSize := rfl
  min := .inl rfl
  lastTrunc := by simp
  lastTrunc_le := le_refl _

/-- An object that has loaded the log it was opened on. -/
theorem ready_of_noted (hwf : WellFormed judge l) (h : Holds d l) (hs : Settled d)
    (hn : Noted (opened conf l) w l.first l.segments) (hsize : w.curSegFileSize = (segmentBytes l.tail).length) :
    Ready judge { w with bLoaded := true } d l 0 where
  wf := hwf
  holds := h
  info := hs.1
  flag := hs.2
  pending_lt := by decide
  inited := by
    rw [hn.same]
    rfl
  loaded := rfl
  index e i := by
    rw [← hwf.locate_iff]
    change w.mpEntriesIdSegId e = some i ↔ _
    rw [hn.index]
    simp [opened, create]
  counter := hn.counter
  current := by
    rw [hn.same]
    rfl
  fd := by
    rw [hn.same]
    rfl
  fileSize := hsize
  min := .inl (by
    rw [hn.same]
    rfl)
  lastTrunc r hr := hn.lastTrunc r hr
  lastTrunc_le := le_trans hn.lastTrunc_le hwf.one_le_lastId

/-- What a restart ends with, when the memory pool can serve the reads of `fits`. -/
structure Reopened (judge : Judge) (conf : LogCleanWalConfig) (l : Log)
    (o : Outcome WalDir WalLoad) : Prop where
  result : o.value.result = .returned .ok
  batches : o.value.batches.flatten = l.entries.map Rec.entry
  ready : Ready judge o.value.wal o.disk l 0
  conf_eq : o.value.wal.conf = conf
  min_eq : o.value.wal.minSegmentId = l.first

theorem forall_segments_iff {P : List Rec → Prop} :
    (∀ s ∈ l.segments, P s) ↔ ∀ i s, l.seg i = some s → P s := by
  constructor
  · intro h i s hs
    unfold SegmentedLog.seg at hs
    split_ifs at hs
    exact h s (List.mem_of_getElem? hs)
  · intro h s hs
    obtain ⟨k, hk⟩ := List.getElem?_of_mem hs
    refine h (l.first + k) s ?_
    rw [SegmentedLog.seg, if_neg (by omega), Nat.add_sub_cancel_left, hk]

/-- `Load` on a log whose segments can be read back. -/
theorem load_readable (conf : LogCleanWalConfig) (hr : ∀ i s, l.seg i = some s → Readable judge s) (h : Holds d l) :
    (load judge (opened conf l) d []).disk = d ∧
      ((LogFits conf l ∧ (load judge (opened conf l) d []).value.result = .returned .ok ∧
          (load judge (opened conf l) d []).value.batches.flatten = l.entries.map Rec.entry ∧
          ∃ w, (load judge (opened conf l) d []).value.wal = { w with bLoaded := true } ∧
            Noted (opened conf l) w l.first l.segments ∧
            w.curSegFileSize = (segmentBytes l.tail).length) ∨
        (¬ LogFits conf l ∧
          (load judge (opened conf l) d []).value.result = .crashed .badAlloc)) := by
  have hrun : load judge (opened conf l) d [] =
      ⟨(loadSegments judge (opened conf l) (List.range' l.first (l.closed.length + 1)) d []).images ++ [],
        (loadSegments judge (opened conf l) (List.range' l.first (l.closed.length + 1)) d []).disk,
        (loadSegments judge (opened conf l) (List.range' l.first (l.closed.length + 1)) d []).faults,
        { (loadSegments judge (opened conf l) (List.range' l.first (l.closed.length + 1)) d []).value with
          wal := { (loadSegments judge (opened conf l)
            (List.range' l.first (l.closed.length + 1)) d []).value.wal with bLoaded := true } }⟩ := rfl
  obtain ⟨hdisk, hload⟩ := loadSegments_spec judge d l.segments l.first (opened conf l)
    (fun k s hk => h.get (by rw [SegmentedLog.seg, if_neg (by omega), Nat.add_sub_cancel_left, hk]))
    (forall_segments_iff.mpr hr)
  have hfits : (∀ s ∈ l.segments, SegmentFits (opened conf l).conf s) ↔ LogFits conf l :=
    forall_segments_iff
  rw [SegmentedLog.length_segments, hfits] at hload
  rw [SegmentedLog.length_segments] at hdisk
  rw [hrun]
  generalize loadSegments judge (opened conf l) (List.range' l.first (l.closed.length + 1)) d [] = o
    at hdisk hload
  refine ⟨hdisk, ?_⟩
  rcases hload with ⟨hf, hres, hbatches, hnoted, hsize⟩ | ⟨hf, hres⟩
  · have hlast : l.tail ∈ l.segments.getLast? := by simp [SegmentedLog.segments]
    exact .inl ⟨hf, hres, hbatches, _, rfl, hnoted, hsize _ hlast⟩
  · exact .inr ⟨hf, hres⟩

/-- The reads a restart with the clean-up bound `b` makes can all be served. -/
def Loads (conf : LogCleanWalConfig) (l : Log) (b : ℕ) : Prop :=
  b < l.current → LogFits conf (l.dropThrough b)

/-- What a restart delivers of a log whose segments can be read back. -/
theorem reopen_readable (errno : ℕ) (conf : LogCleanWalConfig) (hr : ∀ i s, l.seg i = some s → Readable judge s)
    (h : Holds d l) (hfirst : 1 ≤ l.first) {b : ℕ} (hb : getUncompletedTruncSegmentsMaxId errno d = b)
    (hlt : b < ulongMax) :
    (Loads conf l b ∧ (reopen judge errno conf d []).value.result = .returned .ok ∧
        (reopen judge errno conf d []).value.batches.flatten = (recover l b).entries.map Rec.entry ∧
        (WellFormed judge l → Reopened judge conf (recover l b) (reopen judge errno conf d []))) ∨
      (¬ Loads conf l b ∧ (reopen judge errno conf d []).value.result = .crashed .badAlloc) := by
  have hi := init_holds errno conf h hfirst (by rw [hb]; exact hlt)
  rw [hb] at hi
  obtain ⟨hd, hv⟩ := reopen_run judge hi
  have hh := hi.files
  by_cases hc : b < l.current
  · have hw : recovered conf l b = opened conf (l.dropThrough b) := if_pos hc
    have hrec : recover l b = l.dropThrough b := if_pos hc
    rw [hrec] at hh ⊢
    rw [hw] at hd hv
    have hkept : ∀ i s, (l.dropThrough b).seg i = some s → Readable judge s := fun i s hs => by
      rw [SegmentedLog.seg_dropThrough hc] at hs
      split_ifs at hs
      exact hr i s hs
    obtain ⟨hdisk, hload⟩ := load_readable conf hkept hh
    rw [hdisk] at hd
    rcases hload with ⟨hf, hres, hbatches, w, hw, hnoted, hsize⟩ | ⟨hf, hres⟩
    · rw [← hv] at hres hbatches hw
      refine .inl ⟨fun _ => hf, hres, hbatches, fun hwf => ⟨hres, hbatches, ?_, ?_, ?_⟩⟩
      · rw [hw, hd]
        exact ready_of_noted (hwf.dropThrough hc) hh hi.settled hnoted hsize
      · rw [hw]
        change w.conf = conf
        rw [hnoted.same]
        rfl
      · rw [hw]
        change w.minSegmentId = (l.dropThrough b).first
        rw [hnoted.same]
        rfl
    · exact .inr ⟨fun hl => hf (hl hc), hv ▸ hres⟩
  · have hw : recovered conf l b = created conf := if_neg hc
    have hrec : recover l b = SegmentedLog.start 1 := if_neg hc
    rw [hrec] at hh ⊢
    rw [hw, load_created] at hd hv
    rw [hv]
    refine .inl ⟨fun hl => absurd hl hc, rfl, rfl, fun _ => ?_⟩
    exact ⟨by rw [hv], by rw [hv]; rfl, by rw [hv, hd]; exact ready_created judge conf hh hi.settled,
      by rw [hv]; rfl, by rw [hv]; rfl⟩

theorem reopen_holds (errno : ℕ) (conf : LogCleanWalConfig) (hwf : WellFormed judge l) (h : Holds d l) {b : ℕ}
    (hb : getUncompletedTruncSegmentsMaxId errno d = b) (hlt : b < ulongMax) :
    (Loads conf l b ∧ Reopened judge conf (recover l b) (reopen judge errno conf d [])) ∨
      (¬ Loads conf l b ∧ (reopen judge errno conf d []).value.result = .crashed .badAlloc) :=
  (reopen_readable errno conf (fun _ _ hs => hwf.readable hs) h hwf.first_pos hb hlt).imp_left
    fun ho => ⟨ho.1, ho.2.2.2 hwf⟩

theorem reopen_empty (judge : Judge) (errno : ℕ) (conf : LogCleanWalConfig) (hnone : ∀ i, d.get (.segment i) = none)
    (hbound : getUncompletedTruncSegmentsMaxId errno d = invalidSegmentId) :
    Reopened judge conf (SegmentedLog.start 1) (reopen judge errno conf d []) := by
  have hi := init_empty errno conf hnone hbound
  obtain ⟨hd, hv⟩ := reopen_run judge hi
  rw [load_created] at hd hv
  exact ⟨by rw [hv], by rw [hv]; rfl,
    by rw [hv, hd]; exact ready_created judge conf hi.files hi.settled, by rw [hv]; rfl, by rw [hv]; rfl⟩

/-! ## The number in the truncate-info file -/

theorem bound_of_flag (errno : ℕ) (h : d.get .truncOk ≠ none) :
    getUncompletedTruncSegmentsMaxId errno d = 0 := by
  rw [getUncompletedTruncSegmentsMaxId, if_pos ((exist_iff d _).mpr h)]
  rfl

theorem bound_of_no_info (errno : ℕ) (h : d.get .truncMeta = none) :
    getUncompletedTruncSegmentsMaxId errno d = 0 := by
  unfold getUncompletedTruncSegmentsMaxId
  split_ifs
  · rfl
  · rw [h]
    rfl

theorem bound_of_empty (errno : ℕ) (h : d.get .truncMeta = some []) :
    getUncompletedTruncSegmentsMaxId errno d = 0 := by
  unfold getUncompletedTruncSegmentsMaxId
  split_ifs
  · rfl
  · rw [h]
    rfl

theorem bound_of_info (errno : ℕ) (hf : d.get .truncOk = none) (h : d.get .truncMeta = some (CommonUtils.toString v))
    (h0 : 0 < v) (hlt : v < ulongMax) : getUncompletedTruncSegmentsMaxId errno d = v := by
  rw [getUncompletedTruncSegmentsMaxId, if_neg (by simp [Dir.exist, hf]), h]
  simp only [if_neg (decimal_ne_nil v), toUint46_toString errno h0 hlt, Option.getD_some]

theorem bound_congr (errno : ℕ) {e : WalDir} (hm : e.get .truncMeta = d.get .truncMeta)
    (hk : e.get .truncOk = d.get .truncOk) :
    getUncompletedTruncSegmentsMaxId errno e = getUncompletedTruncSegmentsMaxId errno d := by
  simp only [getUncompletedTruncSegmentsMaxId, Dir.exist, hm, hk]
  rfl

theorem Writes.bound (h : Writes w d l v) (errno : ℕ) : getUncompletedTruncSegmentsMaxId errno d = v := by
  have hinfo := h.info
  by_cases hv : v = 0
  · rw [if_pos hv] at hinfo
    rw [bound_of_no_info errno hinfo, hv]
  · rw [if_neg hv] at hinfo
    exact bound_of_info errno h.flag hinfo (Nat.pos_of_ne_zero hv) h.pending_lt

theorem Ready.reopen (h : Ready judge w d l v) (errno : ℕ) (conf : LogCleanWalConfig) :
    (Loads conf l v ∧ Reopened judge conf (recover l v) (reopen judge errno conf d [])) ∨
      (¬ Loads conf l v ∧ (Wal.reopen judge errno conf d []).value.result = .crashed .badAlloc) :=
  reopen_holds errno conf h.wf h.holds (h.bound errno) h.pending_lt

end

end FlyingKV.Wal
