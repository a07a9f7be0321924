import FlyingKV.WalInit

set_option autoImplicit false

/-!
# `Load`

Loading the segments of a log delivers its entries in order and rebuilds the
object, provided that the memory pool can serve every read.
-/
namespace FlyingKV.Wal
open ByteOrder CommonUtils DecimalText DiskProgram FileUtils FramedStream

/-- Every read of the segment asks the memory pool for a block that it can serve. -/
def SegmentFits (conf : LogCleanWalConfig) (s : List Rec) : Prop :=
  Fits MemPool.slotSize conf.readBatchSize 0 (s.map Rec.frame)

def LogFits (conf : LogCleanWalConfig) (l : Log) : Prop :=
  ∀ i s, l.seg i = some s → SegmentFits conf s

/-- Batches and records whose sizes add up to less than the largest block. -/
theorem logFits_of_le {conf : LogCleanWalConfig} {l : Log} (h : ∀ r ∈ l.entries,
    conf.readBatchSize + (r.content.length + entryExtraFieldsSize) ≤ 2 ^ 32 - 4096)
    (hb : conf.readBatchSize ≤ 2 ^ 32 - 4096) : LogFits conf l := by
  intro i s hs
  refine fits_of_size_le (2 ^ 32 - 4096 - conf.readBatchSize) ?_ ?_
  · intro f hf
    obtain ⟨r, hr, rfl⟩ := List.mem_map.mp hf
    have := h r (SegmentedLog.mem_entries_iff.mpr ⟨i, s, hs, hr⟩)
    rw [Rec.size_frame]
    omega
  · intro k hk
    have hpos := conf.batchSize_ge
    rw [MemPool.allocFits_iff (lt_of_lt_of_le (by decide) hpos)]
    omega

/-! ## What loading notes in the object -/

/-- The segment, numbered from `n`, in which an id is found last. -/
def locate (e : ℕ) : ℕ → List (List Rec) → Option ℕ
  | _, [] => none
  | n, s :: rest => (locate e (n + 1) rest).or (if e ∈ s.map Rec.id then some n else none)

structure Noted (w w' : LogCleanWal) (n : ℕ) (segs : List (List Rec)) : Prop where
  same : w' = { w with
    mpEntriesIdSegId := w'.mpEntriesIdSegId
    lastTruncMaxIdx := w'.lastTruncMaxIdx
    currentEntryIdx := w'.currentEntryIdx
    curSegFileSize := w'.curSegFileSize }
  index : ∀ e, w'.mpEntriesIdSegId e = (locate e n segs).or (w.mpEntriesIdSegId e)
  counter : w'.currentEntryIdx = (segs.flatten.getLast?.map Rec.id).getD w.currentEntryIdx
  lastTrunc_le : w'.lastTruncMaxIdx ≤ w.lastTruncMaxIdx
  lastTrunc : ∀ r ∈ segs.flatten, w'.lastTruncMaxIdx ≤ r.id

theorem noted_nil (w : LogCleanWal) (n : ℕ) : Noted w w n [] where
  same := rfl
  index _ := rfl
  counter := rfl
  lastTrunc_le := le_refl _
  lastTrunc := by simp

theorem Noted.fileSize {w w' : LogCleanWal} {n : ℕ} {segs : List (List Rec)} (h : Noted w w' n segs)
    (z : ℕ) : Noted w { w' with curSegFileSize := z } n segs where
  same := by
    rw [h.same]
  index := h.index
  counter := h.counter
  lastTrunc_le := h.lastTrunc_le
  lastTrunc := h.lastTrunc

theorem Noted.cons {w w' w'' : LogCleanWal} {n : ℕ} {s : List Rec} {segs : List (List Rec)}
    (h : Noted w w' n [s]) (h' : Noted w' w'' (n + 1) segs) : Noted w w'' n (s :: segs) where
  same := by
    rw [h'.same, h.same]
  index e := by
    rw [h'.index, h.index, locate, locate, locate, Option.none_or, Option.or_assoc]
  counter := by
    have hs : [s].flatten = s := by simp
    rw [h'.counter, h.counter, hs, List.flatten_cons, List.getLast?_append]
    cases segs.flatten.getLast? <;> rfl
  lastTrunc_le := le_trans h'.lastTrunc_le h.lastTrunc_le
  lastTrunc r hr := by
    rw [List.flatten_cons, List.mem_append] at hr
    rcases hr with hr | hr
    · exact le_trans h'.lastTrunc_le (h.lastTrunc r (by simpa using hr))
    · exact h'.lastTrunc r hr

theorem noted_note (w : LogCleanWal) (n : ℕ) {r : Rec} (h : 0 < r.id ∧ r.id < ulongMax) :
    Noted w (noteEntry n w r.frame) n [[r]] := by
  have hlt : r.id < 2 ^ 64 := lt_trans h.2 (by decide)
  have hid : (WalEntry.ofFrame r.frame).id = r.id := by rw [Rec.ofFrame_frame hlt]; rfl
  refine ⟨rfl, fun e => ?_, ?_, ?_, ?_⟩
  · simp only [noteEntry, hid, Function.update_apply, locate, Option.none_or, List.map_cons,
      List.map_nil, List.mem_singleton]
    split_ifs <;> simp
  · simp [noteEntry, hid]
  · exact min_le_left _ _
  · intro a ha
    rw [List.flatten_singleton, List.mem_singleton] at ha
    subst ha
    simp only [noteEntry, hid, pred64_of_pos h.1 hlt]
    omega

/-- Two lists noted one after the other for one segment are one list noted. -/
theorem Noted.append {w w' w'' : LogCleanWal} {n : ℕ} {s t : List Rec} (h : Noted w w' n [s])
    (h' : Noted w' w'' n [t]) : Noted w w'' n [s ++ t] where
  same := by
    rw [h'.same, h.same]
  index e := by
    rw [h'.index, h.index]
    simp only [locate, Option.none_or, List.map_append, List.mem_append]
    by_cases hs : e ∈ s.map Rec.id <;> by_cases ht : e ∈ t.map Rec.id <;> simp [hs, ht]
  counter := by
    rw [h'.counter, h.counter]
    simp only [List.flatten_singleton, List.getLast?_append]
    cases t.getLast? <;> rfl
  lastTrunc_le := le_trans h'.lastTrunc_le h.lastTrunc_le
  lastTrunc r hr := by
    simp only [List.flatten_singleton, List.mem_append] at hr
    rcases hr with hr | hr
    · exact le_trans h'.lastTrunc_le (h.lastTrunc r (by simpa using hr))
    · exact h'.lastTrunc r (by simpa using hr)

theorem noted_empty (w : LogCleanWal) (n : ℕ) : Noted w w n [[]] where
  same := rfl
  index _ := rfl
  counter := rfl
  lastTrunc_le := le_refl _
  lastTrunc := by simp

theorem noted_foldl (n : ℕ) (s : List Rec) (h : ∀ r ∈ s, 0 < r.id ∧ r.id < ulongMax)
    (w : LogCleanWal) : Noted w ((s.map Rec.frame).foldl (noteEntry n) w) n [s] := by
  induction s generalizing w with
  | nil => exact noted_empty w n
  | cons r s ih =>
    exact (noted_note w n (h r (by simp))).append (ih (fun a ha => h a (by simp [ha])) _)

/-! ## One segment -/

section Load
variable {judge : Judge}

/-- The records of a segment file that can be read back. -/
structure Readable (judge : Judge) (s : List Rec) : Prop where
  ids : ∀ r ∈ s, 0 < r.id ∧ r.id < ulongMax
  accepted : ∀ r ∈ s, judge r.content = .accepted
  size_lt : (segmentBytes s).length < 2 ^ 32

theorem WellFormed.readable {l : Log} (h : WellFormed judge l) {i : ℕ} {s : List Rec}
    (hs : l.seg i = some s) : Readable judge s where
  ids r hr := by
    have hr' := h.ids r (SegmentedLog.mem_entries_iff.mpr ⟨i, s, hs, hr⟩)
    omega
  accepted r hr := h.accepted r (SegmentedLog.mem_entries_iff.mpr ⟨i, s, hs, hr⟩)
  size_lt := h.size_lt i s hs

theorem size_le_streamSize {f : Frame} {fs : List Frame} (h : f ∈ fs) : f.size ≤ streamSize fs :=
  List.single_le_sum (by simp) _ (List.mem_map_of_mem h)

theorem sound_of_size_lt {s : List Rec} (hlt : (segmentBytes s).length < 2 ^ 32)
    (hacc : ∀ r ∈ s, judge r.content = .accepted) : ∀ f ∈ s.map Rec.frame, Sound entryHeaderLen judge f := by
  intro f hf
  obtain ⟨r, hr, rfl⟩ := List.mem_map.mp hf
  have hle := size_le_streamSize hf
  rw [length_segmentBytes] at hlt
  exact ⟨by simp [Rec.frame, entryHeaderLen], by omega, hacc r hr⟩

theorem Readable.sound {s : List Rec} (h : Readable judge s) :
    ∀ f ∈ s.map Rec.frame, Sound entryHeaderLen judge f :=
  sound_of_size_lt h.size_lt h.accepted

theorem entries_of_ids {s : List Rec} (h : ∀ r ∈ s, r.id < 2 ^ 64) :
    (s.map Rec.frame).map WalEntry.ofFrame = s.map Rec.entry := by
  rw [List.map_map]
  exact List.map_congr_left fun r hr => Rec.ofFrame_frame (h r hr)

theorem Readable.entries {s : List Rec} (h : Readable judge s) :
    (s.map Rec.frame).map WalEntry.ofFrame = s.map Rec.entry :=
  entries_of_ids fun r hr => lt_trans (h.ids r hr).2 (by decide)

/-- `load_segment` without I/O failure, by what the file holds. -/
theorem loadSegment_eq (w : LogCleanWal) (i : ℕ) (d : WalDir) :
    loadSegment judge w i d [] =
      match d.get (.segment i) with
      | none => ⟨[], d, [], ⟨w, [], .returned (fileSystemError ENOENT), 0⟩⟩
      | some bs =>
        if bs.length < magicNoLen ∨ readUInt32 bs ≠ magicNo then
          ⟨[], d, [], ⟨w, [], .returned ⟨.FileCorrupt, fileCorruptError⟩, 0⟩⟩
        else loadSegmentContent judge w bs i d [] := by
  simp only [loadSegment, bind_run, query_run, readSegment]
  cases d.get (.segment i) with
  | none => rfl
  | some bs =>
    simp only [bind_run, syscall_run]
    by_cases h₁ : bs.length < magicNoLen
    · simp only [if_pos h₁, if_pos (Or.inl h₁ : _ ∨ readUInt32 bs ≠ magicNo), pure_run,
        List.append_nil]
    · by_cases h₂ : readUInt32 bs ≠ magicNo
      · simp only [if_neg h₁, if_pos h₂, if_pos (Or.inr h₂ : bs.length < magicNoLen ∨ _), pure_run,
          bind_run, syscall_run, List.append_nil]
      · simp only [if_neg h₁, if_neg h₂, if_neg (not_or.mpr ⟨h₁, h₂⟩), bind_run, syscall_run,
          List.nil_append]

variable (judge) in
theorem loadSegment_faults (w : LogCleanWal) (i : ℕ) (d : WalDir) :
    (loadSegment judge w i d []).disk = d ∧ (loadSegment judge w i d []).faults = [] := by
  rw [loadSegment_eq]
  split
  · exact ⟨rfl, rfl⟩
  · split_ifs
    · exact ⟨rfl, rfl⟩
    · exact ⟨rfl, loadLoop_faults_nil _ _ _ _ _ _⟩

theorem loadSegment_run {w : LogCleanWal} {d : WalDir} {i : ℕ} {s : List Rec}
    (hd : d.get (.segment i) = some (segmentBytes s)) :
    loadSegment judge w i d [] = loadSegmentContent judge w (segmentBytes s) i d [] := by
  have hlen : ¬ (segmentBytes s).length < magicNoLen := by
    rw [length_segmentBytes]
    omega
  have hmagic : readUInt32 (segmentBytes s) = magicNo := readUInt32_append (by decide) _
  simp only [loadSegment_eq, hd, hmagic, hlen, ne_eq, not_true_eq_false, or_self, if_false]

theorem loadLoop_segment (conf : LogCleanWalConfig) {s : List Rec}
    (hs : ∀ f ∈ s.map Rec.frame, Sound entryHeaderLen judge f) :
    Loaded (s.map Rec.frame) (SegmentFits conf s)
      (loadLoop entryHeaderLen judge MemPool.slotSize conf.readBatchSize
        (((segmentBytes s).drop magicNoLen).length + 1) magicNoLen [] ((segmentBytes s).drop magicNoLen) []) := by
  have hb : 0 < conf.readBatchSize := lt_of_lt_of_le (by decide) conf.batchSize_ge
  have hdrop : (segmentBytes s).drop magicNoLen = streamBytes magicNoLen (s.map Rec.frame) := by
    rw [segmentBytes, List.drop_left' (by simp [magicNoLen])]
  have hleft : leftoverAt ([] : Bytes).length (s.map Rec.frame) = ([] : Bytes).length := by
    have := cut_size 0 (s.map Rec.frame)
    simp only [List.length_nil]
    omega
  have hload := loadLoop_stream MemPool.slotSize hb
    ((streamBytes magicNoLen (s.map Rec.frame)).length + 1) magicNoLen (s.map Rec.frame) hs []
    (streamBytes magicNoLen (s.map Rec.frame)) rfl hleft (Nat.lt_succ_self _)
  rw [show magicNoLen % 2 ^ 32 = magicNoLen from rfl] at hload
  rw [hdrop]
  exact hload

theorem loadSegment_spec {w : LogCleanWal} {d : WalDir} {i : ℕ} {s : List Rec}
    (hd : d.get (.segment i) = some (segmentBytes s)) (hr : Readable judge s) :
    (loadSegment judge w i d []).disk = d ∧
      ((SegmentFits w.conf s ∧ (loadSegment judge w i d []).faults = [] ∧
          (loadSegment judge w i d []).value.result = .returned .ok ∧
          (loadSegment judge w i d []).value.batches.flatten = s.map Rec.entry ∧
          (loadSegment judge w i d []).value.fileSize = (segmentBytes s).length ∧
          Noted w (loadSegment judge w i d []).value.wal i [s]) ∨
        (¬ SegmentFits w.conf s ∧
          (loadSegment judge w i d []).value.result = .crashed .badAlloc)) := by
  rw [loadSegment_run hd]
  simp only [loadSegmentContent]
  refine ⟨trivial, ?_⟩
  rcases loadLoop_segment w.conf hr.sound with ⟨hf, hstop, hparsed, hbatches, hfaults⟩ | ⟨hf, hstop⟩
  · simp only [hstop, hparsed, Nat.mod_eq_of_lt hr.size_lt]
    refine .inl ⟨hf, hfaults, trivial, ?_, trivial, noted_foldl i s hr.ids w⟩
    rw [← List.map_flatten, hbatches, hr.entries]
  · simp only [hstop]
    exact .inr ⟨hf, rfl⟩

/-! ## All segments -/

/-- The outcome of loading consecutive segments from number `n` on. -/
def SegmentsLoaded (w : LogCleanWal) (n : ℕ) (segs : List (List Rec)) (d : WalDir)
    (o : Outcome WalDir WalLoad) : Prop :=
  o.disk = d ∧
    (((∀ s ∈ segs, SegmentFits w.conf s) ∧ o.value.result = .returned .ok ∧
        o.value.batches.flatten = segs.flatten.map Rec.entry ∧ Noted w o.value.wal n segs ∧
        ∀ s ∈ segs.getLast?, o.value.wal.curSegFileSize = (segmentBytes s).length) ∨
      (¬ (∀ s ∈ segs, SegmentFits w.conf s) ∧ o.value.result = .crashed .badAlloc))

theorem loadSegments_cons {w : LogCleanWal} {d : WalDir} {i : ℕ} {s : List Rec}
    (hd : d.get (.segment i) = some (segmentBytes s)) (hr : Readable judge s) (hfit : SegmentFits w.conf s)
    (ids : List ℕ) :
    ∃ w₁ bs, Noted w w₁ i [s] ∧ (ids = [] → w₁.curSegFileSize = (segmentBytes s).length) ∧
      bs.flatten = s.map Rec.entry ∧
      (loadSegments judge w (i :: ids) d []).disk = (loadSegments judge w₁ ids d []).disk ∧
      (loadSegments judge w (i :: ids) d []).value = { (loadSegments judge w₁ ids d []).value with
        batches := bs ++ (loadSegments judge w₁ ids d []).value.batches } := by
  obtain ⟨hdisk, hone⟩ := loadSegment_spec (w := w) hd hr
  obtain ⟨-, hfaults, hres, hbatches, hsize, hnoted⟩ := hone.resolve_right fun hbad => hbad.1 hfit
  refine ⟨if ids = [] then { (loadSegment judge w i d []).value.wal with curSegFileSize := (segmentBytes s).length }
    else (loadSegment judge w i d []).value.wal, _, ?_, fun hids => by rw [if_pos hids], hbatches, ?_, ?_⟩
  · split_ifs
    · exact hnoted.fileSize _
    · exact hnoted
  · simp only [loadSegments, bind_run, hres, hsize, hdisk, hfaults, ne_eq, not_true_eq_false, if_false, pure_run]
  · simp only [loadSegments, bind_run, hres, hsize, hdisk, hfaults, ne_eq, not_true_eq_false, if_false, pure_run]

theorem loadSegments_stop {w : LogCleanWal} {d : WalDir} {i : ℕ} (ids : List ℕ)
    (hne : (loadSegment judge w i d []).value.result ≠ .returned .ok) :
    (loadSegments judge w (i :: ids) d []).disk = (loadSegment judge w i d []).disk ∧
      (loadSegments judge w (i :: ids) d []).value = ⟨(loadSegment judge w i d []).value.wal,
        (loadSegment judge w i d []).value.batches, (loadSegment judge w i d []).value.result⟩ := by
  simp only [loadSegments, bind_run, if_pos hne, pure_run, and_self]

variable (judge) in
theorem loadSegments_spec (d : WalDir) (segs : List (List Rec)) (n : ℕ) (w : LogCleanWal)
    (hd : ∀ k s, segs[k]? = some s → d.get (.segment (n + k)) = some (segmentBytes s))
    (hr : ∀ s ∈ segs, Readable judge s) :
    SegmentsLoaded w n segs d (loadSegments judge w (List.range' n segs.length) d []) := by
  induction segs generalizing n w with
  | nil => exact ⟨rfl, .inl ⟨by simp, rfl, rfl, noted_nil w n, by simp⟩⟩
  | cons s segs ih =>
    have hget := hd 0 s rfl
    rw [Nat.add_zero] at hget
    rw [List.length_cons, List.range'_succ, SegmentsLoaded]
    by_cases hfit : SegmentFits w.conf s
    · obtain ⟨w₁, bs, hnoted, hsize, hbatches, hdisk, hvalue⟩ := loadSegments_cons hget (hr s (by simp)) hfit
        (List.range' (n + 1) segs.length)
      have hconf : w₁.conf = w.conf := by rw [hnoted.same]
      obtain ⟨hdisk', hrest⟩ := ih (n + 1) w₁ (fun k t hk => by
        have := hd (k + 1) t (by simpa using hk)
        rwa [show n + 1 + k = n + (k + 1) by omega]) (fun t ht => hr t (by simp [ht]))
      rw [hconf] at hrest
      rw [hdisk, hvalue]
      refine ⟨hdisk', ?_⟩
      rcases hrest with ⟨hfit', hres', hbatches', hnoted', hsize'⟩ | ⟨hfit', hres'⟩
      · refine .inl ⟨by simpa using ⟨hfit, hfit'⟩, hres', ?_, hnoted.cons hnoted', fun t ht => ?_⟩
        · simp [hbatches, hbatches']
        · cases segs with
          | nil =>
            cases ht
            exact hsize rfl
          | cons s' segs => exact hsize' t (by simpa using ht)
      · exact .inr ⟨fun h => hfit' fun t ht => h t (by simp [ht]), hres'⟩
    · obtain ⟨hdisk, hone⟩ := loadSegment_spec (w := w) hget (hr s (by simp))
      have hres := (hone.resolve_left fun hgood => hfit hgood.1).2
      obtain ⟨hdisk', hvalue⟩ := loadSegments_stop (List.range' (n + 1) segs.length) (by rw [hres]; simp)
      rw [hdisk', hvalue]
      exact ⟨hdisk, .inr ⟨fun h => hfit (h s (by simp)), hres⟩⟩

theorem locate_eq_some {e i : ℕ} {segs : List (List Rec)} {n : ℕ} (h : locate e n segs = some i) :
    ∃ k s, segs[k]? = some s ∧ i = n + k ∧ ∃ r ∈ s, r.id = e := by
  induction segs generalizing n with
  | nil => simp [locate] at h
  | cons s segs ih =>
    rw [locate, Option.or_eq_some_iff] at h
    rcases h with h | ⟨-, h⟩
    · obtain ⟨k, t, hk, hi, hr⟩ := ih h
      exact ⟨k + 1, t, by simpa using hk, by omega, hr⟩
    · split_ifs at h with he
      cases h
      exact ⟨0, s, rfl, rfl, by simpa using he⟩

theorem locate_ne_none {e : ℕ} {segs : List (List Rec)} {n : ℕ} {s : List Rec} (hs : s ∈ segs)
    {r : Rec} (hr : r ∈ s) (he : r.id = e) : locate e n segs ≠ none := by
  induction segs generalizing n with
  | nil => simp at hs
  | cons t segs ih =>
    rw [locate, Ne, Option.or_eq_none_iff]
    rintro ⟨h₁, h₂⟩
    rcases List.mem_cons.mp hs with rfl | hs
    · have : e ∈ s.map Rec.id := List.mem_map.mpr ⟨r, hr, he⟩
      simp [this] at h₂
    · exact ih hs h₁

theorem WellFormed.locate_iff {l : Log} (h : WellFormed judge l) (e i : ℕ) :
    locate e l.first l.segments = some i ↔ ∃ s, l.seg i = some s ∧ ∃ r ∈ s, r.id = e := by
  have hseg : ∀ k s, l.segments[k]? = some s → l.seg (l.first + k) = some s := by
    intro k s hk
    rw [SegmentedLog.seg, if_neg (by omega), Nat.add_sub_cancel_left, hk]
  constructor
  · intro hl
    obtain ⟨k, s, hk, rfl, hr⟩ := locate_eq_some hl
    exact ⟨s, hseg k s hk, hr⟩
  · rintro ⟨s, hs, r, hr, he⟩
    have hmem : s ∈ l.segments := by
      unfold SegmentedLog.seg at hs
      split_ifs at hs
      exact List.mem_of_getElem? hs
    obtain ⟨j, hj⟩ := Option.ne_none_iff_exists'.mp (locate_ne_none (n := l.first) hmem hr he)
    obtain ⟨k, t, hk, rfl, r', hr', he'⟩ := locate_eq_some hj
    rw [hj, h.seg_unique hs (hseg k t hk) hr hr' (by omega)]

end Load

end FlyingKV.Wal
