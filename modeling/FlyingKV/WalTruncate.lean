import FlyingKV.WalAppend

set_option autoImplicit false

/-!
# `Truncate`

`Truncate` writes the entry id into the info file, removes whole segments from
the old end, and then either settles the two truncation files or, when there was
nothing to remove, leaves the info file behind.
-/
namespace FlyingKV.Wal
open ByteOrder CommonUtils DecimalText FileDir DiskProgram FileUtils FramedStream

/-! ## The id of the last entry of a segment file -/

theorem readZeroed_append (a b c : Bytes) : readZeroed (a ++ b ++ c) a.length b.length = b := by
  simp [readZeroed]

theorem segmentMaxEntryId_append (rs : List Rec) {r : Rec} (hid : r.id < 2 ^ 64)
    (hlt : (segmentBytes (rs ++ [r])).length < 2 ^ 32) :
    segmentMaxEntryId (segmentBytes (rs ++ [r])) = .ok r.id := by
  set a := segmentBytes rs with ha
  have hlen := length_segmentBytes_append rs r
  rw [← ha] at hlen
  have hcontent : r.content.length < 2 ^ 32 := by omega
  have hpos : a.length < 2 ^ 32 := by omega
  -- the file, split at the header, at the content and at the trailing position
  have hbytes : segmentBytes (rs ++ [r]) = a ++
      (writeUInt32 r.content.length ++ [r.version] ++ writeUInt64 r.id) ++
      (r.content ++ writeUInt32 a.length) := by
    rw [segmentBytes_append, ← ha, walRecord]
    simp only [List.append_assoc]
  have hhead : readZeroed (segmentBytes (rs ++ [r])) a.length entryHeaderLen =
      writeUInt32 r.content.length ++ [r.version] ++ writeUInt64 r.id := by
    rw [hbytes]
    exact readZeroed_append _ _ _
  have htail : readZeroed (segmentBytes (rs ++ [r])) (a.length + entryHeaderLen + r.content.length)
      startPosLen = writeUInt32 a.length := by
    have hsplit : segmentBytes (rs ++ [r]) = (a ++
        (writeUInt32 r.content.length ++ [r.version] ++ writeUInt64 r.id) ++ r.content) ++
        writeUInt32 a.length ++ [] := by
      rw [hbytes]
      simp only [List.append_assoc, List.append_nil]
    have hl : a.length + entryHeaderLen + r.content.length = (a ++
        (writeUInt32 r.content.length ++ [r.version] ++ writeUInt64 r.id) ++ r.content).length := by
      simp [entryHeaderLen]
      omega
    rw [hsplit, hl]
    exact readZeroed_append _ _ _
  have hread : ((segmentBytes (rs ++ [r])).drop a.length |>.take entryHeaderLen).length =
      entryHeaderLen := by
    rw [List.length_take, List.length_drop, hlen, entryHeaderLen, entryExtraFieldsSize]
    omega
  have hstart : (segmentBytes (rs ++ [r])).length - startPosLen =
      a.length + entryHeaderLen + r.content.length := by
    rw [hlen, startPosLen, entryExtraFieldsSize, entryHeaderLen]
    omega
  have hstartPos : readUInt32 (writeUInt32 a.length) = a.length := by
    rw [← List.append_nil (writeUInt32 a.length), readUInt32_append hpos]
  have hsize : readUInt32 (writeUInt32 r.content.length ++ [r.version] ++ writeUInt64 r.id) =
      r.content.length := by
    rw [List.append_assoc, readUInt32_append hcontent]
  have hentry : readUInt64
      ((writeUInt32 r.content.length ++ [r.version] ++ writeUInt64 r.id).drop 5) = r.id := by
    rw [List.drop_left' (by simp), ← List.append_nil (writeUInt64 r.id), readUInt64_append hid]
  have hge : ¬ (segmentBytes (rs ++ [r])).length < startPosLen := by
    rw [hlen, startPosLen, entryExtraFieldsSize]
    omega
  simp only [segmentMaxEntryId, if_neg hge, hstart, htail, hstartPos, hhead, hread, hsize, hentry, if_true]

/-! ## The removal loop -/

/-- The directory without the segments `i, …, i + n - 1`. -/
def unlinkFrom (d : WalDir) (i : ℕ) : ℕ → WalDir
  | 0 => d
  | n + 1 => (unlinkFrom d i n).unlink (.segment (i + n))

theorem unlinkFrom_head (d : WalDir) (i n : ℕ) :
    unlinkFrom (d.unlink (.segment i)) (i + 1) n = unlinkFrom d i (n + 1) := by
  induction n with
  | zero => rfl
  | succ n ih =>
    rw [unlinkFrom, ih, show i + 1 + n = i + (n + 1) by omega]
    rfl

theorem get_unlinkFrom (d : WalDir) (i n : ℕ) (f : WalFile) :
    (unlinkFrom d i n).get f = if inRange i (i + n) f then none else d.get f := by
  induction n generalizing i d with
  | zero =>
    rw [inRange_zero]
    rfl
  | succ n ih => rw [← unlinkFrom_head, ih, Dir.get_unlink, ite_inRange_succ]

theorem truncateLoop_missing {d : WalDir} {i n : ℕ}
    (h : ∀ j, i ≤ j → j < i + (n + 1) → d.get (.segment j) = none) :
    truncateLoop i (n + 1) d [] = ⟨[], d, [], .error (fileSystemError ENOENT)⟩ := by
  induction n generalizing i with
  | zero =>
    simp only [truncateLoop, loadSegmentMaxEntryId, bind_run, query_run, readSegment,
      h i le_rfl (by omega), pure_run]
    rfl
  | succ n ih =>
    have hi := unlink_run (WalFile.segment i) d
    rw [if_neg (by simp [Dir.exist, h i le_rfl (by omega)])] at hi
    simp only [truncateLoop, bind_run, hi]
    rw [ih fun j h₁ h₂ => h j (by omega) (by omega)]
    rfl

theorem truncateLoop_skip {d : WalDir} {i m n : ℕ}
    (h : ∀ j, i ≤ j → j < i + m → d.get (.segment j) = none) :
    truncateLoop i (m + (n + 1)) d [] = truncateLoop (i + m) (n + 1) d [] := by
  induction m generalizing i with
  | zero => rw [Nat.zero_add]; rfl
  | succ m ih =>
    have hi := unlink_run (WalFile.segment i) d
    rw [if_neg (by simp [Dir.exist, h i le_rfl (by omega)])] at hi
    rw [show m + 1 + (n + 1) = (m + n) + 2 by omega]
    simp only [truncateLoop, bind_run, hi]
    rw [show m + n + 1 = m + (n + 1) by omega, ih fun j h₁ h₂ => h j (by omega) (by omega),
      show i + 1 + m = i + (m + 1) by omega]
    rfl

theorem truncateLoop_present {d : WalDir} {i n id : ℕ} {bs : Bytes}
    (h : ∀ j, i ≤ j → j < i + (n + 1) → d.get (.segment j) ≠ none)
    (hlast : d.get (.segment (i + n)) = some bs) (hid : segmentMaxEntryId bs = .ok id) :
    truncateLoop i (n + 1) d [] =
      ⟨(List.range (n + 1)).map (fun k => unlinkFrom d i (k + 1)), unlinkFrom d i (n + 1), [],
        .ok id⟩ := by
  induction n generalizing i d with
  | zero =>
    have hi := unlink_run (WalFile.segment i) d
    rw [if_pos ((exist_iff d _).mpr (h i le_rfl (by omega)))] at hi
    rw [Nat.add_zero] at hlast
    simp only [truncateLoop, loadSegmentMaxEntryId, bind_run, query_run, readSegment, hlast,
      pure_run, hid, hi]
    rfl
  | succ n ih =>
    have hi := unlink_run (WalFile.segment i) d
    rw [if_pos ((exist_iff d _).mpr (h i le_rfl (by omega)))] at hi
    have hne : ∀ j, i + 1 ≤ j → (d.unlink (.segment i)).get (.segment j) = d.get (.segment j) :=
      fun j hj => d.get_unlink_ne (by simp; omega)
    simp only [truncateLoop, bind_run, hi]
    rw [ih (fun j h₁ h₂ => by rw [hne j h₁]; exact h j (by omega) (by omega))
      (by rw [hne _ (by omega), show i + 1 + n = i + (n + 1) by omega]; exact hlast)]
    simp only [unlinkFrom_head]
    rw [List.range_succ_eq_map (n := n + 1), List.map_cons, List.map_map]
    rfl

/-! ## The segments that are kept -/

/-- The segment of the newest entry. -/
def lastFilled (l : Log) : ℕ := if l.tail = [] then l.current - 1 else l.current

/-- The first segment that truncating at an entry of segment `i` keeps. -/
def keptFrom (l : Log) (i : ℕ) : ℕ := if i = lastFilled l then i else i + 1

section
variable {l : Log} {i : ℕ} {s : List Rec} {r : Rec}

theorem lastFilled_le_current (l : Log) : lastFilled l ≤ l.current := by
  unfold lastFilled
  split_ifs <;> omega

theorem le_lastFilled (hs : l.seg i = some s) (hr : r ∈ s) : i ≤ lastFilled l := by
  obtain ⟨-, hi⟩ := SegmentedLog.seg_bounds hs
  unfold lastFilled
  split_ifs with ht
  · by_contra hlt
    have hic : i = l.current := by omega
    rw [hic, SegmentedLog.seg_current, ht] at hs
    cases hs
    simp at hr
  · exact hi

theorem keptFrom_bounds (hs : l.seg i = some s) (hr : r ∈ s) :
    l.first ≤ keptFrom l i ∧ keptFrom l i ≤ lastFilled l ∧ lastFilled l ≤ l.current := by
  obtain ⟨hfirst, -⟩ := SegmentedLog.seg_bounds hs
  have hfill := le_lastFilled hs hr
  refine ⟨?_, ?_, lastFilled_le_current l⟩
  · unfold keptFrom
    split_ifs <;> omega
  · unfold keptFrom
    split_ifs <;> omega

theorem maxTruncateSegId_eq (hfirst : 1 ≤ l.first) (hcur : l.current < ulongMax)
    (hs : l.seg i = some s) (hr : r ∈ s) :
    ∃ next, l.seg (((if i = l.current then pred64 i else i) + 1) % 2 ^ 64) = some next ∧
      (if (segmentBytes next).length = magicNoLen then
        pred64 (if i = l.current then pred64 i else i) else if i = l.current then pred64 i else i) =
        keptFrom l i - 1 := by
  obtain ⟨h₁, h₂⟩ := SegmentedLog.seg_bounds hs
  have hmax : ulongMax < 2 ^ 64 := by decide
  have hp : pred64 i = i - 1 := pred64_of_pos (by omega) (by omega)
  simp only [length_segmentBytes_eq_magic, hp]
  by_cases hi : i = l.current
  · have ht : l.tail ≠ [] := by
      rw [hi, SegmentedLog.seg_current] at hs
      cases hs
      exact List.ne_nil_of_mem hr
    refine ⟨l.tail, ?_, ?_⟩
    · rw [if_pos hi, show i - 1 + 1 = i by omega, Nat.mod_eq_of_lt (by omega), hi,
        SegmentedLog.seg_current]
    · rw [if_neg ht, if_pos hi, keptFrom, lastFilled, if_neg ht, if_pos hi]
  · simp only [if_neg hi, hp]
    obtain ⟨next, hnext⟩ := SegmentedLog.seg_isSome_iff (l := l) (i := i + 1) |>.mpr ⟨by omega, by omega⟩
    refine ⟨next, by rw [Nat.mod_eq_of_lt (by omega), hnext], ?_⟩
    by_cases hn : i + 1 = l.current
    · rw [hn, SegmentedLog.seg_current] at hnext
      cases hnext
      unfold keptFrom lastFilled
      split_ifs <;> omega
    · rw [if_neg (SegmentedLog.seg_ne_nil hnext (by omega))]
      unfold keptFrom lastFilled
      split_ifs <;> omega

end

/-! ## The outcomes of `Truncate` -/

/-- The directory once the info file is written. -/
def infoDir (d : WalDir) (id : ℕ) : WalDir :=
  writeDir .truncMeta 0 (CommonUtils.toString id) (d.put .truncMeta [])

theorem get_infoDir (d : WalDir) (id : ℕ) (f : WalFile) :
    (infoDir d id).get f = if f = .truncMeta then some (CommonUtils.toString id) else d.get f := by
  simp only [infoDir, writeDir, Dir.get_put_self, Dir.get_put]
  split_ifs <;> simp [writeAt]

theorem createTruncInfo_run (d : WalDir) (id : ℕ) :
    createTruncInfo id d [] = ⟨[d.put .truncMeta [], infoDir d id], infoDir d id, [], .ok⟩ := rfl

/-- The three directories that settle a truncation after the segments are gone. -/
def settleDirs (d : WalDir) : List WalDir :=
  [d.put .truncOk [], (d.put .truncOk []).unlink .truncMeta,
    ((d.put .truncOk []).unlink .truncMeta).unlink .truncOk]

section
variable {judge : Judge} {w : LogCleanWal} {d : WalDir} {l : Log} {v : ℕ}
variable {id i : ℕ} {s : List Rec} {r : Rec}

theorem truncate_missing (h : Ready judge w d l v) (hid : w.mpEntriesIdSegId id = none) :
    truncate w id d [] =
      ⟨[], d, [], w, .returned ⟨.InvalidEntryId, invalidEntryIdError⟩⟩ := by
  simp only [truncate, h.inited, h.loaded, Bool.not_true, Bool.false_eq_true, if_false, hid, pure_run]

theorem truncate_run (h : Ready judge w d l v) (hid : w.mpEntriesIdSegId id = some i) :
    truncate w id d [] =
      ⟨[d.put .truncMeta [], infoDir d id] ++ (truncateSegments w i (infoDir d id) []).images,
        (truncateSegments w i (infoDir d id) []).disk, (truncateSegments w i (infoDir d id) []).faults,
        (truncateSegments w i (infoDir d id) []).value⟩ := by
  simp only [truncate, h.inited, h.loaded, Bool.not_true, Bool.false_eq_true, hid, bind_run,
    createTruncInfo_run, WalResult.ok, ne_eq, not_true_eq_false, if_false]
  rfl

theorem truncateSegments_run (h : Ready judge w d l v) (hs : l.seg i = some s) (hr : r ∈ s) (id : ℕ) :
    truncateSegments w i (infoDir d id) [] =
      (truncateLoop w.minSegmentId (keptFrom l i - w.minSegmentId) >>=
        truncateEnd w (keptFrom l i - 1)) (infoDir d id) [] := by
  obtain ⟨next, hnext, hmax⟩ := maxTruncateSegId_eq h.wf.first_pos h.wf.current_lt hs hr
  have hkept := (keptFrom_bounds hs hr).1
  have hfirst := h.wf.first_pos
  have hread : readSegment (((if i = l.current then pred64 i else i) + 1) % 2 ^ 64) (infoDir d id) =
      .ok (segmentBytes next) := by
    rw [readSegment, get_infoDir, if_neg (by simp), h.holds.get hnext]
  rw [← h.current] at hread hmax
  simp only [truncateSegments, bind_run, query_run, hread, hmax,
    show keptFrom l i - 1 + 1 = keptFrom l i by omega]
  rfl

theorem truncate_noop (h : Ready judge w d l v) (hs : l.seg i = some s) (hr : r ∈ s) (hid : r.id = id)
    (hk : keptFrom l i ≤ w.minSegmentId) :
    truncate w id d [] = ⟨[d.put .truncMeta [], infoDir d id], infoDir d id, [],
      { w with minSegmentId := minEntryId }, .returned .ok⟩ := by
  rw [truncate_run h ((h.index id i).mpr ⟨s, hs, r, hr, hid⟩), truncateSegments_run h hs hr,
    show keptFrom l i - w.minSegmentId = 0 by omega]
  rfl

theorem truncate_stuck (h : Ready judge w d l v) (hs : l.seg i = some s) (hr : r ∈ s) (hid : r.id = id)
    (hk : w.minSegmentId < keptFrom l i) (hfirst : keptFrom l i = l.first) :
    truncate w id d [] = ⟨[d.put .truncMeta [], infoDir d id], infoDir d id, [],
      w, .returned (fileSystemError ENOENT)⟩ := by
  obtain ⟨n, hn⟩ := Nat.exists_eq_add_of_lt hk
  have hloop := truncateLoop_missing (d := infoDir d id) (i := w.minSegmentId) (n := n) (fun j _ hj => by
    rw [get_infoDir, if_neg (by simp)]
    exact h.holds.get_none (.inl (by omega)))
  rw [truncate_run h ((h.index id i).mpr ⟨s, hs, r, hr, hid⟩), truncateSegments_run h hs hr,
    show keptFrom l i - w.minSegmentId = n + 1 by omega]
  simp only [bind_run, hloop]
  rfl

theorem truncateCleaned_run {w : LogCleanWal} {d : WalDir} {m c : ℕ} (hc : c ≠ ulongMax)
    (hok : d.get .truncOk = none) (bs : Bytes) (hinfo : d.get .truncMeta = some bs) :
    truncateCleaned w m c d [] = ⟨settleDirs d, ((d.put .truncOk []).unlink .truncMeta).unlink .truncOk,
      [], { w with
        mpEntriesIdSegId := eraseIds w.mpEntriesIdSegId w.lastTruncMaxIdx (c + 1 - w.lastTruncMaxIdx)
        lastTruncMaxIdx := c + 1
        minSegmentId := (m + 1) % 2 ^ 64 }, .returned .ok⟩ := by
  have hflag : createTruncOkFlag d [] = ⟨[d.put .truncOk []], d.put .truncOk [], [], .ok⟩ := by
    simp only [createTruncOkFlag, bind_run, openCreate_run, if_neg
      (show ¬ d.exist .truncOk = true by simp [Dir.exist, hok]), syscall_run, pure_run]
    rfl
  have h₁ := unlink_run WalFile.truncMeta (d.put .truncOk [])
  rw [if_pos (exist_of_get (by rw [Dir.get_put_ne _ _ (by simp), hinfo]))] at h₁
  have h₂ := unlink_run WalFile.truncOk ((d.put .truncOk []).unlink .truncMeta)
  rw [if_pos (exist_of_get (by rw [Dir.get_unlink_ne _ (by simp), Dir.get_put_self]))] at h₂
  simp only [truncateCleaned, if_neg hc, bind_run, hflag, WalResult.ok, ne_eq, not_true_eq_false,
    if_false, cleanTruncStatus, h₁, h₂, pure_run]
  rfl

/-- The object after a truncation that removed the segments before `k`, with `c` the last id in
them. -/
def truncated (w : LogCleanWal) (k c : ℕ) : LogCleanWal :=
  { w with
    mpEntriesIdSegId := eraseIds w.mpEntriesIdSegId w.lastTruncMaxIdx (c + 1 - w.lastTruncMaxIdx)
    lastTruncMaxIdx := c + 1
    minSegmentId := k }

/-- The directory once the segments before `k` are gone and the info file is still there. -/
def cutDir (d : WalDir) (l : Log) (id k : ℕ) : WalDir :=
  unlinkFrom (infoDir d id) l.first (k - l.first)

theorem truncate_effective (h : Ready judge w d l v) (hs : l.seg i = some s) (hr : r ∈ s) (hid : r.id = id)
    (hk : l.first < keptFrom l i) :
    ∃ t c, l.seg (keptFrom l i - 1) = some (t ++ [c]) ∧
      truncate w id d [] = ⟨[d.put .truncMeta [], infoDir d id] ++
        ((List.range (keptFrom l i - l.first)).map
          (fun k => unlinkFrom (infoDir d id) l.first (k + 1)) ++
          settleDirs (cutDir d l id (keptFrom l i))),
        (((cutDir d l id (keptFrom l i)).put .truncOk []).unlink .truncMeta).unlink .truncOk, [],
        truncated w (keptFrom l i) c.id, .returned .ok⟩ := by
  obtain ⟨-, hkl, hlc⟩ := keptFrom_bounds hs hr
  have hfirst := h.wf.first_pos
  have hcur := h.wf.current_lt
  obtain ⟨u, hu⟩ := (SegmentedLog.seg_isSome_iff (l := l) (i := keptFrom l i - 1)).mpr
    ⟨by omega, by omega⟩
  have hune : u ≠ [] := SegmentedLog.seg_ne_nil hu (by omega)
  obtain ⟨t, c, rfl⟩ := (List.eq_nil_or_concat u).resolve_left hune
  rw [List.concat_eq_append] at hu
  refine ⟨t, c, hu, ?_⟩
  have hc := h.wf.ids c (SegmentedLog.mem_entries_iff.mpr ⟨_, _, hu, by simp⟩)
  have hmax := segmentMaxEntryId_append t (lt_trans hc.2 (by decide))
    (h.wf.size_lt _ _ hu)
  have hseg : ∀ j, (infoDir d id).get (.segment j) = d.get (.segment j) := fun j => by
    rw [get_infoDir, if_neg (by simp)]
  obtain ⟨n, hn⟩ := Nat.exists_eq_add_of_lt hk
  have hpresent := truncateLoop_present (d := infoDir d id) (i := l.first) (n := n)
    (fun j h₁ h₂ => by
      obtain ⟨x, hx⟩ := (SegmentedLog.seg_isSome_iff (l := l) (i := j)).mpr ⟨h₁, by omega⟩
      rw [hseg, h.holds.get hx]
      simp)
    (by rw [hseg, show l.first + n = keptFrom l i - 1 by omega, h.holds.get hu]) hmax
  have hloop : truncateLoop w.minSegmentId (keptFrom l i - w.minSegmentId) (infoDir d id) [] =
      truncateLoop l.first (n + 1) (infoDir d id) [] := by
    rcases h.min with hm | hm
    · rw [hm, show keptFrom l i - l.first = n + 1 by omega]
    · have hskip := truncateLoop_skip (d := infoDir d id) (i := w.minSegmentId)
        (m := l.first - w.minSegmentId) (n := n) (fun j _ hj => by
          rw [hseg]
          exact h.holds.get_none (.inl (by omega)))
      rwa [show l.first - w.minSegmentId + (n + 1) = keptFrom l i - w.minSegmentId by omega,
        show w.minSegmentId + (l.first - w.minSegmentId) = l.first by omega] at hskip
  have hlen : keptFrom l i - l.first = n + 1 := by omega
  have hclean := truncateCleaned_run (w := w) (d := cutDir d l id (keptFrom l i))
    (m := keptFrom l i - 1) (c := c.id) (by omega)
    (by rw [cutDir, get_unlinkFrom, get_infoDir]; simpa [inRange] using h.flag)
    (CommonUtils.toString id) (by rw [cutDir, get_unlinkFrom, get_infoDir]; simp [inRange])
  have hmod : (keptFrom l i - 1 + 1) % 2 ^ 64 = keptFrom l i := by
    rw [show keptFrom l i - 1 + 1 = keptFrom l i by omega]
    exact Nat.mod_eq_of_lt (lt_trans (by omega : keptFrom l i < ulongMax) (by decide))
  rw [hmod] at hclean
  rw [truncate_run h ((h.index id i).mpr ⟨s, hs, r, hr, hid⟩), truncateSegments_run h hs hr]
  rw [cutDir, hlen] at hclean ⊢
  simp only [bind_run, hloop, hpresent, truncateEnd, if_neg
    (show ¬ c.id = invalidEntryId by unfold invalidEntryId; omega), hclean]
  rfl

end

end FlyingKV.Wal
