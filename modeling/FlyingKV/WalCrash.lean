import FlyingKV.WalTruncateScope

set_option autoImplicit false

/-!
# Crashes inside `Truncate`

A crash leaves the directory as it is after some of the mutations of `Truncate`.
The next `Init` acts on the number it finds in the info file, which is the entry
id from the moment it is written until the OK flag stands beside it.
-/
namespace FlyingKV.Wal
open DecimalText FileDir DiskProgram FramedStream

/-- The first segment that truncating at an entry of segment `i` keeps. -/
def firstKept (s : WalSystem) (i : ℕ) : ℕ :=
  if s.wal.mpEntriesIdSegId s.wal.currentEntryIdx = some i then i else i + 1

/-- How many segment files lie before segment `k`. -/
def segmentsBefore (d : WalDir) (k : ℕ) : ℕ := (listSegmentsAsc d).countP (· < k)

/-- The number that the next `Init` finds after the first `p` mutations of truncating at `id`, when
`n` segments are to be removed: what stood there before; nothing while the file is empty; the
entry id from then on, until after the last removal the OK flag is there. Without a removal there
is no OK flag. -/
def crashBound (pending id n p : ℕ) : ℕ :=
  if p = 0 then pending else if p = 1 then 0 else if p ≤ 2 + n ∨ n = 0 then id else 0

/-- After a crash behind the first `p` mutations of `Truncate`, the next restart works and delivers
every entry of every segment that the whole `Truncate` keeps, and its `Init` removes no other
segments than `Truncate` does. -/
structure CrashSafe (judge : Judge) (errno : ℕ) (conf : LogCleanWalConfig)
    (s : WalSystem) (id p : ℕ) : Prop where
  result : (reopen judge errno conf (crashAt (truncate s.wal id) s.dir p) []).value.result = .returned .ok
  kept : ∀ i ∈ listSegmentsAsc (truncate s.wal id s.dir []).disk,
    ∀ e ∈ (loadSegment judge (create conf) i (truncate s.wal id s.dir []).disk []).value.batches.flatten,
      e ∈ delivered judge errno conf (crashAt (truncate s.wal id) s.dir p)
  spared : ∀ i, (crashAt (truncate s.wal id) s.dir p).get (.segment i) ≠ none →
    (reopen judge errno conf (crashAt (truncate s.wal id) s.dir p) []).disk.get (.segment i) = none →
    (truncate s.wal id s.dir []).disk.get (.segment i) = none

section
variable {judge : Judge} {l : Log}

theorem Ready.firstKept_eq {s : WalSystem} {v i : ℕ} (h : Ready judge s.wal s.dir l v)
    (hne : l.entries ≠ []) : firstKept s i = keptFrom l i := by
  rw [firstKept, h.newest_index hne, keptFrom]
  simp only [Option.some.injEq, eq_comm]

theorem Holds.segmentsBefore {d : WalDir} (h : Holds d l) {k : ℕ} (h₁ : l.first ≤ k)
    (h₂ : k ≤ l.current) : segmentsBefore d k = k - l.first := by
  have hsplit : List.range' l.first (l.closed.length + 1) =
      List.range' l.first (k - l.first) ++ List.range' k (l.current + 1 - k) := by
    have happ : List.range' l.first (k - l.first) ++
        List.range' (l.first + 1 * (k - l.first)) (l.current + 1 - k) =
          List.range' l.first (k - l.first + (l.current + 1 - k)) := List.range'_append
    rw [show l.first + 1 * (k - l.first) = k by omega] at happ
    rw [happ]
    congr 1
    unfold SegmentedLog.current at h₂ ⊢
    omega
  rw [Wal.segmentsBefore, h.listSegmentsAsc, hsplit, List.countP_append,
    List.countP_eq_length.mpr (fun a ha => by
      rw [List.mem_range'_1] at ha
      simp only [decide_eq_true_eq]
      omega),
    List.countP_eq_zero.mpr (fun a ha => by
      rw [List.mem_range'_1] at ha
      simp only [decide_eq_true_eq]
      omega), List.length_range', Nat.add_zero]

/-- A crashed directory: it holds the log without some of the segments before `k`, and `c` is the
number that the next `Init` acts on. -/
structure CrashImage (l : Log) (k errno c : ℕ) (d : WalDir) : Prop where
  holds : ∃ b, b < k ∧ Holds d (l.dropThrough b)
  bound : getUncompletedTruncSegmentsMaxId errno d = c

theorem CrashImage.of_holds {k errno c : ℕ} {d : WalDir} (hfirst : 1 ≤ l.first) (hk : l.first ≤ k)
    (h : Holds d l) (hc : getUncompletedTruncSegmentsMaxId errno d = c) : CrashImage l k errno c d :=
  ⟨⟨0, by omega, by rwa [SegmentedLog.dropThrough_of_lt (by omega)]⟩, hc⟩

theorem mem_recover_dropThrough {b c : ℕ} (hb : b < l.current) {r : Rec} :
    r ∈ (recover (l.dropThrough b) c).entries ↔ ∃ j t, b < j ∧ c < j ∧ l.seg j = some t ∧ r ∈ t := by
  rw [mem_recover]
  simp only [SegmentedLog.seg_dropThrough hb]
  constructor
  · rintro ⟨j, t, hj, ht, hr⟩
    split_ifs at ht with hjb
    exact ⟨j, t, by omega, hj, ht, hr⟩
  · rintro ⟨j, t, hjb, hj, ht, hr⟩
    exact ⟨j, t, hj, by rw [if_neg (by omega), ht], hr⟩

/-- A segment that a truncation kept is still on the disk, and is read as before. -/
theorem loadSegment_kept (hwf : WellFormed judge l) {conf : LogCleanWalConfig} (hf : LogFits conf l)
    {d : WalDir} {b j : ℕ} {t : List Rec} (hb : b < l.current) (hd : Holds d (l.dropThrough b))
    (hj : b < j) (ht : l.seg j = some t) :
    j ∈ listSegmentsAsc d ∧
      (loadSegment judge (create conf) j d []).value.batches.flatten = t.map Rec.entry := by
  have hget := hd.get (by rw [SegmentedLog.seg_dropThrough hb, if_neg (by omega), ht] :
    (l.dropThrough b).seg j = some t)
  refine ⟨(mem_listSegmentsAsc _ j).mpr (by rw [hget]; simp), ?_⟩
  rcases (loadSegment_spec (w := create conf) hget (hwf.readable ht)).2 with ⟨-, -, -, hr, -⟩ | ⟨hno, -⟩
  · exact hr
  · exact absurd (hf j t ht) hno

/-- The next restart after a crash is safe exactly when the number it finds is below the first
segment to keep. -/
theorem CrashImage.safe_iff (hwf : WellFormed judge l) {conf : LogCleanWalConfig} (hf : LogFits conf l)
    {s : WalSystem} {id p k errno c : ℕ} (hk : l.first ≤ k) (hlast : k ≤ lastFilled l)
    (hc : c < ulongMax) (hd : CrashImage l k errno c (crashAt (truncate s.wal id) s.dir p))
    (hfinal : Holds (truncate s.wal id s.dir []).disk (l.dropThrough (k - 1))) :
    CrashSafe judge errno conf s id p ↔ c < k := by
  obtain ⟨⟨b, hb, hholds⟩, hbound⟩ := hd
  have hfirst := hwf.first_pos
  have hcur := lastFilled_le_current l
  have hbc : b < l.current := by omega
  have hwf' := hwf.dropThrough hbc
  have hf' : LogFits conf (l.dropThrough b) := hf.dropThrough hbc
  obtain ⟨-, ho⟩ := (reopen_holds errno conf hwf' hholds hbound hc).resolve_right
    (fun hno => hno.1 (hf'.loads c))
  -- what is delivered, and what the final directory keeps
  have hdel : delivered judge errno conf (crashAt (truncate s.wal id) s.dir p) =
      (recover (l.dropThrough b) c).entries.map Rec.entry := ho.batches
  have hread {j : ℕ} {t : List Rec} (hj : k ≤ j) (ht : l.seg j = some t) :=
    loadSegment_kept hwf hf (by omega) hfinal (show k - 1 < j by omega) ht
  constructor
  · intro hsafe
    by_contra hck
    -- segment `k` is kept and not empty, but its entries are not delivered
    obtain ⟨t, ht⟩ := (SegmentedLog.seg_isSome_iff (l := l) (i := k)).mpr ⟨hk, by omega⟩
    obtain ⟨r, hr⟩ := List.exists_mem_of_ne_nil t (seg_ne_nil_of_le_lastFilled hfirst ht hlast)
    obtain ⟨hlisted, hflat⟩ := hread le_rfl ht
    have hdr := hsafe.kept k hlisted r.entry (by rw [hflat]; exact List.mem_map_of_mem hr)
    rw [hdel] at hdr
    obtain ⟨r', hr', he⟩ := List.mem_map.mp hdr
    obtain ⟨j, u, -, hj, hu, hru⟩ := (mem_recover_dropThrough hbc).mp hr'
    have := hwf.seg_unique ht hu hr hru (congrArg WalEntry.id he).symm
    omega
  · intro hck
    have hrec : recover (l.dropThrough b) c = (l.dropThrough b).dropThrough c :=
      if_pos (by rw [SegmentedLog.current_dropThrough hbc]; omega)
    refine ⟨ho.result, ?_, ?_⟩
    · intro j hj e he
      rw [mem_listSegmentsAsc, hfinal j, Ne, Option.map_eq_none_iff,
        SegmentedLog.seg_dropThrough (by omega)] at hj
      have hjk : k ≤ j := by
        by_contra hlt
        exact hj (if_pos (by omega))
      rw [if_neg (by omega)] at hj
      obtain ⟨t, ht⟩ := Option.ne_none_iff_exists'.mp hj
      rw [(hread hjk ht).2] at he
      obtain ⟨r, hr, rfl⟩ := List.mem_map.mp he
      rw [hdel]
      exact List.mem_map_of_mem ((mem_recover_dropThrough hbc).mpr ⟨j, t, by omega, by omega, ht, hr⟩)
    · intro j hj hgone
      have hh := ho.ready.holds
      rw [hrec] at hh
      rw [hholds j, Ne, Option.map_eq_none_iff] at hj
      rw [hh j, SegmentedLog.seg_dropThrough (by rw [SegmentedLog.current_dropThrough hbc]; omega),
        Option.map_eq_none_iff] at hgone
      have hjc : j ≤ c := by
        by_contra hlt
        rw [if_neg hlt] at hgone
        exact hj hgone
      rw [hfinal j, SegmentedLog.seg_dropThrough (by omega), if_pos (by omega), Option.map_none]

/-! ## The images -/

variable {w : LogCleanWal} {d : WalDir} {v id k errno : ℕ}

theorem crashImage_before (h : Ready judge w d l v) (hk : l.first ≤ k) :
    CrashImage l k errno v d :=
  .of_holds h.wf.first_pos hk h.holds (h.bound errno)

theorem crashImage_opened (h : Ready judge w d l v) (hk : l.first ≤ k) :
    CrashImage l k errno 0 (d.put .truncMeta []) := by
  refine .of_holds h.wf.first_pos hk (fun i => ?_) (bound_of_empty errno (Dir.get_put_self _ _ _))
  rw [Dir.get_put_ne _ _ (by simp)]
  exact h.holds i

theorem crashImage_info (h : Ready judge w d l v) (h0 : 0 < id) (hlt : id < ulongMax)
    (hk : l.first ≤ k) : CrashImage l k errno id (infoDir d id) :=
  crashImage_before (h.infoDir id h0 hlt) hk

theorem crashImage_unlinked (h : Ready judge w d l v) (h0 : 0 < id) (hlt : id < ulongMax)
    {n : ℕ} (hn : 0 < n) (hnk : l.first + n ≤ k) (hkc : k ≤ l.current) :
    CrashImage l k errno id (unlinkFrom (infoDir d id) l.first n) where
  holds := ⟨l.first + n - 1, by omega,
    h.holds.unlinkFrom id n (by unfold SegmentedLog.current at hkc; omega) hn⟩
  bound := by
    refine bound_of_info errno ?_ ?_ h0 hlt
    · rw [get_unlinkFrom, get_infoDir]
      simpa [inRange] using h.flag
    · rw [get_unlinkFrom, get_infoDir]
      simp [inRange]

/-- Once the segments are gone, none of the settling steps leaves a number to act on. -/
theorem crashImage_settle (id : ℕ) (h : Ready judge w d l v) (hk : l.first < k) (hkc : k ≤ l.current)
    {e : WalDir} (he : e ∈ settleDirs (cutDir d l id k)) : CrashImage l k errno 0 e := by
  have hholds : Holds (cutDir d l id k) (l.dropThrough (k - 1)) := by
    have hh := h.holds.unlinkFrom id (k - l.first)
      (by unfold SegmentedLog.current at hkc; omega) (by omega)
    rwa [show l.first + (k - l.first) - 1 = k - 1 by omega] at hh
  simp only [settleDirs, List.mem_cons, List.not_mem_nil, or_false] at he
  have hbk : k - 1 < k := by omega
  rcases he with rfl | rfl | rfl
  · refine ⟨⟨k - 1, hbk, fun i => ?_⟩, bound_of_flag errno (by simp)⟩
    rw [Dir.get_put_ne _ _ (by simp)]
    exact hholds i
  · refine ⟨⟨k - 1, hbk, fun i => ?_⟩, bound_of_flag errno ?_⟩
    · rw [Dir.get_unlink_ne _ (by simp), Dir.get_put_ne _ _ (by simp)]
      exact hholds i
    · simp [Dir.get_unlink_ne]
  · refine ⟨⟨k - 1, hbk, fun i => ?_⟩, bound_of_no_info errno ?_⟩
    · rw [Dir.get_unlink_ne _ (by simp), Dir.get_unlink_ne _ (by simp), Dir.get_put_ne _ _ (by simp)]
      exact hholds i
    · rw [Dir.get_unlink_ne _ (by simp), Dir.get_unlink_self]

/-- Every crash image of truncating at a held id. -/
theorem truncate_crashImage {s : WalSystem} (h : Ready judge s.wal s.dir l v) {i : ℕ} {t : List Rec}
    {a : Rec} (ht : l.seg i = some t) (ha : a ∈ t) (hid : a.id = id) (errno p : ℕ) :
    CrashImage l (keptFrom l i) errno (crashBound v id (keptFrom l i - l.first) p)
      (crashAt (truncate s.wal id) s.dir p) := by
  obtain ⟨hk₁, hk₂, hk₃⟩ := keptFrom_bounds ht ha
  have hids := h.wf.ids a (SegmentedLog.mem_entries_iff.mpr ⟨i, t, ht, ha⟩)
  have h0 : 0 < id := by omega
  have hlt : id < ulongMax := by omega
  rcases Nat.eq_or_lt_of_le hk₁ with hk | hk
  · -- nothing is removed: the two images of the info file
    have hrun : (truncate s.wal id s.dir []).images = [s.dir.put .truncMeta [], infoDir s.dir id] ∧
        (truncate s.wal id s.dir []).disk = infoDir s.dir id := by
      rcases Nat.lt_or_ge s.wal.minSegmentId l.first with hm | hm
      · rw [truncate_stuck h ht ha hid (by omega) hk.symm]
        exact ⟨rfl, rfl⟩
      · rw [truncate_noop h ht ha hid (by omega)]
        exact ⟨rfl, rfl⟩
    rw [← hk, Nat.sub_self]
    match p with
    | 0 => exact crashImage_before h le_rfl
    | 1 =>
      rw [crashAt, hrun.1]
      exact crashImage_opened h le_rfl
    | 2 =>
      rw [crashAt, hrun.1]
      exact crashImage_info h h0 hlt le_rfl
    | p + 3 =>
      have hb : crashBound v id 0 (p + 3) = id := by simp [crashBound]
      rw [crashAt, hrun.1, hrun.2, hb]
      exact crashImage_info h h0 hlt le_rfl
  · obtain ⟨u, c, hu, hrun⟩ := truncate_effective h ht ha hid hk
    match p with
    | 0 => exact crashImage_before h hk₁
    | 1 =>
      rw [crashAt, hrun]
      exact crashImage_opened h hk₁
    | 2 =>
      have hb : crashBound v id (keptFrom l i - l.first) 2 = id := by simp [crashBound]
      rw [crashAt, hrun, hb]
      exact crashImage_info h h0 hlt hk₁
    | p + 3 =>
      rw [crashAt, hrun]
      simp only [List.cons_append, List.nil_append, List.getElem?_cons_succ]
      by_cases hp : p < keptFrom l i - l.first
      · have hb : crashBound v id (keptFrom l i - l.first) (p + 3) = id := by
          rw [crashBound, if_neg (by omega), if_neg (by omega), if_pos (by omega)]
        rw [List.getElem?_append_left (by simpa using hp), List.getElem?_map, hb,
          List.getElem?_range hp]
        exact crashImage_unlinked h h0 hlt (by omega) (by omega) (by omega)
      · have hb : crashBound v id (keptFrom l i - l.first) (p + 3) = 0 := by
          rw [crashBound, if_neg (by omega), if_neg (by omega), if_neg (by omega)]
        rw [List.getElem?_append_right (by simpa using Nat.le_of_not_lt hp), hb]
        refine crashImage_settle id h hk (by omega) ?_
        cases hg : (settleDirs (cutDir s.dir l id (keptFrom l i)))[p -
            ((List.range (keptFrom l i - l.first)).map
              (fun k => unlinkFrom (infoDir s.dir id) l.first (k + 1))).length]? with
        | none => simp [settleDirs]
        | some e => exact List.mem_of_getElem? hg

/-- In every state of a history, at every crash point of truncating at a held id: recovery is safe
if and only if the number it finds is below the first segment to keep. -/
theorem truncate_crash_safe_iff {errno₀ : ℕ} {conf₀ : LogCleanWalConfig} {es : List WalEvent}
    {s : WalSystem} {rs : List WalReply} (hP : AlongHistory judge errno₀ conf₀ (Admits judge) es)
    (hrun : walHistory judge errno₀ conf₀ es = some (s, rs)) {id i : ℕ}
    (hid : s.wal.mpEntriesIdSegId id = some i) {conf : LogCleanWalConfig}
    (hload : Loadable judge conf s.dir) (errno p : ℕ) :
    CrashSafe judge errno conf s id p ↔
      crashBound (getUncompletedTruncSegmentsMaxId errno s.dir) id
        (segmentsBefore s.dir (firstKept s i)) p < firstKept s i := by
  obtain ⟨l, v, h, -⟩ := ready_of_history hP hrun
  obtain ⟨t, ht, a, ha, hae⟩ := (h.index id i).mp hid
  obtain ⟨hk₁, hk₂, hk₃⟩ := keptFrom_bounds ht ha
  have hids := h.wf.ids a (SegmentedLog.mem_entries_iff.mpr ⟨i, t, ht, ha⟩)
  have hfirst := h.wf.first_pos
  have hpending := h.pending_lt
  rw [h.firstKept_eq (List.ne_nil_of_mem (SegmentedLog.mem_entries_iff.mpr ⟨i, t, ht, ha⟩)),
    h.holds.segmentsBefore hk₁ (by omega), h.bound errno]
  refine CrashImage.safe_iff h.wf (logFits_of_loadable h.wf h.holds hload) hk₁ hk₂ ?_
    (truncate_crashImage h ht ha hae errno p) ?_
  · unfold crashBound
    split_ifs <;> omega
  · cases truncate_spec h ht ha hae with
    | noop kept _ _ ready _ =>
      rw [kept, SegmentedLog.dropThrough_of_lt (by omega)]
      exact ready.holds
    | stuck kept _ _ ready _ =>
      rw [kept, SegmentedLog.dropThrough_of_lt (by omega)]
      exact ready.holds
    | cut _ _ ready _ _ => exact ready.holds

end

/-- The entries 2, 3 and 4 lie in the segments 1, 2 and 3; the crash comes once the OK flag is
there. -/
theorem truncate_crash_safe_flagged : ∃ s rs, walHistory acceptAll 0 tinyConf
    [.append (some [7]), .append (some [8]), .append (some [9])] = some (s, rs) ∧
      CrashSafe acceptAll 0 tinyConf s 2 4 := by
  obtain ⟨⟨s, rs⟩, hrun⟩ := Option.isSome_iff_exists.mp (by decide +kernel :
    (walHistory acceptAll 0 tinyConf
      [.append (some [7]), .append (some [8]), .append (some [9])]).isSome = true)
  have hall : ∀ o ∈ walHistory acceptAll 0 tinyConf
      [.append (some [7]), .append (some [8]), .append (some [9])],
      o.1.wal.mpEntriesIdSegId 2 = some 1 ∧ Loadable acceptAll tinyConf o.1.dir ∧
        crashBound (getUncompletedTruncSegmentsMaxId 0 o.1.dir) 2
          (segmentsBefore o.1.dir (firstKept o.1 1)) 4 < firstKept o.1 1 := by
    decide +kernel
  obtain ⟨hid, hload, hlt⟩ := hall _ hrun
  exact ⟨s, rs, hrun, (truncate_crash_safe_iff (by decide +kernel) hrun hid hload 0 4).mpr hlt⟩

/-- In the same state the whole truncation at 2 keeps the entries 3 and 4, but after a crash right
behind the write of the info file `Init` takes the entry id 2 for a segment number and removes
segment 2 as well. -/
theorem truncate_crash_loses_segment :
    (walHistory acceptAll 0 tinyConf
      [.append (some [7]), .append (some [8]), .append (some [9])]).map
      (fun o => ((truncate o.1.wal 2 o.1.dir []).value.2,
        delivered acceptAll 0 tinyConf (truncate o.1.wal 2 o.1.dir []).disk,
        delivered acceptAll 0 tinyConf (crashAt (truncate o.1.wal 2) o.1.dir 2))) =
      some (.returned .ok, [⟨3, [8]⟩, ⟨4, [9]⟩], [⟨4, [9]⟩]) := by
  decide +kernel

end FlyingKV.Wal
