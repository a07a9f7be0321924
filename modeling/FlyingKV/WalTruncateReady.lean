import FlyingKV.WalTruncate

set_option autoImplicit false

/-!
# The object after `Truncate`

Whatever `Truncate` answers, the object and the directory still stand for a log:
the old one with a pending info file, or the one without the removed segments.
-/
namespace FlyingKV.Wal
open DecimalText FileDir DiskProgram FileUtils FramedStream

theorem eraseIds_apply (m : ℕ → Option ℕ) (i n e : ℕ) :
    eraseIds m i n e = if i ≤ e ∧ e < i + n then none else m e := by
  induction n generalizing m i with
  | zero => rw [eraseIds, if_neg (by omega)]
  | succ n ih =>
    rw [eraseIds, ih, Function.update_apply]
    split_ifs <;> first | rfl | omega

section
variable {judge : Judge} {w : LogCleanWal} {d : WalDir} {l : Log} {v : ℕ}

theorem Ready.infoDir (h : Ready judge w d l v) (id : ℕ) (h0 : 0 < id) (hlt : id < ulongMax) :
    Ready judge w (infoDir d id) l id :=
  { h with
    holds := fun i => by
      rw [get_infoDir, if_neg (by simp)]
      exact h.holds i
    info := by rw [get_infoDir, if_pos rfl, if_neg (by omega)]
    flag := by
      rw [get_infoDir, if_neg (by simp)]
      exact h.flag
    pending_lt := hlt }

theorem Ready.resetMin (h : Ready judge w d l v) :
    Ready judge { w with minSegmentId := minEntryId } d l v :=
  { h with min := .inr rfl }

theorem lastId_dropThrough {b : ℕ} (hne : (l.dropThrough b).entries ≠ []) :
    lastId (l.dropThrough b) = lastId l := by
  obtain ⟨a, ha⟩ := l.entries_dropThrough_suffix b
  have hlast : l.entries.getLast? = (l.dropThrough b).entries.getLast? := by
    rw [← ha, List.getLast?_append]
    cases hg : (l.dropThrough b).entries.getLast? with
    | none => exact absurd (List.getLast?_eq_none_iff.mp hg) hne
    | some r => rfl
  rw [lastId, lastId, hlast]

theorem seg_ne_nil_of_le_lastFilled (hfirst : 1 ≤ l.first) {i : ℕ} {s : List Rec}
    (hs : l.seg i = some s) (hi : i ≤ lastFilled l) : s ≠ [] := by
  have hcur := l.first_le_current
  by_cases ht : l.tail = []
  · rw [lastFilled, if_pos ht] at hi
    exact SegmentedLog.seg_ne_nil hs (by omega)
  · rcases Nat.eq_or_lt_of_le (hi.trans (lastFilled_le_current l)) with hic | hic
    · rw [hic, SegmentedLog.seg_current] at hs
      cases hs
      exact ht
    · exact SegmentedLog.seg_ne_nil hs hic

theorem lastFilled_seg (hfirst : 1 ≤ l.first) (hl : l.first ≤ lastFilled l) :
    ∃ s r, l.seg (lastFilled l) = some s ∧ r ∈ s := by
  obtain ⟨s, hs⟩ := (SegmentedLog.seg_isSome_iff (l := l)).mpr ⟨hl, lastFilled_le_current l⟩
  obtain ⟨r, hr⟩ := List.exists_mem_of_ne_nil s (seg_ne_nil_of_le_lastFilled hfirst hs le_rfl)
  exact ⟨s, r, hs, hr⟩

theorem WellFormed.newest (h : WellFormed judge l) (hne : l.entries ≠ []) :
    ∃ s r, l.seg (lastFilled l) = some s ∧ r ∈ s ∧ r.id = lastId l := by
  have hid : (l.entries.getLast hne).id = lastId l := by
    rw [lastId, List.getLast?_eq_some_getLast hne]
    rfl
  obtain ⟨j, s, hs, hrs⟩ := SegmentedLog.mem_entries_iff.mp (List.getLast_mem hne)
  have hj := le_lastFilled hs hrs
  have hfirst := (SegmentedLog.seg_bounds hs).1
  obtain ⟨t, a, ht, ha⟩ := lastFilled_seg h.first_pos (by omega)
  rcases Nat.eq_or_lt_of_le hj with hj | hj
  · exact ⟨s, _, hj ▸ hs, hrs, hid⟩
  · have hlt := h.id_lt hs ht hj hrs ha
    have hle := h.id_le_lastId (SegmentedLog.mem_entries_iff.mpr ⟨_, t, ht, ha⟩)
    omega

/-- Every entry from segment `k` on is newer than the last entry `c` of the segment before. -/
theorem WellFormed.lt_of_kept (h : WellFormed judge l) {k : ℕ} {t : List Rec} {c : Rec}
    (ht : l.seg (k - 1) = some (t ++ [c])) (hk : 1 ≤ k) {j : ℕ} {s : List Rec} {r : Rec}
    (hs : l.seg j = some s) (hr : r ∈ s) : c.id < r.id ↔ k ≤ j := by
  constructor
  · intro hlt
    by_contra hj
    rcases Nat.lt_or_ge j (k - 1) with hj' | hj'
    · exact absurd (h.id_lt hs ht hj' hr (by simp : c ∈ t ++ [c])) (by omega)
    · have hjk : j = k - 1 := by omega
      rw [hjk, ht] at hs
      cases hs
      rcases List.mem_append.mp hr with hr | hr
      · have hp := SegmentedLog.pairwise_seg h.pairwise ht
        exact absurd ((List.pairwise_append.mp hp).2.2 r hr c (by simp)) (by omega)
      · rw [List.mem_singleton.mp hr] at hlt
        omega
  · intro hj
    exact h.id_lt ht hs (by omega) (by simp) hr

/-- The directory after the whole of a truncation that removed the segments before `k`. -/
def truncatedDir (d : WalDir) (l : Log) (id k : ℕ) : WalDir :=
  (((cutDir d l id k).put .truncOk []).unlink .truncMeta).unlink .truncOk

theorem Holds.unlinkFrom (h : Holds d l) (id n : ℕ) (hn : n < l.closed.length + 1) (h0 : 0 < n) :
    Holds (unlinkFrom (infoDir d id) l.first n) (l.dropThrough (l.first + n - 1)) := by
  intro i
  have hlt : l.first + n - 1 < l.current := by
    unfold SegmentedLog.current
    omega
  rw [get_unlinkFrom, get_infoDir, if_neg (show WalFile.segment i ≠ .truncMeta by simp),
    SegmentedLog.seg_dropThrough hlt, h i]
  simp only [inRange, Bool.and_eq_true, decide_eq_true_eq]
  by_cases hi : i < l.first
  · rw [SegmentedLog.seg_eq_none_iff.mpr (.inl hi)]
    split_ifs <;> rfl
  · split_ifs <;> first | rfl | omega

theorem get_truncatedDir (d : WalDir) (l : Log) (id k : ℕ) :
    (∀ i, (truncatedDir d l id k).get (.segment i) = (cutDir d l id k).get (.segment i)) ∧
      Settled (truncatedDir d l id k) := by
  refine ⟨fun i => ?_, ?_, ?_⟩
  · rw [truncatedDir, Dir.get_unlink_ne _ (by simp), Dir.get_unlink_ne _ (by simp),
      Dir.get_put_ne _ _ (by simp)]
  · rw [truncatedDir, Dir.get_unlink_ne _ (by simp), Dir.get_unlink_self]
  · rw [truncatedDir, Dir.get_unlink_self]

theorem Ready.truncated (h : Ready judge w d l v) {id k : ℕ} {t : List Rec} {c : Rec}
    (ht : l.seg (k - 1) = some (t ++ [c])) (hk : l.first < k) (hkl : k ≤ lastFilled l) :
    Ready judge (truncated w k c.id) (truncatedDir d l id k) (l.dropThrough (k - 1)) 0 := by
  have hfirst := h.wf.first_pos
  have hcur := lastFilled_le_current l
  have hlt : k - 1 < l.current := by omega
  obtain ⟨hseg, hinfo, hflag⟩ := get_truncatedDir d l id k
  -- the newest entry is kept
  obtain ⟨u, a, hu, ha⟩ := lastFilled_seg hfirst (by omega)
  have ha' : a ∈ (l.dropThrough (k - 1)).entries :=
    (SegmentedLog.mem_entries_dropThrough hlt).mpr ⟨_, u, by omega, hu, ha⟩
  have hlast := lastId_dropThrough (List.ne_nil_of_mem ha')
  have hnew : ∀ r ∈ (l.dropThrough (k - 1)).entries, c.id < r.id := fun r hr => by
    obtain ⟨j, s, hj, hs, hrs⟩ := (SegmentedLog.mem_entries_dropThrough hlt).mp hr
    exact (h.wf.lt_of_kept ht (by omega) hs hrs).mpr (by omega)
  exact {
    wf := h.wf.dropThrough hlt
    holds := fun i => by
      have hh := h.holds.unlinkFrom id (k - l.first)
        (by unfold SegmentedLog.current at hlt; omega) (by omega) i
      rw [show l.first + (k - l.first) - 1 = k - 1 by omega] at hh
      rw [hseg]
      exact hh
    info := hinfo
    flag := hflag
    pending_lt := by decide
    inited := h.inited
    loaded := h.loaded
    index := fun e i => by
      change eraseIds _ _ _ e = some i ↔ _
      rw [eraseIds_apply, SegmentedLog.seg_dropThrough hlt]
      constructor
      · intro he
        split_ifs at he with hrange
        obtain ⟨s, hs, r, hr, rfl⟩ := (h.index e i).mp he
        have hge := h.lastTrunc r (SegmentedLog.mem_entries_iff.mpr ⟨i, s, hs, hr⟩)
        have hi := (h.wf.lt_of_kept ht (by omega) hs hr).mp (by omega)
        exact ⟨s, by rw [if_neg (by omega), hs], r, hr, rfl⟩
      · rintro ⟨s, hs, r, hr, rfl⟩
        split_ifs at hs with hi
        have hc := (h.wf.lt_of_kept ht (by omega) hs hr).mpr (by omega)
        rw [if_neg (by omega)]
        exact (h.index r.id i).mpr ⟨s, hs, r, hr, rfl⟩
    counter := by
      rw [hlast]
      exact h.counter
    current := by
      rw [SegmentedLog.current_dropThrough hlt]
      exact h.current
    fd := by
      rw [SegmentedLog.current_dropThrough hlt]
      exact h.fd
    fileSize := h.fileSize
    min := .inl (by
      change k = max l.first (k - 1 + 1)
      omega)
    lastTrunc := fun r hr => hnew r hr
    lastTrunc_le := by
      change c.id + 1 ≤ _
      exact le_trans (hnew a ha') ((h.wf.dropThrough hlt).id_le_lastId ha') }

/-- The three ways in which truncating at an entry of the log can end. -/
inductive Truncated (judge : Judge) (w : LogCleanWal) (d : WalDir) (l : Log) (id i : ℕ)
    (o : Outcome WalDir (LogCleanWal × Ended WalResult)) : Prop where
  | noop (kept : keptFrom l i = l.first) (min : l.first ≤ w.minSegmentId)
      (result : o.value.2 = .returned .ok) (ready : Ready judge o.value.1 o.disk l id)
      (wal : o.value.1 = { w with minSegmentId := minEntryId })
  | stuck (kept : keptFrom l i = l.first) (min : w.minSegmentId < l.first)
      (result : o.value.2 = .returned (fileSystemError ENOENT))
      (ready : Ready judge o.value.1 o.disk l id) (wal : o.value.1 = w)
  | cut (kept : l.first < keptFrom l i) (result : o.value.2 = .returned .ok)
      (ready : Ready judge o.value.1 o.disk (l.dropThrough (keptFrom l i - 1)) 0)
      (min : o.value.1.minSegmentId = keptFrom l i) (conf : o.value.1.conf = w.conf)

theorem truncate_spec (h : Ready judge w d l v) {id i : ℕ} {s : List Rec} {r : Rec}
    (hs : l.seg i = some s) (hr : r ∈ s) (hid : r.id = id) :
    Truncated judge w d l id i (truncate w id d []) := by
  have hids := h.wf.ids r (SegmentedLog.mem_entries_iff.mpr ⟨i, s, hs, hr⟩)
  have hready := h.infoDir id (by omega) (by omega)
  obtain ⟨h₁, h₂, -⟩ := keptFrom_bounds hs hr
  have hfirst := h.wf.first_pos
  rcases Nat.eq_or_lt_of_le h₁ with hk | hk
  · rcases Nat.lt_or_ge w.minSegmentId l.first with hm | hm
    · have hrun := truncate_stuck h hs hr hid (by omega) hk.symm
      exact .stuck hk.symm hm (by rw [hrun]) (by rw [hrun]; exact hready) (by rw [hrun])
    · have hrun := truncate_noop h hs hr hid (by omega)
      exact .noop hk.symm hm (by rw [hrun]) (by rw [hrun]; exact hready.resetMin) (by rw [hrun])
  · obtain ⟨t, c, ht, hrun⟩ := truncate_effective h hs hr hid hk
    exact .cut hk (by rw [hrun]) (by rw [hrun]; exact h.truncated ht hk h₂) (by rw [hrun]; rfl)
      (by rw [hrun]; rfl)

end

end FlyingKV.Wal
