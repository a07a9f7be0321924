import FlyingKV.WalRuns

set_option autoImplicit false

/-!
# Entry ids over a history

The counter of ids is rebuilt by every restart from the segments that are left.
It goes back exactly when a restart removes the segment of the newest entry,
because of a number an earlier truncation has left in the info file.
-/
namespace FlyingKV.Wal
open FramedStream EventRun

def appendedId : WalReply → Option ℕ
  | .appended r => if r.rc = .OK then some r.entryId else none
  | _ => none

/-- The ids that the successful calls of `AppendEntry` returned, in order. -/
def appendedIds (rs : List WalReply) : List ℕ := rs.filterMap appendedId

/-- The restart does not find, in the info file, a number as large as the segment of the newest
entry. -/
def KeepsNewest (s : WalSystem) : WalEvent → Prop
  | .restart errno _ => ∀ i ∈ s.wal.mpEntriesIdSegId s.wal.currentEntryIdx,
      getUncompletedTruncSegmentsMaxId errno s.dir < i
  | _ => True

instance decidableKeepsNewest (s : WalSystem) : ∀ e, Decidable (KeepsNewest s e)
  | .append _ => isTrue trivial
  | .truncate _ => isTrue trivial
  | .restart _ _ => inferInstanceAs (Decidable (∀ i ∈ _, _ < i))

section
variable {judge : Judge} {l : Log} {v : ℕ}

theorem lastId_of_entries_nil (h : l.entries = []) : lastId l = minEntryId := by
  simp [lastId, h]

theorem entries_recover_of_nil (h : l.entries = []) (v : ℕ) : (recover l v).entries = [] := by
  unfold recover
  split_ifs
  · exact List.suffix_nil.mp (h ▸ l.entries_dropThrough_suffix v)
  · rfl

/-- A clean-up that spares the last filled segment spares the newest id. -/
theorem lastId_recover (hwf : WellFormed judge l) (h : l.entries ≠ [] → v < lastFilled l) :
    lastId (recover l v) = lastId l := by
  by_cases hne : l.entries = []
  · rw [lastId_of_entries_nil (entries_recover_of_nil hne v), lastId_of_entries_nil hne]
  · obtain ⟨s, r, hs, hr, -⟩ := hwf.newest hne
    have hcur := (SegmentedLog.seg_bounds hs).2
    have hlt : v < l.current := lt_of_lt_of_le (h hne) hcur
    rw [recover, if_pos hlt]
    refine lastId_dropThrough (List.ne_nil_of_mem (a := r) ?_)
    exact (SegmentedLog.mem_entries_dropThrough hlt).mpr ⟨_, s, h hne, hs, hr⟩

theorem Ready.newest_index {w : LogCleanWal} {d : WalDir} (h : Ready judge w d l v)
    (hne : l.entries ≠ []) : w.mpEntriesIdSegId w.currentEntryIdx = some (lastFilled l) := by
  obtain ⟨s, r, hs, hr, hid⟩ := h.wf.newest hne
  rw [h.counter]
  exact (h.index _ _).mpr ⟨s, hs, r, hr, hid⟩

/-- No step but a restart lowers the newest id, and a restart only where it removes the segment
of the newest entry. -/
theorem Stepped.lastId_le {s u : WalSystem} {e : WalEvent} {r : WalReply}
    (hr : Ready judge s.wal s.dir l v) (hk : KeepsNewest s e) (hs : Stepped judge s l v e u r) :
    ∃ l' v', Ready judge u.wal u.dir l' v' ∧ lastId l ≤ lastId l' ∧
      ∀ id, appendedId r = some id → lastId l < id ∧ id ≤ lastId l' := by
  cases hs with
  | refused not_ok => exact ⟨l, v, hr, le_rfl, by simp [appendedId, not_ok]⟩
  | @appended content _ ready _ _ =>
    have hlast : lastId (append s.wal.conf l (nextRec s.wal l content)) = lastId l + 1 :=
      lastId_append _ _ _
    refine ⟨_, _, ready, by omega, fun id hid => ?_⟩
    simp only [appendedId, if_true, Option.some.injEq] at hid
    omega
  | missing _ => exact ⟨l, v, hr, le_rfl, by simp [appendedId]⟩
  | @pending id _ _ _ _ _ ready _ _ => exact ⟨l, id, ready, le_rfl, by simp [appendedId]⟩
  | @cut _ i _ _ kept last ready _ _ =>
    refine ⟨_, _, ready, le_of_eq ?_, by simp [appendedId]⟩
    have hrec : recover l (keptFrom l i - 1) = l.dropThrough (keptFrom l i - 1) := if_pos (by
      have := lastFilled_le_current l
      omega)
    rw [← hrec, lastId_recover hr.wf fun _ => by omega]
  | @restarted errno _ _ _ _ ready _ _ _ =>
    refine ⟨_, _, ready, le_of_eq ?_, by simp [appendedId]⟩
    rw [lastId_recover hr.wf fun hne => ?_]
    have hb := hk _ (hr.newest_index hne)
    rwa [hr.bound errno] at hb

/-- The state stands for a log whose newest id is at least every id returned so far. -/
def IdsBelow (judge : Judge) (s : WalSystem) (tr : List (WalEvent × WalReply)) : Prop :=
  (appendedIds (tr.map Prod.snd)).Pairwise (· < ·) ∧
    ∃ l v, Ready judge s.wal s.dir l v ∧ ∀ id ∈ appendedIds (tr.map Prod.snd), id ≤ lastId l

theorem idsBelow_step {s u : WalSystem} {tr : List (WalEvent × WalReply)} {e : WalEvent} {r : WalReply}
    (hI : IdsBelow judge s tr) (hP : Admits judge s e ∧ KeepsNewest s e)
    (hs : walStep judge s e = some (u, r)) : IdsBelow judge u (tr ++ [(e, r)]) := by
  obtain ⟨hpair, l, v, hready, hle⟩ := hI
  obtain ⟨l', v', hready', hlast, hnew⟩ := (walStep_spec hready hP.1 hs).lastId_le hready hP.2
  have hids : appendedIds ((tr ++ [(e, r)]).map Prod.snd) =
      appendedIds (tr.map Prod.snd) ++ (appendedId r).toList := by
    cases hr : appendedId r <;> simp [appendedIds, hr]
  rw [IdsBelow, hids]
  cases hr : appendedId r with
  | none =>
    rw [Option.toList_none, List.append_nil]
    exact ⟨hpair, l', v', hready', fun id hid => le_trans (hle id hid) hlast⟩
  | some id =>
    obtain ⟨h₁, h₂⟩ := hnew id hr
    refine ⟨?_, l', v', hready', fun a ha => ?_⟩
    · rw [Option.toList_some, List.pairwise_append]
      refine ⟨hpair, by simp, fun a ha b hb => ?_⟩
      rw [List.mem_singleton.mp hb]
      exact lt_of_le_of_lt (hle a ha) h₁
    · rcases List.mem_append.mp ha with ha | ha
      · exact le_trans (hle a ha) hlast
      · rw [Option.toList_some, List.mem_singleton] at ha
        rw [ha]
        exact h₂

/-- Over a history whose restarts all keep the segment of the newest entry, every id returned by
`AppendEntry` is larger than all ids returned before. -/
theorem appended_ids_increase {errno : ℕ} {conf : LogCleanWalConfig} {es : List WalEvent}
    {s : WalSystem} {rs : List WalReply}
    (hP : AlongHistory judge errno conf (fun s e => Admits judge s e ∧ KeepsNewest s e) es)
    (hrun : walHistory judge errno conf es = some (s, rs)) : (appendedIds rs).Pairwise (· < ·) := by
  obtain ⟨bss, rs', rfl, hlen, hI⟩ := history_invariant (I := IdsBelow judge)
    (fun _ hready => ⟨List.Pairwise.nil, _, _, hready, by simp [appendedIds]⟩) (fun _ _ _ _ _ => idsBelow_step) hP hrun
  rw [IdsBelow, List.map_snd_zip hlen.le] at hI
  exact hI.1

end

def smallConf : LogCleanWalConfig := ⟨1, 100, 100, by decide, by decide, by decide, by decide⟩

/-- A segment for every entry. -/
def tinyConf : LogCleanWalConfig := ⟨1, 17, 100, by decide, by decide, by decide, by decide⟩

/-- Over a truncation and a restart. -/
theorem appended_ids_increase_small : ∃ s rs, walHistory acceptAll 0 tinyConf
    [.append (some [7]), .append (some [8]), .truncate 2, .restart 0 tinyConf, .append (some [9])] = some (s, rs) ∧
      appendedIds rs = [2, 3, 4] ∧ (appendedIds rs).Pairwise (· < ·) := by
  have hids : (walHistory acceptAll 0 tinyConf
      [.append (some [7]), .append (some [8]), .truncate 2, .restart 0 tinyConf, .append (some [9])]).map
        (fun o => appendedIds o.2) = some [2, 3, 4] := by
    decide +kernel
  obtain ⟨⟨s, rs⟩, hrun, hrs⟩ := Option.map_eq_some_iff.mp hids
  exact ⟨s, rs, hrun, hrs, appended_ids_increase (by decide +kernel) hrun⟩

/-- The truncation at the only entry removes nothing and leaves its id `2` in the info file; the
restart takes it for a segment number, removes segment 1, and the id is handed out again. -/
theorem appended_id_twice :
    (walHistory acceptAll 0 smallConf
      [.append (some [7]), .truncate 2, .restart 0 smallConf, .append (some [8])]).map
        (fun o => appendedIds o.2) = some [2, 2] := by
  decide +kernel

end FlyingKV.Wal
