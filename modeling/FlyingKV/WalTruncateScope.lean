import FlyingKV.WalIds

set_option autoImplicit false

/-!
# Which entries a truncation takes away

A truncation removes whole segments, and one that finds nothing to remove leaves
its entry id behind as a segment number for the next `Init`. So the entries newer
than the given one survive only under a condition on where it lies.
-/
namespace FlyingKV.Wal
open FramedStream EventRun

/-- The entries that a fresh object with this configuration delivers on the directory. -/
def delivered (judge : Judge) (errno : ℕ) (conf : LogCleanWalConfig) (d : WalDir) :
    List WalEntry :=
  (reopen judge errno conf d []).value.batches.flatten

/-- An object with this configuration can read every segment file of the directory. -/
def Loadable (judge : Judge) (conf : LogCleanWalConfig) (d : WalDir) : Prop :=
  ∀ i ∈ listSegmentsAsc d, (loadSegment judge (create conf) i d []).value.result = .returned .ok

instance decidableLoadable (judge : Judge) (conf : LogCleanWalConfig) (d : WalDir) :
    Decidable (Loadable judge conf d) :=
  inferInstanceAs (Decidable (∀ i ∈ listSegmentsAsc d, _ = _))

/-- Where truncating at `id` takes no newer entry away: the entry is the last of its segment; or
the next `Init` removes that segment anyway; or it lies in the segment of the newest entry and
either an older segment is there to be removed or the segment number exceeds the id. -/
def TruncateSafe (errno : ℕ) (s : WalSystem) (id : ℕ) : Prop :=
  ∀ i ∈ s.wal.mpEntriesIdSegId id,
    (∀ e, s.wal.mpEntriesIdSegId e = some i → e ≤ id) ∨
      i ≤ getUncompletedTruncSegmentsMaxId errno s.dir ∨
      (s.wal.mpEntriesIdSegId s.wal.currentEntryIdx = some i ∧ (s.wal.minSegmentId < i ∨ id < i))

section
variable {judge : Judge} {l : Log}
variable {conf : LogCleanWalConfig} {s : WalSystem} {v i : ℕ}

/-- A number is pending only in a log with entries. -/
theorem ready_of_history {errno : ℕ} {es : List WalEvent} {rs : List WalReply}
    (hP : AlongHistory judge errno conf (Admits judge) es) (hrun : walHistory judge errno conf es = some (s, rs)) :
    ∃ l v, Ready judge s.wal s.dir l v ∧ (v ≠ 0 → l.entries ≠ []) := by
  have hend := history_invariant
    (I := fun s _ => ∃ l v, Ready judge s.wal s.dir l v ∧ (v ≠ 0 → l.entries ≠ []))
    (fun s hready => ⟨_, _, hready, fun h => absurd rfl h⟩) ?_ hP hrun
  · obtain ⟨_, _, -, -, h⟩ := hend
    exact h
  rintro s tr e u r ⟨l, v, hready, hp⟩ ha hs
  cases walStep_spec hready ha hs with
  | refused _ => exact ⟨l, v, hready, hp⟩
  | appended ready _ _ => exact ⟨_, _, ready, fun _ => by simp⟩
  | missing _ => exact ⟨l, v, hready, hp⟩
  | @pending id i _ _ found _ ready _ _ =>
    obtain ⟨t, ht, a, hat, -⟩ := (hready.index id i).mp found
    exact ⟨_, _, ready, fun _ =>
      List.ne_nil_of_mem (SegmentedLog.mem_entries_iff.mpr ⟨i, t, ht, hat⟩)⟩
  | cut _ _ _ ready _ _ => exact ⟨_, _, ready, fun h => absurd rfl h⟩
  | restarted _ ready _ _ _ => exact ⟨_, _, ready, fun h => absurd rfl h⟩

theorem logFits_of_loadable {d : WalDir} (hwf : WellFormed judge l) (h : Holds d l) (hl : Loadable judge conf d) :
    LogFits conf l := by
  intro i s hs
  have hres := hl i ((mem_listSegmentsAsc d i).mpr (by simp [h.get hs]))
  rcases (loadSegment_spec (w := create conf) (h.get hs) (hwf.readable hs)).2 with ⟨hf, -⟩ | ⟨-, hc⟩
  · exact hf
  · rw [hc] at hres
    cases hres

theorem LogFits.loads (h : LogFits conf l) (b : ℕ) : Loads conf l b := by
  intro hb i s hs
  rw [SegmentedLog.seg_dropThrough hb] at hs
  split_ifs at hs
  exact h i s hs

theorem LogFits.dropThrough (h : LogFits conf l) {b : ℕ} (hb : b < l.current) :
    LogFits conf (l.dropThrough b) := h.loads b hb

theorem Ready.delivered_eq {w : LogCleanWal} {d : WalDir} (h : Ready judge w d l v) (hf : LogFits conf l) (errno : ℕ) :
    delivered judge errno conf d = (recover l v).entries.map Rec.entry := by
  rcases h.reopen errno conf with ⟨-, ho⟩ | ⟨hno, -⟩
  · exact ho.batches
  · exact absurd (hf.loads v) hno

theorem mem_recover {b : ℕ} {r : Rec} :
    r ∈ (recover l b).entries ↔ ∃ i s, b < i ∧ l.seg i = some s ∧ r ∈ s := by
  unfold recover
  split_ifs with hb
  · exact SegmentedLog.mem_entries_dropThrough hb
  · rw [SegmentedLog.entries_start]
    refine ⟨fun h => absurd h (List.not_mem_nil), ?_⟩
    rintro ⟨i, s, hi, hs, -⟩
    have := (SegmentedLog.seg_bounds hs).2
    omega

/-- Entries that are delivered with the bound `a` and are newer than `id` are all delivered with
the bound `b` exactly when their segments lie above `b`. -/
theorem newer_delivered_iff (hwf : WellFormed judge l) (a b id : ℕ) :
    (∀ e ∈ (recover l a).entries.map Rec.entry, id < e.id → e ∈ (recover l b).entries.map Rec.entry) ↔
      ∀ j s r, a < j → l.seg j = some s → r ∈ s → id < r.id → b < j := by
  constructor
  · intro h j s r hj hs hr hid
    obtain ⟨r', hr', he⟩ := List.mem_map.mp
      (h r.entry (List.mem_map_of_mem (mem_recover.mpr ⟨j, s, hj, hs, hr⟩)) hid)
    obtain ⟨j', s', hj', hs', hrs'⟩ := mem_recover.mp hr'
    rw [hwf.seg_unique hs hs' hr hrs' (congrArg WalEntry.id he).symm]
    exact hj'
  · intro h e he hid
    obtain ⟨r, hr, rfl⟩ := List.mem_map.mp he
    obtain ⟨j, s, hj, hs, hrs⟩ := mem_recover.mp hr
    exact List.mem_map_of_mem (mem_recover.mpr ⟨j, s, h j s r hj hs hrs hid, hs, hrs⟩)

theorem WellFormed.le_of_newer (h : WellFormed judge l) {j : ℕ} {s t : List Rec} {a b : Rec} (hs : l.seg i = some s)
    (ht : l.seg j = some t) (ha : a ∈ s) (hb : b ∈ t) (hlt : a.id < b.id) : i ≤ j := by
  by_contra hj
  exact absurd (h.id_lt ht hs (by omega) hb ha) (by omega)

/-- `TruncateSafe` in terms of the log. -/
theorem Ready.truncateSafe_iff {t : List Rec} {a : Rec} (h : Ready judge s.wal s.dir l v) (ht : l.seg i = some t)
    (hat : a ∈ t) (errno : ℕ) :
    TruncateSafe errno s a.id ↔ (∀ r ∈ t, r.id ≤ a.id) ∨ i ≤ v ∨
      (i = lastFilled l ∧ (s.wal.minSegmentId < i ∨ a.id < i)) := by
  have hid : s.wal.mpEntriesIdSegId a.id = some i := (h.index _ _).mpr ⟨t, ht, a, hat, rfl⟩
  have hnewest := h.newest_index (List.ne_nil_of_mem (SegmentedLog.mem_entries_iff.mpr ⟨i, t, ht, hat⟩))
  have hindex : (∀ e, s.wal.mpEntriesIdSegId e = some i → e ≤ a.id) ↔ ∀ r ∈ t, r.id ≤ a.id := by
    constructor
    · exact fun hm r hr => hm r.id ((h.index _ _).mpr ⟨t, ht, r, hr, rfl⟩)
    · intro hm e he
      obtain ⟨t', ht', r, hr, rfl⟩ := (h.index e i).mp he
      rw [ht] at ht'
      cases ht'
      exact hm r hr
  simp only [TruncateSafe, hid, Option.mem_def, Option.some.injEq, forall_eq', hindex,
    h.bound errno, hnewest]
  rw [eq_comm (a := i)]

/-- If truncating at a held id returns `OK`, the newer entries survive exactly under `TruncateSafe`. -/
theorem Ready.truncate_newer_iff {id : ℕ} (h : Ready judge s.wal s.dir l v) (hid : s.wal.mpEntriesIdSegId id = some i)
    (hok : (truncate s.wal id s.dir []).value.2 = .returned .ok) (hf : LogFits conf l) (errno₁ errno₂ : ℕ) :
    (∀ e ∈ delivered judge errno₁ conf s.dir, id < e.id →
        e ∈ delivered judge errno₂ conf (truncate s.wal id s.dir []).disk) ↔ TruncateSafe errno₁ s id := by
  obtain ⟨t, ht, a, hat, rfl⟩ := (h.index id i).mp hid
  have hlast := le_lastFilled ht hat
  have hfirst := (SegmentedLog.seg_bounds ht).1
  have hone := h.wf.first_pos
  have hmin : s.wal.minSegmentId ≤ l.first := by
    rcases h.min with hm | hm <;> omega
  rw [h.delivered_eq hf errno₁, h.truncateSafe_iff ht hat errno₁]
  have hnewer : ∀ j u r, l.seg j = some u → r ∈ u → a.id < r.id → i ≤ j := fun j u r hu hr hlt =>
    h.wf.le_of_newer ht hu hat hr hlt
  cases truncate_spec h ht hat rfl with
  | noop kept min result ready wal =>
    rw [ready.delivered_eq hf errno₂, newer_delivered_iff h.wf]
    have hi : i = lastFilled l := by
      unfold keptFrom at kept
      split_ifs at kept with hi
      · exact hi
      · omega
    have hif : i = l.first := by
      unfold keptFrom at kept
      rwa [if_pos hi] at kept
    constructor
    · intro hP
      by_contra hno
      push Not at hno
      obtain ⟨⟨r, hr, hlt⟩, hv, h3⟩ := hno
      exact absurd (hP i t r hv ht hr hlt) (not_lt.mpr (h3 hi).2)
    · intro hS j u r hj hu hr hlt
      have hij : j = i := le_antisymm (hi ▸ le_lastFilled hu hr) (hnewer j u r hu hr hlt)
      subst hij
      rw [ht] at hu
      cases hu
      rcases hS with hS | hS | ⟨-, hS | hS⟩
      · exact absurd (hS r hr) (by omega)
      · omega
      · omega
      · exact hS
  | stuck kept min result ready wal =>
    rw [result] at hok
    cases hok
  | cut kept result ready min conf =>
    obtain ⟨hk₁, hk₂, hk₃⟩ := keptFrom_bounds ht hat
    have hlt : keptFrom l i - 1 < l.current := by omega
    have hrec : recover (l.dropThrough (keptFrom l i - 1)) 0 = recover l (keptFrom l i - 1) := by
      rw [recover_of_lt (by simp only [SegmentedLog.dropThrough]; omega), recover, if_pos hlt]
    rw [ready.delivered_eq (hf.dropThrough hlt) errno₂, hrec, newer_delivered_iff h.wf]
    by_cases hi : i = lastFilled l
    · have hki : keptFrom l i = i := if_pos hi
      refine ⟨fun _ => .inr (.inr ⟨hi, .inl (by omega)⟩), fun _ j u r hj hu hr hlt => ?_⟩
      have := hnewer j u r hu hr hlt
      omega
    · have hki : keptFrom l i = i + 1 := if_neg hi
      constructor
      · intro hP
        by_contra hno
        push Not at hno
        obtain ⟨⟨r, hr, hlt⟩, hv, -⟩ := hno
        have := hP i t r hv ht hr hlt
        omega
      · intro hS j u r hj hu hr hlt
        have hij := hnewer j u r hu hr hlt
        rcases Nat.eq_or_lt_of_le hij with hij | hij
        · subst hij
          rw [ht] at hu
          cases hu
          rcases hS with hS | hS | ⟨hS, -⟩
          · exact absurd (hS r hr) (by omega)
          · omega
          · exact absurd hS hi
        · omega

/-- In every state of a history, a truncation that returns `OK` keeps every newer entry for a
fresh object if and only if `TruncateSafe` holds before it. -/
theorem truncate_keeps_newer_iff {errno : ℕ} {conf : LogCleanWalConfig} {es : List WalEvent}
    {s : WalSystem} {rs : List WalReply} (hP : AlongHistory judge errno conf (Admits judge) es)
    (hrun : walHistory judge errno conf es = some (s, rs)) {id : ℕ}
    (hok : (truncate s.wal id s.dir []).value.2 = .returned .ok) {conf' : LogCleanWalConfig}
    (hload : Loadable judge conf' s.dir) (errno₁ errno₂ : ℕ) :
    (∀ e ∈ delivered judge errno₁ conf' s.dir, id < e.id →
        e ∈ delivered judge errno₂ conf' (truncate s.wal id s.dir []).disk) ↔
      TruncateSafe errno₁ s id := by
  obtain ⟨l, v, h, -⟩ := ready_of_history hP hrun
  cases hid : s.wal.mpEntriesIdSegId id with
  | none =>
    rw [truncate_missing h hid] at hok
    cases hok
  | some i =>
    exact h.truncate_newer_iff hid hok (logFits_of_loadable h.wf h.holds hload) errno₁ errno₂

end

/-- Three segments, of which the truncation removes the first. -/
theorem truncate_keeps_newer_small : ∃ s rs, walHistory acceptAll 0 tinyConf
    [.append (some [7]), .append (some [8]), .append (some [9])] = some (s, rs) ∧
      delivered acceptAll 0 tinyConf s.dir = [⟨2, [7]⟩, ⟨3, [8]⟩, ⟨4, [9]⟩] ∧
      ⟨3, [8]⟩ ∈ delivered acceptAll 0 tinyConf (truncate s.wal 2 s.dir []).disk ∧
      ⟨4, [9]⟩ ∈ delivered acceptAll 0 tinyConf (truncate s.wal 2 s.dir []).disk := by
  have hsome : ∃ o ∈ walHistory acceptAll 0 tinyConf [.append (some [7]), .append (some [8]), .append (some [9])],
      (truncate o.1.wal 2 o.1.dir []).value.2 = .returned .ok ∧ Loadable acceptAll tinyConf o.1.dir ∧
        o.1.wal.currentEntryIdx = 4 ∧ (∀ e < 5, ∀ i ∈ o.1.wal.mpEntriesIdSegId 2, 2 < e →
          o.1.wal.mpEntriesIdSegId e ≠ some i) ∧
        delivered acceptAll 0 tinyConf o.1.dir = [⟨2, [7]⟩, ⟨3, [8]⟩, ⟨4, [9]⟩] := by
    decide +kernel
  obtain ⟨⟨s, rs⟩, hrun, hok, hload, hcounter, hindex, hbefore⟩ := hsome
  have hsafe : TruncateSafe 0 s 2 := fun i hi => .inl fun e he => by
    obtain ⟨l, v, h, -⟩ := ready_of_history (by decide +kernel) hrun
    obtain ⟨t, ht, r, hr, rfl⟩ := (h.index e i).mp he
    have hle := h.wf.id_le_lastId (SegmentedLog.mem_entries_iff.mpr ⟨i, t, ht, hr⟩)
    rw [← h.counter, hcounter] at hle
    by_contra hgt
    exact hindex r.id (by omega) i hi (by omega) he
  have hkept := (truncate_keeps_newer_iff (by decide +kernel) hrun hok hload 0 0).mpr hsafe
  rw [hbefore] at hkept
  exact ⟨s, rs, hrun, hbefore, hkept _ (by simp) (by decide), hkept _ (by simp) (by decide)⟩

/-- Entries 2 and 3 in the only segment: the truncation at 2 returns `OK`, and a fresh object that
delivered both before delivers none afterwards. -/
theorem truncate_loses_newer :
    (walHistory acceptAll 0 smallConf [.append (some [7]), .append (some [8])]).map
      (fun o => ((truncate o.1.wal 2 o.1.dir []).value.2,
        delivered acceptAll 0 smallConf o.1.dir,
        delivered acceptAll 0 smallConf (truncate o.1.wal 2 o.1.dir []).disk)) =
      some (.returned .ok, [⟨2, [7]⟩, ⟨3, [8]⟩], []) := by
  decide +kernel

end FlyingKV.Wal
