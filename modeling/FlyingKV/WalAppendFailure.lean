import FlyingKV.EventRun
import FlyingKV.WalAppendFaults
import FlyingKV.WalTruncateScope

set_option autoImplicit false

/-!
# What a failed append leaves behind

A call of `AppendEntry` that returns an error should leave the log as it was. It
does so only where it fails before any byte of the record is in the file.
-/
namespace FlyingKV.Wal
open ByteOrder CommonUtils DecimalText DiskProgram FramedStream EventRun

/-- A call of `AppendEntry`: what `Encode` produced, and the schedule of failing calls. -/
abbrev AppendCall := Option Bytes × Faults

def appendStep (s : WalSystem) (c : AppendCall) : Option (WalSystem × AppendEntryResult) :=
  let o := appendEntry s.wal c.1 s.dir c.2
  match o.value.2 with
  | .returned r => some (⟨o.value.1, o.disk⟩, r)
  | .crashed _ => none

def AdmitsCall (judge : Judge) (s : WalSystem) (c : AppendCall) : Prop :=
  Admits judge s (.append c.1)

instance decidableAdmitsCall (judge : Judge) (s : WalSystem) (c : AppendCall) :
    Decidable (AdmitsCall judge s c) :=
  inferInstanceAs (Decidable (Admits judge s (.append c.1)))

/-- The entry of a call that returned OK. -/
def acknowledged : AppendCall × AppendEntryResult → Option WalEntry
  | ((some content, _), r) => if r.rc = .OK then some ⟨r.entryId, content⟩ else none
  | ((none, _), _) => none

/-- The first call of the schedule fails and stores no byte. -/
def StoresNothing (fs : Faults) : Prop := ∃ f ∈ fs.head?, ∃ fault ∈ f, fault.done = 0

instance decidableStoresNothing : ∀ fs, Decidable (StoresNothing fs)
  | [] => isFalse (by simp [StoresNothing])
  | none :: _ => isFalse (by simp [StoresNothing])
  | some f :: _ => decidable_of_iff (f.done = 0) (by simp [StoresNothing])

/-- Nothing reaches the file: `Encode` failed, the entry is too large, or the write of the record
failed before its first byte. -/
def Harmless (s : WalSystem) : AppendCall → Prop
  | (none, _) => True
  | (some content, fs) =>
    s.wal.conf.maxEntrySize < content.length + entryExtraFieldsSize ∨ StoresNothing fs

instance decidableHarmless (s : WalSystem) : ∀ c, Decidable (Harmless s c)
  | (none, _) => isTrue trivial
  | (some _, fs) => inferInstanceAs (Decidable (_ ∨ StoresNothing fs))

/-- An object with this configuration can read records of these contents in any position. -/
def CanRead (conf : LogCleanWalConfig) (contents : List Bytes) : Prop :=
  conf.readBatchSize ≤ 2 ^ 32 - 4096 ∧
    ∀ c ∈ contents, conf.readBatchSize + (c.length + entryExtraFieldsSize) ≤ 2 ^ 32 - 4096

instance decidableCanRead (conf : LogCleanWalConfig) (contents : List Bytes) : Decidable (CanRead conf contents) :=
  inferInstanceAs (Decidable (_ ∧ ∀ c ∈ contents, _ ≤ _))

/-- A fresh object loads exactly `es` from the directory. -/
structure LoadsExactly (judge : Judge) (errno : ℕ) (conf : LogCleanWalConfig)
    (d : WalDir) (es : List WalEntry) : Prop where
  result : (reopen judge errno conf d []).value.result = .returned .ok
  delivered : (reopen judge errno conf d []).value.batches.flatten = es

/-- After any number of successful calls a fresh object loads the entries `held` and those of the
calls. -/
def LeavesLog (judge : Judge) (errno : ℕ) (conf : LogCleanWalConfig)
    (held : List WalEntry) (s : WalSystem) : Prop :=
  ∀ later u rs, run appendStep s later = some (u, rs) → (∀ r ∈ rs, r.rc = .OK) →
    Along appendStep (AdmitsCall judge) s later → CanRead conf (later.filterMap Prod.fst) →
      LoadsExactly judge errno conf u.dir (held ++ (later.zip rs).filterMap acknowledged)

section
variable {judge : Judge} {l : Log} {v : ℕ}
variable {conf : LogCleanWalConfig} {w : LogCleanWal} {d d' e : WalDir} {s u : WalSystem} {c : AppendCall}
  {r : AppendEntryResult} {errno first k : ℕ} {closed : List Bytes} {last content : Bytes}

/-! ## Steps that leave an appending object -/

theorem logFits_of_canRead (h : CanRead conf (l.entries.map Rec.content)) :
    LogFits conf l :=
  logFits_of_le (fun r hr => h.2 r.content (List.mem_map_of_mem hr)) h.1

/-- A write that failed before its first byte only counts the id. -/
theorem Appending.of_storesNothing (h : Appending judge w d l v) {w' : LogCleanWal} (hw : w' = { w with
      currentEntryIdx := w.currentEntryIdx + 1
      currentSegFd := some ⟨.segment l.current, (segmentBytes l.tail).length⟩ }) (hd : ∀ g, d'.get g = d.get g) :
    Appending judge w' d' l v := by
  subst hw
  exact {
    first_pos := h.first_pos
    readable := h.readable
    ids_le := fun r hr => le_trans (h.ids_le r hr) (Nat.le_succ _)
    holds := fun i => by rw [hd, h.holds i]
    info := by rw [hd, h.info]
    flag := by rw [hd, h.flag]
    pending_lt := h.pending_lt
    pending := h.pending
    inited := h.inited
    loaded := h.loaded
    current := h.current
    fd := rfl
    fileSize := h.fileSize }

theorem appendStep_eq (hs : appendStep s c = some (u, r)) :
    (appendEntry s.wal c.1 s.dir c.2).value.2 = .returned r ∧
      u = ⟨(appendEntry s.wal c.1 s.dir c.2).value.1, (appendEntry s.wal c.1 s.dir c.2).disk⟩ := by
  unfold appendStep at hs
  dsimp only at hs
  split at hs
  next r' hr =>
    cases hs
    exact ⟨hr, rfl⟩
  next => cases hs

/-- Without bytes to write the call fails before it touches anything. -/
theorem appendStep_none {fs : Faults} (h : Appending judge s.wal s.dir l v)
    (hs : appendStep s (none, fs) = some (u, r)) : u = s ∧ r.rc ≠ .OK := by
  simp only [appendStep, appendEntry, h.inited, h.loaded, Bool.not_true, Bool.false_eq_true, if_false,
    pure_run, appendError, Option.some.injEq, Prod.mk.injEq] at hs
  obtain ⟨rfl, rfl⟩ := hs
  exact ⟨rfl, fun hok => by cases hok⟩

/-- A failing call that is harmless leaves the log. -/
theorem appendStep_harmless (h : Appending judge s.wal s.dir l v) (ha : AdmitsCall judge s c)
    (hs : appendStep s c = some (u, r)) (hfail : r.rc ≠ .OK) (hh : Harmless s c) :
    Appending judge u.wal u.dir l v := by
  obtain ⟨eb, fs⟩ := c
  cases eb with
  | none =>
    obtain ⟨rfl, -⟩ := appendStep_none h hs
    exact h
  | some content =>
    have hends := appendEntry_ends h ha.2 ha.1 fs
    obtain ⟨hr, rfl⟩ := appendStep_eq hs
    dsimp only at hr ⊢
    generalize appendEntry s.wal (some content) s.dir fs = o at hr hends ⊢
    cases hends with
    | refused large result wal disk =>
      rw [wal, disk]
      exact h
    | crashed why _ result =>
      rw [result] at hr
      cases hr
    | torn f rest accepts fault result wal disk =>
      have hzero : f.done = 0 := by
        rcases hh with hlarge | ⟨f', hf', fault', hfault', hz⟩
        · exact absurd accepts.1 (Nat.not_le_of_lt hlarge)
        · subst fault
          cases hf'
          cases hfault'
          exact hz
      simp only [hzero, List.take_zero, List.append_nil, List.length_nil, Nat.add_zero] at wal disk
      refine h.of_storesNothing wal fun g => ?_
      rw [disk]
      split_ifs with hg
      · rw [hg, h.holds.get l.seg_current]
      · rfl
    | unacknowledged accepts write result disk =>
      exfalso
      rcases hh with hlarge | ⟨f', hf', fault', hfault', -⟩
      · exact absurd accepts.1 (Nat.not_le_of_lt hlarge)
      · cases hfault'
        exact write fault' hf'
    | headless k accepts write result disk =>
      exfalso
      rcases hh with hlarge | ⟨f', hf', fault', hfault', -⟩
      · exact absurd accepts.1 (Nat.not_le_of_lt hlarge)
      · cases hfault'
        exact write fault' hf'
    | done accepts write result appending conf =>
      rw [result] at hr
      cases hr
      exact absurd rfl hfail

theorem appendStep_ok (h : Appending judge s.wal s.dir l v) (ha : AdmitsCall judge s c)
    (hs : appendStep s c = some (u, r)) (hok : r.rc = .OK) :
    ∃ l', Appending judge u.wal u.dir l' v ∧ l'.first = l.first ∧
      l'.entries.map Rec.entry = l.entries.map Rec.entry ++ (acknowledged (c, r)).toList := by
  obtain ⟨eb, fs⟩ := c
  cases eb with
  | none => exact absurd hok (appendStep_none h hs).2
  | some content =>
    have hends := appendEntry_ends h ha.2 ha.1 fs
    obtain ⟨hr, rfl⟩ := appendStep_eq hs
    dsimp only at hr ⊢
    generalize appendEntry s.wal (some content) s.dir fs = o at hr hends ⊢
    have hbad : ¬ ∃ res, o.value.2 = .returned res ∧ res.rc ≠ .OK := by
      rintro ⟨res, hres, hrc⟩
      rw [hr] at hres
      cases hres
      exact hrc hok
    cases hends with
    | refused _ result _ _ => exact absurd result hbad
    | crashed why _ result =>
      rw [result] at hr
      cases hr
    | torn _ _ _ _ result _ _ => exact absurd result hbad
    | unacknowledged _ _ result _ => exact absurd result hbad
    | headless _ _ _ result _ => exact absurd result hbad
    | done accepts write result appending conf =>
      rw [result] at hr
      cases hr
      exact ⟨_, appending, first_append _ _ _, by simp [acknowledged, newRec, Rec.entry]⟩

/-! ## Reaching the state before the failing call -/

theorem forall_lt_first_iff (h : Holds d l) : (∀ i ∈ listSegmentsAsc d, v < i) ↔ v < l.first := by
  rw [h.listSegmentsAsc]
  simp only [List.mem_range'_1]
  exact ⟨fun hall => hall l.first ⟨le_rfl, by omega⟩, fun hv i hi => lt_of_lt_of_le hv hi.1⟩

/-- The condition on the calls before: those that failed were harmless. -/
def FailsHarmless (judge : Judge) (s : WalSystem) (c : AppendCall) : Prop :=
  AdmitsCall judge s c ∧ ∀ o ∈ appendStep s c, o.2.rc ≠ .OK → Harmless s c

instance decidableFailsHarmless (judge : Judge) (s : WalSystem) (c : AppendCall) :
    Decidable (FailsHarmless judge s c) :=
  inferInstanceAs (Decidable (AdmitsCall judge s c ∧ ∀ o ∈ appendStep s c, _ → Harmless s c))

theorem appending_of_calls {calls : List AppendCall} {rs : List AppendEntryResult}
    (h : Appending judge s.wal s.dir l v) (hP : Along appendStep (FailsHarmless judge) s calls)
    (hrun : run appendStep s calls = some (u, rs)) : ∃ l', Appending judge u.wal u.dir l' v := by
  refine run_invariant (I := fun s _ => ∃ l', Appending judge s.wal s.dir l' v) ?_ [] ⟨l, h⟩ hP hrun
  rintro s tr c u r ⟨l, h⟩ ⟨ha, hh⟩ hs
  by_cases hok : r.rc = .OK
  · obtain ⟨l', h', -⟩ := appendStep_ok h ha hs hok
    exact ⟨l', h'⟩
  · exact ⟨l, appendStep_harmless h ha hs hok (hh (u, r) hs hok)⟩

/-! ## Successful calls after it -/

theorem Appending.after_calls {later : List AppendCall} {rs : List AppendEntryResult}
    (h : Appending judge s.wal s.dir l v) (hP : Along appendStep (AdmitsCall judge) s later)
    (hrun : run appendStep s later = some (u, rs)) (hok : ∀ r ∈ rs, r.rc = .OK) :
    ∃ l', Appending judge u.wal u.dir l' v ∧ l'.first = l.first ∧
      l'.entries.map Rec.entry =
        l.entries.map Rec.entry ++ (later.zip rs).filterMap acknowledged := by
  have hI := run_invariant
    (I := fun u tr => (∀ o ∈ tr, o.2.rc = .OK) → ∃ l', Appending judge u.wal u.dir l' v ∧
      l'.first = l.first ∧
      l'.entries.map Rec.entry = l.entries.map Rec.entry ++ tr.filterMap acknowledged)
    (fun s tr c u r hI ha hs hall => by
      obtain ⟨l₁, h₁, hf₁, he₁⟩ := hI fun o ho => hall o (List.mem_append_left _ ho)
      obtain ⟨l₂, h₂, hf₂, he₂⟩ := appendStep_ok h₁ ha hs (hall (c, r) (by simp))
      refine ⟨l₂, h₂, hf₂.trans hf₁, ?_⟩
      have hsnoc : (tr ++ [(c, r)]).filterMap acknowledged =
          tr.filterMap acknowledged ++ (acknowledged (c, r)).toList := by
        cases hr : acknowledged (c, r) <;> simp [hr]
      rw [he₂, he₁, hsnoc, List.append_assoc])
    [] (fun _ => ⟨l, h, rfl, by simp⟩) hP hrun
  exact hI fun o ho => hok o.2 (List.of_mem_zip ho).2

theorem acknowledged_content {tr : List (AppendCall × AppendEntryResult)} {e : WalEntry}
    (he : e ∈ tr.filterMap acknowledged) : e.content ∈ (tr.map Prod.fst).filterMap Prod.fst := by
  obtain ⟨⟨⟨eb, fs⟩, r⟩, ho, hack⟩ := List.mem_filterMap.mp he
  cases eb with
  | none => cases hack
  | some content =>
    simp only [acknowledged] at hack
    split_ifs at hack
    cases hack
    exact List.mem_filterMap.mpr ⟨_, List.mem_map_of_mem ho, rfl⟩

theorem Appending.leavesLog (h : Appending judge s.wal s.dir l v) (hread : CanRead conf (l.entries.map Rec.content))
    (hv : v < l.first) : LeavesLog judge errno conf (l.entries.map Rec.entry) s := by
  intro later u rs hrun hok hP hlater
  obtain ⟨l', h', hfirst, he⟩ := h.after_calls hP hrun hok
  have hread' : CanRead conf (l'.entries.map Rec.content) := by
    refine ⟨hread.1, fun c hc => ?_⟩
    obtain ⟨r, hr, rfl⟩ := List.mem_map.mp hc
    have hmem := List.mem_map_of_mem (f := Rec.entry) hr
    rw [he, List.mem_append] at hmem
    rcases hmem with hmem | hmem
    · obtain ⟨a, ha, hae⟩ := List.mem_map.mp hmem
      have hcontent : a.content = r.content := congrArg WalEntry.content hae
      rw [← hcontent]
      exact hread.2 _ (List.mem_map_of_mem ha)
    · have hc := acknowledged_content hmem
      rw [List.map_fst_zip (le_of_eq (length_run hrun).symm)] at hc
      exact hlater.2 _ hc
  rw [← he]
  rcases reopen_readable errno conf h'.readable h'.holds h'.first_pos (h'.bound errno) h'.pending_lt with
    ⟨-, hres, hbatches, -⟩ | ⟨hno, -⟩
  · rw [recover_of_lt (by omega)] at hbatches
    exact ⟨hres, hbatches⟩
  · exact absurd ((logFits_of_canRead hread').loads v) hno

/-! ## Harm -/

theorem LeavesLog.now {held : List WalEntry} (hP : LeavesLog judge errno conf held s)
    (hb : conf.readBatchSize ≤ 2 ^ 32 - 4096) : LoadsExactly judge errno conf s.dir held := by
  have h := hP [] s [] rfl (by simp) trivial ⟨hb, by simp⟩
  simpa using h

theorem not_loadsExactly_cleared (hfiles : HoldsFiles d first closed last) (hfirst : 1 ≤ first)
    (hb : getUncompletedTruncSegmentsMaxId errno d = v) (hlt : v < ulongMax) (hgone : first + closed.length ≤ v)
    (hne : l.entries ≠ []) : ¬ LoadsExactly judge errno conf d (l.entries.map Rec.entry) := by
  intro hexact
  have hempty := (reopen_cleared judge conf hfiles hfirst hb hlt hgone).batches
  rw [hexact.delivered] at hempty
  simp only [SegmentedLog.entries_start, List.map_nil, List.map_eq_nil_iff] at hempty
  exact hne hempty

/-- A last file that cannot be loaded, behind other files. -/
structure TornDir (judge : Judge) (errno : ℕ) (d : WalDir) (first v : ℕ) (closed : List Bytes) (last : Bytes) :
    Prop where
  files : HoldsFiles d first closed last
  bound : getUncompletedTruncSegmentsMaxId errno d = v
  unloadable : ∀ (w : LogCleanWal) (d' : WalDir) (i : ℕ), d'.get (.segment i) = some last →
    (loadSegment judge w i d' []).value.result ≠ .returned .ok

theorem TornDir.not_ok (h : TornDir judge errno d first v closed last) (hfirst : 1 ≤ first) (hlt : v < ulongMax)
    (hkept : v < first + closed.length) : (reopen judge errno conf d []).value.result ≠ .returned .ok := by
  intro hok
  obtain ⟨w, d', i, -, hget, hres⟩ :=
    reopen_ok_file h.files hfirst h.bound hlt hkept (List.mem_append_right _ List.mem_cons_self) hok
  exact h.unloadable w d' i hget hres

theorem TornDir.not_loadsExactly (h : TornDir judge errno d first v closed last) (hfirst : 1 ≤ first)
    (hlt : v < ulongMax) (hne : v ≠ 0 → l.entries ≠ []) :
    ¬ LoadsExactly judge errno conf d (l.entries.map Rec.entry) := by
  by_cases hkept : v < first + closed.length
  · exact fun hexact => h.not_ok hfirst hlt hkept hexact.result
  · exact not_loadsExactly_cleared h.files hfirst h.bound hlt (by omega) (hne (by omega))

theorem Appending.tornDir_record (h : Appending judge w d l v) (room : Room w content)
    (hj : judge content = .accepted) (hpos : 0 < k) (hk : k < (newRec w content).frame.size)
    (he : ∀ g, e.get g = if g = .segment l.current then some (segmentBytes l.tail ++
      ((newRec w content).frame.bytes (segmentBytes l.tail).length).take k) else d.get g) (errno : ℕ) :
    TornDir judge errno e l.first v (l.closed.map segmentBytes) (segmentBytes l.tail ++
      ((newRec w content).frame.bytes (segmentBytes l.tail).length).take k) where
  files := (holds_iff_files.mp h.holds).replace_last fun i => by
    rw [he]
    simp [SegmentedLog.current]
  bound := by rw [bound_congr errno (d := d) (by simp [he]) (by simp [he]), h.bound]
  unloadable _ _ _ hget := loadSegment_torn_ne_ok (h.readable_next room hj) hpos hk hget

theorem Appending.tornDir_header (h : Appending judge w d l v) (room : Room w content)
    (hj : judge content = .accepted) (hk : k < magicNoLen) (hd : HasRecord d l (newRec w content) d')
    (he : ∀ g, e.get g = if g = .segment (l.current + 1) then some ((writeUInt32 magicNo).take k)
      else d'.get g) (errno : ℕ) :
    TornDir judge errno e l.first v ((l.closed ++ [l.tail ++ [newRec w content]]).map segmentBytes)
      ((writeUInt32 magicNo).take k) := by
  have h' := h.push rfl (h.readable_next room hj) hd
  refine ⟨?_, by rw [bound_congr errno (d := d') (by simp [he]) (by simp [he]), h'.bound], fun w' d₁ i hget => ?_⟩
  · rw [List.map_append, List.map_singleton]
    refine (holds_iff_files.mp h'.holds).concat fun i => ?_
    rw [he]
    simp [SegmentedLog.current, SegmentedLog.push, Nat.add_assoc]
  · rw [loadSegment_short hget (by rw [List.length_take]; omega)]
    simp [WalResult.ok]

/-- A log with a further entry, in the last filled segment `c`, that was not acknowledged. -/
theorem not_loadsExactly_extra {l' : Log} {r : Rec} {c : ℕ} {t : List Rec}
    (hr : ∀ i s, l'.seg i = some s → Readable judge s) (hh : Holds d l') (hfirst : 1 ≤ l'.first)
    (hb : getUncompletedTruncSegmentsMaxId errno d = v) (hlt : v < ulongMax) (hne : v ≠ 0 → l.entries ≠ [])
    (hnew : ∀ a ∈ l.entries, a.id < r.id) (hseg : l'.seg c = some t) (hmem : r ∈ t)
    (habove : ∀ i s, l'.seg i = some s → c < i → s = []) :
    ¬ LoadsExactly judge errno conf d (l.entries.map Rec.entry) := by
  intro hexact
  rcases reopen_readable errno conf hr hh hfirst hb hlt with ⟨-, -, hbatches, -⟩ | ⟨-, hcrash⟩
  · rw [hexact.delivered] at hbatches
    by_cases hc : v < c
    · have hin := List.mem_map_of_mem (f := Rec.entry) (mem_recover.mpr ⟨c, t, hc, hseg, hmem⟩)
      rw [← hbatches] at hin
      obtain ⟨a, ha, hae⟩ := List.mem_map.mp hin
      have hid : a.id = r.id := congrArg WalEntry.id hae
      exact absurd (hnew a ha) (by omega)
    · have hnil : (recover l' v).entries = [] := by
        refine List.eq_nil_iff_forall_not_mem.mpr fun a ha => ?_
        obtain ⟨i, s, hi, hs, has⟩ := mem_recover.mp ha
        rw [habove i s hs (by omega)] at has
        simp at has
      rw [hnil, List.map_nil, List.map_eq_nil_iff] at hbatches
      have := (SegmentedLog.seg_bounds hseg).1
      exact hne (by omega) hbatches
  · have hres := hexact.result
    rw [hcrash] at hres
    cases hres

theorem push_above (l : Log) (r : Rec) (i : ℕ) (s : List Rec) (hs : (l.push r).seg i = some s)
    (hi : l.current < i) : s = [] := by
  have := (SegmentedLog.seg_bounds hs).2
  rw [SegmentedLog.current_push] at this
  omega

theorem roll_above (l : Log) (r : Rec) (i : ℕ) (s : List Rec)
    (hs : ((l.push r).roll (l.push_tail_ne r)).seg i = some s) (hi : l.current < i) : s = [] := by
  rw [SegmentedLog.seg_roll, SegmentedLog.current_push] at hs
  split_ifs at hs with h
  · cases hs
    rfl
  · exact push_above l r i s hs hi

/-- A record in the file that was not acknowledged. -/
theorem Appending.not_loadsExactly_push (h : Appending judge w d l v) (room : Room w content)
    (hj : judge content = .accepted) (hd : HasRecord d l (newRec w content) d') (errno : ℕ) (conf : LogCleanWalConfig) :
    ¬ LoadsExactly judge errno conf d' (l.entries.map Rec.entry) := by
  have h' := h.push rfl (h.readable_next room hj) hd
  exact not_loadsExactly_extra h'.readable h'.holds h.first_pos (h'.bound errno) h.pending_lt h.pending
    (fun a ha => Nat.lt_succ_of_le (h.ids_le a ha)) (l.push _).seg_current (r := newRec w content)
    (by simp [SegmentedLog.push]) (push_above l _)

/-- A record in the file that was not acknowledged, and a new segment file with a part of its
header. -/
theorem Appending.not_loadsExactly_header (h : Appending judge w d l v) (room : Room w content)
    (hj : judge content = .accepted) (hd : HasRecord d l (newRec w content) d')
    (he : ∀ g, e.get g = if g = .segment (l.current + 1) then some ((writeUInt32 magicNo).take k)
      else d'.get g) (errno : ℕ) (conf : LogCleanWalConfig) :
    ¬ LoadsExactly judge errno conf e (l.entries.map Rec.entry) := by
  have h' := h.push rfl (h.readable_next room hj) hd
  by_cases hk : magicNoLen ≤ k
  · have hall : (writeUInt32 magicNo).take k = segmentBytes [] := by
      rw [List.take_of_length_le (by simpa [magicNoLen] using hk)]
      rfl
    rw [hall] at he
    have h'' := h'.roll (l.push_tail_ne _) he
    exact not_loadsExactly_extra h''.readable h''.holds h.first_pos (h''.bound errno) h.pending_lt
      h.pending (fun a ha => Nat.lt_succ_of_le (h.ids_le a ha)) (r := newRec w content) (c := l.current)
      (t := l.tail ++ [newRec w content]) (by
        rw [SegmentedLog.seg_roll, if_neg (by simp), SegmentedLog.seg_push, if_pos rfl])
      (by simp) (roll_above l _)
  · exact (h.tornDir_header room hj (by omega) hd he errno).not_loadsExactly h.first_pos h.pending_lt h.pending

/-- A part of the record in the file. -/
theorem Appending.not_loadsExactly_torn (h : Appending judge w d l v) (room : Room w content)
    (hj : judge content = .accepted) (hpos : 0 < k)
    (he : ∀ g, e.get g = if g = .segment l.current then some (segmentBytes l.tail ++
      ((newRec w content).frame.bytes (segmentBytes l.tail).length).take k) else d.get g) (errno : ℕ)
    (conf : LogCleanWalConfig) : ¬ LoadsExactly judge errno conf e (l.entries.map Rec.entry) := by
  by_cases hk : k < (newRec w content).frame.size
  · exact (h.tornDir_record room hj hpos hk he errno).not_loadsExactly h.first_pos h.pending_lt h.pending
  · refine h.not_loadsExactly_push room hj (fun g => ?_) errno conf
    rw [he, segmentBytes_append, walRecord_eq, List.take_of_length_le (by simpa using hk)]

theorem length_recover_lt (hv : l.first ≤ v) (hne : l.entries ≠ []) :
    (recover l v).entries.length < l.entries.length := by
  unfold recover
  split_ifs with hc
  · -- the first segment is closed, so it is not empty
    obtain ⟨s, closed, hs⟩ : ∃ s closed, l.closed = s :: closed := by
      apply List.exists_cons_of_ne_nil
      intro hnil
      simp only [SegmentedLog.current, hnil, List.length_nil] at hc
      omega
    have hpos : 0 < s.length := List.length_pos_iff.mpr (l.closed_ne s (by simp [hs]))
    have hdrop : l.closed.drop (v + 1 - l.first) = closed.drop (v - l.first) := by
      rw [hs, show v + 1 - l.first = v - l.first + 1 by omega, List.drop_succ_cons]
    have hle : (closed.drop (v - l.first)).flatten.length ≤ closed.flatten.length :=
      ((List.drop_sublist _ _).flatten).length_le
    simp only [SegmentedLog.entries_eq, SegmentedLog.dropThrough, hdrop, List.length_append]
    rw [hs, List.flatten_cons, List.length_append]
    omega
  · exact List.length_pos_iff.mpr hne

/-- On an appending object: the log is left as it was exactly when the failure was harmless and
no restart removes a segment. -/
theorem Appending.leavesLog_iff (h : Appending judge s.wal s.dir l v) (ha : AdmitsCall judge s c)
    (hs : appendStep s c = some (u, r)) (hfail : r.rc ≠ .OK) (errno : ℕ)
    (hread : CanRead conf (l.entries.map Rec.content)) :
    LeavesLog judge errno conf (l.entries.map Rec.entry) u ↔ Harmless s c ∧ v < l.first := by
  constructor
  · intro hP
    have hnow := hP.now hread.1
    have hh : Harmless s c := by
      obtain ⟨eb, fs⟩ := c
      cases eb with
      | none => trivial
      | some content =>
        by_contra hharm
        have hends := appendEntry_ends h ha.2 ha.1 fs
        obtain ⟨hr, rfl⟩ := appendStep_eq hs
        dsimp only at hr hnow
        generalize appendEntry s.wal (some content) s.dir fs = o at hr hends hnow
        cases hends with
        | refused large _ _ _ => exact hharm (.inl large)
        | crashed why _ result =>
          rw [result] at hr
          cases hr
        | torn f rest _ fault _ _ disk =>
          have hpos : 0 < f.done := Nat.pos_of_ne_zero fun hz =>
            hharm (.inr ⟨some f, by simp [fault], f, rfl, hz⟩)
          exact h.not_loadsExactly_torn ha.2 ha.1 hpos disk errno conf hnow
        | unacknowledged _ _ _ disk => exact h.not_loadsExactly_push ha.2 ha.1 disk errno conf hnow
        | headless k _ _ _ disk =>
          obtain ⟨d', hd, he⟩ := disk
          exact h.not_loadsExactly_header ha.2 ha.1 hd he errno conf hnow
        | done _ _ result _ _ =>
          rw [result] at hr
          cases hr
          exact hfail rfl
    refine ⟨hh, ?_⟩
    have h' := appendStep_harmless h ha hs hfail hh
    by_contra hv
    rcases reopen_readable errno conf h'.readable h'.holds h'.first_pos (h'.bound errno) h'.pending_lt with
      ⟨-, -, hbatches, -⟩ | ⟨-, hcrash⟩
    · rw [hnow.delivered] at hbatches
      have hlen := congrArg List.length hbatches
      have hpos := h.first_pos
      have hlt := length_recover_lt (Nat.le_of_not_lt hv) (h.pending (by omega))
      rw [List.length_map, List.length_map] at hlen
      omega
    · have hres := hnow.result
      rw [hcrash] at hres
      cases hres
  · rintro ⟨hh, hv⟩
    exact (appendStep_harmless h ha hs hfail hh).leavesLog hread hv

/-- After any history and any calls whose failures were harmless, a failing call leaves the log as
it was exactly when it is harmless and no number pending in the info file makes the next `Init`
remove a segment. -/
theorem failed_append_leaves_log_iff {errno errno' : ℕ} {conf conf' : LogCleanWalConfig}
    {es : List WalEvent} {s₀ s u : WalSystem} {rs : List WalReply} {calls : List AppendCall}
    {rs' : List AppendEntryResult} {call : AppendCall} {r : AppendEntryResult}
    (hP : AlongHistory judge errno conf (Admits judge) es)
    (hrun : walHistory judge errno conf es = some (s₀, rs))
    (hcalls : Along appendStep (FailsHarmless judge) s₀ calls)
    (hrun' : run appendStep s₀ calls = some (s, rs')) (hadmits : AdmitsCall judge s call)
    (hstep : appendStep s call = some (u, r)) (hfail : r.rc ≠ .OK)
    (hread : CanRead conf' ((heldEntries s.dir).map WalEntry.content)) :
    LeavesLog judge errno' conf' (heldEntries s.dir) u ↔
      Harmless s call ∧
        ∀ i ∈ listSegmentsAsc s.dir, getUncompletedTruncSegmentsMaxId errno' s.dir < i := by
  obtain ⟨l₀, v, hready, hpending⟩ := ready_of_history hP hrun
  obtain ⟨l, h⟩ := appending_of_calls (hready.appending hpending) hcalls hrun'
  have hheld := h.holds.heldEntries h.readable
  have hcontents : (heldEntries s.dir).map WalEntry.content = l.entries.map Rec.content := by
    rw [hheld, List.map_map]
    rfl
  rw [hcontents] at hread
  rw [hheld, h.bound, forall_lt_first_iff h.holds]
  exact h.leavesLog_iff hadmits hstep hfail errno' hread

end

/-- A write that fails before its first byte, after another such write: the log is left as it was. -/
theorem failed_append_leaves_log_small : ∃ s₀ rs s rs' u r,
    walHistory acceptAll 0 smallConf [.append (some [7])] = some (s₀, rs) ∧
      run appendStep s₀ [(some [5], [some ⟨0, "No space left on device"⟩]), (some [8], [])] =
        some (s, rs') ∧
      appendStep s (some [6], [some ⟨0, "No space left on device"⟩]) = some (u, r) ∧
      LeavesLog acceptAll 0 smallConf [⟨2, [7]⟩, ⟨4, [8]⟩] u := by
  have hsome : ∃ o₀ ∈ walHistory acceptAll 0 smallConf [.append (some [7])],
      ∃ o ∈ run appendStep o₀.1 [(some [5], [some ⟨0, "No space left on device"⟩]), (some [8], [])],
        (appendStep o.1 (some [6], [some ⟨0, "No space left on device"⟩])).isSome = true ∧
          Along appendStep (FailsHarmless acceptAll) o₀.1
            [(some [5], [some ⟨0, "No space left on device"⟩]), (some [8], [])] ∧
          AdmitsCall acceptAll o.1 (some [6], [some ⟨0, "No space left on device"⟩]) ∧
          (∀ q ∈ appendStep o.1 (some [6], [some ⟨0, "No space left on device"⟩]), q.2.rc ≠ .OK) ∧
          heldEntries o.1.dir = [⟨2, [7]⟩, ⟨4, [8]⟩] ∧
          Harmless o.1 (some [6], [some ⟨0, "No space left on device"⟩]) ∧
          ∀ i ∈ listSegmentsAsc o.1.dir, getUncompletedTruncSegmentsMaxId 0 o.1.dir < i := by
    decide +kernel
  obtain ⟨⟨s₀, rs⟩, hrun, ⟨s, rs'⟩, hrun', hcall, hcalls, hadmits, hfail, hheld, hharmless, hpending⟩ :=
    hsome
  obtain ⟨⟨u, r⟩, hstep⟩ := Option.isSome_iff_exists.mp hcall
  refine ⟨s₀, rs, s, rs', u, r, hrun, hrun', hstep, ?_⟩
  rw [← hheld]
  exact (failed_append_leaves_log_iff (by decide +kernel) hrun hcalls hrun' hadmits hstep
    (hfail _ hstep) (by rw [hheld]; decide)).mpr ⟨hharmless, hpending⟩

/-- What a fresh object makes of the directory after one acknowledged entry `[7]` and a failing
call for `[8]`. -/
def loadAfterFailure (conf : LogCleanWalConfig) (fs : Faults) :
    Option (Code × Ended WalResult × List WalEntry) :=
  (walHistory acceptAll 0 conf [.append (some [7])]).bind fun o =>
    (appendStep o.1 (some [8], fs)).map fun q =>
      (q.2.rc, (reopen acceptAll 0 conf q.1.dir []).value.result,
        delivered acceptAll 0 conf q.1.dir)

/-- A failing `fdatasync` and a failing `close` in the roll: the entry is delivered. A write that
stops after five bytes and a header that stops after two: the load fails. -/
theorem failed_append_changes_log :
    loadAfterFailure smallConf [none, some ⟨0, "Input/output error"⟩] =
        some (.FileSystemError, .returned .ok, [⟨2, [7]⟩, ⟨3, [8]⟩]) ∧
      loadAfterFailure tinyConf [none, none, some ⟨0, "Input/output error"⟩] =
        some (.FileSystemError, .returned .ok, [⟨2, [7]⟩, ⟨3, [8]⟩]) ∧
      loadAfterFailure smallConf [some ⟨5, "No space left on device"⟩] =
        some (.FileSystemError, .returned ⟨.FileCorrupt, fileCorruptError⟩, []) ∧
      loadAfterFailure tinyConf [none, none, none, none, some ⟨2, "No space left on device"⟩] =
        some (.FileSystemError, .returned ⟨.FileCorrupt, fileCorruptError⟩, [⟨2, [7]⟩, ⟨3, [8]⟩]) := by
  decide +kernel

end FlyingKV.Wal
