import FlyingKV.MiniKvLinear
import FlyingKV.MiniKvStore

set_option autoImplicit false

/-!
# Truncation after a checkpoint

`check_wal` truncates the log at the id that `Save` returns and takes an error for fatal.
The ids involved are those of entries of the log, as long as restarts keep its newest entry.
-/
namespace FlyingKV.MiniKv
open FileDir FramedStream Wal Checkpoint EventRun

/-- A restart does not find a number left behind that is as large as the segment of the newest
entry. -/
def KeepsLog (s : Server) : Action → Prop
  | .restart _ errnoWal conf => KeepsNewest s.wal (.restart errnoWal conf.wal)
  | _ => True

instance decidableKeepsLog (s : Server) : ∀ a, Decidable (KeepsLog s a)
  | .invoke _ => isTrue trivial
  | .advance _ => isTrue trivial
  | .check _ => isTrue trivial
  | .stop => isTrue trivial
  | .restart _ errnoWal conf => inferInstanceAs (Decidable (KeepsNewest s.wal (.restart errnoWal conf.wal)))

/-- `P` at every step of a run after the first start. -/
def AlongKv (codec : EntryCodec) (conf : KVConfig) (errnoCp errnoWal : ℕ)
    (P : Server → Action → Prop) (es : List Action) : Prop :=
  ∀ o ∈ start codec (construct conf Dir.empty Dir.empty) errnoCp errnoWal, Along (step codec) P o.1 es

instance decidableAlongKv (codec : EntryCodec) (conf : KVConfig) (errnoCp errnoWal : ℕ)
    (P : Server → Action → Prop) [∀ s a, Decidable (P s a)] (es : List Action) :
    Decidable (AlongKv codec conf errnoCp errnoWal P es) :=
  inferInstanceAs (Decidable (∀ o ∈ _, Along (step codec) P (Prod.fst o) es))

/-- No id, or the id of an entry. -/
def Known (lg : Log) (id : ℕ) : Prop := id = 0 ∨ ∃ r ∈ lg.entries, r.id = id

/-- The id at which the checkpoint in progress is taken. -/
def CheckPc.maxId? : CheckPc → Option ℕ
  | .hasId maxId => some maxId
  | .built maxId _ => some maxId
  | .prepared maxId _ => some maxId
  | .forked t => some t.maxId
  | .waiting t => some t.maxId
  | _ => none

/-- The id that `Save` has returned. -/
def CheckPc.savedId? : CheckPc → Option ℕ
  | .saved maxId => some maxId
  | .truncating maxId => some maxId
  | _ => none

structure Numbered (s : Server) (st : Store) : Prop where
  snap_le : st.snap.id ≤ s.applyId
  apply_known : Known st.log s.applyId
  newest : (∀ (r : ℕ) op id, s.requests[r]? ≠ some (ReqPc.appended op id)) → st.log.entries ≠ [] →
    s.applyId = lastId st.log
  appended : ∀ (r : ℕ) op id, s.requests[r]? = some (ReqPc.appended op id) →
    st.log.entries ≠ [] ∧ id = lastId st.log
  taken : ∀ id ∈ s.checker.maxId?, st.snap.id ≤ id ∧ id ≤ s.applyId ∧ Known st.log id
  saved : ∀ id ∈ s.checker.savedId?, id = st.snap.id ∧ Known st.log id

section
variable {codec : EntryCodec} {s u : Server} {st : Store} {l : Label}
variable {lg : Log} {id r : ℕ} {judge : Judge} {conf : KVConfig} {w : WalSystem}

theorem Known.append (h : Known lg id) (conf : LogCleanWalConfig) (r : Rec) :
    Known (Wal.append conf lg r) id :=
  h.imp_right fun ⟨a, ha, hid⟩ => ⟨a, by simp [ha], hid⟩

theorem known_lastId (h : WellFormed judge lg) (hne : lg.entries ≠ []) : Known lg (lastId lg) := by
  obtain ⟨t, r, ht, hr, hid⟩ := h.newest hne
  exact .inr ⟨r, SegmentedLog.mem_entries_iff.mpr ⟨_, t, ht, hr⟩, hid⟩

theorem Known.le (h : Known lg id) (hwf : WellFormed judge lg) : id ≤ lastId lg := by
  rcases h with rfl | ⟨r, hr, rfl⟩
  · exact Nat.zero_le _
  · exact hwf.id_le_lastId hr

/-- A clean-up before the last filled segment leaves the newest entry. -/
theorem recover_newest (h : WellFormed judge lg) (hne : lg.entries ≠ []) {b : ℕ} (hb : b < lastFilled lg) :
    (recover lg b).entries ≠ [] := by
  obtain ⟨t, r, ht, hr, -⟩ := h.newest hne
  exact List.ne_nil_of_mem (mem_recover.mpr ⟨_, t, hb, ht, hr⟩)

/-- A step that changes neither the store nor the apply id. -/
theorem Numbered.keep (h : Numbered s st) (apply : u.applyId = s.applyId)
    (requests : ∀ (r : ℕ) op id, u.requests[r]? = some (ReqPc.appended op id) ↔
      s.requests[r]? = some (ReqPc.appended op id))
    (taken : ∀ id ∈ u.checker.maxId?, st.snap.id ≤ id ∧ id ≤ s.applyId ∧ Known st.log id)
    (saved : ∀ id ∈ u.checker.savedId?, id = st.snap.id ∧ Known st.log id) : Numbered u st where
  snap_le := apply ▸ h.snap_le
  apply_known := apply ▸ h.apply_known
  newest hno hne := apply ▸ h.newest (fun r op id hr => hno r op id ((requests r op id).mpr hr)) hne
  appended r op id hr := h.appended r op id ((requests r op id).mp hr)
  taken := apply ▸ taken
  saved := saved

theorem appended_set_iff {pc₀ pc : ReqPc} (hr : s.requests[r]? = some pc₀) (h₀ : ∀ op id, pc₀ ≠ .appended op id)
    (h : ∀ op id, pc ≠ .appended op id) (r' : ℕ) (op : Op) (id : ℕ) :
    (s.requests.set r pc)[r']? = some (ReqPc.appended op id) ↔
      s.requests[r']? = some (ReqPc.appended op id) := by
  rw [get_set hr]
  split_ifs with he
  · rw [he, hr]
    simp only [Option.some.injEq]
    exact ⟨fun hp => absurd hp (h op id), fun hp => absurd hp (h₀ op id)⟩
  · rfl

/-- One request moves on, not from and not to the point behind its append. -/
theorem Numbered.moveTo (h : Numbered s st) {pc₀ pc : ReqPc} (hr : s.requests[r]? = some pc₀)
    (h₀ : ∀ op id, pc₀ ≠ .appended op id) (hpc : ∀ op id, pc ≠ .appended op id) (apply : u.applyId = s.applyId)
    (requests : u.requests = s.requests.set r pc) (checker : u.checker = s.checker) : Numbered u st :=
  h.keep apply (fun r' op id => requests ▸ appended_set_iff hr h₀ hpc r' op id)
    (checker ▸ h.taken) (checker ▸ h.saved)

theorem Numbered.check (h : Numbered s st) (apply : u.applyId = s.applyId)
    (requests : u.requests = s.requests) (taken : u.checker.maxId? = s.checker.maxId? ∨ u.checker.maxId? = none)
    (saved : u.checker.savedId? = s.checker.savedId? ∨ u.checker.savedId? = none) : Numbered u st := by
  refine h.keep apply (fun r op id => by rw [requests]) (fun id hid => ?_) fun id hid => ?_
  · rcases taken with he | he
    · exact h.taken id (he ▸ hid)
    · rw [he] at hid
      cases hid
  · rcases saved with he | he
    · exact h.saved id (he ▸ hid)
    · rw [he] at hid
      cases hid

/-- Whoever is behind its append holds the lock. -/
theorem not_appended (h : LockOk s) (hlock : ∀ r, s.walLock ≠ some (.request r)) (r : ℕ) (op : Op)
    (id : ℕ) : s.requests[r]? ≠ some (ReqPc.appended op id) :=
  fun hr => hlock r (h.request r _ hr rfl)

theorem Numbered.append (h : Numbered s st) (hlock : LockOk s) {op : Op} (pc : s.requests[r]? = some (.locked op))
    (w : WalSystem) :
    Numbered (MiniKv.moveTo { s with wal := w } r (.appended op (lastId st.log + 1)))
      { st with log := Wal.append s.wal.wal.conf st.log (nextRec s.wal.wal st.log (op.encode codec)) } where
  snap_le := h.snap_le
  apply_known := h.apply_known.append _ _
  newest hno _ := by
    refine absurd ?_ (hno r op (lastId st.log + 1))
    change (s.requests.set r _)[r]? = _
    rw [get_set pc, if_pos rfl]
  appended r' op' id' hr' := by
    refine ⟨by simp, ?_⟩
    rw [lastId_append]
    change (s.requests.set r _)[r']? = _ at hr'
    rw [get_set pc] at hr'
    split_ifs at hr' with he
    · cases hr'
      rfl
    · have hr := hlock.request r _ pc rfl
      rw [hlock.request r' _ hr' rfl] at hr
      cases hr
      exact absurd rfl he
  taken id hid := by
    obtain ⟨h₁, h₂, h₃⟩ := h.taken id hid
    exact ⟨h₁, h₂, h₃.append _ _⟩
  saved id hid := by
    obtain ⟨h₁, h₂⟩ := h.saved id hid
    exact ⟨h₁, h₂.append _ _⟩

theorem Numbered.note (h : Numbered s st) (hst : Stored codec s st) {op : Op}
    (pc : s.requests[r]? = some (.appended op id)) :
    Numbered (MiniKv.moveTo { s with applyId := if s.applyId < id then id else s.applyId } r (.noted op id))
      st := by
  obtain ⟨hne, hid⟩ := h.appended r op id pc
  have hle := h.apply_known.le hst.ready.wf
  have happly : (if s.applyId < id then id else s.applyId) = lastId st.log := by
    split_ifs <;> omega
  refine ⟨?_, ?_, fun _ _ => happly, fun r' op' id' hr' => ?_, fun id' hid' => ?_, h.saved⟩
  · exact h.snap_le.trans (hle.trans happly.ge)
  · change Known st.log (if s.applyId < id then id else s.applyId)
    rw [happly]
    exact known_lastId hst.ready.wf hne
  · change (s.requests.set r _)[r']? = _ at hr'
    rw [get_set pc] at hr'
    split_ifs at hr'
    · cases hr'
    · exact h.appended r' op' id' hr'
  · obtain ⟨h₁, h₂, h₃⟩ := h.taken id' hid'
    exact ⟨h₁, h₂.trans (hle.trans happly.ge), h₃⟩

theorem Numbered.save (h : Numbered s st) {t : Traveller} (pc : s.checker = .waiting t) {e : CpDir}
    {rs : LoadCheckpointResult} {version : UInt8}
    (hid : rs.rc = .OK → rs.maxId = (st.snap.next version t rs).id) :
    Numbered { s with cpDir := e, checker := if rs.rc = .OK then .saved rs.maxId else .idle }
      { st with snap := st.snap.next version t rs } := by
  obtain ⟨hle, happly, hknown⟩ := h.taken t.maxId (by rw [pc]; rfl)
  have hsnap : (st.snap.next version t rs).id ≤ s.applyId := by
    rw [Snapshot.next]
    split_ifs
    · exact happly
    · exact h.snap_le
  refine ⟨hsnap, h.apply_known, h.newest, h.appended, fun id hi => ?_, fun id hi => ?_⟩
  · change id ∈ (if rs.rc = .OK then CheckPc.saved rs.maxId else .idle).maxId? at hi
    split_ifs at hi <;> cases hi
  · change id ∈ (if rs.rc = .OK then CheckPc.saved rs.maxId else .idle).savedId? at hi
    split_ifs at hi with hok
    · cases hi
      refine ⟨hid hok, ?_⟩
      -- whether or not a new snapshot was written, its id is the one of the traveller
      have : (st.snap.next version t rs).id = t.maxId := by
        rw [Snapshot.next]
        split_ifs with hnew
        · rfl
        · exact le_antisymm hle (not_lt.mp fun hlt => hnew ⟨hok, hlt⟩)
      rw [hid hok, this]
      exact hknown
    · cases hi

theorem Numbered.cut (h : Numbered s st) (hst : Stored codec s st) {maxId i pending : ℕ}
    (pc : s.checker = .truncating maxId) (hi : s.wal.wal.mpEntriesIdSegId maxId = some i) (w : WalSystem) :
    Numbered { s with wal := w, checker := .truncated }
      { st with log := recover st.log (keptFrom st.log i - 1), pending := pending } := by
  obtain ⟨t, ht, a, ha, -⟩ := (hst.ready.index _ _).mp hi
  have hfirst := hst.ready.wf.first_pos
  have hkept := keptFrom_bounds ht ha
  have hb : keptFrom st.log i - 1 < lastFilled st.log := by omega
  have hne : st.log.entries ≠ [] :=
    List.ne_nil_of_mem (SegmentedLog.mem_entries_iff.mpr ⟨i, t, ht, ha⟩)
  have hheld := hst.lock.checker (by rw [pc]; rfl)
  have hno := not_appended hst.lock (fun r => by simp [hheld])
  have hlast := lastId_recover hst.ready.wf (v := keptFrom st.log i - 1) fun _ => hb
  have happly : s.applyId = lastId (recover st.log (keptFrom st.log i - 1)) :=
    (h.newest hno hne).trans hlast.symm
  refine ⟨h.snap_le, ?_, fun _ _ => happly, fun r op id hr => absurd hr (hno r op id),
    fun id hid => (by cases hid), fun id hid => (by cases hid)⟩
  have hnew := recover_newest hst.ready.wf hne hb
  change Known _ s.applyId
  rw [happly]
  have hwf : WellFormed (walJudge codec) (recover st.log (keptFrom st.log i - 1)) := by
    rw [recover, if_pos (by omega)]
    exact hst.ready.wf.dropThrough (by omega)
  exact known_lastId hwf hnew

theorem quiet_lock (h : quiet s = true) : s.walLock = none := by
  simp only [quiet, Bool.and_eq_true, decide_eq_true_eq] at h
  exact h.1.2

/-- Replaying a log takes the apply id to its newest id. -/
theorem Started.applyId {p : Snapshot} (hs : Started codec conf p w (lg.entries.map Rec.entry) u)
    (hwf : WellFormed (walJudge codec) lg)
    (hlog : ∀ r ∈ lg.entries, ∃ op : Op, op.Sized codec ∧ r.content = op.encode codec) (hle : p.id ≤ lastId lg) :
    u.applyId = if lg.entries = [] then p.id else lastId lg := by
  have happly : u.applyId = (onWalLoadEntries ⟨loadedKvs codec p, p.id⟩ (logOps codec lg)).applyId :=
    (congrArg Replay.applyId hs.replay).symm
  rw [happly]
  rcases List.eq_nil_or_concat lg.entries with hnil | ⟨rs, r, hrs⟩
  · rw [if_pos hnil, logOps, hnil]
    rfl
  · rw [List.concat_eq_append] at hrs
    have hr : r ∈ lg.entries := by simp [hrs]
    obtain ⟨op, hop, hcontent⟩ := hlog r hr
    have hlast : lastId lg = r.id := by simp [lastId, hrs]
    have hops : logOps codec lg = (rs.map Rec.entry).filterMap (loadedEntry codec) ++ [⟨r.id, op⟩] := by
      rw [logOps, hrs, List.map_append, List.filterMap_append, List.map_singleton,
        List.filterMap_cons_some (loadedEntry_encode hop hcontent), List.filterMap_nil]
    rw [if_neg (List.ne_nil_of_mem hr), hlast, hops]
    refine replay_applyId_last (p := ⟨r.id, op⟩) (hlast ▸ hle) fun q hq => ?_
    obtain ⟨e, he, hq⟩ := List.mem_filterMap.mp hq
    obtain ⟨a, ha, rfl⟩ := List.mem_map.mp he
    have hid : q.id = a.id := by
      obtain ⟨_, -, rfl⟩ := Option.map_eq_some_iff.mp hq
      rfl
    have hp := hwf.pairwise
    rw [hrs] at hp
    rw [hid]
    exact (List.pairwise_append.mp hp).2.2 a ha r (by simp)

theorem Numbered.restart (h : Numbered s st) (hst : Stored codec s st) (still : quiet s = true) {errnoWal : ℕ}
    (hk : KeepsNewest s.wal (.restart errnoWal conf.wal))
    (hs : Started codec conf st.snap w ((recover st.log st.pending).entries.map Rec.entry) u)
    (hw : Ready (walJudge codec) w.wal w.dir (recover st.log st.pending) 0) :
    Numbered u ⟨recover st.log st.pending, 0, st.snap⟩ := by
  have hno := not_appended hst.lock (fun r => by simp [quiet_lock still])
  have hb : st.log.entries ≠ [] → st.pending < lastFilled st.log := fun hne => by
    have := hk _ (hst.ready.newest_index hne)
    rwa [hst.ready.bound errnoWal] at this
  have hlast := lastId_recover hst.ready.wf hb
  have hle := h.snap_le.trans (h.apply_known.le hst.ready.wf)
  have happly := hs.applyId hw.wf (fun r hr => hst.log r (mem_recover_entries hr)) (hlast ▸ hle)
  -- an empty log was empty before, and then nothing was ever numbered
  have hzero : (recover st.log st.pending).entries = [] → st.snap.id = 0 := fun hnil => by
    have hlg : st.log.entries = [] := by
      by_contra hne
      exact recover_newest hst.ready.wf hne (hb hne) hnil
    rcases h.apply_known with h0 | ⟨r, hr, -⟩
    · exact Nat.le_zero.mp (h0 ▸ h.snap_le)
    · rw [hlg] at hr
      cases hr
  refine ⟨?_, ?_, fun _ hne => by rw [happly, if_neg hne], fun r op id hr => ?_, fun id hid => ?_,
    fun id hid => ?_⟩
  · rw [happly]
    split_ifs
    · exact le_rfl
    · exact hlast ▸ hle
  · rw [happly]
    split_ifs with hnil
    · exact .inl (hzero hnil)
    · exact known_lastId hw.wf hnil
  · simp [hs.requests] at hr
  · rw [hs.checker] at hid
    cases hid
  · rw [hs.checker] at hid
    cases hid

theorem Numbered.step (h : Numbered s st) (hst : Stored codec s st) {a : Action}
    (hroom : Roomy codec s a) (hk : KeepsLog s a) (hm : Moved codec s a u l) :
    Numbered u (st.next codec s a l) := by
  cases hm with
  | @entered req =>
    refine h.keep rfl (fun r op id => ⟨fun hr => ?_, fun hr => ?_⟩) h.taken h.saved
    · rcases get_invoke hr with hr | ⟨-, he⟩
      · exact hr
      · rcases enter_cases s.stopped req with ⟨_, h⟩ | ⟨_, h, -⟩ | ⟨_, h⟩ <;> rw [h] at he <;> cases he
    · obtain ⟨hlt, -⟩ := List.getElem?_eq_some_iff.mp hr
      exact (List.getElem?_append_left hlt).trans hr
  | lockTaken pc _ => exact h.moveTo pc (by simp) (by simp) rfl rfl rfl
  | appended pc wal ok =>
    rcases hst.append pc hroom wal with ⟨hno, -⟩ | ⟨rfl, -, -⟩
    · exact absurd ok hno
    · exact h.append hst.lock pc _
  | refused pc _ _ => exact h.moveTo pc (by simp) (by simp) rfl rfl rfl
  | noted pc => exact h.note hst pc
  | updated pc => exact h.moveTo pc (by simp) (by simp) rfl rfl rfl
  | acked pc => exact h.moveTo pc (by simp) (by simp) rfl rfl rfl
  | failed pc => exact h.moveTo pc (by simp) (by simp [failure]) rfl rfl rfl
  | answered pc => exact h.moveTo pc (by simp) (by simp) rfl rfl rfl
  | small pc =>
    simp only [Store.next, pc]
    exact h
  | sized pc =>
    simp only [Store.next, pc]
    exact h.check rfl rfl (.inr rfl) (.inr rfl)
  | idRead pc =>
    simp only [Store.next, pc]
    refine h.keep rfl (fun _ _ _ => Iff.rfl) (fun id hid => ?_) (fun id hid => by cases hid)
    cases hid
    exact ⟨h.snap_le, le_rfl, h.apply_known⟩
  | built pc =>
    simp only [Store.next, pc]
    exact h.check rfl rfl (.inl (by rw [pc]; rfl)) (.inr rfl)
  | prepared pc _ =>
    simp only [Store.next, pc]
    exact h.check rfl rfl (.inl (by rw [pc]; rfl)) (.inr rfl)
  | forked pc _ =>
    simp only [Store.next, pc]
    exact h.check rfl rfl (.inl (by rw [pc]; rfl)) (.inr rfl)
  | released pc =>
    simp only [Store.next, pc]
    exact h.check rfl rfl (.inl (by rw [pc]; rfl)) (.inr rfl)
  | @saved errno t pc =>
    obtain ⟨rs, e, hsave, -, hid⟩ := hst.save pc errno
    rw [hsave]
    simp only [Store.next, pc]
    exact h.save pc hid
  | truncLock pc _ =>
    simp only [Store.next, pc]
    exact h.check rfl rfl (.inr rfl) (.inl (by rw [pc]; rfl))
  | truncated pc wal ok =>
    obtain ⟨i, hi, -⟩ := hst.truncate wal ok
    simp only [Store.next, pc, hi]
    exact h.cut hst pc hi _
  | finished pc =>
    simp only [Store.next, pc]
    exact h.check rfl rfl (.inr rfl) (.inr rfl)
  | stopped => exact h.check rfl rfl (.inl rfl) (.inl rfl)
  | @restarted errnoCp errnoWal conf _ ok still new =>
    obtain ⟨u', w, hu, hs, hw⟩ := hst.start hroom errnoCp errnoWal
    rw [hu] at new
    cases new
    exact h.restart hst still hk hs hw

theorem numbered_first (h : Started codec conf ⟨0, 0, []⟩ w [] s) :
    Numbered s ⟨SegmentedLog.start 1, 0, ⟨0, 0, []⟩⟩ where
  snap_le := Nat.zero_le _
  apply_known := .inl (congrArg Replay.applyId h.replay).symm
  newest _ hne := absurd rfl hne
  appended r op id hr := by simp [h.requests] at hr
  taken id hid := by
    rw [h.checker] at hid
    cases hid
  saved id hid := by
    rw [h.checker] at hid
    cases hid

theorem numbered_history {errnoCp errnoWal : ℕ} {es : List Action} {ls : List Label}
    (hP : AlongKv codec conf errnoCp errnoWal (fun s a => Roomy codec s a ∧ KeepsLog s a) es)
    (hrun : kvHistory codec conf errnoCp errnoWal es = some (s, ls)) :
    ∃ st, Stored codec s st ∧ Numbered s st := by
  obtain ⟨u, w, hu, hs, hready, -⟩ := start_first codec conf errnoCp errnoWal
  rw [kvHistory, hu, Option.bind_some] at hrun
  refine run_invariant (I := fun s _ => ∃ st, Stored codec s st ∧ Numbered s st) ?_ []
    ⟨_, stored_first hs hready, numbered_first hs⟩ (hP _ hu) hrun
  rintro s _ a u l ⟨st, hst, hnum⟩ ⟨hroom, hk⟩ hstep
  have hm := step_moved hstep
  exact ⟨_, hst.step hroom hm, hnum.step hst hroom hk hm⟩

/-- In every state in which `check_wal` is about to truncate at the id that `Save` returned, the
truncation returns `OK` if and only if the id is not 0 and it is not the case that the whole
log lies in one segment and `m_minSegmentId` is smaller than its number. -/
theorem check_truncate_ok_iff (conf : KVConfig) (errnoCp errnoWal : ℕ) {es : List Action} {ls : List Label}
    (hP : AlongKv codec conf errnoCp errnoWal (fun s a => Roomy codec s a ∧ KeepsLog s a) es)
    (hrun : kvHistory codec conf errnoCp errnoWal es = some (s, ls)) {maxId : ℕ}
    (hpc : s.checker = .truncating maxId) :
    (truncate s.wal.wal maxId s.wal.dir []).value.2 = .returned .ok ↔
      maxId ≠ 0 ∧ ∀ i ∈ s.wal.wal.mpEntriesIdSegId maxId,
        s.wal.wal.mpEntriesIdSegId s.wal.wal.currentEntryIdx = some i →
        (listSegmentsAsc s.wal.dir).head? = some i → i ≤ s.wal.wal.minSegmentId := by
  obtain ⟨st, hst, hnum⟩ := numbered_history hP hrun
  have h := hst.ready
  obtain ⟨-, hknown⟩ := hnum.saved maxId (by rw [hpc]; rfl)
  have hhead : (listSegmentsAsc s.wal.dir).head? = some st.log.first := by
    rw [h.holds.listSegmentsAsc, List.range'_succ, List.head?_cons]
  cases hi : s.wal.wal.mpEntriesIdSegId maxId with
  | none =>
    rw [truncate_missing h hi]
    refine iff_of_false (by simp [WalResult.ok]) ?_
    rintro ⟨hne, -⟩
    obtain ⟨r, hr, rfl⟩ := hknown.resolve_left hne
    obtain ⟨j, t, ht, hrt⟩ := SegmentedLog.mem_entries_iff.mp hr
    rw [(h.index r.id j).mpr ⟨t, ht, r, hrt, rfl⟩] at hi
    cases hi
  | some i =>
    obtain ⟨t, ht, a, ha, hid⟩ := (h.index _ _).mp hi
    have hmem : a ∈ st.log.entries := SegmentedLog.mem_entries_iff.mpr ⟨i, t, ht, ha⟩
    have hne : maxId ≠ 0 := by
      have := (h.wf.ids a hmem).1
      omega
    have hbound := (SegmentedLog.seg_bounds ht).1
    simp only [hne, ne_eq, not_false_eq_true, true_and, Option.mem_def, Option.some.injEq, hhead,
      h.newest_index (List.ne_nil_of_mem hmem)]
    cases truncate_spec h ht ha hid with
    | noop kept min result ready wal =>
      refine iff_of_true result ?_
      rintro _ rfl - rfl
      exact min
    | stuck kept min result ready wal =>
      -- nothing is kept back only if the one segment is the first and the last
      refine iff_of_false (by rw [result]; simp [Wal.fileSystemError, WalResult.ok]) fun hall => ?_
      unfold keptFrom at kept
      split_ifs at kept with hlast
      · exact absurd (hall i rfl hlast.symm kept.symm) (by omega)
      · omega
    | cut kept result ready min conf =>
      refine iff_of_true result ?_
      rintro _ rfl hlast hfirst
      rw [keptFrom, if_pos hlast.symm] at kept
      omega

end

/-- A segment for every entry. -/
def tinyKv : KVConfig := ⟨tinyConf, smallCpConf, 0⟩

/-- `check_wal` up to the call of `Truncate`. -/
def checkSaved : List Action := List.replicate 8 (.check 0)

def checkAll : List Action := List.replicate 10 (.check 0)

/-- A checkpoint that cuts the log, a restart, and the next checkpoint. -/
def cutAndRestart : List Action :=
  writeAll 0 (.put (some ⟨[97], [1]⟩)) ++ writeAll 1 (.put (some ⟨[98], [2]⟩)) ++ checkAll ++
    .restart 0 0 tinyKv :: writeAll 0 (.put (some ⟨[99], [3]⟩)) ++ checkSaved

theorem check_truncate_ok_restarted :
    ∃ s ls, kvHistory wireCodec tinyKv 0 0 cutAndRestart = some (s, ls) ∧
      s.checker = .truncating 4 ∧ (truncate s.wal.wal 4 s.wal.dir []).value.2 = .returned .ok := by
  obtain ⟨⟨s, ls⟩, hrun⟩ := Option.isSome_iff_exists.mp
    (by decide +kernel : (kvHistory wireCodec tinyKv 0 0 cutAndRestart).isSome = true)
  have hend : ∀ o ∈ kvHistory wireCodec tinyKv 0 0 cutAndRestart, o.1.checker = .truncating 4 ∧
      4 ≠ 0 ∧ ∀ i ∈ o.1.wal.wal.mpEntriesIdSegId 4,
        o.1.wal.wal.mpEntriesIdSegId o.1.wal.wal.currentEntryIdx = some i →
        (listSegmentsAsc o.1.wal.dir).head? = some i → i ≤ o.1.wal.wal.minSegmentId := by
    decide +kernel
  obtain ⟨hpc, hcond⟩ := hend _ hrun
  exact ⟨s, ls, hrun, hpc, (check_truncate_ok_iff tinyKv 0 0 (by decide +kernel) hrun hpc).mpr hcond⟩

/-- Three ways to the fatal log: a checkpoint of a store without entries; a third checkpoint after
one that cut the log and one that found nothing to do; and a checkpoint after a restart that
removed the only segment. -/
theorem check_truncate_fails :
    (kvHistory wireCodec smallKv 0 0 checkSaved).map (fun o =>
        (o.2[6]?, o.1.checker, (truncate o.1.wal.wal 0 o.1.wal.dir []).value.2)) =
      some (some (.saved ⟨.OK, "", 0⟩), .truncating 0,
        .returned ⟨.InvalidEntryId, Wal.invalidEntryIdError⟩) ∧
    (kvHistory wireCodec tinyKv 0 0 (writeAll 0 (.put (some ⟨[97], [1]⟩)) ++
        writeAll 1 (.put (some ⟨[98], [2]⟩)) ++ checkAll ++ checkAll ++ checkSaved)).map (fun o =>
        (o.1.checker, (truncate o.1.wal.wal 3 o.1.wal.dir []).value.2)) =
      some (.truncating 3, .returned (Wal.fileSystemError FileUtils.ENOENT)) ∧
    (kvHistory wireCodec smallKv 0 0 (writeAll 0 (.put (some ⟨[97], [1]⟩)) ++ checkAll ++
        .restart 0 0 smallKv :: checkSaved)).map (fun o =>
        (o.1.checker, (truncate o.1.wal.wal 2 o.1.wal.dir []).value.2)) =
      some (.truncating 2, .returned ⟨.InvalidEntryId, Wal.invalidEntryIdError⟩) := by
  decide +kernel

end FlyingKV.MiniKv
