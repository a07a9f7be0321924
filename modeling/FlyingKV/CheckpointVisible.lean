import FlyingKV.CheckpointCrash
import FlyingKV.FaultTriple

set_option autoImplicit false

/-!
# The checkpoint that `Init` and `Load` find in any directory

Whatever the files hold, recovery decides by the OK flag which pair of files is the
checkpoint, and `Load` looks at nothing else. The lemmas on recovery and on the
preparation of a new checkpoint hold for every schedule of failing calls.
-/
namespace FlyingKV.Checkpoint
open ByteOrder CommonUtils FileDir DiskProgram FileUtils FramedStream CrashTriple FaultTriple

/-- What `.meta` and `smcp` will hold after recovery; `none` when recovery fails. -/
def visible (d : CpDir) : Option (Option Bytes × Option Bytes) :=
  if d.exist .saveOk then
    match d.get .newCpMeta, d.get .newCp with
    | some m, some c => some (some m, some c)
    | _, _ => none
  else some (d.get .cpMeta, d.get .cp)

section
variable {d e : CpDir}

theorem visible_of_flag (h : d.get .saveOk = none) : visible d = some (d.get .cpMeta, d.get .cp) := by
  rw [visible, if_neg (by simp [not_exist_of_get h])]

theorem visible_committed (h : d.get .saveOk ≠ none) {m c : Bytes} (hm : d.get .newCpMeta = some m)
    (hc : d.get .newCp = some c) : visible d = some (some m, some c) := by
  simp only [visible, (exist_iff d _).mpr h, if_true, hm, hc]

theorem visible_stuck (h : d.get .saveOk ≠ none) (hm : d.get .newCpMeta = none) : visible d = none := by
  simp only [visible, (exist_iff d _).mpr h, if_true, hm]

/-! ## Recovery under faults -/

theorem always_allOf_nil {Q : CheckpointResult → CpDir → Prop} (h : Q .ok d) : Always (allOf []) d Q :=
  Always.pure h

theorem always_allOf_cons {R : CpDir → Prop} {Q : CheckpointResult → CpDir → Prop}
    {m : Program CpDir (Option String)} {ms : List (Program CpDir (Option String))}
    (hm : Always m d (fun r e => match r with
      | none => R e
      | some msg => Q (fileSystemError msg) e))
    (hms : ∀ e, R e → Always (allOf ms) e Q) : Always (allOf (m :: ms)) d Q := by
  refine Always.bind hm fun r e h => ?_
  cases r with
  | none => exact hms e h
  | some msg => exact Always.pure h

theorem replaceOldCheckpoint_always :
    Always replaceOldCheckpoint d (fun rs e => rs.rc = .OK → ∃ m c, d.get .newCpMeta = some m ∧
      d.get .newCp = some c ∧ e.get .cpMeta = some m ∧ e.get .cp = some c) := by
  have hbad {P : Prop} (msg : String) : (fileSystemError msg).rc = .OK → P := nofun
  refine always_allOf_cons (R := fun e => ∀ n, n ≠ .cpMeta → e.get n = d.get n)
    (Always.unlink _ (fun e he n hn => by rw [he, if_neg hn]) fun msg => hbad msg) fun e he => ?_
  refine always_allOf_cons (R := fun e => ∀ n, n ≠ .cpMeta → n ≠ .cp → e.get n = d.get n)
    (Always.unlink _ (fun e' he' n hn hn' => by rw [he', if_neg hn', he n hn]) fun msg => hbad msg)
    fun e he => ?_
  refine always_allOf_cons (R := fun e => e.get .newCp = d.get .newCp ∧
      ∃ m, d.get .newCpMeta = some m ∧ e.get .cpMeta = some m)
    (Always.renameFile _ _ (fun e' m hm he' => ?_) fun msg => hbad msg) fun e he => ?_
  · exact ⟨(he' _).trans (he _ (by decide) (by decide)), m,
      (he _ (by decide) (by decide)).symm.trans hm, he' _⟩
  obtain ⟨hnew, m, hm, hmeta⟩ := he
  refine always_allOf_cons (R := fun e => ∃ c, d.get .newCp = some c ∧ e.get .cpMeta = some m ∧
      e.get .cp = some c)
    (Always.renameFile _ _ (fun e' c hc he' => ?_) fun msg => hbad msg) fun e he => ?_
  · exact ⟨c, hnew.symm.trans hc, (he' _).trans hmeta, he' _⟩
  obtain ⟨c, hc, hmeta, hcp⟩ := he
  exact always_allOf_nil fun _ => ⟨m, c, hm, hc, hmeta, hcp⟩

/-- Removing the unfinished checkpoint keeps the finished one, if there is no OK flag. -/
theorem cleanNewCpTmp_always (h : d.get .saveOk = none) :
    Always cleanNewCpTmp d (fun _ e => e.get .saveOk = none ∧ e.get .cpMeta = d.get .cpMeta ∧
      e.get .cp = d.get .cp) := by
  intro fs
  have hleaves (n : CpFile) (hn : n = .cpMeta ∨ n = .cp) : Leaves cleanNewCpTmp n := by
    refine leaves_allOf fun m hm => ?_
    simp only [List.mem_cons, List.not_mem_nil, or_false] at hm
    rcases hn with rfl | rfl <;> rcases hm with rfl | rfl | rfl | rfl <;>
      exact Leaves.unlink (by decide)
  have hflag : Always cleanNewCpTmp d (fun _ e => e.get .saveOk = none) := by
    have hstep (n : CpFile) (e : CpDir) (he : e.get .saveOk = none) :
        Always (unlink n) e (fun r e => match r with
          | none => e.get .saveOk = none
          | some _ => e.get .saveOk = none) := by
      refine Always.unlink n (fun e' he' => ?_) fun _ => he
      rw [he', he, ite_self]
    refine always_allOf_cons (hstep _ d h) fun e he => ?_
    refine always_allOf_cons (hstep _ e he) fun e he => ?_
    refine always_allOf_cons (hstep _ e he) fun e he => ?_
    exact always_allOf_cons (hstep _ e he) fun e he => always_allOf_nil he
  exact ⟨hflag fs, hleaves _ (.inl rfl) d fs, hleaves _ (.inr rfl) d fs⟩

/-- Recovery that succeeds has brought the visible checkpoint into place. -/
theorem checkAndRecover_always :
    Always checkAndRecover d (fun rs e => rs.rc = .OK → e.get .saveOk = none ∧
      visible d = some (e.get .cpMeta, e.get .cp)) := by
  cases hc : isCompleted d with
  | true =>
    refine Always.peek_bind hc (Always.pure fun _ => ?_)
    simp only [isCompleted, Bool.and_eq_true, Bool.not_eq_true'] at hc
    have hflag : d.get .saveOk = none := get_of_not_exist hc.2
    exact ⟨hflag, visible_of_flag hflag⟩
  | false =>
    refine Always.peek_bind hc (Always.peek_bind rfl ?_)
    cases hb : d.exist .saveOk with
    | true =>
      have hflag : d.get .saveOk ≠ none := (exist_iff d _).mp hb
      refine Always.bind replaceOldCheckpoint_always fun rs e h => ?_
      split_ifs with hrc
      · exact Always.pure fun h => absurd h hrc
      obtain ⟨m, c, hm, hc, hmeta, hcp⟩ := h (not_not.mp hrc)
      rw [visible_committed hflag hm hc]
      refine Always.bind (Q := fun r e => r = none → e.get .saveOk = none ∧ e.get .cpMeta = some m ∧
        e.get .cp = some c) (Always.unlink _ (fun e' he' _ => ?_) fun _ h => by cases h) fun r e h => ?_
      · exact ⟨he' _, (he' _).trans hmeta, (he' _).trans hcp⟩
      · cases r with
        | some msg => exact Always.pure fun h => by cases h
        | none =>
          obtain ⟨h₁, h₂, h₃⟩ := h rfl
          exact Always.pure fun _ => ⟨h₁, by rw [h₂, h₃]⟩
    | false =>
      have hflag : d.get .saveOk = none := get_of_not_exist hb
      refine (cleanNewCpTmp_always hflag).imp fun rs e h _ => ⟨h.1, ?_⟩
      rw [visible_of_flag hflag, h.2.1, h.2.2]

/-- Without faults recovery succeeds when both new files are there or the OK flag is not. -/
theorem checkAndRecover_safe (h : visible d ≠ none) :
    Safe checkAndRecover d (fun _ => True) (fun rs _ => rs = .ok) := by
  have hunlink (n : CpFile) (e : CpDir) : Safe (unlink n) e (fun _ => True) (fun r _ => r = none ∧ True) :=
    Safe.unlink n fun _ _ => ⟨trivial, rfl, trivial⟩
  refine Safe.peek_bind rfl ?_
  cases isCompleted d with
  | true => exact Safe.pure rfl
  | false =>
    refine Safe.peek_bind rfl ?_
    cases hb : d.exist .saveOk with
    | false =>
      refine allOf_cons (hunlink _ d) fun e _ => ?_
      refine allOf_cons (hunlink _ e) fun e _ => ?_
      refine allOf_cons (hunlink _ e) fun e _ => ?_
      exact allOf_cons (hunlink _ e) fun e _ => allOf_nil rfl
    | true =>
      have hflag := (exist_iff d _).mp hb
      obtain ⟨m, c, hm, hc⟩ : ∃ m c, d.get .newCpMeta = some m ∧ d.get .newCp = some c := by
        cases hm : d.get .newCpMeta with
        | none => exact absurd (visible_stuck hflag hm) h
        | some m =>
          cases hc : d.get .newCp with
          | none => exact absurd (by simp only [visible, hb, if_true, hm, hc]) h
          | some c => exact ⟨m, c, rfl, rfl⟩
      refine Safe.bind ((replaceOldCheckpoint_safe hflag hm hc).imp (fun _ _ => trivial) fun _ _ h => h.1) ?_
      rintro rs e rfl
      refine Safe.bind (hunlink _ e) ?_
      rintro r e ⟨rfl, -⟩
      exact Safe.pure rfl

/-! ## Load of the visible checkpoint -/

/-- What a `Load` that returned OK has given to its caller. -/
def CheckpointLoad.loaded (r : CheckpointLoad) : Option (ℕ × List Bytes) :=
  match r.result with
  | .crashed _ => none
  | .returned rs => if rs.rc = .OK then some (rs.maxId, r.batches.flatten) else none

variable {judge : Judge} {conf : EntryOrderCheckpointConfig}

variable (judge conf) in
theorem initLoad_value (errno : ℕ) {v : Option Bytes × Option Bytes} (h : visible d = some v) :
    ∃ e : CpDir, (e.get .cpMeta, e.get .cp) = v ∧ (initLoad judge errno conf d []).value =
      (load judge errno { create conf with bInited := true } e []).value.loaded := by
  have hsafe := init_safe (create conf) (checkAndRecover_safe (h ▸ Option.some_ne_none v))
  obtain ⟨-, ⟨hobj, hrs⟩, hfaults⟩ := hsafe
  refine ⟨(init (create conf) d []).disk, ?_, ?_⟩
  · have hdisk : (init (create conf) d []).disk = (checkAndRecover d []).disk := rfl
    have hrc : (checkAndRecover d []).value.rc = .OK := by
      rw [show (checkAndRecover d []).value = .ok from hrs]
      rfl
    rw [hdisk, ← Option.some.injEq, ← h]
    exact (checkAndRecover_always [] hrc).2.symm
  · simp only [initLoad, bind_run, hfaults, hrs, CheckpointResult.ok, ne_eq, not_true_eq_false, if_false,
      hobj, CheckpointLoad.loaded]
    cases (load judge errno { create conf with bInited := true } (init (create conf) d []).disk []).value.result with
    | crashed why => rfl
    | returned rs => rfl

theorem initLoad_invisible (errno : ℕ) (h : visible d = none) :
    (initLoad judge errno conf d []).value = none := by
  have hrc : (checkAndRecover d []).value.rc ≠ .OK := fun hrc =>
    nomatch h.symm.trans (checkAndRecover_always [] hrc).2
  have hrs : (init (create conf) d []).value.2 = (checkAndRecover d []).value := rfl
  simp only [initLoad, bind_run, hrs, if_pos hrc, pure_run]

theorem loadFile_congr (c : EntryOrderCheckpoint) (maxId : ℕ) (hc : e.get .cp = d.get .cp) :
    (loadFile judge c maxId e []).value = (loadFile judge c maxId d []).value := by
  unfold loadFile
  simp only [bind_run, query_run, hc]
  cases d.get .cp with
  | none => rfl
  | some bs =>
    simp only [bind_run, syscall_run]
    by_cases hlen : bs.length < magicNoLen
    · simp only [if_pos hlen, pure_run]
    · simp only [if_neg hlen, bind_run, syscall_run]
      by_cases hmagic : readUInt32 bs ≠ magicNo
      · simp only [if_pos hmagic, pure_run]
      · simp only [if_neg hmagic, loadContent]

theorem load_congr (errno : ℕ) (c : EntryOrderCheckpoint) (hm : e.get .cpMeta = d.get .cpMeta)
    (hc : e.get .cp = d.get .cp) : (load judge errno c e []).value = (load judge errno c d []).value := by
  have hmeta : loadMeta errno e = loadMeta errno d := by simp only [loadMeta, hm]
  have hex : e.exist .cp = d.exist .cp := by rw [Dir.exist, hc, Dir.exist]
  unfold load
  by_cases hi : (!c.bInited) = true
  · simp only [if_pos hi, pure_run]
  simp only [if_neg hi, bind_run, peek_run, hmeta]
  cases loadMeta errno d with
  | error rs => rfl
  | ok entryId =>
    by_cases hid : entryId = invalidEntryId
    · simp only [if_pos hid, pure_run]
    · rcases Bool.eq_false_or_eq_true (d.exist .cp) with hcp | hcp
      · simp only [if_neg hid, bind_run, peek_run, hex, hcp, Bool.not_true, Bool.false_eq_true, if_false]
        exact loadFile_congr c entryId hc
      · simp only [if_neg hid, bind_run, peek_run, hex, hcp, Bool.not_false, if_true]
        rfl

/-- The result is an error or carries the id. -/
def CheckpointLoad.Carries (id : ℕ) (r : CheckpointLoad) : Prop :=
  ∀ rs, r.result = .returned rs → rs.rc = .OK → rs.maxId = id

theorem carries_loadError (id : ℕ) {rc : Code} (h : rc ≠ .OK) (errmsg : String) :
    (loadError rc errmsg).Carries id := by
  rintro rs hrs hok
  obtain rfl := Ended.returned.inj hrs
  exact absurd hok h

theorem carries_stopResult (id : ℕ) (batches : List (List Bytes)) (why : Option Stop) :
    CheckpointLoad.Carries id ⟨batches, stopResult id why⟩ := by
  rintro rs hrs hok
  rcases why with _ | _ | _ | _ | _ | _ | _ <;> cases hrs <;> first | rfl | cases hok

theorem loadFile_carries (c : EntryOrderCheckpoint) (id : ℕ) :
    Returns (loadFile judge c id) (CheckpointLoad.Carries id) := by
  have hbad {rc : Code} (h : rc ≠ .OK) (errmsg : String) :
      Returns (Pure.pure (loadError rc errmsg) : Program CpDir CheckpointLoad)
        (CheckpointLoad.Carries id) := returns_pure (carries_loadError id h errmsg)
  refine Returns.bind (returns_true _) fun r _ => ?_
  cases r with
  | error e => exact hbad (by decide) _
  | ok bs =>
    refine Returns.bind (returns_true _) fun r _ => ?_
    cases r with
    | some e => exact hbad (by decide) _
    | none =>
      simp only
      by_cases hlen : bs.length < magicNoLen
      · rw [if_pos hlen]
        exact hbad (by decide) _
      rw [if_neg hlen]
      refine Returns.bind (returns_true _) fun r _ => ?_
      cases r with
      | some e => exact hbad (by decide) _
      | none =>
        simp only
        split_ifs
        · exact hbad (by decide) _
        · exact fun _ _ => carries_stopResult id _ _

theorem loaded_id {errno id : ℕ} {c : EntryOrderCheckpoint} (h : loadMeta errno d = .ok id)
    {x : ℕ × List Bytes} (hx : (load judge errno c d []).value.loaded = some x) : x.1 = id := by
  have hcarries : (load judge errno c d []).value.Carries id := by
    unfold load
    by_cases hi : (!c.bInited) = true
    · simp only [if_pos hi, pure_run]
      exact carries_loadError id (by decide) _
    simp only [if_neg hi, bind_run, peek_run, h]
    by_cases hid : id = invalidEntryId
    · simp only [if_pos hid, pure_run]
      rintro rs hrs -
      obtain rfl := Ended.returned.inj hrs
      exact hid.symm
    · rcases Bool.eq_false_or_eq_true (d.exist .cp) with hcp | hcp
      · simp only [if_neg hid, bind_run, peek_run, hcp, Bool.not_true, Bool.false_eq_true, if_false]
        exact loadFile_carries c id d []
      · simp only [if_neg hid, bind_run, peek_run, hcp, Bool.not_false, if_true]
        exact carries_loadError id (by decide) _
  generalize (load judge errno c d []).value = r at hcarries hx
  unfold CheckpointLoad.loaded at hx
  cases hr : r.result with
  | crashed why =>
    rw [hr] at hx
    cases hx
  | returned rs =>
    simp only [hr] at hx
    split_ifs at hx with hok
    obtain rfl := Option.some.inj hx
    exact hcarries rs hr hok

theorem loaded_of_metaError {errno : ℕ} {c : EntryOrderCheckpoint} {rs : CheckpointResult}
    (h : loadMeta errno d = .error rs) : (load judge errno c d []).value.loaded = none := by
  have hrs : rs.rc ≠ .OK := by
    unfold loadMeta at h
    split at h
    · exact nomatch h
    · split at h
      · obtain rfl := Except.error.inj h
        decide
      · exact nomatch h
  unfold load
  by_cases hi : (!c.bInited) = true
  · simp only [if_pos hi, pure_run]
    rfl
  · simp only [if_neg hi, bind_run, peek_run, h, pure_run, CheckpointLoad.loaded, loadError, if_neg hrs]

variable (judge conf) in
theorem initLoad_congr (errno : ℕ) (h : visible e = visible d) :
    (initLoad judge errno conf e []).value = (initLoad judge errno conf d []).value := by
  cases hv : visible d with
  | none => rw [initLoad_invisible errno hv, initLoad_invisible errno (h.trans hv)]
  | some v =>
    obtain ⟨d', hd', hd⟩ := initLoad_value judge conf errno hv
    obtain ⟨e', he', he⟩ := initLoad_value judge conf errno (h.trans hv)
    obtain ⟨hm, hc⟩ := Prod.mk.inj (he'.trans hd'.symm)
    rw [hd, he, load_congr errno _ hm hc]

/-- A checkpoint that became visible under the id `id` is loaded under this id or not at all. -/
theorem initLoad_id {errno id : ℕ} (hid : id < 2 ^ 64) {c : Option Bytes}
    (h : visible d = some (some (CommonUtils.toString id), c)) {x : ℕ × List Bytes}
    (hx : (initLoad judge errno conf d []).value = some x) : x.1 = id := by
  obtain ⟨e, he, hvalue⟩ := initLoad_value judge conf errno h
  rw [hvalue] at hx
  have hget : e.get .cpMeta = some (CommonUtils.toString id) := congrArg Prod.fst he
  cases hm : loadMeta errno e with
  | error rs =>
    rw [loaded_of_metaError hm] at hx
    cases hx
  | ok id' =>
    have hid' : id' = id := by
      simp only [loadMeta, hget] at hm
      cases hu : toUint46 errno (CommonUtils.toString id) with
      | none =>
        rw [hu] at hm
        cases hm
      | some n =>
        rw [hu] at hm
        rw [← Except.ok.inj hm]
        exact toUint46_toString_eq hid hu
    rw [loaded_id hm hx, hid']

end

end FlyingKV.Checkpoint
