import FlyingKV.CheckpointVisible

set_option autoImplicit false

/-!
# A checkpoint that could not be written

`do_save_in_child` goes on after `save_new_checkpoint` whatever that returned. Once it
has created the OK flag, the unfinished checkpoint is the visible one.
-/
namespace FlyingKV.Checkpoint
open ByteOrder CommonUtils FileDir DiskProgram FileUtils FramedStream FaultTriple

/-! ## The call of `save_new_checkpoint` -/

/-- The child up to the call; whether it gets there. -/
def childReaches (errno : ℕ) (t : Traveller) : Program CpDir Bool := do
  let rs ← allOf [openCreate .lock, syscall]
  if rs.rc ≠ .OK then return false
  else match ← peek (loadMeta errno) with
    | .error _ => return false
    | .ok entryId =>
      if t.maxId ≤ entryId then
        let _ ← allOf [syscall, unlink .lock]
        return false
      else
        let rs ← checkAndRecover
        if rs.rc ≠ .OK then return false
        else
          let rs ← initNewCheckpoint t.maxId
          return rs.rc = .OK

/-- The child from the call on. -/
def childSaves (version : UInt8) (t : Traveller) : Program CpDir Unit := do
  match ← saveNewCheckpoint version t.entries with
  | .crashed _ => return ()
  | .returned _ => commitInChild

/-- `Save` up to the call. -/
def saveReaches (errno : ℕ) (c : EntryOrderCheckpoint) (holder : LockHolder) (t : Traveller) :
    Program CpDir Bool := do
  if !c.bInited then return false
  else match ← isLocking holder with
    | .error _ => return false
    | .ok true => return false
    | .ok false =>
      match ← syscall with
      | some _ => return false
      | none => childReaches errno t

section
variable {errno : ℕ} {version : UInt8} {t : Traveller} {d : CpDir} {fs : Faults}

theorem doSaveInChild_eq (errno : ℕ) (version : UInt8) (t : Traveller) :
    doSaveInChild errno version t =
      (do if ← childReaches errno t then childSaves version t else return ()) := by
  unfold doSaveInChild childReaches
  rw [bind_assoc]
  refine bind_congr fun rs => ?_
  split_ifs
  · rfl
  rw [bind_assoc]
  refine bind_congr fun r => ?_
  cases r with
  | error rs => rfl
  | ok entryId =>
    simp only
    split_ifs
    · rw [bind_assoc]
      rfl
    unfold saveInChild
    rw [bind_assoc]
    refine bind_congr fun rs => ?_
    split_ifs
    · rfl
    rw [bind_assoc]
    refine bind_congr fun rs => ?_
    by_cases hrc : rs.rc = .OK
    · simp only [hrc, ne_eq, not_true_eq_false, if_false, decide_true, pure_bind, if_true]
      rfl
    · simp [hrc]

theorem doSaveInParent_disk (errno : ℕ) (d : CpDir) (fs : Faults) :
    (doSaveInParent errno d fs).disk = d := by
  refine Always.syscall_bind (R := fun _ e => e = d) (fun r => ?_) fs
  cases r with
  | some msg => exact Always.pure rfl
  | none =>
    refine Always.peek_bind rfl ?_
    cases isCompleted d with
    | false => exact Always.pure rfl
    | true =>
      refine Always.peek_bind rfl ?_
      cases loadMeta errno d <;> exact Always.pure rfl

theorem save_of_reaches {c : EntryOrderCheckpoint} {holder : LockHolder}
    (h : (saveReaches errno c holder t d fs).value = true) {e : CpDir}
    (he : e = (childSaves c.conf.writeEntryVersion t (saveReaches errno c holder t d fs).disk
      (saveReaches errno c holder t d fs).faults).disk) :
    (save errno c holder t d fs).disk = e ∧
      ∃ fs', (save errno c holder t d fs).value = (doSaveInParent errno e fs').value := by
  subst he
  unfold save saveReaches at *
  by_cases hi : (!c.bInited) = true
  · simp only [if_pos hi, pure_run, Bool.false_eq_true] at h
  simp only [if_neg hi, bind_run] at h ⊢
  generalize isLocking holder d fs = o at h ⊢
  obtain ⟨images, e, fs₁, v⟩ := o
  cases v with
  | error msg => cases h
  | ok locked =>
    cases locked with
    | true => cases h
    | false =>
      simp only [bind_run] at h ⊢
      generalize (syscall e fs₁ : Outcome CpDir (Option String)) = o at h ⊢
      obtain ⟨images', e', fs₂, r⟩ := o
      cases r with
      | some msg => cases h
      | none =>
        simp only at h
        simp only [doSaveInChild_eq, bind_run, h, if_true]
        exact ⟨doSaveInParent_disk _ _ _, _, rfl⟩

/-! ## Before and after the call -/

/-- The directory `e` in which `save_new_checkpoint` is called, when `Save` began with `d`. -/
structure Poised (d : CpDir) (id : ℕ) (e : CpDir) : Prop where
  locked : e.get .lock ≠ none
  flag : e.get .saveOk = none
  old : visible d = some (e.get .cpMeta, e.get .cp)
  newMeta : e.get .newCpMeta = some (CommonUtils.toString id)

theorem visible_congr {e : CpDir} (h : ∀ n, n ≠ .lock → e.get n = d.get n) : visible e = visible d := by
  have hex : e.exist .saveOk = d.exist .saveOk := by rw [Dir.exist, h _ (by decide), Dir.exist]
  rw [visible, visible, hex, h .newCpMeta (by decide), h .newCp (by decide), h .cpMeta (by decide),
    h .cp (by decide)]

theorem create_always {n : CpFile} (data : Bytes) :
    Always (allOf [openTrunc n, do return (← writeFully ⟨n, 0⟩ data).2]) d
      (fun rs e => rs.rc = .OK → e.get n = some data) := by
  refine always_allOf_cons (R := fun e => e.get n = some [])
    (Always.openTrunc n (fun e he => by rw [he, if_pos rfl]) fun msg h => nomatch h) fun e he => ?_
  refine always_allOf_cons (R := fun e => e.get n = some data) ?_ fun e he => always_allOf_nil fun _ => he
  refine Always.bind (Q := fun r e => r.2 = none → e.get n = some data)
    (Always.writeFresh n data he (fun _ e' he' _ => by rw [he', if_pos rfl]) fun _ _ _ _ h => nomatch h)
    fun r e h => ?_
  obtain ⟨fd, err⟩ := r
  cases err with
  | none => exact Always.pure (h rfl)
  | some msg => exact Always.pure fun h => nomatch h

theorem initNewCheckpoint_always (id : ℕ) :
    Always (initNewCheckpoint id) d
      (fun rs e => rs.rc = .OK → e.get .newCpMeta = some (CommonUtils.toString id)) := by
  refine Always.bind (Q := fun _ _ => True) (fun _ => trivial) fun r e _ => ?_
  cases r with
  | some msg => exact Always.pure fun h => nomatch h
  | none =>
    refine Always.bind (create_always _) fun rs e h => ?_
    split_ifs with hrc
    · exact Always.pure fun h => absurd h hrc
    · refine ((show Always createNewCheckpointFile e (fun _ _ => True) from fun _ => trivial).leaves
        (n := .newCpMeta) (leaves_create _ (by decide))).imp fun _ _ he _ => ?_
      rw [he.2, h (not_not.mp hrc)]

theorem childReaches_always :
    Always (childReaches errno t) d (fun b e => b = true → Poised d t.maxId e) := by
  have hlock : Always (allOf [openCreate .lock, syscall]) d (fun rs e => rs.rc = .OK →
      e.get .lock ≠ none ∧ ∀ n, n ≠ .lock → e.get n = d.get n) := by
    refine always_allOf_cons (R := fun e => e.get .lock ≠ none ∧ ∀ n, n ≠ .lock → e.get n = d.get n)
      (Always.openCreate _ (fun e he => ⟨by rw [he]; simp, fun n hn => by rw [he, if_neg hn]⟩)
        fun msg h => by cases h) fun e he => ?_
    refine always_allOf_cons (R := fun e => e.get .lock ≠ none ∧ ∀ n, n ≠ .lock → e.get n = d.get n)
      (Always.syscall fun r => ?_) fun e he => always_allOf_nil fun _ => he
    cases r with
    | none => exact he
    | some msg => exact fun h => by cases h
  refine Always.bind hlock fun rs e₁ h₁ => ?_
  split_ifs with hrc
  · exact Always.pure fun h => by cases h
  obtain ⟨hlocked, hsame⟩ := h₁ (not_not.mp hrc)
  refine Always.peek_bind rfl ?_
  cases loadMeta errno e₁ with
  | error rs => exact Always.pure fun h => by cases h
  | ok entryId =>
    simp only
    split_ifs with hid
    · exact Always.bind (Q := fun _ _ => True) (fun _ => trivial) fun _ _ _ => Always.pure fun h => by cases h
    refine Always.bind (checkAndRecover_always.leaves leaves_checkAndRecover) fun rs e₂ h₂ => ?_
    split_ifs with hrc
    · exact Always.pure fun h => by cases h
    obtain ⟨hflag, hold⟩ := h₂.1 (not_not.mp hrc)
    have hleaves {n : CpFile} (h₁ : n ≠ .startFlag) (h₂ : n ≠ .newCpMeta) (h₃ : n ≠ .newCp) :=
      leaves_initNewCheckpoint t.maxId h₁ h₂ h₃
    refine Always.bind (((((initNewCheckpoint_always t.maxId).leaves (n := .lock)
      (hleaves (by decide) (by decide) (by decide))).leaves (n := .saveOk)
      (hleaves (by decide) (by decide) (by decide))).leaves (n := .cpMeta)
      (hleaves (by decide) (by decide) (by decide))).leaves (n := .cp)
      (hleaves (by decide) (by decide) (by decide))) ?_
    rintro rs e₃ ⟨⟨⟨⟨hmeta, hl⟩, hf⟩, hm⟩, hc⟩
    refine Always.pure fun hok => ⟨?_, hf.trans hflag, ?_, hmeta (of_decide_eq_true hok)⟩
    · rw [hl, h₂.2]
      exact hlocked
    · rw [← visible_congr hsame, hold, hm, hc]

/-- Whatever `Init` finds in the directory, it is not an older checkpoint. -/
def Marked (id : ℕ) (e : CpDir) : Prop :=
  ∀ m c, visible e = some (m, c) → m = some (CommonUtils.toString id)

/-- The OK flag stands beside the new meta file. -/
def Flagged (id : ℕ) (e : CpDir) : Prop :=
  e.get .saveOk ≠ none ∧ e.get .newCpMeta = some (CommonUtils.toString id)

/-- The new meta file has been moved into place. -/
def Moved (id : ℕ) (e : CpDir) : Prop :=
  Stuck e ∧ e.get .cpMeta = some (CommonUtils.toString id)

theorem Flagged.marked {id : ℕ} (h : Flagged id d) : Marked id d := by
  intro m c hv
  cases hc : d.get .newCp with
  | none => simp only [visible, (exist_iff d _).mpr h.1, if_true, h.2, hc, reduceCtorEq] at hv
  | some bs =>
    rw [visible_committed h.1 h.2 hc, Option.some.injEq, Prod.mk.injEq] at hv
    exact hv.1.symm

theorem Moved.marked {id : ℕ} (h : Moved id d) : Marked id d := by
  intro m c hv
  exact nomatch (visible_stuck h.1.1 h.1.2).symm.trans hv

theorem Flagged.unlink {id : ℕ} (h : Flagged id d) (n : CpFile) (h₁ : CpFile.saveOk ≠ n)
    (h₂ : CpFile.newCpMeta ≠ n) :
    Always (unlink n) d (fun r e => match r with
      | none => Flagged id e
      | some _ => Flagged id e) := by
  refine Always.unlink n (fun e he => ⟨?_, ?_⟩) fun _ => h
  · rw [he, if_neg h₁]
    exact h.1
  · rw [he, if_neg h₂, h.2]

theorem replaceOldCheckpoint_flagged {id : ℕ} (h : Flagged id d) :
    Always replaceOldCheckpoint d (fun rs e => Marked id e ∧ (rs.rc = .OK → Moved id e)) := by
  have hbad (msg : String) {e : CpDir} (he : Marked id e) :
      Marked id e ∧ ((fileSystemError msg).rc = .OK → Moved id e) := ⟨he, nofun⟩
  have hkeep (n : CpFile) (h₁ : CpFile.saveOk ≠ n) (h₂ : CpFile.newCpMeta ≠ n) {e : CpDir}
      (he : Flagged id e) := (he.unlink n h₁ h₂).imp (R := fun r e => match r with
        | none => Flagged id e
        | some msg => Marked id e ∧ ((fileSystemError msg).rc = .OK → Moved id e)) fun r e he => by
      cases r with
      | none => exact he
      | some msg => exact hbad msg he.marked
  refine always_allOf_cons (hkeep _ (by decide) (by decide) h) fun e he => ?_
  refine always_allOf_cons (hkeep _ (by decide) (by decide) he) fun e he => ?_
  refine always_allOf_cons (R := Moved id) (Always.renameFile _ _ (fun e' m hm he' => ?_)
    fun msg => hbad msg he.marked) fun e he => ?_
  · refine ⟨⟨?_, he' _⟩, (he' _).trans (hm.symm.trans he.2)⟩
    rw [he' .saveOk]
    exact he.1
  refine always_allOf_cons (R := Moved id) (Always.renameFile _ _ (fun e' c hc he' => ?_)
    fun msg => hbad msg he.marked) fun e he => always_allOf_nil ⟨he.marked, fun _ => he⟩
  exact ⟨he.1.frame (he' _) (he' _), (he' _).trans he.2⟩

/-- What the child does after the OK flag cannot bring the old checkpoint back. -/
theorem commitInChild_marked {id : ℕ} (hm : d.get .newCpMeta = some (CommonUtils.toString id))
    (h : NextOk fs) : Marked id (commitInChild d fs).disk := by
  have hcreate : Flagged id (createOkFlag d fs).disk := by
    have hopen : Flagged id (d.put .saveOk []) :=
      ⟨by simp, by rw [Dir.get_put_ne _ _ (by decide), hm]⟩
    refine Always.after (Q := fun r e => r = none ∧ Flagged id e) (R := fun _ e => Flagged id e) ?_ ?_
    · rw [openTrunc, mutate_nextOk h]
      exact ⟨rfl, hopen⟩
    · rintro r e ⟨rfl, he⟩
      refine always_allOf_cons (R := Flagged id) (Always.syscall fun r => ?_)
        fun e he => always_allOf_nil he
      cases r <;> exact he
  have hunlock {e : CpDir} (he : Flagged id e) :
      Always (allOf [syscall, unlink .lock, unlink .startFlag]) e (fun _ e => Flagged id e) := by
    refine always_allOf_cons (R := Flagged id) (Always.syscall fun r => ?_) fun e he => ?_
    · cases r <;> exact he
    refine always_allOf_cons (he.unlink _ (by decide) (by decide)) fun e he => ?_
    exact always_allOf_cons (he.unlink _ (by decide) (by decide)) fun e he => always_allOf_nil he
  refine Always.after (Q := fun _ e => Flagged id e) (R := fun _ e => Marked id e) hcreate
    fun rs e he => ?_
  split_ifs
  · exact Always.pure he.marked
  refine Always.bind (hunlock he) fun rs e he => ?_
  split_ifs
  · exact Always.pure he.marked
  refine Always.bind (replaceOldCheckpoint_flagged he) fun rs e he => ?_
  split_ifs with hrc
  · exact Always.pure he.1
  have hmoved := he.2 (not_not.mp hrc)
  refine Always.bind (Q := fun _ e => Marked id e) (Always.unlink _ (fun e' he' m c hv => ?_)
    fun _ => hmoved.marked) fun _ e he => Always.pure he
  rw [visible_of_flag (he' _), Option.some.injEq, Prod.mk.injEq] at hv
  rw [← hv.1, he' .cpMeta]
  exact hmoved.2

theorem childReaches_of_save {c : EntryOrderCheckpoint} {holder : LockHolder} :
    Always (saveReaches errno c holder t) d (fun b e => b = true → Poised d t.maxId e) := by
  unfold saveReaches
  split_ifs
  · exact Always.pure fun h => nomatch h
  have hlocking : Always (isLocking holder) d (fun _ e => e = d) := by
    unfold isLocking
    split_ifs
    · exact Always.pure rfl
    refine Always.peek_bind rfl ?_
    cases d.exist .lock with
    | false => exact Always.pure rfl
    | true =>
      refine Always.syscall_bind fun r => ?_
      cases r with
      | some msg => exact Always.pure rfl
      | none =>
        refine Always.syscall_bind fun r => ?_
        cases r <;> exact Always.pure rfl
  refine Always.bind hlocking ?_
  rintro r e rfl
  rcases r with msg | (_ | _)
  · exact Always.pure fun h => nomatch h
  · refine Always.syscall_bind fun r => ?_
    cases r with
    | some msg => exact Always.pure fun h => nomatch h
    | none => exact childReaches_always
  · exact Always.pure fun h => nomatch h

theorem doSaveInParent_locked (h : d.get .lock ≠ none) :
    Always (doSaveInParent errno) d (fun rs _ => rs.rc ≠ .OK) := by
  refine Always.syscall_bind fun r => ?_
  cases r with
  | some msg => exact Always.pure (by simp)
  | none =>
    have hno : isCompleted d = false := by simp [isCompleted, (exist_iff d _).mpr h]
    exact Always.peek_bind hno (Always.pure (by simp))

/-! ## The result -/

/-- `Save` did not report the new id, and `Init` and `Load` return what they would have returned
before it. -/
def KeepsCheckpoint (judge : Judge) (errnoLoad : ℕ) (conf : EntryOrderCheckpointConfig)
    (old : ℕ × List Bytes) (t : Traveller) (o : Outcome CpDir LoadCheckpointResult) : Prop :=
  ¬ (o.value.rc = .OK ∧ o.value.maxId = t.maxId) ∧
    (initLoad judge errnoLoad conf o.disk []).value = some old

instance (judge errnoLoad conf old t o) : Decidable (KeepsCheckpoint judge errnoLoad conf old t o) :=
  inferInstanceAs (Decidable (¬ _ ∧ _))

variable {judge : Judge} {errnoLoad : ℕ} {conf : EntryOrderCheckpointConfig}
  {old : ℕ × List Bytes} {c : EntryOrderCheckpoint} {holder : LockHolder}

/-- Whatever `save_new_checkpoint` returned, and so also when it failed, the old checkpoint is kept
if and only if the next call of the child, the creation of the OK flag, fails. -/
theorem failed_write_keeps_checkpoint_iff (hid : t.maxId < 2 ^ 64)
    (hold : (initLoad judge errnoLoad conf d []).value = some old) (hnew : t.maxId ≠ old.1)
    (hreach : (saveReaches errno c holder t d fs).value = true)
    {o : Outcome CpDir (Ended CheckpointResult)}
    (ho : o = saveNewCheckpoint c.conf.writeEntryVersion t.entries
      (saveReaches errno c holder t d fs).disk (saveReaches errno c holder t d fs).faults)
    {rs : CheckpointResult} (hrs : o.value = .returned rs) :
    KeepsCheckpoint judge errnoLoad conf old t (save errno c holder t d fs) ↔ ¬ NextOk o.faults := by
  have hpoised := childReaches_of_save fs hreach
  have hleaves {n : CpFile} (hn : n ≠ .newCp) :
      o.disk.get n = (saveReaches errno c holder t d fs).disk.get n := by
    rw [ho]
    exact leaves_saveNewCheckpoint _ _ hn _ _
  have hchild : (childSaves c.conf.writeEntryVersion t (saveReaches errno c holder t d fs).disk
      (saveReaches errno c holder t d fs).faults).disk = (commitInChild o.disk o.faults).disk := by
    rw [childSaves, bind_run, ← ho, hrs]
  obtain ⟨hdisk, fs', hvalue⟩ := save_of_reaches hreach hchild.symm
  rcases nextOk_or_fault o.faults with hok | ⟨f, rest, hfault⟩
  · have hmarked : Marked t.maxId (save errno c holder t d fs).disk := by
      rw [hdisk]
      exact commitInChild_marked ((hleaves (by decide)).trans hpoised.newMeta) hok
    refine iff_of_false (fun hkeep => ?_) (not_not.mpr hok)
    cases hv : visible (save errno c holder t d fs).disk with
    | none => exact nomatch (initLoad_invisible errnoLoad hv).symm.trans hkeep.2
    | some v =>
      obtain ⟨m, b⟩ := v
      rw [hmarked m b hv] at hv
      exact hnew (initLoad_id hid hv hkeep.2).symm
  · have hsame : (save errno c holder t d fs).disk = o.disk := by
      rw [hdisk, hfault]
      rfl
    rw [hdisk.symm.trans hsame] at hvalue
    refine iff_of_true ⟨fun h => ?_, ?_⟩ fun hok => hok f (by rw [hfault]; rfl)
    · have hlocked : o.disk.get .lock ≠ none := by
        rw [hleaves (by decide)]
        exact hpoised.locked
      exact doSaveInParent_locked hlocked fs' (hvalue ▸ h.1)
    · rw [hsame, ← hold]
      refine initLoad_congr judge conf errnoLoad ?_
      rw [visible_of_flag ((hleaves (by decide)).trans hpoised.flag), hpoised.old,
        hleaves (by decide), hleaves (by decide)]

end

/-- A directory with one checkpoint, id 3. -/
def savedOnce : CpDir :=
  (save 0 { create smallCpConf with bInited := true } ⟨false, false⟩ (oneEntry 3 7) Dir.empty []).disk

/-- The first record of the second checkpoint is cut after four bytes, and the OK flag cannot be
created either. -/
theorem failed_write_keeps_checkpoint_twice :
    KeepsCheckpoint acceptAll 0 smallCpConf (3, [[7]]) (oneEntry 5 8)
      (save 0 { create smallCpConf with bInited := true } ⟨false, false⟩ (oneEntry 5 8) savedOnce
        (List.replicate 9 none ++ [some ⟨4, "EIO"⟩, some ⟨0, "EIO"⟩])) :=
  (failed_write_keeps_checkpoint_iff (by decide) (by decide +kernel) (by decide) (by decide +kernel) rfl
    (show _ = Ended.returned (fileSystemError "EIO") by decide +kernel)).mpr
    fun h => h ⟨0, "EIO"⟩ (by decide +kernel)

/-- `Encode` fails for the second of two entries: `Save` reports the new id, and the new checkpoint
has one entry. -/
theorem failed_encode_replaces_checkpoint :
    (initLoad acceptAll 0 smallCpConf savedOnce []).value = some (3, [[7]]) ∧
      (saveNewCheckpoint 1 [some [8], none] savedOnce []).value =
        .returned ⟨.EncodeEntryError, encodeEntryError⟩ ∧
      (save 0 { create smallCpConf with bInited := true } ⟨false, false⟩ ⟨5, [some [8], none]⟩
        savedOnce []).value = ⟨.OK, "", 5⟩ ∧
      (initLoad acceptAll 0 smallCpConf
        (save 0 { create smallCpConf with bInited := true } ⟨false, false⟩ ⟨5, [some [8], none]⟩
          savedOnce []).disk []).value = some (5, [[8]]) := by
  decide +kernel

end FlyingKV.Checkpoint
