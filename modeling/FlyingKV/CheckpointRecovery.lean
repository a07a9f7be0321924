import FlyingKV.CrashTriple
import FlyingKV.EntryOrderCheckpoint
import FlyingKV.FramedStreamRoundTrip

set_option autoImplicit false

/-!
# What a checkpoint directory holds, and recovery

Seen from outside a directory holds one snapshot. `Settled` directories have no OK
flag and the snapshot lies in the old files; in `Committed` ones it lies complete in
the new files beside the OK flag; `Stuck` ones have the flag without a new meta file.
-/
namespace FlyingKV.Checkpoint
open ByteOrder CommonUtils DecimalText DiskProgram FileUtils FramedStream CrashTriple

structure Snapshot where
  id : ℕ
  version : UInt8
  entries : List Bytes
deriving DecidableEq, Repr

namespace Snapshot

def frames (p : Snapshot) : List Frame := p.entries.map (Frame.mk [p.version])

def bytes (p : Snapshot) : Bytes := writeUInt32 magicNo ++ streamBytes magicNoLen p.frames

/-- The id and the entries that `Load` reports. -/
def pair (p : Snapshot) : ℕ × List Bytes := (p.id, p.entries)

/-- The files of the snapshot, meta file and content; there are none for the id 0. -/
def At (p : Snapshot) (d : CpDir) (metaFile contentFile : CpFile) : Prop :=
  d.get metaFile = some (CommonUtils.toString p.id) ∧ d.get contentFile = some p.bytes

end Snapshot

def Holds (d : CpDir) (p : Snapshot) : Prop :=
  (p.id = 0 ∧ p.entries = [] ∧ d.get .cpMeta = none) ∨ (0 < p.id ∧ p.At d .cpMeta .cp)

structure Settled (d : CpDir) (p : Snapshot) : Prop where
  flag : d.get .saveOk = none
  holds : Holds d p

structure Committed (d : CpDir) (p : Snapshot) : Prop where
  flag : d.get .saveOk ≠ none
  pos : 0 < p.id
  new : p.At d .newCpMeta .newCp

/-- `smcp.ok` is there and `.meta.new` is not. -/
def Stuck (d : CpDir) : Prop := d.get .saveOk ≠ none ∧ d.get .newCpMeta = none

instance (d : CpDir) : Decidable (Stuck d) := inferInstanceAs (Decidable (_ ∧ _))

def Recoverable (d : CpDir) (p : Snapshot) : Prop := Settled d p ∨ Committed d p

/-! ## Load -/

/-- The configuration can read the snapshot back; for the id 0 nothing is read. -/
structure Loadable (judge : Judge) (conf : EntryOrderCheckpointConfig)
    (p : Snapshot) : Prop where
  id_lt : p.id < ulongMax
  accepted : ∀ c ∈ p.entries, judge c = .accepted
  small : ∀ c ∈ p.entries, c.length + entryExtraFieldsSize < 2 ^ 32
  batch_pos : 0 < p.id → 0 < conf.batchReadSize
  fits : 0 < p.id → Fits MemPool.slotSize conf.batchReadSize 0 p.frames

section Load
variable {judge : Judge} {conf : EntryOrderCheckpointConfig} {p : Snapshot}

theorem size_frame (version : UInt8) (c : Bytes) :
    (Frame.mk [version] c).size = c.length + entryExtraFieldsSize := by
  simp only [Frame.size, List.length_singleton, entryExtraFieldsSize]
  omega

theorem sound_frames (haccepted : ∀ c ∈ p.entries, judge c = .accepted)
    (hsmall : ∀ c ∈ p.entries, c.length + entryExtraFieldsSize < 2 ^ 32) :
    ∀ f ∈ p.frames, Sound entryHeaderLen judge f := by
  intro f hf
  obtain ⟨c, hc, rfl⟩ := List.mem_map.mp hf
  refine ⟨rfl, ?_, haccepted c hc⟩
  rw [size_frame]
  exact hsmall c hc

theorem map_content_frames (p : Snapshot) : p.frames.map Frame.content = p.entries := by
  simp [Snapshot.frames, Function.comp_def]

/-- All entries are handed over, or a block is refused. -/
theorem loadContent_snapshot (hsound : ∀ f ∈ p.frames, Sound entryHeaderLen judge f)
    (c : EntryOrderCheckpoint) (hb : 0 < c.conf.batchReadSize) (d : CpDir) :
    (Fits MemPool.slotSize c.conf.batchReadSize 0 p.frames ∧ ∃ batches, batches.flatten = p.entries ∧
      loadContent judge c p.bytes p.id d [] = ⟨[], d, [], batches, .returned ⟨.OK, "", p.id⟩⟩) ∨
    (¬ Fits MemPool.slotSize c.conf.batchReadSize 0 p.frames ∧
      (loadContent judge c p.bytes p.id d []).value.result = .crashed .badAlloc) := by
  have hdrop : p.bytes.drop magicNoLen = streamBytes magicNoLen p.frames := by
    rw [Snapshot.bytes, List.drop_left' (by simp [magicNoLen])]
  have hleft : leftoverAt ([] : Bytes).length p.frames = ([] : Bytes).length := by
    have := cut_size 0 p.frames
    simp only [List.length_nil]
    omega
  have hload := loadLoop_stream MemPool.slotSize hb
    ((streamBytes magicNoLen p.frames).length + 1) magicNoLen p.frames hsound []
    (streamBytes magicNoLen p.frames) rfl hleft (Nat.lt_succ_self _)
  rw [show magicNoLen % 2 ^ 32 = magicNoLen from rfl] at hload
  rcases hload with ⟨hfits, hstop, -, hbatches, hfaults⟩ | ⟨hf, hstop⟩
  · refine .inl ⟨hfits, (loadLoop entryHeaderLen judge MemPool.slotSize c.conf.batchReadSize
      ((streamBytes magicNoLen p.frames).length + 1) magicNoLen []
      (streamBytes magicNoLen p.frames) []).batches.map (·.map Frame.content), ?_, ?_⟩
    · rw [← List.map_flatten, hbatches, map_content_frames]
    · simp only [loadContent, hdrop, hstop, hfaults, stopResult]
  · exact .inr ⟨hf, by simp only [loadContent, hdrop, hstop, stopResult]⟩

/-- Past the two checks of the file, `Load` is the loop over its content. -/
theorem load_files {d : CpDir} (hd : p.At d .cpMeta .cp) (hpos : 0 < p.id) (hid : p.id < ulongMax)
    (errno : ℕ) (c : EntryOrderCheckpoint) (hi : c.bInited = true) :
    (load judge errno c d []) = loadContent judge c p.bytes p.id d [] := by
  obtain ⟨hmeta, hcp⟩ := hd
  have hl : loadMeta errno d = .ok p.id := by
    simp only [loadMeta, hmeta, toUint46_toString errno hpos hid]
  have hlen : ¬ p.bytes.length < magicNoLen := by simp [Snapshot.bytes, magicNoLen]
  have hmagic : readUInt32 p.bytes = magicNo := readUInt32_append (by decide) _
  have hne : ¬ p.id = invalidEntryId := Nat.pos_iff_ne_zero.mp hpos
  have hfile : loadFile judge c p.id d [] = loadContent judge c p.bytes p.id d [] := by
    simp only [loadFile, bind_run, query_run, hcp, syscall_run, if_neg hlen, hmagic, ne_eq,
      not_true_eq_false, if_false]
    rfl
  simp only [load, hi, Bool.not_true, Bool.false_eq_true, if_false, bind_run, peek_run, hl, hne,
    exist_of_get hcp, hfile]
  rfl

theorem load_settled {d : CpDir} (hd : Holds d p) (h : Loadable judge conf p) (errno : ℕ)
    (c : EntryOrderCheckpoint) (hc : c.conf = conf) (hi : c.bInited = true) :
    ∃ batches, batches.flatten = p.entries ∧ load judge errno c d [] =
      ⟨[], d, [], batches, .returned ⟨.OK, "", p.id⟩⟩ := by
  rcases hd with ⟨hid, hentries, hmeta⟩ | ⟨hpos, hat⟩
  · refine ⟨[], by rw [hentries]; rfl, ?_⟩
    have hl : loadMeta errno d = .ok invalidEntryId := by simp only [loadMeta, hmeta]
    simp only [load, hi, Bool.not_true, Bool.false_eq_true, if_false, bind_run, peek_run, hl,
      if_true, pure_run, hid]
    rfl
  · rw [load_files hat hpos h.id_lt errno c hi]
    rcases loadContent_snapshot (sound_frames h.accepted h.small) c (hc ▸ h.batch_pos hpos) d with
      ⟨-, hload⟩ | ⟨hf, -⟩
    · exact hload
    · exact absurd (hc ▸ h.fits hpos) hf

end Load

/-! ## Recovery -/

section Recovery
variable {d e : CpDir} {p : Snapshot}

theorem Settled.frame (h : Settled d p) (hflag : e.get .saveOk = none)
    (hmeta : e.get .cpMeta = d.get .cpMeta) (hcp : e.get .cp = d.get .cp) : Settled e p := by
  refine ⟨hflag, ?_⟩
  rcases h.holds with ⟨hid, hentries, hm⟩ | ⟨hpos, hm, hc⟩
  · exact .inl ⟨hid, hentries, hmeta.trans hm⟩
  · exact .inr ⟨hpos, hmeta.trans hm, hcp.trans hc⟩

theorem Committed.frame (h : Committed d p) (hflag : e.get .saveOk = d.get .saveOk)
    (hmeta : e.get .newCpMeta = d.get .newCpMeta) (hcp : e.get .newCp = d.get .newCp) :
    Committed e p :=
  ⟨hflag ▸ h.flag, h.pos, hmeta.trans h.new.1, hcp.trans h.new.2⟩

theorem Stuck.frame (h : Stuck d) (hflag : e.get .saveOk = d.get .saveOk)
    (hmeta : e.get .newCpMeta = d.get .newCpMeta) : Stuck e :=
  ⟨hflag ▸ h.1, hmeta.trans h.2⟩

theorem allOf_nil {P : CpDir → Prop} {Q : CheckpointResult → CpDir → Prop} (h : Q .ok d) :
    Safe (allOf []) d P Q :=
  Safe.pure h

theorem allOf_cons {P R : CpDir → Prop} {Q : CheckpointResult → CpDir → Prop}
    {m : Program CpDir (Option String)} {ms : List (Program CpDir (Option String))}
    (hm : Safe m d P (fun r e => r = none ∧ R e)) (hms : ∀ e, R e → Safe (allOf ms) e P Q) :
    Safe (allOf (m :: ms)) d P Q := by
  refine Safe.bind hm ?_
  rintro r e ⟨rfl, he⟩
  exact hms e he

theorem unlink_keeps {P : CpDir → Prop} (n : CpFile)
    (h : ∀ e : CpDir, (∀ m, e.get m = if m = n then none else d.get m) → P e) :
    Safe (unlink n) d P (fun r e => r = none ∧ P e) :=
  Safe.unlink n fun e he => ⟨h e he, rfl, h e he⟩

/-- Both new files are there, and the OK flag says that they count. -/
theorem replaceOldCheckpoint_safe {m c : Bytes} (h : d.get .saveOk ≠ none)
    (hm : d.get .newCpMeta = some m) (hc : d.get .newCp = some c) :
    Safe replaceOldCheckpoint d
      (fun e => (e.get .saveOk ≠ none ∧ e.get .newCpMeta = some m ∧ e.get .newCp = some c) ∨ Stuck e)
      (fun rs e => rs = .ok ∧ Stuck e ∧ e.get .cpMeta = some m ∧ e.get .cp = some c) := by
  let R (e : CpDir) : Prop :=
    e.get .saveOk ≠ none ∧ e.get .newCpMeta = some m ∧ e.get .newCp = some c
  have hkeep (n : CpFile) {d : CpDir} (hd : R d) (h₁ : CpFile.saveOk ≠ n) (h₂ : CpFile.newCpMeta ≠ n)
      (h₃ : CpFile.newCp ≠ n) : Safe (unlink n) d (fun e => R e ∨ Stuck e) (fun r e => r = none ∧ R e) := by
    refine Safe.unlink n fun e he => ?_
    have hR : R e := by simpa only [R, he, if_neg h₁, if_neg h₂, if_neg h₃] using hd
    exact ⟨.inl hR, rfl, hR⟩
  refine allOf_cons (hkeep _ ⟨h, hm, hc⟩ (by decide) (by decide) (by decide)) fun d h => ?_
  refine allOf_cons (hkeep _ h (by decide) (by decide) (by decide)) fun d h => ?_
  refine allOf_cons (R := fun e => Stuck e ∧ e.get .cpMeta = some m ∧ e.get .newCp = some c) ?_
    fun d hd => ?_
  · refine Safe.renameFile _ _ h.2.1 fun e he => ?_
    have hs : Stuck e := ⟨(he .saveOk).symm ▸ h.1, he _⟩
    exact ⟨.inr hs, rfl, hs, he _, (he _).trans h.2.2⟩
  obtain ⟨hstuck, hmeta, hcp⟩ := hd
  refine allOf_cons (R := fun e => Stuck e ∧ e.get .cpMeta = some m ∧ e.get .cp = some c) ?_
    fun d hd => allOf_nil ⟨rfl, hd⟩
  refine Safe.renameFile _ _ hcp fun e he => ?_
  have hs : Stuck e := hstuck.frame (he _) (he _)
  exact ⟨.inr hs, rfl, hs, (he _).trans hmeta, he _⟩

theorem replaceOldCheckpoint_committed (h : Committed d p) :
    Safe replaceOldCheckpoint d (fun e => Committed e p ∨ Stuck e)
      (fun rs e => rs = .ok ∧ Stuck e ∧ Holds e p) :=
  (replaceOldCheckpoint_safe h.flag h.new.1 h.new.2).imp
    (fun _ he => he.imp_left fun he => ⟨he.1, h.pos, he.2⟩)
    fun _ _ he => ⟨he.1, he.2.1, .inr ⟨h.pos, he.2.2⟩⟩

theorem unlink_saveOk (hh : Holds d p) :
    Safe (unlink CpFile.saveOk) d (Settled · p) (fun r e => r = none ∧ Settled e p) := by
  refine unlink_keeps _ fun e he => ⟨he _, ?_⟩
  rcases hh with ⟨hid, hentries, hm⟩ | ⟨hpos, hm, hc⟩
  · exact .inl ⟨hid, hentries, (he _).trans hm⟩
  · exact .inr ⟨hpos, (he _).trans hm, (he _).trans hc⟩

theorem not_isCompleted (h : d.get .saveOk ≠ none) : isCompleted d = false := by
  simp [isCompleted, (exist_iff d _).mpr h]

theorem checkAndRecover_committed (h : Committed d p) :
    Safe checkAndRecover d (fun e => Recoverable e p ∨ Stuck e)
      (fun rs e => rs = .ok ∧ Settled e p) := by
  refine Safe.peek_bind (not_isCompleted h.flag) (Safe.peek_bind ((exist_iff d _).mpr h.flag) ?_)
  refine Safe.bind ((replaceOldCheckpoint_committed h).imp
    (fun e he => he.imp_left .inr) fun _ _ => id) ?_
  rintro rs e ⟨rfl, -, hh⟩
  refine Safe.bind ((unlink_saveOk hh).imp (fun e he => .inl (.inl he)) fun _ _ => id) ?_
  rintro r e ⟨rfl, he⟩
  exact Safe.pure ⟨rfl, he⟩

theorem cleanNewCpTmp_settled (h : Settled d p) :
    Safe cleanNewCpTmp d (Settled · p) (fun rs e => rs = .ok ∧ Settled e p) := by
  refine allOf_cons (unlink_keeps _ fun e he => h.frame ((he _).trans h.flag) (he _) (he _))
    fun d h => ?_
  refine allOf_cons (unlink_keeps _ fun e he => h.frame ((he _).trans h.flag) (he _) (he _))
    fun d h => ?_
  refine allOf_cons (unlink_keeps _ fun e he => h.frame ((he _).trans h.flag) (he _) (he _))
    fun d h => ?_
  refine allOf_cons (unlink_keeps _ fun e he => h.frame (he _) (he _) (he _)) fun d h => ?_
  exact allOf_nil ⟨rfl, h⟩

theorem checkAndRecover_settled (h : Settled d p) :
    Safe checkAndRecover d (Settled · p) (fun rs e => rs = .ok ∧ Settled e p) := by
  cases hc : isCompleted d with
  | true => exact Safe.peek_bind hc (Safe.pure ⟨rfl, h⟩)
  | false =>
    exact Safe.peek_bind hc (Safe.peek_bind (not_exist_of_get h.flag) (cleanNewCpTmp_settled h))

/-- The removals are done again, and the first rename fails. -/
theorem checkAndRecover_stuck (h : Stuck d) :
    Safe checkAndRecover d Stuck (fun rs e => rs = fileSystemError ENOENT ∧ Stuck e) := by
  refine Safe.peek_bind (not_isCompleted h.1) (Safe.peek_bind ((exist_iff d _).mpr h.1) ?_)
  have hreplace : Safe replaceOldCheckpoint d Stuck
      (fun rs e => rs = fileSystemError ENOENT ∧ Stuck e) := by
    refine allOf_cons (unlink_keeps _ fun e he => h.frame (he _) (he _)) fun d h => ?_
    refine allOf_cons (unlink_keeps _ fun e he => h.frame (he _) (he _)) fun d h => ?_
    refine Safe.bind (Q := fun r e => r = some ENOENT ∧ Stuck e)
      (Safe.rename_missing _ _ h.2 ⟨rfl, h⟩) ?_
    rintro r e ⟨rfl, he⟩
    exact Safe.pure ⟨rfl, he⟩
  refine Safe.bind hreplace ?_
  rintro rs e ⟨rfl, he⟩
  exact Safe.pure ⟨rfl, he⟩

end Recovery

end FlyingKV.Checkpoint
