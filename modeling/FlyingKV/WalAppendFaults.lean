import FlyingKV.WalTorn

set_option autoImplicit false

/-!
# `AppendEntry` when a call fails

The id is counted before the record is written, the size only after the record is
durable, and the next segment is opened last. So each call that can fail leaves
another mixture of file bytes and counters behind.
-/
namespace FlyingKV.Wal
open ByteOrder CommonUtils DecimalText FileDir DiskProgram FileUtils FramedStream

/-- An object whose next record goes to the end of the log `l`. The ids may have gaps, and `v` is
the number left in the truncate-info file. -/
structure Appending (judge : Judge) (w : LogCleanWal) (d : WalDir) (l : Log) (v : ℕ) : Prop extends
    Writes w d l v where
  first_pos : 1 ≤ l.first
  readable : ∀ i s, l.seg i = some s → Readable judge s
  ids_le : ∀ r ∈ l.entries, r.id ≤ w.currentEntryIdx
  pending : v ≠ 0 → l.entries ≠ []

section
variable {judge : Judge} {w : LogCleanWal} {d d' : WalDir} {l : Log} {v : ℕ} {r : Rec} {content : Bytes}

theorem Ready.appending (h : Ready judge w d l v) (hp : v ≠ 0 → l.entries ≠ []) : Appending judge w d l v where
  toWrites := h.toWrites
  first_pos := h.wf.first_pos
  readable _ _ hs := h.wf.readable hs
  ids_le r hr := by
    rw [h.counter]
    exact h.wf.id_le_lastId hr
  pending := hp

theorem Readable.concat {s : List Rec} (h : Readable judge s) (hid : 0 < r.id ∧ r.id < ulongMax)
    (hj : judge r.content = .accepted) (hsize : (segmentBytes (s ++ [r])).length < 2 ^ 32) :
    Readable judge (s ++ [r]) where
  ids a ha := by
    rcases List.mem_append.mp ha with ha | ha
    · exact h.ids a ha
    · rw [List.mem_singleton.mp ha]
      exact hid
  accepted a ha := by
    rcases List.mem_append.mp ha with ha | ha
    · exact h.accepted a ha
    · rw [List.mem_singleton.mp ha]
      exact hj
  size_lt := hsize

theorem readable_nil (judge : Judge) : Readable judge [] where
  ids := by simp
  accepted := by simp
  size_lt := by decide

theorem Appending.readable_tail (h : Appending judge w d l v) : Readable judge l.tail :=
  h.readable _ _ l.seg_current

theorem Appending.push (h : Appending judge w d l v) (hid : r.id = w.currentEntryIdx + 1)
    (hr : Readable judge (l.tail ++ [r])) (hd : HasRecord d l r d') :
    Appending judge (stored w l r) d' (l.push r) v where
  toWrites := h.toWrites.push hd
  first_pos := h.first_pos
  readable i s hs := by
    rw [SegmentedLog.seg_push] at hs
    split_ifs at hs with hi
    · cases hs
      exact hr
    · exact h.readable i s hs
  ids_le a ha := by
    rw [SegmentedLog.entries_push, List.mem_append, List.mem_singleton] at ha
    change a.id ≤ r.id
    rcases ha with ha | rfl
    · exact le_trans (h.ids_le a ha) (by omega)
    · exact le_rfl
  pending _ := by simp

theorem Appending.roll (h : Appending judge w d l v) (ht : l.tail ≠ [])
    (hd : ∀ g, d'.get g = if g = .segment (l.current + 1) then some (segmentBytes []) else d.get g) :
    Appending judge (rolled w l) d' (l.roll ht) v where
  toWrites := h.toWrites.roll ht hd
  first_pos := h.first_pos
  readable i s hs := by
    rw [SegmentedLog.seg_roll] at hs
    split_ifs at hs with hi
    · cases hs
      exact readable_nil judge
    · exact h.readable i s hs
  ids_le r hr := h.ids_le r (by rwa [SegmentedLog.entries_roll] at hr)
  pending hv := by
    rw [SegmentedLog.entries_roll]
    exact h.pending hv

theorem Appending.readable_next (h : Appending judge w d l v) (room : Room w content) (hj : judge content = .accepted) :
    Readable judge (l.tail ++ [newRec w content]) := by
  refine h.readable_tail.concat ⟨Nat.succ_pos _, room.entryIdx⟩ hj ?_
  rw [length_segmentBytes_append, ← h.fileSize]
  exact room.fileSize

/-! ## The ways a call can end -/

/-- How `AppendEntry` ends on a log `l`, by the schedule of failing calls: with the value `r` and
the directory `e`. -/
inductive AppendEnds (judge : Judge) (w : LogCleanWal) (d : WalDir) (l : Log) (v : ℕ)
    (content : Bytes) (fs : Faults) (r : LogCleanWal × Ended AppendEntryResult) (e : WalDir) :
    Prop where
  | refused (large : w.conf.maxEntrySize < content.length + entryExtraFieldsSize)
      (result : ∃ res, r.2 = .returned res ∧ res.rc ≠ .OK) (wal : r.1 = w) (disk : e = d)
  | crashed (why : Stop) (large : ¬ Accepts w.conf content) (result : r.2 = .crashed why)
  | torn (f : Fault) (rest : Faults) (accepts : Accepts w.conf content) (fault : fs = some f :: rest)
      (result : ∃ res, r.2 = .returned res ∧ res.rc ≠ .OK)
      (wal : r.1 = { w with
        currentEntryIdx := w.currentEntryIdx + 1
        currentSegFd := some ⟨.segment l.current, (segmentBytes l.tail).length +
          (((newRec w content).frame.bytes (segmentBytes l.tail).length).take f.done).length⟩ })
      (disk : ∀ g, e.get g = if g = .segment l.current then some (segmentBytes l.tail ++
        ((newRec w content).frame.bytes (segmentBytes l.tail).length).take f.done) else d.get g)
  | unacknowledged (accepts : Accepts w.conf content) (write : NextOk fs)
      (result : ∃ res, r.2 = .returned res ∧ res.rc ≠ .OK)
      (disk : HasRecord d l (newRec w content) e)
  | headless (k : ℕ) (accepts : Accepts w.conf content) (write : NextOk fs)
      (result : ∃ res, r.2 = .returned res ∧ res.rc ≠ .OK)
      (disk : ∃ d', HasRecord d l (newRec w content) d' ∧ ∀ g, e.get g =
        if g = .segment (l.current + 1) then some ((writeUInt32 magicNo).take k) else d'.get g)
  | done (accepts : Accepts w.conf content) (write : NextOk fs)
      (result : r.2 = .returned ⟨.OK, "", w.currentEntryIdx + 1⟩)
      (appending : Appending judge r.1 e (append w.conf l (newRec w content)) v)
      (conf : r.1.conf = w.conf)

/-- The calls of a roll in their order: close, open, write the header. -/
theorem createNewSegmentFile_ends {fd : Fd WalFile} (hfd : w.currentSegFd = some fd) {id : ℕ}
    (hid : (w.currentSegmentId + 1) % 2 ^ 64 = id) (hnone : d.get (.segment id) = none) (fs : Faults) :
    ((createNewSegmentFile w d fs).value.2.rc ≠ .OK ∧ (createNewSegmentFile w d fs).disk = d) ∨
      (∃ k, (createNewSegmentFile w d fs).value.2.rc ≠ .OK ∧
        ∀ g, (createNewSegmentFile w d fs).disk.get g =
          if g = .segment id then some ((writeUInt32 magicNo).take k) else d.get g) ∨
      ((createNewSegmentFile w d fs).value = ({ w with
          currentSegmentId := id
          currentSegFd := some ⟨.segment id, magicNoLen⟩
          curSegFileSize := magicNoLen }, .ok) ∧
        ∀ g, (createNewSegmentFile w d fs).disk.get g =
          if g = .segment id then some (segmentBytes []) else d.get g) := by
  have hput : ∀ data g, (writeDir (WalFile.segment id) 0 data (d.put (.segment id) [])).get g =
      if g = .segment id then some data else d.get g := by
    intro data g
    simp only [writeDir, Dir.get_put_self, Dir.get_put]
    split_ifs <;> simp [writeAt]
  simp only [createNewSegmentFile, hfd, bind_run]
  rcases nextOk_or_fault fs with hclose | ⟨f, rest, rfl⟩
  swap
  · exact .inl ⟨by simp [syscall, query, fileSystemError], rfl⟩
  simp only [syscall_nextOk hclose, openNewSegment, bind_run, hid]
  rcases nextOk_or_fault fs.tail with hopen | ⟨f, rest, hfs⟩
  swap
  · rw [hfs, openCreate_fault hnone]
    exact .inl ⟨by simp [fileSystemError], rfl⟩
  rw [openCreate_nextOk hopen hnone]
  rcases nextOk_or_fault fs.tail.tail with hwrite | ⟨f, rest, hfs⟩
  · simp only [bind_run, writeFully_nextOk hwrite]
    exact .inr (.inr ⟨rfl, fun g => hput _ g⟩)
  · rw [hfs]
    exact .inr (.inl ⟨f.done, by simp [bind_run, writeFully, mutate, fileSystemError],
      fun g => hput _ g⟩)

theorem appendDone_ends {fs₀ : Faults} (accepts : Accepts w.conf content) (write : NextOk fs₀) (hh : Holds d l)
    (hd : HasRecord d l (newRec w content) d')
    (h : Appending judge (stored w l (newRec w content)) d' (l.push (newRec w content)) v)
    (hlt : l.current + 1 < ulongMax) (fs : Faults) :
    AppendEnds judge w d l v content fs₀ (appendDone (stored w l (newRec w content)) d' fs).value
      (appendDone (stored w l (newRec w content)) d' fs).disk := by
  have hid : ((stored w l (newRec w content)).currentSegmentId + 1) % 2 ^ 64 = l.current + 1 := by
    rw [h.current]
    exact Nat.mod_eq_of_lt (lt_trans hlt (by decide))
  have hnone : d'.get (.segment (l.current + 1)) = none := by
    rw [hd, if_neg (by simp)]
    exact hh.get_none (.inr (by omega))
  unfold appendDone
  by_cases hfull : (stored w l (newRec w content)).conf.maxSegmentSize ≤
      (stored w l (newRec w content)).curSegFileSize
  · have happ : append w.conf l (newRec w content) =
        (l.push (newRec w content)).roll (l.push_tail_ne _) := if_pos hfull
    simp only [if_pos hfull, bind_run]
    rcases createNewSegmentFile_ends h.fd hid hnone fs with ⟨hrs, hdisk⟩ | ⟨k, hrs, hdisk⟩ | ⟨hv, hdisk⟩
    · simp only [if_pos hrs, pure_run]
      refine .unacknowledged accepts write ⟨_, rfl, hrs⟩ ?_
      rw [hdisk]
      exact hd
    · simp only [if_pos hrs, pure_run]
      exact .headless k accepts write ⟨_, rfl, hrs⟩ ⟨d', hd, hdisk⟩
    · simp only [hv, WalResult.ok, ne_eq, not_true_eq_false, if_false, pure_run]
      refine .done accepts write rfl ?_ rfl
      rw [happ]
      exact h.roll (l.push_tail_ne _) hdisk
  · have happ : append w.conf l (newRec w content) = l.push (newRec w content) := if_neg hfull
    simp only [if_neg hfull, pure_run]
    exact .done accepts write rfl (happ ▸ h) rfl

/-- Every way a call of `AppendEntry` can end. -/
theorem appendEntry_ends (h : Appending judge w d l v) (room : Room w content) (hj : judge content = .accepted)
    (fs : Faults) :
    AppendEnds judge w d l v content fs (appendEntry w (some content) d fs).value
      (appendEntry w (some content) d fs).disk := by
  by_cases accepts : Accepts w.conf content
  · rw [h.appendEntry_accepted room accepts]
    rcases nextOk_or_fault fs with hwrite | ⟨f, rest, rfl⟩
    swap
    · simp only [appendRecord, h.fd, bind_run]
      exact .torn f rest accepts rfl ⟨_, rfl, by simp⟩ rfl
        (writeDir_at_end (h.holds.get l.seg_current) _)
    rcases nextOk_or_fault fs.tail with hsync | ⟨f, rest, hfs⟩
    · obtain ⟨d', hd, hvalue, hdisk⟩ := h.appendRecord_durable room hwrite hsync
      rw [hvalue, hdisk]
      exact appendDone_ends accepts hwrite h.holds hd (h.push rfl (h.readable_next room hj) hd)
        (h.current ▸ room.segmentId) _
    · simp only [appendRecord, h.fd, bind_run, writeFully_nextOk hwrite, hfs]
      refine .unacknowledged accepts hwrite ⟨_, rfl, by simp⟩ fun g => ?_
      rw [segmentBytes_append, walRecord_eq]
      exact writeDir_at_end (h.holds.get l.seg_current) _ g
  · rw [h.appendEntry_refused room accepts]
    by_cases hmax : w.conf.maxEntrySize < content.length + entryExtraFieldsSize
    · exact .refused hmax ⟨_, if_pos hmax, by simp⟩ rfl rfl
    · exact .crashed .badAlloc accepts (if_neg hmax)

end

end FlyingKV.Wal
