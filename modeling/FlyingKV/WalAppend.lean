import FlyingKV.WalRestart

set_option autoImplicit false

/-!
# `AppendEntry`

An accepted entry becomes the newest record of the log; a full segment is closed
behind it. A refused entry changes nothing.
-/
namespace FlyingKV.Wal
open ByteOrder DecimalText FileDir DiskProgram FileUtils FramedStream

/-- The log with one more record, rolled over when the segment has reached its size. -/
def append (conf : LogCleanWalConfig) (l : Log) (r : Rec) : Log :=
  if conf.maxSegmentSize ≤ (segmentBytes (l.tail ++ [r])).length then
    (l.push r).roll (l.push_tail_ne r)
  else l.push r

@[simp] theorem entries_append (conf : LogCleanWalConfig) (l : Log) (r : Rec) :
    (append conf l r).entries = l.entries ++ [r] := by
  unfold append
  split_ifs <;> simp

@[simp] theorem first_append (conf : LogCleanWalConfig) (l : Log) (r : Rec) :
    (append conf l r).first = l.first := by
  unfold append
  split_ifs <;> rfl

theorem lastId_append (conf : LogCleanWalConfig) (l : Log) (r : Rec) :
    lastId (append conf l r) = r.id := by
  simp [lastId]

/-- Room in the counters and in the 32-bit positions for one more entry. -/
structure Room (w : LogCleanWal) (content : Bytes) : Prop where
  length_lt : content.length < 2 ^ 32
  entryIdx : w.currentEntryIdx + 1 < ulongMax
  segmentId : w.currentSegmentId + 1 < ulongMax
  fileSize : w.curSegFileSize + (content.length + entryExtraFieldsSize) < 2 ^ 32

instance decidableRoom (w : LogCleanWal) (content : Bytes) : Decidable (Room w content) :=
  decidable_of_iff (content.length < 2 ^ 32 ∧ w.currentEntryIdx + 1 < ulongMax ∧
      w.currentSegmentId + 1 < ulongMax ∧
      w.curSegFileSize + (content.length + entryExtraFieldsSize) < 2 ^ 32)
    ⟨fun h => ⟨h.1, h.2.1, h.2.2.1, h.2.2.2⟩, fun h => ⟨h.1, h.2, h.3, h.4⟩⟩

section
variable {judge : Judge} {w : LogCleanWal} {d d' : WalDir} {l : Log} {v : ℕ} {r : Rec} {content : Bytes}

theorem Holds.push (h : Holds d l) (hd : ∀ f, d'.get f =
      if f = .segment l.current then some (segmentBytes (l.tail ++ [r])) else d.get f) :
    Holds d' (l.push r) := by
  intro i
  rw [hd, SegmentedLog.seg_push]
  simp only [WalFile.segment.injEq]
  split_ifs
  · rfl
  · exact h i

theorem Holds.roll (h : Holds d l) (ht : l.tail ≠ []) (hd : ∀ f, d'.get f =
      if f = .segment (l.current + 1) then some (segmentBytes []) else d.get f) : Holds d' (l.roll ht) := by
  intro i
  rw [hd, SegmentedLog.seg_roll]
  simp only [WalFile.segment.injEq]
  split_ifs
  · rfl
  · exact h i

/-- The directory with the record behind the current file. -/
def HasRecord (d : WalDir) (l : Log) (r : Rec) (d' : WalDir) : Prop :=
  ∀ g, d'.get g = if g = .segment l.current then some (segmentBytes (l.tail ++ [r])) else d.get g

/-- The object once the record is durable and noted. -/
def stored (w : LogCleanWal) (l : Log) (r : Rec) : LogCleanWal :=
  { w with
    currentEntryIdx := r.id
    currentSegFd := some ⟨.segment l.current, (segmentBytes (l.tail ++ [r])).length⟩
    curSegFileSize := (segmentBytes (l.tail ++ [r])).length
    mpEntriesIdSegId := Function.update w.mpEntriesIdSegId r.id (some l.current) }

/-- The object once the next segment is open. -/
def rolled (w : LogCleanWal) (l : Log) : LogCleanWal :=
  { w with
    currentSegmentId := l.current + 1
    currentSegFd := some ⟨.segment (l.current + 1), magicNoLen⟩
    curSegFileSize := magicNoLen }

theorem Writes.push (h : Writes w d l v) (hd : HasRecord d l r d') :
    Writes (stored w l r) d' (l.push r) v where
  holds := h.holds.push hd
  info := by
    rw [hd, if_neg (by simp)]
    exact h.info
  flag := by
    rw [hd, if_neg (by simp)]
    exact h.flag
  pending_lt := h.pending_lt
  inited := h.inited
  loaded := h.loaded
  current := h.current
  fd := rfl
  fileSize := rfl

theorem Writes.roll (h : Writes w d l v) (ht : l.tail ≠ [])
    (hd : ∀ g, d'.get g = if g = .segment (l.current + 1) then some (segmentBytes []) else d.get g) :
    Writes (rolled w l) d' (l.roll ht) v where
  holds := h.holds.roll ht hd
  info := by
    rw [hd, if_neg (by simp)]
    exact h.info
  flag := by
    rw [hd, if_neg (by simp)]
    exact h.flag
  pending_lt := h.pending_lt
  inited := h.inited
  loaded := h.loaded
  current := (SegmentedLog.current_roll l ht).symm
  fd := by
    rw [SegmentedLog.current_roll]
    rfl
  fileSize := rfl

theorem Ready.push (h : Ready judge w d l v) (hid : r.id = lastId l + 1) (hlt : r.id < ulongMax)
    (hj : judge r.content = .accepted) (hsize : (segmentBytes (l.tail ++ [r])).length < 2 ^ 32)
    (hd : HasRecord d l r d') : Ready judge (stored w l r) d' (l.push r) v where
  toWrites := h.toWrites.push hd
  wf := h.wf.push hid hlt hj hsize
  index e i := by
    -- the new id is larger than every id of the log, so the update overwrites nothing
    have hnew : ∀ j s a, l.seg j = some s → a ∈ s → a.id < r.id := fun j s a hs ha => by
      have := h.wf.id_le_lastId (SegmentedLog.mem_entries_iff.mpr ⟨j, s, hs, ha⟩)
      omega
    change Function.update w.mpEntriesIdSegId r.id (some l.current) e = some i ↔ _
    rw [Function.update_apply, SegmentedLog.seg_push]
    by_cases he : e = r.id
    · rw [if_pos he]
      constructor
      · intro hi
        cases hi
        exact ⟨l.tail ++ [r], if_pos rfl, r, by simp, he.symm⟩
      · rintro ⟨s, hs, a, ha, hae⟩
        split_ifs at hs with hi
        · rw [hi]
        · exact absurd (hnew i s a hs ha) (by omega)
    · rw [if_neg he, h.index]
      by_cases hi : i = l.current
      · subst hi
        rw [if_pos rfl, l.seg_current]
        simp only [Option.some.injEq, exists_eq_left', List.mem_append, List.mem_singleton]
        constructor
        · rintro ⟨a, ha, hae⟩
          exact ⟨a, .inl ha, hae⟩
        · rintro ⟨a, ha | rfl, hae⟩
          · exact ⟨a, ha, hae⟩
          · exact absurd hae.symm he
      · rw [if_neg hi]
  counter := (lastId_push l r).symm
  min := h.min
  lastTrunc a ha := by
    rw [SegmentedLog.entries_push, List.mem_append, List.mem_singleton] at ha
    rcases ha with ha | rfl
    · exact h.lastTrunc a ha
    · exact le_trans h.lastTrunc_le (by omega)
  lastTrunc_le := by
    rw [lastId_push]
    exact le_trans h.lastTrunc_le (by omega)

theorem Ready.roll (h : Ready judge w d l v) (ht : l.tail ≠ []) (hlt : l.current + 1 < ulongMax)
    (hd : ∀ g, d'.get g = if g = .segment (l.current + 1) then some (segmentBytes []) else d.get g) :
    Ready judge (rolled w l) d' (l.roll ht) v where
  toWrites := h.toWrites.roll ht hd
  wf := h.wf.roll ht hlt
  index e i := by
    refine (h.index e i).trans ?_
    rw [SegmentedLog.seg_roll]
    split_ifs with hi
    · have hnone : l.seg i = none := SegmentedLog.seg_eq_none_iff.mpr (.inr (by omega))
      simp [hnone]
    · rfl
  counter := by
    rw [lastId_roll]
    exact h.counter
  min := h.min
  lastTrunc r hr := h.lastTrunc r (by rwa [SegmentedLog.entries_roll] at hr)
  lastTrunc_le := by
    rw [lastId_roll]
    exact h.lastTrunc_le

/-! ## The calls -/

def AppendOk (r : Ended AppendEntryResult) : Prop := ∃ res, r = .returned res ∧ res.rc = .OK

/-- An entry that the configuration and the memory pool can take. -/
def Accepts (conf : LogCleanWalConfig) (content : Bytes) : Prop :=
  content.length + entryExtraFieldsSize ≤ conf.maxEntrySize ∧
    content.length + entryExtraFieldsSize ≤ 2 ^ 32 - 4096

/-- The record that the next call of `AppendEntry` writes. -/
def newRec (w : LogCleanWal) (content : Bytes) : Rec :=
  ⟨w.currentEntryIdx + 1, w.conf.writeEntryVersion, content⟩

/-- `AppendEntry` on an entry that passes the size check and finds a block. -/
theorem Writes.appendEntry_accepted (h : Writes w d l v) (room : Room w content) (accepts : Accepts w.conf content)
    (fs : Faults) :
    appendEntry w (some content) d fs =
      appendRecord { w with currentEntryIdx := w.currentEntryIdx + 1 }
        ((newRec w content).frame.bytes (segmentBytes l.tail).length)
        (content.length + entryExtraFieldsSize) d fs := by
  obtain ⟨hmax, hpool⟩ := accepts
  have hraw : content.length % 2 ^ 32 = content.length := Nat.mod_eq_of_lt room.length_lt
  have hsum : content.length + entryExtraFieldsSize < 2 ^ 32 := by omega
  have hidx : (w.currentEntryIdx + 1) % 2 ^ 64 = w.currentEntryIdx + 1 :=
    Nat.mod_eq_of_lt (lt_trans room.entryIdx (by decide))
  have hpos : 0 < content.length + entryExtraFieldsSize := by unfold entryExtraFieldsSize; omega
  obtain ⟨capacity, hslot, hcap⟩ := MemPool.slotSize_of_le hpos hpool
  simp only [appendEntry, h.inited, h.loaded, Bool.not_true, Bool.false_eq_true, if_false, hraw,
    Nat.mod_eq_of_lt hsum, if_neg (not_lt.mpr hmax), hslot, if_neg (not_lt.mpr hcap), hidx,
    List.take_length, walRecord_eq, h.fileSize]
  rfl

/-- `AppendEntry` on any other entry: refused without any effect, or no block is found. -/
theorem Writes.appendEntry_refused (h : Writes w d l v) (room : Room w content) (accepts : ¬ Accepts w.conf content)
    (fs : Faults) :
    appendEntry w (some content) d fs =
      ⟨[], d, fs, w, if w.conf.maxEntrySize < content.length + entryExtraFieldsSize then
        appendError .EntryBytesSizeOverflow entryBytesSizeOverflowError else .crashed .badAlloc⟩ := by
  have hraw : content.length % 2 ^ 32 = content.length := Nat.mod_eq_of_lt room.length_lt
  have hsum : content.length + entryExtraFieldsSize < 2 ^ 32 := by have := room.fileSize; omega
  simp only [appendEntry, h.inited, h.loaded, Bool.not_true, Bool.false_eq_true, if_false, hraw,
    Nat.mod_eq_of_lt hsum]
  split_ifs with hmax
  · rfl
  · have hpool : 2 ^ 32 - 4096 < content.length + entryExtraFieldsSize := by
      by_contra hle
      exact accepts ⟨by omega, by omega⟩
    rw [MemPool.slotSize_of_lt hpool hsum]
    rfl

theorem writeDir_at_end {n : WalFile} {bs : Bytes} (hd : d.get n = some bs) (data : Bytes) (g : WalFile) :
    (writeDir n bs.length data d).get g = if g = n then some (bs ++ data) else d.get g := by
  simp only [writeDir, hd, Dir.get_put, writeAt_end]

/-- The record is durable and noted; what is left is the roll. -/
theorem Writes.appendRecord_durable (h : Writes w d l v) (room : Room w content) {fs : Faults} (hwrite : NextOk fs)
    (hsync : NextOk fs.tail) :
    ∃ d', HasRecord d l (newRec w content) d' ∧
      (appendRecord { w with currentEntryIdx := w.currentEntryIdx + 1 }
          ((newRec w content).frame.bytes (segmentBytes l.tail).length)
          (content.length + entryExtraFieldsSize) d fs).value =
        (appendDone (stored w l (newRec w content)) d' fs.tail.tail).value ∧
      (appendRecord { w with currentEntryIdx := w.currentEntryIdx + 1 }
          ((newRec w content).frame.bytes (segmentBytes l.tail).length)
          (content.length + entryExtraFieldsSize) d fs).disk =
        (appendDone (stored w l (newRec w content)) d' fs.tail.tail).disk := by
  have hfile := room.fileSize
  rw [h.fileSize] at hfile
  have hlen := length_segmentBytes_append l.tail (newRec w content)
  have hd : HasRecord d l (newRec w content) (writeDir (.segment l.current) (segmentBytes l.tail).length
      ((newRec w content).frame.bytes (segmentBytes l.tail).length) d) := by
    intro g
    rw [writeDir_at_end (h.holds.get l.seg_current), segmentBytes_append, walRecord_eq]
  have hnote : noteAppended { w with
      currentEntryIdx := w.currentEntryIdx + 1
      currentSegFd := some ⟨.segment l.current, (segmentBytes l.tail).length +
        ((newRec w content).frame.bytes (segmentBytes l.tail).length).length⟩ }
      (content.length + entryExtraFieldsSize) = stored w l (newRec w content) := by
    simp only [noteAppended, stored, h.fileSize, Nat.mod_eq_of_lt hfile, h.current, hlen,
      Frame.length_bytes, Rec.size_frame]
    rfl
  refine ⟨_, hd, ?_⟩
  simp only [appendRecord, h.fd, bind_run, writeFully_nextOk hwrite, syscall_nextOk hsync]
  rw [hnote]
  exact ⟨rfl, rfl⟩

/-! ## When no call fails -/

/-- The record of the next entry. -/
def nextRec (w : LogCleanWal) (l : Log) (content : Bytes) : Rec :=
  ⟨lastId l + 1, w.conf.writeEntryVersion, content⟩

structure Appended (judge : Judge) (w : LogCleanWal) (l : Log) (v : ℕ) (content : Bytes)
    (o : Outcome WalDir (LogCleanWal × Ended AppendEntryResult)) : Prop where
  result : o.value.2 = .returned ⟨.OK, "", lastId l + 1⟩
  ready : Ready judge o.value.1 o.disk (append w.conf l (nextRec w l content)) v
  conf_eq : o.value.1.conf = w.conf
  min_eq : o.value.1.minSegmentId = w.minSegmentId

theorem appendDone_spec (h : Ready judge w d (l.push r) v) (hlt : l.current + 1 < ulongMax) :
    (appendDone w d []).value.2 = .returned ⟨.OK, "", w.currentEntryIdx⟩ ∧
      Ready judge (appendDone w d []).value.1 (appendDone w d []).disk (append w.conf l r) v ∧
      (appendDone w d []).value.1.conf = w.conf ∧
      (appendDone w d []).value.1.minSegmentId = w.minSegmentId := by
  have hsize : w.curSegFileSize = (segmentBytes (l.tail ++ [r])).length := h.fileSize
  simp only [appendDone, hsize, append]
  by_cases hfull : w.conf.maxSegmentSize ≤ (segmentBytes (l.tail ++ [r])).length
  · have hid : (w.currentSegmentId + 1) % 2 ^ 64 = (l.push r).current + 1 := by
      rw [h.current]
      exact Nat.mod_eq_of_lt (lt_trans hlt (by decide))
    obtain ⟨hv, hf, hd⟩ := createNewSegmentFile_spec w d _ hid (h.holds.get_none (.inr (by omega)))
    simp only [if_pos hfull, bind_run, hv, hf, WalResult.ok, ne_eq, not_true_eq_false, if_false, pure_run]
    exact ⟨trivial, h.roll (l.push_tail_ne r) hlt hd, trivial, trivial⟩
  · simp only [if_neg hfull, pure_run]
    exact ⟨trivial, h, trivial, trivial⟩

/-- One call of `AppendEntry`: the newest record, or refused without any effect. -/
theorem appendEntry_run (h : Ready judge w d l v) (room : Room w content) (hj : judge content = .accepted) :
    (Accepts w.conf content ∧ Appended judge w l v content (appendEntry w (some content) d [])) ∨
      (¬ Accepts w.conf content ∧ ¬ AppendOk (appendEntry w (some content) d []).value.2 ∧
        (appendEntry w (some content) d []).value.1 = w ∧
        (appendEntry w (some content) d []).disk = d) := by
  by_cases accepts : Accepts w.conf content
  · have hok : NextOk [] := by simp [NextOk]
    have hrec : newRec w content = nextRec w l content := by rw [newRec, h.counter, nextRec]
    obtain ⟨d', hd, hvalue, hdisk⟩ := h.appendRecord_durable room hok hok
    rw [← h.appendEntry_accepted room accepts] at hvalue hdisk
    rw [hrec] at hd hvalue hdisk
    have hidx : lastId l + 1 < ulongMax := h.counter ▸ room.entryIdx
    have hready := h.push (r := nextRec w l content) rfl hidx hj
      (by rw [length_segmentBytes_append, ← h.fileSize]; exact room.fileSize) hd
    obtain ⟨hv, hr, hc, hm⟩ := appendDone_spec hready (h.current ▸ room.segmentId)
    refine .inl ⟨accepts, ⟨?_, ?_, ?_, ?_⟩⟩
    · rw [hvalue]
      exact hv
    · rw [hvalue, hdisk]
      exact hr
    · rw [hvalue]
      exact hc
    · rw [hvalue]
      exact hm
  · rw [h.appendEntry_refused room accepts]
    refine .inr ⟨accepts, ?_, rfl, rfl⟩
    split_ifs <;> simp [AppendOk, appendError]

theorem appendEntry_spec (h : Ready judge w d l v) (room : Room w content) (hj : judge content = .accepted) :
    (¬ AppendOk (appendEntry w (some content) d []).value.2 ∧
        (appendEntry w (some content) d []).value.1 = w ∧
        (appendEntry w (some content) d []).disk = d) ∨
      Appended judge w l v content (appendEntry w (some content) d []) := by
  rcases appendEntry_run h room hj with ⟨-, ha⟩ | ⟨-, hr⟩
  · exact .inr ha
  · exact .inl hr

end

end FlyingKV.Wal
