import FlyingKV.ReadAnyFile
import FlyingKV.WalAppendFailure

set_option autoImplicit false

/-!
# A crash inside `AppendEntry`

The process dies while the record, or in a roll the header of the new file, is
being written. `Load` hands entries over one read at a time, so a torn record can
take acknowledged entries of the same file with it. It does not cut the tear off
either: what is appended behind it is never loaded.
-/
namespace FlyingKV.Wal
open ByteOrder CommonUtils DecimalText FileDir DiskProgram FileUtils FramedStream

/-- The process dies after `k` bytes of the record, or, in a roll, after `k` bytes of the header of
the new segment file. -/
inductive AppendCrash where
  | record (k : ℕ)
  | header (k : ℕ)
deriving DecidableEq, Repr

/-- The schedule of calls up to the write in which the process dies. -/
def AppendCrash.faults : AppendCrash → Faults
  | .record k => [some ⟨k, ""⟩]
  | .header k => [none, none, none, none, some ⟨k, ""⟩]

/-- The bytes written are a proper prefix of the record, or the append rolls and they are a proper
prefix of the header. -/
def AppendCrash.Inside (s : WalSystem) (content : Bytes) : AppendCrash → Prop
  | .record k => k < content.length + entryExtraFieldsSize
  | .header k => k < magicNoLen ∧
      s.wal.conf.maxSegmentSize ≤ s.wal.curSegFileSize + (content.length + entryExtraFieldsSize)

instance decidableInside (s : WalSystem) (content : Bytes) :
    ∀ c : AppendCrash, Decidable (c.Inside s content)
  | .record _ => inferInstanceAs (Decidable (_ < _))
  | .header _ => inferInstanceAs (Decidable (_ ∧ _))

/-- The directory that the crash leaves. -/
def crashedDir (s : WalSystem) (content : Bytes) (c : AppendCrash) : WalDir :=
  (appendEntry s.wal (some content) s.dir c.faults).disk

/-- `Init` and `Load` deliver every entry of the log, and the object takes further entries: each that the
object before the crash had room for is acknowledged, and the restart after it ends well and delivers it with
the others. -/
structure Survives (judge : Judge) (errno : ℕ) (conf : LogCleanWalConfig) (s : WalSystem) (d : WalDir) :
    Prop where
  returned : ∃ res, (reopen judge errno conf d []).value.result = .returned res
  delivered : ∀ e ∈ heldEntries s.dir, e ∈ Wal.delivered judge errno conf d
  accepts : ∀ content, Admits judge s (.append (some content)) → Accepts conf content → CanRead conf [content] →
    ∃ u r, walStep judge ⟨(reopen judge errno conf d []).value.wal, (reopen judge errno conf d []).disk⟩
        (.append (some content)) = some (u, .appended r) ∧ r.rc = .OK ∧
      (reopen judge errno conf u.dir []).value.result = .returned .ok ∧
      ∀ e ∈ heldEntries s.dir ++ [⟨r.entryId, content⟩], e ∈ Wal.delivered judge errno conf u.dir

/-- With `n` bytes of entries in the current file: nothing of the record is written, or a read of
the file ends between the last acknowledged entry and the tear. -/
def TearSpares (conf : LogCleanWalConfig) (n : ℕ) : AppendCrash → Prop
  | .record k => k = 0 ∨ n ≤ (n + k) / conf.readBatchSize * conf.readBatchSize
  | .header _ => True

instance decidableTearSpares (conf : LogCleanWalConfig) (n : ℕ) :
    ∀ c : AppendCrash, Decidable (TearSpares conf n c)
  | .record _ => inferInstanceAs (Decidable (_ ∨ _))
  | .header _ => isTrue trivial

section
variable {judge : Judge} {w : LogCleanWal} {d : WalDir} {l : Log} {v : ℕ}

/-! ## The directories that a crash leaves -/

theorem crashed_record (h : Writes w d l v) {content : Bytes} (room : Room w content)
    (accepts : Accepts w.conf content) (k : ℕ) (g : WalFile) :
    (appendEntry w (some content) d (AppendCrash.record k).faults).disk.get g =
      if g = .segment l.current then some (segmentBytes l.tail ++
        ((newRec w content).frame.bytes (segmentBytes l.tail).length).take k) else d.get g := by
  rw [h.appendEntry_accepted room accepts]
  simp only [appendRecord, h.fd, bind_run]
  exact writeDir_at_end (h.holds.get l.seg_current) _ g

theorem createNewSegmentFile_header {fd : Fd WalFile} (hfd : w.currentSegFd = some fd) {id : ℕ}
    (hid : (w.currentSegmentId + 1) % 2 ^ 64 = id) (hnone : d.get (.segment id) = none) (f : Fault)
    (g : WalFile) :
    (createNewSegmentFile w d [none, none, some f]).disk.get g =
      if g = .segment id then some ((writeUInt32 magicNo).take f.done) else d.get g := by
  have hopen : openCreate (WalFile.segment id) d [none, some f] =
      ⟨[d.put (.segment id) []], d.put (.segment id) [], [some f], none⟩ := by
    rw [openCreate, if_neg (by simp [Dir.exist, hnone])]
    rfl
  have hclose : syscall d [none, none, some f] = ⟨[], d, [none, some f], none⟩ := rfl
  simp only [createNewSegmentFile, hfd, bind_run, hclose, openNewSegment, hid, hopen]
  change (writeDir (WalFile.segment id) 0 ((writeUInt32 magicNo).take f.done)
    (d.put (.segment id) [])).get g = _
  simp only [writeDir, Dir.get_put_self, Dir.get_put]
  split_ifs <;> simp [writeAt]

theorem crashed_header (h : Writes w d l v) {content : Bytes} (room : Room w content)
    (accepts : Accepts w.conf content)
    (hfull : w.conf.maxSegmentSize ≤ w.curSegFileSize + (content.length + entryExtraFieldsSize))
    (k : ℕ) :
    ∃ d', HasRecord d l (newRec w content) d' ∧
      ∀ g, (appendEntry w (some content) d (AppendCrash.header k).faults).disk.get g =
        if g = .segment (l.current + 1) then some ((writeUInt32 magicNo).take k) else d'.get g := by
  have hok : ∀ fs : Faults, NextOk (none :: fs) := fun fs => by simp [NextOk]
  obtain ⟨d', hd, -, hdisk⟩ := h.appendRecord_durable room
    (show NextOk (AppendCrash.header k).faults from hok _) (hok _)
  have h' := h.push hd
  refine ⟨d', hd, fun g => ?_⟩
  have hid : ((stored w l (newRec w content)).currentSegmentId + 1) % 2 ^ 64 = l.current + 1 := by
    rw [h'.current]
    exact Nat.mod_eq_of_lt (lt_trans (h.current ▸ room.segmentId) (by decide))
  have hnone : d'.get (.segment (l.current + 1)) = none := by
    rw [hd, if_neg (by simp)]
    exact h.holds.get_none (.inr (by omega))
  have hroll : (stored w l (newRec w content)).conf.maxSegmentSize ≤
      (stored w l (newRec w content)).curSegFileSize := by
    rw [h'.fileSize]
    change w.conf.maxSegmentSize ≤ (segmentBytes (l.tail ++ [newRec w content])).length
    rw [length_segmentBytes_append, ← h.fileSize]
    exact hfull
  have hheader := createNewSegmentFile_header h'.fd hid hnone ⟨k, ""⟩ g
  rw [h.appendEntry_accepted room accepts, hdisk, ← hheader]
  change (appendDone (stored w l (newRec w content)) d' [none, none, some ⟨k, ""⟩]).disk.get g = _
  unfold appendDone
  simp only [if_pos hroll, bind_run]
  split_ifs <;> rfl

/-! ## Which entries of the torn file are handed over -/

theorem streamSize_le_of_prefix {fs gs : List Frame} (h : fs <+: gs) : streamSize fs ≤ streamSize gs := by
  obtain ⟨t, rfl⟩ := h
  rw [streamSize_append]
  omega

/-- All entries before the torn record, if a read ends behind them, and otherwise only those that
were complete at the end of the last read. -/
theorem handedOver_torn (batch : ℕ) (s : List Rec) (r : Rec) {k : ℕ} (hpos : 0 < k)
    (hk : k < r.frame.size) {S M : ℕ} (hS : S = streamSize (s.map Rec.frame))
    (hM : M = (S + k) / batch * batch) :
    ∃ t : List Rec, handedOver batch (S + k) 0 ((s ++ [r]).map Rec.frame) = t.map Rec.frame ∧
      ((S ≤ M ∧ t = s) ∨ (M < S ∧ ∃ j < s.length, t = s.take j)) := by
  subst hS
  have hleft := leftoverAt_torn s r hk
  have hMle : M ≤ streamSize (s.map Rec.frame) + k := by
    rw [hM]
    exact Nat.div_mul_le_self _ _
  rw [handedOver, hleft, if_neg (by omega), Nat.sub_zero, Nat.zero_add, ← hM]
  by_cases hle : streamSize (s.map Rec.frame) ≤ M
  · refine ⟨s, ?_, .inl ⟨hle, rfl⟩⟩
    rw [← Nat.add_sub_cancel' hle, List.map_append, cut_append_right, List.map_singleton, cut,
      if_neg (by omega), List.append_nil]
  · -- the handed frames are a prefix that is too short to hold all of `s`
    have hpre : (cut M ((s ++ [r]).map Rec.frame)).1 <+: (s ++ [r]).map Rec.frame :=
      ⟨_, cut_append M _⟩
    have hsize := cut_size M ((s ++ [r]).map Rec.frame)
    have hlen : (cut M ((s ++ [r]).map Rec.frame)).1.length < s.length := by
      by_contra hge
      have hall : s.map Rec.frame <+: (cut M ((s ++ [r]).map Rec.frame)).1 := by
        refine List.prefix_of_prefix_length_le ?_ hpre (by simpa using hge)
        exact ⟨[r.frame], by simp⟩
      have := streamSize_le_of_prefix hall
      omega
    refine ⟨s.take (cut M ((s ++ [r]).map Rec.frame)).1.length, ?_, .inr ⟨by omega, _, hlen, rfl⟩⟩
    conv_lhs => rw [List.prefix_iff_eq_take.mp hpre]
    rw [← List.map_take, List.take_append_of_le_length hlen.le]

/-! ## Which acknowledged entries are delivered -/

/-- The directory yields the records of `segs`, without those the number `v` asks to remove, and
then those of `t`; nothing if `v` reaches past `segs`. -/
def Yields (first v : ℕ) (segs : List (List Rec)) (t : List Rec) (es : List WalEntry) : Prop :=
  (v < first + segs.length →
      es = (segs.drop (v + 1 - first)).flatten.map Rec.entry ++ t.map Rec.entry) ∧
    (first + segs.length ≤ v → es = [])

theorem Yields.forall_mem_iff {first : ℕ} {segs : List (List Rec)} {t : List Rec}
    {es : List WalEntry} (hy : Yields first v segs t es) (hfirst : 1 ≤ first)
    (hp : (segs.flatten ++ t).Pairwise (fun a b => a.id < b.id)) {held : List Rec}
    (hne : v ≠ 0 → held ≠ []) (hhead : v ≠ 0 → ∀ s rest, segs = s :: rest → ∃ a ∈ s, a ∈ held) :
    (∀ e ∈ held.map Rec.entry, e ∈ es) ↔
      v < first ∧ ∀ e ∈ held.map Rec.entry, e ∈ (segs.flatten ++ t).map Rec.entry := by
  by_cases hv : v < first
  · have hes := hy.1 (by omega)
    rw [show v + 1 - first = 0 by omega, List.drop_zero, ← List.map_append] at hes
    rw [hes]
    exact ⟨fun h => ⟨hv, h⟩, fun h => h.2⟩
  refine ⟨fun hall => ?_, fun h => absurd h.1 hv⟩
  exfalso
  by_cases hc : v < first + segs.length
  · -- an entry of the first segment is gone
    obtain ⟨s, rest, rfl⟩ := List.exists_cons_of_ne_nil (l := segs) (by
      rintro rfl
      simp only [List.length_nil] at hc
      omega)
    obtain ⟨a, ha, hheld⟩ := hhead (by omega) s rest rfl
    have hmem := hall _ (List.mem_map_of_mem hheld)
    rw [hy.1 hc, show v + 1 - first = v - first + 1 by omega, List.drop_succ_cons,
      ← List.map_append] at hmem
    obtain ⟨b, hb, hbe⟩ := List.mem_map.mp hmem
    have hid : b.id = a.id := congrArg WalEntry.id hbe
    have hafter : b ∈ rest.flatten ++ t := by
      rcases List.mem_append.mp hb with hb | hb
      · exact List.mem_append_left _ ((List.drop_sublist _ _).flatten.subset hb)
      · exact List.mem_append_right _ hb
    rw [List.flatten_cons, List.append_assoc] at hp
    have := (List.pairwise_append.mp hp).2.2 a ha b hafter
    omega
  · obtain ⟨a, rest, rfl⟩ := List.exists_cons_of_ne_nil (hne (by omega))
    have hmem := hall a.entry (by simp)
    rw [hy.2 (by omega)] at hmem
    simp at hmem

/-- Whole segments and a last file that is reported as corrupt after the records `t`. -/
theorem yields_torn {errno : ℕ} {conf : LogCleanWalConfig} {e : WalDir} {first : ℕ}
    {segs : List (List Rec)} {last : Bytes} (hfiles : HoldsFiles e first (segs.map segmentBytes) last)
    (hfirst : 1 ≤ first) (hb : getUncompletedTruncSegmentsMaxId errno e = v) (hlt : v < ulongMax)
    (hr : ∀ s ∈ segs, Readable judge s) (hfit : ∀ s ∈ segs, SegmentFits conf s) {t : List Rec}
    (hlast : ∀ (w : LogCleanWal) (d' : WalDir) (i : ℕ), w.conf = conf →
      d'.get (.segment i) = some last →
        (loadSegment judge w i d' []).value.result = .returned ⟨.FileCorrupt, fileCorruptError⟩ ∧
          (loadSegment judge w i d' []).value.batches.flatten = t.map Rec.entry) :
    Yields first v segs t (delivered judge errno conf e) := by
  by_cases hc : v < first + segs.length
  · have hbatches := (reopen_torn hfiles hfirst hb hlt hc hr hfit (by simp [WalResult.ok]) hlast).2
    exact ⟨fun _ => hbatches, fun hge => by omega⟩
  · have hopen := reopen_cleared judge conf hfiles hfirst hb hlt (by rw [List.length_map]; omega)
    refine ⟨fun hlt => absurd hlt hc, fun _ => ?_⟩
    rw [delivered, hopen.batches]
    rfl

theorem map_ofFrame {t : List Rec} (h : ∀ r ∈ t, r.id < ulongMax) :
    (t.map Rec.frame).map WalEntry.ofFrame = t.map Rec.entry := by
  rw [List.map_map]
  exact List.map_congr_left fun r hr => Rec.ofFrame_frame (lt_trans (h r hr) (by decide))

section Images
variable {content : Bytes} {conf : LogCleanWalConfig}

theorem Appending.yields_zero (h : Appending judge w d l v) (hf : LogFits conf l) {e : WalDir}
    (he : ∀ g, e.get g = d.get g) (errno : ℕ) :
    Yields l.first v l.closed l.tail (delivered judge errno conf e) := by
  have hh : Holds e l := fun i => by rw [he, h.holds i]
  have hb : getUncompletedTruncSegmentsMaxId errno e = v := by
    rw [bound_congr errno (d := d) (he _) (he _), h.bound]
  have hopen := reopen_readable errno conf h.readable hh h.first_pos hb h.pending_lt
  obtain ⟨-, -, hbatches, -⟩ := hopen.resolve_right fun hbad => hbad.1 (hf.loads v)
  refine ⟨fun hc => ?_, fun hc => ?_⟩
  · have hrec : recover l v = l.dropThrough v := if_pos hc
    rw [delivered, hbatches, hrec, SegmentedLog.entries_eq, List.map_append]
    rfl
  · have hrec : recover l v = SegmentedLog.start 1 := if_neg (Nat.not_lt_of_le hc)
    rw [delivered, hbatches, hrec]
    rfl

theorem Appending.yields_record (h : Appending judge w d l v) (room : Room w content)
    (hj : judge content = .accepted) (hf : LogFits conf (l.push (newRec w content))) {k : ℕ}
    (hpos : 0 < k) (hk : k < (newRec w content).frame.size) {e : WalDir}
    (he : ∀ g, e.get g = if g = .segment l.current then some (segmentBytes l.tail ++
      ((newRec w content).frame.bytes (segmentBytes l.tail).length).take k) else d.get g)
    (errno : ℕ) {t : List Rec} (ht : t <+: l.tail)
    (hhanded : handedOver conf.readBatchSize (streamSize (l.tail.map Rec.frame) + k) 0
      ((l.tail ++ [newRec w content]).map Rec.frame) = t.map Rec.frame) :
    Yields l.first v l.closed t (delivered judge errno conf e) := by
  have hr := h.readable_next room hj
  have hfits := forall_segments_iff.mpr hf
  have hreadable := forall_segments_iff.mpr h.readable
  have htorn := h.tornDir_record room hj hpos hk he errno
  have hn : streamSize (l.tail.map Rec.frame) + k ≤
      streamSize ((l.tail ++ [newRec w content]).map Rec.frame) := by
    simp only [List.map_append, streamSize_append, List.map_singleton, streamSize_cons, streamSize_nil]
    omega
  refine yields_torn htorn.files h.first_pos htorn.bound h.pending_lt
    (fun s hs => hreadable s (List.mem_append_left _ hs))
    (fun s hs => hfits s (List.mem_append_left _ hs)) fun w' d' i hw' hget => ?_
  rw [segmentBytes_torn] at hget
  have hupTo : FitsUpTo MemPool.slotSize w'.conf.readBatchSize (streamSize (l.tail.map Rec.frame) + k) 0
      ((l.tail ++ [newRec w content]).map Rec.frame) := by
    rw [hw']
    exact fun j hj => hfits _ (List.mem_append_right _ (by simp [SegmentedLog.push])) j (by omega)
  rcases loadSegment_take (w := w') hget hr hn with ⟨-, hres, hbatches⟩ | ⟨hno, -⟩
  · rw [hres, hbatches, leftoverAt_torn _ _ hk, if_neg (by omega), hw', hhanded]
    exact ⟨rfl, map_ofFrame fun a ha => (h.readable_tail.ids a (ht.subset ha)).2⟩
  · exact absurd hupTo hno

theorem Appending.yields_header (h : Appending judge w d l v) (room : Room w content)
    (hj : judge content = .accepted) (hf : LogFits conf (l.push (newRec w content))) {k : ℕ}
    (hk : k < magicNoLen) {d' e : WalDir} (hd : HasRecord d l (newRec w content) d')
    (he : ∀ g, e.get g = if g = .segment (l.current + 1) then some ((writeUInt32 magicNo).take k)
      else d'.get g) (errno : ℕ) :
    Yields l.first v (l.closed ++ [l.tail ++ [newRec w content]]) [] (delivered judge errno conf e) := by
  have h' := h.push rfl (h.readable_next room hj) hd
  have htorn := h.tornDir_header room hj hk hd he errno
  refine yields_torn htorn.files h.first_pos htorn.bound h.pending_lt (forall_segments_iff.mpr h'.readable)
    (forall_segments_iff.mpr hf) fun w' d₁ i _ hget => ?_
  rw [loadSegment_short hget (by rw [List.length_take]; omega)]
  exact ⟨rfl, rfl⟩

end Images

section
variable {conf : LogCleanWalConfig} {first : ℕ} {closed : List Bytes} {last content : Bytes}
  {o : Outcome WalDir WalLoad} {u s : WalSystem} {r : AppendEntryResult}

/-! ## Appending behind a tear -/

/-- The position in the last record of a file is not 0. -/
theorem loadSegment_zero_position {w' : LogCleanWal} {d' : WalDir} {i : ℕ} {bs pre : Bytes}
    (hd : d'.get (.segment i) = some bs) (hbs : bs = pre ++ writeUInt32 0) (hpre : 4 < pre.length)
    (hsmall : bs.length < 2 ^ 32) : (loadSegment judge w' i d' []).value.result ≠ .returned .ok := by
  intro hok
  obtain ⟨fs, hfs⟩ := ReadAnyFile.records_of_ok hd hok
  have hlen := congrArg List.length hfs
  have hstream := congrArg (List.drop 4) (hfs.symm.trans hbs)
  rw [List.drop_left' (by simp), List.drop_append_of_le_length hpre.le] at hstream
  rw [hbs] at hlen hsmall
  simp only [List.length_append, length_writeBE, length_streamBytes] at hlen hsmall
  obtain ⟨p, hp, hlt, hmod⟩ := streamBytes_ends (by
    rintro rfl
    simp only [streamSize_nil] at hlen
    omega) hstream
  omega

theorem Resumed.append_disk (h : Resumed conf first closed last o) (hbad : o.value.result ≠ .returned .ok)
    (ha : Accepts conf content)
    (hs : walStep judge ⟨o.value.wal, o.disk⟩ (.append (some content)) = some (u, .appended r)) :
    ∃ (w₁ : LogCleanWal) (id : ℕ), w₁.currentSegmentId = first + closed.length ∧
      u.dir = (appendDone w₁ (writeDir (.segment (first + closed.length)) last.length
        (walRecord o.value.wal.conf.writeEntryVersion id content 0) o.disk) []).disk := by
  obtain ⟨hmax, hpool⟩ := ha
  obtain ⟨capacity, hslot, hcap⟩ := MemPool.slotSize_of_le (by unfold entryExtraFieldsSize; omega) hpool
  have hraw : content.length % 2 ^ 32 = content.length := Nat.mod_eq_of_lt (by omega)
  have hsum : (content.length + entryExtraFieldsSize) % 2 ^ 32 = content.length + entryExtraFieldsSize :=
    Nat.mod_eq_of_lt (by omega)
  have hdir : u.dir = (appendEntry o.value.wal (some content) o.disk []).disk := by
    simp only [walStep] at hs
    split at hs
    · cases hs
      rfl
    · cases hs
  rw [hdir]
  rw [← h.conf] at hmax
  simp only [appendEntry, h.inited, h.loaded, Bool.not_true, Bool.false_eq_true, if_false, hraw, hsum,
    if_neg (not_lt.mpr hmax), hslot, if_neg (not_lt.mpr hcap), appendRecord, h.fd, bind_run, writeFully_run,
    syscall_run, List.take_length, h.size hbad]
  refine ⟨_, _, ?_, rfl⟩
  exact h.segment

/-- `AppendEntry` after a `Load` that did not end well puts its record behind whatever the last file holds, and
its position in the record is 0. -/
theorem Resumed.append (h : Resumed conf first closed last o) (hbad : o.value.result ≠ .returned .ok)
    (hcur : first + closed.length + 1 < 2 ^ 64) (ha : Accepts conf content)
    (hs : walStep judge ⟨o.value.wal, o.disk⟩ (.append (some content)) = some (u, .appended r)) :
    ∃ pre closed' last', HoldsFiles u.dir first closed' last' ∧ Settled u.dir ∧
      last ++ pre ++ writeUInt32 0 ∈ closed' ++ [last'] ∧ pre.length = content.length + 13 := by
  obtain ⟨w₁, id, hcurrent, hdir⟩ := h.append_disk hbad ha hs
  obtain ⟨pre, hpre, hlen⟩ : ∃ pre, walRecord o.value.wal.conf.writeEntryVersion id content 0 =
      pre ++ writeUInt32 0 ∧ pre.length = content.length + 13 := ⟨_, rfl, by simp; omega⟩
  have hget := h.files (first + closed.length)
  rw [if_neg (by omega), Nat.add_sub_cancel_left, List.getElem?_concat_length] at hget
  have hafter := writeDir_at_end hget (pre ++ writeUInt32 0)
  rw [hpre] at hdir
  generalize writeDir _ _ _ o.disk = d₁ at hdir hafter
  have hfiles : HoldsFiles d₁ first closed (last ++ pre ++ writeUInt32 0) :=
    h.files.replace_last fun i => by simp [hafter, List.append_assoc]
  have hsettled : Settled d₁ := by simpa [Settled, hafter] using h.settled
  by_cases hfull : w₁.conf.maxSegmentSize ≤ w₁.curSegFileSize
  · -- the roll leaves the record in the file before the new one
    obtain ⟨hv, -, hnew⟩ := createNewSegmentFile_spec w₁ d₁ (first + closed.length + 1)
      (by rw [hcurrent]; exact Nat.mod_eq_of_lt hcur) (by
        rw [hfiles, if_neg (by omega), List.getElem?_eq_none]
        simp only [List.length_append, List.length_singleton]
        omega)
    have hroll : u.dir = (createNewSegmentFile w₁ d₁ []).disk := by
      rw [hdir]
      simp only [appendDone, if_pos hfull, bind_run, hv, WalResult.ok, ne_eq, not_true_eq_false, if_false, pure_run]
    rw [← hroll] at hnew
    exact ⟨pre, _, segmentBytes [], hfiles.concat fun i => by simp [hnew], by simpa [Settled, hnew] using hsettled, by simp, hlen⟩
  · simp only [appendDone, if_neg hfull, pure_run] at hdir
    rw [hdir]
    exact ⟨pre, _, _, hfiles, hsettled, by simp, hlen⟩

/-- So the next restart ends with an error. -/
theorem Resumed.not_accepts (h : Resumed conf first closed last o) (hbad : o.value.result ≠ .returned .ok)
    (hfirst : 1 ≤ first) (hcur : first + closed.length + 1 < 2 ^ 64) (ha : Accepts conf content)
    (hroom : last.length + (content.length + entryExtraFieldsSize) < 2 ^ 32)
    (hs : walStep judge ⟨o.value.wal, o.disk⟩ (.append (some content)) = some (u, .appended r)) (errno : ℕ) :
    (reopen judge errno conf u.dir []).value.result ≠ .returned .ok := by
  obtain ⟨pre, closed', last', hfiles, hsettled, hmem, hlen⟩ := h.append hbad hcur ha hs
  intro hok
  obtain ⟨w', d', i, -, hget, hres⟩ := reopen_ok_file hfiles hfirst (bound_of_no_info errno hsettled.1)
    (by decide) (by omega) (by rwa [show 0 + 1 - first = 0 by omega, List.drop_zero]) hok
  refine loadSegment_zero_position hget rfl ?_ ?_ hres
  · rw [List.length_append]
    omega
  · simp only [List.length_append, length_writeBE, entryExtraFieldsSize] at hroom ⊢
    omega

/-! ## The exact condition -/

/-- The first segment of the log holds an acknowledged entry, when a number is pending. -/
theorem exists_mem_first (hp : v ≠ 0 → l.entries ≠ []) (r : Rec) (hv : v ≠ 0) (s : List Rec)
    (rest : List (List Rec)) (hs : l.closed ++ [l.tail ++ [r]] = s :: rest) :
    ∃ a ∈ s, a ∈ l.entries := by
  cases hclosed : l.closed with
  | nil =>
    rw [hclosed, List.nil_append, List.cons.injEq] at hs
    obtain ⟨a, rest', ha⟩ := List.exists_cons_of_ne_nil (hp hv)
    have hmem : a ∈ l.entries := by simp [ha]
    refine ⟨a, ?_, hmem⟩
    rw [SegmentedLog.entries_eq, hclosed, List.flatten_nil, List.nil_append] at hmem
    rw [← hs.1]
    exact List.mem_append_left _ hmem
  | cons s' rest' =>
    rw [hclosed, List.cons_append, List.cons.injEq] at hs
    obtain ⟨a, rest'', ha⟩ := List.exists_cons_of_ne_nil (l.closed_ne s' (by simp [hclosed]))
    refine ⟨a, by simp [← hs.1, ha], ?_⟩
    rw [SegmentedLog.entries_eq, hclosed]
    simp [ha]

/-- Entries of the current file that are not handed over are nowhere else. -/
theorem exists_lost {l : Log} (hpair : l.entries.Pairwise fun a b => a.id < b.id) {j : ℕ} (hj : j < l.tail.length) :
    ¬ ∀ e ∈ l.entries.map Rec.entry, e ∈ (l.closed.flatten ++ l.tail.take j).map Rec.entry := by
  intro hall
  obtain ⟨b, rest, hb⟩ := List.exists_cons_of_ne_nil (l := l.tail.drop j) (by
    rw [Ne, List.drop_eq_nil_iff]
    omega)
  have hsplit : l.entries = (l.closed.flatten ++ l.tail.take j) ++ b :: rest := by
    rw [l.entries_eq, List.append_assoc, ← hb, List.take_append_drop]
  have hmem := hall b.entry (List.mem_map_of_mem (by rw [hsplit]; simp))
  obtain ⟨a, haa, hae⟩ := List.mem_map.mp hmem
  rw [hsplit] at hpair
  have hlt := (List.pairwise_append.mp hpair).2.2 a haa b (by simp)
  have hid : a.id = b.id := congrArg WalEntry.id hae
  omega

theorem Ready.delivered_iff (h : Ready judge s.wal s.dir l v) (hp : v ≠ 0 → l.entries ≠ [])
    (room : Room s.wal content) (hj : judge content = .accepted) (accepts : Accepts s.wal.conf content)
    {c : AppendCrash} (hin : c.Inside s content) (errno : ℕ)
    (hread : CanRead conf (content :: l.entries.map Rec.content)) :
    (∀ x ∈ l.entries.map Rec.entry, x ∈ delivered judge errno conf (crashedDir s content c)) ↔
      TearSpares conf (s.wal.curSegFileSize - magicNoLen) c ∧ v < l.first := by
  have ha := h.appending hp
  have hnew : ∀ a ∈ l.entries, a.id < (newRec s.wal content).id := fun a hmem =>
    Nat.lt_succ_of_le (ha.ids_le a hmem)
  have hf : LogFits conf (l.push (newRec s.wal content)) := by
    refine logFits_of_canRead ⟨hread.1, fun b hb => hread.2 b ?_⟩
    rw [SegmentedLog.entries_push, List.map_append, List.mem_append, List.map_singleton,
      List.mem_singleton] at hb
    rcases hb with hb | rfl
    · exact List.mem_cons_of_mem _ hb
    · exact List.mem_cons_self
  have hfl : LogFits conf l := logFits_of_canRead ⟨hread.1, fun b hb => hread.2 b (List.mem_cons_of_mem _ hb)⟩
  have hhead : v ≠ 0 → ∀ s' rest, l.closed = s' :: rest → ∃ a ∈ s', a ∈ l.entries := by
    intro hv s' rest hs
    exact exists_mem_first hp (newRec s.wal content) hv s' (rest ++ [l.tail ++ [newRec s.wal content]])
      (by rw [hs, List.cons_append])
  have hentries := l.entries_eq
  have hpair := h.wf.pairwise
  have hS : s.wal.curSegFileSize - magicNoLen = streamSize (l.tail.map Rec.frame) := by
    rw [h.fileSize, length_segmentBytes, Nat.add_sub_cancel_left]
  cases c with
  | record k =>
    have hdisk := crashed_record ha.toWrites room accepts k
    by_cases h0 : k = 0
    · subst h0
      have hload := ha.yields_zero hfl (e := crashedDir s content (.record 0)) (fun g => by
        rw [crashedDir, hdisk]
        split_ifs with hg
        · rw [hg, h.holds.get l.seg_current, List.take_zero, List.append_nil]
        · rfl) errno
      rw [hload.forall_mem_iff h.wf.first_pos (hentries ▸ hpair) hp hhead, ← hentries]
      exact ⟨fun hx => ⟨.inl rfl, hx.1⟩, fun hx => ⟨hx.2, fun _ hm => hm⟩⟩
    · have hk : k < (newRec s.wal content).frame.size := by
        rw [Rec.size_frame]
        exact hin
      obtain ⟨t, hhanded, ht⟩ := handedOver_torn conf.readBatchSize l.tail (newRec s.wal content)
        (Nat.pos_of_ne_zero h0) hk rfl rfl
      have hpre : t <+: l.tail := by
        rcases ht with ⟨-, rfl⟩ | ⟨-, j, -, rfl⟩
        · exact List.prefix_refl _
        · exact List.take_prefix _ _
      have hload := ha.yields_record room hj hf (Nat.pos_of_ne_zero h0) hk hdisk errno hpre hhanded
      have hsub : (l.closed.flatten ++ t).Pairwise (fun a b => a.id < b.id) :=
        (hentries ▸ hpair).sublist (List.Sublist.append_left hpre.sublist _)
      refine (hload.forall_mem_iff h.wf.first_pos hsub hp hhead).trans ?_
      rw [TearSpares, hS, and_comm]
      refine and_congr_left fun _ => ?_
      rcases ht with ⟨hle, rfl⟩ | ⟨hlt, j, hj', rfl⟩
      · rw [← hentries]
        exact ⟨fun _ => .inr hle, fun _ _ hm => hm⟩
      · constructor
        · exact fun hall => absurd hall (exists_lost hpair hj')
        · rintro (hz | hge)
          · exact absurd hz h0
          · omega
  | header k =>
    obtain ⟨d', hd, he⟩ := crashed_header ha.toWrites room accepts hin.2 k
    have hload := ha.yields_header room hj hf hin.1 hd he errno
    have hflat : (l.closed ++ [l.tail ++ [newRec s.wal content]]).flatten ++ [] =
        l.entries ++ [newRec s.wal content] := by
      rw [hentries]
      simp
    have hpush : (l.entries ++ [newRec s.wal content]).Pairwise (fun a b => a.id < b.id) := by
      rw [List.pairwise_append]
      refine ⟨hpair, by simp, fun a haa b hb => ?_⟩
      rw [List.mem_singleton.mp hb]
      exact hnew a haa
    refine (hload.forall_mem_iff h.wf.first_pos (hflat ▸ hpush) hp
      (exists_mem_first hp (newRec s.wal content))).trans ?_
    rw [hflat, List.map_append]
    exact ⟨fun hx => ⟨trivial, hx.1⟩, fun hx => ⟨hx.2, fun _ hm => List.mem_append_left _ hm⟩⟩

/-- What is left of the directory when a tear is in it, and nothing of it is removed. -/
theorem crashed_resumed (h : Ready judge s.wal s.dir l v) (hp : v ≠ 0 → l.entries ≠ []) (room : Room s.wal content)
    (hj : judge content = .accepted) (accepts : Accepts s.wal.conf content) {c : AppendCrash}
    (hin : c.Inside s content) (hc : c ≠ .record 0) (errno : ℕ) (conf : LogCleanWalConfig) (hv : v < l.first) :
    ∃ closed last, Resumed conf l.first closed last (reopen judge errno conf (crashedDir s content c) []) ∧
      (reopen judge errno conf (crashedDir s content c) []).value.result ≠ .returned .ok ∧
      l.first + closed.length ≤ l.current + 1 ∧
      last.length ≤ s.wal.curSegFileSize + (content.length + entryExtraFieldsSize) := by
  have ha := h.appending hp
  cases c with
  | record k =>
    have hk : k < (newRec s.wal content).frame.size := by
      rw [Rec.size_frame]
      exact hin
    have htorn := ha.tornDir_record room hj (Nat.pos_of_ne_zero fun h0 => hc (h0 ▸ rfl)) hk
      (crashed_record ha.toWrites room accepts k) errno
    refine ⟨_, _, reopen_resumed judge conf htorn.files htorn.bound h.pending_lt hv,
      htorn.not_ok h.wf.first_pos h.pending_lt (by omega), by simp [SegmentedLog.current], ?_⟩
    rw [List.length_append, List.length_take, h.fileSize]
    exact Nat.add_le_add_left (le_trans (min_le_left _ _) hin.le) _
  | header k =>
    obtain ⟨d', hd, he⟩ := crashed_header ha.toWrites room accepts hin.2 k
    have htorn := ha.tornDir_header room hj hin.1 hd he errno
    refine ⟨_, _, reopen_resumed judge conf htorn.files htorn.bound h.pending_lt hv,
      htorn.not_ok h.wf.first_pos h.pending_lt (by omega), by simp [SegmentedLog.current, Nat.add_assoc], ?_⟩
    rw [List.length_take, h.fileSize, length_segmentBytes]
    have := hin.1
    omega

/-- An object in order takes an entry, and the restart after it delivers it with the others. -/
theorem Ready.append_delivered (h : Ready judge w d l v) (hv : v < l.first) (room : Room w content)
    (hj : judge content = .accepted) (ha : Accepts w.conf content) (errno : ℕ)
    (hread : CanRead conf (content :: l.entries.map Rec.content)) :
    ∃ u : WalSystem, walStep judge ⟨w, d⟩ (.append (some content)) = some (u, .appended ⟨.OK, "", lastId l + 1⟩) ∧
      (Wal.reopen judge errno conf u.dir []).value.result = .returned .ok ∧
      delivered judge errno conf u.dir = l.entries.map Rec.entry ++ [⟨lastId l + 1, content⟩] := by
  obtain ⟨-, happ⟩ := (appendEntry_run h room hj).resolve_right fun hbad => hbad.1 ha
  have hentries : (append w.conf l (nextRec w l content)).entries = l.entries ++ [nextRec w l content] :=
    entries_append _ _ _
  have hfits : LogFits conf (append w.conf l (nextRec w l content)) := by
    refine logFits_of_canRead ⟨hread.1, fun b hb => hread.2 b ?_⟩
    rw [hentries, List.map_append, List.mem_append] at hb
    simpa [nextRec, or_comm] using hb
  obtain ⟨-, hagain⟩ := (happ.ready.reopen errno conf).resolve_right fun hbad => hbad.1 (hfits.loads v)
  rw [recover_of_lt (by rw [first_append]; exact hv)] at hagain
  refine ⟨⟨(appendEntry w (some content) d []).value.1, (appendEntry w (some content) d []).disk⟩, ?_,
    hagain.result, ?_⟩
  · simp only [walStep, happ.result]
  · rw [delivered, hagain.batches, hentries, List.map_append]
    rfl

/-- Without a tear every further entry is kept with the others. -/
theorem survives_zero (h : Ready judge s.wal s.dir l v) {errno : ℕ} {e : WalDir} (he : ∀ g, e.get g = s.dir.get g)
    (hread : CanRead conf (l.entries.map Rec.content)) (hv : v < l.first) : Survives judge errno conf s e := by
  have hheld := h.holds.heldEntries fun _ _ hs => h.wf.readable hs
  have hb : getUncompletedTruncSegmentsMaxId errno e = v := by
    rw [bound_congr errno (d := s.dir) (he _) (he _), h.bound]
  obtain ⟨-, hopen⟩ := (reopen_holds errno conf h.wf (fun i => by rw [he, h.holds i]) hb h.pending_lt).resolve_right
    fun hbad => hbad.1 ((logFits_of_canRead hread).loads v)
  rw [recover_of_lt hv] at hopen
  refine ⟨⟨_, hopen.result⟩, fun x hx => ?_, fun content hadmits ha hc => ?_⟩
  · rw [delivered, hopen.batches, ← hheld]
    exact hx
  obtain ⟨hlen, hidx, hseg, hfile⟩ := hadmits.2
  rw [h.counter] at hidx
  rw [h.current] at hseg
  rw [h.fileSize] at hfile
  obtain ⟨u, hstep, hok, hall⟩ := hopen.ready.append_delivered h.wf.first_pos
    ⟨hlen, hopen.ready.counter ▸ hidx, hopen.ready.current ▸ hseg, hopen.ready.fileSize ▸ hfile⟩ hadmits.1
    (hopen.conf_eq.symm ▸ ha) errno (show CanRead conf _ from ⟨hread.1, fun b hb => by
      rcases List.mem_cons.mp hb with rfl | hb
      · exact hc.2 _ List.mem_cons_self
      · exact hread.2 b hb⟩)
  refine ⟨u, _, hstep, rfl, hok, fun x hx => ?_⟩
  rw [hall, ← hheld]
  exact hx

/-- After any history, a crash inside `AppendEntry`: the acknowledged entries are delivered exactly when no read
boundary is missing between those of the file and the tear, and no number pending in the info file makes `Init`
remove a segment. Later entries are kept too exactly when, besides, nothing of the record was written. -/
theorem append_crash_survives_iff {errno errno' : ℕ} {conf conf' : LogCleanWalConfig}
    {es : List WalEvent} {s : WalSystem} {rs : List WalReply} {content : Bytes} {c : AppendCrash}
    (hP : AlongHistory judge errno conf (Admits judge) es)
    (hrun : walHistory judge errno conf es = some (s, rs))
    (hadmits : Admits judge s (.append (some content))) (accepts : Accepts s.wal.conf content)
    (hin : c.Inside s content)
    (hread : CanRead conf' (content :: (heldEntries s.dir).map WalEntry.content))
    (haccepts : Accepts conf' content)
    (hroom : s.wal.curSegFileSize + 2 * (content.length + entryExtraFieldsSize) < 2 ^ 32) :
    (Survives judge errno' conf' s (crashedDir s content c) ↔
      c = .record 0 ∧ ∀ i ∈ listSegmentsAsc s.dir, getUncompletedTruncSegmentsMaxId errno' s.dir < i) ∧
    ((∀ e ∈ heldEntries s.dir, e ∈ delivered judge errno' conf' (crashedDir s content c)) ↔
      TearSpares conf' (s.wal.curSegFileSize - magicNoLen) c ∧
        ∀ i ∈ listSegmentsAsc s.dir, getUncompletedTruncSegmentsMaxId errno' s.dir < i) := by
  obtain ⟨l, v, h, hp⟩ := ready_of_history hP hrun
  have hheld := h.holds.heldEntries fun _ _ hs => h.wf.readable hs
  have hcontents : (heldEntries s.dir).map WalEntry.content = l.entries.map Rec.content := by
    rw [hheld, List.map_map]
    rfl
  rw [hcontents] at hread
  rw [h.bound, forall_lt_first_iff h.holds]
  have hdelivered := h.delivered_iff hp hadmits.2 hadmits.1 accepts hin errno' hread
  rw [← hheld] at hdelivered
  refine ⟨⟨fun hs => ?_, ?_⟩, hdelivered⟩
  · have hv := (hdelivered.mp hs.delivered).2
    refine ⟨?_, hv⟩
    by_contra hc
    obtain ⟨closed, last, hres, hbad, hlen, hlast⟩ :=
      crashed_resumed h hp hadmits.2 hadmits.1 accepts hin hc errno' conf' hv
    obtain ⟨u, r, hstep, -, hok, -⟩ := hs.accepts content hadmits haccepts
      ⟨hread.1, fun b hb => hread.2 b (by simpa using .inl (List.mem_singleton.mp hb))⟩
    have hcur := hadmits.2.segmentId
    rw [h.current] at hcur
    refine hres.not_accepts hbad h.wf.first_pos (lt_of_le_of_lt (Nat.add_le_add_right hlen 1) ?_) haccepts ?_ hstep
      errno' hok
    · simp only [ulongMax] at hcur
      omega
    · omega
  · rintro ⟨rfl, hv⟩
    refine survives_zero h (fun g => ?_) ⟨hread.1, fun b hb => hread.2 b (List.mem_cons_of_mem _ hb)⟩ hv
    rw [crashedDir, crashed_record h.toWrites hadmits.2 accepts 0]
    split_ifs with hg
    · rw [hg, h.holds.get l.seg_current, List.take_zero, List.append_nil]
    · rfl

end

end

instance decidableAccepts (conf : LogCleanWalConfig) (content : Bytes) : Decidable (Accepts conf content) :=
  inferInstanceAs (Decidable (_ ∧ _))

/-- Nothing of the second record is in the file. -/
theorem append_crash_survives_small : ∃ s rs,
    walHistory acceptAll 0 smallConf [.append (some [7])] = some (s, rs) ∧
      Survives acceptAll 0 smallConf s (crashedDir s [8] (.record 0)) ∧
      ∃ u r, walStep acceptAll ⟨(reopen acceptAll 0 smallConf (crashedDir s [8] (.record 0)) []).value.wal,
          (reopen acceptAll 0 smallConf (crashedDir s [8] (.record 0)) []).disk⟩ (.append (some [9])) =
            some (u, .appended r) ∧ r.rc = .OK ∧
        ∀ e ∈ [⟨2, [7]⟩, ⟨r.entryId, [9]⟩], e ∈ delivered acceptAll 0 smallConf u.dir := by
  have hsome : ∃ o ∈ walHistory acceptAll 0 smallConf [.append (some [7])],
      (∀ b ∈ [8, 9], Admits acceptAll o.1 (.append (some [b]))) ∧ Accepts o.1.wal.conf [8] ∧
        (AppendCrash.record 0).Inside o.1 [8] ∧ heldEntries o.1.dir = [⟨2, [7]⟩] ∧
        o.1.wal.curSegFileSize + 2 * 18 < 2 ^ 32 ∧
        ∀ i ∈ listSegmentsAsc o.1.dir, getUncompletedTruncSegmentsMaxId 0 o.1.dir < i := by
    decide +kernel
  obtain ⟨⟨s, rs⟩, hrun, hadmits, haccepts, hin, hheld, hroom, hpending⟩ := hsome
  have hsurvives : Survives acceptAll 0 smallConf s (crashedDir s [8] (.record 0)) :=
    (append_crash_survives_iff (by decide +kernel) hrun (hadmits 8 (by simp)) haccepts hin
      (by rw [hheld]; decide) (by decide) hroom).1.mpr ⟨rfl, hpending⟩
  obtain ⟨u, r, hstep, hrc, -, hall⟩ := hsurvives.accepts [9] (hadmits 9 (by simp)) (by decide) (by decide)
  rw [hheld] at hall
  exact ⟨s, rs, hrun, hsurvives, u, r, hstep, hrc, hall⟩

/-- Five bytes of the second record are in the file. The first entry, which was acknowledged, is not delivered,
and neither is one that is appended then. -/
theorem append_crash_loses_acknowledged :
    ∃ o ∈ walHistory acceptAll 0 smallConf [.append (some [7])], heldEntries o.1.dir = [⟨2, [7]⟩] ∧
      (reopen acceptAll 0 smallConf (crashedDir o.1 [8] (.record 5)) []).value.result =
        .returned ⟨.FileCorrupt, fileCorruptError⟩ ∧
      delivered acceptAll 0 smallConf (crashedDir o.1 [8] (.record 5)) = [] ∧
      ∃ p ∈ walStep acceptAll ⟨(reopen acceptAll 0 smallConf (crashedDir o.1 [8] (.record 5)) []).value.wal,
          (reopen acceptAll 0 smallConf (crashedDir o.1 [8] (.record 5)) []).disk⟩ (.append (some [9])),
        p.2 = .appended ⟨.OK, "", 3⟩ ∧ delivered acceptAll 0 smallConf p.1.dir = [] := by
  decide +kernel

end FlyingKV.Wal
