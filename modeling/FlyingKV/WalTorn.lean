import FlyingKV.WalIndex

set_option autoImplicit false

/-!
# Restarting on a torn last file

A process that dies while it writes leaves a last segment file that ends inside a
record or inside the file header. `Load` reports such a file as corrupt; what it
has delivered by then depends on where the reads of the file end.
-/
namespace FlyingKV.Wal
open ByteOrder CommonUtils DecimalText DiskProgram FramedStream

section
variable {judge : Judge}

/-! ## What loading leaves of the object -/

/-- Loading changes neither the configuration nor the open file. -/
structure SameFile (w w' : LogCleanWal) : Prop where
  conf : w'.conf = w.conf
  fd : w'.currentSegFd = w.currentSegFd
  segment : w'.currentSegmentId = w.currentSegmentId
  inited : w'.bInited = w.bInited

theorem SameFile.trans {w w' w'' : LogCleanWal} (h : SameFile w w') (h' : SameFile w' w'') :
    SameFile w w'' :=
  ⟨h'.conf.trans h.conf, h'.fd.trans h.fd, h'.segment.trans h.segment, h'.inited.trans h.inited⟩

theorem sameFile_foldl (i : ℕ) (fs : List Frame) (w : LogCleanWal) :
    SameFile w (fs.foldl (noteEntry i) w) ∧ (fs.foldl (noteEntry i) w).curSegFileSize = w.curSegFileSize := by
  induction fs generalizing w with
  | nil => exact ⟨⟨rfl, rfl, rfl, rfl⟩, rfl⟩
  | cons f fs ih =>
    have hnote : SameFile w (noteEntry i w f) := ⟨rfl, rfl, rfl, rfl⟩
    obtain ⟨hsame, hsize⟩ := ih (noteEntry i w f)
    exact ⟨hnote.trans hsame, hsize⟩

variable (judge) in
theorem loadSegment_sameFile (w : LogCleanWal) (i : ℕ) :
    Returns (loadSegment judge w i)
      (fun r => SameFile w r.wal ∧ r.wal.curSegFileSize = w.curSegFileSize) := by
  have hsame : SameFile w w ∧ w.curSegFileSize = w.curSegFileSize := ⟨⟨rfl, rfl, rfl, rfl⟩, rfl⟩
  refine (returns_true _).bind fun r _ => ?_
  cases r with
  | error e => exact returns_pure hsame
  | ok bs =>
    refine (returns_true _).bind fun e _ => ?_
    cases e with
    | some e => exact returns_pure hsame
    | none =>
      by_cases hlen : bs.length < magicNoLen
      · simp only [if_pos hlen]
        exact returns_pure hsame
      simp only [if_neg hlen]
      refine (returns_true _).bind fun e _ => ?_
      cases e with
      | some e => exact returns_pure hsame
      | none =>
        by_cases hmagic : readUInt32 bs ≠ magicNo
        · simp only [if_pos hmagic]
          exact returns_pure hsame
        · simp only [if_neg hmagic]
          exact fun d fs => sameFile_foldl i _ w

variable (judge) in
/-- The size of the current file becomes known only when all files have been loaded. -/
theorem loadSegments_sameFile (ids : List ℕ) (w : LogCleanWal) :
    Returns (loadSegments judge w ids) (fun r => SameFile w r.wal ∧
      (r.result ≠ .returned .ok → r.wal.curSegFileSize = w.curSegFileSize)) := by
  induction ids generalizing w with
  | nil => exact returns_pure ⟨⟨rfl, rfl, rfl, rfl⟩, fun _ => rfl⟩
  | cons i ids ih =>
    refine (loadSegment_sameFile judge w i).bind fun s hs => ?_
    split_ifs with hres hlast
    · exact returns_pure ⟨hs.1, fun _ => hs.2⟩
    · subst hlast
      exact fun _ _ => ⟨hs.1.trans ⟨rfl, rfl, rfl, rfl⟩, fun hno => absurd rfl hno⟩
    · exact (ih _).bind fun r hr => returns_pure ⟨hs.1.trans hr.1, fun hno => (hr.2 hno).trans hs.2⟩

variable (judge) in
theorem load_sameFile {w : LogCleanWal} (hw : w.bInited = true) :
    Returns (load judge w) (fun r => SameFile w r.wal ∧ r.wal.bLoaded = true ∧
      (r.result ≠ .returned .ok → r.wal.curSegFileSize = w.curSegFileSize)) := by
  unfold load
  rw [if_neg (by simp [hw])]
  cases w.vInitSegments with
  | nil => exact returns_pure ⟨⟨rfl, rfl, rfl, rfl⟩, rfl, fun _ => rfl⟩
  | cons first rest =>
    refine (loadSegments_sameFile judge _ _).bind fun r hr => ?_
    exact returns_pure ⟨⟨hr.1.conf, hr.1.fd, hr.1.segment, hr.1.inited⟩, rfl, hr.2⟩

variable (judge) in
theorem loadSegments_disk (d : WalDir) (ids : List ℕ) (w : LogCleanWal) :
    (loadSegments judge w ids d []).disk = d ∧ (loadSegments judge w ids d []).faults = [] := by
  induction ids generalizing w with
  | nil => exact ⟨rfl, rfl⟩
  | cons i ids ih =>
    obtain ⟨hdisk, hfaults⟩ := loadSegment_faults judge w i d
    simp only [loadSegments, bind_run]
    split_ifs
    · exact ⟨hdisk, hfaults⟩
    · simp only [bind_run, hdisk, hfaults, pure_run]
      exact ih _
    · simp only [bind_run, hdisk, hfaults, pure_run]
      exact ih _

/-! ## One torn file -/

theorem loadSegment_short {w : LogCleanWal} {d : WalDir} {i : ℕ} {bs : Bytes}
    (hd : d.get (.segment i) = some bs) (hlen : bs.length < magicNoLen) :
    loadSegment judge w i d [] = ⟨[], d, [], w, [], .returned ⟨.FileCorrupt, fileCorruptError⟩, 0⟩ := by
  rw [loadSegment_eq, hd]
  simp only [hlen, true_or, if_true]

/-- The outcome of loading the first `n` bytes after the header of a segment. -/
theorem loadSegment_take {w : LogCleanWal} {d : WalDir} {i n : ℕ} {s : List Rec}
    (hd : d.get (.segment i) = some ((segmentBytes s).take (magicNoLen + n)))
    (hr : Readable judge s) (hn : n ≤ streamSize (s.map Rec.frame)) :
    (FitsUpTo MemPool.slotSize w.conf.readBatchSize n 0 (s.map Rec.frame) ∧
        (loadSegment judge w i d []).value.result = .returned
          (if leftoverAt n (s.map Rec.frame) = 0 then .ok else ⟨.FileCorrupt, fileCorruptError⟩) ∧
        (loadSegment judge w i d []).value.batches.flatten =
          (handedOver w.conf.readBatchSize n 0 (s.map Rec.frame)).map WalEntry.ofFrame) ∨
      (¬ FitsUpTo MemPool.slotSize w.conf.readBatchSize n 0 (s.map Rec.frame) ∧
        (loadSegment judge w i d []).value.result = .crashed .badAlloc) := by
  have hb : 0 < w.conf.readBatchSize := lt_of_lt_of_le (by decide) w.conf.batchSize_ge
  have hbytes : (segmentBytes s).take (magicNoLen + n) =
      writeUInt32 magicNo ++ (streamBytes magicNoLen (s.map Rec.frame)).take n := by
    rw [segmentBytes, show magicNoLen = (writeUInt32 magicNo).length by simp [magicNoLen],
      List.take_length_add_append]
  have hdrop : ((segmentBytes s).take (magicNoLen + n)).drop magicNoLen =
      (streamBytes magicNoLen (s.map Rec.frame)).take n := by
    rw [hbytes]
    exact List.drop_left' (by simp [magicNoLen])
  have hlen : ¬ ((segmentBytes s).take (magicNoLen + n)).length < magicNoLen := by
    rw [hbytes, List.length_append, length_writeBE, magicNoLen]
    omega
  have hmagic : readUInt32 ((segmentBytes s).take (magicNoLen + n)) = magicNo := by
    rw [hbytes]
    exact readUInt32_append (by decide) _
  have hzero : leftoverAt ([] : Bytes).length (s.map Rec.frame) = ([] : Bytes).length := by
    have := cut_size 0 (s.map Rec.frame)
    simp only [List.length_nil]
    omega
  have hload := loadLoop_take MemPool.slotSize hb
    (((streamBytes magicNoLen (s.map Rec.frame)).take n).length + 1) magicNoLen (s.map Rec.frame)
    hr.sound n hn [] _ (List.nil_append _) hzero (Nat.lt_succ_self _)
  rw [show magicNoLen % 2 ^ 32 = magicNoLen from rfl, List.length_nil] at hload
  rw [loadSegment_eq, hd]
  simp only [hlen, hmagic, ne_eq, not_true_eq_false, or_self, if_false, loadSegmentContent, hdrop]
  rcases hload with ⟨hf, hstop, -, hbatches, -⟩ | ⟨hf, hstop⟩
  · refine .inl ⟨hf, ?_, ?_⟩
    · rw [hstop]
      split_ifs <;> rfl
    · rw [← List.map_flatten, hbatches]
  · rw [hstop]
    exact .inr ⟨hf, rfl⟩

theorem segmentBytes_torn (s : List Rec) (r : Rec) (k : ℕ) :
    segmentBytes s ++ (r.frame.bytes (segmentBytes s).length).take k =
      (segmentBytes (s ++ [r])).take (magicNoLen + (streamSize (s.map Rec.frame) + k)) := by
  rw [segmentBytes_append, walRecord_eq, ← Nat.add_assoc, ← length_segmentBytes,
    List.take_length_add_append]

theorem leftoverAt_torn (s : List Rec) (r : Rec) {k : ℕ} (hk : k < r.frame.size) :
    leftoverAt (streamSize (s.map Rec.frame) + k) ((s ++ [r]).map Rec.frame) = k := by
  rw [List.map_append, leftoverAt, cut_append_right, List.map_singleton, cut, if_neg (by omega)]

theorem loadSegment_torn_ne_ok {w : LogCleanWal} {d : WalDir} {i k : ℕ} {s : List Rec} {r : Rec}
    (hr : Readable judge (s ++ [r])) (hpos : 0 < k) (hk : k < r.frame.size)
    (hd : d.get (.segment i) = some (segmentBytes s ++ (r.frame.bytes (segmentBytes s).length).take k)) :
    (loadSegment judge w i d []).value.result ≠ .returned .ok := by
  rw [segmentBytes_torn] at hd
  have hn : streamSize (s.map Rec.frame) + k ≤ streamSize ((s ++ [r]).map Rec.frame) := by
    simp only [List.map_append, streamSize_append, List.map_singleton, streamSize_cons, streamSize_nil]
    omega
  rcases loadSegment_take (w := w) hd hr hn with ⟨-, hres, -⟩ | ⟨-, hres⟩
  · rw [hres, leftoverAt_torn s r hk, if_neg (by omega)]
    simp [WalResult.ok]
  · rw [hres]
    simp

/-! ## The files before it -/

/-- Whole segments followed by a file that is reported as corrupt. -/
theorem loadSegments_last (d : WalDir) {res : WalResult} {es : List WalEntry} (hres : res ≠ .ok)
    (segs : List (List Rec)) (n : ℕ) (w : LogCleanWal)
    (hd : ∀ k s, segs[k]? = some s → d.get (.segment (n + k)) = some (segmentBytes s))
    (hr : ∀ s ∈ segs, Readable judge s) (hfit : ∀ s ∈ segs, SegmentFits w.conf s)
    (hlast : ∀ w' : LogCleanWal, w'.conf = w.conf →
      (loadSegment judge w' (n + segs.length) d []).value.result = .returned res ∧
        (loadSegment judge w' (n + segs.length) d []).value.batches.flatten = es) :
    (loadSegments judge w (List.range' n (segs.length + 1)) d []).value.result = .returned res ∧
      (loadSegments judge w (List.range' n (segs.length + 1)) d []).value.batches.flatten =
        segs.flatten.map Rec.entry ++ es := by
  induction segs generalizing n w with
  | nil =>
    obtain ⟨h₁, h₂⟩ := hlast w rfl
    have hne : (loadSegment judge w n d []).value.result ≠ .returned .ok := by
      rw [show (loadSegment judge w n d []).value.result = .returned res from h₁]
      simpa using hres
    rw [List.length_nil, List.range'_succ, (loadSegments_stop _ hne).2]
    exact ⟨h₁, by simpa using h₂⟩
  | cons s segs ih =>
    obtain ⟨w₁, bs, hnoted, -, hbatches, -, hvalue⟩ := loadSegments_cons (w := w) (hd 0 s rfl) (hr s (by simp))
      (hfit s (by simp)) (List.range' (n + 1) (segs.length + 1))
    have hconf : w₁.conf = w.conf := by rw [hnoted.same]
    have hshift : ∀ k, n + 1 + k = n + (k + 1) := fun k => by omega
    obtain ⟨h₁, h₂⟩ := ih (n + 1) w₁
      (fun k t hk => by rw [hshift]; exact hd (k + 1) t (by simpa using hk))
      (fun t ht => hr t (by simp [ht])) (fun t ht => by rw [hconf]; exact hfit t (by simp [ht]))
      (fun w' hw' => by rw [hshift]; exact hlast w' (hw'.trans hconf))
    rw [List.length_cons, List.range'_succ, ← Nat.add_zero n, hvalue]
    exact ⟨h₁, by simp [hbatches, h₂]⟩

variable (judge) in
theorem loadSegments_ok_mem (d : WalDir) (ids : List ℕ) (w : LogCleanWal)
    (hok : (loadSegments judge w ids d []).value.result = .returned .ok) {i : ℕ} (hi : i ∈ ids) :
    ∃ w' : LogCleanWal, w'.conf = w.conf ∧
      (loadSegment judge w' i d []).value.result = .returned .ok := by
  induction ids generalizing w with
  | nil => simp at hi
  | cons j ids ih =>
    simp only [loadSegments, bind_run] at hok
    by_cases hone : (loadSegment judge w j d []).value.result = .returned .ok
    · rcases List.mem_cons.mp hi with rfl | hi
      · exact ⟨w, rfl, hone⟩
      · obtain ⟨hdisk, hfaults⟩ := loadSegment_faults judge w j d
        have hsame := (loadSegment_sameFile judge w j d []).1
        simp only [hone, ne_eq, not_true_eq_false, if_false, bind_run, pure_run, hdisk, hfaults] at hok
        obtain ⟨w', hw', hres⟩ := ih _ hok hi
        refine ⟨w', ?_, hres⟩
        rw [hw']
        split_ifs <;> exact hsame.conf
    · simp only [ne_eq, hone, not_false_eq_true, if_true, pure_run] at hok

/-! ## The whole restart -/

variable (judge) in
theorem load_openedFiles (conf : LogCleanWalConfig) (first : ℕ) (closed : List Bytes) (last : Bytes)
    (d : WalDir) :
    (load judge (openedFiles conf first closed last) d []).value.result =
        (loadSegments judge (openedFiles conf first closed last)
          (List.range' first (closed.length + 1)) d []).value.result ∧
      (load judge (openedFiles conf first closed last) d []).value.batches =
        (loadSegments judge (openedFiles conf first closed last)
          (List.range' first (closed.length + 1)) d []).value.batches :=
  ⟨rfl, rfl⟩

section Files
variable {d e : WalDir} {first : ℕ} {closed : List Bytes} {last bs : Bytes}

theorem HoldsFiles.replace_last (h : HoldsFiles d first closed last)
    (he : ∀ i, e.get (.segment i) =
      if i = first + closed.length then some bs else d.get (.segment i)) :
    HoldsFiles e first closed bs := by
  intro i
  rw [he, h i, SegmentedLog.getElem?_from_concat, SegmentedLog.getElem?_from_concat]
  split_ifs <;> rfl

theorem HoldsFiles.concat (h : HoldsFiles d first closed last)
    (he : ∀ i, e.get (.segment i) =
      if i = first + closed.length + 1 then some bs else d.get (.segment i)) :
    HoldsFiles e first (closed ++ [last]) bs := by
  intro i
  rw [he, h i, SegmentedLog.getElem?_from_concat (closed ++ [last]), List.length_append, List.length_singleton,
    Nat.add_assoc]

end Files

section Files
variable {errno : ℕ} {conf : LogCleanWalConfig} {d : WalDir} {first b : ℕ}

/-- A restart that leaves the last file, which is then reported as corrupt. -/
theorem reopen_torn {segs : List (List Rec)} {last : Bytes}
    (h : HoldsFiles d first (segs.map segmentBytes) last) (hfirst : 1 ≤ first)
    (hb : getUncompletedTruncSegmentsMaxId errno d = b) (hlt : b < ulongMax)
    (hkept : b < first + segs.length) (hr : ∀ s ∈ segs, Readable judge s)
    (hfit : ∀ s ∈ segs, SegmentFits conf s) {res : WalResult} {es : List WalEntry} (hres : res ≠ .ok)
    (hlast : ∀ (w : LogCleanWal) (d' : WalDir) (i : ℕ), w.conf = conf →
      d'.get (.segment i) = some last →
        (loadSegment judge w i d' []).value.result = .returned res ∧
          (loadSegment judge w i d' []).value.batches.flatten = es) :
    (reopen judge errno conf d []).value.result = .returned res ∧
      (reopen judge errno conf d []).value.batches.flatten =
        (segs.drop (b + 1 - first)).flatten.map Rec.entry ++ es := by
  have hi := (init_files errno conf h hfirst hb hlt).1 (by rwa [List.length_map])
  rw [← List.map_drop] at hi
  generalize hsegs : segs.drop (b + 1 - first) = kept at hi
  have hsub : ∀ s ∈ kept, s ∈ segs := fun s hs => List.mem_of_mem_drop (hsegs ▸ hs)
  obtain ⟨-, hv⟩ := reopen_of_init judge hi.value hi.faults
  obtain ⟨hres', hbatches⟩ := load_openedFiles judge conf (max first (b + 1))
    (kept.map segmentBytes) last (init errno (create conf) d []).disk
  rw [hv, hres', hbatches, List.length_map]
  refine loadSegments_last _ hres kept _ _ (fun k s hk => ?_) (fun s hs => hr s (hsub s hs))
    (fun s hs => hfit s (hsub s hs)) fun w' hw' => ?_
  · rw [hi.files, if_neg (by omega), Nat.add_sub_cancel_left,
      List.getElem?_append_left (by simpa using (List.getElem?_eq_some_iff.mp hk).1),
      List.getElem?_map, hk, Option.map_some]
  · have hget := hi.files.get_last
    rw [List.length_map] at hget
    exact hlast w' _ _ hw' hget

/-- A restart that leaves the last file ends well only if every file that it leaves can be loaded. -/
theorem reopen_ok_file {closed : List Bytes} {last bs : Bytes} (h : HoldsFiles d first closed last)
    (hfirst : 1 ≤ first) (hb : getUncompletedTruncSegmentsMaxId errno d = b) (hlt : b < ulongMax)
    (hkept : b < first + closed.length) (hbs : bs ∈ closed.drop (b + 1 - first) ++ [last])
    (hok : (reopen judge errno conf d []).value.result = .returned .ok) :
    ∃ (w : LogCleanWal) (d' : WalDir) (i : ℕ), w.conf = conf ∧ d'.get (.segment i) = some bs ∧
      (loadSegment judge w i d' []).value.result = .returned .ok := by
  have hi := (init_files errno conf h hfirst hb hlt).1 hkept
  obtain ⟨-, hv⟩ := reopen_of_init judge hi.value hi.faults
  rw [hv, (load_openedFiles judge conf _ _ last _).1] at hok
  obtain ⟨j, hj⟩ := List.getElem?_of_mem hbs
  have hlen := (List.getElem?_eq_some_iff.mp hj).1
  rw [List.length_append, List.length_singleton] at hlen
  obtain ⟨w, hw, hres⟩ := loadSegments_ok_mem judge _ _ _ hok (i := max first (b + 1) + j)
    (List.mem_range'_1.mpr ⟨by omega, by omega⟩)
  refine ⟨w, _, _, hw, ?_, hres⟩
  rw [hi.files, if_neg (by omega), Nat.add_sub_cancel_left, hj]

variable (judge conf) in
/-- Where the number in the info file covers all files, a restart starts over. -/
theorem reopen_cleared {closed : List Bytes} {last : Bytes} (h : HoldsFiles d first closed last)
    (hfirst : 1 ≤ first) (hb : getUncompletedTruncSegmentsMaxId errno d = b) (hlt : b < ulongMax)
    (hgone : first + closed.length ≤ b) :
    Reopened judge conf (SegmentedLog.start 1) (reopen judge errno conf d []) := by
  have hi := (init_files errno conf h hfirst hb hlt).2 hgone
  obtain ⟨hd, hv⟩ := reopen_of_init judge hi.value hi.faults
  rw [load_created] at hd hv
  exact ⟨by rw [hv], by rw [hv]; rfl,
    by rw [hv, hd]; exact ready_created judge conf hi.files hi.settled, by rw [hv]; rfl, by rw [hv]; rfl⟩

/-- A restart that removes nothing: whatever the files hold, the last one is open at its end. If it
does not end well, the size of that file is not known. -/
structure Resumed (conf : LogCleanWalConfig) (first : ℕ) (closed : List Bytes) (last : Bytes)
    (o : Outcome WalDir WalLoad) : Prop where
  files : HoldsFiles o.disk first closed last
  settled : Settled o.disk
  conf : o.value.wal.conf = conf
  fd : o.value.wal.currentSegFd = some ⟨.segment (first + closed.length), last.length⟩
  segment : o.value.wal.currentSegmentId = first + closed.length
  inited : o.value.wal.bInited = true
  loaded : o.value.wal.bLoaded = true
  size : o.value.result ≠ .returned .ok → o.value.wal.curSegFileSize = 0

variable (judge conf) in
theorem reopen_resumed {closed : List Bytes} {last : Bytes} (h : HoldsFiles d first closed last)
    (hb : getUncompletedTruncSegmentsMaxId errno d = b) (hlt : b < ulongMax) (hkept : b < first) :
    Resumed conf first closed last (reopen judge errno conf d []) := by
  have hi := (init_files errno conf h (by omega) hb hlt).1 (by omega)
  rw [max_eq_left (by omega), show b + 1 - first = 0 by omega, List.drop_zero] at hi
  obtain ⟨hd, hv⟩ := reopen_of_init judge hi.value hi.faults
  obtain ⟨hsame, hloaded, hsize⟩ := load_sameFile judge (w := openedFiles conf first closed last) rfl
    (init errno (create conf) d []).disk []
  have hdisk : (reopen judge errno conf d []).disk = (init errno (create conf) d []).disk :=
    hd.trans (loadSegments_disk judge _ _ _).1
  rw [← hv] at hsame hloaded hsize
  exact ⟨hdisk ▸ hi.files, hdisk ▸ hi.settled, hsame.conf, hsame.fd, hsame.segment, hsame.inited, hloaded, hsize⟩

end Files

end

end FlyingKV.Wal
