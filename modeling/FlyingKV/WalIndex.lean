import FlyingKV.WalIds

set_option autoImplicit false

/-!
# The index of ids

The object finds the segment of an id in its index and keeps the number and the
size of the file it writes. After every history of appends, truncations and clean
restarts these are what a reader of the segment files would find in them.
-/
namespace FlyingKV.Wal
open ByteOrder CommonUtils DecimalText FileDir DiskProgram FramedStream EventRun

section
variable {judge : Judge}
variable {w : LogCleanWal} {i v : ℕ} {d : WalDir} {s : WalSystem} {l : Log}

/-! ## A load that ends well -/

theorem stopResult_ne_ok (why : Stop) : stopResult why ≠ .returned .ok := by
  cases why <;> simp [stopResult, WalResult.ok, fileSystemError]

theorem loadSegmentContent_acceptAll {bs : Bytes}
    (hok : (loadSegmentContent judge w bs i d []).value.result = .returned .ok) :
    loadSegmentContent acceptAll w bs i d [] = loadSegmentContent judge w bs i d [] := by
  have hstop : (loadLoop entryHeaderLen judge MemPool.slotSize w.conf.readBatchSize
      ((bs.drop magicNoLen).length + 1) magicNoLen [] (bs.drop magicNoLen) []).stop = none := by
    simp only [loadSegmentContent] at hok
    split at hok
    · assumption
    · exact absurd hok (stopResult_ne_ok _)
  simp only [loadSegmentContent, loadLoop_acceptAll _ _ _ _ _ _ _ hstop]

theorem loadSegment_acceptAll (hok : (loadSegment judge w i d []).value.result = .returned .ok) :
    loadSegment acceptAll w i d [] = loadSegment judge w i d [] := by
  rw [loadSegment_eq] at hok
  rw [loadSegment_eq, loadSegment_eq]
  cases hget : d.get (.segment i) with
  | none => rfl
  | some bs =>
    simp only [hget] at hok ⊢
    split_ifs at hok ⊢ with hbad
    · rfl
    · exact loadSegmentContent_acceptAll hok

theorem loadSegments_acceptAll {ids : List ℕ} (hok : (loadSegments judge w ids d []).value.result = .returned .ok) :
    loadSegments acceptAll w ids d [] = loadSegments judge w ids d [] := by
  induction ids generalizing w with
  | nil => rfl
  | cons i ids ih =>
    simp only [loadSegments, bind_run] at hok ⊢
    by_cases hone : (loadSegment judge w i d []).value.result = .returned .ok
    · obtain ⟨hdisk, hfaults⟩ := loadSegment_faults judge w i d
      rw [loadSegment_acceptAll hone]
      simp only [hone, ne_eq, not_true_eq_false, if_false, bind_run, pure_run, hdisk, hfaults] at hok ⊢
      rw [ih hok]
    · simp only [ne_eq, hone, not_false_eq_true, if_true, pure_run] at hok

theorem load_acceptAll (hok : (load judge w d []).value.result = .returned .ok) :
    load acceptAll w d [] = load judge w d [] := by
  unfold load at hok ⊢
  split_ifs at hok ⊢
  · rfl
  · cases hsegs : w.vInitSegments with
    | nil => rfl
    | cons first rest =>
      simp only [hsegs, bind_run, pure_run] at hok ⊢
      rw [loadSegments_acceptAll hok]

/-! ## The last id, read backwards -/

/-- Records as `AppendEntry` writes them into one file, below 4 GiB together. -/
structure Written (s : List Rec) : Prop where
  ids : ∀ r ∈ s, r.id < 2 ^ 64
  size_lt : (segmentBytes s).length < 2 ^ 32

theorem Written.delivers {s : List Rec} (hs : Written s) (hd : d.get (.segment i) = some (segmentBytes s))
    (hok : (loadSegment judge w i d []).value.result = .returned .ok) :
    (loadSegment judge w i d []).value.batches.flatten = s.map Rec.entry := by
  have hall := loadSegment_acceptAll hok
  rw [← hall, loadSegment_run hd]
  rw [← hall, loadSegment_run hd] at hok
  simp only [loadSegmentContent] at hok ⊢
  rcases loadLoop_segment w.conf (sound_of_size_lt hs.size_lt fun _ _ => acceptAll_apply _) with
    ⟨-, -, -, hbatches, -⟩ | ⟨-, hstop⟩
  · rw [← List.map_flatten, hbatches, entries_of_ids hs.ids]
  · simp only [hstop] at hok
    exact absurd hok (stopResult_ne_ok _)

theorem Written.loads {s : List Rec} (hs : Written s) (hd : d.get (.segment i) = some (segmentBytes s))
    (hacc : ∀ r ∈ s, judge r.content = .accepted) (hfits : SegmentFits w.conf s) :
    (loadSegment judge w i d []).value.result = .returned .ok := by
  rw [loadSegment_run hd]
  simp only [loadSegmentContent]
  rcases loadLoop_segment w.conf (sound_of_size_lt hs.size_lt hacc) with ⟨-, hstop, -⟩ | ⟨hno, -⟩
  · rw [hstop]
  · exact absurd hfits hno

theorem loadSegmentMaxEntryId_run {bs : Bytes} (hd : d.get (.segment i) = some bs) :
    (loadSegmentMaxEntryId i d []).value = segmentMaxEntryId bs := by
  simp only [loadSegmentMaxEntryId, bind_run, query_run, readSegment, hd]
  rfl

/-- The look at the end of a segment file finds the id of the last entry that reading the whole
file hands over; in a file without entries it finds none. -/
theorem loadSegmentMaxEntryId_agrees {s : List Rec} (hs : Written s) {d : WalDir} {i : ℕ}
    (hd : d.get (.segment i) = some (segmentBytes s)) :
    (s ≠ [] → ∃ id, (loadSegmentMaxEntryId i d []).value = .ok id ∧
      (∀ (judge : Judge) (w : LogCleanWal), (loadSegment judge w i d []).value.result = .returned .ok →
        (loadSegment judge w i d []).value.batches.flatten.getLast?.map WalEntry.id = some id) ∧
      ∀ (judge : Judge) (w : LogCleanWal), (∀ r ∈ s, judge r.content = .accepted) → SegmentFits w.conf s →
        (loadSegment judge w i d []).value.result = .returned .ok) ∧
    (s = [] → (loadSegmentMaxEntryId i d []).value = .error ⟨.FileCorrupt, fileCorruptError⟩) := by
  rw [loadSegmentMaxEntryId_run hd]
  constructor
  · intro hne
    obtain ⟨rs, r, rfl⟩ := List.eq_nil_or_concat s |>.resolve_left hne
    rw [List.concat_eq_append] at hs hd ⊢
    refine ⟨r.id, segmentMaxEntryId_append rs (hs.ids r (by simp)) hs.size_lt, fun judge w hok => ?_,
      fun judge w hacc hfits => hs.loads hd hacc hfits⟩
    rw [hs.delivers hd hok, List.map_append, List.map_singleton, List.getLast?_concat]
    rfl
  · rintro rfl
    decide +kernel

/-- A segment file with the entries 2 and 3. -/
def twoEntries : WalDir := Dir.empty.put (.segment 1) (segmentBytes [⟨2, 1, [7]⟩, ⟨3, 1, [8, 9]⟩])

theorem loadSegmentMaxEntryId_agrees_two : ∃ id, (loadSegmentMaxEntryId 1 twoEntries []).value = .ok id ∧
    (loadSegment acceptAll (create smallConf) 1 twoEntries []).value.batches.flatten.getLast?.map WalEntry.id =
      some id := by
  obtain ⟨id, hid, hlast, -⟩ := (loadSegmentMaxEntryId_agrees (s := [⟨2, 1, [7]⟩, ⟨3, 1, [8, 9]⟩])
    ⟨by decide, by decide⟩ (d := twoEntries) (i := 1) rfl).1 (List.cons_ne_nil _ _)
  exact ⟨id, hid, hlast acceptAll (create smallConf) (by decide +kernel)⟩

/-- A restart that ends well has the consumer accept every entry. -/
theorem reopen_acceptAll {errno : ℕ} {conf : LogCleanWalConfig} (h : InitOutcome (init errno (create conf) d []) w l)
    (hok : (reopen judge errno conf d []).value.result = .returned .ok) :
    (reopen acceptAll errno conf d []).disk = (reopen judge errno conf d []).disk ∧
      (reopen acceptAll errno conf d []).value = (reopen judge errno conf d []).value := by
  obtain ⟨hd, hv⟩ := reopen_run judge h
  obtain ⟨hd', hv'⟩ := reopen_run acceptAll h
  rw [hv] at hok
  rw [hd, hv, hd', hv', load_acceptAll hok]
  exact ⟨rfl, rfl⟩

/-! ## What the segment files contain -/

/-- The entries of the records that follow each other in `bs`; the fuel is its length. -/
def recordEntries : ℕ → Bytes → List WalEntry
  | 0, _ => []
  | fuel + 1, bs =>
    if bs = [] then []
    else
      ⟨readUInt64 (bs.drop 5), (bs.drop entryHeaderLen).take (fieldBE 4 bs)⟩ ::
        recordEntries fuel (bs.drop (fieldBE 4 bs + entryExtraFieldsSize))

/-- The entries in a segment file. -/
def fileEntries (bs : Bytes) : List WalEntry := recordEntries bs.length (bs.drop magicNoLen)

/-- The entries in the segment files, in ascending order of the segments. -/
def heldEntries (d : WalDir) : List WalEntry :=
  (listSegmentsAsc d).flatMap fun i => fileEntries ((d.get (.segment i)).getD [])

theorem recordEntries_stream (s : List Rec) (h : ∀ r ∈ s, r.id < 2 ^ 64 ∧ r.content.length < 2 ^ 32)
    (pos fuel : ℕ) (hfuel : streamSize (s.map Rec.frame) ≤ fuel) :
    recordEntries fuel (streamBytes pos (s.map Rec.frame)) = s.map Rec.entry := by
  induction s generalizing pos fuel with
  | nil => cases fuel <;> rfl
  | cons r s ih =>
    obtain ⟨hid, hlen⟩ := h r List.mem_cons_self
    have hsize := r.size_frame
    unfold entryExtraFieldsSize at hsize
    simp only [List.map_cons, streamSize_cons] at hfuel ⊢
    obtain ⟨k, rfl⟩ : ∃ k, fuel = k + 1 := ⟨fuel - 1, by omega⟩
    obtain ⟨rest, hrest⟩ : ∃ rest, rest = streamBytes (pos + r.frame.size) (s.map Rec.frame) := ⟨_, rfl⟩
    have hbytes : streamBytes pos (r.frame :: s.map Rec.frame) =
        writeBE 4 r.content.length ++ ([r.version] ++ (writeUInt64 r.id ++ (r.content ++
          (writeBE 4 pos ++ rest)))) := by
      simp [streamBytes, Frame.bytes, Rec.frame, hrest]
    have hne : streamBytes pos (r.frame :: s.map Rec.frame) ≠ [] := by
      rw [← List.length_pos_iff, length_streamBytes, streamSize_cons, hsize]
      omega
    have hfield : fieldBE 4 (streamBytes pos (r.frame :: s.map Rec.frame)) = r.content.length := by
      rw [hbytes, fieldBE_writeBE_append, Nat.mod_eq_of_lt (by simpa using hlen)]
    have hid' : (streamBytes pos (r.frame :: s.map Rec.frame)).drop 5 =
        writeUInt64 r.id ++ (r.content ++ (writeBE 4 pos ++ rest)) := by
      rw [hbytes, ← List.append_assoc]
      exact List.drop_left' (by simp)
    have hcontent : (streamBytes pos (r.frame :: s.map Rec.frame)).drop entryHeaderLen =
        r.content ++ (writeBE 4 pos ++ rest) := by
      rw [show entryHeaderLen = 5 + 8 from rfl, ← List.drop_drop, hid']
      exact List.drop_left' (by simp)
    have hnext : (streamBytes pos (r.frame :: s.map Rec.frame)).drop
        (r.content.length + entryExtraFieldsSize) = rest := by
      rw [streamBytes, ← r.size_frame, hrest]
      exact List.drop_left' (Frame.length_bytes _ _)
    rw [recordEntries, if_neg hne, hfield, hid', hcontent, hnext, readUInt64_append hid,
      List.take_left' rfl, hrest,
      ih (fun a ha => h a (List.mem_cons_of_mem r ha)) _ k (by omega)]
    rfl

theorem Readable.fileEntries {s : List Rec} (h : Readable judge s) :
    fileEntries (segmentBytes s) = s.map Rec.entry := by
  have hdrop : (segmentBytes s).drop magicNoLen = streamBytes magicNoLen (s.map Rec.frame) := by
    rw [segmentBytes, List.drop_left' (by simp [magicNoLen])]
  rw [Wal.fileEntries, hdrop, length_segmentBytes]
  refine recordEntries_stream s (fun r hr => ?_) _ _ (by omega)
  have hle := size_le_streamSize (List.mem_map_of_mem (f := Rec.frame) hr)
  have hlt := h.size_lt
  have hid := h.ids r hr
  rw [length_segmentBytes] at hlt
  rw [Rec.size_frame] at hle
  unfold ulongMax at hid
  omega

theorem flatMap_range' {α β : Type} {f : ℕ → List β} {g : α → List β} (segs : List α) (n : ℕ)
    (h : ∀ k s, segs[k]? = some s → f (n + k) = g s) :
    (List.range' n segs.length).flatMap f = segs.flatMap g := by
  induction segs generalizing n with
  | nil => rfl
  | cons s segs ih =>
    have hrest : ∀ k t, segs[k]? = some t → f (n + 1 + k) = g t := by
      intro k t hk
      rw [← h (k + 1) t (by simpa using hk), Nat.add_assoc, Nat.add_comm 1 k]
    rw [List.length_cons, List.range'_succ, List.flatMap_cons, List.flatMap_cons, ih _ hrest]
    exact congrArg (· ++ _) (h 0 s rfl)

theorem Holds.heldEntries (h : Holds d l) (hr : ∀ i s, l.seg i = some s → Readable judge s) :
    heldEntries d = l.entries.map Rec.entry := by
  have hseg : ∀ k s, l.segments[k]? = some s →
      fileEntries ((d.get (.segment (l.first + k))).getD []) = s.map Rec.entry := by
    intro k s hk
    have hs : l.seg (l.first + k) = some s := by
      rw [SegmentedLog.seg, if_neg (by omega), Nat.add_sub_cancel_left, hk]
    rw [h.get hs, Option.getD_some, (hr _ s hs).fileEntries]
  rw [Wal.heldEntries, h.listSegmentsAsc, ← SegmentedLog.length_segments, flatMap_range' _ _ hseg,
    SegmentedLog.entries, List.map_flatten, List.flatMap_def]

/-- The object and its files agree. -/
structure Indexed (s : WalSystem) : Prop where
  index : ∀ id i, s.wal.mpEntriesIdSegId id = some i ↔
    ∃ bs, s.dir.get (.segment i) = some bs ∧ ∃ e ∈ fileEntries bs, e.id = id
  consecutive : ∃ first n, listSegmentsAsc s.dir = List.range' first (n + 1) ∧
    first + n = s.wal.currentSegmentId
  increasing : (heldEntries s.dir).Pairwise (fun a b => a.id < b.id)
  fileSize : ∃ bs, s.dir.get (.segment s.wal.currentSegmentId) = some bs ∧
    s.wal.curSegFileSize = bs.length

theorem Ready.indexed (h : Ready judge s.wal s.dir l v) :
    Indexed s where
  index id i := by
    rw [h.index, h.holds i]
    constructor
    · rintro ⟨t, ht, r, hr, rfl⟩
      refine ⟨_, by rw [ht, Option.map_some], r.entry, ?_, rfl⟩
      rw [(h.wf.readable ht).fileEntries]
      exact List.mem_map_of_mem hr
    · rintro ⟨bs, hbs, e, he, rfl⟩
      obtain ⟨t, ht, rfl⟩ := Option.map_eq_some_iff.mp hbs
      rw [(h.wf.readable ht).fileEntries] at he
      obtain ⟨r, hr, rfl⟩ := List.mem_map.mp he
      exact ⟨t, ht, r, hr, rfl⟩
  consecutive := ⟨l.first, l.closed.length, h.holds.listSegmentsAsc, h.current.symm⟩
  increasing := by
    rw [h.holds.heldEntries (fun _ _ hs => h.wf.readable hs), List.pairwise_map]
    exact h.wf.pairwise
  fileSize := by
    rw [h.current, h.fileSize]
    exact ⟨_, h.holds.get l.seg_current, rfl⟩

/-! ## Every history -/

/-- An entry that the size check lets through leaves the current file below `2 ^ 32` bytes. -/
def StaysSmall (s : WalSystem) : WalEvent → Prop
  | .append (some content) =>
    content.length % 2 ^ 32 + entryExtraFieldsSize ≤ s.wal.conf.maxEntrySize →
      s.wal.curSegFileSize + (content.length % 2 ^ 32 + entryExtraFieldsSize) < 2 ^ 32
  | _ => True

instance decidableStaysSmall (s : WalSystem) : ∀ e, Decidable (StaysSmall s e)
  | .append (some _) => inferInstanceAs (Decidable (_ ≤ _ → _ < _))
  | .append none => isTrue trivial
  | .truncate _ => isTrue trivial
  | .restart _ _ => isTrue trivial

/-- A restart, if it is one, has ended well. -/
def CleanReply : WalReply → Prop
  | .restarted r _ => r = .ok
  | _ => True

instance decidableCleanReply : ∀ r, Decidable (CleanReply r)
  | .restarted r _ => inferInstanceAs (Decidable (r = .ok))
  | .appended _ => isTrue trivial
  | .truncated _ => isTrue trivial

theorem walStep_restart_acceptAll {errno : ℕ} {conf : LogCleanWalConfig}
    (h : InitOutcome (init errno (create conf) s.dir []) w l)
    (hok : (reopen judge errno conf s.dir []).value.result = .returned .ok) :
    walStep acceptAll s (.restart errno conf) = walStep judge s (.restart errno conf) := by
  obtain ⟨hd, hv⟩ := reopen_acceptAll h hok
  simp only [walStep, hd, hv]

/-- Only the length modulo `2 ^ 32` is looked at, and only that many bytes are written. -/
theorem appendEntry_take (w : LogCleanWal) (content : Bytes) :
    appendEntry w (some content) =
      appendEntry w (some (content.take (content.length % 2 ^ 32))) := by
  have hlen : (content.take (content.length % 2 ^ 32)).length = content.length % 2 ^ 32 := by
    rw [List.length_take]
    exact Nat.min_eq_left (Nat.mod_le _ _)
  simp only [appendEntry, hlen, Nat.mod_mod, List.take_take, Nat.min_self]

theorem appendEntry_large (h : Ready judge w d l v) {content : Bytes}
    (hbig : w.conf.maxEntrySize < content.length % 2 ^ 32 + entryExtraFieldsSize) :
    (∃ why, (appendEntry w (some content) d []).value.2 = .crashed why) ∨
      appendEntry w (some content) d [] = ⟨[], d, [], w,
        appendError .EntryBytesSizeOverflow entryBytesSizeOverflowError⟩ := by
  simp only [appendEntry, h.inited, h.loaded, Bool.not_true, Bool.false_eq_true, if_false]
  have hraw : content.length % 2 ^ 32 < 2 ^ 32 := Nat.mod_lt _ (by decide)
  generalize content.length % 2 ^ 32 = raw at hbig hraw
  by_cases hmax : w.conf.maxEntrySize < (raw + entryExtraFieldsSize) % 2 ^ 32
  · rw [if_pos hmax]
    exact .inr rfl
  · -- the size has wrapped, so the block is smaller than the record
    rw [if_neg hmax]
    have hwrap : 2 ^ 32 ≤ raw + entryExtraFieldsSize := by
      by_contra hlt
      rw [Nat.mod_eq_of_lt (by omega)] at hmax
      exact hmax hbig
    cases hslot : MemPool.slotSize ((raw + entryExtraFieldsSize) % 2 ^ 32) with
    | none => exact .inl ⟨_, rfl⟩
    | some capacity =>
      have hcap := MemPool.slotSize_lt (Nat.mod_lt _ (by decide)) hslot
      simp only [if_pos (show capacity < raw + entryExtraFieldsSize by omega), pure_run]
      exact .inl ⟨_, rfl⟩

theorem lastId_recover_le (hwf : WellFormed judge l) (v : ℕ) : lastId (recover l v) ≤ lastId l := by
  by_cases hne : (recover l v).entries = []
  · rw [lastId_of_entries_nil hne]
    exact hwf.one_le_lastId
  · unfold recover at hne ⊢
    split_ifs at hne ⊢
    · exact (lastId_dropThrough hne).le
    · exact absurd rfl hne

theorem current_recover_le (hwf : WellFormed judge l) (v : ℕ) : (recover l v).current ≤ l.current := by
  unfold recover
  split_ifs with hlt
  · exact (SegmentedLog.current_dropThrough hlt).le
  · exact le_trans hwf.first_pos l.first_le_current

/-- The state stands for a log whose numbers are bounded by the steps taken. -/
def Counts (s : WalSystem) (n : ℕ) : Prop :=
  ∃ l v, Ready acceptAll s.wal s.dir l v ∧ lastId l ≤ n + 1 ∧ l.current ≤ n + 1

theorem Stepped.counts {u : WalSystem} {n : ℕ} {e : WalEvent} {r : WalReply} (h : Ready acceptAll s.wal s.dir l v)
    (hid : lastId l ≤ n + 1) (hcur : l.current ≤ n + 1) (hs : Stepped acceptAll s l v e u r) : Counts u (n + 1) := by
  cases hs with
  | refused not_ok => exact ⟨l, v, h, by omega, by omega⟩
  | @appended content _ ready _ _ =>
    refine ⟨_, _, ready, ?_, ?_⟩
    · rw [lastId_append]
      exact Nat.add_le_add_right hid 1
    · have hle : (append s.wal.conf l (nextRec s.wal l content)).current ≤ l.current + 1 := by
        unfold append
        split_ifs <;> simp
      omega
  | missing _ => exact ⟨l, v, h, by omega, by omega⟩
  | pending _ _ ready _ _ => exact ⟨l, _, ready, by omega, by omega⟩
  | @cut _ i _ _ kept last ready _ _ =>
    have hlt : keptFrom l i - 1 < l.current := by
      have := lastFilled_le_current l
      omega
    have hrec : recover l (keptFrom l i - 1) = l.dropThrough (keptFrom l i - 1) := if_pos hlt
    rw [← hrec] at ready
    have := lastId_recover_le h.wf (keptFrom l i - 1)
    have := current_recover_le h.wf (keptFrom l i - 1)
    exact ⟨_, _, ready, by omega, by omega⟩
  | restarted _ ready _ _ _ =>
    have := lastId_recover_le h.wf v
    have := current_recover_le h.wf v
    exact ⟨_, _, ready, by omega, by omega⟩

theorem counts_step {u : WalSystem} {n : ℕ} {e : WalEvent} {r : WalReply} (hI : Counts s n) (hn : n + 3 < 2 ^ 64)
    (hsmall : StaysSmall s e) (hclean : CleanReply r) (hs : walStep judge s e = some (u, r)) : Counts u (n + 1) := by
  obtain ⟨l, v, h, hid, hcur⟩ := hI
  cases e with
  | append eb =>
    cases eb with
    | none => exact (walStep_spec h (e := .append none) trivial hs).counts h hid hcur
    | some content =>
      by_cases hmax : content.length % 2 ^ 32 + entryExtraFieldsSize ≤ s.wal.conf.maxEntrySize
      · have hlen : (content.take (content.length % 2 ^ 32)).length = content.length % 2 ^ 32 := by
          rw [List.length_take]
          exact Nat.min_eq_left (Nat.mod_le _ _)
        have hroom : Room s.wal (content.take (content.length % 2 ^ 32)) := by
          refine ⟨?_, ?_, ?_, ?_⟩
          · rw [hlen]
            exact Nat.mod_lt _ (by decide)
          · rw [h.counter, ulongMax]
            omega
          · rw [h.current, ulongMax]
            omega
          · rw [hlen]
            exact hsmall hmax
        rw [walStep, appendEntry_take] at hs
        exact (walStep_spec h (e := .append (some (content.take (content.length % 2 ^ 32))))
          ⟨rfl, hroom⟩ hs).counts h hid hcur
      · rcases appendEntry_large h (Nat.lt_of_not_le hmax) with ⟨why, hw⟩ | hrun
        · simp [walStep, hw] at hs
        · simp only [walStep, hrun, appendError, Option.some.injEq, Prod.mk.injEq] at hs
          obtain ⟨rfl, -⟩ := hs
          exact ⟨l, v, h, by omega, by omega⟩
  | truncate id => exact (walStep_spec h (e := .truncate id) trivial hs).counts h hid hcur
  | restart errno conf =>
    have hinit := init_holds errno conf h.holds h.wf.first_pos (by
      rw [h.bound errno]
      exact h.pending_lt)
    have hok : (reopen judge errno conf s.dir []).value.result = .returned .ok := by
      rw [walStep] at hs
      cases hres : (reopen judge errno conf s.dir []).value.result with
      | crashed why => simp [hres] at hs
      | returned res =>
        simp only [hres, Option.some.injEq, Prod.mk.injEq] at hs
        obtain ⟨-, rfl⟩ := hs
        rw [show res = .ok from hclean]
    rw [← walStep_restart_acceptAll hinit hok] at hs
    exact (walStep_spec h (e := .restart errno conf) trivial hs).counts h hid hcur

/-- In every state that appends, truncations and clean restarts reach, the object and the segment
files agree. -/
theorem history_indexed {errno : ℕ} {conf : LogCleanWalConfig} {es : List WalEvent}
    {s : WalSystem} {rs : List WalReply} (hlen : es.length + 2 < 2 ^ 64)
    (hsmall : AlongHistory judge errno conf StaysSmall es)
    (hrun : walHistory judge errno conf es = some (s, rs)) (hclean : ∀ r ∈ rs, CleanReply r) :
    Indexed s := by
  obtain ⟨s₀, bss, hfirst, -, hready, -⟩ := walStep_first acceptAll errno conf
  have hbound := bound_of_no_info errno (d := Dir.empty) rfl
  have hinit := init_empty errno conf (d := Dir.empty) (fun _ => rfl) hbound
  have hopen := reopen_empty judge errno conf (d := Dir.empty) (fun _ => rfl) hbound
  have hsame := walStep_restart_acceptAll (s := ⟨create conf, Dir.empty⟩) hinit hopen.result
  rw [hsame] at hfirst
  obtain ⟨u, r, rs', hs, hr, rfl⟩ := run_cons.mp hrun
  rw [hfirst] at hs
  cases hs
  have hI := run_invariant
    (I := fun s tr => tr.length + 2 < 2 ^ 64 → (∀ o ∈ tr, CleanReply o.2) → Counts s tr.length)
    (fun s tr e u r hI hP hs hl hc => by
      rw [List.length_append, List.length_singleton] at hl ⊢
      exact counts_step (hI (by omega) fun o ho => hc o (List.mem_append_left _ ho)) (by omega) hP
        (hc (e, r) (by simp)) hs) [] (fun _ _ => ⟨_, _, hready, le_refl _, le_refl _⟩)
    (hsmall _ hfirst) hr
  rw [List.nil_append, List.length_zip, length_run hr, Nat.min_self] at hI
  obtain ⟨l, v, h, -, -⟩ := hI hlen fun o ho =>
    hclean o.2 (List.mem_cons_of_mem _ (List.of_mem_zip ho).2)
  exact h.indexed

end

/-- A truncation that removes a segment, one that removes nothing and leaves a pending number, and
a restart that acts on it. -/
theorem history_indexed_small : ∃ s rs, walHistory acceptAll 0 tinyConf
    [.append (some [7]), .append (some [8, 9]), .truncate 2, .truncate 3, .restart 0 smallConf,
      .append (some [5])] = some (s, rs) ∧ Indexed s := by
  obtain ⟨⟨s, rs⟩, hrun⟩ := Option.isSome_iff_exists.mp (show (walHistory acceptAll 0
    tinyConf [.append (some [7]), .append (some [8, 9]), .truncate 2, .truncate 3, .restart 0 smallConf,
      .append (some [5])]).isSome = true by decide +kernel)
  have hclean : ∀ o ∈ walHistory acceptAll 0 tinyConf
      [.append (some [7]), .append (some [8, 9]), .truncate 2, .truncate 3, .restart 0 smallConf,
        .append (some [5])], ∀ r ∈ o.2, CleanReply r := by
    decide +kernel
  exact ⟨s, rs, hrun, history_indexed (by decide) (by decide +kernel) hrun (hclean _ hrun)⟩

end FlyingKV.Wal
