import FlyingKV.FramedStreamRoundTrip
import FlyingKV.LogCleanWal
import FlyingKV.SegmentedLog

set_option autoImplicit false

/-!
# What a directory and an object of the log stand for

A segmented log of records is what the files are for. `Holds` relates it to the
segment files, `Ready` to an initialised and loaded object on its directory.
-/
namespace FlyingKV.Wal
open ByteOrder CommonUtils DecimalText FramedStream

structure Rec where
  id : ℕ
  version : UInt8
  content : Bytes
deriving DecidableEq, Repr

namespace Rec

def frame (r : Rec) : Frame := ⟨r.version :: writeUInt64 r.id, r.content⟩

def entry (r : Rec) : WalEntry := ⟨r.id, r.content⟩

theorem size_frame (r : Rec) : r.frame.size = r.content.length + entryExtraFieldsSize := by
  simp [Frame.size, frame, entryExtraFieldsSize]
  omega

theorem ofFrame_frame {r : Rec} (h : r.id < 2 ^ 64) : WalEntry.ofFrame r.frame = r.entry := by
  have hid : readUInt64 (writeUInt64 r.id) = r.id := by
    rw [← List.append_nil (writeUInt64 r.id), readUInt64_append h]
  simpa [WalEntry.ofFrame, frame, entry] using hid

end Rec

theorem walRecord_eq (version : UInt8) (id : ℕ) (content : Bytes) (pos : ℕ) :
    walRecord version id content pos = (Rec.frame ⟨id, version, content⟩).bytes pos := by
  simp [walRecord, Frame.bytes, Rec.frame]

abbrev Log := SegmentedLog Rec

def segmentBytes (rs : List Rec) : Bytes :=
  writeUInt32 magicNo ++ streamBytes magicNoLen (rs.map Rec.frame)

theorem length_segmentBytes (rs : List Rec) :
    (segmentBytes rs).length = magicNoLen + streamSize (rs.map Rec.frame) := by
  simp [segmentBytes, magicNoLen]

theorem length_segmentBytes_append (rs : List Rec) (r : Rec) :
    (segmentBytes (rs ++ [r])).length =
      (segmentBytes rs).length + (r.content.length + entryExtraFieldsSize) := by
  simp [length_segmentBytes, Rec.size_frame, Nat.add_assoc]

theorem segmentBytes_append (rs : List Rec) (r : Rec) :
    segmentBytes (rs ++ [r]) =
      segmentBytes rs ++ walRecord r.version r.id r.content (segmentBytes rs).length := by
  rw [walRecord_eq, length_segmentBytes, segmentBytes, segmentBytes, List.map_append,
    streamBytes_append, List.append_assoc]
  simp [streamBytes]

theorem length_segmentBytes_eq_magic {rs : List Rec} :
    (segmentBytes rs).length = magicNoLen ↔ rs = [] := by
  cases rs with
  | nil => simp [length_segmentBytes]
  | cons r rs =>
    simp only [length_segmentBytes, List.map_cons, streamSize_cons, Rec.size_frame,
      entryExtraFieldsSize, reduceCtorEq, iff_false]
    omega

/-- The segment files of a directory are exactly the segments of the log. -/
def Holds (d : WalDir) (l : Log) : Prop :=
  ∀ i, d.get (.segment i) = (l.seg i).map segmentBytes

theorem Holds.get {d : WalDir} {l : Log} (h : Holds d l) {i : ℕ} {s : List Rec}
    (hs : l.seg i = some s) : d.get (.segment i) = some (segmentBytes s) := by
  rw [h i, hs, Option.map_some]

theorem Holds.get_none {d : WalDir} {l : Log} (h : Holds d l) {i : ℕ}
    (hs : i < l.first ∨ l.current < i) : d.get (.segment i) = none := by
  rw [h i, SegmentedLog.seg_eq_none_iff.mpr hs, Option.map_none]

/-- The id of the newest entry; a log without entries counts from `minEntryId`. -/
def lastId (l : Log) : ℕ := (l.entries.getLast?.map Rec.id).getD minEntryId

theorem lastId_push (l : Log) (r : Rec) : lastId (l.push r) = r.id := by
  simp [lastId]

theorem lastId_roll (l : Log) (h : l.tail ≠ []) : lastId (l.roll h) = lastId l := by
  simp [lastId]

/-- What holds of every log the operations build: the ids are consecutive, the counters
have room, and every entry can be decoded. -/
structure WellFormed (judge : Judge) (l : Log) : Prop where
  first_pos : 1 ≤ l.first
  current_lt : l.current < ulongMax
  consecutive : l.entries.IsChain (fun a b => b.id = a.id + 1)
  ids : ∀ r ∈ l.entries, 2 ≤ r.id ∧ r.id < ulongMax
  accepted : ∀ r ∈ l.entries, judge r.content = .accepted
  size_lt : ∀ i s, l.seg i = some s → (segmentBytes s).length < 2 ^ 32

theorem wellFormed_start (judge : Judge) : WellFormed judge (SegmentedLog.start 1) where
  first_pos := le_refl 1
  current_lt := by decide
  consecutive := by simp
  ids := by simp
  accepted := by simp
  size_lt i s h := by
    obtain ⟨h₁, h₂⟩ := SegmentedLog.seg_bounds h
    have hi : i = (SegmentedLog.start 1 : Log).current := le_antisymm h₂ h₁
    rw [hi, SegmentedLog.seg_current] at h
    cases h
    decide

section WellFormed
variable {judge : Judge} {l : Log}

theorem WellFormed.pairwise (h : WellFormed judge l) : l.entries.Pairwise (fun a b => a.id < b.id) := by
  have hlt : l.entries.IsChain (fun a b => a.id < b.id) :=
    h.consecutive.imp (fun a b hab => by omega)
  have : IsTrans Rec (fun a b => a.id < b.id) := ⟨fun _ _ _ => lt_trans⟩
  exact List.isChain_iff_pairwise.mp hlt

theorem WellFormed.id_lt (h : WellFormed judge l) {i j : ℕ} {s t : List Rec} (hs : l.seg i = some s)
    (ht : l.seg j = some t) (hij : i < j) {a b : Rec} (ha : a ∈ s) (hb : b ∈ t) : a.id < b.id :=
  SegmentedLog.rel_of_lt h.pairwise hs ht hij ha hb

theorem WellFormed.seg_unique (h : WellFormed judge l) {i j : ℕ} {s t : List Rec}
    (hs : l.seg i = some s) (ht : l.seg j = some t) {a b : Rec} (ha : a ∈ s) (hb : b ∈ t)
    (hid : a.id = b.id) : i = j := by
  rcases lt_trichotomy i j with hij | hij | hij
  · exact absurd (h.id_lt hs ht hij ha hb) (by omega)
  · exact hij
  · exact absurd (h.id_lt ht hs hij hb ha) (by omega)

theorem WellFormed.dropThrough (h : WellFormed judge l) {b : ℕ} (hb : b < l.current) :
    WellFormed judge (l.dropThrough b) where
  first_pos := le_trans h.first_pos (le_max_left _ _)
  current_lt := by
    rw [SegmentedLog.current_dropThrough hb]
    exact h.current_lt
  consecutive := h.consecutive.suffix (l.entries_dropThrough_suffix b)
  ids r hr := h.ids r ((l.entries_dropThrough_suffix b).subset hr)
  accepted r hr := h.accepted r ((l.entries_dropThrough_suffix b).subset hr)
  size_lt i s hs := by
    rw [SegmentedLog.seg_dropThrough hb] at hs
    split_ifs at hs
    exact h.size_lt i s hs

theorem WellFormed.id_le_lastId (h : WellFormed judge l) {r : Rec} (hr : r ∈ l.entries) :
    r.id ≤ lastId l := by
  obtain ⟨es, last, he⟩ := List.eq_nil_or_concat l.entries |>.resolve_left (List.ne_nil_of_mem hr)
  have hp := h.pairwise
  rw [List.concat_eq_append] at he
  rw [he] at hr hp
  have hlast : lastId l = last.id := by simp [lastId, he]
  rw [hlast]
  rcases List.mem_append.mp hr with hr | hr
  · exact ((List.pairwise_append.mp hp).2.2 r hr last (by simp)).le
  · rw [List.mem_singleton.mp hr]

theorem WellFormed.one_le_lastId (h : WellFormed judge l) : 1 ≤ lastId l := by
  unfold lastId
  cases he : l.entries.getLast? with
  | none => exact le_refl 1
  | some r => exact le_trans (by decide) (h.ids r (List.mem_of_getLast? he)).1

theorem WellFormed.push (h : WellFormed judge l) {r : Rec} (hid : r.id = lastId l + 1)
    (hlt : r.id < ulongMax) (hj : judge r.content = .accepted)
    (hsize : (segmentBytes (l.tail ++ [r])).length < 2 ^ 32) : WellFormed judge (l.push r) where
  first_pos := h.first_pos
  current_lt := h.current_lt
  consecutive := by
    rw [SegmentedLog.entries_push]
    refine h.consecutive.append (by simp) fun a ha b hb => ?_
    simp only [List.head?_cons, Option.mem_def, Option.some.injEq] at hb
    rw [← hb, hid, lastId, Option.mem_def.mp ha]
    rfl
  ids a ha := by
    rw [SegmentedLog.entries_push] at ha
    rcases List.mem_append.mp ha with ha | ha
    · exact h.ids a ha
    · rw [List.mem_singleton.mp ha]
      have := h.one_le_lastId
      omega
  accepted a ha := by
    rw [SegmentedLog.entries_push] at ha
    rcases List.mem_append.mp ha with ha | ha
    · exact h.accepted a ha
    · rw [List.mem_singleton.mp ha]
      exact hj
  size_lt i s hs := by
    rw [SegmentedLog.seg_push] at hs
    split_ifs at hs with hi
    · cases hs
      exact hsize
    · exact h.size_lt i s hs

theorem WellFormed.roll (h : WellFormed judge l) (ht : l.tail ≠ [])
    (hlt : l.current + 1 < ulongMax) : WellFormed judge (l.roll ht) where
  first_pos := h.first_pos
  current_lt := by
    rw [SegmentedLog.current_roll]
    exact hlt
  consecutive := by
    rw [SegmentedLog.entries_roll]
    exact h.consecutive
  ids r hr := h.ids r (by rwa [SegmentedLog.entries_roll] at hr)
  accepted r hr := h.accepted r (by rwa [SegmentedLog.entries_roll] at hr)
  size_lt i s hs := by
    rw [SegmentedLog.seg_roll] at hs
    split_ifs at hs with hi
    · cases hs
      decide
    · exact h.size_lt i s hs

end WellFormed

/-! ## The object -/

/-- An initialised and loaded object whose next record goes to the end of the log `l` in its directory; `v` is the
number left in the truncate-info file, zero when there is no such file. -/
structure Writes (w : LogCleanWal) (d : WalDir) (l : Log) (v : ℕ) : Prop where
  holds : Holds d l
  info : d.get .truncMeta = if v = 0 then none else some (CommonUtils.toString v)
  flag : d.get .truncOk = none
  pending_lt : v < ulongMax
  inited : w.bInited = true
  loaded : w.bLoaded = true
  current : w.currentSegmentId = l.current
  fd : w.currentSegFd = some ⟨.segment l.current, (segmentBytes l.tail).length⟩
  fileSize : w.curSegFileSize = (segmentBytes l.tail).length

/-- The object has counted and indexed all of the log. -/
structure Ready (judge : Judge) (w : LogCleanWal) (d : WalDir) (l : Log) (v : ℕ) : Prop extends Writes w d l v where
  wf : WellFormed judge l
  index : ∀ e i, w.mpEntriesIdSegId e = some i ↔ ∃ s, l.seg i = some s ∧ ∃ r ∈ s, r.id = e
  counter : w.currentEntryIdx = lastId l
  min : w.minSegmentId = l.first ∨ w.minSegmentId = 1
  lastTrunc : ∀ r ∈ l.entries, w.lastTruncMaxIdx ≤ r.id
  lastTrunc_le : w.lastTruncMaxIdx ≤ lastId l

/-! ## Listing the segments -/

def segmentIds (d : WalDir) : List ℕ :=
  d.names.filterMap (fun f => match f with | .segment id => some id | _ => none)

theorem mem_segmentIds (d : WalDir) (i : ℕ) : i ∈ segmentIds d ↔ d.get (.segment i) ≠ none := by
  rw [← d.mem_names, segmentIds, List.mem_filterMap]
  constructor
  · rintro ⟨f, hf, hi⟩
    cases f <;> simp_all
  · exact fun h => ⟨_, h, rfl⟩

theorem mem_listSegmentsAsc (d : WalDir) (i : ℕ) :
    i ∈ listSegmentsAsc d ↔ d.get (.segment i) ≠ none :=
  (List.mem_insertionSort _).trans (mem_segmentIds d i)

theorem nodup_segmentIds (d : WalDir) : (segmentIds d).Nodup := by
  refine d.nodup_names.filterMap fun a b i ha hb => ?_
  cases a <;> cases b <;> simp_all

theorem sortedLT_listSegmentsAsc (d : WalDir) : (listSegmentsAsc d).SortedLT :=
  List.sortedLT_iff_nodup_and_sortedLE.mpr
    ⟨(List.perm_insertionSort _ _).nodup_iff.mpr (nodup_segmentIds d), List.sortedLE_insertionSort⟩

theorem listSegmentsAsc_of_mem {d : WalDir} {ids : List ℕ} (hs : ids.SortedLT)
    (hm : ∀ i, i ∈ ids ↔ d.get (.segment i) ≠ none) : listSegmentsAsc d = ids := by
  have hp : ((segmentIds d).insertionSort (· ≤ ·)).Perm ids :=
    (List.perm_insertionSort _ _).trans ((List.perm_ext_iff_of_nodup (nodup_segmentIds d)
      hs.pairwise.nodup).mpr fun i => by rw [mem_segmentIds, hm])
  exact hp.eq_of_sortedLE List.sortedLE_insertionSort hs.sortedLE

theorem listSegmentsAsc_of_none {d : WalDir} (h : ∀ i, d.get (.segment i) = none) :
    listSegmentsAsc d = [] :=
  listSegmentsAsc_of_mem List.Pairwise.nil.sortedLT fun i => by simp [h]

theorem Holds.listSegmentsAsc {d : WalDir} {l : Log} (h : Holds d l) :
    listSegmentsAsc d = List.range' l.first (l.closed.length + 1) := by
  refine listSegmentsAsc_of_mem ?_ fun i => ?_
  · exact List.sortedLT_range' _ _ (by decide)
  · rw [h i, List.mem_range'_1, Ne, Option.map_eq_none_iff, SegmentedLog.seg_eq_none_iff,
      SegmentedLog.current]
    omega

end FlyingKV.Wal
