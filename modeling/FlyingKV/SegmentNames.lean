import FlyingKV.TextSearch
import FlyingKV.WalLog
import Mathlib.Data.Finset.Sort

set_option autoImplicit false

/-!
# Segment files by name

`list_segments_asc` on byte strings: the directory entries in `readdir`'s order,
the search for the segment prefix in the whole path, the number after the last
dot, and `std::sort`. For the directories the log writes this is the listing by
file type that `LogCleanWal` works with.
-/
namespace FlyingKV.SegmentNames
open ByteOrder CommonUtils DecimalText TextSearch
open Wal (WalResult WalDir WalFile fileSystemError segmentIds)

/-- An ASCII literal of the source. -/
def text (s : String) : Bytes := s.toList.map fun c => UInt8.ofNat c.toNat

def segmentPrefixName : Bytes := text "lclog.segment"
def truncOkName : Bytes := text "lclog.trunc.ok"
def truncMetaName : Bytes := text "lclog.truncmeta"

def fileNameCorruptError : String := " file name corrupt"

/-! ## `FileUtils::CollectFileChildren` -/

/-- What the system calls answer. A failed call is given by its `strerror` text, `opendir` by
the names `readdir` then returns, and `stat` by whether the file is a regular one. -/
structure FileSystem where
  opendir : Bytes → Except String (List Bytes)
  stat : Bytes → Except String Bool

/-- What C reads of a string. -/
def cStr (s : Bytes) : Bytes := s.takeWhile (· ≠ 0)

def isDots (name : Bytes) : Prop := name = text "." ∨ name = text ".."

instance (name : Bytes) : Decidable (isDots name) := inferInstanceAs (Decidable (_ ∨ _))

def collectLoop (fs : FileSystem) (path : Bytes) (filter : Bytes → Bool) :
    List Bytes → List Bytes → Except String (List Bytes)
  | [], rs => .ok rs
  | name :: names, rs =>
    if isDots name then collectLoop fs path filter names rs
    else
      let len := path.length + name.length + 2
      -- `snprintf` leaves room for the terminator
      let buf := (cStr path ++ text "/" ++ name).take (len - 1)
      match fs.stat buf with
      | .error e => .error e
      | .ok regular => collectLoop fs path filter names (if regular && filter buf then rs ++ [buf] else rs)

def collectFileChildren (fs : FileSystem) (path : Bytes) (filter : Bytes → Bool) :
    Except String (List Bytes) :=
  match fs.opendir (cStr path) with
  | .error e => .error e
  | .ok names => collectLoop fs path filter names []

/-! ## `list_segments_asc` and `generate_segment_file_path` -/

structure LogCleanWalSegmentFileInfo where
  id : ℕ
  path : Bytes
deriving DecidableEq, Repr

/-- `std::sort` by id. Nothing is said about the order of files with one id. -/
structure IdSort where
  run : List LogCleanWalSegmentFileInfo → List LogCleanWalSegmentFileInfo
  perm : ∀ rs, (run rs).Perm rs
  sorted : ∀ rs, (run rs).Pairwise fun a b => ¬ b.id < a.id

/-- `npos + 1` is zero. -/
def idStrOf (c : Bytes) : Bytes :=
  c.drop (match rfind 46 c with
    | some i => i + 1
    | none => 0)

/-- What `strtoul` leaves in `errno`. -/
def errnoAfter (errno : ℕ) (s : Bytes) : ℕ := if (strtoul (cStr s)).clipped then ERANGE else errno

def parseChildren : ℕ → List Bytes → Option (List LogCleanWalSegmentFileInfo)
  | _, [] => some []
  | errno, c :: children =>
    match toUint46 errno (idStrOf c) with
    | none => none
    | some id => (parseChildren (errnoAfter errno (idStrOf c)) children).map (⟨id, c⟩ :: ·)

/-- `errno` is the value left when the names have been collected. -/
def listSegmentsAsc (fs : FileSystem) (sort : IdSort) (errno : ℕ) (rootDir : Bytes) :
    Except WalResult (List LogCleanWalSegmentFileInfo) :=
  match collectFileChildren fs rootDir fun p => (find segmentPrefixName p).isSome with
  | .error e => .error (fileSystemError e)
  | .ok children =>
    match parseChildren errno children with
    | none => .error ⟨.FileMameCorrupt, fileNameCorruptError⟩
    | some rs => .ok (sort.run rs)

def generateSegmentFilePath (rootDir : Bytes) (id : ℕ) : Bytes :=
  rootDir ++ text "/" ++ segmentPrefixName ++ text "." ++ decimal id

/-! ## Names -/

/-- A path has no NUL byte. -/
abbrev RootPath := { p : Bytes // 0 ∉ p }

theorem RootPath.cStr_eq (root : RootPath) : cStr root.1 = root.1 := by
  refine List.takeWhile_eq_self_iff.mpr fun b hb => ?_
  rw [decide_eq_true_eq]
  rintro rfl
  exact root.2 hb

/-- The files that `m_sTruncInfoFilePath` and `m_sTruncOKFlagFilePath` name. -/
inductive TruncMarker where
  | info
  | okFlag
deriving DecidableEq, Repr

def TruncMarker.name : TruncMarker → Bytes
  | .info => truncMetaName
  | .okFlag => truncOkName

def TruncMarker.path (rootDir : Bytes) (m : TruncMarker) : Bytes := rootDir ++ text "/" ++ m.name

def segmentName (id : ℕ) : Bytes := segmentPrefixName ++ text "." ++ decimal id

theorem generateSegmentFilePath_eq (rootDir : Bytes) (id : ℕ) :
    generateSegmentFilePath rootDir id = rootDir ++ text "/" ++ segmentName id := by
  simp only [generateSegmentFilePath, segmentName, List.append_assoc]

theorem dot_notMem_decimal (n : ℕ) : 46 ∉ decimal n := fun h => absurd (decimal_all n 46 h) (by decide)

/-- The number stands after the last dot, whatever dots the root path has. -/
theorem idStrOf_generateSegmentFilePath (rootDir : Bytes) (id : ℕ) :
    idStrOf (generateSegmentFilePath rootDir id) = decimal id := by
  have hsplit : generateSegmentFilePath rootDir id =
      (rootDir ++ text "/" ++ segmentPrefixName) ++ 46 :: decimal id := by
    simp only [generateSegmentFilePath, List.append_assoc]
    rfl
  rw [idStrOf, hsplit, rfind_append _ (dot_notMem_decimal id)]
  exact List.drop_length_add_append 1

theorem generateSegmentFilePath_injective (rootDir : Bytes) :
    Function.Injective (generateSegmentFilePath rootDir) := by
  intro m n h
  apply decimal_injective
  rw [← idStrOf_generateSegmentFilePath rootDir m, h, idStrOf_generateSegmentFilePath]

/-- A slash keeps an occurrence on one of its sides. -/
theorem find_path {rootDir : Bytes} (hroot : find segmentPrefixName rootDir = none) (name : Bytes) :
    (find segmentPrefixName (rootDir ++ text "/" ++ name)).isSome ↔ segmentPrefixName <:+: name := by
  rw [Option.isSome_iff_ne_none, Ne, find_eq_none_iff, not_not]
  constructor
  · intro h
    rw [List.append_assoc] at h
    exact (infix_split (by decide) h).resolve_left ((find_eq_none_iff _ _).mp hroot)
  · exact fun h => h.trans (List.suffix_append _ _).isInfix

theorem prefix_infix_segmentName (id : ℕ) : segmentPrefixName <:+: segmentName id := by
  rw [segmentName, List.append_assoc]
  exact (List.prefix_append _ _).isInfix

theorem prefix_not_infix_marker (m : TruncMarker) : ¬ segmentPrefixName <:+: m.name := by
  cases m <;> decide

theorem segmentName_not_isDots (id : ℕ) : ¬ isDots (segmentName id) := by
  have hhead : (segmentName id).head? = some 108 := rfl
  rintro (h | h) <;> exact absurd (hhead.symm.trans (congrArg List.head? h)) (by decide)

/-! ## Listing a directory of the log -/

/-- The directory `root` holds the segment files of `ids` and the files of `markers`, and
`readdir` returns `names`; whether and where it returns the two dots is open. -/
structure Populated (fs : FileSystem) (root : RootPath) (ids : Finset ℕ) (markers : Finset TruncMarker)
    (names : List Bytes) : Prop where
  opened : fs.opendir root.1 = .ok names
  nodup : names.Nodup
  mem_iff : ∀ name, ¬ isDots name →
    (name ∈ names ↔ (∃ id ∈ ids, name = segmentName id) ∨ ∃ m ∈ markers, name = m.name)
  segment : ∀ id ∈ ids, fs.stat (generateSegmentFilePath root.1 id) = .ok true
  marker : ∀ m ∈ markers, fs.stat (m.path root.1) = .ok true

/-- One round of the loop over the directory, for a path without a NUL byte. -/
theorem collectLoop_cons (fs : FileSystem) (root : RootPath) (filter : Bytes → Bool) (name : Bytes)
    (names rs : List Bytes) (hdots : ¬ isDots name) (hstat : fs.stat (root.1 ++ text "/" ++ name) = .ok true) :
    collectLoop fs root.1 filter (name :: names) rs =
      collectLoop fs root.1 filter names
        (if filter (root.1 ++ text "/" ++ name) then rs ++ [root.1 ++ text "/" ++ name] else rs) := by
  have hlen : (root.1 ++ text "/" ++ name).length ≤ root.1.length + name.length + 2 - 1 := by
    have hslash : (text "/").length = 1 := rfl
    simp only [List.length_append, hslash]
    omega
  simp only [collectLoop, if_neg hdots, root.cStr_eq, List.take_of_length_le hlen, hstat, Bool.true_and]

theorem collectLoop_ok (fs : FileSystem) (root : RootPath) (filter : Bytes → Bool) (names rs : List Bytes)
    (hstat : ∀ name ∈ names, ¬ isDots name → fs.stat (root.1 ++ text "/" ++ name) = .ok true) :
    collectLoop fs root.1 filter names rs =
      .ok (rs ++ ((names.filter (¬ isDots ·)).map (root.1 ++ text "/" ++ ·)).filter filter) := by
  induction names generalizing rs with
  | nil => simp [collectLoop]
  | cons name names ih =>
    have htail (rs : List Bytes) := ih rs fun n hn => hstat n (List.mem_cons_of_mem _ hn)
    by_cases hdots : isDots name
    · rw [collectLoop, if_pos hdots, htail, List.filter_cons_of_neg (by simpa using hdots)]
    · rw [collectLoop_cons fs root filter name names rs hdots (hstat name List.mem_cons_self hdots), htail,
        List.filter_cons_of_pos (by simpa using hdots), List.map_cons]
      by_cases hf : filter (root.1 ++ text "/" ++ name)
      · rw [if_pos hf, List.filter_cons_of_pos hf, List.append_assoc, List.singleton_append]
      · rw [if_neg hf, List.filter_cons_of_neg hf]

/-- Every decimal text is read back, with `errno` left as it was. -/
theorem parseChildren_paths (errno : ℕ) (rootDir : Bytes) (ids : List ℕ)
    (hids : ∀ id ∈ ids, 1 ≤ id ∧ id ≤ 2 ^ 64 - 2) :
    parseChildren errno (ids.map (generateSegmentFilePath rootDir)) =
      some (ids.map fun id => ⟨id, generateSegmentFilePath rootDir id⟩) := by
  induction ids with
  | nil => rfl
  | cons id ids ih =>
    obtain ⟨hpos, hle⟩ := hids id List.mem_cons_self
    have hlt : id < ulongMax := by
      unfold ulongMax
      omega
    have herrno : errnoAfter errno (decimal id) = errno := by
      rw [errnoAfter, cStr, decimal_takeWhile, strtoul_decimal id hlt.le]
      rfl
    simp only [List.map_cons, parseChildren, idStrOf_generateSegmentFilePath, toUint46_toString errno hpos hlt,
      herrno, ih fun n hn => hids n (List.mem_cons_of_mem _ hn), Option.map_some]

theorem IdSort.run_eq (sort : IdSort) (rootDir : Bytes) {ids : List ℕ} {s : Finset ℕ} (h : ids.Perm s.sort) :
    sort.run (ids.map fun id => ⟨id, generateSegmentFilePath rootDir id⟩) =
      s.sort.map fun id => ⟨id, generateSegmentFilePath rootDir id⟩ := by
  have hperm := (sort.perm (ids.map fun id => ⟨id, generateSegmentFilePath rootDir id⟩)).trans (h.map _)
  have hsorted := sort.sorted (ids.map fun id => ⟨id, generateSegmentFilePath rootDir id⟩)
  obtain ⟨sorted, hrun, hs⟩ := (congrFun₂ (List.eq_map_comp_perm _) _ _).mpr hperm
  rw [hrun, List.pairwise_map] at hsorted
  rw [hrun, List.Perm.eq_of_pairwise' (hsorted.imp Nat.le_of_not_lt) (s.pairwise_sort (· ≤ ·)) hs]

section Populated
variable {fs : FileSystem} {root : RootPath} {ids : Finset ℕ} {markers : Finset TruncMarker} {names : List Bytes}

theorem Populated.stat (h : Populated fs root ids markers names) (name : Bytes) (hn : name ∈ names)
    (hdots : ¬ isDots name) : fs.stat (root.1 ++ text "/" ++ name) = .ok true := by
  rcases (h.mem_iff name hdots).mp hn with ⟨id, hid, rfl⟩ | ⟨m, hm, rfl⟩
  · rw [← generateSegmentFilePath_eq]
    exact h.segment id hid
  · exact h.marker m hm

/-- The names kept are the segment files of `ids`, each once. -/
theorem Populated.collect (h : Populated fs root ids markers names) (hroot : find segmentPrefixName root.1 = none) :
    ∃ order : List ℕ, order.Perm ids.sort ∧
      collectFileChildren fs root.1 (fun p => (find segmentPrefixName p).isSome) =
        .ok (order.map (generateSegmentFilePath root.1)) := by
  have hinj : Function.Injective fun name => root.1 ++ text "/" ++ name := List.append_right_injective _
  have hperm : (((names.filter (¬ isDots ·)).map (root.1 ++ text "/" ++ ·)).filter
      fun p => (find segmentPrefixName p).isSome).Perm (ids.sort.map (generateSegmentFilePath root.1)) := by
    refine (List.perm_ext_iff_of_nodup (((h.nodup.filter _).map hinj).filter _)
      ((ids.sort_nodup (· ≤ ·)).map (generateSegmentFilePath_injective _))).mpr fun c => ?_
    simp only [List.mem_filter, List.mem_map, decide_eq_true_eq, Finset.mem_sort]
    constructor
    · rintro ⟨⟨name, ⟨hn, hdots⟩, rfl⟩, hfound⟩
      rcases (h.mem_iff name hdots).mp hn with ⟨id, hid, rfl⟩ | ⟨m, -, rfl⟩
      · exact ⟨id, hid, generateSegmentFilePath_eq _ _⟩
      · exact absurd ((find_path hroot _).mp hfound) (prefix_not_infix_marker m)
    · rintro ⟨id, hid, rfl⟩
      rw [generateSegmentFilePath_eq, find_path hroot]
      have hdots := segmentName_not_isDots id
      exact ⟨⟨segmentName id, ⟨(h.mem_iff _ hdots).mpr (.inl ⟨id, hid, rfl⟩), hdots⟩, rfl⟩,
        prefix_infix_segmentName id⟩
  obtain ⟨order, horder, hp⟩ := (congrFun₂ (List.eq_map_comp_perm _) _ _).mpr hperm
  refine ⟨order, hp, ?_⟩
  rw [collectFileChildren, root.cStr_eq, h.opened]
  simp only [collectLoop_ok fs root _ names [] h.stat, List.nil_append, horder]

theorem Populated.listSegmentsAsc (h : Populated fs root ids markers names) (sort : IdSort) (errno : ℕ)
    (hroot : find segmentPrefixName root.1 = none) (hids : ∀ id ∈ ids, 1 ≤ id ∧ id ≤ 2 ^ 64 - 2) :
    ∃ order : List ℕ, order.Perm ids.sort ∧ SegmentNames.listSegmentsAsc fs sort errno root.1 =
      .ok (sort.run (order.map fun id => ⟨id, generateSegmentFilePath root.1 id⟩)) := by
  obtain ⟨order, hperm, hcollect⟩ := h.collect hroot
  have hparse := parseChildren_paths errno root.1 order fun id hid =>
    hids id ((Finset.mem_sort _).mp (hperm.mem_iff.mp hid))
  exact ⟨order, hperm, by simp only [SegmentNames.listSegmentsAsc, hcollect, hparse]⟩

theorem listSegmentsAsc_inverts (sort : IdSort) (errno : ℕ) (hroot : find segmentPrefixName root.1 = none)
    (hids : ∀ id ∈ ids, 1 ≤ id ∧ id ≤ 2 ^ 64 - 2) (h : Populated fs root ids markers names) :
    listSegmentsAsc fs sort errno root.1 =
      .ok (ids.sort.map fun id => ⟨id, generateSegmentFilePath root.1 id⟩) := by
  obtain ⟨order, hperm, hlist⟩ := h.listSegmentsAsc sort errno hroot hids
  rw [hlist, sort.run_eq root.1 hperm]

/-- Two digits and one, and an `errno` left by an earlier conversion. -/
def twoDigits : FileSystem where
  opendir p := if p = text "/var/wal.d" then
      .ok [text "lclog.segment.10", text "..", text "lclog.trunc.ok", text "lclog.segment.9", text "."]
    else .error "No such file or directory"
  stat _ := .ok true

def insertionIdSort : IdSort where
  run rs := rs.insertionSort fun a b => a.id ≤ b.id
  perm rs := List.perm_insertionSort _ rs
  sorted rs := by
    have : Std.Total fun a b : LogCleanWalSegmentFileInfo => a.id ≤ b.id := ⟨fun a b => Nat.le_total a.id b.id⟩
    have : IsTrans LogCleanWalSegmentFileInfo fun a b => a.id ≤ b.id := ⟨fun _ _ _ => Nat.le_trans⟩
    exact (List.pairwise_insertionSort _ rs).imp Nat.not_lt.mpr

theorem populated_twoDigits : Populated twoDigits ⟨text "/var/wal.d", by decide⟩ {9, 10} {.okFlag}
    [text "lclog.segment.10", text "..", text "lclog.trunc.ok", text "lclog.segment.9", text "."] where
  opened := rfl
  nodup := by decide
  mem_iff name hdots := by
    have h9 : segmentName 9 = text "lclog.segment.9" := by decide
    have h10 : segmentName 10 = text "lclog.segment.10" := by decide
    obtain ⟨hdot, hdotdot⟩ := not_or.mp hdots
    simp only [List.mem_cons, List.not_mem_nil, or_false, hdot, hdotdot, false_or, Finset.mem_insert,
      Finset.mem_singleton, exists_eq_or_imp, exists_eq_left, h9, h10, TruncMarker.name, truncOkName]
    -- The listing has the marker between the two segments.
    exact (or_congr_right or_comm).trans (or_left_comm.trans or_assoc.symm)
  segment _ _ := rfl
  marker _ _ := rfl

theorem listSegmentsAsc_inverts_twoDigits :
    listSegmentsAsc twoDigits insertionIdSort ERANGE (text "/var/wal.d") =
      .ok [⟨9, text "/var/wal.d/lclog.segment.9"⟩, ⟨10, text "/var/wal.d/lclog.segment.10"⟩] :=
  (listSegmentsAsc_inverts insertionIdSort ERANGE (by decide) (by decide) populated_twoDigits).trans <| by
    rw [Finset.sort_insert _ (by decide) (by decide), Finset.sort_singleton]
    decide

/-- The listing by name is the listing by file type. -/
theorem listSegmentsAsc_refines {d : WalDir} (sort : IdSort) (errno : ℕ)
    (hroot : find segmentPrefixName root.1 = none) (hids : ∀ id ∈ segmentIds d, 1 ≤ id ∧ id ≤ 2 ^ 64 - 2)
    (h : Populated fs root (segmentIds d).toFinset markers names) :
    (listSegmentsAsc fs sort errno root.1).map (List.map (·.id)) = .ok (Wal.listSegmentsAsc d) := by
  obtain ⟨order, hperm, hlist⟩ :=
    h.listSegmentsAsc sort errno hroot fun id hid => hids id (List.mem_toFinset.mp hid)
  have hids : Wal.listSegmentsAsc d = (segmentIds d).toFinset.sort :=
    Wal.listSegmentsAsc_of_mem (Finset.sortedLT_sort _) fun i => by
      rw [Finset.mem_sort, List.mem_toFinset, Wal.mem_segmentIds]
  rw [hlist, sort.run_eq root.1 hperm, Except.map, List.map_map, hids]
  exact congrArg Except.ok (List.map_id _)

end Populated

end FlyingKV.SegmentNames
