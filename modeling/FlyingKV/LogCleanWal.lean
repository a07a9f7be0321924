import FlyingKV.CommonUtils
import FlyingKV.FileUtils
import FlyingKV.FramedStream
import FlyingKV.MemPoolSize
import Mathlib.Data.List.Sort

set_option autoImplicit false

/-!
# `LogCleanWal`

The write-ahead log: its object state, the directory it works on, and its
operations as disk programs. File names are a type of their own; the segment
prefix is matched against the name only, never against the root path. The
64-bit counters wrap.
-/
namespace FlyingKV.Wal
open ByteOrder CommonUtils DecimalText FileDir DiskProgram FileUtils FramedStream

def magicNo : ℕ := 0x736d6c67
def magicNoLen : ℕ := 4
def entryHeaderLen : ℕ := 13
def entryExtraFieldsSize : ℕ := 17
def startPosLen : ℕ := 4
def invalidSegmentId : ℕ := 0
def invalidEntryId : ℕ := 0
def minEntryId : ℕ := 1

/-- `lclog.segment.<id>`, `lclog.truncmeta` and `lclog.trunc.ok`. -/
inductive WalFile where
  | segment (id : ℕ)
  | truncMeta
  | truncOk
deriving DecidableEq, Repr

abbrev WalDir := Dir WalFile

inductive Code where
  | OK
  | Uninited
  | Unloaded
  | FileCorrupt
  | FileMameCorrupt
  | FileSystemError
  | EncodeEntryError
  | DecodeEntryError
  | EntryBytesSizeOverflow
  | InvalidEntryId
deriving DecidableEq, Repr

def fileCorruptError : String := " file corrupt"
def uninitializedError : String := " has not been initialized"
def unloadedError : String := " has not been loaded"
def encodeEntryError : String := " encode entry error"
def decodeEntryError : String := " decode entry error"
def entryBytesSizeOverflowError : String := " entry encoded bytes larger than max limit size"
def invalidEntryIdError : String := " invalid entry id"

structure WalResult where
  rc : Code
  errmsg : String
deriving DecidableEq, Repr

def WalResult.ok : WalResult := ⟨.OK, ""⟩

/-- `entryId` has a meaning only with `OK`. -/
structure AppendEntryResult where
  rc : Code
  errmsg : String
  entryId : ℕ
deriving DecidableEq, Repr

/-- The constructor aborts on sizes below the extra fields of an entry. -/
structure LogCleanWalConfig where
  writeEntryVersion : UInt8
  maxSegmentSize : ℕ
  readBatchSize : ℕ
  segmentSize_ge : entryExtraFieldsSize ≤ maxSegmentSize
  segmentSize_lt : maxSegmentSize < 2 ^ 32
  batchSize_ge : entryExtraFieldsSize ≤ readBatchSize
  batchSize_lt : readBatchSize < 2 ^ 32

def LogCleanWalConfig.maxEntrySize (c : LogCleanWalConfig) : ℕ :=
  c.readBatchSize - entryExtraFieldsSize

structure LogCleanWal where
  conf : LogCleanWalConfig
  mpEntriesIdSegId : ℕ → Option ℕ
  lastTruncMaxIdx : ℕ
  currentEntryIdx : ℕ
  currentSegFd : Option (Fd WalFile)
  curSegFileSize : ℕ
  bLoaded : Bool
  bInited : Bool
  currentSegmentId : ℕ
  minSegmentId : ℕ
  vInitSegments : List ℕ

def create (conf : LogCleanWalConfig) : LogCleanWal where
  conf := conf
  mpEntriesIdSegId := fun _ => none
  lastTruncMaxIdx := minEntryId
  currentEntryIdx := minEntryId
  currentSegFd := none
  curSegFileSize := 0
  bLoaded := false
  bInited := false
  currentSegmentId := 0
  minSegmentId := 0
  vInitSegments := []

/-! ## Files of the log -/

/-- Ascending by id; the directory lists them in any order. -/
def listSegmentsAsc (d : WalDir) : List ℕ :=
  (d.names.filterMap (fun f => match f with | .segment id => some id | _ => none)).insertionSort (· ≤ ·)

/-- The number in the truncate-info file, unless the OK flag stands beside it. -/
def getUncompletedTruncSegmentsMaxId (errno : ℕ) (d : WalDir) : ℕ :=
  if d.exist .truncOk then invalidSegmentId
  else match d.get .truncMeta with
    | none => invalidSegmentId
    | some idStr =>
      if idStr = [] then invalidSegmentId else (toUint46 errno idStr).getD invalidSegmentId

def fileSystemError (errmsg : String) : WalResult := ⟨.FileSystemError, errmsg⟩

def cleanTruncStatus : Program WalDir WalResult := do
  match ← unlink WalFile.truncMeta with
  | some e => return fileSystemError e
  | none =>
    match ← unlink WalFile.truncOk with
    | some e => return fileSystemError e
    | none => return .ok

def createTruncInfo (segId : ℕ) : Program WalDir WalResult := do
  match ← openTrunc WalFile.truncMeta with
  | some e => return fileSystemError e
  | none =>
    match (← writeFully ⟨WalFile.truncMeta, 0⟩ (toString segId)).2 with
    | some e => return fileSystemError e
    | none => return .ok

def createTruncOkFlag : Program WalDir WalResult := do
  match ← openCreate WalFile.truncOk with
  | some e => return fileSystemError e
  | none =>
    match ← syscall with
    | some e => return fileSystemError e
    | none => return .ok

/-- The new segment becomes current before its header is written. -/
def openNewSegment (w : LogCleanWal) : Program WalDir (LogCleanWal × WalResult) := do
  let id := (w.currentSegmentId + 1) % 2 ^ 64
  match ← openCreate (WalFile.segment id) with
  | some e => return ({ w with currentSegmentId := id, currentSegFd := none }, fileSystemError e)
  | none =>
    let (fd, err) ← writeFully ⟨WalFile.segment id, 0⟩ (writeUInt32 magicNo)
    let w := { w with currentSegmentId := id, currentSegFd := some fd }
    match err with
    | some e => return (w, fileSystemError e)
    | none => return ({ w with curSegFileSize := magicNoLen }, .ok)

def createNewSegmentFile (w : LogCleanWal) : Program WalDir (LogCleanWal × WalResult) := do
  match w.currentSegFd with
  | none => openNewSegment w
  | some _ =>
    match ← syscall with
    -- the number that is kept is no longer that of an open file
    | some e => return ({ w with currentSegFd := none }, fileSystemError e)
    | none => openNewSegment w

/-! ## Init -/

/-- Remove the segments `i, i + 1, …`, `n` of them. -/
def unlinkSegments : ℕ → ℕ → Program WalDir (Option String)
  | _, 0 => return none
  | i, n + 1 => do
    match ← unlink (WalFile.segment i) with
    | some e => return some e
    | none => unlinkSegments (i + 1) n

def openCurrentSegment (w : LogCleanWal) : Program WalDir (LogCleanWal × Ended WalResult) := do
  let id := w.currentSegmentId
  match ← openCreate (WalFile.segment id) with
  | some e => return (w, .returned (fileSystemError e))
  | none =>
    let size ← peek (fun d => ((d.get (.segment id)).getD []).length)
    match ← syscall with
    | some e => return ({ w with currentSegFd := some ⟨.segment id, 0⟩ }, .returned (fileSystemError e))
    | none => return ({ w with currentSegFd := some ⟨.segment id, size⟩ }, .returned .ok)

/-- The part of `Init` after the clean-up of an unfinished truncation. -/
def initSegments (w : LogCleanWal) (segments : List ℕ) :
    Program WalDir (LogCleanWal × Ended WalResult) := do
  let rs ← cleanTruncStatus
  if rs.rc ≠ .OK then return (w, .returned rs)
  else match segments with
    | [] =>
      let (w, rs) ← createNewSegmentFile { w with minSegmentId := 1, currentSegmentId := invalidEntryId }
      if rs.rc ≠ .OK then return (w, .returned rs)
      else openCurrentSegment { w with vInitSegments := [] }
    | first :: rest =>
      openCurrentSegment { w with
        minSegmentId := first
        currentSegmentId := (first :: rest).getLast (List.cons_ne_nil _ _)
        vInitSegments := first :: rest }

def initAfterListing (w : LogCleanWal) (maxTruncUncompletedSegId : ℕ) (segments : List ℕ) :
    Program WalDir (LogCleanWal × Ended WalResult) := do
  if maxTruncUncompletedSegId = invalidSegmentId then initSegments w segments
  else match segments with
    | [] =>
      let rs ← cleanTruncStatus
      if rs.rc ≠ .OK then return (w, .returned rs)
      -- the source goes on to read `Segments[0]` of the empty list
      else return (w, .crashed .outOfBounds)
    | first :: rest =>
      match ← unlinkSegments first (maxTruncUncompletedSegId + 1 - first) with
      | some e => return (w, .returned (fileSystemError e))
      | none =>
        -- a 64-bit loop variable never passes the largest number
        if maxTruncUncompletedSegId = ulongMax then return (w, .crashed .diverges)
        else initSegments w ((first :: rest).filter (fun s => maxTruncUncompletedSegId < s))

/-- `m_bInited` is set on every way out. -/
def init (errno : ℕ) (w : LogCleanWal) : Program WalDir (LogCleanWal × Ended WalResult) := do
  let w := { w with bInited := true }
  match ← syscall with
  | some e => return (w, .returned (fileSystemError e))
  | none =>
    let maxTruncUncompletedSegId ← peek (getUncompletedTruncSegmentsMaxId errno)
    match ← query (fun d => .ok (listSegmentsAsc d)) with
    | .error e => return (w, .returned (fileSystemError e))
    | .ok segments => initAfterListing w maxTruncUncompletedSegId segments

/-! ## Load -/

/-- One delivered entry: its id and the bytes it was decoded from. -/
structure WalEntry where
  id : ℕ
  content : Bytes
deriving DecidableEq, Repr

/-- The id follows the version byte in the header. -/
def WalEntry.ofFrame (f : Frame) : WalEntry := ⟨readUInt64 (f.hdr.drop 1), f.content⟩

/-- What `load_segment` notes in the object for an entry it has parsed. -/
def noteEntry (segId : ℕ) (w : LogCleanWal) (f : Frame) : LogCleanWal :=
  let entryId := (WalEntry.ofFrame f).id
  { w with
    mpEntriesIdSegId := Function.update w.mpEntriesIdSegId entryId (some segId)
    lastTruncMaxIdx := min w.lastTruncMaxIdx (pred64 entryId)
    currentEntryIdx := entryId }

def stopResult : Stop → Ended WalResult
  | .corrupt => .returned ⟨.FileCorrupt, fileCorruptError⟩
  | .decodeError => .returned ⟨.DecodeEntryError, decodeEntryError⟩
  | .readError e => .returned (fileSystemError e)
  | why => .crashed why

structure SegmentLoad where
  wal : LogCleanWal
  batches : List (List WalEntry)
  result : Ended WalResult
  fileSize : ℕ

section Load
variable (judge : Judge)

/-- The entries of an open segment whose header has been checked. -/
def loadSegmentContent (w : LogCleanWal) (bs : Bytes) (segId : ℕ) : Program WalDir SegmentLoad :=
  fun d faults =>
    let unread := bs.drop magicNoLen
    let r := loadLoop entryHeaderLen judge MemPool.slotSize w.conf.readBatchSize (unread.length + 1)
      magicNoLen [] unread faults
    ⟨[], d, r.faults, r.parsed.foldl (noteEntry segId) w, r.batches.map (·.map WalEntry.ofFrame),
      match r.stop with | none => .returned .ok | some why => stopResult why,
      match r.stop with | none => bs.length % 2 ^ 32 | some _ => 0⟩

def readSegment (segId : ℕ) (d : WalDir) : Except String Bytes :=
  match d.get (.segment segId) with
  | none => .error ENOENT
  | some bs => .ok bs

def loadSegment (w : LogCleanWal) (segId : ℕ) : Program WalDir SegmentLoad := do
  match ← query (readSegment segId) with
  | .error e => return ⟨w, [], .returned (fileSystemError e), 0⟩
  | .ok bs =>
    match ← syscall with
    | some e => return ⟨w, [], .returned ⟨.FileCorrupt, e⟩, 0⟩
    | none =>
      if bs.length < magicNoLen then return ⟨w, [], .returned ⟨.FileCorrupt, fileCorruptError⟩, 0⟩
      else match ← syscall with
        | some e => return ⟨w, [], .returned (fileSystemError e), 0⟩
        | none =>
          if readUInt32 bs ≠ magicNo then
            return ⟨w, [], .returned ⟨.FileCorrupt, fileCorruptError⟩, 0⟩
          else loadSegmentContent judge w bs segId

structure WalLoad where
  wal : LogCleanWal
  batches : List (List WalEntry)
  result : Ended WalResult

/-- The size of the last segment of the list becomes the current size. -/
def loadSegments : LogCleanWal → List ℕ → Program WalDir WalLoad
  | w, [] => return ⟨w, [], .returned .ok⟩
  | w, segId :: rest => do
    let s ← loadSegment judge w segId
    if s.result ≠ .returned .ok then return ⟨s.wal, s.batches, s.result⟩
    else
      let r ← loadSegments
        (if rest = [] then { s.wal with curSegFileSize := s.fileSize } else s.wal) rest
      return { r with batches := s.batches ++ r.batches }

/-- `m_bLoaded` is set on every way out once the object is initialised. -/
def load (w : LogCleanWal) : Program WalDir WalLoad := do
  if !w.bInited then return ⟨w, [], .returned ⟨.Uninited, uninitializedError⟩⟩
  else match w.vInitSegments with
    | [] => return ⟨{ w with bLoaded := true }, [], .returned .ok⟩
    | first :: rest =>
      let r ← loadSegments judge { w with minSegmentId := first } (first :: rest)
      return { r with wal := { r.wal with bLoaded := true } }

end Load

/-! ## AppendEntry -/

def walRecord (version : UInt8) (entryId : ℕ) (content : Bytes) (startOffset : ℕ) : Bytes :=
  writeUInt32 content.length ++ [version] ++ writeUInt64 entryId ++ content ++ writeUInt32 startOffset

def appendError (rc : Code) (errmsg : String) : Ended AppendEntryResult := .returned ⟨rc, errmsg, 0⟩

/-- The end of `AppendEntry`: a new segment when the current one is full. -/
def appendDone (w : LogCleanWal) : Program WalDir (LogCleanWal × Ended AppendEntryResult) := do
  if w.conf.maxSegmentSize ≤ w.curSegFileSize then
    let (w, rs) ← createNewSegmentFile w
    if rs.rc ≠ .OK then return (w, appendError rs.rc rs.errmsg)
    else return (w, .returned ⟨.OK, "", w.currentEntryIdx⟩)
  else return (w, .returned ⟨.OK, "", w.currentEntryIdx⟩)

/-- What `AppendEntry` notes in the object once the record is on disk. -/
def noteAppended (w : LogCleanWal) (walEntrySize : ℕ) : LogCleanWal :=
  { w with
    curSegFileSize := (w.curSegFileSize + walEntrySize) % 2 ^ 32
    mpEntriesIdSegId :=
      Function.update w.mpEntriesIdSegId w.currentEntryIdx (some w.currentSegmentId) }

/-- Write the record of the entry id already counted and make it durable. -/
def appendRecord (w : LogCleanWal) (record : Bytes) (walEntrySize : ℕ) :
    Program WalDir (LogCleanWal × Ended AppendEntryResult) := do
  match w.currentSegFd with
  | none => return (w, appendError .FileSystemError (← staleErrno))
  | some fd =>
    let (fd, err) ← writeFully fd record
    let w := { w with currentSegFd := some fd }
    match err with
    | some e => return (w, appendError .FileSystemError e)
    | none =>
      match ← syscall with
      | some e => return (w, appendError .FileSystemError e)
      | none => appendDone (noteAppended w walEntrySize)

/-- `eb` is what `Encode` produced, `none` when it failed. -/
def appendEntry (w : LogCleanWal) (eb : Option Bytes) :
    Program WalDir (LogCleanWal × Ended AppendEntryResult) := do
  if !w.bInited then return (w, appendError .Uninited uninitializedError)
  else if !w.bLoaded then return (w, appendError .Unloaded unloadedError)
  else match eb with
    | none => return (w, appendError .EncodeEntryError encodeEntryError)
    | some content =>
      let rawEntrySize := content.length % 2 ^ 32
      let walEntrySize := (rawEntrySize + entryExtraFieldsSize) % 2 ^ 32
      if w.conf.maxEntrySize < walEntrySize then
        return (w, appendError .EntryBytesSizeOverflow entryBytesSizeOverflowError)
      else match MemPool.slotSize walEntrySize with
        | none => return (w, .crashed .badAlloc)
        | some capacity =>
          if capacity < rawEntrySize + entryExtraFieldsSize then return (w, .crashed .outOfBounds)
          else
            let w := { w with currentEntryIdx := (w.currentEntryIdx + 1) % 2 ^ 64 }
            appendRecord w (walRecord w.conf.writeEntryVersion w.currentEntryIdx
              (content.take rawEntrySize) w.curSegFileSize) walEntrySize

/-! ## Truncate -/

/-- Bytes from an offset, zero where the file ends before. -/
def readZeroed (bs : Bytes) (off n : ℕ) : Bytes :=
  ((bs.drop off).take n) ++ List.replicate (n - ((bs.drop off).take n).length) 0

/-- `load_segment_max_entry_id` on the bytes of the segment. -/
def segmentMaxEntryId (bs : Bytes) : Except WalResult ℕ :=
  if bs.length < startPosLen then .error (fileSystemError EINVAL)
  else
    let startPos := readUInt32 (readZeroed bs (bs.length - startPosLen) startPosLen)
    let buffer := readZeroed bs startPos entryHeaderLen
    let contentSize := readUInt32 buffer
    let entryId := readUInt64 (buffer.drop 5)
    let read := ((bs.drop startPos).take entryHeaderLen).length
    let checkStartPos := readUInt32 (readZeroed bs (startPos + read + contentSize) startPosLen)
    if startPos = checkStartPos then .ok entryId
    else .error ⟨.FileCorrupt, fileCorruptError⟩

/-- Every call in it reports its failure in the same way. -/
def loadSegmentMaxEntryId (segId : ℕ) : Program WalDir (Except WalResult ℕ) := do
  match ← query (readSegment segId) with
  | .error e => return .error (fileSystemError e)
  | .ok bs => return segmentMaxEntryId bs

/-- The removal loop over segments `i, …, i + n - 1`; the id of the last entry is read from
the last of them before it is removed. -/
def truncateLoop : ℕ → ℕ → Program WalDir (Except WalResult ℕ)
  | _, 0 => return .ok invalidEntryId
  | i, 1 => do
    match ← loadSegmentMaxEntryId i with
    | .error rs => return .error rs
    | .ok maxCleanEntryId =>
      match ← unlink (WalFile.segment i) with
      | some e => return .error (fileSystemError e)
      | none => return .ok maxCleanEntryId
  | i, n + 2 => do
    match ← unlink (WalFile.segment i) with
    | some e => return .error (fileSystemError e)
    | none => truncateLoop (i + 1) (n + 1)

/-- Erase the ids `i, …, i + n - 1`. -/
def eraseIds (m : ℕ → Option ℕ) : ℕ → ℕ → ℕ → Option ℕ
  | _, 0 => m
  | i, n + 1 => eraseIds (Function.update m i none) (i + 1) n

def truncateCleaned (w : LogCleanWal) (maxTruncateSegId maxCleanEntryId : ℕ) :
    Program WalDir (LogCleanWal × Ended WalResult) := do
  if maxCleanEntryId = ulongMax then return (w, .crashed .diverges)
  else
    let w := { w with
      mpEntriesIdSegId := eraseIds w.mpEntriesIdSegId w.lastTruncMaxIdx
        (maxCleanEntryId + 1 - w.lastTruncMaxIdx)
      lastTruncMaxIdx := maxCleanEntryId + 1
      minSegmentId := (maxTruncateSegId + 1) % 2 ^ 64 }
    let rs ← createTruncOkFlag
    if rs.rc ≠ .OK then return (w, .returned rs)
    else return (w, .returned (← cleanTruncStatus))

/-- The result of the removal loop; zero means that it removed nothing. -/
def truncateEnd (w : LogCleanWal) (maxTruncateSegId : ℕ) :
    Except WalResult ℕ → Program WalDir (LogCleanWal × Ended WalResult)
  | .error rs => return (w, .returned rs)
  | .ok maxCleanEntryId =>
    if maxCleanEntryId = invalidEntryId then
      return ({ w with minSegmentId := minEntryId }, .returned .ok)
    else truncateCleaned w maxTruncateSegId maxCleanEntryId

/-- The last segment with content is kept, so that the entry id survives a restart. -/
def truncateSegments (w : LogCleanWal) (segId : ℕ) :
    Program WalDir (LogCleanWal × Ended WalResult) := do
  let maxTruncateSegId := if segId = w.currentSegmentId then pred64 segId else segId
  match ← query (readSegment ((maxTruncateSegId + 1) % 2 ^ 64)) with
  | .error e => return (w, .returned (fileSystemError e))
  | .ok nextSeg =>
    let maxTruncateSegId :=
      if nextSeg.length = magicNoLen then pred64 maxTruncateSegId else maxTruncateSegId
    truncateEnd w maxTruncateSegId
      (← truncateLoop w.minSegmentId (maxTruncateSegId + 1 - w.minSegmentId))

def truncate (w : LogCleanWal) (id : ℕ) : Program WalDir (LogCleanWal × Ended WalResult) := do
  if !w.bInited then return (w, .returned ⟨.Uninited, uninitializedError⟩)
  else if !w.bLoaded then return (w, .returned ⟨.Unloaded, unloadedError⟩)
  else match w.mpEntriesIdSegId id with
    | none => return (w, .returned ⟨.InvalidEntryId, invalidEntryIdError⟩)
    | some segId =>
      let rs ← createTruncInfo id
      if rs.rc ≠ .OK then return (w, .returned rs)
      else truncateSegments w segId

/-! ## Size -/

def size (d : WalDir) : ℕ :=
  ((listSegmentsAsc d).map (fun id => ((d.get (.segment id)).getD []).length)).sum

end FlyingKV.Wal
