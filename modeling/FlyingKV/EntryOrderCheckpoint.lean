import FlyingKV.CommonUtils
import FlyingKV.FileUtils
import FlyingKV.FramedStream
import FlyingKV.MemPoolSize

set_option autoImplicit false

/-!
# `EntryOrderCheckpoint`

The checkpoint of a store: one meta file with the id it was taken at and one file
with the entries, replaced through a second pair of files and three flag files.
-/
namespace FlyingKV.Checkpoint
open ByteOrder CommonUtils FileDir DiskProgram FileUtils FramedStream

def magicNo : ℕ := 0x736d6370
def magicNoLen : ℕ := 4
def entryHeaderLen : ℕ := 5
def entryExtraFieldsSize : ℕ := 9
def invalidEntryId : ℕ := 0

/-- `smcp`, `smcp.new`, `smcp.ok`, `.meta`, `.meta.new`, `smcp.start` and `.lock`. -/
inductive CpFile where
  | cp
  | newCp
  | saveOk
  | cpMeta
  | newCpMeta
  | startFlag
  | lock
deriving DecidableEq, Repr

abbrev CpDir := Dir CpFile

inductive Code where
  | OK
  | Uninited
  | Locking
  | FileCorrupt
  | FileSystemError
  | EncodeEntryError
  | DecodeEntryError
  | MissingFile
  | ForkError
  | WaitChildError
  | UnknownChildProcessError
deriving DecidableEq, Repr

def fileCorruptError : String := " file corrupt"
def uninitializedError : String := " has not been initialized"
def encodeEntryError : String := " encode entry error"
def decodeEntryError : String := " decode entry error"
def missingFileError : String := " file is missing"
def isLockingError : String := " is in locking state"
def unknownChildError : String := " unknown child process error"

structure CheckpointResult where
  rc : Code
  errmsg : String
deriving DecidableEq, Repr

def CheckpointResult.ok : CheckpointResult := ⟨.OK, ""⟩

/-- `maxId` has a meaning only with `OK`. -/
structure LoadCheckpointResult where
  rc : Code
  errmsg : String
  maxId : ℕ
deriving DecidableEq, Repr

structure EntryOrderCheckpointConfig where
  writeEntryVersion : UInt8
  batchReadSize : ℕ
  batchSize_lt : batchReadSize < 2 ^ 32

structure EntryOrderCheckpoint where
  conf : EntryOrderCheckpointConfig
  bInited : Bool

def create (conf : EntryOrderCheckpointConfig) : EntryOrderCheckpoint := ⟨conf, false⟩

/-- What an `IEntriesTraveller` gives away: its `MaxId`, and for each entry that `GetNextEntry`
returns the bytes `Encode` makes of it, `none` when it fails. -/
structure Traveller where
  maxId : ℕ
  entries : List (Option Bytes)
deriving DecidableEq, Repr

def fileSystemError (errmsg : String) : CheckpointResult := ⟨.FileSystemError, errmsg⟩

/-- The result of a call whose error is reported as a file system error. -/
def reported : Option String → CheckpointResult
  | some e => fileSystemError e
  | none => .ok

/-! ## The flag files and recovery -/

def isCompleted (d : CpDir) : Bool := !d.exist .lock && !d.exist .startFlag && !d.exist .saveOk

def loadMeta (errno : ℕ) (d : CpDir) : Except CheckpointResult ℕ :=
  match d.get .cpMeta with
  | none => .ok invalidEntryId
  | some entryIdStr =>
    match toUint46 errno entryIdStr with
    | none => .error ⟨.FileCorrupt, fileCorruptError⟩
    | some entryId => .ok entryId

/-- Run calls in order up to the first that fails. -/
def allOf : List (Program CpDir (Option String)) → Program CpDir CheckpointResult
  | [] => return .ok
  | m :: ms => do
    match ← m with
    | some e => return fileSystemError e
    | none => allOf ms

def replaceOldCheckpoint : Program CpDir CheckpointResult :=
  allOf [unlink .cpMeta, unlink .cp, renameFile .newCpMeta .cpMeta, renameFile .newCp .cp]

def cleanNewCpTmp : Program CpDir CheckpointResult :=
  allOf [unlink .newCpMeta, unlink .newCp, unlink .startFlag, unlink .saveOk]

def checkAndRecover : Program CpDir CheckpointResult := do
  if ← peek isCompleted then return .ok
  else if ← peek (·.exist .saveOk) then
    let rs ← replaceOldCheckpoint
    if rs.rc ≠ .OK then return rs
    else return reported (← unlink CpFile.saveOk)
  else cleanNewCpTmp

/-- `m_bInited` is set on every way out. -/
def init (c : EntryOrderCheckpoint) : Program CpDir (EntryOrderCheckpoint × CheckpointResult) := do
  let c := { c with bInited := true }
  match ← syscall with
  | some e => return (c, fileSystemError e)
  | none => return (c, ← checkAndRecover)

/-! ## Load -/

structure CheckpointLoad where
  batches : List (List Bytes)
  result : Ended LoadCheckpointResult

def loadError (rc : Code) (errmsg : String) : CheckpointLoad := ⟨[], .returned ⟨rc, errmsg, 0⟩⟩

def stopResult (maxId : ℕ) : Option Stop → Ended LoadCheckpointResult
  | none => .returned ⟨.OK, "", maxId⟩
  | some .corrupt => .returned ⟨.FileCorrupt, fileCorruptError, 0⟩
  | some .decodeError => .returned ⟨.DecodeEntryError, decodeEntryError, 0⟩
  | some (.readError e) => .returned ⟨.FileSystemError, e, 0⟩
  | some why => .crashed why

section Load
variable (judge : Judge)

def loadContent (c : EntryOrderCheckpoint) (bs : Bytes) (maxId : ℕ) : Program CpDir CheckpointLoad :=
  fun d faults =>
    let unread := bs.drop magicNoLen
    let r := loadLoop entryHeaderLen judge MemPool.slotSize c.conf.batchReadSize (unread.length + 1)
      magicNoLen [] unread faults
    ⟨[], d, r.faults, r.batches.map (·.map Frame.content), stopResult maxId r.stop⟩

def loadFile (c : EntryOrderCheckpoint) (maxId : ℕ) : Program CpDir CheckpointLoad := do
  match ← query (fun d => match d.get .cp with | none => .error ENOENT | some bs => .ok bs) with
  | .error e => return loadError .FileSystemError e
  | .ok bs =>
    match ← syscall with
    | some e => return loadError .FileCorrupt e
    | none =>
      if bs.length < magicNoLen then return loadError .FileCorrupt fileCorruptError
      else match ← syscall with
        | some e => return loadError .FileSystemError e
        | none =>
          if readUInt32 bs ≠ magicNo then return loadError .FileCorrupt fileCorruptError
          else loadContent judge c bs maxId

def load (errno : ℕ) (c : EntryOrderCheckpoint) : Program CpDir CheckpointLoad := do
  if !c.bInited then return loadError .Uninited uninitializedError
  else match ← peek (loadMeta errno) with
    | .error rs => return loadError rs.rc rs.errmsg
    | .ok entryId =>
      if entryId = invalidEntryId then return ⟨[], .returned ⟨.OK, "", invalidEntryId⟩⟩
      else if !(← peek (·.exist .cp)) then return loadError .MissingFile missingFileError
      else loadFile judge c entryId

end Load

/-! ## Save -/

def createNewMetaFile (id : ℕ) : Program CpDir CheckpointResult :=
  allOf [openTrunc .newCpMeta, do return (← writeFully ⟨.newCpMeta, 0⟩ (toString id)).2]

def createNewCheckpointFile : Program CpDir CheckpointResult :=
  allOf [openTrunc .newCp, do return (← writeFully ⟨.newCp, 0⟩ (writeUInt32 magicNo)).2]

def initNewCheckpoint (id : ℕ) : Program CpDir CheckpointResult := do
  match ← openCreate CpFile.startFlag with
  | some e => return fileSystemError e
  | none =>
    let rs ← createNewMetaFile id
    if rs.rc ≠ .OK then return rs
    else createNewCheckpointFile

def createOkFlag : Program CpDir CheckpointResult := allOf [openTrunc .saveOk, syscall]

def cpRecord (version : UInt8) (content : Bytes) (offset : ℕ) : Bytes :=
  writeUInt32 content.length ++ [version] ++ content ++ writeUInt32 offset

/-- The loop of `save_new_checkpoint`; `offset` is its 32-bit counter. -/
def saveEntries (version : UInt8) : Fd CpFile → ℕ → List (Option Bytes) →
    Program CpDir (Ended CheckpointResult)
  | _, _, [] => do
    match ← syscall with
    | some e => return .returned (fileSystemError e)
    | none => return .returned .ok
  | _, _, none :: _ => return .returned ⟨.EncodeEntryError, encodeEntryError⟩
  | fd, offset, some content :: rest => do
    let rawEntrySize := content.length % 2 ^ 32
    let walEntrySize := (rawEntrySize + entryExtraFieldsSize) % 2 ^ 32
    match MemPool.slotSize walEntrySize with
    | none => return .crashed .badAlloc
    | some capacity =>
      if capacity < rawEntrySize + entryExtraFieldsSize then return .crashed .outOfBounds
      else
        let (fd, err) ← writeFully fd (cpRecord version (content.take rawEntrySize) offset)
        match err with
        | some e => return .returned (fileSystemError e)
        | none => saveEntries version fd ((offset + walEntrySize) % 2 ^ 32) rest

def saveNewCheckpoint (version : UInt8) (entries : List (Option Bytes)) :
    Program CpDir (Ended CheckpointResult) := do
  match ← syscall with
  | some e => return .returned (fileSystemError e)
  | none => saveEntries version ⟨.newCp, magicNoLen⟩ magicNoLen entries

/-- `do_save_in_child` once the new checkpoint is saved. -/
def commitInChild : Program CpDir Unit := do
  let rs ← createOkFlag
  if rs.rc ≠ .OK then return ()
  else
    let rs ← allOf [syscall, unlink .lock, unlink .startFlag]
    if rs.rc ≠ .OK then return ()
    else
      let rs ← replaceOldCheckpoint
      if rs.rc ≠ .OK then return ()
      else
        let _ ← unlink CpFile.saveOk
        return ()

/-- The result of `save_new_checkpoint` is not looked at. -/
def saveInChild (version : UInt8) (traveller : Traveller) : Program CpDir Unit := do
  let rs ← checkAndRecover
  if rs.rc ≠ .OK then return ()
  else
    let rs ← initNewCheckpoint traveller.maxId
    if rs.rc ≠ .OK then return ()
    else
      match ← saveNewCheckpoint version traveller.entries with
      | .crashed _ => return ()
      | .returned _ => commitInChild

def doSaveInChild (errno : ℕ) (version : UInt8) (traveller : Traveller) : Program CpDir Unit := do
  let rs ← allOf [openCreate .lock, syscall]
  if rs.rc ≠ .OK then return ()
  else match ← peek (loadMeta errno) with
    | .error _ => return ()
    | .ok entryId =>
      if traveller.maxId ≤ entryId then
        let _ ← allOf [syscall, unlink .lock]
        return ()
      else saveInChild version traveller

/-- What the parent reports once the child is gone. -/
def doSaveInParent (errno : ℕ) : Program CpDir LoadCheckpointResult := do
  match ← syscall with
  | some e => return ⟨.WaitChildError, e, 0⟩
  | none =>
    if ← peek isCompleted then
      match ← peek (loadMeta errno) with
      | .error rs => return ⟨rs.rc, rs.errmsg, 0⟩
      | .ok entryId => return ⟨.OK, "", entryId⟩
    else return ⟨.UnknownChildProcessError, unknownChildError, 0⟩

/-- Who holds the lock file: this process (the set `s_LockingFiles`), or another one. -/
structure LockHolder where
  own : Bool
  other : Bool
deriving DecidableEq, Repr

/-- `FileUtils::IsLocking` on the lock file. -/
def isLocking (holder : LockHolder) : Program CpDir (Except String Bool) := do
  if holder.own then return .ok true
  else if !(← peek (·.exist .lock)) then return .ok false
  else match ← syscall with
    | some e => return .error e
    | none =>
      match ← syscall with
      | some e => return .error e
      | none => return .ok holder.other

/-- `Save`. What `Prepare` and `CompletePrepare` do around the fork is the caller's; `traveller`
is what the child finds in its copy of the memory. -/
def save (errno : ℕ) (c : EntryOrderCheckpoint) (holder : LockHolder) (traveller : Traveller) :
    Program CpDir LoadCheckpointResult := do
  if !c.bInited then return ⟨.Uninited, uninitializedError, 0⟩
  else match ← isLocking holder with
    | .error e => return ⟨.FileSystemError, e, 0⟩
    | .ok true => return ⟨.Locking, isLockingError, 0⟩
    | .ok false =>
      match ← syscall with
      | some e => return ⟨.ForkError, e, 0⟩
      | none =>
        doSaveInChild errno c.conf.writeEntryVersion traveller
        doSaveInParent errno

end FlyingKV.Checkpoint
