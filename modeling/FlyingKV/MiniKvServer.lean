import FlyingKV.EntryOrderCheckpoint
import FlyingKV.MiniKvReplay
import FlyingKV.WalRuns

set_option autoImplicit false

/-!
# `MiniKV` as a transition system

Any number of requests and the checker thread run side by side; an action lets one of
them take its next step. A step is what happens between two points at which another
thread can come in, so the steps interleave exactly as `m_walLock` and `m_kvLock` allow.
There are no I/O failures. An action is impossible when its thread has to wait, and when
it would end the process.
-/
namespace FlyingKV.MiniKv
open ByteOrder FileDir OrderedMap Wal Checkpoint EventRun

structure KVConfig where
  wal : LogCleanWalConfig
  checkpoint : EntryOrderCheckpointConfig
  doCheckpointWalSizeBytes : ℕ

inductive Request where
  | put (entry : Option Entry)
  | delete (key : Bytes)
  | get (key : Bytes)
deriving DecidableEq, Repr

inductive RespCode where
  | OK
  | InternalErr
  | ArgsErr
deriving DecidableEq, Repr

def serviceIsStoppedError : String := "service is stopped"
def entryOrKeyIsEmptyError : String := "entry or key is empty"
def keyIsEmptyError : String := "key is empty"

structure Response where
  rc : RespCode
  errmsg : String
  entry : Option Entry
deriving DecidableEq, Repr

/-- How far a request has come. From `locked` to `updated`, and when refused by the log, it
holds `m_walLock`. -/
inductive ReqPc where
  | wantLock (op : Op)
  | locked (op : Op)
  | appended (op : Op) (id : ℕ)
  | noted (op : Op) (id : ℕ)
  | updated (op : Op) (id : ℕ)
  | refused (errmsg : String)
  | getting (key : Bytes)
  | done (resp : Response)
deriving DecidableEq, Repr

/-- How far `check_wal` has come. `m_walLock` is held while `prepared` and `forked`, and from
`truncating` to `truncated`. -/
inductive CheckPc where
  | idle
  | sized
  | hasId (maxId : ℕ)
  | built (maxId : ℕ) (cur : Iter)
  | prepared (maxId : ℕ) (cur : Iter)
  | forked (traveller : Traveller)
  | waiting (traveller : Traveller)
  | saved (maxId : ℕ)
  | truncating (maxId : ℕ)
  | truncated
deriving DecidableEq, Repr

inductive Holder where
  | request (r : ℕ)
  | checker
deriving DecidableEq, Repr

structure Server where
  conf : KVConfig
  wal : WalSystem
  checkpoint : EntryOrderCheckpoint
  cpDir : CpDir
  kvs : Kvs
  applyId : ℕ
  stopped : Bool
  walLock : Option Holder
  requests : List ReqPc
  checker : CheckPc

/-- `check` carries the `errno` of the thread, `restart` those met by the two loads. -/
inductive Action where
  | invoke (req : Request)
  | advance (r : ℕ)
  | check (errno : ℕ)
  | stop
  | restart (errnoCp errnoWal : ℕ) (conf : KVConfig)

inductive Label where
  | tau
  | accepted (id : ℕ) (op : Op)
  | acked (id : ℕ) (op : Op)
  | getInvoked (r : ℕ) (key : Bytes)
  | getAnswered (r : ℕ) (key : Bytes) (found : Option Entry)
  | forked
  | saved (rs : LoadCheckpointResult)
  | started (ok : Bool)
deriving DecidableEq

/-! ## Requests -/

def failure (rc : RespCode) (errmsg : String) : ReqPc := .done ⟨rc, errmsg, none⟩

/-- The checks at the head of `Put`, `Delete` and `Get`. -/
def enter (stopped : Bool) (req : Request) : ReqPc :=
  if stopped then failure .InternalErr serviceIsStoppedError
  else match req with
    | .put none => failure .ArgsErr entryOrKeyIsEmptyError
    | .put (some entry) =>
      if entry.key = [] then failure .ArgsErr entryOrKeyIsEmptyError else .wantLock (.put entry)
    | .delete key => if key = [] then failure .ArgsErr keyIsEmptyError else .wantLock (.delete key)
    | .get key => if key = [] then failure .ArgsErr keyIsEmptyError else .getting key

def enterLabel (r : ℕ) : ReqPc → Label
  | .getting key => .getInvoked r key
  | _ => .tau

def invoke (s : Server) (req : Request) : Server × Label :=
  ({ s with requests := s.requests ++ [enter s.stopped req] },
    enterLabel s.requests.length (enter s.stopped req))

/-- Request `r` moves on to `pc`. -/
def moveTo (s : Server) (r : ℕ) (pc : ReqPc) : Server := { s with requests := s.requests.set r pc }

section
variable (codec : EntryCodec)

/-- `m_pWal->AppendEntry`. -/
def requestAppend (s : Server) (r : ℕ) (op : Op) : Option (Server × Label) :=
  match walStep (walJudge codec) s.wal (.append (some (op.encode codec))) with
  | some (w, .appended rs) =>
    if rs.rc = .OK then
      some (moveTo { s with wal := w } r (.appended op rs.entryId), .accepted rs.entryId op)
    else some (moveTo { s with wal := w } r (.refused rs.errmsg), .tau)
  | _ => none

/-- The next step of request `r`. -/
def advance (s : Server) (r : ℕ) : Option (Server × Label) :=
  match s.requests[r]? with
  | some (.wantLock op) =>
    if s.walLock = none then
      some (moveTo { s with walLock := some (.request r) } r (.locked op), .tau)
    else none
  | some (.locked op) => requestAppend codec s r op
  | some (.appended op id) =>
    some (moveTo { s with applyId := if s.applyId < id then id else s.applyId } r (.noted op id), .tau)
  | some (.noted op id) => some (moveTo { s with kvs := applyOp s.kvs op } r (.updated op id), .tau)
  | some (.updated op id) =>
    some (moveTo { s with walLock := none } r (.done ⟨.OK, "", none⟩), .acked id op)
  | some (.refused errmsg) =>
    some (moveTo { s with walLock := none } r (failure .InternalErr errmsg), .tau)
  | some (.getting key) =>
    some (moveTo s r (.done ⟨.OK, "", s.kvs.find key⟩), .getAnswered r key (s.kvs.find key))
  | some (.done _) => none
  | none => none

/-! ## The checker thread -/

/-- What `GetNextEntry` gives to `save_new_checkpoint` in the child, one call after the other;
none when the iterator is advanced from an erased element. -/
def travelEntries (kvs : Kvs) (cur : Iter) : Option (List Entry) := kvs.travel kvs.nodes.length cur

/-- `m_pCheckpoint->Save` behind the fork: the child writes, the parent waits for it. -/
def checkSave (s : Server) (errno : ℕ) (t : Traveller) : Server × Label :=
  let o := save errno s.checkpoint ⟨false, false⟩ t s.cpDir []
  ({ s with
      cpDir := o.disk
      checker := if o.value.rc = .OK then .saved o.value.maxId else .idle },
    .saved o.value)

/-- `m_pWal->Truncate`; an error is logged as fatal. -/
def checkTruncate (s : Server) (maxId : ℕ) : Option (Server × Label) :=
  match walStep (walJudge codec) s.wal (.truncate maxId) with
  | some (w, .truncated rs) =>
    if rs.rc = .OK then some ({ s with wal := w, checker := .truncated }, .tau) else none
  | _ => none

/-- The next step of `check_wal`. -/
def check (s : Server) (errno : ℕ) : Option (Server × Label) :=
  match s.checker with
  | .idle =>
    if s.stopped then none
    else if s.conf.doCheckpointWalSizeBytes ≤ Wal.size s.wal.dir then
      some ({ s with checker := .sized }, .tau)
    else some (s, .tau)
  | .sized => some ({ s with checker := .hasId s.applyId }, .tau)
  | .hasId maxId => some ({ s with checker := .built maxId s.kvs.begin }, .tau)
  | .built maxId cur =>
    if s.walLock = none then
      some ({ s with walLock := some .checker, checker := .prepared maxId cur }, .tau)
    else none
  | .prepared maxId cur =>
    match travelEntries s.kvs cur with
    | none => none
    | some entries =>
      some ({ s with checker := .forked ⟨maxId, entries.map (fun e => some (codec.serialize e))⟩ }, .forked)
  | .forked t => some ({ s with walLock := none, checker := .waiting t }, .tau)
  | .waiting t => some (checkSave s errno t)
  | .saved maxId =>
    if s.walLock = none then
      some ({ s with walLock := some .checker, checker := .truncating maxId }, .tau)
    else none
  | .truncating maxId => checkTruncate codec s maxId
  | .truncated => some ({ s with walLock := none, checker := .idle }, .tau)

/-! ## Start -/

/-- A constructed `MiniKV` on its two directories. -/
def construct (conf : KVConfig) (walDir : WalDir) (cpDir : CpDir) : Server where
  conf := conf
  wal := ⟨Wal.create conf.wal, walDir⟩
  checkpoint := Checkpoint.create conf.checkpoint
  cpDir := cpDir
  kvs := .empty
  applyId := 0
  stopped := true
  walLock := none
  requests := []
  checker := .idle

/-- The entry that the callback of the log's `Load` receives. -/
def loadedEntry (e : WalEntry) : Option LoadedEntry := (walDecode codec e.content).map (⟨e.id, ·⟩)

/-- `Start` from the point where the checkpoint is loaded. -/
def startWal (s : Server) (errnoWal : ℕ) : Option (Server × Bool) :=
  match walStep (walJudge codec) s.wal (.restart errnoWal s.conf.wal) with
  | some (w, .restarted rs batches) =>
    let r := replayBatches ⟨s.kvs, s.applyId⟩ (batches.map (·.filterMap (loadedEntry codec)))
    some ({ s with wal := w, kvs := r.kvs, applyId := r.applyId, stopped := rs.rc ≠ .OK },
      rs.rc = .OK)
  | _ => none

/-- `Start`; none when a load ends the process. -/
def start (s : Server) (errnoCp errnoWal : ℕ) : Option (Server × Bool) :=
  let i := Checkpoint.init s.checkpoint s.cpDir []
  let s := { s with checkpoint := i.value.1, cpDir := i.disk }
  if i.value.2.rc ≠ .OK then some (s, false)
  else
    let l := Checkpoint.load (cpJudge codec) errnoCp s.checkpoint s.cpDir []
    match l.value.result with
    | .crashed _ => none
    | .returned rs =>
      let s := { s with
        kvs := (l.value.batches.map (·.filterMap (cpDecode codec))).foldl onCheckpointLoadEntry s.kvs }
      if rs.rc ≠ .OK then some (s, false)
      else startWal codec { s with applyId := rs.maxId } errnoWal

def ReqPc.isDone : ReqPc → Bool
  | .done _ => true
  | _ => false

def CheckPc.isIdle : CheckPc → Bool
  | .idle => true
  | _ => false

/-- No operation is in progress. -/
def quiet (s : Server) : Bool :=
  s.requests.all ReqPc.isDone && decide (s.walLock = none) && s.checker.isIdle

/-- The process stops while nothing is in progress, and a new one starts on its directories. -/
def restart (s : Server) (errnoCp errnoWal : ℕ) (conf : KVConfig) : Option (Server × Label) :=
  if quiet s then
    (start codec (construct conf s.wal.dir s.cpDir) errnoCp errnoWal).map (fun o => (o.1, .started o.2))
  else none

def step (s : Server) : Action → Option (Server × Label)
  | .invoke req => some (invoke s req)
  | .advance r => advance codec s r
  | .check errno => check codec s errno
  | .stop => some ({ s with stopped := true }, .tau)
  | .restart errnoCp errnoWal conf => restart codec s errnoCp errnoWal conf

/-- A run of a server that is started on empty directories. -/
def kvHistory (conf : KVConfig) (errnoCp errnoWal : ℕ) (es : List Action) :
    Option (Server × List Label) :=
  (start codec (construct conf Dir.empty Dir.empty) errnoCp errnoWal).bind
    (fun o => run (step codec) o.1 es)

end

end FlyingKV.MiniKv
