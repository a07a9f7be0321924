import FlyingKV.CallLife
import FlyingKV.EventRun
import FlyingKV.GroupedIndex
import FlyingKV.RpcServer

set_option autoImplicit false

/-!
# `ARpcSyncClient` and the timer

Calls of `sendMessage` on any number of clients, the threads that call `onRecvMessage` and
the thread of the timer, which all clients share. A step is what a thread does between two
acquisitions of a lock. `m_slRpcCtxs` of a client is held between `arrive` and `handle`, the
lock of the timer while it is firing, and the mutex of a context while its caller subscribes.

It is an assumption that every event on the timer has the one callback `s_cb`, so that an event
is known by its time. `MiniKV` puts an event with a callback of its own on the same timer; the
model is of a process without it.
-/
namespace FlyingKV.Rpc
open ByteOrder CallLife

structure Reply where
  id : ℕ
  /-- The memory from the first byte of the payload on. -/
  body : Bytes
deriving DecidableEq, Repr

/-- What `onRecvMessage` is called with. -/
inductive ClientNotice where
  | message (reply : Reply)
  | worker (peer : PeerInfo)
deriving DecidableEq, Repr

inductive CtxState where
  | Ok
  | Timeout
  | BrokenPipe
deriving DecidableEq, Repr

/-- How `sendMessage` ends: with a result or with one of its exceptions. -/
inductive Outcome where
  | nullptr
  | returned (reply : Reply)
  | badRpcHandlerId (code handlerId : ℕ)
  | rpcMessageCorrupt (handlerId : ℕ)
  | rpcServerInternal
  | rpcClientInternal
  | rpcClientSendTimeout
  | rpcBrokenPipe
deriving DecidableEq, Repr

/-- The part of an `RpcCtx` that changes. `timerEv` is the time in `timer_ev`. -/
structure RpcCtx where
  complete : Bool
  state : CtxState
  timerEv : ℕ
  nm : Option ClientNotice
deriving DecidableEq, Repr

/-- What `SendMessageAsync` fixes about a call: the object it was made on, the peer and the id. -/
structure CallInfo where
  client : ℕ
  peer : PeerInfo
  msgId : ℕ
deriving DecidableEq, Repr

/-- Where a call is in `sendMessage`. -/
inductive Phase where
  | idle
  /-- `SendMessageAsync` has queued the request. -/
  | queued
  /-- `recvMessage` has put the context into the tables. -/
  | registered
  /-- `s_cb` is initialised. -/
  | ready
  /-- The mutex of the context is locked. -/
  | locked
  /-- `SubscribeEventAfter` has returned an event at this time. -/
  | subscribed (when : ℕ)
  /-- In `cv->wait`. -/
  | waiting
  | done (outcome : Outcome)
deriving DecidableEq, Repr

/-- The caller holds the mutex of its context. -/
def Phase.holdsMtx : Phase → Bool
  | .locked | .subscribed _ => true
  | _ => false

/-- The thread of the timer: asleep, in the callback of the first event, or in it with a context
that is out of the tables. -/
inductive Firing where
  | idle
  | due
  | completing (k : ℕ)
deriving DecidableEq, Repr

inductive Cause where
  | response (reply : Reply)
  | brokenPipe
  | timeout
deriving DecidableEq, Repr

/-- Calls, contexts and clients go by numbers; a call and its context have the same one. -/
structure RpcSys where
  info : ℕ → CallInfo
  phase : ℕ → Phase
  ctx : ℕ → RpcCtx
  /-- `m_hmapRpcCtxs` and `m_hmapPeerRpcs` of each client. -/
  tables : ℕ → GroupedIndex ℕ PeerInfo ℕ
  /-- The notice whose handler holds `m_slRpcCtxs`. -/
  holder : ℕ → Option ClientNotice
  /-- `m_timeout` in nanoseconds. -/
  timeout : ℕ → ℕ
  /-- The timer's events by time, each with the call that subscribed it, which the source does not
  store. -/
  events : List (ℕ × ℕ)
  /-- The client and the id that `s_cb` has captured. -/
  cb : Option (ℕ × ℕ)
  firing : Firing
  /-- Contexts that a response has taken out of the tables and not yet completed. -/
  pending : List (ℕ × Reply)

/-- What a step shows: the call whose timer event fired, and the marks it left on calls. -/
structure Seen where
  fired : Option ℕ
  marks : List (ℕ × Mark Cause)

def Seen.none : Seen := ⟨.none, []⟩

def RpcSys.start (timeout : ℕ → ℕ) : RpcSys where
  info _ := ⟨0, .default, 0⟩
  phase _ := .idle
  ctx _ := ⟨false, .Ok, 0, none⟩
  tables _ := .empty
  holder _ := none
  timeout := timeout
  events := []
  cb := none
  firing := .idle
  pending := []

inductive RpcEvent where
  /-- `SendMessageAsync` for a call. -/
  | send (k : ℕ) (info : CallInfo)
  | register (k : ℕ)
  | initCb (k : ℕ)
  | lockMtx (k : ℕ)
  | subscribe (k now : ℕ)
  | await (k : ℕ)
  | wake (k : ℕ)
  /-- `onRecvMessage` gets `m_slRpcCtxs`. -/
  | arrive (c : ℕ) (notice : ClientNotice)
  /-- What it does under that lock. -/
  | handle (c : ℕ)
  /-- The context is completed with its response. -/
  | deliver (k : ℕ) (reply : Reply)
  /-- The first event of the timer is due. -/
  | expire (now : ℕ)
  /-- The part of `s_cb` under `m_slRpcCtxs`. -/
  | callback
  /-- The rest of it, and the removal of the event. -/
  | finish

/-! ## The timer -/

/-- `m_mapSubscribedEvents.insert`. -/
def insertEvent (events : List (ℕ × ℕ)) (when k : ℕ) : List (ℕ × ℕ) :=
  events.orderedInsert (fun a b => a.1 ≤ b.1) (when, k)

/-- `Timer::SubscribeEventAt`; a failure is an id whose time is 0. -/
def subscribeEventAt (events : List (ℕ × ℕ)) (when k : ℕ) : List (ℕ × ℕ) × ℕ :=
  if when ∈ events.map Prod.fst then (events, 0)
  else (insertEvent events when k, when)

def unsubscribeEvent (events : List (ℕ × ℕ)) (when : ℕ) : List (ℕ × ℕ) :=
  if when = 0 then events else events.eraseP fun ev => ev.1 == when

/-! ## The callers -/

/-- What the end of `recvMessage` makes of a response. -/
def Reply.outcome (r : Reply) : Outcome :=
  let serverCode := fieldBE 2 r.body
  let handlerId := fieldBE 2 (r.body.drop 2)
  if serverCode = RpcCode.ErrorNoHandler.toNat then .badRpcHandlerId serverCode handlerId
  else if serverCode = RpcCode.ErrorMsg.toNat then .rpcMessageCorrupt handlerId
  else if serverCode = RpcCode.ErrorInternal.toNat then .rpcServerInternal
  else .returned r

/-- What a caller does with its complete context; nothing good if there is no response in it. -/
def RpcCtx.outcome (x : RpcCtx) : Option Outcome :=
  match x.state, x.nm with
  | .Timeout, _ => some .rpcClientSendTimeout
  | .BrokenPipe, _ => some .rpcBrokenPipe
  | .Ok, some (.message r) => some r.outcome
  | .Ok, _ => none

namespace RpcSys

def setPhase (s : RpcSys) (k : ℕ) (p : Phase) : RpcSys := { s with phase := Function.update s.phase k p }

def setCtx (s : RpcSys) (k : ℕ) (x : RpcCtx) : RpcSys := { s with ctx := Function.update s.ctx k x }

def setTables (s : RpcSys) (c : ℕ) (t : GroupedIndex ℕ PeerInfo ℕ) : RpcSys :=
  { s with tables := Function.update s.tables c t }

def setHolder (s : RpcSys) (c : ℕ) (n : Option ClientNotice) : RpcSys :=
  { s with holder := Function.update s.holder c n }

/-- Nobody holds the mutex of the context. -/
def mtxFree (s : RpcSys) (k : ℕ) : Bool := !(s.phase k).holdsMtx

/-- `UnsubscribeEvent(rc->timer_ev)` need not wait: there is no event in it, or the lock is free. -/
def canUnsubscribe (s : RpcSys) (k : ℕ) : Bool := (s.ctx k).timerEv = 0 || s.firing = .idle

/-- The context out of both tables, as a response and a timeout do it. -/
def remove (s : RpcSys) (c k : ℕ) : RpcSys :=
  s.setTables c ((s.tables c).erase (s.info k).msgId (s.info k).peer k)

/-- Past the `while (!rc->complete)`. -/
def leave (s : RpcSys) (k : ℕ) : Option RpcSys :=
  if (s.ctx k).complete then (s.ctx k).outcome.map fun o => s.setPhase k (.done o)
  else some (s.setPhase k .waiting)

def sendStep (s : RpcSys) (k : ℕ) (info : CallInfo) : Option RpcSys :=
  if s.phase k ≠ .idle then none
  else if info.msgId = 0 then some (s.setPhase k (.done .nullptr))
  else some { s.setPhase k .queued with info := Function.update s.info k info }

def registerStep (s : RpcSys) (k : ℕ) : Option RpcSys :=
  let i := s.info k
  if s.phase k = .queued ∧ s.holder i.client = none then
    some ((s.setTables i.client ((s.tables i.client).insert i.msgId i.peer k)).setPhase k .registered)
  else none

def initCbStep (s : RpcSys) (k : ℕ) : Option RpcSys :=
  if s.phase k = .registered then
    some { s.setPhase k .ready with cb := some (s.cb.getD ((s.info k).client, (s.info k).msgId)) }
  else none

def lockMtxStep (s : RpcSys) (k : ℕ) : Option RpcSys :=
  if s.phase k = .ready then some (s.setPhase k .locked) else none

/-- `SubscribeEventAfter`. The clock is past the epoch. -/
def subscribeStep (s : RpcSys) (k now : ℕ) : Option RpcSys :=
  if s.phase k = .locked ∧ s.firing = .idle ∧ 0 < now then
    let (events, when) := subscribeEventAt s.events (now + s.timeout (s.info k).client) k
    if when = 0 then some ({ s with events }.setPhase k (.done .rpcClientInternal))
    else some ({ s with events }.setPhase k (.subscribed when))
  else none

def awaitStep (s : RpcSys) (k : ℕ) : Option RpcSys :=
  match s.phase k with
  | .subscribed when => (s.setCtx k { s.ctx k with timerEv := when }).leave k
  | _ => none

def wakeStep (s : RpcSys) (k : ℕ) : Option RpcSys :=
  if s.phase k = .waiting ∧ (s.ctx k).complete then s.leave k else none

/-! ## `onRecvMessage` -/

/-- The loop over the contexts of a peer; the notice is moved into the first one. -/
def breakPipe (c : ℕ) : List ℕ → Option ClientNotice → RpcSys → RpcSys
  | [], _, s => s
  | k :: ks, nm, s =>
    let t := s.setTables c ((s.tables c).eraseKey (s.info k).msgId)
    let t := { t with events := unsubscribeEvent s.events (s.ctx k).timerEv }
    breakPipe c ks none (t.setCtx k { s.ctx k with complete := true, state := .BrokenPipe, nm })

def brokenMarks (ks : List ℕ) : List (ℕ × Mark Cause) :=
  ks.flatMap fun k => [(k, .removed .brokenPipe), (k, .completed .brokenPipe)]

def handleMessage (s : RpcSys) (c : ℕ) (r : Reply) : Option (RpcSys × Seen) :=
  match (s.tables c).byKey r.id with
  | none => some (s.setHolder c none, .none)
  | some k =>
    if s.canUnsubscribe k then
      let t := { s with events := unsubscribeEvent s.events (s.ctx k).timerEv }
      let t := (t.remove c k).setHolder c none
      some ({ t with pending := s.pending ++ [(k, r)] }, ⟨.none, [(k, .removed (.response r))]⟩)
    else none

def handleWorker (s : RpcSys) (c : ℕ) (peer : PeerInfo) : Option (RpcSys × Seen) :=
  match (s.tables c).byGroup peer with
  | none => some (s.setHolder c none, .none)
  | some ks =>
    if ks.all fun k => s.canUnsubscribe k && s.mtxFree k then
      let t := breakPipe c ks (some (.worker peer)) s
      some ((t.setTables c ((t.tables c).dropGroup peer)).setHolder c none, ⟨.none, brokenMarks ks⟩)
    else none

def deliverStep (s : RpcSys) (k : ℕ) (r : Reply) : Option (RpcSys × Seen) :=
  if (k, r) ∈ s.pending ∧ s.mtxFree k then
    some ({ s.setCtx k { s.ctx k with complete := true, nm := some (.message r) } with
      pending := s.pending.erase (k, r) }, ⟨.none, [(k, .completed (.response r))]⟩)
  else none

/-! ## `Timer::process` and `s_cb` -/

def expireStep (s : RpcSys) (now : ℕ) : Option RpcSys :=
  match s.firing, s.events with
  | .idle, (when, _) :: _ => if when ≤ now then some { s with firing := .due } else none
  | _, _ => none

def callbackStep (s : RpcSys) : Option (RpcSys × Seen) :=
  match s.firing, s.events, s.cb with
  | .due, (_, owner) :: rest, some (c, id) =>
    if s.holder c = none then
      match (s.tables c).byKey id with
      | none => some ({ s with events := rest, firing := .idle }, ⟨some owner, []⟩)
      | some k => some ({ s.remove c k with firing := .completing k }, ⟨some owner, [(k, .removed .timeout)]⟩)
    else none
  | _, _, _ => none

def finishStep (s : RpcSys) : Option (RpcSys × Seen) :=
  match s.firing with
  | .completing k =>
    if s.mtxFree k then
      some ({ s.setCtx k { s.ctx k with complete := true, state := .Timeout } with
        events := s.events.tail, firing := .idle }, ⟨.none, [(k, .completed .timeout)]⟩)
    else none
  | _ => none

def step (s : RpcSys) : RpcEvent → Option (RpcSys × Seen)
  | .send k info => (s.sendStep k info).map (·, .none)
  | .register k => (s.registerStep k).map (·, .none)
  | .initCb k => (s.initCbStep k).map (·, .none)
  | .lockMtx k => (s.lockMtxStep k).map (·, .none)
  | .subscribe k now => (s.subscribeStep k now).map (·, .none)
  | .await k => (s.awaitStep k).map (·, .none)
  | .wake k => (s.wakeStep k).map (·, .none)
  | .arrive c notice => if s.holder c = none then some (s.setHolder c (some notice), .none) else none
  | .handle c =>
    match s.holder c with
    | none => none
    | some (.message r) => s.handleMessage c r
    | some (.worker peer) => s.handleWorker c peer
  | .deliver k r => s.deliverStep k r
  | .expire now => (s.expireStep now).map (·, .none)
  | .callback => s.callbackStep
  | .finish => s.finishStep

end RpcSys

end FlyingKV.Rpc
