import FlyingKV.NetMessage

set_option autoImplicit false

/-!
# `PosixTcpNetStackWorker`: `Recv` and `Send`

Both calls can stop after any byte and go on later from what they keep in the worker.
The memory pool always has a block. `wire` holds the bytes that the other end has
written and this end has not read; what `read` and `write` do is given by a list of
events, one for each call, and past its end the socket answers `EAGAIN`.
-/
namespace FlyingKV.Net
open ByteOrder

inductive NetWorkerState where
  | startToRcvHeader
  | rcvingHeader
  | startToRcvPayload
  | rcvingPayload
deriving DecidableEq, Repr

/-- One call of `read` or `write`: at most `k + 1` bytes go through, or none for now, or the peer
is gone, or there is another error. -/
inductive IoEvent where
  | take (k : ℕ)
  | again
  | closed
  | error (errmsg : String)
deriving DecidableEq, Repr

inductive ReadResult where
  | data (bs : Bytes)
  | closed
  | again
  | error (errmsg : String)
deriving DecidableEq, Repr

/-- `PosixTcpConnectionSocket::Read`. -/
def socketRead (wire : Bytes) (nbytes : ℕ) : IoEvent → ReadResult × Bytes
  | .take k =>
    if nbytes = 0 then (.closed, wire)
    else if wire = [] then (.again, wire)
    else (.data (wire.take (min (k + 1) nbytes)), wire.drop (min (k + 1) nbytes))
  | .again => (.again, wire)
  | .closed => (.closed, wire)
  | .error errmsg => (.error errmsg, wire)

/-- What `HandleMessage` or `handshake` is called with. The text of a broken connection is missing
where it is taken from a variable that was never set. -/
inductive Notice where
  | message (rm : RcvMessage)
  | handshake (rm : RcvMessage)
  | broken (errmsg : Option String)
  | peerClosed
deriving DecidableEq, Repr

/-! ## Recv -/

structure Receiver where
  headerBuffer : Buffer
  rcvState : NetWorkerState
  header : Header
  payloadBuffer : Option Buffer
  connected : Bool
deriving DecidableEq, Repr

/-- A worker whose handshake is over. -/
def Receiver.initial : Receiver := ⟨.new headerSize, .startToRcvHeader, ⟨0, 0, 0⟩, none, true⟩

structure RecvStep where
  receiver : Receiver
  wire : Bytes
  rc : Bool
  interrupt : Bool
  notice : Option Notice

/-- The macro `ParseHeader`. -/
def parseHeader (r : Receiver) (wire : Bytes) : RecvStep :=
  if r.headerBuffer.availableLength = r.headerBuffer.totalLength then
    match decodeMsgHeader r.headerBuffer with
    | none => ⟨r, wire, false, false, some (.broken none)⟩
    | some h => ⟨{ r with header := h, rcvState := .startToRcvPayload }, wire, true, false, none⟩
  else ⟨{ r with rcvState := .rcvingHeader }, wire, true, true, none⟩

/-- The macro `ProcessAfterRcvHeader`, after a read to the offset `off`. -/
def processAfterRcvHeader (r : Receiver) (off : ℕ) (wire : Bytes) : ReadResult → RecvStep
  | .closed => ⟨r, wire, false, false, some .peerClosed⟩
  | .data bs =>
    parseHeader { r with
      headerBuffer := ((r.headerBuffer.store off bs).checkAndInitPos).moveTailBack bs.length } wire
  | .again => ⟨r, wire, true, true, none⟩
  | .error errmsg => ⟨r, wire, false, true, some (.broken (some errmsg))⟩

/-- The macro `CheckPayload`. -/
def checkPayload (breakWhenRecvOne : Bool) (r : Receiver) (b : Buffer) (wire : Bytes) : RecvStep :=
  if b.availableLength = r.header.len then
    let rm : RcvMessage := ⟨r.header, b⟩
    ⟨{ r with rcvState := .startToRcvHeader, payloadBuffer := none }, wire, true, breakWhenRecvOne,
      some (if r.connected then .message rm else .handshake rm)⟩
  else ⟨{ r with rcvState := .rcvingPayload, payloadBuffer := some b }, wire, true, true, none⟩

/-- The macro `ProcessAfterRcvPayload`. -/
def processAfterRcvPayload (breakWhenRecvOne : Bool) (r : Receiver) (b : Buffer) (off : ℕ)
    (wire : Bytes) : ReadResult → RecvStep
  | .closed => ⟨{ r with payloadBuffer := some b }, wire, false, false, some .peerClosed⟩
  | .data bs =>
    checkPayload breakWhenRecvOne r (((b.store off bs).checkAndInitPos).moveTailBack bs.length) wire
  | .again => ⟨{ r with payloadBuffer := some b }, wire, true, true, none⟩
  | .error errmsg =>
    ⟨{ r with payloadBuffer := some b }, wire, false, true, some (.broken (some errmsg))⟩

/-- One round of the loop in `Recv`; `none` is the use of a null `m_payloadBuffer`. -/
def recvIter (breakWhenRecvOne : Bool) (r : Receiver) (wire : Bytes) (ev : IoEvent) : Option RecvStep :=
  match r.rcvState with
  | .startToRcvHeader =>
    let r := { r with headerBuffer := r.headerBuffer.bZero }
    let (n, wire) := socketRead wire r.headerBuffer.totalLength.toNat ev
    some (processAfterRcvHeader r 0 wire n)
  | .rcvingHeader =>
    let (n, wire) := socketRead wire r.headerBuffer.unusedSize ev
    some (processAfterRcvHeader r r.headerBuffer.tail wire n)
  | .startToRcvPayload =>
    let b := Buffer.new r.header.len
    let (n, wire) := socketRead wire b.totalLength.toNat ev
    some (processAfterRcvPayload breakWhenRecvOne r b 0 wire n)
  | .rcvingPayload =>
    match r.payloadBuffer with
    | none => none
    | some b =>
      let (n, wire) := socketRead wire b.unusedSize ev
      some (processAfterRcvPayload breakWhenRecvOne r b b.tail wire n)

/-- Each notice comes with the number of bytes that were left unread when it was given. -/
structure RecvResult where
  receiver : Receiver
  wire : Bytes
  rc : Bool
  notices : List (Notice × ℕ)
deriving DecidableEq, Repr

def recv (breakWhenRecvOne : Bool) : List IoEvent → Receiver → Bytes → Option RecvResult
  | [], r, wire =>
    (recvIter breakWhenRecvOne r wire .again).map fun s =>
      ⟨s.receiver, s.wire, s.rc, s.notice.toList.map (·, s.wire.length)⟩
  | ev :: evs, r, wire =>
    match recvIter breakWhenRecvOne r wire ev with
    | none => none
    | some s =>
      let notices := s.notice.toList.map (·, s.wire.length)
      if s.rc && !s.interrupt then
        (recv breakWhenRecvOne evs s.receiver s.wire).map fun o => { o with notices := notices ++ o.notices }
      else some ⟨s.receiver, s.wire, s.rc, notices⟩

/-! ## Send -/

/-- `m_bqMessages`, which has no limit, and `m_pSendingBuffer`. -/
structure Sender where
  messages : List SndMessage
  sendingBuffer : Option Buffer
deriving DecidableEq, Repr

def Sender.initial : Sender := ⟨[], none⟩

inductive SendEnd where
  | returned (rc : Bool)
  | thrown (what : String)
deriving DecidableEq, Repr

structure SendResult where
  sender : Sender
  wire : Bytes
  ended : SendEnd
  notices : List Notice
deriving DecidableEq, Repr

/-- What a round of the loop in `Send` finds to write. -/
inductive Load where
  | idle
  | ready (s : Sender) (b : Buffer)
  | thrown (s : Sender) (what : String)

/-- Nothing is being sent: take the next message, if there is one. -/
def Sender.tryPop (s : Sender) : Load :=
  match s.messages with
  | [] => .idle
  | m :: ms =>
    match m.encode with
    | .ok b => .ready ⟨ms, some b⟩ b
    | .error what => .thrown { s with messages := ms } what

def Sender.load (s : Sender) : Load :=
  match s.sendingBuffer with
  | some b => if 0 < b.availableLength then .ready s b else s.tryPop
  | none => s.tryPop

/-- `Send`. An encoded message is never empty, so that a round that takes one from the queue is
followed by a round that writes, and the two are one round here. -/
def send : List IoEvent → Sender → Bytes → SendResult
  | [], s, wire =>
    match s.load with
    | .thrown s what => ⟨s, wire, .thrown what, []⟩
    | .idle => ⟨s, wire, .returned true, []⟩
    | .ready s _ => ⟨s, wire, .returned true, []⟩
  | ev :: evs, s, wire =>
    match s.load with
    | .thrown s what => ⟨s, wire, .thrown what, []⟩
    | .idle => ⟨s, wire, .returned true, []⟩
    | .ready s b =>
      match ev with
      | .again => ⟨s, wire, .returned true, []⟩
      | .closed => ⟨{ s with sendingBuffer := none }, wire, .returned false, [.peerClosed]⟩
      | .error errmsg =>
        ⟨{ s with sendingBuffer := none }, wire, .returned false, [.broken (some errmsg)]⟩
      | .take k =>
        let n := min (k + 1) b.availableLength.toNat
        let b' := b.moveHeadBack n
        send evs { s with sendingBuffer := if b'.availableLength ≤ 0 then none else some b' }
          (wire ++ b.fromPos.take n)

end FlyingKV.Net
