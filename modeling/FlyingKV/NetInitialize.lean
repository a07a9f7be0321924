import FlyingKV.NetHandshake
import FlyingKV.NetReceive

set_option autoImplicit false

/-!
# `Initialize`, byte by byte

The handshake runs on a blocking socket. `handshake` is called from inside `Recv(true)` and calls
`Recv(true)` itself, on the same buffers. What each `read` returns is given by a list of events, as
for `Recv`; here one that would have to wait blocks the thread. What each `Send` returns is a list
too.
-/
namespace FlyingKV.Net
open ByteOrder

/-- How a call ends: it returns, or the thread waits inside `read`, fails the assertion of
`MemPool::Get`, or uses a null `m_payloadBuffer`. -/
inductive RecvEnd where
  | returned (rc : Bool)
  | blocked
  | asserted
  | nullBuffer
deriving DecidableEq, Repr

/-- A call of `Recv(true)` that has returned: its result and how many messages it handled itself. -/
structure RecvCall where
  rc : Bool
  handled : ℕ
deriving DecidableEq, Repr

/-- A worker inside `Initialize`. The last four fields keep what has happened: whether the registry
has accepted the handler, which calls of `Recv` have returned, which payloads were thrown away with
bytes in them, and which messages `handshake` was called with. -/
structure Opening where
  worker : Worker
  receiver : Receiver
  wire : Bytes
  sends : List Bool
  behind : Bytes
  handler : ℕ
  bStopped : Bool
  registry : UniqueWorkerManager
  accepted : Bool
  calls : List RecvCall
  dropped : List Buffer
  handled : List (ConnectionState × RcvMessage)

namespace Opening

/-- `Send`, where the worker is about to call it. -/
def send (c : Opening) : Opening :=
  match c.worker.pc with
  | .sending ok => { c with worker := (c.worker.send ok (c.sends.headD true) 0).1, sends := c.sends.tail }
  | _ => c

/-- `NBSocketService::on_logic_connect`, where the worker is about to call it. -/
def register (c : Opening) : Opening :=
  match c.worker.pc with
  | .registering =>
    if c.bStopped then { c with worker := c.worker.logicConnected false }
    else
      let put := c.registry.putWorkerEventHandler c.handler (c.worker.logicPeer.getD ⟨"", 0⟩) c.worker.realPeer
      { c with
        worker := c.worker.logicConnected put.2
        registry := put.1
        accepted := c.accepted || put.2 }
  | _ => c

/-- The answer of the server once it knows what the registry said. -/
def answer (c : Opening) : Opening :=
  match c.worker.pc with
  | .answering ok =>
    { c with worker := { c.worker.insertMessage (connectResponse (if ok then .OK else .ERROR)) with
        pc := .sending ok } }
  | _ => c

/-- The message reaches `handshake`. -/
def hear (c : Opening) (rm : RcvMessage) : Opening :=
  let heard : Worker := { c.worker with heard := c.worker.heard ++ [.handshake rm.payload] }
  { c with
    worker := heard.handshake rm.payload c.behind
    handled := c.handled ++ [(c.worker.connState, rm)] }

/-- `handshake` up to its `Recv(true)`, or all of it where there is none. -/
def respond (c : Opening) (rm : RcvMessage) : Opening :=
  let c := (c.hear rm).send.register.answer.send
  { c with receiver := { c.receiver with connected := decide (c.worker.connState = .Connected) } }

/-- The end of `handshake` behind its `Recv(true)`. -/
def afterRecv : RecvEnd × Opening → RecvEnd × Opening
  | (.returned true, c) => (.returned true, c)
  | (.returned false, c) => (.returned true, { c with worker := { c.worker with pc := .completed } })
  | halted => halted

/-- `handshake`, with the `Recv(true)` that it may call. -/
def handshake (recv : Opening → RecvEnd × Opening) (c : Opening) (rm : RcvMessage) : RecvEnd × Opening :=
  let c := c.respond rm
  match c.worker.pc with
  | .receiving => afterRecv (recv c)
  | _ => (.returned true, c)

/-- `m_payloadBuffer` is set to null, even if a payload is being received by now. -/
def forget (c : Opening) : Opening :=
  { c with
    receiver := { c.receiver with payloadBuffer := none }
    dropped := c.dropped ++
      if c.receiver.rcvState = .rcvingPayload then c.receiver.payloadBuffer.toList else [] }

def returns (c : Opening) (rc : Bool) (handled : ℕ) : RecvEnd × Opening :=
  (.returned rc, { c with calls := c.calls ++ [⟨rc, handled⟩] })

/-- The end of `CheckPayload` behind `handshake`. -/
def afterHandshake : RecvEnd × Opening → RecvEnd × Opening
  | (.returned _, c) => c.forget.returns true 1
  | halted => halted

end Opening

/-- The round asks the memory pool for no bytes. -/
def Receiver.allocFails (r : Receiver) : Bool :=
  r.rcvState = .startToRcvPayload && (MemPool.slotSize r.header.len).isNone

/-- On a blocking socket `read` does not return without an answer. -/
def blocks (wire : Bytes) : IoEvent → Bool
  | .take _ => wire = []
  | .again => true
  | .closed => false
  | .error _ => false

/-- `Recv(true)` before the connection is established. -/
def recvTrue : List IoEvent → Opening → RecvEnd × Opening
  | [], c => if c.receiver.allocFails then (.asserted, c) else (.blocked, c)
  | ev :: evs, c =>
    if c.receiver.allocFails then (.asserted, c)
    else if blocks c.wire ev then (.blocked, c)
    else match recvIter true c.receiver c.wire ev with
      | none => (.nullBuffer, c)
      | some s =>
        let c := { c with receiver := s.receiver, wire := s.wire }
        match s.notice with
        | some (.handshake rm) => Opening.afterHandshake (c.handshake (recvTrue evs) rm)
        | _ => if s.rc && !s.interrupt then recvTrue evs c else c.returns s.rc 0

/-- How `Initialize` ends; `waiting` is the wait for `m_bConnHandShakeCompleted`. -/
inductive InitEnd where
  | returned (ok : Bool)
  | waiting
  | halted (why : RecvEnd)
deriving DecidableEq, Repr

namespace Opening

/-- `Initialize` up to its `Recv(true)`. -/
def enter (c : Opening) : Opening :=
  match c.worker.ct with
  | .Client =>
    { c with worker := { c.worker.insertMessage (connectRequest c.worker.logicPort) with pc := .sending true } }.send
  | .Server => { c with worker := { c.worker with pc := .receiving } }

def runInitialize (evs : List IoEvent) (c : Opening) : InitEnd × Opening :=
  let c := c.enter
  if c.worker.pc = .completed then (.returned false, c)
  else match recvTrue evs c with
    | (.returned false, c) => (.returned false, c)
    | (.returned true, c) =>
      if c.worker.pc = .completed then (.returned (decide (c.worker.connState = .Connected)), c)
      else (.waiting, c)
    | (halted, c) => (.halted halted, c)

/-- A worker for which nothing has happened yet. -/
structure Fresh (c : Opening) : Prop where
  worker : c.worker = .client c.worker.realPeer c.worker.logicPort ∨ c.worker = .server c.worker.realPeer
  receiver : c.receiver = { Receiver.initial with connected := false }
  accepted : c.accepted = false
  calls : c.calls = []
  dropped : c.dropped = []
  handled : c.handled = []

end Opening

/-! ## The registry behind a failed connection -/

/-- Some map refers to the handler or to the real peer. -/
def UniqueWorkerManager.Refers (m : UniqueWorkerManager) (handler : ℕ) (realNpt : NetAddr) : Prop :=
  (∃ lnpt, m.workers lnpt = some handler) ∨ m.rpLp realNpt ≠ none ∨ m.handlerRp handler ≠ none ∨
    ∃ other, m.handlerRp other = some realNpt

/-- The registry is as it was, or it has accepted the handler. -/
structure Opening.Tracks (c : Opening) (m : UniqueWorkerManager) (handler : ℕ) : Prop where
  same : c.handler = handler
  registry : if c.accepted then ∃ lnpt, c.registry.workers lnpt = some handler else c.registry = m

namespace Opening.Tracks
variable {c : Opening} {m : UniqueWorkerManager} {h : ℕ}

/-- Steps that leave the registry alone. -/
theorem of_eq {c' : Opening} (hc : c.Tracks m h) (hh : c'.handler = c.handler)
    (hr : c'.registry = c.registry) (ha : c'.accepted = c.accepted) : c'.Tracks m h :=
  ⟨hh.trans hc.same, by rw [hr, ha]; exact hc.registry⟩

theorem send (hc : c.Tracks m h) : c.send.Tracks m h := by
  unfold Opening.send
  split
  · exact hc.of_eq rfl rfl rfl
  · exact hc

theorem answer (hc : c.Tracks m h) : c.answer.Tracks m h := by
  unfold Opening.answer
  split
  · exact hc.of_eq rfl rfl rfl
  · exact hc

theorem register (hc : c.Tracks m h) : c.register.Tracks m h := by
  unfold Opening.register
  split
  · split_ifs
    · exact hc.of_eq rfl rfl rfl
    · generalize c.worker.logicPeer.getD ⟨"", 0⟩ = lnpt
      refine ⟨hc.same, ?_⟩
      have hreg := hc.registry
      unfold UniqueWorkerManager.putWorkerEventHandler
      cases hw : c.registry.workers lnpt with
      | some other =>
        simp only [Bool.or_false]
        exact hreg
      | none =>
        simp only [Bool.or_true, if_true]
        exact ⟨lnpt, by rw [Function.update_self, hc.same]⟩
  · exact hc

theorem respond (hc : c.Tracks m h) (rm : RcvMessage) : (c.respond rm).Tracks m h := by
  have hheard : (c.hear rm).Tracks m h := hc.of_eq rfl rfl rfl
  exact hheard.send.register.answer.send.of_eq rfl rfl rfl

theorem handshake {recv : Opening → RecvEnd × Opening} (hrecv : ∀ c : Opening, c.Tracks m h → (recv c).2.Tracks m h)
    (hc : c.Tracks m h) (rm : RcvMessage) : (c.handshake recv rm).2.Tracks m h := by
  unfold Opening.handshake
  dsimp only
  split
  · have hinner := hrecv _ (hc.respond rm)
    generalize recv (c.respond rm) = o at hinner ⊢
    unfold Opening.afterRecv
    split
    · exact hinner
    · exact hinner.of_eq rfl rfl rfl
    · exact hinner
  · exact hc.respond rm

theorem afterHandshake {o : RecvEnd × Opening} (ho : o.2.Tracks m h) : (Opening.afterHandshake o).2.Tracks m h := by
  unfold Opening.afterHandshake
  split
  · exact ho.of_eq rfl rfl rfl
  · exact ho

theorem recvTrue (evs : List IoEvent) (hc : c.Tracks m h) : (recvTrue evs c).2.Tracks m h := by
  induction evs generalizing c with
  | nil =>
    unfold Net.recvTrue
    split_ifs
    · exact hc
    · exact hc
  | cons ev evs ih =>
    unfold Net.recvTrue
    split_ifs
    · exact hc
    · exact hc
    · split
      · exact hc
      · rename_i s hs
        have hround : Opening.Tracks { c with receiver := s.receiver, wire := s.wire } m h :=
          hc.of_eq rfl rfl rfl
        dsimp only
        split
        · exact afterHandshake (hround.handshake (fun _ hc => ih hc) _)
        · split_ifs
          · exact ih hround
          · exact hround.of_eq rfl rfl rfl

theorem enter (hc : c.Tracks m h) : c.enter.Tracks m h := by
  unfold Opening.enter
  split
  · exact Opening.Tracks.send (hc.of_eq rfl rfl rfl)
  · exact hc.of_eq rfl rfl rfl

theorem runInitialize (evs : List IoEvent) (hc : c.Tracks m h) : (c.runInitialize evs).2.Tracks m h := by
  unfold Opening.runInitialize
  dsimp only
  split_ifs
  · exact hc.enter
  · have hrecv := hc.enter.recvTrue evs
    split
    · rename_i heq
      rwa [heq] at hrecv
    · rename_i heq
      rw [heq] at hrecv
      split_ifs
      · exact hrecv
      · exact hrecv
    · rename_i heq
      rwa [heq] at hrecv

end Opening.Tracks

/-! ## What `Recv(true)` meets -/

/-- What the bytes and the way they are cut hold for a `Recv(true)` that starts between two frames:
it waits; the connection or the header is broken; a `read` returns some of the bytes it asked for,
but not all; a header announces no payload; or header and payload come whole. -/
inductive Meets where
  | nothing
  | broken
  | short
  | empty
  | message (hdr payload : Bytes) (evs : List IoEvent) (wire : Bytes)
deriving DecidableEq, Repr

/-- The `read` of the payload, behind a header that is let through. -/
def meetsPayload (hdr : Bytes) : List IoEvent → Bytes → Meets
  | [], _ => .nothing
  | .again :: _, _ => .nothing
  | .closed :: _, _ => .broken
  | .error _ :: _, _ => .broken
  | .take k :: evs, wire =>
    if wire = [] then .nothing
    else if min (k + 1) wire.length < (headerOf hdr).len then .short
    else .message hdr (wire.take (headerOf hdr).len) evs (wire.drop (headerOf hdr).len)

def meets : List IoEvent → Bytes → Meets
  | [], _ => .nothing
  | .again :: _, _ => .nothing
  | .closed :: _, _ => .broken
  | .error _ :: _, _ => .broken
  | .take k :: evs, wire =>
    if wire = [] then .nothing
    else if min (k + 1) wire.length < headerSize then .short
    else if ¬ (headerOf (wire.take headerSize)).Valid then .broken
    else if (headerOf (wire.take headerSize)).len = 0 then .empty
    else meetsPayload (wire.take headerSize) evs (wire.drop headerSize)

/-- The worker is between two frames of the handshake. -/
structure Opening.Idle (c : Opening) : Prop where
  keeps : c.receiver.Keeps []
  connected : c.receiver.connected = false
  payload : c.receiver.payloadBuffer = none

/-- The connection once `Recv` has read up to `wire`. -/
abbrev Opening.upTo (c : Opening) (r : Receiver) (wire : Bytes) : Opening := { c with receiver := r, wire := wire }

/-- The call does what it meets. -/
inductive RecvMeets (c : Opening) : Meets → RecvEnd × Opening → Prop
  | nothing (r : Receiver) (wire : Bytes) :
      RecvMeets c .nothing (.blocked, c.upTo r wire)
  | broken (r : Receiver) (wire : Bytes) (state : r.rcvState ≠ .rcvingPayload) :
      RecvMeets c .broken ((c.upTo r wire).returns false 0)
  | short (r : Receiver) (wire : Bytes) :
      RecvMeets c .short ((c.upTo r wire).returns true 0)
  | empty (r : Receiver) (wire : Bytes) (read : wire.length + headerSize ≤ c.wire.length) :
      RecvMeets c .empty (.asserted, c.upTo r wire)
  | message {hdr payload : Bytes} {evs : List IoEvent} {wire : Bytes} (r : Receiver) (rm : RcvMessage)
      (header : rm.header = headerOf hdr) (content : rm.payload = payload) (wellFormed : rm.WellFormed)
      (length : payload.length = (headerOf hdr).len)
      (idle : (c.upTo r wire).Idle) :
      RecvMeets c (.message hdr payload evs wire)
        (Opening.afterHandshake ((c.upTo r wire).handshake (recvTrue evs) rm))

theorem slotSize_isNone {n : ℕ} (h : n ≤ maxMsgPayloadSize) : (MemPool.slotSize n).isNone = decide (n = 0) := by
  by_cases h0 : n = 0
  · subst h0
    rfl
  · obtain ⟨cap, hcap, -⟩ := MemPool.slotSize_of_le (Nat.pos_of_ne_zero h0) (h.trans (by decide))
    rw [hcap, decide_eq_false h0]
    rfl

/-- The pool refuses a block just when the header announces no payload. -/
theorem allocFails_eq {r : Receiver} {held : Bytes} (h : r.Keeps held) :
    r.allocFails = decide (wanted held = 0) := by
  unfold Receiver.allocFails
  cases h.inner with
  | idle state =>
    rw [state]
    rfl
  | header state ne_nil lt filled =>
    rw [state, wanted_of_lt lt]
    simp only [reduceCtorEq, decide_false, Bool.false_and]
    rw [eq_comm, decide_eq_false_iff_not]
    omega
  | start state all header valid =>
    have hwanted := wanted_payload all []
    rw [List.append_nil, List.length_nil, Nat.sub_zero] at hwanted
    rw [state, header, slotSize_isNone valid.2, hwanted]
    rfl
  | payload state all header valid ne_nil lt buffer filled =>
    rw [state, wanted_payload all]
    simp only [reduceCtorEq, decide_false, Bool.false_and]
    rw [eq_comm, decide_eq_false_iff_not]
    omega

theorem recvTrue_asserted {c : Opening} (h : c.receiver.allocFails = true) (evs : List IoEvent) :
    recvTrue evs c = (.asserted, c) := by
  cases evs with
  | nil => rw [recvTrue, if_pos h]
  | cons ev evs => rw [recvTrue, if_pos h]

theorem recvTrue_round {ev : IoEvent} {evs : List IoEvent} {c : Opening} {s : RecvStep}
    (halloc : c.receiver.allocFails = false) (hblocks : blocks c.wire ev = false)
    (hs : recvIter true c.receiver c.wire ev = some s) (hnotice : ∀ rm, s.notice ≠ some (.handshake rm)) :
    recvTrue (ev :: evs) c =
      if s.rc && !s.interrupt then recvTrue evs (c.upTo s.receiver s.wire)
      else (c.upTo s.receiver s.wire).returns s.rc 0 := by
  rw [recvTrue]
  simp only [halloc, hblocks, hs, Bool.false_eq_true, if_false]

theorem RecvMeets.of_receiver {c : Opening} {r : Receiver} {wire : Bytes} {m : Meets} {o : RecvEnd × Opening}
    (h : RecvMeets (c.upTo r wire) m o) (hle : wire.length ≤ c.wire.length) :
    RecvMeets c m o := by
  cases h with
  | nothing r wire => exact .nothing r wire
  | broken r wire state => exact .broken r wire state
  | short r wire => exact .short r wire
  | empty r wire read => exact .empty r wire (le_trans read hle)
  | message r rm header content wellFormed length idle => exact .message r rm header content wellFormed length idle

theorem socketRead_take {wire : Bytes} {n k : ℕ} (hn : 0 < n) (hw : wire ≠ []) :
    socketRead wire n (.take k) = (.data (wire.take (min (k + 1) n)), wire.drop (min (k + 1) n)) := by
  rw [socketRead, if_neg hn.ne', if_neg hw]

theorem recvTrue_broken {c : Opening} {held : Bytes} (hc : c.receiver.Keeps held) (hwant : 0 < wanted held)
    (hle : held.length ≤ headerSize) {ev : IoEvent} (hev : ev = .closed ∨ ∃ e, ev = .error e) (evs : List IoEvent) :
    RecvMeets c .broken (recvTrue (ev :: evs) c) := by
  have halloc : c.receiver.allocFails = false := by
    rw [allocFails_eq hc, decide_eq_false hwant.ne']
  obtain ⟨s, hs, -, hgives⟩ := recvIter_gives true hc hwant c.wire ev
  rcases hev with rfl | ⟨e, rfl⟩
  · cases hgives with
    | closed rc notice kept =>
      rw [recvTrue_round halloc rfl hs (by simp [notice]), rc]
      exact .broken _ _ (by rw [kept]; exact hc.not_rcvingPayload hle)
  · cases hgives with
    | error rc notice kept =>
      rw [recvTrue_round halloc rfl hs (by simp [notice]), rc]
      exact .broken _ _ (by rw [kept]; exact hc.not_rcvingPayload hle)

theorem recvTrue_payload {c : Opening} {hdr : Bytes} (hc : c.receiver.Keeps hdr) (hall : hdr.length = headerSize)
    (hlen : (headerOf hdr).len ≠ 0) (hconn : c.receiver.connected = false) (evs : List IoEvent) :
    RecvMeets c (meetsPayload hdr evs c.wire) (recvTrue evs c) := by
  have hwanted : wanted hdr = (headerOf hdr).len := by
    have := wanted_payload hall []
    rwa [List.append_nil] at this
  have hwant : 0 < wanted hdr := by omega
  have halloc : c.receiver.allocFails = false := by
    rw [allocFails_eq hc, decide_eq_false hwant.ne']
  cases evs with
  | nil =>
    rw [recvTrue, halloc]
    exact .nothing c.receiver c.wire
  | cons ev evs =>
    cases ev with
    | again =>
      rw [recvTrue, halloc]
      exact .nothing c.receiver c.wire
    | closed => exact recvTrue_broken hc hwant hall.le (.inl rfl) evs
    | error e => exact recvTrue_broken hc hwant hall.le (.inr ⟨e, rfl⟩) evs
    | take k =>
      by_cases hw : c.wire = []
      · rw [recvTrue, halloc]
        simp only [meetsPayload, blocks, hw, if_true, decide_true]
        exact .nothing c.receiver _
      · have hpos : 0 < c.wire.length := List.length_pos_iff.mpr hw
        obtain ⟨s, hs, hwire, hgives⟩ := recvIter_gives true hc hwant c.wire (.take k)
        rw [socketRead_take hwant hw, hwanted] at hwire hgives
        have hblocks : blocks c.wire (.take k) = false := by simp [blocks, hw]
        have hbs : (c.wire.take (min (k + 1) (headerOf hdr).len)).length =
            min (min (k + 1) (headerOf hdr).len) c.wire.length := List.length_take
        simp only [meetsPayload, if_neg hw]
        cases hgives with
        | rejects all invalid rc notice kept =>
          rw [List.length_append, hall, hbs] at all
          omega
        | reads rc notice interrupt unfinished same keeps =>
          have hshort : min (k + 1) c.wire.length < (headerOf hdr).len := by
            rw [List.length_append, hall, hbs, hwanted] at unfinished
            omega
          rw [if_pos hshort, recvTrue_round halloc hblocks hs (by simp [notice]), rc, interrupt,
            decide_eq_true (by rw [hbs, hwanted]; omega)]
          exact .short _ _
        | @completes hdr' payload' _ rm _ bytes all valid length header content wellFormed rc interrupt notice
            forgotten same keeps =>
          obtain ⟨rfl, rfl⟩ := List.append_inj bytes (hall.trans all.symm)
          have hlong : ¬ min (k + 1) c.wire.length < (headerOf hdr).len := by
            rw [hbs] at length
            omega
          have hmin : min (k + 1) (headerOf hdr).len = (headerOf hdr).len := by omega
          rw [hmin] at hwire length content
          rw [if_neg hlong, recvTrue]
          simp only [halloc, hblocks, hs, Bool.false_eq_true, if_false, notice, hconn, hwire]
          exact .message s.receiver rm header content wellFormed length ⟨keeps, same.trans hconn, forgotten⟩

/-- The call does what it meets. -/
theorem recvTrue_meets {c : Opening} (hc : c.Idle) (evs : List IoEvent) :
    RecvMeets c (meets evs c.wire) (recvTrue evs c) := by
  have hwant : 0 < wanted [] := by decide
  have halloc : c.receiver.allocFails = false := by
    rw [allocFails_eq hc.keeps]
    rfl
  cases evs with
  | nil =>
    rw [recvTrue, halloc]
    exact .nothing c.receiver c.wire
  | cons ev evs =>
    cases ev with
    | again =>
      rw [recvTrue, halloc]
      exact .nothing c.receiver c.wire
    | closed => exact recvTrue_broken hc.keeps hwant (by decide) (.inl rfl) evs
    | error e => exact recvTrue_broken hc.keeps hwant (by decide) (.inr ⟨e, rfl⟩) evs
    | take k =>
      by_cases hw : c.wire = []
      · rw [recvTrue, halloc]
        simp only [meets, blocks, hw, if_true, decide_true]
        exact .nothing c.receiver _
      · have hpos : 0 < c.wire.length := List.length_pos_iff.mpr hw
        obtain ⟨s, hs, hwire, hgives⟩ := recvIter_gives true hc.keeps hwant c.wire (.take k)
        have hwanted : wanted [] = headerSize := rfl
        rw [socketRead_take hwant hw, hwanted] at hwire hgives
        have hblocks : blocks c.wire (.take k) = false := by simp [blocks, hw]
        have hbs : (c.wire.take (min (k + 1) headerSize)).length =
            min (min (k + 1) headerSize) c.wire.length := List.length_take
        simp only [meets, if_neg hw]
        cases hgives with
        | rejects all invalid rc notice kept =>
          rw [List.nil_append, hbs] at all
          have hmin : min (k + 1) headerSize = headerSize := by omega
          rw [List.nil_append, hmin] at invalid
          rw [if_neg (by omega), if_pos invalid, recvTrue_round halloc hblocks hs (by simp [notice]), rc]
          exact .broken _ _ (by rw [kept]; exact hc.keeps.not_rcvingPayload (by decide))
        | reads rc notice interrupt unfinished same keeps =>
          rw [recvTrue_round halloc hblocks hs (by simp [notice]), rc, interrupt]
          by_cases hshort : min (k + 1) c.wire.length < headerSize
          · rw [if_pos hshort, decide_eq_true (by rw [hbs, hwanted]; omega)]
            exact .short _ _
          · have hmin : min (k + 1) headerSize = headerSize := by omega
            rw [List.nil_append, hmin] at keeps
            rw [hmin] at hwire
            have hall : (c.wire.take headerSize).length = headerSize := by
              rw [List.length_take]
              omega
            rw [if_neg hshort, if_neg (not_not.mpr (keeps.valid hall.ge)),
              decide_eq_false (by rw [hbs, hwanted]; omega), hwire]
            by_cases hzero : (headerOf (c.wire.take headerSize)).len = 0
            · have hrefused : s.receiver.allocFails = true := by
                have hnone := wanted_payload hall []
                rw [List.append_nil, List.length_nil, Nat.sub_zero, hzero] at hnone
                rw [allocFails_eq keeps, decide_eq_true hnone]
              rw [if_pos hzero, Bool.not_false, Bool.and_self, if_pos rfl, recvTrue_asserted hrefused]
              exact .empty _ _ (by rw [List.length_drop]; omega)
            · rw [if_neg hzero, Bool.not_false, Bool.and_self, if_pos rfl]
              exact (recvTrue_payload (c := c.upTo s.receiver (c.wire.drop headerSize))
                keeps hall hzero (same.trans hc.connected) evs).of_receiver (by rw [List.length_drop]; omega)
        | @completes hdr payload _ rm _ bytes all valid length header content wellFormed rc interrupt notice
            forgotten same keeps =>
          -- sixteen bytes are a header and no payload
          have hsum := congrArg List.length bytes
          rw [List.nil_append, hbs, List.length_append, all] at hsum
          exact absurd (content.trans (List.length_eq_zero_iff.mp (by omega))) wellFormed.ne_nil

end FlyingKV.Net
