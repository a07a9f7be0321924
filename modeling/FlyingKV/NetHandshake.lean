import FlyingKV.CommonUtils
import FlyingKV.UniqueWorkerManager

set_option autoImplicit false

/-!
# The handshake of `PosixTcpNetStackWorker`

One side of a connection while its `Initialize` runs. Every wait and every access to something
shared (the socket, the registry, the send queue) is an act of its own. Messages arrive whole.
What has entered the send queue and what has been handed to `handshake` is kept for reference.
-/
namespace FlyingKV.Net
open ByteOrder

inductive CreatorType where
  | Client
  | Server
deriving DecidableEq, Repr

inductive ConnectionState where
  | Connecting
  | ConnectSe
  | ConnectingRe
  | WaitLastACK
  | Connected
deriving DecidableEq, Repr

/-- `ConnectResponseMessage::Status`. -/
inductive Status where
  | OK
  | ERROR
deriving DecidableEq, Repr

def Status.toNat : Status → ℕ
  | .OK => 0
  | .ERROR => 1

/-- A message in a send queue: one of the handshake, or one of the application. -/
inductive Queued where
  | handshake (payload : Bytes)
  | app (payload : Bytes)
deriving DecidableEq, Repr

def Queued.payload : Queued → Bytes
  | .handshake payload => payload
  | .app payload => payload

def Queued.isHandshake : Queued → Bool
  | .handshake _ => true
  | .app _ => false

/-- `ConnectRequestMessage`. -/
def connectRequest (logicPort : UInt16) : Queued := .handshake (writeBE 2 logicPort.toNat)

/-- `ConnectResponseMessage`; `what` is empty in every state that is reached. -/
def connectResponse (stat : Status) : Queued := .handshake (writeBE 2 stat.toNat)

/-- How far `Initialize` has come. `sending` has inserted a message and is about to call `Send`;
its flag is the local variable `ok`. `answering` has called `m_onLogicConnect`. -/
inductive HandshakePc where
  | created
  | sending (ok : Bool)
  | receiving
  | registering
  | answering (ok : Bool)
  | completed
deriving DecidableEq, Repr

structure Worker where
  ct : CreatorType
  realPeer : NetAddr
  logicPeer : Option NetAddr
  logicPort : UInt16
  connState : ConnectionState
  pc : HandshakePc
  queue : List Queued
  said : List Queued
  heard : List Queued
deriving DecidableEq, Repr

namespace Worker

/-- The worker of `NBSocketService::connect`. -/
def client (peer : NetAddr) (logicPort : UInt16) : Worker :=
  ⟨.Client, peer, some peer, logicPort, .Connecting, .created, [], [], []⟩

/-- The worker of an accepted connection. -/
def server (realPeer : NetAddr) : Worker :=
  ⟨.Server, realPeer, none, 0, .Connecting, .created, [], [], []⟩

def insertMessage (w : Worker) (m : Queued) : Worker :=
  { w with queue := w.queue ++ [m], said := w.said ++ [m] }

/-- The two bytes at the head of a payload; one that is shorter is read past its end. -/
def readStatus (payload behind : Bytes) : ℕ := fieldBE 2 (payload ++ behind)

/-- `handshake`, up to the next `Send`, `Recv` or `m_onLogicConnect`. -/
def handshake (w : Worker) (payload behind : Bytes) : Worker :=
  match w.connState with
  | .ConnectSe =>
    if readStatus payload behind ≠ Status.OK.toNat then { w with pc := .completed }
    else { w.insertMessage (connectResponse .OK) with pc := .sending true }
  | .WaitLastACK =>
    if readStatus payload behind = Status.OK.toNat then { w with pc := .registering }
    else { w with pc := .completed }
  | .Connecting =>
    if payload.length ≠ 2 then { w.insertMessage (connectResponse .ERROR) with pc := .sending false }
    else
      let npt : NetAddr := ⟨w.realPeer.addr, UInt16.ofNat (fieldBE 2 payload)⟩
      { w.insertMessage (connectResponse .OK) with logicPeer := some npt, pc := .sending true }
  | .ConnectingRe => { w with pc := .registering }
  | .Connected => { w.insertMessage (connectResponse .ERROR) with pc := .sending false }

/-- `handshake` once `m_onLogicConnect` has returned. -/
def logicConnected (w : Worker) (ok : Bool) : Worker :=
  match w.connState with
  | .WaitLastACK => { w with connState := if ok then .Connected else .WaitLastACK, pc := .completed }
  | _ => { w with pc := .answering ok }

/-- The state behind a handshake message that was sent, and whether another one is awaited. -/
def afterSend : CreatorType → ConnectionState → ConnectionState × HandshakePc
  | .Client, .Connecting => (.ConnectSe, .receiving)
  | .Server, .Connecting => (.ConnectingRe, .receiving)
  | _, .ConnectSe => (.WaitLastACK, .receiving)
  | _, .ConnectingRe => (.Connected, .completed)
  | _, s => (s, .completed)

/-- `Send` writes the queue out. It fails in the middle of some message, which is lost. -/
def send (w : Worker) (ok sent : Bool) (n : ℕ) : Worker × List Queued :=
  if sent then
    let next := afterSend w.ct w.connState
    if ok then ({ w with queue := [], connState := next.1, pc := next.2 }, w.queue)
    else ({ w with queue := [], pc := .completed }, w.queue)
  else ({ w with queue := w.queue.drop (n + 1), pc := .completed }, w.queue.take n)

end Worker

/-- What the thread inside `Initialize` does next. `sent` is what `Send` returns. -/
inductive Act where
  | enter
  | send (sent : Bool) (n : ℕ)
  | recv (behind : Bytes)
  | recvFails
  | answer
deriving DecidableEq, Repr

structure Acted where
  worker : Worker
  inbox : List Queued
  outgoing : List Queued
deriving DecidableEq, Repr

/-- One act; what arrives is taken from `inbox`, on which `Recv` waits. -/
def Worker.act (w : Worker) (inbox : List Queued) (a : Act) : Option Acted :=
  match w.pc, a with
  | .created, .enter =>
    match w.ct with
    | .Client => some ⟨{ w.insertMessage (connectRequest w.logicPort) with pc := .sending true }, inbox, []⟩
    | .Server => some ⟨{ w with pc := .receiving }, inbox, []⟩
  | .sending ok, .send sent n => some ⟨(w.send ok sent n).1, inbox, (w.send ok sent n).2⟩
  | .receiving, .recv behind =>
    match inbox with
    | [] => none
    | m :: rest => some ⟨{ w with heard := w.heard ++ [m] }.handshake m.payload behind, rest, []⟩
  | .receiving, .recvFails => some ⟨{ w with pc := .completed }, inbox, []⟩
  | .answering ok, .answer =>
    some ⟨{ w.insertMessage (connectResponse (if ok then .OK else .ERROR)) with pc := .sending ok }, inbox, []⟩
  | _, _ => none

/-- What an act can do. -/
inductive Acts (w : Worker) (inbox : List Queued) : Acted → Prop where
  | request (hpc : w.pc = .created) (hct : w.ct = .Client) :
      Acts w inbox ⟨{ w.insertMessage (connectRequest w.logicPort) with pc := .sending true }, inbox, []⟩
  | listen (hpc : w.pc = .created) (hct : w.ct = .Server) :
      Acts w inbox ⟨{ w with pc := .receiving }, inbox, []⟩
  | next (hpc : w.pc = .sending true) :
      Acts w inbox ⟨{ w with
        queue := []
        connState := (Worker.afterSend w.ct w.connState).1
        pc := (Worker.afterSend w.ct w.connState).2 }, inbox, w.queue⟩
  | refused (hpc : w.pc = .sending false) :
      Acts w inbox ⟨{ w with queue := [], pc := .completed }, inbox, w.queue⟩
  | broken (ok : Bool) (n : ℕ) (hpc : w.pc = .sending ok) :
      Acts w inbox ⟨{ w with queue := w.queue.drop (n + 1), pc := .completed }, inbox, w.queue.take n⟩
  | recv (m : Queued) (rest : List Queued) (behind : Bytes) (hpc : w.pc = .receiving)
      (hin : inbox = m :: rest) :
      Acts w inbox ⟨{ w with heard := w.heard ++ [m] }.handshake m.payload behind, rest, []⟩
  | lost (hpc : w.pc = .receiving) : Acts w inbox ⟨{ w with pc := .completed }, inbox, []⟩
  | answer (ok : Bool) (hpc : w.pc = .answering ok) :
      Acts w inbox ⟨{ w.insertMessage (connectResponse (if ok then .OK else .ERROR)) with pc := .sending ok },
        inbox, []⟩

section
variable {w speaker hearer : Worker} {inbox channel : List Queued} {o : Acted}

theorem acts_of_act {a : Act} (h : w.act inbox a = some o) : Acts w inbox o := by
  unfold Worker.act at h
  cases hpc : w.pc with
  | created =>
    cases a <;> rw [hpc] at h <;> try cases h
    cases hct : w.ct with
    | Client =>
      rw [hct] at h
      cases h
      exact .request hpc hct
    | Server =>
      rw [hct] at h
      cases h
      rw [← hct]
      exact .listen hpc hct
  | sending ok =>
    cases a <;> rw [hpc] at h <;> try cases h
    rename_i sent n
    cases sent
    · exact .broken ok n hpc
    · cases ok
      · exact .refused hpc
      · exact .next hpc
  | receiving =>
    cases a <;> rw [hpc] at h <;> try cases h
    · cases hin : inbox with
      | nil =>
        rw [hin] at h
        cases h
      | cons m rest =>
        rw [hin] at h
        cases h
        exact .recv m rest _ hpc rfl
    · exact .lost hpc
  | registering => cases a <;> rw [hpc] at h <;> cases h
  | answering ok =>
    cases a <;> rw [hpc] at h <;> cases h
    exact .answer ok hpc
  | completed => cases a <;> rw [hpc] at h <;> cases h

/-! ## What is said and what is heard -/

/-- The handler of a worker that is done without being connected is deleted. -/
def Worker.Alive (w : Worker) : Prop := w.pc ≠ .completed ∨ w.connState = .Connected

instance (w : Worker) : Decidable w.Alive := inferInstanceAs (Decidable (_ ∨ _))

/-- What an act hears was in the inbox, what it says enters the queue, and what leaves the queue
goes out in order; a `Send` that fails ends the worker. -/
structure Passes (w : Worker) (inbox : List Queued) (o : Acted) (got ms : List Queued) : Prop where
  alive : w.Alive
  inbox : inbox = got ++ o.inbox
  heard : o.worker.heard = w.heard ++ got
  said : o.worker.said = w.said ++ ms
  out : o.outgoing <+: w.queue ++ ms
  queue : o.worker.Alive → w.queue ++ ms = o.outgoing ++ o.worker.queue

theorem handshake_same (w : Worker) (payload behind : Bytes) :
    (w.handshake payload behind).realPeer = w.realPeer ∧
      (w.handshake payload behind).logicPort = w.logicPort := by
  unfold Worker.handshake
  cases w.connState <;> dsimp only <;> (try split_ifs) <;> exact ⟨rfl, rfl⟩

theorem Acts.same (h : Acts w inbox o) : o.worker.realPeer = w.realPeer ∧ o.worker.logicPort = w.logicPort := by
  cases h with
  | recv m rest behind hpc hin => exact handshake_same _ _ _
  | request => exact ⟨rfl, rfl⟩
  | listen => exact ⟨rfl, rfl⟩
  | next => exact ⟨rfl, rfl⟩
  | refused => exact ⟨rfl, rfl⟩
  | broken => exact ⟨rfl, rfl⟩
  | lost => exact ⟨rfl, rfl⟩
  | answer => exact ⟨rfl, rfl⟩

theorem handshake_says (w : Worker) (payload behind : Bytes) :
    ∃ ms, (w.handshake payload behind).said = w.said ++ ms ∧
      (w.handshake payload behind).queue = w.queue ++ ms ∧ (w.handshake payload behind).heard = w.heard ∧
      ∀ m ∈ ms, m.isHandshake = true := by
  unfold Worker.handshake
  cases w.connState with
  | Connecting =>
    dsimp only
    split_ifs
    · exact ⟨_, rfl, rfl, rfl, by simp [connectResponse, Queued.isHandshake]⟩
    · exact ⟨_, rfl, rfl, rfl, by simp [connectResponse, Queued.isHandshake]⟩
  | ConnectSe =>
    dsimp only
    split_ifs
    · exact ⟨[], by simp, by simp, rfl, nofun⟩
    · exact ⟨_, rfl, rfl, rfl, by simp [connectResponse, Queued.isHandshake]⟩
  | ConnectingRe => exact ⟨[], by simp, by simp, rfl, nofun⟩
  | WaitLastACK =>
    dsimp only
    split_ifs
    · exact ⟨[], by simp, by simp, rfl, nofun⟩
    · exact ⟨[], by simp, by simp, rfl, nofun⟩
  | Connected => exact ⟨_, rfl, rfl, rfl, by simp [connectResponse, Queued.isHandshake]⟩

/-- The thread inside `Initialize` inserts messages of the handshake only. -/
theorem Acts.says (h : Acts w inbox o) :
    ∃ ms, o.worker.said = w.said ++ ms ∧ ∀ m ∈ ms, m.isHandshake = true := by
  cases h with
  | request => exact ⟨_, rfl, by simp [connectRequest, Queued.isHandshake]⟩
  | answer => exact ⟨_, rfl, by simp [connectResponse, Queued.isHandshake]⟩
  | recv m rest behind hpc hin =>
    obtain ⟨ms, hsaid, -, -, hms⟩ := handshake_says { w with heard := w.heard ++ [m] } m.payload behind
    exact ⟨ms, hsaid, hms⟩
  | listen => exact ⟨[], by simp, nofun⟩
  | next => exact ⟨[], by simp, nofun⟩
  | refused => exact ⟨[], by simp, nofun⟩
  | broken => exact ⟨[], by simp, nofun⟩
  | lost => exact ⟨[], by simp, nofun⟩

/-- Nobody sends handshake messages over a connection that is established. -/
theorem Acts.passes (h : Acts w inbox o) (hsend : ∀ ok, w.pc = .sending ok → w.connState ≠ .Connected) :
    ∃ got ms, Passes w inbox o got ms := by
  cases h with
  | request hpc hct =>
    exact ⟨[], _, .inl (by simp [hpc]), rfl, by simp [Worker.insertMessage], rfl, by simp,
      fun _ => by simp [Worker.insertMessage]⟩
  | listen hpc hct => exact ⟨[], [], .inl (by simp [hpc]), rfl, by simp, by simp, by simp, fun _ => by simp⟩
  | next hpc => exact ⟨[], [], .inl (by simp [hpc]), rfl, by simp, by simp, by simp, fun _ => by simp⟩
  | refused hpc => exact ⟨[], [], .inl (by simp [hpc]), rfl, by simp, by simp, by simp, fun _ => by simp⟩
  | broken ok n hpc =>
    refine ⟨[], [], .inl (by simp [hpc]), rfl, by simp, by simp, by simpa using List.take_prefix n w.queue, ?_⟩
    rintro (hdone | hconn)
    · exact absurd rfl hdone
    · exact absurd hconn (hsend ok hpc)
  | recv m rest behind hpc hin =>
    obtain ⟨ms, hsaid, hqueue, hheard, -⟩ := handshake_says { w with heard := w.heard ++ [m] } m.payload behind
    exact ⟨[m], ms, .inl (by simp [hpc]), hin, hheard, hsaid, by simp, fun _ => by simp [hqueue]⟩
  | lost hpc => exact ⟨[], [], .inl (by simp [hpc]), rfl, by simp, by simp, by simp, fun _ => by simp⟩
  | answer ok hpc =>
    exact ⟨[], _, .inl (by simp [hpc]), rfl, by simp [Worker.insertMessage], rfl, by simp,
      fun _ => by simp [Worker.insertMessage]⟩

/-- What one side has heard and what is on its way are the first messages of the other side; the
others are in the queue there, unless that side is gone. -/
structure Carries (speaker hearer : Worker) (channel : List Queued) : Prop where
  delivered : hearer.heard ++ channel <+: speaker.said
  queued : speaker.Alive → hearer.heard ++ channel ++ speaker.queue = speaker.said

theorem Carries.speak {got ms : List Queued} (hl : Carries speaker hearer channel)
    (hp : Passes speaker inbox o got ms) : Carries o.worker hearer (channel ++ o.outgoing) := by
  have hsaid := hl.queued hp.alive
  constructor
  · rw [hp.said, ← hsaid, ← List.append_assoc, List.append_assoc _ speaker.queue]
    exact (List.prefix_append_right_inj _).mpr hp.out
  · intro halive
    rw [hp.said, ← hsaid, ← List.append_assoc, List.append_assoc _ speaker.queue, hp.queue halive,
      List.append_assoc]

theorem Carries.hear {got ms : List Queued} (hl : Carries speaker hearer channel)
    (hp : Passes hearer channel o got ms) : Carries speaker o.worker o.inbox := by
  have hsame : o.worker.heard ++ o.inbox = hearer.heard ++ channel := by
    rw [hp.heard, hp.inbox, List.append_assoc]
  constructor
  · rw [hsame]
    exact hl.delivered
  · rw [hsame]
    exact hl.queued

theorem Carries.congr {speaker' hearer' : Worker} (hl : Carries speaker hearer channel)
    (hheard : hearer'.heard = hearer.heard) (hsaid : speaker'.said = speaker.said)
    (hqueue : speaker'.queue = speaker.queue) (halive : speaker'.Alive → speaker.Alive) :
    Carries speaker' hearer' channel := by
  constructor
  · rw [hheard, hsaid]
    exact hl.delivered
  · intro h
    rw [hheard, hsaid, hqueue]
    exact hl.queued (halive h)

theorem Carries.push (hl : Carries speaker hearer channel) (halive : speaker.Alive) (m : Queued) :
    Carries (speaker.insertMessage m) hearer channel := by
  have hsaid := hl.queued halive
  constructor
  · exact hl.delivered.trans (List.prefix_append _ _)
  · intro _
    simp only [Worker.insertMessage]
    rw [← hsaid, ← List.append_assoc]

theorem Carries.flush (hl : Carries speaker hearer channel) (halive : speaker.Alive) (n : ℕ) :
    Carries { speaker with queue := speaker.queue.drop n } hearer (channel ++ speaker.queue.take n) := by
  have hsaid := hl.queued halive
  constructor
  · simp only
    rw [← hsaid, ← List.append_assoc]
    exact (List.prefix_append_right_inj _).mpr (List.take_prefix n _)
  · intro _
    simp only
    rw [← hsaid, ← List.append_assoc, List.append_assoc _ (speaker.queue.take n), List.take_append_drop]

theorem logicConnected_same (w : Worker) (ok : Bool) :
    (w.logicConnected ok).said = w.said ∧ (w.logicConnected ok).queue = w.queue ∧
      (w.logicConnected ok).heard = w.heard ∧ (w.logicConnected ok).realPeer = w.realPeer ∧
      (w.logicConnected ok).logicPort = w.logicPort := by
  unfold Worker.logicConnected
  cases w.connState <;> exact ⟨rfl, rfl, rfl, rfl, rfl⟩

end

end FlyingKV.Net
