import FlyingKV.NetHandshake

set_option autoImplicit false

/-!
# Handshake agreement

Any number of clients connect to one server. The channels are reliable and in order. The server
registers its side of a connection between the two last messages of the handshake; from then on
its application can send over the connection, and it can disconnect or lose it at any time.
-/
namespace FlyingKV.Net.Agreement
open ByteOrder EventRun

structure Connection where
  client : Worker
  server : Worker
  toServer : List Queued
  toClient : List Queued
deriving DecidableEq, Repr

structure System where
  conns : List Connection
  manager : UniqueWorkerManager
  log : List RegEvent
  stopped : Bool

def start : System := ⟨[], .empty, [], false⟩

inductive Event where
  | connect (clientAddr serverAddr : NetAddr) (logicPort : UInt16)
  | client (i : ℕ) (a : Act)
  | clientLogic (i : ℕ) (ok : Bool)
  | server (i : ℕ) (a : Act)
  | serverLogic (i : ℕ)
  | push (i : ℕ) (payload : Bytes)
  | flush (i : ℕ) (n : ℕ)
  | disconnect (lnpt : NetAddr)
  | finish (i : ℕ)
  | stop
deriving DecidableEq, Repr

/-- `m_onLogicConnect` of some handler has returned true. -/
def registeredOnce (log : List RegEvent) (i : ℕ) : Bool :=
  log.any fun e => match e with
    | .put h _ => h == i
    | .removed _ _ => false

namespace System

def update (s : System) (i : ℕ) (c : Connection) : System := { s with conns := s.conns.set i c }

/-- `on_logic_connect` of the server. -/
def onLogicConnect (s : System) (i : ℕ) (w : Worker) : System × Bool :=
  if s.stopped then (s, false)
  else
    let lnpt := w.logicPeer.getD ⟨"", 0⟩
    let put := s.manager.putWorkerEventHandler i lnpt w.realPeer
    ({ s with manager := put.1, log := if put.2 then s.log ++ [.put i lnpt] else s.log }, put.2)

def removed (s : System) (lnpt : NetAddr) (r : UniqueWorkerManager × Option ℕ) : System :=
  { s with
    manager := r.1
    log := match r.2 with
      | some h => s.log ++ [.removed h lnpt]
      | none => s.log }

def stepConn (s : System) (i : ℕ) (c : Connection) : Event → Option System
  | .client _ a =>
    (c.client.act c.toClient a).map fun o =>
      s.update i { c with client := o.worker, toClient := o.inbox, toServer := c.toServer ++ o.outgoing }
  | .clientLogic _ ok =>
    if c.client.pc = .registering then some (s.update i { c with client := c.client.logicConnected ok })
    else none
  | .server _ a =>
    (c.server.act c.toServer a).map fun o =>
      s.update i { c with server := o.worker, toServer := o.inbox, toClient := c.toClient ++ o.outgoing }
  | .serverLogic _ =>
    if c.server.pc = .registering then
      let r := s.onLogicConnect i c.server
      some (r.1.update i { c with server := c.server.logicConnected r.2 })
    else none
  | .push _ payload =>
    -- a handler that `SendMessage` has found in the registry
    if registeredOnce s.log i = true ∧ c.server.Alive then
      some (s.update i { c with server := c.server.insertMessage (.app payload) })
    else none
  | .flush _ n =>
    if c.server.connState = .Connected then
      some (s.update i { c with
        server := { c.server with queue := c.server.queue.drop n }
        toClient := c.toClient ++ c.server.queue.take n })
    else none
  | .finish _ =>
    let lnpt := c.server.logicPeer.getD ⟨"", 0⟩
    some (s.removed lnpt (s.manager.removeFinished lnpt c.server.realPeer))
  | _ => none

def Event.conn : Event → ℕ
  | .client i _ | .clientLogic i _ | .server i _ | .serverLogic i | .push i _ | .flush i _ | .finish i => i
  | _ => 0

def step (s : System) : Event → Option (System × Unit)
  | .connect clientAddr serverAddr logicPort =>
    let c : Connection := ⟨.client serverAddr logicPort, .server clientAddr, [], []⟩
    some ({ s with conns := s.conns ++ [c] }, ())
  | .disconnect lnpt => some (s.removed lnpt (s.manager.removeWorkerEventHandler lnpt), ())
  | .stop => some ({ s with stopped := true }, ())
  | e =>
    match s.conns[Event.conn e]? with
    | none => none
    | some c => (s.stepConn (Event.conn e) c e).map (·, ())

end System

/-! ## The two sides of a connection -/

/-- The second message was taken for one with status OK. -/
def HeardOk (heard : List Queued) : Prop :=
  ∃ a b behind, heard = [a, b] ∧ Worker.readStatus b.payload behind = Status.OK.toNat

def clientTable (heard : List Queued) : ConnectionState → HandshakePc → Prop
  | .Connecting, .created => heard = []
  | .Connecting, .sending ok => ok = true ∧ heard = []
  | .Connecting, .completed => True
  | .ConnectSe, .receiving => heard = []
  | .ConnectSe, .sending ok => ok = true ∧ heard.length = 1
  | .ConnectSe, .completed => True
  | .WaitLastACK, .receiving => heard.length = 1
  | .WaitLastACK, .registering => HeardOk heard
  | .WaitLastACK, .completed => True
  | .Connected, .completed => HeardOk heard
  | _, _ => False

structure ClientOk (w : Worker) : Prop where
  ct : w.ct = .Client
  table : clientTable w.heard w.connState w.pc
  asks : (w.pc = .created ∧ w.said = []) ∨ w.said.head? = some (connectRequest w.logicPort)

theorem head?_append_of_some {l : List Queued} {m : Queued} (h : l.head? = some m) (ms : List Queued) :
    (l ++ ms).head? = some m := by
  rw [List.head?_append, h]
  rfl

section
variable {w : Worker} {inbox : List Queued} {o : Acted} {reg : Bool} {c : Connection} {i j x : ℕ} {s u : System}
  {p : NetAddr} {es : List Event} {rs : List Unit}

theorem ClientOk.asked (hc : ClientOk w) (hpc : w.pc ≠ .created) :
    w.said.head? = some (connectRequest w.logicPort) := by
  rcases hc.asks with ⟨hcreated, -⟩ | hasked
  · exact absurd hcreated hpc
  · exact hasked

theorem ClientOk.act (hc : ClientOk w) (ha : Acts w inbox o) : ClientOk o.worker := by
  have hct := hc.ct
  have htable := hc.table
  have hasked := hc.asked
  cases ha with
  | request hpc _ =>
    rw [hpc] at htable
    cases hs : w.connState <;> rw [hs] at htable <;> try exact htable.elim
    have hheard : w.heard = [] := htable
    refine ⟨hct, by simp [Worker.insertMessage, hs, clientTable, hheard], .inr ?_⟩
    rcases hc.asks with ⟨-, hsaid⟩ | hsaid
    · simp [Worker.insertMessage, hsaid]
    · exact head?_append_of_some hsaid _
  | listen hpc hs => rw [hct] at hs; cases hs
  | next hpc =>
    have hsaid := hasked (by simp [hpc])
    rw [hpc] at htable
    cases hs : w.connState <;> rw [hs] at htable <;> try exact htable.elim
    all_goals
      refine ⟨hct, ?_, .inr hsaid⟩
      simp only [hct, Worker.afterSend]
      exact htable.2
  | refused hpc =>
    rw [hpc] at htable
    cases hs : w.connState <;> rw [hs] at htable <;> try exact htable.elim
    all_goals exact absurd htable.1 (by decide)
  | broken ok n hpc =>
    have hsaid := hasked (by simp [hpc])
    rw [hpc] at htable
    cases hs : w.connState <;> rw [hs] at htable <;> try exact htable.elim
    all_goals exact ⟨hct, trivial, .inr hsaid⟩
  | recv m rest behind hpc hin =>
    have hsaid := hasked (by simp [hpc])
    rw [hpc] at htable
    unfold Worker.handshake
    cases hs : w.connState <;> rw [hs] at htable <;> try exact htable.elim
    case ConnectSe =>
      have hheard : w.heard = [] := htable
      dsimp only
      split_ifs
      · exact ⟨hct, by simp [clientTable], .inr hsaid⟩
      · exact ⟨hct, by simp [clientTable, Worker.insertMessage, hheard], .inr (head?_append_of_some hsaid _)⟩
    case WaitLastACK =>
      dsimp only
      split_ifs with hstatus
      · obtain ⟨a, hheard⟩ := List.length_eq_one_iff.mp htable
        have hok : HeardOk (w.heard ++ [m]) := ⟨a, m, behind, by rw [hheard]; rfl, hstatus⟩
        exact ⟨hct, hok, .inr hsaid⟩
      · exact ⟨hct, by simp [clientTable], .inr hsaid⟩
  | lost hpc =>
    have hsaid := hasked (by simp [hpc])
    rw [hpc] at htable
    cases hs : w.connState <;> rw [hs] at htable <;> try exact htable.elim
    all_goals exact ⟨hct, trivial, .inr hsaid⟩
  | answer ok hpc =>
    rw [hpc] at htable
    cases hs : w.connState <;> rw [hs] at htable <;> exact htable.elim

theorem ClientOk.logicConnected (hc : ClientOk w) (hpc : w.pc = .registering) (ok : Bool) :
    ClientOk (w.logicConnected ok) := by
  have htable := hc.table
  have hsaid := hc.asked (by simp [hpc])
  rw [hpc] at htable
  unfold Worker.logicConnected
  cases hs : w.connState <;> rw [hs] at htable <;> try exact htable.elim
  cases ok
  · exact ⟨hc.ct, by simp [clientTable], .inr hsaid⟩
  · exact ⟨hc.ct, htable, .inr hsaid⟩

/-- A first message and, if there are others, errors. -/
def ErrorsLater (said : List Queued) : Prop := ∀ m ∈ said.tail, m = connectResponse .ERROR

theorem errorsLater_of_length {said : List Queued} (h : said.length ≤ 1) : ErrorsLater said := by
  intro m hm
  have hlen := List.length_pos_of_mem hm
  rw [List.length_tail] at hlen
  omega

/-- The logic peer is the address of the client with the port of its first message. -/
def Named (w : Worker) : Prop :=
  ∃ m rest, w.heard = m :: rest ∧
    w.logicPeer = some ⟨w.realPeer.addr, UInt16.ofNat (fieldBE 2 m.payload)⟩

def serverTable (reg : Bool) (w : Worker) : ConnectionState → HandshakePc → Prop
  | .Connecting, .created => reg = false ∧ w.said = [] ∧ w.heard = []
  | .Connecting, .receiving => reg = false ∧ w.said = [] ∧ w.heard = []
  | .Connecting, .sending ok => reg = false ∧ w.said.length = 1 ∧ (ok = true → Named w)
  | .Connecting, .completed => reg = false ∧ w.said.length ≤ 1
  | .ConnectingRe, .receiving => reg = false ∧ w.said.length = 1 ∧ Named w
  | .ConnectingRe, .registering => reg = false ∧ w.said.length = 1 ∧ Named w
  | .ConnectingRe, .answering ok => reg = ok ∧ (ok = false → w.said.length = 1)
  | .ConnectingRe, .sending ok => reg = ok ∧ (ok = false → ErrorsLater w.said)
  | .ConnectingRe, .completed => reg = false → ErrorsLater w.said
  | .Connected, .completed => reg = true
  | _, _ => False

structure ServerOk (reg : Bool) (w : Worker) : Prop where
  ct : w.ct = .Server
  table : serverTable reg w w.connState w.pc

theorem ServerOk.act (hc : ServerOk reg w) (ha : Acts w inbox o) : ServerOk reg o.worker := by
  have hct := hc.ct
  have htable := hc.table
  cases ha with
  | request hpc hs => rw [hct] at hs; cases hs
  | listen hpc _ =>
    rw [hpc] at htable
    cases hs : w.connState <;> rw [hs] at htable <;> try exact htable.elim
    exact ⟨hct, htable⟩
  | next hpc =>
    rw [hpc] at htable
    cases hs : w.connState <;> rw [hs] at htable <;> try exact htable.elim
    all_goals
      refine ⟨hct, ?_⟩
      simp only [hct, Worker.afterSend]
    case Connecting => exact ⟨htable.1, htable.2.1, htable.2.2 rfl⟩
    case ConnectingRe => exact htable.1
  | refused hpc =>
    rw [hpc] at htable
    cases hs : w.connState <;> rw [hs] at htable <;> try exact htable.elim
    case Connecting => exact ⟨hct, htable.1, htable.2.1.le⟩
    case ConnectingRe => exact ⟨hct, fun _ => htable.2 rfl⟩
  | broken ok n hpc =>
    rw [hpc] at htable
    cases hs : w.connState <;> rw [hs] at htable <;> try exact htable.elim
    case Connecting => exact ⟨hct, htable.1, htable.2.1.le⟩
    case ConnectingRe => exact ⟨hct, fun hno => htable.2 (htable.1.symm.trans hno)⟩
  | recv m rest behind hpc hin =>
    rw [hpc] at htable
    unfold Worker.handshake
    cases hs : w.connState <;> rw [hs] at htable <;> try exact htable.elim
    case Connecting =>
      obtain ⟨hreg, hsaid, hheard⟩ := htable
      dsimp only
      split_ifs
      · exact ⟨hct, by simp [serverTable, Worker.insertMessage, hreg, hsaid]⟩
      · refine ⟨hct, hreg, by simp [Worker.insertMessage, hsaid], fun _ => ⟨m, [], ?_, rfl⟩⟩
        simp [Worker.insertMessage, hheard]
    case ConnectingRe =>
      obtain ⟨hreg, hsaid, first, others, hheard, hpeer⟩ := htable
      refine ⟨hct, hreg, hsaid, first, others ++ [m], ?_, hpeer⟩
      simp [hheard]
  | lost hpc =>
    rw [hpc] at htable
    cases hs : w.connState <;> rw [hs] at htable <;> try exact htable.elim
    case Connecting => exact ⟨hct, htable.1, by simp [htable.2.1]⟩
    case ConnectingRe => exact ⟨hct, fun _ => errorsLater_of_length htable.2.1.le⟩
  | answer ok hpc =>
    rw [hpc] at htable
    cases hs : w.connState <;> rw [hs] at htable <;> try exact htable.elim
    obtain ⟨hreg, hsaid⟩ := htable
    refine ⟨hct, ?_⟩
    simp only [Worker.insertMessage, hs]
    refine ⟨hreg, fun hno => ?_⟩
    obtain ⟨first, hfirst⟩ := List.length_eq_one_iff.mp (hsaid hno)
    simp [ErrorsLater, hfirst, hno]

theorem ServerOk.logicConnected (hc : ServerOk false w) (hpc : w.pc = .registering) (ok : Bool) :
    ServerOk ok (w.logicConnected ok) := by
  have htable := hc.table
  rw [hpc] at htable
  unfold Worker.logicConnected
  cases hs : w.connState <;> rw [hs] at htable <;> try exact htable.elim
  exact ⟨hc.ct, rfl, fun _ => htable.2.1⟩

theorem ServerOk.reg_of_registering (hc : ServerOk reg w) (hpc : w.pc = .registering) :
    reg = false ∧ Named w := by
  have htable := hc.table
  rw [hpc] at htable
  cases hs : w.connState <;> rw [hs] at htable <;> try exact htable.elim
  exact ⟨htable.1, htable.2.2⟩

/-- Once the connection is registered only the state matters. -/
theorem ServerOk.registered {w' : Worker} (hc : ServerOk true w) (hct : w'.ct = w.ct)
    (hstate : w'.connState = w.connState) (hpc : w'.pc = w.pc) : ServerOk true w' := by
  have htable := hc.table
  refine ⟨hct.trans hc.ct, ?_⟩
  rw [hstate, hpc]
  cases hs : w.connState <;> cases hp : w.pc <;> rw [hs, hp] at htable <;> simp_all [serverTable]

theorem ServerOk.ne_connected (hc : ServerOk false w) : w.connState ≠ .Connected := by
  intro hs
  have htable := hc.table
  rw [hs] at htable
  cases hp : w.pc <;> rw [hp] at htable <;> try exact htable.elim
  exact absurd htable (by simp [serverTable])

theorem ServerOk.errorsLater (hc : ServerOk false w) : ErrorsLater w.said := by
  have htable := hc.table
  cases hs : w.connState <;> cases hp : w.pc <;> rw [hs, hp] at htable <;> try exact htable.elim
  case Connecting.created => exact errorsLater_of_length (by simp [htable.2.1])
  case Connecting.receiving => exact errorsLater_of_length (by simp [htable.2.1])
  case Connecting.sending => exact errorsLater_of_length htable.2.1.le
  case Connecting.completed => exact errorsLater_of_length htable.2
  case ConnectingRe.receiving => exact errorsLater_of_length htable.2.1.le
  case ConnectingRe.registering => exact errorsLater_of_length htable.2.1.le
  case ConnectingRe.answering => exact errorsLater_of_length (htable.2 htable.1.symm).le
  case ConnectingRe.sending => exact htable.2 htable.1.symm
  case ConnectingRe.completed => exact htable rfl
  case Connected.completed => exact absurd htable (by simp [serverTable])

/-! ## A connection -/

structure ConnOk (reg : Bool) (c : Connection) : Prop where
  client : ClientOk c.client
  server : ServerOk reg c.server
  down : Carries c.server c.client c.toClient
  up : Carries c.client c.server c.toServer

def Connection.peer (c : Connection) : NetAddr := ⟨c.server.realPeer.addr, c.client.logicPort⟩

/-- A client is connected only if the server has registered the connection. -/
theorem ConnOk.ne_connected (hc : ConnOk false c) : c.client.connState ≠ .Connected := by
  intro hs
  have htable := hc.client.table
  rw [hs] at htable
  have hheard : HeardOk c.client.heard := by
    cases hp : c.client.pc <;> rw [hp] at htable <;> first | exact htable.elim | exact htable
  obtain ⟨a, b, behind, hab, hstatus⟩ := hheard
  obtain ⟨later, hlater⟩ := hc.down.delivered
  have hsaid : c.server.said = a :: b :: (c.toClient ++ later) := by
    rw [← hlater, hab]
    rfl
  have hb : b = connectResponse .ERROR := hc.server.errorsLater b (by simp [hsaid])
  rw [hb] at hstatus
  have herror : Worker.readStatus (connectResponse .ERROR).payload behind = 1 := by
    simp [Worker.readStatus, connectResponse, Queued.payload, Status.toNat]
  rw [herror] at hstatus
  exact absurd hstatus (by decide)

/-- The server takes the client for the logic peer that it is. -/
theorem ConnOk.logicPeer (hc : ConnOk reg c) (hn : Named c.server) : c.server.logicPeer = some c.peer := by
  obtain ⟨m, rest, hheard, hpeer⟩ := hn
  obtain ⟨later, hlater⟩ := hc.up.delivered
  have hsaid : c.client.said = m :: (rest ++ c.toServer ++ later) := by
    rw [← hlater, hheard]
    simp
  have hm : m = connectRequest c.client.logicPort := by
    rcases hc.client.asks with ⟨-, hnil⟩ | hhead
    · rw [hnil] at hsaid
      cases hsaid
    · rw [hsaid] at hhead
      exact Option.some.inj hhead
  have hport : UInt16.ofNat (fieldBE 2 m.payload) = c.client.logicPort := by
    rw [hm, connectRequest, Queued.payload]
    have hfield := fieldBE_writeBE_append 2 c.client.logicPort.toNat []
    rw [List.append_nil] at hfield
    have hlt : c.client.logicPort.toNat < 256 ^ 2 := c.client.logicPort.toNat_lt
    rw [hfield, Nat.mod_eq_of_lt hlt]
    exact UInt16.ofNat_toNat
  rw [hpeer, hport]
  rfl

theorem ConnOk.client_sends (hc : ConnOk reg c) (ok : Bool) (hpc : c.client.pc = .sending ok) :
    c.client.connState ≠ .Connected := by
  intro hs
  have htable := hc.client.table
  rw [hs, hpc] at htable
  exact htable

theorem ConnOk.server_sends (hc : ConnOk reg c) (ok : Bool) (hpc : c.server.pc = .sending ok) :
    c.server.connState ≠ .Connected := by
  intro hs
  have htable := hc.server.table
  rw [hs, hpc] at htable
  exact htable

theorem ConnOk.clientAct (hc : ConnOk reg c) (ha : Acts c.client c.toClient o) :
    ConnOk reg { c with client := o.worker, toClient := o.inbox, toServer := c.toServer ++ o.outgoing } := by
  obtain ⟨got, ms, hp⟩ := ha.passes hc.client_sends
  exact ⟨hc.client.act ha, hc.server, hc.down.hear hp, hc.up.speak hp⟩

theorem ConnOk.serverAct (hc : ConnOk reg c) (ha : Acts c.server c.toServer o) :
    ConnOk reg { c with server := o.worker, toServer := o.inbox, toClient := c.toClient ++ o.outgoing } := by
  obtain ⟨got, ms, hp⟩ := ha.passes hc.server_sends
  exact ⟨hc.client, hc.server.act ha, hc.down.speak hp, hc.up.hear hp⟩

theorem alive_of_registering (hpc : w.pc = .registering) : w.Alive := .inl (by simp [hpc])

theorem ConnOk.clientLogic (hc : ConnOk reg c) (hpc : c.client.pc = .registering) (ok : Bool) :
    ConnOk reg { c with client := c.client.logicConnected ok } := by
  obtain ⟨hsaid, hqueue, hheard, -⟩ := logicConnected_same c.client ok
  exact ⟨hc.client.logicConnected hpc ok, hc.server,
    hc.down.congr hheard rfl rfl id,
    hc.up.congr rfl hsaid hqueue fun _ => alive_of_registering hpc⟩

theorem ConnOk.serverLogic (hc : ConnOk false c) (hpc : c.server.pc = .registering) (ok : Bool) :
    ConnOk ok { c with server := c.server.logicConnected ok } := by
  obtain ⟨hsaid, hqueue, hheard, -⟩ := logicConnected_same c.server ok
  exact ⟨hc.client, hc.server.logicConnected hpc ok,
    hc.down.congr rfl hsaid hqueue fun _ => alive_of_registering hpc,
    hc.up.congr hheard rfl rfl id⟩

theorem ConnOk.push (hc : ConnOk true c) (halive : c.server.Alive) (payload : Bytes) :
    ConnOk true { c with server := c.server.insertMessage (.app payload) } :=
  ⟨hc.client, hc.server.registered rfl rfl rfl, hc.down.push halive _, hc.up.congr rfl rfl rfl id⟩

theorem ConnOk.flush (hc : ConnOk true c) (hs : c.server.connState = .Connected) (n : ℕ) :
    ConnOk true { c with
      server := { c.server with queue := c.server.queue.drop n }
      toClient := c.toClient ++ c.server.queue.take n } :=
  ⟨hc.client, hc.server.registered rfl rfl rfl, hc.down.flush (.inr hs) n, hc.up.congr rfl rfl rfl id⟩

/-- The worker has called `m_onLogicConnect`, or will not. -/
def Asked (w : Worker) : Prop :=
  w.pc = .completed ∨ w.connState = .ConnectingRe ∧ ∃ ok, w.pc = .answering ok ∨ w.pc = .sending ok

theorem asked_act (hw : Asked w) (ha : Acts w inbox o) : Asked o.worker := by
  cases ha with
  | request hpc => simp [Asked, hpc] at hw
  | listen hpc => simp [Asked, hpc] at hw
  | next hpc =>
    have hs : w.connState = .ConnectingRe := by simpa [Asked, hpc] using hw
    exact .inl (by simp only [hs, Worker.afterSend])
  | refused => exact .inl rfl
  | broken => exact .inl rfl
  | recv m rest behind hpc => simp [Asked, hpc] at hw
  | lost => exact .inl rfl
  | answer ok hpc =>
    have hs : w.connState = .ConnectingRe := by simpa [Asked, hpc] using hw
    exact .inr ⟨hs, ok, .inr rfl⟩

theorem not_asked_of_registering (hpc : w.pc = .registering) : ¬Asked w := by
  simp [Asked, hpc]

theorem ServerOk.asked_logicConnected (hc : ServerOk reg w) (hpc : w.pc = .registering) (ok : Bool) :
    Asked (w.logicConnected ok) := by
  have htable := hc.table
  rw [hpc] at htable
  unfold Worker.logicConnected
  cases hs : w.connState <;> rw [hs] at htable <;> try exact htable.elim
  exact .inr ⟨rfl, ok, .inl rfl⟩

theorem connOk_new (clientAddr serverAddr : NetAddr) (logicPort : UInt16) :
    ConnOk false ⟨.client serverAddr logicPort, .server clientAddr, [], []⟩ where
  client := ⟨rfl, rfl, .inl ⟨rfl, rfl⟩⟩
  server := ⟨rfl, rfl, rfl, rfl⟩
  down := ⟨by simp [Worker.client], fun _ => rfl⟩
  up := ⟨by simp [Worker.server], fun _ => rfl⟩

/-! ## All connections -/

theorem registeredOnce_put (log : List RegEvent) (i j : ℕ) (p : NetAddr) :
    registeredOnce (log ++ [.put i p]) j = (registeredOnce log j || i == j) := by
  simp [registeredOnce]

theorem registeredOnce_removed (log : List RegEvent) (i j : ℕ) (p : NetAddr) :
    registeredOnce (log ++ [.removed i p]) j = registeredOnce log j := by
  simp [registeredOnce]

theorem registeredOnce_iff {log : List RegEvent} : registeredOnce log i = true ↔ ∃ p, .put i p ∈ log := by
  unfold registeredOnce
  rw [List.any_eq_true]
  constructor
  · rintro ⟨e, he, hi⟩
    cases e with
    | put h p => exact ⟨p, by rwa [← beq_iff_eq.mp hi]⟩
    | removed h p => cases hi
  · rintro ⟨p, hp⟩
    exact ⟨_, hp, beq_self_eq_true i⟩

structure SystemOk (s : System) : Prop where
  conns : ∀ i c, s.conns[i]? = some c → ConnOk (registeredOnce s.log i) c
  registers : Registers s.manager s.log
  puts : ∀ i p, .put i p ∈ s.log → ∃ c, s.conns[i]? = some c ∧ p = c.peer

theorem systemOk_start : SystemOk start where
  conns i c hc := by simp [start] at hc
  registers := registers_empty
  puts i p hp := by simp [start] at hp

theorem SystemOk.update (hs : SystemOk s) {c' : Connection} (hc : s.conns[i]? = some c)
    (hc' : ConnOk (registeredOnce s.log i) c') (hpeer : c'.peer = c.peer) : SystemOk (s.update i c') := by
  have hi : i < s.conns.length := (List.getElem?_eq_some_iff.mp hc).1
  refine ⟨fun j d hd => ?_, hs.registers, fun j p hp => ?_⟩
  · by_cases hij : i = j
    · subst hij
      rw [System.update, List.getElem?_set_self hi] at hd
      cases hd
      exact hc'
    · rw [System.update, List.getElem?_set_ne hij] at hd
      exact hs.conns j d hd
  · obtain ⟨d, hd, hp⟩ := hs.puts j p hp
    by_cases hij : i = j
    · subst hij
      refine ⟨c', List.getElem?_set_self hi, ?_⟩
      rw [hc] at hd
      cases hd
      rw [hp, hpeer]
    · exact ⟨d, (List.getElem?_set_ne hij).trans hd, hp⟩

/-- What a step can do. -/
inductive Moves (s : System) : System → Prop where
  | connect (clientAddr serverAddr : NetAddr) (logicPort : UInt16) :
      Moves s { s with conns := s.conns ++ [⟨.client serverAddr logicPort, .server clientAddr, [], []⟩] }
  | inside (i : ℕ) (c c' : Connection) (hc : s.conns[i]? = some c) (hpeer : c'.peer = c.peer)
      (hasked : Asked c.server → Asked c'.server)
      (hok : ConnOk (registeredOnce s.log i) c → ConnOk (registeredOnce s.log i) c') :
      Moves s (s.update i c')
  | register (i : ℕ) (c : Connection) (lnpt : NetAddr) (hc : s.conns[i]? = some c)
      (hpc : c.server.pc = .registering) (hlnpt : lnpt = c.server.logicPeer.getD ⟨"", 0⟩)
      (hput : (s.manager.putWorkerEventHandler i lnpt c.server.realPeer).2 = true) :
      Moves s (System.update { s with
        manager := (s.manager.putWorkerEventHandler i lnpt c.server.realPeer).1
        log := s.log ++ [.put i lnpt] } i { c with server := c.server.logicConnected true })
  | removed (lnpt : NetAddr) (r : UniqueWorkerManager × Option ℕ) (hr : Removes s.manager lnpt r) :
      Moves s (s.removed lnpt r)
  | stop : Moves s { s with stopped := true }

theorem peer_logicConnected (c : Connection) (ok : Bool) :
    Connection.peer { c with server := c.server.logicConnected ok } = c.peer := by
  rw [Connection.peer, (logicConnected_same c.server ok).2.2.2.1]
  rfl

theorem Moves.refuse (hc : s.conns[i]? = some c) (hpc : c.server.pc = .registering) :
    Moves s (s.update i { c with server := c.server.logicConnected false }) := by
  refine .inside i c _ hc (peer_logicConnected c false) (absurd · (not_asked_of_registering hpc)) fun h => ?_
  have hreg := (h.server.reg_of_registering hpc).1
  rw [hreg] at h ⊢
  exact h.serverLogic hpc false

theorem moves_serverLogic (hc : s.conns[i]? = some c) (hpc : c.server.pc = .registering) :
    Moves s ((s.onLogicConnect i c.server).1.update i
      { c with server := c.server.logicConnected (s.onLogicConnect i c.server).2 }) := by
  unfold System.onLogicConnect
  by_cases hstop : s.stopped = true
  · rw [if_pos hstop]
    exact .refuse hc hpc
  · rw [if_neg hstop]
    dsimp only
    cases hput : (s.manager.putWorkerEventHandler i (c.server.logicPeer.getD ⟨"", 0⟩) c.server.realPeer).2 with
    | false =>
      rw [putWorkerEventHandler_false hput]
      exact .refuse hc hpc
    | true => exact .register i c _ hc hpc rfl hput

theorem moves_of_stepConn {e : Event} (hc : s.conns[i]? = some c) (h : s.stepConn i c e = some u) : Moves s u := by
  cases e with
  | connect => cases h
  | disconnect => cases h
  | stop => cases h
  | client j a =>
    obtain ⟨o, ho, rfl⟩ := Option.map_eq_some_iff.mp h
    have ha := acts_of_act ho
    exact .inside i c _ hc (by simp only [Connection.peer, ha.same.2]) id fun hok => hok.clientAct ha
  | clientLogic j ok =>
    obtain ⟨hpc, hu⟩ := Option.ite_none_right_eq_some.mp h
    cases hu
    refine .inside i c _ hc ?_ id fun hok => hok.clientLogic hpc ok
    simp only [Connection.peer, (logicConnected_same c.client ok).2.2.2.2]
  | server j a =>
    obtain ⟨o, ho, rfl⟩ := Option.map_eq_some_iff.mp h
    have ha := acts_of_act ho
    exact .inside i c _ hc (by simp only [Connection.peer, ha.same.1]) (asked_act · ha)
      fun hok => hok.serverAct ha
  | serverLogic j =>
    obtain ⟨hpc, hu⟩ := Option.ite_none_right_eq_some.mp h
    cases hu
    exact moves_serverLogic hc hpc
  | push j payload =>
    obtain ⟨hpush, hu⟩ := Option.ite_none_right_eq_some.mp h
    cases hu
    refine .inside i c _ hc rfl id fun hok => ?_
    rw [hpush.1] at hok ⊢
    exact hok.push hpush.2 payload
  | flush j n =>
    obtain ⟨hs, hu⟩ := Option.ite_none_right_eq_some.mp h
    cases hu
    refine .inside i c _ hc rfl id fun hok => ?_
    cases hreg : registeredOnce s.log i with
    | true =>
      rw [hreg] at hok
      exact hok.flush hs n
    | false =>
      rw [hreg] at hok
      exact absurd hs hok.server.ne_connected
  | finish j =>
    cases h
    exact .removed _ _ (removes_removeFinished _ _ _)

theorem moves_of_step {e : Event} {r : Unit} (h : s.step e = some (u, r)) : Moves s u := by
  have hconn : (match s.conns[System.Event.conn e]? with
      | none => none
      | some c => (s.stepConn (System.Event.conn e) c e).map (·, ())) = some (u, r) → Moves s u := by
    intro h
    cases hc : s.conns[System.Event.conn e]? with
    | none =>
      rw [hc] at h
      cases h
    | some c =>
      rw [hc] at h
      obtain ⟨v, hv, heq⟩ := Option.map_eq_some_iff.mp h
      cases heq
      exact moves_of_stepConn hc hv
  cases e with
  | connect clientAddr serverAddr logicPort =>
    cases h
    exact .connect clientAddr serverAddr logicPort
  | disconnect lnpt =>
    cases h
    exact .removed _ _ (removes_removeWorkerEventHandler _ _)
  | stop =>
    cases h
    exact .stop
  | client i a => exact hconn h
  | clientLogic i ok => exact hconn h
  | server i a => exact hconn h
  | serverLogic i => exact hconn h
  | push i payload => exact hconn h
  | flush i n => exact hconn h
  | finish i => exact hconn h

theorem SystemOk.connect (hs : SystemOk s) (clientAddr serverAddr : NetAddr) (logicPort : UInt16) :
    SystemOk { s with conns := s.conns ++ [⟨.client serverAddr logicPort, .server clientAddr, [], []⟩] } := by
  refine ⟨fun i c hc => ?_, hs.registers, fun i p hp => ?_⟩
  · by_cases hi : i < s.conns.length
    · rw [List.getElem?_append_left hi] at hc
      exact hs.conns i c hc
    · -- a number nobody had before is not in the log
      have hreg : registeredOnce s.log i = false := by
        rw [Bool.eq_false_iff]
        intro hput
        obtain ⟨p, hp⟩ := registeredOnce_iff.mp hput
        obtain ⟨d, hd, -⟩ := hs.puts i p hp
        exact hi (List.getElem?_eq_some_iff.mp hd).1
      rw [List.getElem?_append_right (Nat.le_of_not_lt hi)] at hc
      have hnew := List.mem_singleton.mp (List.mem_of_getElem? hc)
      rw [hnew, hreg]
      exact connOk_new clientAddr serverAddr logicPort
  · obtain ⟨c, hc, hpeer⟩ := hs.puts i p hp
    have hi := (List.getElem?_eq_some_iff.mp hc).1
    exact ⟨c, (List.getElem?_append_left hi).trans hc, hpeer⟩

theorem SystemOk.register {s : System} (hs : SystemOk s) {i : ℕ} {c : Connection} {lnpt : NetAddr}
    (hc : s.conns[i]? = some c) (hpc : c.server.pc = .registering)
    (hlnpt : lnpt = c.server.logicPeer.getD ⟨"", 0⟩)
    (hput : (s.manager.putWorkerEventHandler i lnpt c.server.realPeer).2 = true) :
    SystemOk (System.update { s with
      manager := (s.manager.putWorkerEventHandler i lnpt c.server.realPeer).1
      log := s.log ++ [.put i lnpt] } i { c with server := c.server.logicConnected true }) := by
  have hok := hs.conns i c hc
  obtain ⟨hreg, hnamed⟩ := hok.server.reg_of_registering hpc
  rw [hok.logicPeer hnamed, Option.getD_some] at hlnpt
  rw [hreg] at hok
  have hok' := hok.serverLogic hpc true
  have hi : i < s.conns.length := (List.getElem?_eq_some_iff.mp hc).1
  refine ⟨fun j d hd => ?_, hs.registers.put i lnpt _ hput, fun j p hp => ?_⟩
  · simp only [System.update, registeredOnce_put]
    by_cases hij : i = j
    · subst hij
      rw [System.update, List.getElem?_set_self hi] at hd
      cases hd
      simpa using hok'
    · rw [System.update, List.getElem?_set_ne hij] at hd
      rw [beq_false_of_ne hij, Bool.or_false]
      exact hs.conns j d hd
  · have hpeer := peer_logicConnected c true
    have hin : .put j p ∈ s.log ∨ j = i ∧ p = lnpt := by simpa [System.update] using hp
    by_cases hij : i = j
    · subst hij
      refine ⟨_, List.getElem?_set_self hi, ?_⟩
      rw [hpeer]
      rcases hin with hin | ⟨-, hp⟩
      · obtain ⟨d, hd, hp⟩ := hs.puts i p hin
        rw [hc] at hd
        cases hd
        exact hp
      · rw [hp, hlnpt]
    · rcases hin with hin | ⟨hji, -⟩
      · obtain ⟨d, hd, hp⟩ := hs.puts j p hin
        exact ⟨d, (List.getElem?_set_ne hij).trans hd, hp⟩
      · exact absurd hji.symm hij

theorem put_mem_removed {lnpt : NetAddr} {r : UniqueWorkerManager × Option ℕ} :
    .put j p ∈ (s.removed lnpt r).log ↔ .put j p ∈ s.log := by
  obtain ⟨m, found⟩ := r
  cases found with
  | none => exact Iff.rfl
  | some h => simp [System.removed]

theorem SystemOk.removed (hs : SystemOk s) {lnpt : NetAddr} {r : UniqueWorkerManager × Option ℕ}
    (hr : Removes s.manager lnpt r) : SystemOk (s.removed lnpt r) := by
  obtain ⟨m, found⟩ := r
  cases found with
  | none =>
    refine ⟨hs.conns, fun p => ?_, hs.puts⟩
    have hworkers : m.workers = s.manager.workers := hr.absent rfl
    simp only [System.removed, hworkers]
    exact hs.registers p
  | some h =>
    obtain ⟨hfound, hworkers⟩ := hr.present h rfl
    refine ⟨fun i c hc => ?_, hs.registers.erase hfound hworkers, fun i p hp => ?_⟩
    · simp only [System.removed, registeredOnce_removed]
      exact hs.conns i c hc
    · exact hs.puts i p (put_mem_removed.mp hp)

theorem SystemOk.moves (hs : SystemOk s) (hm : Moves s u) : SystemOk u := by
  cases hm with
  | connect clientAddr serverAddr logicPort => exact hs.connect clientAddr serverAddr logicPort
  | inside i c c' hc hpeer _ hok => exact hs.update hc (hok (hs.conns i c hc)) hpeer
  | register i c lnpt hc hpc hlnpt hput => exact hs.register hc hpc hlnpt hput
  | removed lnpt r hr => exact hs.removed hr
  | stop => exact ⟨hs.conns, hs.registers, hs.puts⟩

/-- While somebody holds a logic peer nobody else is registered for it. -/
theorem Moves.put_old (hs : SystemOk s) (hm : Moves s u) (hx : x ∈ holders s.log p) (hput : .put j p ∈ u.log) :
    .put j p ∈ s.log := by
  cases hm with
  | connect => exact hput
  | inside => exact hput
  | stop => exact hput
  | removed lnpt r hr => exact put_mem_removed.mp hput
  | register i c lnpt hc hpc hlnpt hregistered =>
    have hin : .put j p ∈ s.log ∨ j = i ∧ p = lnpt := by simpa [System.update] using hput
    rcases hin with hin | ⟨-, rfl⟩
    · exact hin
    · rw [hs.registers p, Option.mem_toList] at hx
      unfold UniqueWorkerManager.putWorkerEventHandler at hregistered
      rw [Option.mem_def.mp hx] at hregistered
      cases hregistered

def Connection.Unconnected (c : Connection) : Prop :=
  c.client.connState ≠ .Connected ∧ c.server.connState ≠ .Connected

theorem SystemOk.unconnected (hs : SystemOk s) (hc : s.conns[j]? = some c) (hput : .put j c.peer ∉ s.log) :
    c.Unconnected := by
  have hreg : registeredOnce s.log j = false := by
    rw [Bool.eq_false_iff]
    intro hreg
    obtain ⟨p, hp⟩ := registeredOnce_iff.mp hreg
    obtain ⟨d, hd, hpeer⟩ := hs.puts j p hp
    rw [hc] at hd
    cases hd
    exact hput (hpeer ▸ hp)
  have hok := hs.conns j c hc
  rw [hreg] at hok
  exact ⟨hok.ne_connected, hok.server.ne_connected⟩

/-- The server has refused the connection, or has lost it before. -/
structure Refused (j : ℕ) (s : System) : Prop where
  ok : SystemOk s
  asked : ∃ c, s.conns[j]? = some c ∧ Asked c.server
  unregistered : ∀ p, .put j p ∉ s.log

theorem Refused.moves (hr : Refused j s) (hm : Moves s u) : Refused j u := by
  have hu := hr.ok.moves hm
  obtain ⟨c, hc, hasked⟩ := hr.asked
  have hj : j < s.conns.length := (List.getElem?_eq_some_iff.mp hc).1
  cases hm with
  | connect => exact ⟨hu, ⟨c, (List.getElem?_append_left hj).trans hc, hasked⟩, hr.unregistered⟩
  | inside i d d' hd hpeer hkeep hok =>
    refine ⟨hu, ?_, hr.unregistered⟩
    by_cases hij : i = j
    · subst hij
      rw [hc] at hd
      cases hd
      exact ⟨d', List.getElem?_set_self hj, hkeep hasked⟩
    · exact ⟨c, (List.getElem?_set_ne hij).trans hc, hasked⟩
  | register i d lnpt hd hpc hlnpt hput =>
    have hij : i ≠ j := by
      rintro rfl
      rw [hc] at hd
      cases hd
      exact not_asked_of_registering hpc hasked
    refine ⟨hu, ⟨c, (List.getElem?_set_ne hij).trans hc, hasked⟩, fun p hp => ?_⟩
    have hin : .put j p ∈ s.log ∨ j = i ∧ p = lnpt := by simpa [System.update] using hp
    rcases hin with hin | ⟨hji, -⟩
    · exact hr.unregistered p hin
    · exact hij hji.symm
  | removed lnpt r hrem =>
    exact ⟨hu, ⟨c, hc, hasked⟩, fun p hp => hr.unregistered p (put_mem_removed.mp hp)⟩
  | stop => exact ⟨hu, ⟨c, hc, hasked⟩, hr.unregistered⟩

theorem Refused.unconnected (hr : Refused j s) (hc : s.conns[j]? = some c) : c.Unconnected :=
  hr.ok.unconnected hc (hr.unregistered _)

/-- The server calls `m_onLogicConnect` while somebody holds the logic peer. -/
theorem SystemOk.refuses (hs : SystemOk s) {r : Unit} (hc : s.conns[j]? = some c) (hpc : c.server.pc = .registering)
    (hx : x ∈ holders s.log c.peer) (hstep : s.step (.serverLogic j) = some (u, r)) : Refused j u := by
  have hu := hs.moves (moves_of_step hstep)
  have hok := hs.conns j c hc
  obtain ⟨hreg, hnamed⟩ := hok.server.reg_of_registering hpc
  rw [hs.registers c.peer, Option.mem_toList] at hx
  have hrefused : s.onLogicConnect j c.server = (s, false) := by
    simp [System.onLogicConnect, hok.logicPeer hnamed, UniqueWorkerManager.putWorkerEventHandler, hx]
  have heq : u = s.update j { c with server := c.server.logicConnected false } := by
    simpa [System.step, System.Event.conn, hc, System.stepConn, hpc, hrefused, eq_comm] using hstep
  subst heq
  have hj : j < s.conns.length := (List.getElem?_eq_some_iff.mp hc).1
  refine ⟨hu, ⟨_, List.getElem?_set_self hj, hok.server.asked_logicConnected hpc false⟩, fun p hp => ?_⟩
  exact Bool.false_ne_true (hreg.symm.trans (registeredOnce_iff.mpr ⟨p, hp⟩))

theorem systemOk_run (hs : SystemOk s) (hrun : run System.step s es = some (u, rs)) : SystemOk u :=
  run_invariant (P := fun _ _ => True) (I := fun s _ => SystemOk s)
    (fun _ _ _ _ _ hI _ hstep => hI.moves (moves_of_step hstep)) [] hs
    (along_of_forall (fun _ _ _ => trivial) s) hrun

theorem put_old_run (hs : SystemOk s) (hheld : Along System.step (fun t _ => x ∈ holders t.log p) s es)
    (hrun : run System.step s es = some (u, rs)) (hput : .put j p ∈ u.log) : .put j p ∈ s.log := by
  have hkept := run_invariant (P := fun t _ => x ∈ holders t.log p)
    (I := fun t _ => SystemOk t ∧ (.put j p ∈ t.log → .put j p ∈ s.log))
    (fun t _ e v _ hI hx hstep => by
      have hm := moves_of_step hstep
      exact ⟨hI.1.moves hm, fun hv => hI.2 (hm.put_old hI.1 hx hv)⟩)
    [] ⟨hs, id⟩ hheld hrun
  exact hkept.2 hput

theorem refused_run (hs : Refused j s) (hrun : run System.step s es = some (u, rs)) : Refused j u :=
  run_invariant (P := fun _ _ => True) (I := fun s _ => Refused j s)
    (fun _ _ _ _ _ hI _ hstep => hI.moves (moves_of_step hstep)) [] hs
    (along_of_forall (fun _ _ _ => trivial) s) hrun

/-- A client that is connected was registered under its address and the port it sent. No logic
peer has two connections. While one is registered no other connection of the same logic peer is
connected at either end, and one that asks meanwhile never will be. -/
theorem handshake_agreement {es : List Event} {s : System} {rs : List Unit}
    (hrun : run System.step start es = some (s, rs)) :
    (∀ i c, s.conns[i]? = some c → c.client.connState = .Connected →
      c.client.said.head? = some (connectRequest c.client.logicPort) ∧
        .put i ⟨c.server.realPeer.addr, c.client.logicPort⟩ ∈ s.log) ∧
    (∀ p, (holders s.log p).length ≤ 1) ∧
    (∀ x p es' u rs', run System.step s es' = some (u, rs') →
      Along System.step (fun t _ => x ∈ holders t.log p) s es' →
      ∀ j c, registeredOnce s.log j = false → u.conns[j]? = some c → c.peer = p → c.Unconnected) ∧
    (∀ x j c, s.conns[j]? = some c → c.server.pc = .registering → x ∈ holders s.log c.peer →
      ∀ es' u rs', run System.step s (.serverLogic j :: es') = some (u, rs') →
        ∀ c', u.conns[j]? = some c' → c'.Unconnected) := by
  have hs := systemOk_run systemOk_start hrun
  refine ⟨fun i c hc hconn => ?_, fun p => ?_, fun x p es' u rs' hrun' hheld j c hreg hc hpeer => ?_,
    fun x j c hc hpc hx es' u rs' hrun' c' hc' => ?_⟩
  · constructor
    · refine (hs.conns i c hc).client.asked fun hcreated => ?_
      have htable := (hs.conns i c hc).client.table
      rw [hconn, hcreated] at htable
      exact htable
    · by_contra hput
      exact (hs.unconnected hc hput).1 hconn
  · rw [hs.registers p]
    exact Option.length_toList_le
  · subst hpeer
    refine (systemOk_run hs hrun').unconnected hc fun hput => ?_
    have hold := put_old_run hs hheld hrun' hput
    exact Bool.false_ne_true (hreg.symm.trans (registeredOnce_iff.mpr ⟨_, hold⟩))
  · obtain ⟨t, r, rs'', hstep, hrest, -⟩ := run_cons.mp hrun'
    exact (refused_run (hs.refuses hc hpc hx hstep) hrest).unconnected hc'

/-- Two connections of one client, the second one up to the registration. -/
def twoConnections : List Event :=
  [.connect ⟨"a", 1⟩ ⟨"s", 9⟩ 7, .connect ⟨"a", 2⟩ ⟨"s", 9⟩ 7,
    .client 0 .enter, .client 0 (.send true 0), .server 0 .enter, .server 0 (.recv []),
    .server 0 (.send true 0), .client 0 (.recv []), .client 0 (.send true 0), .server 0 (.recv []),
    .serverLogic 0, .server 0 .answer, .server 0 (.send true 0), .client 0 (.recv []), .clientLogic 0 true,
    .client 1 .enter, .client 1 (.send true 0), .server 1 .enter, .server 1 (.recv []),
    .server 1 (.send true 0), .client 1 (.recv []), .client 1 (.send true 0), .server 1 (.recv [])]

theorem twoConnections_run : ∃ o ∈ run System.step start twoConnections,
    (∃ c ∈ o.1.conns[0]?, c.client.connState = .Connected) ∧
      (∃ d ∈ o.1.conns[1]?, d.server.pc = .registering ∧ d.peer = ⟨"a", 7⟩) ∧
      holders o.1.log ⟨"a", 7⟩ = [0] := by
  decide +kernel

theorem handshake_agreement_two : ∃ o ∈ run System.step start twoConnections,
    (∃ c ∈ o.1.conns[0]?, c.client.connState = .Connected ∧
      .put 0 ⟨c.server.realPeer.addr, c.client.logicPort⟩ ∈ o.1.log) ∧
    (holders o.1.log ⟨"a", 7⟩).length ≤ 1 ∧
    (∃ d ∈ o.1.conns[1]?, d.server.pc = .registering ∧ d.peer = ⟨"a", 7⟩) ∧
    (∀ es' u rs', run System.step o.1 (.serverLogic 1 :: es') = some (u, rs') →
      ∀ d' ∈ u.conns[1]?, d'.Unconnected) := by
  obtain ⟨⟨s, rs⟩, hrun, ⟨c, hc, hconn⟩, ⟨d, hd, hpc, hpeer⟩, hheld⟩ := twoConnections_run
  obtain ⟨hregistered, hone, -, hrefused⟩ := handshake_agreement hrun
  have hx : 0 ∈ holders s.log d.peer := by
    rw [hpeer, hheld]
    exact List.mem_singleton_self 0
  exact ⟨(s, rs), hrun, ⟨c, hc, hconn, (hregistered 0 c hc hconn).2⟩, hone _, ⟨d, hd, hpc, hpeer⟩,
    fun es' u rs' hrun' d' hd' => hrefused 0 1 d hd hpc hx es' u rs' hrun' d' hd'⟩

end

end FlyingKV.Net.Agreement
