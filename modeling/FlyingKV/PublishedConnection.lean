import FlyingKV.NetHandshake

set_option autoImplicit false

/-!
# Publishing a connection

One `NBSocketService`. Threads inside `SendMessage` look handlers up and connect to peers, tasks
of the accept thread pool establish the connections of others, and the event workers serve what
has been added. A handler enters the registry in the middle of its handshake. What a peer sends
is arbitrary. A step that touches a deleted handler or a null worker ends the process.
-/
namespace FlyingKV.Net.Published
open ByteOrder EventRun

/-- How far the thread that establishes a connection has come: inside `Initialize`, before
`AddEvent`, or behind it. -/
inductive Stage where
  | initializing
  | adding
  | added
  | deleted
deriving DecidableEq, Repr

structure Handler where
  worker : Worker
  ownWorker : Option ℕ
  stage : Stage
deriving DecidableEq, Repr

/-- How far a call of `NBSocketService::SendMessage` has come. -/
inductive CallPc where
  | entered (peer : NetAddr) (m : Bytes)
  | missed (peer : NetAddr) (m : Bytes)
  | connecting (peer : NetAddr) (m : Bytes) (h : ℕ)
  | reconnected (peer : NetAddr) (m : Bytes)
  | holding (h : ℕ) (m : Bytes)
  | sized (h : ℕ) (m : Bytes) (previousSize : ℕ)
  | pushed (h : ℕ)
  | done (rc : Bool)
deriving DecidableEq, Repr

/-- The handler that `GetWorkerEventHandlerWithRef` has returned to a call. -/
def CallPc.holds : CallPc → Option ℕ
  | .holding h _ | .sized h _ _ | .pushed h => some h
  | _ => none

structure Service where
  logicPort : UInt16
  handlers : List Handler
  manager : UniqueWorkerManager
  calls : List CallPc

def start (logicPort : UInt16) : Service := ⟨logicPort, [], .empty, []⟩

/-- `establish` carries what arrives, `initialized` what `SetNonBlocking` returns, `advance`
whether a socket can be connected. -/
inductive Event where
  | sendMessage (peer : NetAddr) (m : Bytes)
  | accept (peerAddr : NetAddr)
  | establish (h : ℕ) (inbox : List Queued) (a : Act)
  | logicConnect (h : ℕ)
  | initialized (h : ℕ) (nonBlocking : Bool)
  | addEvent (h : ℕ) (ew : ℕ)
  | advance (i : ℕ) (socket : Bool)
  | write (h : ℕ) (n : ℕ)
  | finish (h : ℕ)
  | disconnect (peer : NetAddr)
deriving DecidableEq, Repr

namespace Service

def setHandler (s : Service) (h : ℕ) (hd : Handler) : Service := { s with handlers := s.handlers.set h hd }

def setCall (s : Service) (i : ℕ) (pc : CallPc) : Service := { s with calls := s.calls.set i pc }

/-- The thread that runs `Initialize` of handler `h`, and `AddEvent` behind it. -/
def stepHandler (s : Service) (h : ℕ) (hd : Handler) : Event → Option Service
  | .establish _ inbox a =>
    if hd.stage = .initializing then
      (hd.worker.act inbox a).map fun o => s.setHandler h { hd with worker := o.worker }
    else none
  | .logicConnect _ =>
    if hd.stage = .initializing ∧ hd.worker.pc = .registering then
      let put := s.manager.putWorkerEventHandler h (hd.worker.logicPeer.getD ⟨"", 0⟩) hd.worker.realPeer
      some ({ s with manager := put.1 }.setHandler h { hd with worker := hd.worker.logicConnected put.2 })
    else none
  | .initialized _ nonBlocking =>
    if hd.stage = .initializing ∧ hd.worker.pc = .completed then
      if hd.worker.connState = .Connected ∧ nonBlocking = true then
        some (s.setHandler h { hd with stage := .adding })
      else some (s.setHandler h { hd with stage := .deleted })
    else none
  | .addEvent _ ew =>
    if hd.stage = .adding then some (s.setHandler h { hd with ownWorker := some ew, stage := .added })
    else none
  | .write _ n =>
    -- the event worker sends the first messages of the queue
    if hd.stage = .added then
      some (s.setHandler h { hd with worker := { hd.worker with queue := hd.worker.queue.drop n } })
    else none
  | .finish _ =>
    if hd.stage = .added then
      let lnpt := hd.worker.logicPeer.getD ⟨"", 0⟩
      some { s with manager := (s.manager.removeFinished lnpt hd.worker.realPeer).1 }
    else none
  | _ => none

/-- `ANetStackMessageWorker::SendMessage` on a handler that is not deleted. -/
def send (s : Service) (i h : ℕ) (hd : Handler) : CallPc → Option Service
  | .holding _ m => some (s.setCall i (.sized h m hd.worker.queue.length))
  | .sized _ m previousSize =>
    some ((s.setHandler h { hd with worker := hd.worker.insertMessage (.app m) }).setCall i
      (if previousSize = 0 then .pushed h else .done true))
  | .pushed _ =>
    match hd.ownWorker with
    | none => none
    | some _ => some (s.setCall i (.done true))
  | _ => none

/-- The next step of call `i`. -/
def advance (s : Service) (i : ℕ) (socket : Bool) : CallPc → Option Service
  | .entered peer m =>
    match s.manager.getWorkerEventHandler peer with
    | some h => some (s.setCall i (.holding h m))
    | none => some (s.setCall i (.missed peer m))
  | .missed peer m =>
    match s.manager.getWorkerEventHandler peer with
    | some _ => some (s.setCall i (.reconnected peer m))
    | none =>
      if socket then
        let hd : Handler := ⟨.client peer s.logicPort, none, .initializing⟩
        some ({ s with handlers := s.handlers ++ [hd] }.setCall i (.connecting peer m s.handlers.length))
      else some (s.setCall i (.done false))
  | .connecting peer m h =>
    match s.handlers[h]?.map Handler.stage with
    | some .added => some (s.setCall i (.reconnected peer m))
    | some .deleted => some (s.setCall i (.done false))
    | _ => none
  | .reconnected peer m =>
    match s.manager.getWorkerEventHandler peer with
    | some h => some (s.setCall i (.holding h m))
    | none => some (s.setCall i (.done false))
  | .done _ => none
  | pc =>
    match pc.holds with
    | none => none
    | some h =>
      match s.handlers[h]? with
      | none => none
      | some hd => if hd.stage = .deleted then none else s.send i h hd pc

def step (s : Service) (e : Event) : Option (Service × Unit) :=
  match e with
  | .sendMessage peer m => some ({ s with calls := s.calls ++ [.entered peer m] }, ())
  | .accept peerAddr =>
    some ({ s with handlers := s.handlers ++ [⟨.server peerAddr, none, .initializing⟩] }, ())
  | .disconnect peer => some ({ s with manager := (s.manager.removeWorkerEventHandler peer).1 }, ())
  | .advance i socket => (s.calls[i]?.bind (s.advance i socket)).map (·, ())
  | .establish h _ _ | .logicConnect h | .initialized h _ | .addEvent h _ | .write h _ | .finish h =>
    (s.handlers[h]?.bind fun hd => s.stepHandler h hd e).map (·, ())

/-- The handler that a step gets from `GetWorkerEventHandlerWithRef`. -/
def lookup (s : Service) : Event → Option ℕ
  | .advance i _ =>
    match s.calls[i]? with
    | some (.entered peer _) => s.manager.getWorkerEventHandler peer
    | some (.reconnected peer _) => s.manager.getWorkerEventHandler peer
    | _ => none
  | _ => none

end Service

/-- A call looks a peer up only when the connection registered for it is behind `AddEvent`. -/
def Careful (s : Service) (e : Event) : Prop :=
  ∀ h ∈ s.lookup e, ∀ hd ∈ s.handlers[h]?, hd.stage = .added

instance (s : Service) (e : Event) : Decidable (Careful s e) :=
  inferInstanceAs (Decidable (∀ h ∈ s.lookup e, ∀ hd ∈ s.handlers[h]?, hd.stage = .added))

/-! ## What a step can do -/

/-- What the thread that establishes a connection, and later its event worker, do to a handler. -/
inductive Changes (hd : Handler) : Handler → Prop where
  | act (inbox : List Queued) (o : Acted) (hstage : hd.stage = .initializing) (ha : Acts hd.worker inbox o) :
      Changes hd { hd with worker := o.worker }
  | registered (ok : Bool) (hstage : hd.stage = .initializing) :
      Changes hd { hd with worker := hd.worker.logicConnected ok }
  | connected (hstage : hd.stage = .initializing) : Changes hd { hd with stage := .adding }
  | failed (hstage : hd.stage = .initializing) : Changes hd { hd with stage := .deleted }
  | added (ew : ℕ) (hstage : hd.stage = .adding) :
      Changes hd { hd with ownWorker := some ew, stage := .added }
  | written (n : ℕ) (hstage : hd.stage = .added) :
      Changes hd { hd with worker := { hd.worker with queue := hd.worker.queue.drop n } }

def fresh (w : Worker) : Handler := ⟨w, none, .initializing⟩

inductive Moves (s : Service) (e : Event) : Service → Prop where
  | entered (peer : NetAddr) (m : Bytes) : Moves s e { s with calls := s.calls ++ [.entered peer m] }
  | accepted (peerAddr : NetAddr) :
      Moves s e { s with handlers := s.handlers ++ [fresh (.server peerAddr)] }
  | connecting (i : ℕ) (peer : NetAddr) (m : Bytes) :
      Moves s e (Service.setCall { s with handlers := s.handlers ++ [fresh (.client peer s.logicPort)] } i
        (.connecting peer m s.handlers.length))
  | changed (h : ℕ) (hd hd' : Handler) (hh : s.handlers[h]? = some hd) (hc : Changes hd hd') :
      Moves s e (s.setHandler h hd')
  | registered (h : ℕ) (hd : Handler) (lnpt rnpt : NetAddr) (hh : s.handlers[h]? = some hd)
      (hc : Changes hd { hd with
        worker := hd.worker.logicConnected (s.manager.putWorkerEventHandler h lnpt rnpt).2 }) :
      Moves s e (Service.setHandler { s with manager := (s.manager.putWorkerEventHandler h lnpt rnpt).1 } h
        { hd with worker := hd.worker.logicConnected (s.manager.putWorkerEventHandler h lnpt rnpt).2 })
  | removed (m : UniqueWorkerManager) (hm : ∀ p h, m.workers p = some h → s.manager.workers p = some h) :
      Moves s e { s with manager := m }
  | found (i h : ℕ) (peer : NetAddr) (m : Bytes) (hlookup : s.lookup e = some h)
      (hfound : s.manager.workers peer = some h) : Moves s e (s.setCall i (.holding h m))
  | called (i : ℕ) (pc pc' : CallPc) (hpc : s.calls[i]? = some pc) (hholds : ∀ h ∈ pc'.holds, h ∈ pc.holds) :
      Moves s e (s.setCall i pc')
  | pushed (i h : ℕ) (pc pc' : CallPc) (hd : Handler) (m : Bytes) (hpc : s.calls[i]? = some pc)
      (hheld : pc.holds = some h) (hholds : ∀ x ∈ pc'.holds, x = h) (hh : s.handlers[h]? = some hd) :
      Moves s e ((s.setHandler h { hd with worker := hd.worker.insertMessage (.app m) }).setCall i pc')

section
variable {s u : Service} {h i x : ℕ} {hd : Handler} {e : Event} {pc : CallPc}

theorem moves_of_stepHandler (hh : s.handlers[h]? = some hd) (hu : s.stepHandler h hd e = some u) : Moves s e u := by
  cases e with
  | sendMessage => cases hu
  | accept => cases hu
  | advance => cases hu
  | disconnect => cases hu
  | establish j inbox a =>
    obtain ⟨hstage, hu⟩ := Option.ite_none_right_eq_some.mp hu
    obtain ⟨o, ho, rfl⟩ := Option.map_eq_some_iff.mp hu
    exact .changed h hd _ hh (.act inbox o hstage (acts_of_act ho))
  | logicConnect j =>
    obtain ⟨hstage, hu⟩ := Option.ite_none_right_eq_some.mp hu
    cases hu
    exact .registered h hd _ _ hh (.registered _ hstage.1)
  | initialized j nonBlocking =>
    obtain ⟨hstage, hu⟩ := Option.ite_none_right_eq_some.mp hu
    split_ifs at hu
    · cases hu
      exact .changed h hd _ hh (.connected hstage.1)
    · cases hu
      exact .changed h hd _ hh (.failed hstage.1)
  | addEvent j ew =>
    obtain ⟨hstage, hu⟩ := Option.ite_none_right_eq_some.mp hu
    cases hu
    exact .changed h hd _ hh (.added ew hstage)
  | write j n =>
    obtain ⟨hstage, hu⟩ := Option.ite_none_right_eq_some.mp hu
    cases hu
    exact .changed h hd _ hh (.written n hstage)
  | finish j =>
    obtain ⟨-, hu⟩ := Option.ite_none_right_eq_some.mp hu
    cases hu
    exact .removed _ fun p x => (removes_removeFinished _ _ _).workers

theorem moves_of_send (hpc : s.calls[i]? = some pc) (hheld : pc.holds = some h) (hh : s.handlers[h]? = some hd)
    (hu : s.send i h hd pc = some u) : Moves s e u := by
  cases pc with
  | holding x m =>
    cases hu
    exact .called i _ _ hpc fun y hy => hheld.trans hy
  | sized x m previousSize =>
    cases hu
    refine .pushed i h _ _ hd m hpc hheld (fun y hy => ?_) hh
    split_ifs at hy
    · exact (Option.some.inj hy).symm
    · cases hy
  | pushed x =>
    unfold Service.send at hu
    cases hw : hd.ownWorker with
    | none =>
      rw [hw] at hu
      cases hu
    | some ew =>
      rw [hw] at hu
      cases hu
      exact .called i _ _ hpc nofun
  | entered => cases hu
  | missed => cases hu
  | connecting => cases hu
  | reconnected => cases hu
  | done => cases hu

theorem moves_of_held {socket : Bool} (hpc : s.calls[i]? = some pc) (hheld : pc.holds = some h)
    (hu : s.advance i socket pc = some u) : Moves s (.advance i socket) u := by
  have hsend : (match s.handlers[h]? with
      | none => none
      | some hd => if hd.stage = .deleted then none else s.send i h hd pc) = some u := by
    cases pc with
    | holding x m => cases hheld; exact hu
    | sized x m previousSize => cases hheld; exact hu
    | pushed x => cases hheld; exact hu
    | entered => cases hheld
    | missed => cases hheld
    | connecting => cases hheld
    | reconnected => cases hheld
    | done => cases hheld
  cases hh : s.handlers[h]? with
  | none =>
    rw [hh] at hsend
    cases hsend
  | some hd =>
    rw [hh] at hsend
    obtain ⟨-, hsend⟩ := Option.ite_none_left_eq_some.mp hsend
    exact moves_of_send hpc hheld hh hsend

theorem moves_of_advance {socket : Bool} (hpc : s.calls[i]? = some pc) (hu : s.advance i socket pc = some u) :
    Moves s (.advance i socket) u := by
  cases pc with
  | holding h m => exact moves_of_held hpc rfl hu
  | sized h m previousSize => exact moves_of_held hpc rfl hu
  | pushed h => exact moves_of_held hpc rfl hu
  | done rc => cases hu
  | entered peer m =>
    unfold Service.advance at hu
    cases hw : s.manager.getWorkerEventHandler peer with
    | none =>
      simp only [hw] at hu
      cases hu
      exact .called i _ _ hpc nofun
    | some h =>
      simp only [hw] at hu
      cases hu
      exact .found i h peer m (by simp only [Service.lookup, hpc, hw]) hw
  | reconnected peer m =>
    unfold Service.advance at hu
    cases hw : s.manager.getWorkerEventHandler peer with
    | none =>
      simp only [hw] at hu
      cases hu
      exact .called i _ _ hpc nofun
    | some h =>
      simp only [hw] at hu
      cases hu
      exact .found i h peer m (by simp only [Service.lookup, hpc, hw]) hw
  | missed peer m =>
    unfold Service.advance at hu
    cases hw : s.manager.getWorkerEventHandler peer with
    | none =>
      simp only [hw] at hu
      cases socket with
      | true =>
        cases hu
        exact .connecting i peer m
      | false =>
        cases hu
        exact .called i _ _ hpc nofun
    | some h =>
      simp only [hw] at hu
      cases hu
      exact .called i _ _ hpc nofun
  | connecting peer m h =>
    unfold Service.advance at hu
    dsimp only at hu
    split at hu
    · cases hu
      exact .called i _ _ hpc nofun
    · cases hu
      exact .called i _ _ hpc nofun
    · cases hu

theorem moves_of_step {r : Unit} (hu : s.step e = some (u, r)) : Moves s e u := by
  have hhandler : ∀ h, ((s.handlers[h]?.bind fun hd => s.stepHandler h hd e).map (·, ())) = some (u, r) →
      Moves s e u := by
    intro h hu
    obtain ⟨v, hv, heq⟩ := Option.map_eq_some_iff.mp hu
    cases heq
    obtain ⟨hd, hh, hv⟩ := Option.bind_eq_some_iff.mp hv
    exact moves_of_stepHandler hh hv
  cases e with
  | sendMessage peer m =>
    cases hu
    exact .entered peer m
  | accept peerAddr =>
    cases hu
    exact .accepted peerAddr
  | disconnect peer =>
    cases hu
    exact .removed _ fun p x => (removes_removeWorkerEventHandler _ _).workers
  | advance i socket =>
    obtain ⟨v, hv, heq⟩ := Option.map_eq_some_iff.mp hu
    cases heq
    obtain ⟨pc, hpc, hv⟩ := Option.bind_eq_some_iff.mp hv
    exact moves_of_advance hpc hv
  | establish h inbox a => exact hhandler h hu
  | logicConnect h => exact hhandler h hu
  | initialized h nonBlocking => exact hhandler h hu
  | addEvent h ew => exact hhandler h hu
  | write h n => exact hhandler h hu
  | finish h => exact hhandler h hu

/-! ## Which handlers are usable -/

/-- The own worker of a handler is set by `AddEvent` and by nothing else. -/
structure Owned (s : Service) : Prop where
  own : ∀ hd ∈ s.handlers, hd.ownWorker.isSome = true ↔ hd.stage = .added
  known : ∀ p h, s.manager.workers p = some h → h < s.handlers.length

theorem Changes.own {hd hd' : Handler} (hc : Changes hd hd')
    (hown : hd.ownWorker.isSome = true ↔ hd.stage = .added) :
    hd'.ownWorker.isSome = true ↔ hd'.stage = .added := by
  cases hc with
  | act inbox o hstage ha => exact hown
  | registered ok hstage => exact hown
  | connected hstage => simpa [hstage] using hown
  | failed hstage => simpa [hstage] using hown
  | added ew hstage => simp
  | written n hstage => exact hown

theorem known_put (hs : Owned s) (hh : h < s.handlers.length) (lnpt rnpt : NetAddr) {p : NetAddr}
    (hx : (s.manager.putWorkerEventHandler h lnpt rnpt).1.workers p = some x) : x < s.handlers.length := by
  unfold UniqueWorkerManager.putWorkerEventHandler at hx
  cases hw : s.manager.workers lnpt with
  | some y =>
    rw [hw] at hx
    exact hs.known p x hx
  | none =>
    simp only [hw] at hx
    by_cases hp : p = lnpt
    · rw [hp, Function.update_self] at hx
      cases hx
      exact hh
    · rw [Function.update_of_ne hp] at hx
      exact hs.known p x hx

theorem forall_mem_set {α : Type} {P : α → Prop} {l : List α} (hl : ∀ x ∈ l, P x) (i : ℕ) {y : α} (hy : P y) :
    ∀ x ∈ l.set i y, P x := by
  intro x hmem
  rcases List.mem_or_eq_of_mem_set hmem with hmem | rfl
  · exact hl x hmem
  · exact hy

theorem forall_mem_concat {α : Type} {P : α → Prop} {l : List α} (hl : ∀ x ∈ l, P x) {y : α} (hy : P y) :
    ∀ x ∈ l ++ [y], P x :=
  List.forall_mem_append.mpr ⟨hl, List.forall_mem_singleton.mpr hy⟩

theorem own_fresh (w : Worker) : (fresh w).ownWorker.isSome = true ↔ (fresh w).stage = .added := by
  simp [fresh]

theorem Owned.moves (hs : Owned s) (hm : Moves s e u) : Owned u := by
  cases hm with
  | entered peer m => exact ⟨hs.own, hs.known⟩
  | accepted peerAddr =>
    refine ⟨forall_mem_concat hs.own (own_fresh _), fun p h hp => ?_⟩
    simpa using Nat.lt_succ_of_lt (hs.known p h hp)
  | connecting i peer m =>
    refine ⟨forall_mem_concat hs.own (own_fresh _), fun p h hp => ?_⟩
    simpa [Service.setCall] using Nat.lt_succ_of_lt (hs.known p h hp)
  | changed h hd hd' hh hc =>
    refine ⟨forall_mem_set hs.own h (hc.own (hs.own hd (List.mem_of_getElem? hh))), fun p x hp => ?_⟩
    simpa [Service.setHandler] using hs.known p x hp
  | registered h hd lnpt rnpt hh hc =>
    refine ⟨forall_mem_set hs.own h (hc.own (hs.own hd (List.mem_of_getElem? hh))), fun p x hp => ?_⟩
    have hlt := (List.getElem?_eq_some_iff.mp hh).1
    simpa [Service.setHandler] using known_put hs hlt lnpt rnpt hp
  | removed m hm => exact ⟨hs.own, fun p h hp => hs.known p h (hm p h hp)⟩
  | found => exact ⟨hs.own, hs.known⟩
  | called => exact ⟨hs.own, hs.known⟩
  | pushed i h pc pc' hd m hpc hheld hholds hh =>
    refine ⟨forall_mem_set hs.own h (hs.own hd (List.mem_of_getElem? hh)), fun p x hp => ?_⟩
    simpa [Service.setHandler, Service.setCall] using hs.known p x hp

theorem owned_start (logicPort : UInt16) : Owned (start logicPort) where
  own _ hmem := absurd hmem List.not_mem_nil
  known _ _ hw := by cases hw

/-! ## Runs in which nobody looks a peer up too early -/

/-- Application messages are behind those of the handshake, and there are none before `AddEvent`. -/
structure Orderly (hd : Handler) : Prop where
  quiet : hd.stage ≠ .added → ∀ m ∈ hd.worker.said, m.isHandshake = true
  last : hd.worker.said.Pairwise fun a b => b.isHandshake = true → a.isHandshake = true

theorem orderly_of_quiet (h : ∀ m ∈ hd.worker.said, m.isHandshake = true) : Orderly hd :=
  ⟨fun _ => h, List.pairwise_of_forall_mem_list fun a ha _ _ _ => h a ha⟩

theorem Orderly.changes {hd' : Handler} (ho : Orderly hd) (hc : Changes hd hd') : Orderly hd' := by
  cases hc with
  | act inbox o hstage ha =>
    have hquiet := ho.quiet (by simp [hstage])
    obtain ⟨ms, hsaid, hms⟩ := ha.says
    apply orderly_of_quiet
    intro m hm
    rw [hsaid] at hm
    rcases List.mem_append.mp hm with hm | hm
    · exact hquiet m hm
    · exact hms m hm
  | registered ok hstage =>
    have hquiet := ho.quiet (by simp [hstage])
    apply orderly_of_quiet
    rwa [(logicConnected_same hd.worker ok).1]
  | connected hstage => exact orderly_of_quiet (ho.quiet (by simp [hstage]))
  | failed hstage => exact orderly_of_quiet (ho.quiet (by simp [hstage]))
  | added ew hstage => exact ⟨fun hne => absurd rfl hne, ho.last⟩
  | written n hstage => exact ⟨ho.quiet, ho.last⟩

theorem Orderly.push (ho : Orderly hd) (hstage : hd.stage = .added) (m : Bytes) :
    Orderly { hd with worker := hd.worker.insertMessage (.app m) } := by
  refine ⟨fun hne => absurd hstage hne, ?_⟩
  simp only [Worker.insertMessage]
  refine List.pairwise_append.mpr ⟨ho.last, List.pairwise_singleton _ _, fun a ha b hb hhandshake => ?_⟩
  rw [List.mem_singleton.mp hb] at hhandshake
  cases hhandshake

theorem Changes.stays {hd' : Handler} (hc : Changes hd hd') (hstage : hd.stage = .added) :
    hd'.stage = .added := by
  cases hc with
  | act inbox o hs ha => exact hstage
  | registered ok hs => exact hstage
  | connected hs => rw [hs] at hstage; cases hstage
  | failed hs => rw [hs] at hstage; cases hstage
  | added ew hs => rfl
  | written n hs => exact hstage

def Added (s : Service) (h : ℕ) : Prop := ∃ hd, s.handlers[h]? = some hd ∧ hd.stage = .added

structure ServiceOk (s : Service) : Prop where
  owned : Owned s
  held : ∀ pc ∈ s.calls, ∀ h ∈ pc.holds, Added s h
  orderly : ∀ hd ∈ s.handlers, Orderly hd

theorem added_set (hh : s.handlers[h]? = some hd) (hd' : Handler) (hstays : hd.stage = .added → hd'.stage = .added)
    (hx : Added s x) : Added (s.setHandler h hd') x := by
  obtain ⟨hdx, hhx, hstage⟩ := hx
  have hlt := (List.getElem?_eq_some_iff.mp hh).1
  by_cases heq : h = x
  · subst heq
    rw [hh] at hhx
    cases hhx
    exact ⟨hd', List.getElem?_set_self hlt, hstays hstage⟩
  · exact ⟨hdx, (List.getElem?_set_ne heq).trans hhx, hstage⟩

theorem added_append (hd : Handler) (hx : Added s x) : Added { s with handlers := s.handlers ++ [hd] } x := by
  obtain ⟨hdx, hhx, hstage⟩ := hx
  have hlt := (List.getElem?_eq_some_iff.mp hhx).1
  exact ⟨hdx, (List.getElem?_append_left hlt).trans hhx, hstage⟩

theorem orderly_fresh {w : Worker} (hw : w.said = []) : Orderly (fresh w) :=
  orderly_of_quiet (by simp [fresh, hw])

theorem ServiceOk.moves (hs : ServiceOk s) (hcareful : Careful s e) (hm : Moves s e u) : ServiceOk u := by
  have howned := hs.owned.moves hm
  cases hm with
  | entered peer m =>
    refine ⟨howned, forall_mem_concat hs.held fun x hx => ?_, hs.orderly⟩
    cases hx
  | accepted peerAddr =>
    exact ⟨howned, fun pc hpc h hh => added_append _ (hs.held pc hpc h hh),
      forall_mem_concat hs.orderly (orderly_fresh rfl)⟩
  | connecting i peer m =>
    refine ⟨howned, forall_mem_set (fun pc hpc h hh => ?_) i fun x hx => ?_,
      forall_mem_concat hs.orderly (orderly_fresh rfl)⟩
    · exact added_append _ (hs.held pc hpc h hh)
    · cases hx
  | changed h hd hd' hh hc =>
    have ho := (hs.orderly hd (List.mem_of_getElem? hh)).changes hc
    exact ⟨howned, fun pc hpc x hx => added_set hh _ hc.stays (hs.held pc hpc x hx), forall_mem_set hs.orderly h ho⟩
  | registered h hd lnpt rnpt hh hc =>
    have ho := (hs.orderly hd (List.mem_of_getElem? hh)).changes hc
    exact ⟨howned, fun pc hpc x hx => added_set hh _ hc.stays (hs.held pc hpc x hx), forall_mem_set hs.orderly h ho⟩
  | removed m hm => exact ⟨howned, hs.held, hs.orderly⟩
  | found i h peer m hlookup hfound =>
    have hlt := hs.owned.known peer h hfound
    have hadded : Added s h := ⟨_, List.getElem?_eq_getElem hlt,
      hcareful h hlookup _ (List.getElem?_eq_getElem hlt)⟩
    refine ⟨howned, forall_mem_set hs.held i fun x hx => ?_, hs.orderly⟩
    cases hx
    exact hadded
  | called i pc pc' hpc hholds =>
    refine ⟨howned, forall_mem_set hs.held i fun x hx => ?_, hs.orderly⟩
    exact hs.held pc (List.mem_of_getElem? hpc) x (hholds x hx)
  | pushed i h pc pc' hd m hpc hheld hholds hh =>
    have hadded := hs.held pc (List.mem_of_getElem? hpc) h hheld
    have hstage : hd.stage = .added := by
      obtain ⟨hd₀, hh₀, hstage⟩ := hadded
      rw [hh] at hh₀
      cases hh₀
      exact hstage
    have hkept : ∀ x, Added s x →
        Added (s.setHandler h { hd with worker := hd.worker.insertMessage (.app m) }) x := by
      intro x hx
      apply added_set hh _ _ hx
      exact id
    refine ⟨howned, forall_mem_set (fun pc hpc x hx => hkept x (hs.held pc hpc x hx)) i fun x hx => ?_, ?_⟩
    · rw [hholds x hx]
      exact hkept h hadded
    · exact forall_mem_set hs.orderly h ((hs.orderly hd (List.mem_of_getElem? hh)).push hstage m)

theorem serviceOk_start (logicPort : UInt16) : ServiceOk (start logicPort) where
  owned := owned_start logicPort
  held _ hmem := absurd hmem List.not_mem_nil
  orderly _ hmem := absurd hmem List.not_mem_nil

theorem Owned.lookup (hs : Owned s) (hl : s.lookup e = some h) :
    ∃ hd, s.handlers[h]? = some hd ∧ (hd.ownWorker.isSome = true ↔ hd.stage = .added) := by
  have hknown : ∃ p, s.manager.workers p = some h := by
    cases e with
    | advance i socket =>
      unfold Service.lookup at hl
      dsimp only at hl
      split at hl
      · exact ⟨_, hl⟩
      · exact ⟨_, hl⟩
      · cases hl
    | _ => cases hl
  obtain ⟨p, hp⟩ := hknown
  have hlt := hs.known p h hp
  exact ⟨_, List.getElem?_eq_getElem hlt, hs.own _ (List.getElem_mem hlt)⟩

/-- A handler that is looked up has a worker of its own exactly when `AddEvent` was called for it.
If every look-up comes that late, every handler a call holds has one, and no application message
is ahead of a message of the handshake. -/
theorem published_usable (logicPort : UInt16) {es : List Event} {s : Service} {rs : List Unit}
    (hrun : run Service.step (start logicPort) es = some (s, rs)) :
    (∀ e h, s.lookup e = some h →
      ∃ hd, s.handlers[h]? = some hd ∧ (hd.ownWorker.isSome = true ↔ hd.stage = .added)) ∧
    (Along Service.step Careful (start logicPort) es →
      (∀ pc ∈ s.calls, ∀ h ∈ pc.holds, ∃ hd, s.handlers[h]? = some hd ∧ hd.ownWorker.isSome = true) ∧
      ∀ hd ∈ s.handlers, hd.worker.said.Pairwise fun a b => b.isHandshake = true → a.isHandshake = true) := by
  have howned := run_invariant (P := fun _ _ => True) (I := fun s _ => Owned s)
    (fun _ _ _ _ _ hI _ hstep => hI.moves (moves_of_step hstep)) [] (owned_start logicPort)
    (along_of_forall (fun _ _ _ => trivial) _) hrun
  refine ⟨fun e h hl => howned.lookup hl, fun hcareful => ?_⟩
  have hs := run_invariant (P := Careful) (I := fun s _ => ServiceOk s)
    (fun _ _ _ _ _ hI hc hstep => hI.moves hc (moves_of_step hstep)) [] (serviceOk_start logicPort)
    hcareful hrun
  refine ⟨fun pc hpc h hh => ?_, fun hd hmem => (hs.orderly hd hmem).last⟩
  obtain ⟨hd, hget, hstage⟩ := hs.held pc hpc h hh
  exact ⟨hd, hget, (hs.owned.own hd (List.mem_of_getElem? hget)).mpr hstage⟩

/-- A connection is accepted, up to its registration. -/
def registration : List Event :=
  [.accept ⟨"a", 1⟩, .establish 0 [] .enter, .establish 0 [connectRequest 7] (.recv []),
    .establish 0 [] (.send true 0), .establish 0 [connectResponse .OK] (.recv []), .logicConnect 0]

def sendLate : List Event :=
  registration ++ [.establish 0 [] .answer, .establish 0 [] (.send true 0), .initialized 0 true, .addEvent 0 3,
    .sendMessage ⟨"a", 7⟩ [1], .advance 0 true]

theorem sendLate_run : ∃ o ∈ run Service.step (start 7) sendLate, CallPc.holding 0 [1] ∈ o.1.calls ∧
    Along Service.step Careful (start 7) sendLate := by
  decide +kernel

theorem published_usable_late : ∃ o ∈ run Service.step (start 7) sendLate, CallPc.holding 0 [1] ∈ o.1.calls ∧
    Along Service.step Careful (start 7) sendLate ∧
    ∃ hd, o.1.handlers[0]? = some hd ∧ hd.ownWorker.isSome = true := by
  obtain ⟨⟨s, rs⟩, hrun, hcall, hcareful⟩ := sendLate_run
  obtain ⟨-, husable⟩ := published_usable 7 hrun
  exact ⟨(s, rs), hrun, hcall, hcareful, (husable hcareful).1 _ hcall 0 rfl⟩

/-- A thread finds the connection right after its registration. -/
def sendEarly : List Event :=
  registration ++ [.sendMessage ⟨"a", 7⟩ [1], .advance 0 true, .advance 0 true, .advance 0 true,
    .establish 0 [] .answer]

/-- The handler has no worker, the application message is in front of the last one of the
handshake, and the wake-up dereferences the null pointer. -/
theorem published_unusable : ∃ o ∈ run Service.step (start 7) sendEarly, CallPc.pushed 0 ∈ o.1.calls ∧
    (∃ hd ∈ o.1.handlers[0]?, hd.ownWorker = none ∧
      hd.worker.said = [connectResponse .OK, .app [1], connectResponse .OK]) ∧
    (o.1.step (.advance 0 true)).isNone = true := by
  decide +kernel

end

end FlyingKV.Net.Published
