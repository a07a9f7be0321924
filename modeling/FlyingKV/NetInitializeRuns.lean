import FlyingKV.NetInitialize

set_option autoImplicit false

/-!
# Whole runs of `Initialize`

A side of the handshake awaits two messages. What it does depends on what `Recv(true)` meets for
each of them: on the bytes of the other end, and on how they are cut.
-/
namespace FlyingKV.Net
open ByteOrder

/-! ## The two messages of a handshake -/

/-- The first message is awaited: the request, or the first response. -/
def Worker.AwaitsFirst (w : Worker) : Prop :=
  (w.ct = .Server ∧ w.connState = .Connecting) ∨ (w.ct = .Client ∧ w.connState = .ConnectSe)

/-- The last message is awaited. -/
def Worker.AwaitsLast (w : Worker) : Prop :=
  (w.ct = .Server ∧ w.connState = .ConnectingRe) ∨ (w.ct = .Client ∧ w.connState = .WaitLastACK)

/-- The first message is one that the handshake goes on with. -/
def Worker.Accepts (w : Worker) (payload behind : Bytes) : Prop :=
  match w.ct with
  | .Server => payload.length = 2
  | .Client => readStatus payload behind = Status.OK.toNat

/-- The handshake goes on behind the first message: its answer can be sent, too. -/
def Opening.GoesOn (c : Opening) (payload : Bytes) : Prop :=
  c.worker.Accepts payload c.behind ∧ c.sends.headD true = true

/-- What speaking leaves alone. -/
structure Opening.Same (c c' : Opening) : Prop where
  calls : c'.calls = c.calls
  dropped : c'.dropped = c.dropped
  wire : c'.wire = c.wire
  receiver : c'.receiver = c.receiver
  handled : c'.handled = c.handled

namespace Opening

theorem Same.trans {c c' c'' : Opening} (h : c.Same c') (h' : c'.Same c'') : c.Same c'' :=
  ⟨h'.calls.trans h.calls, h'.dropped.trans h.dropped, h'.wire.trans h.wire, h'.receiver.trans h.receiver,
    h'.handled.trans h.handled⟩

theorem same_send (c : Opening) : c.Same c.send := by
  unfold send
  split
  · exact ⟨rfl, rfl, rfl, rfl, rfl⟩
  · exact ⟨rfl, rfl, rfl, rfl, rfl⟩

theorem same_register (c : Opening) : c.Same c.register := by
  unfold register
  split
  · split_ifs
    · exact ⟨rfl, rfl, rfl, rfl, rfl⟩
    · exact ⟨rfl, rfl, rfl, rfl, rfl⟩
  · exact ⟨rfl, rfl, rfl, rfl, rfl⟩

theorem same_answer (c : Opening) : c.Same c.answer := by
  unfold answer
  split
  · exact ⟨rfl, rfl, rfl, rfl, rfl⟩
  · exact ⟨rfl, rfl, rfl, rfl, rfl⟩

theorem same_settled (c : Opening) : c.Same c.send.register.answer.send :=
  (((same_send c).trans (same_register _)).trans (same_answer _)).trans (same_send _)

/-- Once the worker waits or is done, nothing more is said. -/
theorem settled_of_pc {c : Opening} (h : c.worker.pc = .receiving ∨ c.worker.pc = .completed) :
    c.register.answer.send = c := by
  have hreg : c.register = c := by
    unfold register
    rcases h with h | h <;> rw [h]
  have hans : c.answer = c := by
    unfold answer
    rcases h with h | h <;> rw [h]
  have hsend : c.send = c := by
    unfold send
    rcases h with h | h <;> rw [h]
  rw [hreg, hans, hsend]

theorem send_sending {c : Opening} {ok : Bool} (h : c.worker.pc = .sending ok) :
    c.send.worker = (c.worker.send ok (c.sends.headD true) 0).1 := by
  unfold send
  rw [h]

theorem send_of_completed {c : Opening} (h : c.worker.pc = .completed) : c.send = c := by
  unfold send
  rw [h]

/-- A refusal is said, and that is all. -/
theorem send_refusal (w : Worker) (sent : Bool) :
    (w.send false sent 0).1.pc = .completed ∧ (w.send false sent 0).1.connState = w.connState := by
  cases sent
  · exact ⟨rfl, rfl⟩
  · exact ⟨rfl, rfl⟩

theorem settled_refusal {c : Opening} (h : c.worker.pc = .sending false) :
    c.send.register.answer.send.worker.pc = .completed ∧
      c.send.register.answer.send.worker.connState = c.worker.connState := by
  have hsent := send_refusal c.worker (c.sends.headD true)
  rw [← send_sending h] at hsent
  rwa [settled_of_pc (.inr hsent.1)]

theorem settled_answer {c : Opening} (h : c.worker.pc = .sending true) :
    c.send.register.answer.send.worker =
      if c.sends.headD true = true then
        { c.worker with
          queue := []
          connState := (Worker.afterSend c.worker.ct c.worker.connState).1
          pc := (Worker.afterSend c.worker.ct c.worker.connState).2 }
      else { c.worker with queue := c.worker.queue.drop 1, pc := .completed } := by
  have hdone : c.send.worker.pc = .receiving ∨ c.send.worker.pc = .completed := by
    rw [send_sending h]
    cases c.sends.headD true with
    | false => exact .inr rfl
    | true =>
      change (Worker.afterSend _ _).2 = _ ∨ (Worker.afterSend _ _).2 = _
      cases c.worker.ct <;> cases c.worker.connState <;> simp [Worker.afterSend]
  rw [settled_of_pc hdone, send_sending h]
  cases c.sends.headD true
  · rfl
  · rfl

/-- The registry is asked; the client is done then, the server answers. -/
theorem settled_registering {c : Opening} (h : c.worker.pc = .registering) (hct : c.worker.AwaitsLast) :
    c.send.register.answer.send.worker.pc = .completed := by
  have hsend : c.send = c := by
    unfold send
    rw [h]
  have hreg : ∃ ok, c.register.worker = c.worker.logicConnected ok := by
    unfold register
    rw [h]
    dsimp only
    split_ifs
    · exact ⟨_, rfl⟩
    · exact ⟨_, rfl⟩
  obtain ⟨ok, hreg⟩ := hreg
  rw [hsend]
  rcases hct with ⟨hct, hst⟩ | ⟨hct, hst⟩
  · have hpc : c.register.worker.pc = .answering ok := by
      rw [hreg, Worker.logicConnected, hst]
    have hans : c.register.answer.worker.pc = .sending ok := by
      unfold answer
      rw [hpc]
    have hstate : c.register.answer.worker.connState = .ConnectingRe := by
      unfold answer
      rw [hpc]
      simp only [Worker.insertMessage, hreg, Worker.logicConnected, hst]
    rw [send_sending hans]
    have hct' : c.register.answer.worker.ct = .Server := by
      unfold answer
      rw [hpc]
      simp only [Worker.insertMessage, hreg, Worker.logicConnected, hst, hct]
    cases ok with
    | false => exact (send_refusal _ _).1
    | true =>
      cases c.register.answer.sends.headD true with
      | false => rfl
      | true =>
        change (Worker.afterSend _ _).2 = _
        rw [hct', hstate]
        rfl
  · have hpc : c.register.worker.pc = .completed := by
      rw [hreg, Worker.logicConnected, hst]
    unfold answer
    rw [hpc]
    unfold send
    rw [hpc]
    exact hpc

end Opening

theorem handshake_unchanged (w : Worker) (payload behind : Bytes) :
    (w.handshake payload behind).ct = w.ct ∧ (w.handshake payload behind).connState = w.connState := by
  unfold Worker.handshake
  split <;> (try split_ifs) <;> exact ⟨rfl, rfl⟩

theorem handshake_first {w : Worker} (h : w.AwaitsFirst) (payload behind : Bytes) :
    (w.Accepts payload behind → (w.handshake payload behind).pc = .sending true) ∧
      (¬ w.Accepts payload behind → (w.handshake payload behind).pc = .sending false ∨
        (w.handshake payload behind).pc = .completed) := by
  unfold Worker.handshake Worker.Accepts
  rcases h with ⟨hct, hst⟩ | ⟨hct, hst⟩
  · simp only [hct, hst]
    by_cases hlen : payload.length = 2
    · simp [hlen]
    · simp [hlen]
  · simp only [hct, hst]
    by_cases hok : Worker.readStatus payload behind = Status.OK.toNat
    · simp [hok]
    · simp [hok]

theorem handshake_last {w : Worker} (h : w.AwaitsLast) (payload behind : Bytes) :
    (w.handshake payload behind).logicPeer = w.logicPeer ∧
      (w.handshake payload behind).pc =
        if w.ct = .Client → Worker.readStatus payload behind = Status.OK.toNat then .registering else .completed := by
  unfold Worker.handshake
  rcases h with ⟨hct, hst⟩ | ⟨hct, hst⟩
  · simp [hct, hst]
  · by_cases hok : Worker.readStatus payload behind = Status.OK.toNat
    · simp [hct, hst, hok]
    · simp [hct, hst, hok]

section
variable {c : Opening} {rm : RcvMessage}

theorem hear_unchanged (c : Opening) (rm : RcvMessage) :
    (c.hear rm).worker.ct = c.worker.ct ∧ (c.hear rm).worker.connState = c.worker.connState :=
  handshake_unchanged _ _ _

theorem hear_first (h : c.worker.AwaitsFirst) (rm : RcvMessage) :
    (c.worker.Accepts rm.payload c.behind → (c.hear rm).worker.pc = .sending true) ∧
      (¬ c.worker.Accepts rm.payload c.behind → (c.hear rm).worker.pc = .sending false ∨
        (c.hear rm).worker.pc = .completed) :=
  handshake_first (w := { c.worker with heard := c.worker.heard ++ [.handshake rm.payload] }) h _ _

theorem hear_last (h : c.worker.AwaitsLast) (rm : RcvMessage) :
    (c.hear rm).worker.logicPeer = c.worker.logicPeer ∧
      (c.hear rm).worker.pc = if c.worker.ct = .Client →
        Worker.readStatus rm.payload c.behind = Status.OK.toNat then .registering else .completed :=
  handshake_last (w := { c.worker with heard := c.worker.heard ++ [.handshake rm.payload] }) h _ _

theorem sends_hear (c : Opening) (rm : RcvMessage) : (c.hear rm).sends = c.sends := rfl

theorem respond_goesOn (rm : RcvMessage) (h : c.worker.AwaitsFirst) (hgo : c.GoesOn rm.payload) :
    (c.respond rm).worker.pc = .receiving ∧ (c.respond rm).worker.AwaitsLast := by
  change (c.hear rm).send.register.answer.send.worker.pc = .receiving ∧
    (c.hear rm).send.register.answer.send.worker.AwaitsLast
  obtain ⟨hct, hst⟩ := hear_unchanged c rm
  rw [Opening.settled_answer ((hear_first h rm).1 hgo.1), sends_hear, if_pos hgo.2, hct, hst]
  rcases h with ⟨hct', hst'⟩ | ⟨hct', hst'⟩
  · rw [hct', hst']
    exact ⟨rfl, .inl ⟨hct.trans hct', rfl⟩⟩
  · rw [hct', hst']
    exact ⟨rfl, .inr ⟨hct.trans hct', rfl⟩⟩

theorem respond_stops (rm : RcvMessage) (h : c.worker.AwaitsFirst) (hgo : ¬ c.GoesOn rm.payload) :
    (c.respond rm).worker.pc = .completed ∧ (c.respond rm).worker.connState = c.worker.connState := by
  change (c.hear rm).send.register.answer.send.worker.pc = .completed ∧
    (c.hear rm).send.register.answer.send.worker.connState = c.worker.connState
  rw [← (hear_unchanged c rm).2]
  by_cases hacc : c.worker.Accepts rm.payload c.behind
  · rw [Opening.settled_answer ((hear_first h rm).1 hacc), sends_hear, if_neg fun hsend => hgo ⟨hacc, hsend⟩]
    exact ⟨rfl, rfl⟩
  · rcases (hear_first h rm).2 hacc with hpc | hpc
    · exact Opening.settled_refusal hpc
    · rw [Opening.send_of_completed hpc, Opening.settled_of_pc (.inr hpc)]
      exact ⟨hpc, rfl⟩

theorem respond_last (rm : RcvMessage) (h : c.worker.AwaitsLast) : (c.respond rm).worker.pc = .completed := by
  change (c.hear rm).send.register.answer.send.worker.pc = .completed
  obtain ⟨hct, hst⟩ := hear_unchanged c rm
  have hpc := (hear_last h rm).2
  split_ifs at hpc
  · exact Opening.settled_registering hpc (by rw [Worker.AwaitsLast, hct, hst]; exact h)
  · rw [Opening.send_of_completed hpc, Opening.settled_of_pc (.inr hpc), hpc]

theorem respond_receiver (c : Opening) (rm : RcvMessage) :
    (c.respond rm).receiver =
      { c.receiver with connected := decide ((c.respond rm).worker.connState = .Connected) } := by
  have hsame := Opening.same_settled (c.hear rm)
  change ({ (c.hear rm).send.register.answer.send.receiver with connected := _ } : Receiver) = _
  rw [hsame.receiver]
  rfl

/-- Behind the first message the worker is between two frames again. -/
theorem idle_respond (hc : c.Idle) (h : (c.respond rm).worker.AwaitsLast) : (c.respond rm).Idle := by
  have hr := respond_receiver c rm
  have hconn : ¬ (c.respond rm).worker.connState = .Connected := by
    rcases h with ⟨-, hst⟩ | ⟨-, hst⟩ <;> simp [hst]
  rw [decide_eq_false hconn] at hr
  refine ⟨?_, ?_, ?_⟩
  · rw [hr]
    exact ⟨hc.keeps.headerLength, .idle hc.keeps.state_nil⟩
  · rw [hr]
  · rw [hr]
    exact hc.payload

end

section
variable {c : Opening} {rm : RcvMessage} {evs : List IoEvent}

theorem handshake_receiving (hpc : (c.respond rm).worker.pc = .receiving) :
    c.handshake (recvTrue evs) rm = Opening.afterRecv (recvTrue evs (c.respond rm)) := by
  unfold Opening.handshake
  simp only [hpc]

theorem handshake_completed {recv : Opening → RecvEnd × Opening} (hpc : (c.respond rm).worker.pc = .completed) :
    c.handshake recv rm = (.returned true, c.respond rm) := by
  unfold Opening.handshake
  simp only [hpc]

/-- A call of `Recv(true)` that was not cut short: its own calls handled a message each, no payload
was thrown away, and if it returned with a message the handshake is over. -/
structure Orderly (c : Opening) (o : RecvEnd × Opening) : Prop where
  calls : ∃ more, o.2.calls = c.calls ++ more ∧ ∀ x ∈ more, x.rc = true → x.handled = 1
  dropped : o.2.dropped = c.dropped
  state : ∀ rc, o.1 = .returned rc → o.2.receiver.rcvState ≠ .rcvingPayload
  done : o.1 = .returned true → o.2.worker.pc = .completed

theorem Opening.Idle.state (hc : c.Idle) : c.receiver.rcvState ≠ .rcvingPayload :=
  hc.keeps.not_rcvingPayload (by decide)

theorem orderly_completed {r : Receiver} {wire : Bytes} (hidle : (c.upTo r wire).Idle)
    (hpc : ((c.upTo r wire).respond rm).worker.pc = .completed) :
    Orderly c (Opening.afterHandshake
      ((c.upTo r wire).handshake (recvTrue evs) rm)) := by
  have hsame := Opening.same_settled ((c.upTo r wire).hear rm)
  have hr := respond_receiver (c.upTo r wire) rm
  have hstate : ((c.upTo r wire).respond rm).receiver.rcvState ≠ .rcvingPayload := by
    rw [hr]
    exact hidle.state
  rw [handshake_completed hpc]
  refine ⟨⟨[⟨true, 1⟩], ?_, by simp⟩, ?_, fun _ _ => hstate, fun _ => hpc⟩
  · exact congrArg (· ++ [(⟨true, 1⟩ : RecvCall)]) hsame.calls
  · change (Opening.respond _ rm).dropped ++ _ = _
    rw [if_neg hstate, List.append_nil]
    exact hsame.dropped

theorem orderly_last (hc : c.Idle) (hlast : c.worker.AwaitsLast) (evs : List IoEvent)
    (hcut : meets evs c.wire ≠ .short) : Orderly c (recvTrue evs c) := by
  have hmeets := recvTrue_meets hc evs
  generalize meets evs c.wire = m at hmeets hcut
  generalize recvTrue evs c = o at hmeets ⊢
  cases hmeets with
  | nothing r wire => exact ⟨⟨[], by simp, by simp⟩, rfl, nofun, nofun⟩
  | broken r wire state => exact ⟨⟨[⟨false, 0⟩], rfl, by simp⟩, rfl, fun _ _ => state, nofun⟩
  | short r wire => exact absurd rfl hcut
  | empty r wire => exact ⟨⟨[], by simp, by simp⟩, rfl, nofun, nofun⟩
  | message r rm header content wellFormed length idle =>
    exact orderly_completed idle (respond_last (c := c.upTo r _) rm hlast)

theorem mem_calls_of_short (hc : c.Idle) (evs : List IoEvent) (hcut : meets evs c.wire = .short) :
    ∃ d, recvTrue evs c = (.returned true, d) ∧ (⟨true, 0⟩ : RecvCall) ∈ d.calls := by
  have hmeets := recvTrue_meets hc evs
  rw [hcut] at hmeets
  generalize recvTrue evs c = o at hmeets ⊢
  cases hmeets with
  | short r wire => exact ⟨_, rfl, List.mem_append_right _ (List.mem_singleton_self _)⟩

/-- No `read` of the handshake returns some of the bytes it asked for and not all: of the first
message, and of the last one if it is awaited. -/
structure Opening.Uncut (c : Opening) (evs : List IoEvent) : Prop where
  first : meets evs c.wire ≠ .short
  last : ∀ hdr payload evs' wire', meets evs c.wire = .message hdr payload evs' wire' → c.GoesOn payload →
    meets evs' wire' ≠ .short

theorem respond_wire (c : Opening) (rm : RcvMessage) : (c.respond rm).wire = c.wire :=
  (Opening.same_settled (c.hear rm)).wire

/-- The first message is handled in the call that handles the last one inside. -/
theorem orderly_nested {r : Receiver} {wire : Bytes}
    (hpc : ((c.upTo r wire).respond rm).worker.pc = .receiving)
    (hinner : Orderly ((c.upTo r wire).respond rm)
      (recvTrue evs ((c.upTo r wire).respond rm))) :
    Orderly c (Opening.afterHandshake
      ((c.upTo r wire).handshake (recvTrue evs) rm)) := by
  have hsame := Opening.same_settled ((c.upTo r wire).hear rm)
  rw [handshake_receiving hpc]
  generalize recvTrue evs ((c.upTo r wire).respond rm) = o at hinner ⊢
  obtain ⟨e, d⟩ := o
  obtain ⟨⟨more, hcalls, hmore⟩, hdropped, hstate, hdone⟩ := hinner
  replace hcalls : d.calls = c.calls ++ more := hcalls.trans (congrArg (· ++ more) hsame.calls)
  replace hdropped : d.dropped = c.dropped := hdropped.trans hsame.dropped
  cases e with
  | returned rc =>
    have hst := hstate rc rfl
    have hmore' : ∀ x ∈ more ++ [(⟨true, 1⟩ : RecvCall)], x.rc = true → x.handled = 1 := by
      intro x hx
      rcases List.mem_append.mp hx with hx | hx
      · exact hmore x hx
      · rw [List.mem_singleton.mp hx]
        exact fun _ => rfl
    have hcalls' : d.calls ++ [(⟨true, 1⟩ : RecvCall)] = c.calls ++ (more ++ [⟨true, 1⟩]) := by
      rw [hcalls, List.append_assoc]
    have hforget : d.dropped ++ (if d.receiver.rcvState = .rcvingPayload then
        d.receiver.payloadBuffer.toList else []) = c.dropped := by
      rw [if_neg hst, List.append_nil, hdropped]
    cases rc with
    | true => exact ⟨⟨_, hcalls', hmore'⟩, hforget, fun _ _ => hst, fun _ => hdone rfl⟩
    | false => exact ⟨⟨_, hcalls', hmore'⟩, hforget, fun _ _ => hst, fun _ => rfl⟩
  | blocked => exact ⟨⟨more, hcalls, hmore⟩, hdropped, nofun, nofun⟩
  | asserted => exact ⟨⟨more, hcalls, hmore⟩, hdropped, nofun, nofun⟩
  | nullBuffer => exact ⟨⟨more, hcalls, hmore⟩, hdropped, nofun, nofun⟩

theorem orderly_first (hc : c.Idle) (hfirst : c.worker.AwaitsFirst) (hcut : c.Uncut evs) :
    Orderly c (recvTrue evs c) := by
  have hmeets := recvTrue_meets hc evs
  obtain ⟨hcut, hcut'⟩ := hcut
  generalize meets evs c.wire = m at hmeets hcut hcut'
  generalize recvTrue evs c = o at hmeets ⊢
  cases hmeets with
  | nothing r wire => exact ⟨⟨[], by simp, by simp⟩, rfl, nofun, nofun⟩
  | broken r wire state => exact ⟨⟨[⟨false, 0⟩], rfl, by simp⟩, rfl, fun _ _ => state, nofun⟩
  | short r wire => exact absurd rfl hcut
  | empty r wire => exact ⟨⟨[], by simp, by simp⟩, rfl, nofun, nofun⟩
  | @message hdr payload evs' wire r rm header content wellFormed length idle =>
    by_cases hgo : c.GoesOn payload
    · obtain ⟨hpc, hlast⟩ := respond_goesOn (c := c.upTo r wire) rm hfirst
        (by rw [content]; exact hgo)
      have hinner := orderly_last (idle_respond idle hlast) hlast evs'
        (by rw [respond_wire]; exact hcut' hdr payload evs' wire rfl hgo)
      exact orderly_nested hpc hinner
    · exact orderly_completed idle (respond_stops (c := c.upTo r _) rm hfirst
        (by rw [content]; exact hgo)).1

/-! ## The whole of `Initialize` -/

/-- The client's request goes out. -/
def Opening.Asked (c : Opening) : Prop := c.worker.ct = .Client → c.sends.headD true = true

theorem Opening.same_enter (c : Opening) : c.Same c.enter := by
  unfold Opening.enter
  split
  · have hsend := Opening.same_send { c with worker :=
      { c.worker.insertMessage (connectRequest c.worker.logicPort) with pc := .sending true } }
    exact ⟨hsend.calls, hsend.dropped, hsend.wire, hsend.receiver, hsend.handled⟩
  · exact ⟨rfl, rfl, rfl, rfl, rfl⟩

theorem Opening.Fresh.enter (hc : c.Fresh) :
    (c.Asked → c.enter.worker.pc = .receiving ∧ c.enter.worker.AwaitsFirst) ∧
      (¬ c.Asked → c.enter.worker.pc = .completed) := by
  unfold Opening.Asked
  rcases hc.worker with hw | hw
  · have hct : c.worker.ct = .Client := by rw [hw]; rfl
    have henter : c.enter.worker = (({ c.worker.insertMessage (connectRequest c.worker.logicPort) with
        pc := .sending true } : Worker).send true (c.sends.headD true) 0).1 := by
      unfold Opening.enter
      rw [hct]
      rfl
    rw [henter, hw]
    cases c.sends.headD true
    · exact ⟨fun h => absurd (h rfl) Bool.false_ne_true, fun _ => rfl⟩
    · exact ⟨fun _ => ⟨rfl, .inr ⟨rfl, rfl⟩⟩, fun h => absurd (fun _ => rfl) h⟩
  · have hct : c.worker.ct = .Server := by rw [hw]; rfl
    have hst : c.worker.connState = .Connecting := by rw [hw]; rfl
    have henter : c.enter.worker = { c.worker with pc := .receiving } := by
      unfold Opening.enter
      rw [hct]
    rw [henter]
    exact ⟨fun _ => ⟨rfl, .inl ⟨hct, hst⟩⟩, fun h => absurd (fun hclient => by rw [hct] at hclient; cases hclient) h⟩

theorem Opening.Fresh.idle (hc : c.Fresh) : c.enter.Idle := by
  have hr : c.enter.receiver = { Receiver.initial with connected := false } :=
    (Opening.same_enter c).receiver.trans hc.receiver
  refine ⟨?_, ?_, ?_⟩
  · rw [hr]
    exact ⟨keeps_initial.headerLength, .idle rfl⟩
  · rw [hr]
  · rw [hr]
    rfl

/-- Every `Recv(true)` that returned true handled one message, no payload was thrown away on the
way, and `Initialize` does not wait while there are bytes to read. -/
structure Undisturbed (o : InitEnd × Opening) : Prop where
  calls : ∀ x ∈ o.2.calls, x.rc = true → x.handled = 1
  dropped : o.2.dropped = []
  waits : o.1 = .waiting → o.2.wire = []

theorem runInitialize_unasked (h : c.enter.worker.pc = .completed) (evs : List IoEvent) :
    c.runInitialize evs = (.returned false, c.enter) := by
  unfold Opening.runInitialize
  exact if_pos h

theorem runInitialize_asked (h : c.enter.worker.pc = .receiving) (evs : List IoEvent) :
    (c.runInitialize evs).2 = (recvTrue evs c.enter).2 ∧
      ((c.runInitialize evs).1 = .waiting → (recvTrue evs c.enter).1 = .returned true ∧
        (recvTrue evs c.enter).2.worker.pc ≠ .completed) := by
  unfold Opening.runInitialize
  dsimp only
  rw [if_neg (by simp [h])]
  obtain ⟨e, d⟩ := recvTrue evs c.enter
  cases e with
  | returned rc =>
    cases rc with
    | false => exact ⟨rfl, nofun⟩
    | true =>
      by_cases hpc : d.worker.pc = .completed
      · simp [hpc]
      · simp [hpc]
  | blocked => exact ⟨rfl, nofun⟩
  | asserted => exact ⟨rfl, nofun⟩
  | nullBuffer => exact ⟨rfl, nofun⟩

theorem mem_calls_of_cut (hc : c.Idle) (hfirst : c.worker.AwaitsFirst) (hcut : ¬ c.Uncut evs) :
    (⟨true, 0⟩ : RecvCall) ∈ (recvTrue evs c).2.calls := by
  by_cases hshort : meets evs c.wire = .short
  · obtain ⟨d, hd, hmem⟩ := mem_calls_of_short hc evs hshort
    rwa [hd]
  · have hlast : ∃ hdr payload evs' wire', meets evs c.wire = .message hdr payload evs' wire' ∧
        c.GoesOn payload ∧ meets evs' wire' = .short := by
      by_contra hno
      exact hcut ⟨hshort, fun hdr payload evs' wire' hm hgo hs => hno ⟨hdr, payload, evs', wire', hm, hgo, hs⟩⟩
    obtain ⟨hdr, payload, evs', wire', hm, hgo, hs⟩ := hlast
    have hmeets := recvTrue_meets hc evs
    rw [hm] at hmeets
    generalize recvTrue evs c = o at hmeets ⊢
    cases hmeets with
    | message r rm header content wellFormed length idle =>
      obtain ⟨hpc, hawaits⟩ := respond_goesOn (c := { c with receiver := r, wire := wire' }) rm hfirst
        (by rw [content]; exact hgo)
      obtain ⟨d, hd, hmem⟩ := mem_calls_of_short (idle_respond idle hawaits) evs'
        (by rw [respond_wire]; exact hs)
      rw [handshake_receiving hpc, hd]
      exact List.mem_append_left _ hmem

/-- The handshake does not depend on how the bytes are cut just when none of its reads is cut short. -/
theorem undisturbed_iff {c : Opening} (hc : c.Fresh) (evs : List IoEvent) :
    Undisturbed (c.runInitialize evs) ↔ (c.Asked → c.enter.Uncut evs) := by
  have hsame := Opening.same_enter c
  by_cases hasked : c.Asked
  · obtain ⟨hpc, hfirst⟩ := hc.enter.1 hasked
    obtain ⟨hrun, hwaits⟩ := runInitialize_asked hpc evs
    constructor
    · intro h _
      by_contra hcut
      have hmem := mem_calls_of_cut hc.idle hfirst hcut
      rw [← hrun] at hmem
      exact absurd (h.calls _ hmem rfl) (by decide)
    · intro hcut
      obtain ⟨⟨more, hcalls, hmore⟩, hdropped, -, hdone⟩ := orderly_first hc.idle hfirst (hcut hasked)
      rw [hsame.calls, hc.calls, List.nil_append] at hcalls
      refine ⟨?_, ?_, fun hw => absurd (hdone (hwaits hw).1) (hwaits hw).2⟩
      · rw [hrun, hcalls]
        exact hmore
      · rw [hrun, hdropped, hsame.dropped, hc.dropped]
  · have hpc := hc.enter.2 hasked
    rw [runInitialize_unasked hpc]
    refine ⟨fun _ h => absurd h hasked, fun _ => ⟨?_, ?_, nofun⟩⟩
    · rw [hsame.calls, hc.calls]
      simp
    · rw [hsame.dropped, hc.dropped]

/-- The two messages of a client that listens on port 9000. -/
def clientBytes : Bytes := (⟨1, [0x23, 0x28]⟩ : SndMessage).bytes ++ (⟨2, [0, 0]⟩ : SndMessage).bytes

/-- A connection from 10.0.0.2:4000 that was accepted just now. -/
def acceptedConnection (wire : Bytes) (sends : List Bool) : Opening :=
  ⟨.server ⟨"10.0.0.2", 4000⟩, { Receiver.initial with connected := false }, wire, sends, [0], 7, false, .empty,
    false, [], [], []⟩

theorem fresh_acceptedConnection (wire : Bytes) (sends : List Bool) : (acceptedConnection wire sends).Fresh :=
  ⟨.inr rfl, rfl, rfl, rfl, rfl, rfl⟩

theorem undisturbed_whole :
    Undisturbed ((acceptedConnection clientBytes []).runInitialize [.take 15, .take 1, .take 15, .take 1]) := by
  refine (undisturbed_iff (fresh_acceptedConnection _ _) _).mpr fun _ => ⟨by decide +kernel, ?_⟩
  intro hdr payload evs' wire' hm _
  have hm' : meets [.take 15, .take 1, .take 15, .take 1] clientBytes = .message (clientBytes.take 16) [0x23, 0x28]
      [.take 15, .take 1] (clientBytes.drop 18) := by decide +kernel
  cases hm'.symm.trans hm
  decide +kernel

/-- The first `read` gets 8 of the 16 bytes of the header: `Recv(true)` returns true without a
message and `Initialize` waits, with 28 bytes unread. In the second run the last payload is cut: its
first byte is thrown away. -/
theorem handshake_cut :
    (let o := (acceptedConnection clientBytes []).runInitialize [.take 7];
      (o.1, o.2.calls, o.2.wire.length)) = (.waiting, [⟨true, 0⟩], 28) ∧
    (let o := (acceptedConnection clientBytes []).runInitialize [.take 15, .take 1, .take 15, .take 0];
      (o.1, o.2.calls, o.2.dropped.map Buffer.content, o.2.wire.length)) =
      (.waiting, [⟨true, 0⟩, ⟨true, 1⟩], [[0]], 1) := by
  decide +kernel

/-! ## Who is registered -/

/-- The logic peer of the connection behind the first message. -/
def Opening.peerBehind (c : Opening) (payload : Bytes) : NetAddr :=
  match c.worker.ct with
  | .Server => ⟨c.worker.realPeer.addr, UInt16.ofNat (fieldBE 2 payload)⟩
  | .Client => c.worker.logicPeer.getD ⟨"", 0⟩

/-- The last message has the handler entered in the registry. -/
def Opening.Admits (c : Opening) (lnpt : NetAddr) (payload : Bytes) : Prop :=
  (c.worker.ct = .Client → Worker.readStatus payload c.behind = Status.OK.toNat) ∧ c.bStopped = false ∧
    c.registry.workers lnpt = none

/-- What has to do with the registry is as before. -/
structure Opening.SameRegistry (c c' : Opening) : Prop where
  behind : c'.behind = c.behind
  bStopped : c'.bStopped = c.bStopped
  registry : c'.registry = c.registry
  accepted : c'.accepted = c.accepted

theorem Opening.sameRegistry_send (c : Opening) : c.SameRegistry c.send := by
  unfold Opening.send
  split
  · exact ⟨rfl, rfl, rfl, rfl⟩
  · exact ⟨rfl, rfl, rfl, rfl⟩

theorem Opening.sameRegistry_answer (c : Opening) : c.SameRegistry c.answer := by
  unfold Opening.answer
  split
  · exact ⟨rfl, rfl, rfl, rfl⟩
  · exact ⟨rfl, rfl, rfl, rfl⟩

/-- The first message does not touch the registry. -/
theorem settled_first (h : c.worker.AwaitsFirst) :
    (c.hear rm).send.register.answer.send = (c.hear rm).send := by
  apply Opening.settled_of_pc
  by_cases hacc : c.worker.Accepts rm.payload c.behind
  · rw [Opening.send_sending ((hear_first h rm).1 hacc)]
    cases (c.hear rm).sends.headD true with
    | false => exact .inr rfl
    | true =>
      change (Worker.afterSend _ _).2 = _ ∨ (Worker.afterSend _ _).2 = _
      cases (c.hear rm).worker.ct <;> cases (c.hear rm).worker.connState <;> simp [Worker.afterSend]
  · rcases (hear_first h rm).2 hacc with hpc | hpc
    · rw [Opening.send_sending hpc]
      exact .inr (Opening.send_refusal _ _).1
    · rw [Opening.send_of_completed hpc]
      exact .inr hpc

theorem sameRegistry_first (rm : RcvMessage) (h : c.worker.AwaitsFirst) : c.SameRegistry (c.respond rm) := by
  have hsend := Opening.sameRegistry_send (c.hear rm)
  rw [← settled_first h] at hsend
  exact ⟨hsend.behind, hsend.bStopped, hsend.registry, hsend.accepted⟩

/-- The peer under which the handler will be registered. -/
theorem logicPeer_first (h : c.worker.AwaitsFirst) (hgo : c.GoesOn rm.payload) :
    (c.respond rm).worker.ct = c.worker.ct ∧
      (c.respond rm).worker.logicPeer.getD ⟨"", 0⟩ = c.peerBehind rm.payload := by
  change (c.hear rm).send.register.answer.send.worker.ct = _ ∧
    (c.hear rm).send.register.answer.send.worker.logicPeer.getD _ = _
  rw [Opening.settled_answer ((hear_first h rm).1 hgo.1), sends_hear, if_pos hgo.2]
  refine ⟨(hear_unchanged c rm).1, ?_⟩
  have hacc := hgo.1
  unfold Opening.peerBehind
  unfold Worker.Accepts at hacc
  rcases h with ⟨hct, hst⟩ | ⟨hct, hst⟩
  · rw [hct] at hacc ⊢
    simp only [Opening.hear, Worker.handshake, hst, hacc, ne_eq, not_true_eq_false, if_false, Option.getD_some]
  · rw [hct] at hacc ⊢
    simp only [Opening.hear, Worker.handshake, hst, hacc, ne_eq, not_true_eq_false, if_false,
      Worker.insertMessage]

theorem register_accepted (h : c.worker.pc = .registering) (hacc : c.accepted = false) :
    c.register.accepted = true ↔
      c.bStopped = false ∧ c.registry.workers (c.worker.logicPeer.getD ⟨"", 0⟩) = none := by
  unfold Opening.register
  rw [h]
  cases hstop : c.bStopped with
  | true => simp [hacc]
  | false =>
    simp only [Bool.false_eq_true, if_false, hacc, Bool.false_or, true_and]
    unfold UniqueWorkerManager.putWorkerEventHandler
    cases c.registry.workers (c.worker.logicPeer.getD ⟨"", 0⟩) with
    | some other => simp
    | none => simp

theorem accepted_respond_last (rm : RcvMessage) (h : c.worker.AwaitsLast) (hacc : c.accepted = false) :
    (c.respond rm).accepted = true ↔ c.Admits (c.worker.logicPeer.getD ⟨"", 0⟩) rm.payload := by
  change (c.hear rm).send.register.answer.send.accepted = true ↔ _
  rw [(Opening.sameRegistry_send _).accepted, (Opening.sameRegistry_answer _).accepted]
  obtain ⟨hpeer, hpc⟩ := hear_last h rm
  split_ifs at hpc with hstatus
  · have hsend : (c.hear rm).send = c.hear rm := by
      unfold Opening.send
      rw [hpc]
    rw [hsend, register_accepted hpc hacc, hpeer]
    exact ⟨fun h => ⟨hstatus, h⟩, fun h => h.2⟩
  · have hregister : (c.hear rm).register = c.hear rm := by
      unfold Opening.register
      rw [hpc]
    rw [Opening.send_of_completed hpc, hregister]
    exact ⟨fun h => absurd (hacc.symm.trans h) Bool.false_ne_true, fun h => absurd h.1 hstatus⟩

theorem accepted_afterHandshake (o : RecvEnd × Opening) :
    (Opening.afterHandshake o).2.accepted = o.2.accepted := by
  unfold Opening.afterHandshake
  split
  · rfl
  · rfl

theorem accepted_afterRecv (o : RecvEnd × Opening) : (Opening.afterRecv o).2.accepted = o.2.accepted := by
  unfold Opening.afterRecv
  split
  · rfl
  · rfl
  · rfl

theorem accepted_last (hc : c.Idle) (hlast : c.worker.AwaitsLast) (hacc : c.accepted = false) (evs : List IoEvent) :
    (recvTrue evs c).2.accepted = true ↔
      ∃ hdr payload evs' wire', meets evs c.wire = .message hdr payload evs' wire' ∧
        c.Admits (c.worker.logicPeer.getD ⟨"", 0⟩) payload := by
  have hmeets := recvTrue_meets hc evs
  generalize meets evs c.wire = m at hmeets ⊢
  generalize recvTrue evs c = o at hmeets ⊢
  cases hmeets with
  | nothing r wire => simp [hacc]
  | broken r wire state => simp [Opening.returns, hacc]
  | short r wire => simp [Opening.returns, hacc]
  | empty r wire => simp [hacc]
  | @message hdr payload evs' wire r rm header content wellFormed length idle =>
    have hpc := respond_last (c := c.upTo r wire) rm hlast
    have hresp := accepted_respond_last (c := c.upTo r wire) rm hlast hacc
    rw [content] at hresp
    rw [accepted_afterHandshake, handshake_completed hpc, hresp]
    constructor
    · exact fun h => ⟨hdr, payload, evs', wire, rfl, h⟩
    · rintro ⟨_, _, _, _, heq, h⟩
      cases heq
      exact h

/-- Both messages come whole, and the last one has the handler registered. -/
def Opening.Registers (c : Opening) (evs : List IoEvent) : Prop :=
  ∃ hdr payload evs' wire', meets evs c.wire = .message hdr payload evs' wire' ∧ c.GoesOn payload ∧
    ∃ hdr' payload' evs'' wire'', meets evs' wire' = .message hdr' payload' evs'' wire'' ∧
      c.Admits (c.peerBehind payload) payload'

theorem accepted_first (hc : c.Idle) (hfirst : c.worker.AwaitsFirst) (hacc : c.accepted = false) (evs : List IoEvent) :
    (recvTrue evs c).2.accepted = true ↔ c.Registers evs := by
  have hmeets := recvTrue_meets hc evs
  unfold Opening.Registers
  generalize meets evs c.wire = m at hmeets ⊢
  generalize recvTrue evs c = o at hmeets ⊢
  cases hmeets with
  | nothing r wire => simp [hacc]
  | broken r wire state => simp [Opening.returns, hacc]
  | short r wire => simp [Opening.returns, hacc]
  | empty r wire => simp [hacc]
  | @message hdr payload evs' wire r rm header content wellFormed length idle =>
    have hsame := sameRegistry_first (c := c.upTo r wire) rm hfirst
    by_cases hgo : c.GoesOn payload
    · have hgo' : (c.upTo r wire).GoesOn rm.payload := by
        rw [content]
        exact hgo
      obtain ⟨hpc, hlast⟩ := respond_goesOn (c := c.upTo r wire) rm hfirst hgo'
      obtain ⟨hct, hpeer⟩ := logicPeer_first (c := c.upTo r wire) hfirst hgo'
      have hadmits : ∀ lnpt p, ((c.upTo r wire).respond rm).Admits lnpt p ↔
          c.Admits lnpt p := by
        intro lnpt p
        unfold Opening.Admits
        rw [hct, hsame.behind, hsame.bStopped, hsame.registry]
      rw [accepted_afterHandshake, handshake_receiving hpc, accepted_afterRecv,
        accepted_last (idle_respond idle hlast) hlast (hsame.accepted.trans hacc), respond_wire, hpeer, content]
      constructor
      · rintro ⟨hdr', payload', evs'', wire'', hm, h⟩
        exact ⟨hdr, payload, evs', wire, rfl, hgo, hdr', payload', evs'', wire'', hm, (hadmits _ _).mp h⟩
      · rintro ⟨_, _, _, _, heq, -, hdr', payload', evs'', wire'', hm, h⟩
        cases heq
        exact ⟨hdr', payload', evs'', wire'', hm, (hadmits _ _).mpr h⟩
    · obtain ⟨hpc, -⟩ := respond_stops (c := c.upTo r wire) rm hfirst
        (by rw [content]; exact hgo)
      rw [accepted_afterHandshake, handshake_completed hpc, hsame.accepted.trans hacc]
      simp only [Bool.false_eq_true, false_iff]
      rintro ⟨_, _, _, _, heq, h, -⟩
      cases heq
      exact hgo h

/-- The caller of `Initialize` deletes the handler. -/
def Abandoned (e : InitEnd) (nonBlocking : Bool) : Prop :=
  e = .returned false ∨ (e = .returned true ∧ nonBlocking = false)

instance (e : InitEnd) (nonBlocking : Bool) : Decidable (Abandoned e nonBlocking) :=
  inferInstanceAs (Decidable (_ ∨ _))

theorem accepted_runInitialize (hc : c.Fresh) (evs : List IoEvent) :
    (c.runInitialize evs).2.accepted = true ↔ c.Asked ∧ c.enter.Registers evs := by
  have henter : c.enter.accepted = false := by
    unfold Opening.enter
    split
    · exact (Opening.sameRegistry_send _).accepted.trans hc.accepted
    · exact hc.accepted
  by_cases hasked : c.Asked
  · obtain ⟨hpc, hfirst⟩ := hc.enter.1 hasked
    rw [(runInitialize_asked hpc evs).1, accepted_first hc.idle hfirst henter]
    exact ⟨fun h => ⟨hasked, h⟩, fun h => h.2⟩
  · rw [runInitialize_unasked (hc.enter.2 hasked), henter]
    exact ⟨fun h => absurd h Bool.false_ne_true, fun h => absurd h.1 hasked⟩

/-- Behind a failed connection the registry is clean just when it was before and the handshake did
not come as far as to have the handler registered. -/
theorem abandoned_clean_iff {c : Opening} (hc : c.Fresh) (evs : List IoEvent) (nonBlocking : Bool) :
    (Abandoned (c.runInitialize evs).1 nonBlocking →
        ¬ (c.runInitialize evs).2.registry.Refers c.handler c.worker.realPeer) ↔
      (Abandoned (c.runInitialize evs).1 nonBlocking →
        ¬ c.registry.Refers c.handler c.worker.realPeer ∧ ¬ (c.Asked ∧ c.enter.Registers evs)) := by
  have htracks : c.Tracks c.registry c.handler := ⟨rfl, by rw [hc.accepted]; rfl⟩
  have hreg := (htracks.runInitialize evs).registry
  refine forall_congr' fun _ => ?_
  rw [← accepted_runInitialize hc]
  cases hacc : (c.runInitialize evs).2.accepted with
  | true =>
    rw [hacc, if_pos rfl] at hreg
    simp only [not_true_eq_false, and_false, iff_false, not_not]
    exact .inl hreg
  | false =>
    rw [hacc, if_neg Bool.false_ne_true] at hreg
    rw [hreg]
    simp only [Bool.false_eq_true, not_false_eq_true, and_true]

/-- The peer closes the connection behind its request. -/
theorem abandoned_clean_closed :
    ¬ ((acceptedConnection clientBytes []).runInitialize [.take 15, .take 1, .closed]).2.registry.Refers 7
      ⟨"10.0.0.2", 4000⟩ := by
  refine (abandoned_clean_iff (fresh_acceptedConnection clientBytes [])
    [.take 15, .take 1, .closed] true).mpr (fun _ => ⟨?_, ?_⟩) (.inl (by decide +kernel))
  · rintro (⟨_, h⟩ | h | h | ⟨_, h⟩)
    · cases h
    · exact h rfl
    · exact h rfl
    · cases h
  · rintro ⟨-, hdr, payload, evs', wire', hm, -, hdr', payload', evs'', wire'', hm', -⟩
    have hwhole : meets [.take 15, .take 1, .closed] clientBytes = .message (clientBytes.take 16) [0x23, 0x28]
        [.closed] (clientBytes.drop 18) := by decide +kernel
    cases hwhole.symm.trans hm
    cases hm'

/-- The `Send` of the last answer fails, or `SetNonBlocking` does: `Initialize` has the handler
deleted, or its caller does, and the registry has it under 10.0.0.2:9000. -/
theorem abandoned_registered :
    (let o := (acceptedConnection clientBytes [true, false]).runInitialize [.take 15, .take 1, .take 15, .take 1];
      (o.1, o.2.registry.workers ⟨"10.0.0.2", 9000⟩, o.2.registry.rpLp ⟨"10.0.0.2", 4000⟩,
        o.2.registry.handlerRp 7)) =
      (.returned false, some 7, some ⟨"10.0.0.2", 9000⟩, some ⟨"10.0.0.2", 4000⟩) ∧
    (let o := (acceptedConnection clientBytes []).runInitialize [.take 15, .take 1, .take 15, .take 1];
      (decide (Abandoned o.1 false), o.2.registry.workers ⟨"10.0.0.2", 9000⟩)) = (true, some 7) := by
  decide +kernel

end

end FlyingKV.Net
