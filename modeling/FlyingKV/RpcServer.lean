import FlyingKV.NetMessage

set_option autoImplicit false

/-!
# `RpcServerSync::proc_msg`

A request is the id of a handler in two bytes and a protobuf message. Each of the four
ways through `proc_msg` builds its own response, and only one of them sets its fields.
-/
namespace FlyingKV.Rpc
open ByteOrder Net

inductive SocketProtocol where
  | none
  | tcp
  | udp
deriving DecidableEq, Repr

structure PeerInfo where
  addr : String
  port : ℕ
  sp : SocketProtocol
deriving DecidableEq, Repr

/-- What a default-constructed `net_peer_info_t` holds. -/
def PeerInfo.default : PeerInfo := ⟨"", 0, .none⟩

inductive RpcCode where
  | OK
  | ErrorNoHandler
  | ErrorMsg
  | ErrorInternal
deriving DecidableEq, Repr

def RpcCode.toNat : RpcCode → ℕ
  | .OK => 0
  | .ErrorNoHandler => 1
  | .ErrorMsg => 2
  | .ErrorInternal => 3

/-- A serialised protobuf message; the library limits its size. -/
abbrev Serialized := { bs : Bytes // bs.length < 2 ^ 31 }

/-- An `IRpcHandler`: whether `CreateMessage` returns an object, what that object parses, and
`Handle`, which may throw or return nothing. -/
structure Handler (Req : Type) where
  createMessage : Bool
  parseFromArray : Bytes → Option Req
  handle : Req → Except String (Option Serialized)

/-- A received message as `proc_msg` gets it. All peers of the socket service are TCP peers. -/
structure Delivered where
  rm : RcvMessage
  peer : PeerInfo
  /-- The byte in memory behind the payload. -/
  behind : UInt8
  wellFormed : rm.WellFormed
  tcp : peer.sp = .tcp

inductive NotifyMessage where
  | message (rm : Option Delivered)
  | worker
  | server

/-- An `RpcResponseBase` or, with `body`, an `RpcResponse`. `memPool` tells whether `m_pMemPool` was
ever set. -/
structure Response where
  id : ℕ
  peer : PeerInfo
  memPool : Bool
  code : RpcCode
  handlerId : ℕ
  body : Option Serialized
deriving DecidableEq

def Response.payload (m : Response) : Bytes :=
  writeBE 2 m.code.toNat ++ writeBE 2 m.handlerId ++ (m.body.map Subtype.val).getD []

structure RpcServer (Req : Type) where
  /-- `m_hmHandlers`; a null pointer is `none`. -/
  handlers : List (ℕ × Option (Handler Req))
  /-- `SndMessage::s_lastId`. -/
  lastId : ℕ
  /-- The socket service is stopped. -/
  bStopped : Bool
  /-- What the worker of a peer makes of a message, once the service has found it. -/
  deliver : PeerInfo → Except String Bool

section
variable {Req : Type}

/-- How `proc_msg` ends: it comes back, it throws, or `LOG(FATAL)` ends the process. -/
inductive Ending where
  | returned
  | thrown (what : String)
  | aborted
deriving DecidableEq

structure ProcResult (Req : Type) where
  server : RpcServer Req
  /-- What `SendMessage` was called with. -/
  sent : List Response
  ending : Ending

def notSupportError : String := "Not support now!"

/-- `NBSocketService::SendMessage`. -/
def RpcServer.sendMessage (s : RpcServer Req) (m : Response) : Except String Bool :=
  if s.bStopped then .ok false
  else if m.peer.sp ≠ .tcp then .error notSupportError
  else s.deliver m.peer

def RpcServer.respond (s : RpcServer Req) (m : Response) : ProcResult Req :=
  match s.sendMessage m with
  | .ok _ => ⟨s, [m], .returned⟩
  | .error what => ⟨s, [m], .thrown what⟩

/-- `SendMessage(new RpcResponseBase(code, handlerId))`: a new id, and no peer or pool. -/
def RpcServer.respondError (s : RpcServer Req) (code : RpcCode) (handlerId : ℕ) : ProcResult Req :=
  { s with lastId := newId s.lastId }.respond
    ⟨newId s.lastId, .default, false, code, handlerId, none⟩

/-- `m_hmHandlers[handlerId]`, which makes an entry for an unknown id. -/
def RpcServer.index (s : RpcServer Req) (handlerId : ℕ) : RpcServer Req × Option (Handler Req) :=
  match s.handlers.lookup handlerId with
  | some handler => (s, handler)
  | none => ({ s with handlers := (handlerId, none) :: s.handlers }, none)

/-- `ReadUInt16(reqBuf->GetPos())`. -/
def Delivered.handlerId (d : Delivered) : ℕ := fieldBE 2 (d.rm.buffer.fromPos ++ [d.behind])

def procMsg (s : RpcServer Req) : NotifyMessage → ProcResult Req
  | .message none => ⟨s, [], .returned⟩
  | .message (some d) =>
    let reqBuf := d.rm.buffer.moveHeadBack 2
    let (s, handler) := s.index d.handlerId
    match handler with
    | none => s.respondError .ErrorNoHandler d.handlerId
    | some handler =>
      if !handler.createMessage then s.respondError .ErrorInternal d.handlerId
      else match handler.parseFromArray reqBuf.content with
        | none => s.respondError .ErrorMsg d.handlerId
        | some request =>
          match handler.handle request with
          | .error what => ⟨s, [], .thrown what⟩
          | .ok res =>
            -- `RpcResponse` takes a new id first, which `SetId` replaces
            { s with lastId := newId s.lastId }.respond
              ⟨d.rm.header.id, d.peer, true, .OK, d.handlerId, res⟩
  | .worker => ⟨s, [], .returned⟩
  -- `LOGFFUN` stands before the `throw`
  | .server => ⟨s, [], .aborted⟩

/-! ## The answer to a request -/

/-- `Encode` will not fail on it. -/
def Response.Encodable (m : Response) : Prop :=
  m.memPool = true ∧ ∃ b, (SndMessage.mk m.id m.payload).encode = .ok b

/-- One response, to the peer and under the id of the request; no exception; no new handler. -/
structure Answered (s : RpcServer Req) (d : Delivered) (o : ProcResult Req) : Prop where
  ending : o.ending = .returned
  handlers : o.server.handlers.map Prod.fst = s.handlers.map Prod.fst
  response : ∃ m, o.sent = [m] ∧ m.peer = d.peer ∧ m.peer.sp = .tcp ∧ m.id = d.rm.header.id ∧
    m.Encodable

/-- The handler is registered, makes a request object, the bytes behind the id parse, `Handle` comes
back, and its result with the four bytes before it is not larger than a payload may be. -/
def CanAnswer (s : RpcServer Req) (d : Delivered) : Prop :=
  ∃ handler, s.handlers.lookup d.handlerId = some (some handler) ∧ handler.createMessage = true ∧
    ∃ request, handler.parseFromArray (d.rm.payload.drop 2) = some request ∧
      ∃ res, handler.handle request = .ok res ∧
        4 + ((res.map Subtype.val).getD []).length ≤ maxMsgPayloadSize

theorem Response.length_payload (m : Response) :
    m.payload.length = 4 + ((m.body.map Subtype.val).getD []).length := by
  simp only [Response.payload, List.length_append, length_writeBE]

theorem Response.encodable_iff {m : Response} (h : m.memPool = true) :
    m.Encodable ↔ m.payload.length ≤ maxMsgPayloadSize := by
  have hlt : m.payload.length < 2 ^ 32 := by
    rw [m.length_payload]
    cases hb : m.body with
    | none => simp
    | some body =>
      have := body.2
      simp only [Option.map_some, Option.getD_some]
      omega
  have hpos : ¬ m.payload.length ≤ 0 := by
    rw [m.length_payload]
    omega
  simp only [Response.Encodable, h, true_and, SndMessage.encode, Nat.mod_eq_of_lt hlt, if_neg hpos]
  by_cases hle : m.payload.length ≤ maxMsgPayloadSize
  · simp [hle, not_lt.mpr hle]
  · simp [hle, not_le.mp hle]

theorem Delivered.content_moveHeadBack (d : Delivered) :
    (d.rm.buffer.moveHeadBack 2).content = d.rm.payload.drop 2 :=
  d.wellFormed.filled.content_moveHeadBack d.wellFormed.ne_nil 2

theorem not_answered_respondError (s s' : RpcServer Req) (d : Delivered) (code : RpcCode) (handlerId : ℕ) :
    ¬ Answered s d (s'.respondError code handlerId) := by
  rintro ⟨-, -, m, hsent, -, htcp, -⟩
  have hm : m = ⟨newId s'.lastId, .default, false, code, handlerId, none⟩ := by
    unfold RpcServer.respondError RpcServer.respond at hsent
    split at hsent <;> simpa using hsent.symm
  rw [hm] at htcp
  exact nomatch htcp

/-- The response to a handled request is the answer unless it is too large to be encoded. -/
theorem answered_respond_iff {s : RpcServer Req} (hdeliver : ∀ peer, ∃ rc, s.deliver peer = .ok rc)
    (d : Delivered) (lastId handlerId : ℕ) (res : Option Serialized) :
    Answered s d ({ s with lastId }.respond ⟨d.rm.header.id, d.peer, true, .OK, handlerId, res⟩) ↔
      4 + ((res.map Subtype.val).getD []).length ≤ maxMsgPayloadSize := by
  set m : Response := ⟨d.rm.header.id, d.peer, true, .OK, handlerId, res⟩ with hm
  have hsend : ∃ rc, { s with lastId }.sendMessage m = .ok rc := by
    unfold RpcServer.sendMessage
    split_ifs with hstop hsp
    · exact ⟨false, rfl⟩
    · exact absurd d.tcp hsp
    · exact hdeliver d.peer
  obtain ⟨rc, hrc⟩ := hsend
  have hencode : m.Encodable ↔ 4 + ((res.map Subtype.val).getD []).length ≤ maxMsgPayloadSize := by
    rw [Response.encodable_iff rfl, m.length_payload]
  rw [← hencode, RpcServer.respond, hrc]
  constructor
  · rintro ⟨-, -, m', hsent, -, -, -, henc⟩
    rw [List.singleton_inj.mp hsent]
    exact henc
  · intro henc
    exact ⟨rfl, rfl, m, rfl, rfl, d.tcp, rfl, henc⟩

/-- A request is answered as it should be if and only if all steps up to `Handle` succeed and the
result is not too large. -/
theorem request_answered_iff (s : RpcServer Req) (hdeliver : ∀ peer, ∃ rc, s.deliver peer = .ok rc)
    (d : Delivered) : Answered s d (procMsg s (.message (some d))) ↔ CanAnswer s d := by
  simp only [procMsg, d.content_moveHeadBack, RpcServer.index, CanAnswer]
  -- one case for each way out of `proc_msg`
  rcases hfind : s.handlers.lookup d.handlerId with _ | _ | handler
  · simpa using not_answered_respondError s _ d _ _
  · simpa using not_answered_respondError s _ d _ _
  simp only [Option.some.injEq, exists_eq_left']
  rcases Bool.eq_false_or_eq_true handler.createMessage with hcreate | hcreate
  rotate_left
  · simpa [hcreate] using not_answered_respondError s _ d _ _
  simp only [hcreate, Bool.not_true, Bool.false_eq_true, if_false, true_and]
  rcases hparse : handler.parseFromArray (d.rm.payload.drop 2) with _ | request
  · simpa using not_answered_respondError s _ d _ _
  simp only [Option.some.injEq, exists_eq_left']
  rcases hhandle : handler.handle request with what | res
  · simp only [reduceCtorEq, false_and, exists_false, iff_false]
    rintro ⟨hending, -, -⟩
    exact nomatch hending
  · simp only [Except.ok.injEq, exists_eq_left']
    exact answered_respond_iff hdeliver d _ _ res

/-! ## A server with one handler -/

/-- The request of `pingServer` whose handler id is `id` and which has no further bytes. -/
def pingRequest (id : UInt8) : Delivered where
  rm := ⟨⟨messageMagicNo, 7, 2⟩, ⟨[0, id], some 0, some 1, true⟩⟩
  peer := ⟨"10.0.0.1", 2350, .tcp⟩
  behind := 0
  wellFormed := ⟨List.cons_ne_nil 0 [id], rfl, le_refl 2, rfl, rfl, rfl, rfl⟩
  tcp := rfl

end

/-- Handler 2 takes any request and has nothing to return. -/
def pingServer : RpcServer Bytes where
  handlers := [(2, some ⟨true, some, fun _ => .ok none⟩)]
  lastId := 40
  bStopped := false
  deliver _ := .ok true

theorem request_answered_ping : Answered pingServer (pingRequest 2)
    (procMsg pingServer (.message (some (pingRequest 2)))) := by
  refine (request_answered_iff pingServer (fun _ => ⟨true, rfl⟩) (pingRequest 2)).mpr ?_
  exact ⟨⟨true, some, fun _ => .ok none⟩, rfl, rfl, [], rfl, none, rfl, by decide⟩

/-- A request for an unknown handler: the response has an id of its own and no peer, so
`SendMessage` throws, and the unknown id is registered. -/
theorem unknown_handler_unanswered :
    (procMsg pingServer (.message (some (pingRequest 3)))).sent =
        [⟨41, .default, false, .ErrorNoHandler, 3, none⟩] ∧
      (procMsg pingServer (.message (some (pingRequest 3)))).ending = .thrown notSupportError ∧
      (procMsg pingServer (.message (some (pingRequest 3)))).server.handlers.map Prod.fst = [3, 2] ∧
      ¬ Answered pingServer (pingRequest 3) (procMsg pingServer (.message (some (pingRequest 3)))) := by
  refine ⟨rfl, rfl, rfl, ?_⟩
  rintro ⟨hending, -, -⟩
  exact nomatch hending

end FlyingKV.Rpc
