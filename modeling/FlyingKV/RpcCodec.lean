import FlyingKV.RpcClient
import FlyingKV.RpcServer

set_option autoImplicit false

/-!
# The payloads of requests and responses

The encoders write their fields at the head of the buffer and move it, the decoders read at the
head and move it; the sizes are written out in each of them. In front of an empty message the head
ends up behind the tail. A protobuf message is its bytes here, a null pointer is `none`.
-/
namespace FlyingKV.Rpc
open ByteOrder Net

/-! ## The encoders -/

/-- `WriteUInt16(b->GetPos(), n)`. -/
def writeUInt16 (b : Buffer) (n : UInt16) : Buffer := b.store (b.pos.getD 0).toNat (writeBE 2 n.toNat)

/-- `ProtoBufUtils::Serialize`, which leaves the head where it is. -/
def serialize (msg : Bytes) (b : Buffer) : Buffer := b.store (b.pos.getD 0).toNat msg

structure RpcRequest where
  id : UInt64
  handlerId : UInt16
  msg : Option Bytes
deriving DecidableEq, Repr

def RpcRequest.getDerivePayloadLength (m : RpcRequest) : ℕ :=
  match m.msg with
  | some msg => (2 + msg.length) % 2 ^ 32
  | none => 2

def RpcRequest.encodeDerive (m : RpcRequest) (b : Buffer) : Buffer :=
  let b := (writeUInt16 b m.handlerId).moveHeadBack 2
  match m.msg with
  | some msg => serialize msg b
  | none => b

def RpcRequest.encode (m : RpcRequest) : Except String Buffer :=
  encodeWith m.id.toNat m.getDerivePayloadLength m.encodeDerive

structure RpcResponseBase where
  id : UInt64
  code : UInt16
  ht : UInt16
deriving DecidableEq, Repr

def RpcResponseBase.getDerivePayloadLength (_ : RpcResponseBase) : ℕ := 2 + 2

def RpcResponseBase.encodeDerive (m : RpcResponseBase) (b : Buffer) : Buffer :=
  let b := (writeUInt16 b m.code).moveHeadBack 2
  writeUInt16 b m.ht

def RpcResponseBase.encode (m : RpcResponseBase) : Except String Buffer :=
  encodeWith m.id.toNat m.getDerivePayloadLength m.encodeDerive

structure RpcResponse extends RpcResponseBase where
  msg : Option Bytes
deriving DecidableEq, Repr

def RpcResponse.getDerivePayloadLength (m : RpcResponse) : ℕ :=
  let baseSize := m.toRpcResponseBase.getDerivePayloadLength
  match m.msg with
  | some msg => (baseSize + msg.length) % 2 ^ 32
  | none => baseSize

def RpcResponse.encodeDerive (m : RpcResponse) (b : Buffer) : Buffer :=
  let b := (writeUInt16 b m.code).moveHeadBack 2
  let b := (writeUInt16 b m.ht).moveHeadBack 2
  match m.msg with
  | some msg => serialize msg b
  | none => b

def RpcResponse.encode (m : RpcResponse) : Except String Buffer :=
  encodeWith m.id.toNat m.getDerivePayloadLength m.encodeDerive

/-! ## What they write -/

theorem writes_id : Writes id [] := by
  intro b done free hb _
  exact ⟨b, by simpa using hb, rfl⟩

/-- The head is set back in the end, so it does not matter that the last field does not move it. -/
theorem writes_store (bs : Bytes) : Writes (fun b => b.store (b.pos.getD 0).toNat bs) bs := by
  intro b done free hb hle
  refine ⟨b.put bs, hb.put bs hle, ?_⟩
  simp only [Buffer.put, Buffer.moveHeadBack, Buffer.store, Buffer.setPos, Buffer.checkAvailable, hb.pos, hb.last]

theorem writes_field (n : UInt16) {encode : Buffer → Buffer} {payload : Bytes} (h : Writes encode payload) :
    Writes (fun b => encode ((writeUInt16 b n).moveHeadBack 2)) (writeBE 2 n.toNat ++ payload) := by
  intro b done free hb hle
  rw [List.length_append, length_writeBE] at hle
  have hfield := hb.put (writeBE 2 n.toNat) (by rw [length_writeBE]; omega)
  rw [length_writeBE] at hfield
  obtain ⟨b', hb', heq⟩ := h _ _ _ hfield (by omega)
  refine ⟨b', ?_, ?_⟩
  · rwa [List.append_assoc, Nat.sub_sub, ← length_writeBE 2 n.toNat, ← List.length_append] at hb'
  · rw [← heq, Buffer.put, length_writeBE]
    rfl

def RpcRequest.payload (m : RpcRequest) : Bytes := writeBE 2 m.handlerId.toNat ++ m.msg.getD []

def RpcResponseBase.payload (m : RpcResponseBase) : Bytes := writeBE 2 m.code.toNat ++ writeBE 2 m.ht.toNat

def RpcResponse.payload (m : RpcResponse) : Bytes :=
  writeBE 2 m.code.toNat ++ (writeBE 2 m.ht.toNat ++ m.msg.getD [])

theorem RpcRequest.writes (m : RpcRequest) : Writes m.encodeDerive m.payload := by
  unfold RpcRequest.encodeDerive RpcRequest.payload
  cases m.msg with
  | none => exact writes_field m.handlerId writes_id
  | some msg => exact writes_field m.handlerId (writes_store msg)

theorem RpcResponseBase.writes (m : RpcResponseBase) : Writes m.encodeDerive m.payload :=
  writes_field m.code (writes_store (writeBE 2 m.ht.toNat))

theorem RpcResponse.writes (m : RpcResponse) : Writes m.encodeDerive m.payload := by
  unfold RpcResponse.encodeDerive RpcResponse.payload
  cases m.msg with
  | none => exact writes_field m.code (writes_field m.ht writes_id)
  | some msg => exact writes_field m.code (writes_field m.ht (writes_store msg))

/-- The responses that `proc_msg` makes are these. -/
theorem Response.payload_eq (m : Response) (id : UInt64) :
    m.payload = (RpcResponse.mk ⟨id, UInt16.ofNat m.code.toNat, UInt16.ofNat m.handlerId⟩
      (m.body.map Subtype.val)).payload := by
  have hfield (n : ℕ) : writeBE 2 (UInt16.ofNat n).toNat = writeBE 2 n := by
    rw [UInt16.toNat_ofNat']
    exact writeBE_mod 2 n
  rw [Response.payload, RpcResponse.payload, hfield, hfield, List.append_assoc]

theorem encode_of_writes (id : UInt64) {payload : Bytes} (hpos : 1 ≤ payload.length)
    (hle : payload.length ≤ maxMsgPayloadSize) {len : ℕ} (hlen : len = payload.length)
    {encodeDerive : Buffer → Buffer} (h : Writes encodeDerive payload) :
    ∃ b, encodeWith id.toNat len encodeDerive = .ok b ∧ b.content = (SndMessage.mk id.toNat payload).bytes := by
  have hsend : (SndMessage.mk id.toNat payload).Sendable := ⟨id.toNat_lt, hpos, hle⟩
  obtain ⟨b, hb, hunsent⟩ := encodeWith_of_writes hsend h
  refine ⟨b, hlen ▸ hb, ?_⟩
  rw [Buffer.content, hunsent.availableLength, hunsent.fromPos, Int.toNat_natCast, List.take_length]

theorem RpcRequest.encode_bytes (m : RpcRequest) (hle : 2 + (m.msg.getD []).length ≤ maxMsgPayloadSize) :
    ∃ b, m.encode = .ok b ∧ b.content = (SndMessage.mk m.id.toNat m.payload).bytes := by
  have hlen : m.payload.length = 2 + (m.msg.getD []).length := by
    rw [RpcRequest.payload, List.length_append, length_writeBE]
  refine encode_of_writes m.id (by omega) (by omega) ?_ m.writes
  rw [hlen, RpcRequest.getDerivePayloadLength]
  cases hmsg : m.msg with
  | none => rfl
  | some msg =>
    rw [hmsg] at hle
    simp only [Option.getD_some, maxMsgPayloadSize] at hle ⊢
    omega

theorem RpcResponseBase.encode_bytes (m : RpcResponseBase) :
    ∃ b, m.encode = .ok b ∧ b.content = (SndMessage.mk m.id.toNat m.payload).bytes := by
  have hlen : m.payload.length = 4 := by
    rw [RpcResponseBase.payload, List.length_append, length_writeBE, length_writeBE]
  exact encode_of_writes m.id (by omega) (by rw [hlen]; decide) hlen.symm m.writes

theorem RpcResponse.encode_bytes (m : RpcResponse) (hle : 4 + (m.msg.getD []).length ≤ maxMsgPayloadSize) :
    ∃ b, m.encode = .ok b ∧ b.content = (SndMessage.mk m.id.toNat m.payload).bytes := by
  have hlen : m.payload.length = 4 + (m.msg.getD []).length := by
    rw [RpcResponse.payload, List.length_append, List.length_append, length_writeBE, length_writeBE, ← Nat.add_assoc]
  refine encode_of_writes m.id (by omega) (by omega) ?_ m.writes
  rw [hlen, RpcResponse.getDerivePayloadLength]
  cases hmsg : m.msg with
  | none => rfl
  | some msg =>
    rw [hmsg] at hle
    simp only [Option.getD_some, maxMsgPayloadSize, RpcResponseBase.getDerivePayloadLength] at hle ⊢
    omega

/-! ## The decoders -/

/-- What the end of `recvMessage` reads, and the buffer that it leaves to the stub. -/
structure ServerReply where
  serverCode : ℕ
  handlerId : ℕ
  buffer : Buffer
deriving DecidableEq, Repr

def recvMessage (buffer : Buffer) : ServerReply :=
  let serverCode := fieldBE 2 buffer.fromPos
  let buffer := buffer.moveHeadBack 2
  let handlerId := fieldBE 2 buffer.fromPos
  ⟨serverCode, handlerId, buffer⟩

/-- The bytes that the stub has `Deserialize` parse. -/
def ServerReply.message (r : ServerReply) : Bytes := (r.buffer.moveHeadBack 2).content

section
variable {b : Buffer} {size : ℕ} {bs : Bytes}

theorem moveHeadBack_moveHeadBack (hb : b.Filled size bs) (hbs : bs ≠ []) (m n : ℕ) :
    (b.moveHeadBack m).moveHeadBack n = b.moveHeadBack (m + n) := by
  have hcursors := hb.cursors
  rw [if_neg hbs] at hcursors
  simp only [Buffer.moveHeadBack, Buffer.checkAvailable, hcursors.1, hcursors.2.1, Nat.cast_add, Int.add_assoc]

/-- A field inside the payload, wherever the head has moved to. -/
theorem fieldBE_moveHeadBack (hb : b.Filled size bs) (hbs : bs ≠ []) {n w : ℕ} (hle : n + w ≤ bs.length)
    (rest : Bytes) : fieldBE w ((b.moveHeadBack n).fromPos ++ rest) = fieldBE w (bs.drop n) := by
  have hcursors := hb.cursors
  rw [if_neg hbs] at hcursors
  have hfrom : (b.moveHeadBack n).fromPos = b.data.drop n := by
    simp only [Buffer.fromPos, Buffer.moveHeadBack, Buffer.checkAvailable, hcursors.1, hcursors.2.1,
      Option.getD_some, zero_add, Int.toNat_natCast]
  have hdata : b.data.drop n = bs.drop n ++ b.data.drop bs.length := by
    conv_lhs => rw [← List.take_append_drop bs.length b.data, hb.front]
    rw [List.drop_append_of_le_length (by omega)]
  rw [hfrom, hdata, List.append_assoc, fieldBE_append _ (by rw [List.length_drop]; omega)]

theorem moveHeadBack_zero (hb : b.Filled size bs) (hbs : bs ≠ []) : b.moveHeadBack 0 = b := by
  have hpos : 0 < bs.length := List.length_pos_iff.mpr hbs
  have hcursors := hb.cursors
  rw [if_neg hbs] at hcursors
  obtain ⟨hhead, hlast, havailable⟩ := hcursors
  have hle : (0 : ℤ) ≤ bs.length - 1 := by omega
  cases b
  simp_all [Buffer.moveHeadBack, Buffer.checkAvailable]

theorem fieldBE_fromPos (hb : b.Filled size bs) (hbs : bs ≠ []) {w : ℕ} (hle : w ≤ bs.length) (rest : Bytes) :
    fieldBE w (b.fromPos ++ rest) = fieldBE w bs := by
  have hfield := fieldBE_moveHeadBack hb hbs (n := 0) (w := w) (by omega) rest
  rwa [moveHeadBack_zero hb hbs, List.drop_zero] at hfield

end

/-- The handler id and the message that `proc_msg` takes from a request. -/
theorem procMsg_reads (d : Delivered) {handlerId : UInt16} {msg : Bytes}
    (h : d.rm.payload = writeBE 2 handlerId.toNat ++ msg) :
    d.handlerId = handlerId.toNat ∧ (d.rm.buffer.moveHeadBack 2).content = msg := by
  have hfilled := d.wellFormed.filled
  have hne := d.wellFormed.ne_nil
  have hlen : d.rm.payload.length = 2 + msg.length := by
    rw [h, List.length_append, length_writeBE]
  constructor
  · rw [Delivered.handlerId, fieldBE_fromPos hfilled hne (by omega), h, fieldBE_writeBE_append]
    exact Nat.mod_eq_of_lt handlerId.toNat_lt
  · rw [d.content_moveHeadBack, h, List.drop_left' (length_writeBE _ _)]

/-- What `recvMessage` and the stub take from a response. -/
theorem recvMessage_reads {rm : RcvMessage} (hrm : rm.WellFormed) {code ht : UInt16} {msg : Bytes}
    (h : rm.payload = writeBE 2 code.toNat ++ (writeBE 2 ht.toNat ++ msg)) :
    (recvMessage rm.buffer).serverCode = code.toNat ∧ (recvMessage rm.buffer).handlerId = ht.toNat ∧
      (recvMessage rm.buffer).message = msg := by
  obtain ⟨hne, hfilled⟩ := hrm
  have hlen : rm.payload.length = 2 + (2 + msg.length) := by
    rw [h, List.length_append, List.length_append, length_writeBE, length_writeBE]
  refine ⟨?_, ?_, ?_⟩
  · have hfield := fieldBE_fromPos hfilled hne (w := 2) (by omega) []
    rw [List.append_nil, h, fieldBE_writeBE_append] at hfield
    exact hfield.trans (Nat.mod_eq_of_lt code.toNat_lt)
  · have hfield := fieldBE_moveHeadBack hfilled hne (n := 2) (w := 2) (by omega) []
    rw [List.append_nil, h, List.drop_left' (length_writeBE _ _), fieldBE_writeBE_append] at hfield
    exact hfield.trans (Nat.mod_eq_of_lt ht.toNat_lt)
  · change ((rm.buffer.moveHeadBack 2).moveHeadBack 2).content = msg
    rw [moveHeadBack_moveHeadBack hfilled hne, hfilled.content_moveHeadBack hne, h, ← List.append_assoc]
    exact List.drop_left' (by rw [List.length_append, length_writeBE, length_writeBE])

/-- Requests and responses are read as they were written, also with an empty message. -/
theorem rpc_round_trip (id : UInt64) (code handlerId : UInt16) (msg : Option Bytes) :
    (2 + (msg.getD []).length ≤ maxMsgPayloadSize → ∃ b payload, (RpcRequest.mk id handlerId msg).encode = .ok b ∧
      b.content = (SndMessage.mk id.toNat payload).bytes ∧ ∀ d : Delivered, d.rm.payload = payload →
        d.handlerId = handlerId.toNat ∧ (d.rm.buffer.moveHeadBack 2).content = msg.getD []) ∧
    (4 + (msg.getD []).length ≤ maxMsgPayloadSize → ∃ b payload,
      (RpcResponse.mk ⟨id, code, handlerId⟩ msg).encode = .ok b ∧
      b.content = (SndMessage.mk id.toNat payload).bytes ∧ ∀ rm : RcvMessage, rm.WellFormed → rm.payload = payload →
        (recvMessage rm.buffer).serverCode = code.toNat ∧ (recvMessage rm.buffer).handlerId = handlerId.toNat ∧
          (recvMessage rm.buffer).message = msg.getD []) ∧
    ∃ b payload, (RpcResponseBase.mk id code handlerId).encode = .ok b ∧
      b.content = (SndMessage.mk id.toNat payload).bytes ∧ ∀ rm : RcvMessage, rm.WellFormed → rm.payload = payload →
        (recvMessage rm.buffer).serverCode = code.toNat ∧ (recvMessage rm.buffer).handlerId = handlerId.toNat ∧
          (recvMessage rm.buffer).message = [] := by
  refine ⟨fun hle => ?_, fun hle => ?_, ?_⟩
  · obtain ⟨b, hb, hbytes⟩ := (RpcRequest.mk id handlerId msg).encode_bytes hle
    exact ⟨b, _, hb, hbytes, fun d hd => procMsg_reads d hd⟩
  · obtain ⟨b, hb, hbytes⟩ := (RpcResponse.mk ⟨id, code, handlerId⟩ msg).encode_bytes hle
    exact ⟨b, _, hb, hbytes, fun rm hrm h => recvMessage_reads hrm h⟩
  · obtain ⟨b, hb, hbytes⟩ := (RpcResponseBase.mk id code handlerId).encode_bytes
    refine ⟨b, _, hb, hbytes, fun rm hrm h => recvMessage_reads hrm (h.trans ?_)⟩
    rw [RpcResponseBase.payload, List.append_nil]

/-- A request with three bytes and one without, and a response with two. -/
theorem rpc_round_trip_small :
    (∃ b payload, (RpcRequest.mk 7 5 (some [1, 2, 3])).encode = .ok b ∧
      b.content = (SndMessage.mk 7 payload).bytes ∧ ∀ d : Delivered, d.rm.payload = payload →
        d.handlerId = 5 ∧ (d.rm.buffer.moveHeadBack 2).content = [1, 2, 3]) ∧
    (∃ b payload, (RpcRequest.mk 7 5 (some [])).encode = .ok b ∧ b.content = (SndMessage.mk 7 payload).bytes ∧
      ∀ d : Delivered, d.rm.payload = payload →
        d.handlerId = 5 ∧ (d.rm.buffer.moveHeadBack 2).content = []) ∧
    ∃ b payload, (RpcResponse.mk ⟨7, 0, 5⟩ (some [8, 9])).encode = .ok b ∧
      b.content = (SndMessage.mk 7 payload).bytes ∧ ∀ rm : RcvMessage, rm.WellFormed → rm.payload = payload →
        (recvMessage rm.buffer).serverCode = 0 ∧ (recvMessage rm.buffer).handlerId = 5 ∧
          (recvMessage rm.buffer).message = [8, 9] :=
  ⟨(rpc_round_trip 7 0 5 (some [1, 2, 3])).1 (by decide), (rpc_round_trip 7 0 5 (some [])).1 (by decide),
    (rpc_round_trip 7 0 5 (some [8, 9])).2.1 (by decide)⟩

end FlyingKV.Rpc
