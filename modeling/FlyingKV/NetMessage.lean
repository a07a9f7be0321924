import FlyingKV.CommonUtils
import FlyingKV.NetBuffer

set_option autoImplicit false

/-!
# Messages on the wire

A message travels as a header of 16 bytes, which are a magic number, the id and the
length of the payload, and the payload.
-/
namespace FlyingKV.Net
open ByteOrder CommonUtils

def messageMagicNo : ℕ := 0xdeadbeef
def maxMsgPayloadSize : ℕ := 0x4000000
def headerSize : ℕ := 16

structure Header where
  magic : ℕ
  id : ℕ
  len : ℕ
deriving DecidableEq, Repr

/-- A message to be sent: its id and what `encodeDerive` will write. -/
structure SndMessage where
  id : ℕ
  payload : Bytes
deriving DecidableEq, Repr

def payloadEmptyError : String := "message payload cannot less than 0 bytes"
def payloadTooLongError : String := "message payload cannot more than 64MiB"

/-- `SndMessage::GetNewId`, from the last id given out. -/
def newId (lastId : ℕ) : ℕ := if lastId + 1 = 2 ^ 64 - 1 then 1 else lastId + 1

/-- Write at the head and move it behind what was written. -/
def Buffer.put (b : Buffer) (bs : Bytes) : Buffer :=
  (b.store (b.pos.getD 0).toNat bs).moveHeadBack bs.length

def encodeHeader (b : Buffer) (h : Header) : Buffer :=
  ((b.put (writeUInt32 h.magic)).put (writeUInt64 h.id)).put (writeUInt32 h.len)

/-- `SndMessage::Encode`; an error is an exception. -/
def SndMessage.encode (m : SndMessage) : Except String Buffer :=
  let deriveBufferSize := m.payload.length % 2 ^ 32
  if deriveBufferSize ≤ 0 then .error payloadEmptyError
  else if deriveBufferSize > maxMsgPayloadSize then .error payloadTooLongError
  else
    let buf := Buffer.newAvailable (headerSize + deriveBufferSize)
    let buf := encodeHeader buf ⟨messageMagicNo, m.id, deriveBufferSize⟩
    let buf := buf.put m.payload
    .ok (buf.setPos 0)

/-- `RcvMessage::DecodeMsgHeader`. -/
def decodeMsgHeader (b : Buffer) : Option Header :=
  if b.availableLength < headerSize then none
  else
    let magic := readUInt32 b.fromPos
    if magic ≠ messageMagicNo then none
    else
      let id := readUInt64 (b.fromPos.drop 4)
      let len := readUInt32 (b.fromPos.drop 12)
      if len ≤ maxMsgPayloadSize then some ⟨magic, id, len⟩ else none

/-- A message that was received: the header and the buffer with the payload. -/
structure RcvMessage where
  header : Header
  buffer : Buffer
deriving DecidableEq, Repr

namespace RcvMessage

def payload (rm : RcvMessage) : Bytes := rm.buffer.content

/-- The buffer holds the payload and nothing else. -/
structure WellFormed (rm : RcvMessage) : Prop where
  ne_nil : rm.payload ≠ []
  filled : rm.buffer.Filled rm.header.len rm.payload

end RcvMessage

/-! ## Reading a header -/

/-- The header in sixteen bytes. -/
def headerOf (bs : Bytes) : Header := ⟨readUInt32 bs, readUInt64 (bs.drop 4), readUInt32 (bs.drop 12)⟩

/-- What `DecodeMsgHeader` lets through. -/
def Header.Valid (h : Header) : Prop := h.magic = messageMagicNo ∧ h.len ≤ maxMsgPayloadSize

/-- What `SndMessage::Encode` can write. -/
def Header.Encodable (h : Header) : Prop :=
  h.magic = messageMagicNo ∧ 1 ≤ h.len ∧ h.len ≤ maxMsgPayloadSize

instance (h : Header) : Decidable h.Valid := inferInstanceAs (Decidable (_ ∧ _))

instance (h : Header) : Decidable h.Encodable := inferInstanceAs (Decidable (_ ∧ _))

theorem fromPos_of_filled {b : Buffer} {size : ℕ} {bs : Bytes} (hb : b.Filled size bs) (hne : bs ≠ [])
    (hall : bs.length = size) : b.fromPos = bs := by
  have hcursors := hb.cursors
  rw [if_neg hne] at hcursors
  rw [Buffer.fromPos, hcursors.1, Option.getD_some, Int.toNat_zero, List.drop_zero,
    ← List.take_length (l := b.data), hb.length, ← hall, hb.front]

theorem decodeMsgHeader_filled {b : Buffer} {hdr : Bytes} (hb : b.Filled headerSize hdr)
    (hall : hdr.length = headerSize) :
    decodeMsgHeader b = if (headerOf hdr).Valid then some (headerOf hdr) else none := by
  have hne : hdr ≠ [] := List.ne_nil_of_length_pos (by rw [hall]; decide)
  have hav : ¬ b.availableLength < headerSize := by
    rw [hb.availableLength, hall]
    omega
  simp only [decodeMsgHeader, if_neg hav, fromPos_of_filled hb hne hall, Header.Valid, headerOf]
  split_ifs <;> simp_all

theorem headerOf_append {hdr : Bytes} (hall : hdr.length = headerSize) (part : Bytes) :
    headerOf (hdr ++ part) = headerOf hdr := by
  simp only [headerSize] at hall
  simp only [headerOf, Header.mk.injEq, readUInt32, readUInt64, fieldBE]
  refine ⟨?_, ?_, ?_⟩
  · rw [List.take_append_of_le_length (by omega)]
  · rw [List.drop_append_of_le_length (by omega), List.take_append_of_le_length (by rw [List.length_drop]; omega)]
  · rw [List.drop_append_of_le_length (by omega), List.take_append_of_le_length (by rw [List.length_drop]; omega)]

/-! ## The bytes of a message -/

namespace SndMessage

def headerBytes (m : SndMessage) : Bytes :=
  writeUInt32 messageMagicNo ++ (writeUInt64 m.id ++ writeUInt32 m.payload.length)

def bytes (m : SndMessage) : Bytes := m.headerBytes ++ m.payload

/-- What the two ends agree on: a 64-bit id and a payload of 1 byte to 64 MiB. -/
structure Sendable (m : SndMessage) : Prop where
  id_lt : m.id < 2 ^ 64
  pos : 1 ≤ m.payload.length
  le : m.payload.length ≤ maxMsgPayloadSize

instance (m : SndMessage) : Decidable m.Sendable :=
  decidable_of_iff (m.id < 2 ^ 64 ∧ 1 ≤ m.payload.length ∧ m.payload.length ≤ maxMsgPayloadSize)
    ⟨fun h => ⟨h.1, h.2.1, h.2.2⟩, fun h => ⟨h.id_lt, h.pos, h.le⟩⟩

def header (m : SndMessage) : Header := ⟨messageMagicNo, m.id, m.payload.length⟩

variable {m : SndMessage}

@[simp] theorem length_headerBytes (m : SndMessage) : m.headerBytes.length = headerSize := by
  simp [headerBytes, headerSize]

theorem length_bytes (m : SndMessage) : m.bytes.length = headerSize + m.payload.length := by
  simp [bytes]

theorem Sendable.length_lt (h : m.Sendable) : m.payload.length < 2 ^ 32 := by
  have := h.le
  simp only [maxMsgPayloadSize] at this
  omega

theorem Sendable.headerOf (h : m.Sendable) : headerOf m.headerBytes = m.header := by
  have hmagic : readUInt32 m.headerBytes = messageMagicNo := readUInt32_append (by decide) _
  have hid : readUInt64 (m.headerBytes.drop 4) = m.id := by
    rw [headerBytes, List.drop_left' (by simp)]
    exact readUInt64_append h.id_lt _
  have hlen : readUInt32 (m.headerBytes.drop 12) = m.payload.length := by
    rw [headerBytes, ← List.append_assoc, List.drop_left' (by simp),
      ← List.append_nil (writeUInt32 m.payload.length)]
    exact readUInt32_append h.length_lt _
  rw [Net.headerOf, hmagic, hid, hlen, header]

/-- The headers that can be sent are those of the messages that can. -/
theorem encodable_iff {hdr : Bytes} (hall : hdr.length = headerSize) :
    (Net.headerOf hdr).Encodable ↔ ∃ m : SndMessage, m.Sendable ∧ m.headerBytes = hdr := by
  constructor
  · rintro ⟨hmagic, hpos, hle⟩
    simp only [headerSize] at hall
    have hrest : (hdr.drop 4).drop 8 = hdr.drop 12 := by rw [List.drop_drop]
    have hlast : (hdr.drop 12).take 4 = hdr.drop 12 := List.take_of_length_le (by rw [List.length_drop]; omega)
    refine ⟨⟨readUInt64 (hdr.drop 4), List.replicate (readUInt32 (hdr.drop 12)) 0⟩, ⟨?_, ?_, ?_⟩, ?_⟩
    · exact fieldBE_lt 8 _
    · rw [List.length_replicate]
      exact hpos
    · rw [List.length_replicate]
      exact hle
    · rw [headerBytes, List.length_replicate, ← hmagic]
      change writeBE 4 (fieldBE 4 hdr) ++ (writeBE 8 (fieldBE 8 _) ++ writeBE 4 (fieldBE 4 _)) = hdr
      rw [writeBE_fieldBE (by omega), writeBE_fieldBE (by rw [List.length_drop]; omega),
        writeBE_fieldBE (by rw [List.length_drop]; omega), hlast, ← hrest, List.take_append_drop,
        List.take_append_drop]
  · rintro ⟨m, hm, rfl⟩
    rw [hm.headerOf]
    exact ⟨rfl, hm.pos, hm.le⟩

end SndMessage

/-! ## Encoding -/

/-- A buffer under construction: `done` is written, `free` bytes follow. -/
structure Buffer.Building (b : Buffer) (done : Bytes) (free : ℕ) : Prop where
  length : b.data.length = done.length + free
  front : b.data.take done.length = done
  pos : b.pos = some (done.length : ℤ)
  last : b.last = some ((b.data.length : ℤ) - 1)

theorem Buffer.building_newAvailable (size : ℕ) : (Buffer.newAvailable size).Building [] size :=
  ⟨by simp [newAvailable, checkAvailable], by simp, by simp [newAvailable, checkAvailable],
    by simp [newAvailable, checkAvailable]⟩

theorem Buffer.Building.put {b : Buffer} {done : Bytes} {free : ℕ} (h : b.Building done free)
    (bs : Bytes) (hle : bs.length ≤ free) : (b.put bs).Building (done ++ bs) (free - bs.length) := by
  obtain ⟨hlen, hpre, hpos, hlast⟩ := h
  have hdata : (b.put bs).data = done ++ bs ++ b.data.drop (done.length + bs.length) := by
    simp only [Buffer.put, store, hpos, hlast, Option.getD_some, Int.toNat_natCast, moveHeadBack,
      checkAvailable, hpre]
  have hlen' : (b.put bs).data.length = b.data.length := by
    rw [hdata]
    simp only [List.length_append, List.length_drop]
    omega
  refine ⟨?_, ?_, ?_, ?_⟩
  · rw [hlen', hlen, List.length_append]
    omega
  · rw [hdata, List.take_left' rfl]
  · simp only [Buffer.put, store, hpos, hlast, Option.getD_some, Int.toNat_natCast, moveHeadBack,
      checkAvailable, List.length_append, Nat.cast_add]
  · rw [hlen']
    simp only [Buffer.put, store, hpos, hlast, moveHeadBack, checkAvailable]

/-- Once the block is full, the head goes back to the start. -/
theorem Buffer.Building.unsent {b : Buffer} {bs : Bytes} (h : b.Building bs 0) (hne : bs ≠ []) :
    (b.setPos 0).Unsent bs := by
  obtain ⟨hlen, hfront, -, hlast⟩ := h
  have hpos : 0 < bs.length := List.length_pos_iff.mpr hne
  refine ⟨hne, ?_, ?_, 0, ?_, ?_⟩
  · simp only [Buffer.setPos, Buffer.checkAvailable, hlast]
  · simp only [Buffer.setPos, Buffer.checkAvailable, hlast, decide_eq_true_eq]
    omega
  · simp only [Buffer.setPos, Buffer.checkAvailable, hlast, Nat.cast_zero]
  · simp only [Buffer.setPos, Buffer.checkAvailable, hlast, List.drop_zero]
    rw [← List.take_length (l := b.data), hlen, Nat.add_zero, hfront]

theorem building_encodeHeader (m : SndMessage) :
    (encodeHeader (Buffer.newAvailable (headerSize + m.payload.length)) m.header).Building m.headerBytes
      m.payload.length := by
  have h₁ := (Buffer.building_newAvailable (headerSize + m.payload.length)).put
    (writeUInt32 messageMagicNo) (by simp [headerSize]; omega)
  have h₂ := h₁.put (writeUInt64 m.id) (by simp [headerSize]; omega)
  have h₃ := h₂.put (writeUInt32 m.payload.length) (by simp [headerSize]; omega)
  have hdone : [] ++ writeUInt32 messageMagicNo ++ writeUInt64 m.id ++ writeUInt32 m.payload.length =
      m.headerBytes := by
    simp [SndMessage.headerBytes]
  rw [hdone] at h₃
  refine ⟨?_, h₃.front, h₃.pos, h₃.last⟩
  rw [encodeHeader, SndMessage.header, h₃.length]
  simp only [headerSize, length_writeBE]
  omega

/-- `SndMessage::Encode` with the `getDerivePayloadLength` and the `encodeDerive` of a class. -/
def encodeWith (id deriveBufferSize : ℕ) (encodeDerive : Buffer → Buffer) : Except String Buffer :=
  if deriveBufferSize ≤ 0 then .error payloadEmptyError
  else if deriveBufferSize > maxMsgPayloadSize then .error payloadTooLongError
  else
    let buf := Buffer.newAvailable (headerSize + deriveBufferSize)
    let buf := encodeHeader buf ⟨messageMagicNo, id, deriveBufferSize⟩
    .ok ((encodeDerive buf).setPos 0)

/-- The encoder writes the payload at the head, wherever it leaves the head behind that. -/
def Writes (encodeDerive : Buffer → Buffer) (payload : Bytes) : Prop :=
  ∀ (b : Buffer) (done : Bytes) (free : ℕ), b.Building done free → payload.length ≤ free →
    ∃ b' : Buffer, b'.Building (done ++ payload) (free - payload.length) ∧
      (encodeDerive b).setPos 0 = b'.setPos 0

theorem encodeWith_of_writes {m : SndMessage} (h : m.Sendable) {encodeDerive : Buffer → Buffer}
    (hwrites : Writes encodeDerive m.payload) :
    ∃ b, encodeWith m.id m.payload.length encodeDerive = .ok b ∧ b.Unsent m.bytes := by
  have h0 : ¬ m.payload.length ≤ 0 := by
    have := h.pos
    omega
  have hmax : ¬ m.payload.length > maxMsgPayloadSize := not_lt.mpr h.le
  obtain ⟨b', hbuild, heq⟩ := hwrites _ _ _ (building_encodeHeader m) le_rfl
  rw [Nat.sub_self] at hbuild
  refine ⟨b'.setPos 0, ?_, hbuild.unsent ?_⟩
  · simp only [encodeWith, if_neg h0, if_neg hmax, ← heq, SndMessage.header]
  · exact List.ne_nil_of_length_pos (by simp [headerSize])

theorem writes_put (payload : Bytes) : Writes (fun b => b.put payload) payload :=
  fun b _ _ hb hle => ⟨b.put payload, hb.put payload hle, rfl⟩

theorem SndMessage.Sendable.encode {m : SndMessage} (h : m.Sendable) :
    ∃ b, m.encode = .ok b ∧ b.Unsent m.bytes := by
  have hencode : m.encode = encodeWith m.id (m.payload.length % 2 ^ 32) fun b => b.put m.payload := rfl
  rw [hencode, Nat.mod_eq_of_lt h.length_lt]
  exact encodeWith_of_writes h (writes_put m.payload)

end FlyingKV.Net
