import FlyingKV.MemPoolSize
import FlyingKV.NetWorker

set_option autoImplicit false

/-!
# `Recv` on arbitrary bytes

The other end may send anything. Between two rounds of `Recv` the receiver holds the bytes of one
frame that is not complete yet; a round adds what `read` gives it, until the header turns out to
be wrong or the payload is there.
-/
namespace FlyingKV.Net
open ByteOrder

/-! ## What the receiver keeps -/

/-- The bytes of the frame that is being received. -/
inductive Receiver.Inner (r : Receiver) : Bytes → Prop
  | idle (state : r.rcvState = .startToRcvHeader) : Inner r []
  | header {part : Bytes} (state : r.rcvState = .rcvingHeader) (ne_nil : part ≠ [])
      (lt : part.length < headerSize) (filled : r.headerBuffer.Filled headerSize part) : Inner r part
  | start {hdr : Bytes} (state : r.rcvState = .startToRcvPayload) (all : hdr.length = headerSize)
      (header : r.header = headerOf hdr) (valid : (headerOf hdr).Valid) : Inner r hdr
  | payload {hdr part : Bytes} {b : Buffer} (state : r.rcvState = .rcvingPayload)
      (all : hdr.length = headerSize) (header : r.header = headerOf hdr) (valid : (headerOf hdr).Valid)
      (ne_nil : part ≠ []) (lt : part.length < (headerOf hdr).len) (buffer : r.payloadBuffer = some b)
      (filled : b.Filled (headerOf hdr).len part) : Inner r (hdr ++ part)

structure Receiver.Keeps (r : Receiver) (held : Bytes) : Prop where
  headerLength : r.headerBuffer.data.length = headerSize
  inner : r.Inner held

theorem keeps_initial : Receiver.initial.Keeps [] := ⟨by simp [Receiver.initial, Buffer.new], .idle rfl⟩

theorem Receiver.Keeps.valid {r : Receiver} {held : Bytes} (h : r.Keeps held) (hle : headerSize ≤ held.length) :
    (headerOf held).Valid := by
  cases h.inner with
  | idle state => exact absurd hle (by decide)
  | header state ne_nil lt filled => omega
  | start state all header valid => exact valid
  | payload state all header valid ne_nil lt buffer filled => rwa [headerOf_append all]

theorem Receiver.Keeps.state_nil {r : Receiver} (h : r.Keeps []) : r.rcvState = .startToRcvHeader := by
  obtain ⟨-, hinner⟩ := h
  generalize hheld : ([] : Bytes) = held at hinner
  cases hinner with
  | idle state => exact state
  | header state ne_nil lt filled => exact absurd hheld.symm ne_nil
  | start state all header valid =>
    rw [← hheld] at all
    exact absurd all (by decide)
  | payload state all header valid ne_nil lt buffer filled =>
    exact absurd (List.append_eq_nil_iff.mp hheld.symm).2 ne_nil

/-- Nothing of a payload has come yet. -/
theorem Receiver.Keeps.not_rcvingPayload {r : Receiver} {held : Bytes} (h : r.Keeps held)
    (hle : held.length ≤ headerSize) : r.rcvState ≠ .rcvingPayload := by
  cases h.inner with
  | idle state => simp [state]
  | header state ne_nil lt filled => simp [state]
  | start state all header valid => simp [state]
  | payload state all header valid ne_nil lt buffer filled =>
    have := List.length_pos_iff.mpr ne_nil
    rw [List.length_append] at hle
    omega

/-- How many bytes the next `read` asks for. -/
def wanted (held : Bytes) : ℕ :=
  if held.length < headerSize then headerSize - held.length
  else headerSize + (headerOf held).len - held.length

theorem wanted_of_lt {held : Bytes} (h : held.length < headerSize) : wanted held = headerSize - held.length :=
  if_pos h

theorem wanted_payload {hdr : Bytes} (hall : hdr.length = headerSize) (part : Bytes) :
    wanted (hdr ++ part) = (headerOf hdr).len - part.length := by
  rw [wanted, if_neg (by rw [List.length_append]; omega), headerOf_append hall, List.length_append]
  omega

/-- What a round does with the result of `read`. -/
inductive RoundGives (brk connected : Bool) (state : NetWorkerState) (held : Bytes) : ReadResult → RecvStep → Prop
  | closed {s : RecvStep} (rc : s.rc = false) (notice : s.notice = some .peerClosed)
      (kept : s.receiver.rcvState = state) :
      RoundGives brk connected state held .closed s
  | error {e : String} {s : RecvStep} (rc : s.rc = false) (notice : s.notice = some (.broken (some e)))
      (kept : s.receiver.rcvState = state) :
      RoundGives brk connected state held (.error e) s
  | again {s : RecvStep} (rc : s.rc = true) (interrupt : s.interrupt = true) (notice : s.notice = none)
      (same : s.receiver.connected = connected) (keeps : s.receiver.Keeps held) :
      RoundGives brk connected state held .again s
  | rejects {bs : Bytes} {s : RecvStep} (all : (held ++ bs).length = headerSize)
      (invalid : ¬ (headerOf (held ++ bs)).Valid) (rc : s.rc = false) (notice : s.notice = some (.broken none))
      (kept : s.receiver.rcvState = state) :
      RoundGives brk connected state held (.data bs) s
  | reads {bs : Bytes} {s : RecvStep} (rc : s.rc = true) (notice : s.notice = none)
      (interrupt : s.interrupt = decide (bs.length < wanted held))
      (unfinished : bs.length < wanted held ∨ (held ++ bs).length = headerSize)
      (same : s.receiver.connected = connected) (keeps : s.receiver.Keeps (held ++ bs)) :
      RoundGives brk connected state held (.data bs) s
  | completes {hdr payload bs : Bytes} {rm : RcvMessage} {s : RecvStep} (bytes : held ++ bs = hdr ++ payload)
      (all : hdr.length = headerSize) (valid : (headerOf hdr).Valid)
      (length : payload.length = (headerOf hdr).len) (header : rm.header = headerOf hdr)
      (content : rm.payload = payload) (wellFormed : rm.WellFormed) (rc : s.rc = true)
      (interrupt : s.interrupt = brk)
      (notice : s.notice = some (if connected then .message rm else .handshake rm))
      (forgotten : s.receiver.payloadBuffer = none) (same : s.receiver.connected = connected) (keeps : s.receiver.Keeps []) :
      RoundGives brk connected state held (.data bs) s

section
variable {r : Receiver} {held wire : Bytes} {ev : IoEvent}

theorem header_gives (brk : Bool) (hfilled : r.headerBuffer.Filled headerSize held)
    (hlt : held.length < headerSize)
    (hstate : if held = [] then r.rcvState = .startToRcvHeader else r.rcvState = .rcvingHeader)
    (wire' : Bytes) {n : ReadResult} (hn : ∀ bs, n = .data bs → bs ≠ [] ∧ bs.length ≤ wanted held) :
    (processAfterRcvHeader r held.length wire' n).wire = wire' ∧
      RoundGives brk r.connected r.rcvState held n (processAfterRcvHeader r held.length wire' n) := by
  have hkeeps : r.Keeps held := by
    refine ⟨hfilled.length, ?_⟩
    split_ifs at hstate with hheld
    · rw [hheld]
      exact .idle hstate
    · exact .header hstate hheld hlt hfilled
  cases n with
  | closed => exact ⟨rfl, .closed rfl rfl rfl⟩
  | again => exact ⟨rfl, .again rfl rfl rfl rfl hkeeps⟩
  | error e => exact ⟨rfl, .error rfl rfl rfl⟩
  | data bs =>
    obtain ⟨hbs, hle⟩ := hn bs rfl
    rw [wanted_of_lt hlt] at hle
    have hfilled' := hfilled.append hbs (by omega)
    have hne : held ++ bs ≠ [] := by simp [hbs]
    simp only [processAfterRcvHeader, parseHeader, hfilled'.availableLength, Buffer.totalLength,
      hfilled'.length]
    by_cases hall : (held ++ bs).length = headerSize
    · have hwhole : ¬ bs.length < wanted held := by
        rw [wanted_of_lt hlt]
        rw [List.length_append] at hall
        omega
      rw [if_pos (by exact_mod_cast hall), decodeMsgHeader_filled hfilled' hall]
      by_cases hvalid : (headerOf (held ++ bs)).Valid
      · rw [if_pos hvalid]
        exact ⟨rfl, .reads rfl rfl (by simp [hwhole]) (.inr hall) rfl
          ⟨hfilled'.length, .start rfl hall rfl hvalid⟩⟩
      · rw [if_neg hvalid]
        exact ⟨rfl, .rejects hall hvalid rfl rfl rfl⟩
    · have hshort : bs.length < wanted held := by
        rw [wanted_of_lt hlt]
        rw [List.length_append] at hall
        omega
      rw [if_neg (by exact_mod_cast hall)]
      refine ⟨rfl, .reads rfl rfl (by simp [hshort]) (.inl hshort) rfl
        ⟨hfilled'.length, .header rfl hne ?_ hfilled'⟩⟩
      rw [List.length_append] at hall ⊢
      omega

theorem payload_gives (brk : Bool) {hdr part : Bytes} (hlen : r.headerBuffer.data.length = headerSize)
    (hall : hdr.length = headerSize) (hheader : r.header = headerOf hdr) (hvalid : (headerOf hdr).Valid)
    {b : Buffer} (hfilled : b.Filled (headerOf hdr).len part) (hlt : part.length < (headerOf hdr).len)
    (hstate : if part = [] then r.rcvState = .startToRcvPayload else r.rcvState = .rcvingPayload)
    (wire' : Bytes) {n : ReadResult} (hn : ∀ bs, n = .data bs → bs ≠ [] ∧ bs.length ≤ wanted (hdr ++ part)) :
    (processAfterRcvPayload brk r b part.length wire' n).wire = wire' ∧
      RoundGives brk r.connected r.rcvState (hdr ++ part) n (processAfterRcvPayload brk r b part.length wire' n) := by
  cases n with
  | closed => exact ⟨rfl, .closed rfl rfl rfl⟩
  | error e => exact ⟨rfl, .error rfl rfl rfl⟩
  | again =>
    refine ⟨rfl, .again rfl rfl rfl rfl ⟨hlen, ?_⟩⟩
    split_ifs at hstate with hpart
    · rw [hpart, List.append_nil]
      exact .start hstate hall hheader hvalid
    · exact .payload hstate hall hheader hvalid hpart hlt rfl hfilled
  | data bs =>
    obtain ⟨hbs, hle⟩ := hn bs rfl
    rw [wanted_payload hall] at hle
    have hfilled' := hfilled.append hbs (by omega)
    have hne : part ++ bs ≠ [] := by simp [hbs]
    simp only [processAfterRcvPayload, checkPayload, hfilled'.availableLength, hheader]
    by_cases hwhole : (part ++ bs).length = (headerOf hdr).len
    · rw [if_pos (by exact_mod_cast hwhole)]
      have hpayload : (RcvMessage.mk (headerOf hdr)
          (((b.store part.length bs).checkAndInitPos).moveTailBack bs.length)).payload = part ++ bs :=
        hfilled'.content hne
      refine ⟨rfl, .completes (List.append_assoc _ _ _) hall hvalid hwhole rfl hpayload ⟨?_, ?_⟩ rfl rfl rfl rfl
        rfl ⟨hlen, .idle rfl⟩⟩
      · rwa [hpayload]
      · rw [hpayload]
        exact hfilled'
    · have hshort : bs.length < wanted (hdr ++ part) := by
        rw [wanted_payload hall]
        rw [List.length_append] at hwhole
        omega
      rw [if_neg (by exact_mod_cast hwhole)]
      refine ⟨rfl, .reads rfl rfl (by simp [hshort]) (.inl hshort) rfl ⟨hlen, ?_⟩⟩
      rw [List.append_assoc]
      refine .payload rfl hall rfl hvalid hne ?_ rfl hfilled'
      rw [List.length_append] at hwhole ⊢
      omega

theorem socketRead_data {wire : Bytes} {n : ℕ} (ev : IoEvent) {bs wire' : Bytes}
    (h : socketRead wire n ev = (.data bs, wire')) :
    bs ≠ [] ∧ bs.length ≤ n ∧ wire = bs ++ wire' := by
  cases ev with
  | again => cases h
  | closed => cases h
  | error _ => cases h
  | take k =>
    rw [socketRead] at h
    by_cases hn : n = 0
    · rw [if_pos hn] at h
      cases h
    by_cases hw : wire = []
    · rw [if_neg hn, if_pos hw] at h
      cases h
    rw [if_neg hn, if_neg hw] at h
    cases h
    have hpos : 0 < wire.length := List.length_pos_iff.mpr hw
    refine ⟨List.ne_nil_of_length_pos ?_, ?_, (List.take_append_drop _ _).symm⟩
    · rw [List.length_take]
      omega
    · rw [List.length_take]
      omega

theorem recvIter_gives (brk : Bool) (h : r.Keeps held) (hwant : 0 < wanted held) (wire : Bytes) (ev : IoEvent) :
    ∃ s, recvIter brk r wire ev = some s ∧ s.wire = (socketRead wire (wanted held) ev).2 ∧
      RoundGives brk r.connected r.rcvState held (socketRead wire (wanted held) ev).1 s := by
  have hn : ∀ bs, (socketRead wire (wanted held) ev).1 = .data bs → bs ≠ [] ∧ bs.length ≤ wanted held := by
    intro bs hbs
    obtain ⟨hne, hle, -⟩ := socketRead_data ev (Prod.ext hbs rfl)
    exact ⟨hne, hle⟩
  obtain ⟨hlen, hinner⟩ := h
  unfold recvIter
  cases hinner with
  | idle state =>
    have hfilled := Buffer.filled_bZero r.headerBuffer
    rw [hlen] at hfilled
    have htotal : r.headerBuffer.bZero.totalLength.toNat = wanted [] := by
      rw [Buffer.totalLength, hfilled.length, Int.toNat_natCast]
      rfl
    simp only [state, htotal]
    exact ⟨_, rfl, header_gives brk (r := ⟨r.headerBuffer.bZero, .startToRcvHeader, r.header, r.payloadBuffer,
      r.connected⟩) hfilled (by decide) rfl _ hn⟩
  | header state ne_nil lt filled =>
    have hunused : r.headerBuffer.unusedSize = wanted held := by
      rw [filled.unusedSize ne_nil (by decide), wanted_of_lt lt]
    have hgives := header_gives brk filled lt (by rw [if_neg ne_nil, state])
      (socketRead wire (wanted held) ev).2 hn
    rw [state] at hgives
    simp only [state, hunused, filled.tail]
    exact ⟨_, rfl, hgives⟩
  | start state all header valid =>
    have hwanted : wanted held = (headerOf held).len := by
      have := wanted_payload all []
      rwa [List.append_nil] at this
    have hfilled := Buffer.filled_new (headerOf held).len
    have htotal : (Buffer.new (headerOf held).len).totalLength.toNat = wanted held := by
      rw [Buffer.totalLength, hfilled.length, Int.toNat_natCast, hwanted]
    simp only [state, header, htotal]
    have hgives := payload_gives brk hlen all header valid hfilled (by simpa [hwanted] using hwant)
      (by rw [if_pos rfl, state]) (socketRead wire (wanted held) ev).2 (by rwa [List.append_nil])
    rw [List.append_nil, state] at hgives
    exact ⟨_, rfl, hgives⟩
  | @payload hdr part b state all header valid ne_nil lt buffer filled =>
    have hsize : (headerOf hdr).len < 2 ^ 64 := lt_of_le_of_lt valid.2 (by decide)
    have hunused : b.unusedSize = wanted (hdr ++ part) := by
      rw [filled.unusedSize ne_nil hsize, wanted_payload all]
    have hgives := payload_gives brk hlen all header valid filled lt (by rw [if_neg ne_nil, state])
      (socketRead wire (wanted (hdr ++ part)) ev).2 hn
    rw [state] at hgives
    simp only [state, buffer, hunused, filled.tail]
    exact ⟨_, rfl, hgives⟩

end

end FlyingKV.Net
