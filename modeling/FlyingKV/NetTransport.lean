import FlyingKV.EventRun
import FlyingKV.NetReceive

set_option autoImplicit false

/-!
# A connection: one worker sends, the other receives

The receiver is described by the messages still to come and by the bytes of the first of
them that it has already; how the stream was cut into reads does not show. The sender is
described by the bytes that it still has to write.
-/
namespace FlyingKV.Net
open ByteOrder EventRun

/-- The messages one after the other. -/
def stream (ms : List SndMessage) : Bytes := (ms.map SndMessage.bytes).flatten

@[simp] theorem stream_nil : stream [] = [] := rfl

@[simp] theorem stream_cons (m : SndMessage) (ms : List SndMessage) :
    stream (m :: ms) = m.bytes ++ stream ms := rfl

@[simp] theorem stream_append (ms ns : List SndMessage) : stream (ms ++ ns) = stream ms ++ stream ns := by
  simp [stream]

/-- The socket is up: bytes go through or not, but nothing else happens. -/
def IoEvent.Up : IoEvent → Prop
  | .take _ => True
  | .again => True
  | .closed => False
  | .error _ => False

instance : (ev : IoEvent) → Decidable ev.Up
  | .take _ => isTrue trivial
  | .again => isTrue trivial
  | .closed => isFalse not_false
  | .error _ => isFalse not_false

/-! ## The receiver -/

/-- The receiver has the bytes `rest` of the message `m`, at least one and not all. -/
inductive Receiver.Inside (r : Receiver) (m : SndMessage) : Bytes → Prop
  | header {rest : Bytes} (state : r.rcvState = .rcvingHeader) (ne_nil : rest ≠ [])
      (lt : rest.length < headerSize) (filled : r.headerBuffer.Filled headerSize rest) :
      Inside r m rest
  | start (state : r.rcvState = .startToRcvPayload) (header : r.header = m.header) :
      Inside r m m.headerBytes
  | payload {part : Bytes} {b : Buffer} (state : r.rcvState = .rcvingPayload)
      (header : r.header = m.header) (ne_nil : part ≠ []) (lt : part.length < m.payload.length)
      (buffer : r.payloadBuffer = some b) (filled : b.Filled m.payload.length part) :
      Inside r m (m.headerBytes ++ part)

/-- The receiver expects the messages `ms` and has the bytes `rest` of the first. -/
structure Receiver.Expects (r : Receiver) (ms : List SndMessage) (rest : Bytes) : Prop where
  connected : r.connected = true
  headerLength : r.headerBuffer.data.length = headerSize
  progress : (r.rcvState = .startToRcvHeader ∧ rest = []) ∨
    ∃ m ms', ms = m :: ms' ∧ r.Inside m rest

theorem Receiver.Inside.length_lt {r : Receiver} {m : SndMessage} {rest : Bytes}
    (h : r.Inside m rest) (hm : m.Sendable) : rest.length < m.bytes.length := by
  have hpos := hm.pos
  rw [m.length_bytes]
  cases h with
  | header _ _ lt _ => omega
  | start _ _ =>
    rw [m.length_headerBytes]
    omega
  | payload _ _ _ lt _ _ =>
    rw [List.length_append, m.length_headerBytes]
    omega

/-- What one round of `Recv` does: no bytes came; or some, and the message is not complete; or the
rest of the message. -/
inductive RoundEnds (brk : Bool) (ms : List SndMessage) (rest wire : Bytes) (s : RecvStep) : Prop
  | waits (rc : s.rc = true) (interrupt : s.interrupt = true) (notice : s.notice = none)
      (wire_eq : s.wire = wire) (expects : s.receiver.Expects ms rest)
  | reads {bs : Bytes} (rc : s.rc = true) (notice : s.notice = none) (wire_eq : wire = bs ++ s.wire)
      (expects : s.receiver.Expects ms (rest ++ bs))
  | completes {bs : Bytes} {m : SndMessage} {ms' : List SndMessage} {rm : RcvMessage} (rc : s.rc = true)
      (interrupt : s.interrupt = brk) (notice : s.notice = some (.message rm))
      (header : rm.header = m.header) (payload : rm.payload = m.payload) (wellFormed : rm.WellFormed)
      (messages : ms = m :: ms') (bytes : rest ++ bs = m.bytes) (wire_eq : wire = bs ++ s.wire)
      (expects : s.receiver.Expects ms' [])

section
variable {r : Receiver} {m : SndMessage} {ms : List SndMessage} {rest wire later : Bytes} {ev : IoEvent}

theorem socketRead_up (hev : ev.Up) {nbytes : ℕ} (hn : 0 < nbytes) (wire : Bytes) :
    socketRead wire nbytes ev = (.again, wire) ∨
      ∃ bs wire', bs ≠ [] ∧ bs.length ≤ nbytes ∧ wire = bs ++ wire' ∧
        socketRead wire nbytes ev = (.data bs, wire') := by
  cases ev with
  | again => exact .inl rfl
  | closed => exact hev.elim
  | error _ => exact hev.elim
  | take k =>
    by_cases hw : wire = []
    · exact .inl (by simp [socketRead, hw, hn.ne'])
    · have hread : socketRead wire nbytes (.take k) =
          (.data (wire.take (min (k + 1) nbytes)), wire.drop (min (k + 1) nbytes)) := by
        rw [socketRead, if_neg hn.ne', if_neg hw]
      obtain ⟨hne, hle, hsplit⟩ := socketRead_data _ hread
      exact .inr ⟨_, _, hne, hle, hsplit, hread⟩

theorem take_of_stream {bs wire' tail : Bytes} (hm : rest ++ wire ++ later = m.bytes ++ tail)
    (hw : wire = bs ++ wire') (hle : rest.length + bs.length ≤ m.bytes.length) : rest ++ bs <+: m.bytes := by
  subst hw
  have h : rest ++ bs <+: m.bytes ++ tail := by
    rw [← hm]
    exact ⟨wire' ++ later, by simp⟩
  exact List.prefix_of_prefix_length_le h (List.prefix_append _ _) (by rw [List.length_append]; exact hle)

theorem eq_headerBytes {hdr : Bytes} (hpre : hdr <+: m.bytes) (hall : hdr.length = headerSize) :
    hdr = m.headerBytes := by
  have hlen : hdr.length = m.headerBytes.length := by rw [hall, m.length_headerBytes]
  exact (List.prefix_of_prefix_length_le hpre (List.prefix_append _ _) hlen.le).eq_of_length hlen

/-- Where bytes have been or will be read, there is a message. -/
theorem exists_cons_of_stream (hstream : rest ++ wire ++ later = stream ms)
    (hne : rest ++ wire ≠ []) : ∃ m ms', ms = m :: ms' := by
  cases ms with
  | nil =>
    rw [stream_nil, List.append_eq_nil_iff] at hstream
    exact absurd hstream.1 hne
  | cons m ms' => exact ⟨m, ms', rfl⟩

/-! ### Bytes of a message and bytes of a frame -/

theorem SndMessage.Sendable.valid (hm : m.Sendable) : (Net.headerOf m.headerBytes).Valid := by
  rw [hm.headerOf]
  exact ⟨rfl, hm.le⟩

theorem SndMessage.Sendable.len_eq (hm : m.Sendable) : (Net.headerOf m.headerBytes).len = m.payload.length := by
  rw [hm.headerOf]
  rfl

theorem Receiver.Inside.inner (h : r.Inside m rest) (hm : m.Sendable) : r.Inner rest := by
  have hall := m.length_headerBytes
  cases h with
  | header state ne_nil lt filled => exact .header state ne_nil lt filled
  | start state header => exact .start state hall (header.trans hm.headerOf.symm) hm.valid
  | payload state header ne_nil lt buffer filled =>
    rw [← hm.len_eq] at lt filled
    exact .payload state hall (header.trans hm.headerOf.symm) hm.valid ne_nil lt buffer filled

theorem Receiver.Expects.keeps (h : r.Expects ms rest) (hms : ∀ m ∈ ms, m.Sendable) : r.Keeps rest := by
  obtain ⟨-, hlen, ⟨hstate, rfl⟩ | ⟨m, ms', rfl, hinside⟩⟩ := h
  · exact ⟨hlen, .idle hstate⟩
  · exact ⟨hlen, hinside.inner (hms m List.mem_cons_self)⟩

theorem Receiver.Keeps.expects (h : r.Keeps rest) (hconn : r.connected = true) (hm : m.Sendable)
    (hpre : rest <+: m.bytes) : r.Expects (m :: ms) rest := by
  refine ⟨hconn, h.headerLength, ?_⟩
  cases h.inner with
  | idle state => exact .inl ⟨state, rfl⟩
  | header state ne_nil lt filled => exact .inr ⟨m, ms, rfl, .header state ne_nil lt filled⟩
  | start state all header valid =>
    obtain rfl := eq_headerBytes hpre all
    exact .inr ⟨m, ms, rfl, .start state (header.trans hm.headerOf)⟩
  | @payload hdr part b state all header valid ne_nil lt buffer filled =>
    obtain rfl := eq_headerBytes ((List.prefix_append hdr part).trans hpre) all
    rw [hm.len_eq] at lt filled
    exact .inr ⟨m, ms, rfl, .payload state (header.trans hm.headerOf) ne_nil lt buffer filled⟩

/-- A `read` asks for at least one byte, and for none behind the message. -/
theorem Receiver.Expects.wanted_le (h : r.Expects ms rest) (hms : ∀ m ∈ ms, m.Sendable) :
    0 < wanted rest ∧ ∀ m ∈ ms.head?, rest.length + wanted rest ≤ m.bytes.length := by
  obtain ⟨-, -, ⟨-, rfl⟩ | ⟨m, ms', rfl, hinside⟩⟩ := h
  · refine ⟨by decide, fun m _ => ?_⟩
    rw [m.length_bytes]
    exact Nat.le_add_right headerSize _
  · have hm := hms m List.mem_cons_self
    have hpos := hm.pos
    have hwant : 0 < wanted rest ∧ rest.length + wanted rest ≤ m.bytes.length := by
      rw [m.length_bytes]
      cases hinside with
      | header state ne_nil lt filled =>
        rw [wanted_of_lt lt]
        omega
      | start state header =>
        have hwanted := wanted_payload m.length_headerBytes []
        rw [List.append_nil, hm.len_eq, List.length_nil, Nat.sub_zero] at hwanted
        rw [hwanted, m.length_headerBytes]
        omega
      | payload state header ne_nil lt buffer filled =>
        rw [wanted_payload m.length_headerBytes, hm.len_eq, List.length_append, m.length_headerBytes]
        omega
    refine ⟨hwant.1, fun m' hm' => ?_⟩
    cases hm'
    exact hwant.2

theorem recvIter_ends (brk : Bool) (hev : ev.Up) (hms : ∀ m ∈ ms, m.Sendable)
    (h : r.Expects ms rest) (hstream : rest ++ wire ++ later = stream ms) :
    ∃ s, recvIter brk r wire ev = some s ∧ RoundEnds brk ms rest wire s := by
  obtain ⟨hwant, hbound⟩ := h.wanted_le hms
  obtain ⟨s, hs, hwire, hgives⟩ := recvIter_gives brk (h.keeps hms) hwant wire ev
  refine ⟨s, hs, ?_⟩
  rcases socketRead_up hev hwant wire with hread | ⟨bs, wire', hbs, hle, hsplit, hread⟩
  · rw [hread] at hwire hgives
    cases hgives with
    | again rc interrupt notice same keeps =>
      refine .waits rc interrupt notice hwire ?_
      obtain ⟨hconn, -, ⟨-, rfl⟩ | ⟨m, ms', rfl, hinside⟩⟩ := h
      · exact ⟨same.trans hconn, keeps.headerLength, .inl ⟨keeps.state_nil, rfl⟩⟩
      · have hm := hms m List.mem_cons_self
        have hpre := take_of_stream (by rw [hstream, stream_cons]) (List.nil_append wire).symm
          (hinside.length_lt hm).le
        rw [List.append_nil] at hpre
        exact keeps.expects (same.trans hconn) hm hpre
  · obtain ⟨m, ms', rfl⟩ := exists_cons_of_stream hstream (by simp [hsplit, hbs])
    have hm : m.Sendable := hms m List.mem_cons_self
    have hlast := hbound m rfl
    have hpre : rest ++ bs <+: m.bytes := take_of_stream (by rw [hstream, stream_cons]) hsplit (by omega)
    rw [hread] at hwire hgives
    have hwire : wire = bs ++ s.wire := by rw [hwire, hsplit]
    cases hgives with
    | rejects all invalid rc notice kept =>
      rw [eq_headerBytes hpre all] at invalid
      exact absurd hm.valid invalid
    | reads rc notice interrupt unfinished same keeps =>
      exact .reads rc notice hwire (keeps.expects (same.trans h.connected) hm hpre)
    | @completes hdr payload _ rm _ bytes all valid length header content wellFormed rc interrupt notice forgotten
        same keeps =>
      obtain rfl := eq_headerBytes ((List.prefix_append hdr payload).trans (bytes ▸ hpre)) all
      rw [hm.len_eq] at length
      have hwhole : rest ++ bs = m.bytes :=
        hpre.eq_of_length (by rw [bytes, List.length_append, length, m.length_headerBytes, m.length_bytes])
      have hpayload : payload = m.payload := List.append_cancel_left (bytes.symm.trans hwhole)
      rw [h.connected, if_pos rfl] at notice
      exact .completes rc interrupt notice (header.trans hm.headerOf) (content.trans hpayload) wellFormed rfl hwhole
        hwire ⟨same.trans h.connected, keeps.headerLength, .inl ⟨keeps.state_nil, rfl⟩⟩

/-! ### A whole call of `Recv` -/

/-- A message handed over, and how many bytes had been read by then. -/
structure Delivery where
  id : ℕ
  payload : Bytes
  bytesRead : ℕ
deriving DecidableEq, Repr

/-- `written` is the number of bytes that were ever written to the socket. -/
def delivery (written : ℕ) : Notice × ℕ → Option Delivery
  | (.message rm, unread) => some ⟨rm.header.id, rm.payload, written - unread⟩
  | _ => none

/-- Each message once and in order, just when its last byte has been read; `n` bytes were read
before the first. -/
def deliveries : ℕ → List SndMessage → List Delivery
  | _, [] => []
  | n, m :: ms => ⟨m.id, m.payload, n + m.bytes.length⟩ :: deliveries (n + m.bytes.length) ms

theorem deliveries_append (n : ℕ) (ms ns : List SndMessage) :
    deliveries n (ms ++ ns) = deliveries n ms ++ deliveries (n + (stream ms).length) ns := by
  induction ms generalizing n with
  | nil => rfl
  | cons m ms ih => simp [deliveries, ih, Nat.add_assoc]

/-- A message, with all of its payload in the buffer. -/
def Notice.IsMessage : Notice → Prop
  | .message rm => rm.WellFormed
  | _ => False

/-- Reading from the state (`ms`, `rest`, `wire`) led to the state (`ms'`, `rest'`, `wire'`), and
the messages between were announced. -/
structure Received (ms : List SndMessage) (rest wire : Bytes) (ms' : List SndMessage) (rest' : Bytes)
    (wire' : Bytes) (notices : List (Notice × ℕ)) : Prop where
  messages : ∀ x ∈ notices, x.1.IsMessage
  announced : ∃ ds, ms = ds ++ ms' ∧ rest ++ wire = stream ds ++ rest' ++ wire' ∧
    ∀ n, notices.filterMap (delivery (n + (rest ++ wire).length)) = deliveries n ds

theorem received_refl (ms : List SndMessage) (rest wire : Bytes) : Received ms rest wire ms rest wire [] :=
  ⟨by simp, [], rfl, rfl, fun _ => rfl⟩

theorem Received.trans {ms₁ ms₂ ms₃ : List SndMessage} {rest₁ rest₂ rest₃ wire₁ wire₂ wire₃ : Bytes}
    {n₁ n₂ : List (Notice × ℕ)} (h₁ : Received ms₁ rest₁ wire₁ ms₂ rest₂ wire₂ n₁)
    (h₂ : Received ms₂ rest₂ wire₂ ms₃ rest₃ wire₃ n₂) :
    Received ms₁ rest₁ wire₁ ms₃ rest₃ wire₃ (n₁ ++ n₂) := by
  obtain ⟨hm₁, ds₁, rfl, hb₁, ha₁⟩ := h₁
  obtain ⟨hm₂, ds₂, rfl, hb₂, ha₂⟩ := h₂
  refine ⟨fun x hx => ?_, ds₁ ++ ds₂, by simp, ?_, fun n => ?_⟩
  · exact (List.mem_append.mp hx).elim (hm₁ x) (hm₂ x)
  · rw [hb₁, List.append_assoc, hb₂, stream_append]
    simp
  · have hsum : n + (rest₁ ++ wire₁).length =
        n + (stream ds₁).length + (rest₂ ++ wire₂).length := by
      rw [hb₁, List.append_assoc, List.length_append, Nat.add_assoc]
    rw [List.filterMap_append, ha₁, hsum, ha₂, deliveries_append]

theorem RoundEnds.received {brk : Bool} {s : RecvStep} (h : RoundEnds brk ms rest wire s) :
    s.rc = true ∧ ∃ ms' rest', s.receiver.Expects ms' rest' ∧
      Received ms rest wire ms' rest' s.wire (s.notice.toList.map (·, s.wire.length)) := by
  cases h with
  | waits rc interrupt notice wire_eq expects =>
    rw [notice, wire_eq]
    exact ⟨rc, ms, rest, expects, received_refl ms rest wire⟩
  | @reads bs rc notice wire_eq expects =>
    rw [notice]
    refine ⟨rc, ms, rest ++ bs, expects, by simp, [], rfl, ?_, fun _ => rfl⟩
    rw [wire_eq]
    simp
  | @completes bs m ms' rm rc interrupt notice header payload wellFormed messages bytes wire_eq expects =>
    rw [notice]
    have hall : rest ++ wire = m.bytes ++ s.wire := by rw [wire_eq, ← List.append_assoc, bytes]
    refine ⟨rc, ms', [], expects, ?_, [m], messages, by simpa [stream] using hall, fun n => ?_⟩
    · simpa [Notice.IsMessage] using wellFormed
    · simp only [Option.toList_some, List.map_cons, List.map_nil, List.filterMap_cons, delivery,
        List.filterMap_nil, deliveries, header, SndMessage.header, payload, hall, List.length_append,
        List.cons.injEq, Delivery.mk.injEq, and_true, true_and]
      omega

/-- However the bytes come in, a call of `Recv` announces exactly the messages that have become
complete, and is ready to go on. -/
theorem recv_received (brk : Bool) (evs : List IoEvent) (hevs : ∀ ev ∈ evs, ev.Up)
    (hms : ∀ m ∈ ms, m.Sendable) (h : r.Expects ms rest) (hstream : rest ++ wire ++ later = stream ms) :
    ∃ o, recv brk evs r wire = some o ∧ o.rc = true ∧ ∃ ms' rest', o.receiver.Expects ms' rest' ∧
      Received ms rest wire ms' rest' o.wire o.notices := by
  induction evs generalizing r ms rest wire with
  | nil =>
    obtain ⟨s, hs, hround⟩ := recvIter_ends brk (show IoEvent.again.Up from trivial) hms h hstream
    refine ⟨_, by rw [recv, hs]; rfl, hround.received⟩
  | cons ev evs ih =>
    obtain ⟨s, hs, hround⟩ := recvIter_ends brk (hevs ev List.mem_cons_self) hms h hstream
    obtain ⟨hrc, ms', rest', hexpects, hreceived⟩ := hround.received
    rw [recv, hs]
    simp only
    split_ifs with hgo
    · have hstream' : rest' ++ s.wire ++ later = stream ms' := by
        obtain ⟨-, ds, rfl, hb, -⟩ := hreceived
        rw [hb, stream_append] at hstream
        simpa using hstream
      have hms' : ∀ m ∈ ms', m.Sendable := by
        obtain ⟨-, ds, rfl, -, -⟩ := hreceived
        exact fun m hm => hms m (List.mem_append_right _ hm)
      obtain ⟨o, ho, horc, ms'', rest'', hexpects', hreceived'⟩ :=
        ih (fun ev hev => hevs ev (List.mem_cons_of_mem _ hev)) hms' hexpects hstream'
      rw [ho]
      exact ⟨_, rfl, horc, ms'', rest'', hexpects', hreceived.trans hreceived'⟩
    · exact ⟨_, rfl, hrc, ms', rest', hexpects, hreceived⟩

end

/-! ## The sender -/

/-- What the sender still has to write is `todo`. -/
structure Sender.Holds (s : Sender) (todo : Bytes) : Prop where
  sendable : ∀ m ∈ s.messages, m.Sendable
  buffer : (s.sendingBuffer = none ∧ todo = stream s.messages) ∨
    ∃ b part, s.sendingBuffer = some b ∧ b.Unsent part ∧ todo = part ++ stream s.messages

section
variable {s : Sender} {todo : Bytes}

theorem Sender.Holds.load (h : s.Holds todo) :
    (s.load = .idle ∧ todo = []) ∨ ∃ s' b part, s.load = .ready s' b ∧ s'.sendingBuffer = some b ∧
      b.Unsent part ∧ todo = part ++ stream s'.messages ∧ ∀ m ∈ s'.messages, m.Sendable := by
  obtain ⟨hms, ⟨hnone, rfl⟩ | ⟨b, part, hb, hunsent, rfl⟩⟩ := h
  · cases hmessages : s.messages with
    | nil => exact .inl ⟨by simp only [Sender.load, hnone, Sender.tryPop, hmessages], rfl⟩
    | cons m ms =>
      rw [hmessages] at hms
      obtain ⟨b, hencode, hunsent⟩ := (hms m List.mem_cons_self).encode
      refine .inr ⟨⟨ms, some b⟩, b, m.bytes, ?_, rfl, hunsent, rfl,
        fun m' hm' => hms m' (List.mem_cons_of_mem _ hm')⟩
      simp only [Sender.load, hnone, Sender.tryPop, hmessages, hencode]
  · refine .inr ⟨s, b, part, ?_, hb, hunsent, rfl, hms⟩
    have hpos : 0 < b.availableLength := by
      rw [hunsent.availableLength]
      exact_mod_cast List.length_pos_iff.mpr hunsent.ne_nil
    simp only [Sender.load, hb, if_pos hpos]

/-- Whatever part of its bytes each `write` takes, `Send` writes the next bytes of the stream and
keeps the rest. -/
theorem send_holds (evs : List IoEvent) (hevs : ∀ ev ∈ evs, ev.Up) (h : s.Holds todo) (wire : Bytes) :
    (send evs s wire).ended = .returned true ∧ (send evs s wire).notices = [] ∧
      ∃ out todo', todo = out ++ todo' ∧ (send evs s wire).wire = wire ++ out ∧
        (send evs s wire).sender.Holds todo' := by
  induction evs generalizing s todo wire with
  | nil =>
    rw [send]
    rcases h.load with ⟨hload, rfl⟩ | ⟨s', b, part, hload, hb, hunsent, rfl, hms⟩
    · rw [hload]
      exact ⟨rfl, rfl, [], [], rfl, by simp, h⟩
    · rw [hload]
      exact ⟨rfl, rfl, [], _, rfl, by simp, hms, .inr ⟨b, part, hb, hunsent, rfl⟩⟩
  | cons ev evs ih =>
    rw [send]
    rcases h.load with ⟨hload, rfl⟩ | ⟨s', b, part, hload, hb, hunsent, rfl, hms⟩
    · rw [hload]
      exact ⟨rfl, rfl, [], [], rfl, by simp, h⟩
    · rw [hload]
      cases ev with
      | again => exact ⟨rfl, rfl, [], _, rfl, by simp, hms, .inr ⟨b, part, hb, hunsent, rfl⟩⟩
      | closed => exact (hevs _ List.mem_cons_self).elim
      | error _ => exact (hevs _ List.mem_cons_self).elim
      | take k =>
        have hav : b.availableLength.toNat = part.length := by
          rw [hunsent.availableLength, Int.toNat_natCast]
        have hevs' : ∀ ev ∈ evs, ev.Up := fun ev hev => hevs ev (List.mem_cons_of_mem _ hev)
        simp only [hav, hunsent.fromPos]
        by_cases hlt : min (k + 1) part.length < part.length
        · have hrest := hunsent.moveHeadBack hlt
          have hpos : ¬ (b.moveHeadBack (min (k + 1) part.length)).availableLength ≤ 0 := by
            rw [hrest.availableLength, not_le]
            exact_mod_cast List.length_pos_iff.mpr hrest.ne_nil
          rw [if_neg hpos]
          obtain ⟨hend, hnotices, out, todo', htodo, hwire, hholds⟩ := ih hevs'
            (s := ⟨s'.messages, some (b.moveHeadBack (min (k + 1) part.length))⟩)
            ⟨hms, .inr ⟨_, _, rfl, hrest, rfl⟩⟩ (wire ++ part.take (min (k + 1) part.length))
          refine ⟨hend, hnotices, part.take (min (k + 1) part.length) ++ out, todo', ?_, ?_, hholds⟩
          · rw [List.append_assoc, ← htodo, ← List.append_assoc, List.take_append_drop]
          · rw [hwire, List.append_assoc]
        · have hall : min (k + 1) part.length = part.length := by omega
          rw [hall, if_pos hunsent.moveHeadBack_all.le, List.take_length]
          obtain ⟨hend, hnotices, out, todo', htodo, hwire, hholds⟩ := ih hevs'
            (s := ⟨s'.messages, none⟩) ⟨hms, .inl ⟨rfl, rfl⟩⟩ (wire ++ part)
          refine ⟨hend, hnotices, part ++ out, todo', ?_, ?_, hholds⟩
          · rw [List.append_assoc, ← htodo]
          · rw [hwire, List.append_assoc]

end

/-! ## The connection -/

structure Link where
  sender : Sender
  receiver : Receiver
  /-- Written and not yet read. -/
  wire : Bytes
  /-- The number of bytes written so far. -/
  written : ℕ
  delivered : List Delivery
deriving DecidableEq, Repr

def Link.initial : Link := ⟨.initial, .initial, [], 0, []⟩

def Link.bytesRead (l : Link) : ℕ := l.written - l.wire.length

inductive LinkEvent where
  | queue (m : SndMessage)
  | send (evs : List IoEvent)
  | recv (evs : List IoEvent)
deriving DecidableEq, Repr

inductive LinkReply where
  | queued
  | sent (ended : SendEnd) (notices : List Notice)
  | received (rc : Bool) (notices : List Notice)
deriving DecidableEq, Repr

def linkStep (l : Link) : LinkEvent → Option (Link × LinkReply)
  | .queue m => some ({ l with sender.messages := l.sender.messages ++ [m] }, .queued)
  | .send evs =>
    let o := send evs l.sender l.wire
    some ({ l with
      sender := o.sender
      wire := o.wire
      written := l.written + (o.wire.length - l.wire.length) }, .sent o.ended o.notices)
  | .recv evs =>
    (recv false evs l.receiver l.wire).map fun o => ({ l with
      receiver := o.receiver
      wire := o.wire
      delivered := l.delivered ++ o.notices.filterMap (delivery l.written) },
      .received o.rc (o.notices.map Prod.fst))

/-- The messages given to the sender. -/
def queuedMessages (es : List LinkEvent) : List SndMessage :=
  es.filterMap fun
    | .queue m => some m
    | _ => none

/-- The payload is within its limits, and the socket stays up. -/
def LinkEvent.Admissible : LinkEvent → Prop
  | .queue m => m.Sendable
  | .send evs => ∀ ev ∈ evs, ev.Up
  | .recv evs => ∀ ev ∈ evs, ev.Up

instance : (e : LinkEvent) → Decidable e.Admissible
  | .queue m => inferInstanceAs (Decidable m.Sendable)
  | .send evs => inferInstanceAs (Decidable (∀ ev ∈ evs, ev.Up))
  | .recv evs => inferInstanceAs (Decidable (∀ ev ∈ evs, ev.Up))

/-- The call succeeded, and nothing but messages was handed over. -/
def LinkReply.Fine : LinkReply → Prop
  | .queued => True
  | .sent ended notices => ended = .returned true ∧ notices = []
  | .received rc notices => rc = true ∧ ∀ n ∈ notices, n.IsMessage

/-- Exactly the messages of which all bytes have been read are delivered, in order, each of them
just when its last byte had been read. -/
def Link.Exact (l : Link) (queued : List SndMessage) : Prop :=
  ∃ k ≤ queued.length, l.delivered = deliveries 0 (queued.take k) ∧
    (stream (queued.take k)).length ≤ l.bytesRead ∧
    (k < queued.length → l.bytesRead < (stream (queued.take (k + 1))).length)

/-- The invariant: the stream of the messages is what was delivered, what the receiver has of the
next one, what is on the wire and what the sender still has. -/
structure Link.Holds (l : Link) (queued : List SndMessage) : Prop where
  sendable : ∀ m ∈ queued, m.Sendable
  parts : ∃ ds ms rest todo, queued = ds ++ ms ∧ l.delivered = deliveries 0 ds ∧
    l.receiver.Expects ms rest ∧ l.sender.Holds todo ∧ rest ++ l.wire ++ todo = stream ms ∧
    l.written = (stream ds).length + (rest ++ l.wire).length

section
variable {l : Link} {queued : List SndMessage}

theorem Receiver.Expects.snoc {r : Receiver} {ms : List SndMessage} {rest : Bytes}
    (h : r.Expects ms rest) (m : SndMessage) : r.Expects (ms ++ [m]) rest := by
  refine ⟨h.connected, h.headerLength, h.progress.imp id ?_⟩
  rintro ⟨m', ms', rfl, hinside⟩
  exact ⟨m', ms' ++ [m], rfl, hinside⟩

theorem Sender.Holds.snoc {s : Sender} {todo : Bytes} (h : s.Holds todo) {m : SndMessage}
    (hm : m.Sendable) : Sender.Holds { s with messages := s.messages ++ [m] } (todo ++ m.bytes) := by
  refine ⟨fun m' hm' => ?_, ?_⟩
  · rcases List.mem_append.mp hm' with hm' | hm'
    · exact h.sendable m' hm'
    · rwa [List.mem_singleton.mp hm']
  · rcases h.buffer with ⟨hnone, rfl⟩ | ⟨b, part, hb, hunsent, rfl⟩
    · exact .inl ⟨hnone, by simp⟩
    · exact .inr ⟨b, part, hb, hunsent, by simp⟩

theorem linkStep_holds (h : l.Holds queued) {e : LinkEvent} (he : e.Admissible) :
    ∃ l' r, linkStep l e = some (l', r) ∧ r.Fine ∧ l'.Holds (queued ++ queuedMessages [e]) := by
  obtain ⟨hsendable, ds, ms, rest, todo, rfl, hdelivered, hexpects, hholds, hstream, hwritten⟩ := h
  cases e with
  | queue m =>
    refine ⟨_, _, rfl, trivial, ?_, ds, ms ++ [m], rest, todo ++ m.bytes, by simp [queuedMessages],
      hdelivered, hexpects.snoc m, hholds.snoc he, ?_, hwritten⟩
    · intro m' hm'
      rcases List.mem_append.mp hm' with hm' | hm'
      · exact hsendable m' hm'
      · rw [List.mem_singleton.mp hm']
        exact he
    · rw [← List.append_assoc, hstream, stream_append]
      simp [stream]
  | send evs =>
    obtain ⟨hend, hnotices, out, todo', rfl, hwire, hholds'⟩ := send_holds evs he hholds l.wire
    refine ⟨_, _, rfl, ⟨hend, hnotices⟩, by simpa [queuedMessages] using hsendable, ds, ms, rest, todo',
      by simp [queuedMessages], hdelivered, hexpects, hholds', ?_, ?_⟩
    · rw [hwire, ← hstream]
      simp
    · simp only [hwire, List.length_append] at hwritten ⊢
      omega
  | recv evs =>
    obtain ⟨o, ho, hrc, ms', rest', hexpects', hmessages, ds', rfl, hbytes, hann⟩ :=
      recv_received false evs he (fun m hm => hsendable m (List.mem_append_right _ hm)) hexpects hstream
    rw [linkStep, ho]
    refine ⟨_, _, rfl, ⟨hrc, ?_⟩, by simpa [queuedMessages] using hsendable,
      ds ++ ds', ms', rest', todo, by simp [queuedMessages], ?_, hexpects', hholds, ?_, ?_⟩
    · intro n hn
      obtain ⟨x, hx, rfl⟩ := List.mem_map.mp hn
      exact hmessages x hx
    · simp only [hdelivered, hwritten, hann, deliveries_append, Nat.zero_add]
    · rw [hbytes, stream_append] at hstream
      simpa using hstream
    · simp only [hwritten, hbytes, stream_append, List.length_append]
      omega

theorem Link.Holds.exact (h : l.Holds queued) : l.Exact queued := by
  obtain ⟨hsendable, ds, ms, rest, todo, rfl, hdelivered, hexpects, -, -, hwritten⟩ := h
  have hread : l.bytesRead = (stream ds).length + rest.length := by
    rw [Link.bytesRead, hwritten, List.length_append]
    omega
  refine ⟨ds.length, by simp, by rw [List.take_left' rfl, hdelivered], ?_, fun hlt => ?_⟩
  · rw [List.take_left' rfl, hread]
    omega
  · rcases hexpects.progress with ⟨-, rfl⟩ | ⟨m, ms', rfl, hinside⟩
    · cases ms with
      | nil => simp at hlt
      | cons m ms' =>
        have hm := (hsendable m (by simp)).pos
        have htake : (ds ++ m :: ms').take (ds.length + 1) = ds ++ [m] := by simp [List.take_append]
        rw [htake, stream_append, hread]
        simp only [stream_cons, stream_nil, List.append_nil, List.length_append, m.length_bytes,
          List.length_nil]
        omega
    · have hm := hinside.length_lt (hsendable m (by simp))
      have htake : (ds ++ m :: ms').take (ds.length + 1) = ds ++ [m] := by simp [List.take_append]
      rw [htake, stream_append, hread]
      simp only [stream_cons, stream_nil, List.append_nil, List.length_append]
      omega

/-- Once the bytes of all messages have been read, all are delivered. -/
theorem Link.Exact.complete (h : l.Exact queued) (hall : l.bytesRead = (stream queued).length) :
    l.delivered = deliveries 0 queued := by
  obtain ⟨k, hk, hdelivered, -, hlt⟩ := h
  rcases hk.lt_or_eq with hk | rfl
  · have hle : (stream (queued.take (k + 1))).length ≤ (stream queued).length := by
      conv_rhs => rw [← List.take_append_drop (k + 1) queued, stream_append]
      rw [List.length_append]
      omega
    have := hlt hk
    omega
  · rwa [List.take_length] at hdelivered

end

theorem holds_initial : Link.initial.Holds [] := by
  refine ⟨by simp, [], [], [], [], rfl, rfl, ⟨rfl, by decide, .inl ⟨rfl, rfl⟩⟩,
    ⟨by simp [Link.initial, Sender.initial], .inl ⟨rfl, rfl⟩⟩, rfl, rfl⟩

/-- In every run in which the socket stays up no call fails; what is delivered is at each moment
exact; and when all bytes have been read, all messages are delivered. -/
theorem frame_transport_exact (es : List LinkEvent) (hes : ∀ e ∈ es, e.Admissible) :
    ∃ l rs, run linkStep .initial es = some (l, rs) ∧ (∀ r ∈ rs, r.Fine) ∧
      l.Exact (queuedMessages es) ∧
      (l.bytesRead = (stream (queuedMessages es)).length →
        l.delivered = deliveries 0 (queuedMessages es)) := by
  have hstep : ∀ (l : Link) (tr : List (LinkEvent × LinkReply)) (e : LinkEvent),
      (l.Holds (queuedMessages (tr.map Prod.fst)) ∧ ∀ x ∈ tr, x.2.Fine) → e.Admissible →
        ∃ l' r, linkStep l e = some (l', r) ∧
          l'.Holds (queuedMessages ((tr ++ [(e, r)]).map Prod.fst)) ∧ ∀ x ∈ tr ++ [(e, r)], x.2.Fine := by
    rintro l tr e ⟨hholds, hfine⟩ he
    obtain ⟨l', r, hs, hr, hholds'⟩ := linkStep_holds hholds he
    refine ⟨l', r, hs, by simpa [queuedMessages] using hholds', fun x hx => ?_⟩
    rcases List.mem_append.mp hx with hx | hx
    · exact hfine x hx
    · rw [List.mem_singleton.mp hx]
      exact hr
  obtain ⟨l, rs, hrun, hholds, hfine⟩ := run_total hstep [] ⟨holds_initial, by simp⟩ hes
  have hlen := length_run hrun
  rw [List.nil_append, List.map_fst_zip hlen.ge] at hholds
  refine ⟨l, rs, hrun, fun r hr => ?_, hholds.exact, hholds.exact.complete⟩
  rw [← List.map_snd_zip hlen.le] at hr
  obtain ⟨x, hx, rfl⟩ := List.mem_map.mp hr
  exact hfine x hx

/-- Two messages, cut in the header and in the payload of the first and in the header of the second. -/
def twoMessages : List LinkEvent :=
  [.queue ⟨7, [1, 2, 3]⟩, .queue ⟨9, [4]⟩, .send [.take 4, .again], .recv [.take 2], .recv [.take 40],
    .send [.take 99, .take 99], .recv [.take 99, .take 0], .recv [.again], .recv [.take 99, .take 3],
    .recv [.take 99, .take 99]]

theorem frame_transport_exact_two : ∃ l rs, run linkStep .initial twoMessages = some (l, rs) ∧
    l.delivered = [⟨7, [1, 2, 3], 19⟩, ⟨9, [4], 36⟩] := by
  obtain ⟨l, rs, hrun, -, -, hall⟩ := frame_transport_exact twoMessages (by decide)
  have hread : ∃ o ∈ run linkStep .initial twoMessages, o.1.bytesRead = 36 := by decide +kernel
  obtain ⟨o, ho, hbytes⟩ := hread
  rw [hrun, Option.mem_some_iff] at ho
  subst ho
  exact ⟨l, rs, hrun, (hall hbytes).trans (by decide)⟩

end FlyingKV.Net
