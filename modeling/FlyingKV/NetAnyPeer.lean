import FlyingKV.NetInitializeRuns

set_option autoImplicit false

/-!
# A connection to any peer

The whole life of a connection on which the other end sends what it likes: `Initialize` first, then
calls of `Recv(false)` whose messages go to `RpcServerSync::proc_msg`. The stream is a sequence of
frames up to a header that is not let through.
-/
namespace FlyingKV.Net
open ByteOrder

/-! ## After the handshake -/

/-- What calls of `Recv(false)` did; `delivered` is what `HandleMessage` got. -/
structure Reception where
  ended : RecvEnd
  receiver : Receiver
  wire : Bytes
  delivered : List RcvMessage
deriving DecidableEq, Repr

def RecvStep.messages (s : RecvStep) : List RcvMessage :=
  match s.notice with
  | some (.message rm) => [rm]
  | _ => []

/-- `Recv(false)`, with the assertion of `MemPool::Get`. -/
def recvFalse : List IoEvent → Receiver → Bytes → Reception
  | [], r, wire =>
    if r.allocFails then ⟨.asserted, r, wire, []⟩
    else match recvIter false r wire .again with
      | none => ⟨.nullBuffer, r, wire, []⟩
      | some s => ⟨.returned s.rc, s.receiver, s.wire, s.messages⟩
  | ev :: evs, r, wire =>
    if r.allocFails then ⟨.asserted, r, wire, []⟩
    else match recvIter false r wire ev with
      | none => ⟨.nullBuffer, r, wire, []⟩
      | some s =>
        if s.rc && !s.interrupt then
          { recvFalse evs s.receiver s.wire with
            delivered := s.messages ++ (recvFalse evs s.receiver s.wire).delivered }
        else ⟨.returned s.rc, s.receiver, s.wire, s.messages⟩

/-- The calls that the event loop makes, up to one that returns false. -/
def recvCalls : List (List IoEvent) → Receiver → Bytes → Reception
  | [], r, wire => ⟨.returned true, r, wire, []⟩
  | call :: calls, r, wire =>
    let o := recvFalse call r wire
    if o.ended = .returned true then
      { recvCalls calls o.receiver o.wire with
        delivered := o.delivered ++ (recvCalls calls o.receiver o.wire).delivered }
    else o

/-- `Initialize` and, if the connection comes into being, the calls behind it. -/
def serve (c : Opening) (evs : List IoEvent) (nonBlocking : Bool) (calls : List (List IoEvent)) :
    (InitEnd × Opening) × Option Reception :=
  let o := c.runInitialize evs
  (o, if o.1 = .returned true ∧ nonBlocking = true then some (recvCalls calls o.2.receiver o.2.wire) else none)

/-! ## Streams -/

/-- Some frame of the stream, counted from `i`, is shorter than it has to be, and its header is not among the
last `left` bytes. -/
inductive TooShort (least : ℕ → ℕ) (left : ℕ) : ℕ → Bytes → Prop
  | here {i : ℕ} {bs : Bytes} (all : headerSize + left ≤ bs.length) (valid : (headerOf bs).Valid)
      (short : (headerOf bs).len < least i) : TooShort least left i bs
  | later {i : ℕ} {bs : Bytes} (all : headerSize + (headerOf bs).len + left ≤ bs.length)
      (valid : (headerOf bs).Valid)
      (rest : TooShort least left (i + 1) (bs.drop (headerSize + (headerOf bs).len))) : TooShort least left i bs

/-- How many bytes of the stream are not read. -/
def unread (o : (InitEnd × Opening) × Option Reception) : ℕ := ((o.2.map Reception.wire).getD o.1.2.wire).length

/-- The server reads a field from the messages behind its handshake, the client from all. -/
def leastPayload (ct : CreatorType) (i : ℕ) : ℕ := if ct = .Server ∧ i < 2 then 1 else 2

/-- A frame as it was received. -/
structure IsFrame (f : Bytes) (rm : RcvMessage) : Prop where
  bytes : ∃ hdr, f = hdr ++ rm.payload ∧ hdr.length = headerSize ∧ rm.header = headerOf hdr
  encodable : rm.header.Encodable
  length : rm.payload.length = rm.header.len

section
variable {least : ℕ → ℕ} {left i : ℕ} {bs : Bytes}

theorem least_le_of_not_tooShort (h : ¬ TooShort least left i bs) {hdr rest : Bytes} (hbs : bs = hdr ++ rest)
    (hleft : left ≤ rest.length) (hall : hdr.length = headerSize) (hvalid : (headerOf hdr).Valid) :
    least i ≤ (headerOf hdr).len := by
  by_contra hlt
  have heq : headerOf bs = headerOf hdr := by rw [hbs, headerOf_append hall]
  exact h (.here (by rw [hbs, List.length_append]; omega) (heq ▸ hvalid) (by rw [heq]; omega))

theorem not_tooShort_rest (h : ¬ TooShort least left i bs) {hdr payload rest : Bytes}
    (hbs : bs = hdr ++ payload ++ rest) (hleft : left ≤ rest.length) (hall : hdr.length = headerSize)
    (hvalid : (headerOf hdr).Valid) (hlen : payload.length = (headerOf hdr).len) :
    ¬ TooShort least left (i + 1) rest := by
  intro hrest
  have heq : headerOf bs = headerOf hdr := by rw [hbs, List.append_assoc, headerOf_append hall]
  have hframe : (hdr ++ payload).length = headerSize + (headerOf hdr).len := by
    rw [List.length_append, hall, hlen]
  refine h (.later ?_ (heq ▸ hvalid) ?_)
  · rw [heq, hbs, List.length_append, hframe]
    omega
  · rw [heq, hbs, List.drop_left' hframe]
    exact hrest

theorem not_tooShort_of_lt (h : bs.length < headerSize + left) : ¬ TooShort least left i bs := by
  rintro (⟨all, -, -⟩ | ⟨all, -, -⟩)
  · omega
  · omega

theorem not_tooShort_bytes {m : SndMessage} (hm : m.Sendable) (hle : least i ≤ m.payload.length)
    (hrest : ¬ TooShort least left (i + 1) bs) : ¬ TooShort least left i (m.bytes ++ bs) := by
  have heq : headerOf (m.bytes ++ bs) = m.header := by
    rw [SndMessage.bytes, List.append_assoc, headerOf_append m.length_headerBytes, hm.headerOf]
  rintro (⟨-, -, short⟩ | ⟨-, -, rest⟩)
  · rw [heq] at short
    exact absurd hle (not_le.mpr short)
  · have hdrop : (m.bytes ++ bs).drop (headerSize + m.header.len) = bs := List.drop_left' m.length_bytes
    rw [heq, hdrop] at rest
    exact hrest rest

end

/-! ## What one call does -/

/-- A call of `Recv(false)` on the bytes `held ++ wire`: it does not end the process, delivers whole
frames only, and unless it returns false keeps what is left of an unfinished one. -/
structure Receives (least : ℕ → ℕ) (left i : ℕ) (held wire : Bytes) (o : Reception) : Prop where
  alive : ∃ rc, o.ended = .returned rc
  long : ∀ rm ∈ o.delivered, 2 ≤ rm.payload.length
  account : o.ended = .returned true → ∃ fs held', held ++ wire = fs.flatten ++ held' ++ o.wire ∧
    List.Forall₂ IsFrame fs o.delivered ∧ o.receiver.Keeps held' ∧ o.receiver.connected = true ∧
    ¬ TooShort least left (i + fs.length) (held' ++ o.wire)

section
variable {least : ℕ → ℕ} {left i : ℕ} {held wire : Bytes} {r : Receiver}

theorem wanted_pos (hr : r.Keeps held) (hleast : 1 ≤ least i) (h : ¬ TooShort least left i (held ++ wire))
    (hleft : left ≤ wire.length) : 0 < wanted held := by
  cases hr.inner with
  | idle state => decide
  | header state ne_nil lt filled =>
    rw [wanted_of_lt lt]
    omega
  | start state all header valid =>
    have hle := least_le_of_not_tooShort h rfl hleft all valid
    have hwanted := wanted_payload all []
    rw [List.append_nil, List.length_nil] at hwanted
    omega
  | payload state all header valid ne_nil lt buffer filled =>
    rw [wanted_payload all]
    omega

theorem socketRead_again {n : ℕ} {ev : IoEvent} (h : (socketRead wire n ev).1 = .again) :
    (socketRead wire n ev).2 = wire := by
  cases ev with
  | again => rfl
  | closed => cases h
  | error e => cases h
  | take k =>
    unfold socketRead at h ⊢
    split_ifs at h ⊢ with hn hw
    rfl

theorem receives_refl (hr : r.Keeps held) (hconn : r.connected = true) (h : ¬ TooShort least left i (held ++ wire)) :
    Receives least left i held wire ⟨.returned true, r, wire, []⟩ :=
  ⟨⟨true, rfl⟩, by simp, fun _ => ⟨[], held, rfl, .nil, hr, hconn, h⟩⟩

theorem receives_false (s : RecvStep) (hrc : s.rc = false) (hnotice : ∀ rm, s.notice ≠ some (.message rm)) :
    Receives least left i held wire ⟨.returned s.rc, s.receiver, s.wire, s.messages⟩ := by
  have hmessages : s.messages = [] := by
    unfold RecvStep.messages
    split
    · exact absurd ‹_› (hnotice _)
    · rfl
  refine ⟨⟨s.rc, rfl⟩, ?_, fun hended => ?_⟩
  · simp [hmessages]
  · rw [hrc] at hended
    cases hended

theorem round_receives (hr : r.Keeps held) (hconn : r.connected = true) (hleast : least i = 2)
    (h : ¬ TooShort least left i (held ++ wire)) (hleft : left ≤ wire.length) (ev : IoEvent) :
    ∃ s, recvIter false r wire ev = some s ∧ (left ≤ s.wire.length →
      Receives least left i held wire ⟨.returned s.rc, s.receiver, s.wire, s.messages⟩) := by
  have hwant := wanted_pos hr (by omega) h hleft
  obtain ⟨s, hs, hwire, hgives⟩ := recvIter_gives false hr hwant wire ev
  refine ⟨s, hs, fun hrest => ?_⟩
  generalize hn : (socketRead wire (wanted held) ev).1 = n at hgives
  cases hgives with
  | closed rc notice kept => exact receives_false s rc (by simp [notice])
  | error rc notice kept => exact receives_false s rc (by simp [notice])
  | rejects all invalid rc notice kept => exact receives_false s rc (by simp [notice])
  | again rc interrupt notice same keeps =>
    rw [socketRead_again hn] at hwire
    have hmessages : s.messages = [] := by rw [RecvStep.messages, notice]
    rw [rc, hwire, hmessages]
    exact receives_refl keeps (same.trans hconn) h
  | @reads bs _ rc notice interrupt unfinished same keeps =>
    obtain ⟨-, -, hsplit⟩ := socketRead_data ev (Prod.ext hn hwire.symm)
    have hmessages : s.messages = [] := by rw [RecvStep.messages, notice]
    rw [hsplit, ← List.append_assoc] at h
    refine ⟨⟨s.rc, rfl⟩, by simp [hmessages], fun _ => ⟨[], held ++ bs, ?_, ?_, keeps, same.trans hconn, h⟩⟩
    · rw [hsplit]
      simp
    · rw [hmessages]
      exact .nil
  | @completes hdr payload bs rm _ bytes all valid length header content wellFormed rc interrupt notice forgotten same keeps =>
    obtain ⟨-, -, hsplit⟩ := socketRead_data ev (Prod.ext hn hwire.symm)
    have hmessages : s.messages = [rm] := by rw [RecvStep.messages, notice, hconn]; rfl
    have hall : held ++ wire = hdr ++ payload ++ s.wire := by
      rw [hsplit, ← List.append_assoc, bytes]
    have hle := least_le_of_not_tooShort h (hall.trans (List.append_assoc _ _ _))
      (by rw [List.length_append]; omega) all valid
    have hframe : IsFrame (hdr ++ payload) rm := by
      refine ⟨⟨hdr, by rw [content], all, header⟩, ?_, by rw [content, header, length]⟩
      rw [header]
      exact ⟨valid.1, by omega, valid.2⟩
    refine ⟨⟨s.rc, rfl⟩, ?_, fun _ => ⟨[hdr ++ payload], [], ?_, ?_, keeps, same.trans hconn, ?_⟩⟩
    · intro rm' hrm'
      rw [hmessages, List.mem_singleton] at hrm'
      rw [hrm', content, length]
      omega
    · simpa using hall
    · rw [hmessages]
      exact .cons hframe .nil
    · exact not_tooShort_rest h hall hrest all valid length

theorem allocFails_false (hr : r.Keeps held) (hwant : 0 < wanted held) : r.allocFails = false := by
  rw [allocFails_eq hr, decide_eq_false hwant.ne']

theorem Receives.trans {o p : Reception} (ho : Receives least left i held wire o)
    (hrc : o.ended = .returned true)
    (hp : ∀ j held', i ≤ j → o.receiver.Keeps held' → o.receiver.connected = true →
      ¬ TooShort least left j (held' ++ o.wire) → Receives least left j held' o.wire p) :
    Receives least left i held wire { p with delivered := o.delivered ++ p.delivered } := by
  obtain ⟨fs, held', hbytes, hframes, hkeeps, hconn, hpolite⟩ := ho.account hrc
  obtain ⟨halive, hlong, haccount⟩ := hp (i + fs.length) held' (Nat.le_add_right _ _) hkeeps hconn hpolite
  refine ⟨halive, ?_, fun hended => ?_⟩
  · intro rm hrm
    rcases List.mem_append.mp hrm with hrm | hrm
    · exact ho.long rm hrm
    · exact hlong rm hrm
  · obtain ⟨fs', held'', hbytes', hframes', hkeeps', hconn', hpolite'⟩ := haccount hended
    refine ⟨fs ++ fs', held'', ?_, List.rel_append hframes hframes', hkeeps', hconn', ?_⟩
    · rw [hbytes, List.append_assoc, hbytes', List.flatten_append]
      simp only [List.append_assoc]
    · rwa [List.length_append, ← Nat.add_assoc]

/-! The stream only gets shorter. -/

theorem socketRead_length_le (n : ℕ) (ev : IoEvent) : (socketRead wire n ev).2.length ≤ wire.length := by
  cases ev with
  | take k =>
    unfold socketRead
    split_ifs
    · exact le_rfl
    · exact le_rfl
    · rw [List.length_drop]
      omega
  | _ => exact le_rfl

theorem recvIter_length_le {brk : Bool} {ev : IoEvent} {s : RecvStep} (hs : recvIter brk r wire ev = some s) :
    s.wire.length ≤ wire.length := by
  have hheader : ∀ (r : Receiver) off wire' n, (processAfterRcvHeader r off wire' n).wire = wire' := by
    intro r off wire' n
    cases n with
    | data bs =>
      simp only [processAfterRcvHeader, parseHeader]
      split
      · split <;> rfl
      · rfl
    | _ => rfl
  have hpayload : ∀ (r : Receiver) b off wire' n, (processAfterRcvPayload brk r b off wire' n).wire = wire' := by
    intro r b off wire' n
    cases n with
    | data bs =>
      simp only [processAfterRcvPayload, checkPayload]
      split_ifs <;> rfl
    | _ => rfl
  unfold recvIter at hs
  split at hs
  · cases hs
    rw [hheader]
    exact socketRead_length_le _ _
  · cases hs
    rw [hheader]
    exact socketRead_length_le _ _
  · cases hs
    rw [hpayload]
    exact socketRead_length_le _ _
  · split at hs
    · cases hs
    · cases hs
      rw [hpayload]
      exact socketRead_length_le _ _

theorem recvFalse_length_le (evs : List IoEvent) (r : Receiver) (wire : Bytes) :
    (recvFalse evs r wire).wire.length ≤ wire.length := by
  induction evs generalizing r wire with
  | nil =>
    unfold recvFalse
    split_ifs
    · exact le_rfl
    · split
      · exact le_rfl
      · exact recvIter_length_le ‹_›
  | cons ev evs ih =>
    unfold recvFalse
    split_ifs
    · exact le_rfl
    · split
      · exact le_rfl
      · split_ifs
        · exact (ih _ _).trans (recvIter_length_le ‹_›)
        · exact recvIter_length_le ‹_›

theorem recvCalls_length_le (calls : List (List IoEvent)) (r : Receiver) (wire : Bytes) :
    (recvCalls calls r wire).wire.length ≤ wire.length := by
  induction calls generalizing r wire with
  | nil => exact le_rfl
  | cons call calls ih =>
    unfold recvCalls
    dsimp only
    split_ifs
    · exact (ih _ _).trans (recvFalse_length_le call r wire)
    · exact recvFalse_length_le call r wire

theorem recvFalse_receives (evs : List IoEvent) (hr : r.Keeps held) (hconn : r.connected = true)
    (hleast : ∀ j, i ≤ j → least j = 2) (h : ¬ TooShort least left i (held ++ wire))
    (hleft : left ≤ (recvFalse evs r wire).wire.length) :
    Receives least left i held wire (recvFalse evs r wire) := by
  induction evs generalizing i held r wire with
  | nil =>
    have hle := hleft.trans (recvFalse_length_le _ _ _)
    have hwant := wanted_pos hr (by rw [hleast i le_rfl]; decide) h hle
    obtain ⟨s, hs, hround⟩ := round_receives hr hconn (hleast i le_rfl) h hle .again
    rw [recvFalse, allocFails_false hr hwant] at hleft ⊢
    simp only [Bool.false_eq_true, if_false, hs] at hleft ⊢
    exact hround hleft
  | cons ev evs ih =>
    have hle := hleft.trans (recvFalse_length_le _ _ _)
    have hwant := wanted_pos hr (by rw [hleast i le_rfl]; decide) h hle
    obtain ⟨s, hs, hround⟩ := round_receives hr hconn (hleast i le_rfl) h hle ev
    rw [recvFalse, allocFails_false hr hwant] at hleft ⊢
    simp only [Bool.false_eq_true, if_false, hs] at hleft ⊢
    split_ifs at hleft ⊢ with hmore
    · have hrc : s.rc = true := (Bool.and_eq_true_iff.mp hmore).1
      exact (hround (hleft.trans (recvFalse_length_le _ _ _))).trans (by rw [hrc])
        fun j held' hj hkeeps hconn' hpolite => ih hkeeps hconn' (fun k hk => hleast k (hj.trans hk)) hpolite hleft
    · exact hround hleft

theorem recvCalls_receives (calls : List (List IoEvent)) (hr : r.Keeps held) (hconn : r.connected = true)
    (hleast : ∀ j, i ≤ j → least j = 2) (h : ¬ TooShort least left i (held ++ wire))
    (hleft : left ≤ (recvCalls calls r wire).wire.length) :
    Receives least left i held wire (recvCalls calls r wire) := by
  induction calls generalizing i held r wire with
  | nil => exact receives_refl hr hconn h
  | cons call calls ih =>
    unfold recvCalls at hleft ⊢
    dsimp only at hleft ⊢
    split_ifs at hleft ⊢ with hrc
    · have hcall := recvFalse_receives call hr hconn hleast h (hleft.trans (recvCalls_length_le _ _ _))
      exact hcall.trans hrc fun j held' hj hkeeps hconn' hpolite =>
        ih hkeeps hconn' (fun k hk => hleast k (hj.trans hk)) hpolite hleft
    · exact recvFalse_receives call hr hconn hleast h hleft

end

/-! ## The handshake -/

theorem meetsPayload_message {hdr payload wire wire' : Bytes} {evs evs' : List IoEvent} {hdr' : Bytes}
    (h : meetsPayload hdr' evs wire = .message hdr payload evs' wire') :
    hdr = hdr' ∧ wire = payload ++ wire' := by
  unfold meetsPayload at h
  split at h
  · cases h
  · cases h
  · cases h
  · cases h
  · split_ifs at h
    cases h
    exact ⟨rfl, (List.take_append_drop _ _).symm⟩

theorem meets_message {hdr payload wire wire' : Bytes} {evs evs' : List IoEvent}
    (h : meets evs wire = .message hdr payload evs' wire') :
    wire = hdr ++ payload ++ wire' ∧ hdr.length = headerSize ∧ (headerOf hdr).Valid := by
  unfold meets at h
  split at h
  · cases h
  · cases h
  · cases h
  · cases h
  · split_ifs at h with hw hlen hvalid hzero
    obtain ⟨rfl, hsplit⟩ := meetsPayload_message h
    refine ⟨?_, by rw [List.length_take]; omega, hvalid⟩
    rw [List.append_assoc, ← hsplit, List.take_append_drop]

theorem meets_empty {wire : Bytes} {evs : List IoEvent} (h : meets evs wire = .empty) :
    ∃ hdr rest, wire = hdr ++ rest ∧ hdr.length = headerSize ∧ (headerOf hdr).Valid ∧ (headerOf hdr).len = 0 := by
  unfold meets at h
  split at h
  · cases h
  · cases h
  · cases h
  · cases h
  · split_ifs at h with hw hlen hvalid hzero
    · exact ⟨_, _, (List.take_append_drop headerSize _).symm, by rw [List.length_take]; omega, hvalid, hzero⟩
    · unfold meetsPayload at h
      split at h
      · cases h
      · cases h
      · cases h
      · cases h
      · split_ifs at h

/-- States in which `handshake` reads a status from the message. -/
def ReadsStatus (st : ConnectionState) : Prop := st = .ConnectSe ∨ st = .WaitLastACK

/-- A call of `Recv(true)` that is not cut: it does not end the process, reads statuses from long
enough messages, and if the connection is there it has taken whole frames from the stream. -/
structure Opens (least : ℕ → ℕ) (left i : ℕ) (c : Opening) (o : RecvEnd × Opening) : Prop where
  alive : o.1 ≠ .asserted ∧ o.1 ≠ .nullBuffer
  failed : o.1 = .returned false → o.2.worker = c.worker
  handled : ∃ fs ms, o.2.handled = c.handled ++ ms ∧ (∀ x ∈ ms, ReadsStatus x.1 → 2 ≤ x.2.payload.length) ∧
    (o.1 = .returned true → o.2.worker.connState = .Connected → c.wire = fs.flatten ++ o.2.wire ∧
      List.Forall₂ IsFrame fs (ms.map Prod.snd) ∧ o.2.receiver.Keeps [] ∧ o.2.receiver.connected = true ∧
      ¬ TooShort least left 2 o.2.wire)

section
variable {least : ℕ → ℕ} {left i : ℕ} {c : Opening} {evs evs' : List IoEvent} {hdr payload wire : Bytes}
  {rm : RcvMessage} {r : Receiver}

theorem wire_afterHandshake (o : RecvEnd × Opening) : (Opening.afterHandshake o).2.wire = o.2.wire := by
  obtain ⟨_ | _ | _ | _, d⟩ := o <;> rfl

theorem wire_afterRecv (o : RecvEnd × Opening) : (Opening.afterRecv o).2.wire = o.2.wire := by
  obtain ⟨(_ | _) | _ | _ | _, d⟩ := o <;> rfl

theorem handshake_length_le {recv : Opening → RecvEnd × Opening}
    (hrecv : ∀ d, (recv d).2.wire.length ≤ d.wire.length) (c : Opening) (rm : RcvMessage) :
    (Opening.afterHandshake (c.handshake recv rm)).2.wire.length ≤ c.wire.length := by
  rw [wire_afterHandshake]
  unfold Opening.handshake
  dsimp only
  split
  · rw [wire_afterRecv, ← respond_wire c rm]
    exact hrecv _
  · rw [respond_wire]

theorem recvTrue_length_le (evs : List IoEvent) (c : Opening) : (recvTrue evs c).2.wire.length ≤ c.wire.length := by
  induction evs generalizing c with
  | nil =>
    unfold recvTrue
    split_ifs <;> exact le_rfl
  | cons ev evs ih =>
    unfold recvTrue
    split_ifs
    · exact le_rfl
    · exact le_rfl
    · split
      · exact le_rfl
      · rename_i s hs
        have hle := recvIter_length_le hs
        dsimp only
        split
        · exact (handshake_length_le ih _ _).trans hle
        · split_ifs
          · exact (ih _).trans hle
          · exact hle

/-- Message `i` of the handshake comes whole and is long enough for what is read from it. -/
structure Arrives (least : ℕ → ℕ) (left i : ℕ) (c : Opening) (evs : List IoEvent) (hdr payload : Bytes)
    (evs' : List IoEvent) (wire : Bytes) (rm : RcvMessage) : Prop where
  polite : ¬ TooShort least left i c.wire
  behind : left ≤ wire.length
  least_pos : 1 ≤ least i
  reads : ReadsStatus c.worker.connState → least i = 2
  meets : meets evs c.wire = .message hdr payload evs' wire
  header : rm.header = headerOf hdr
  content : rm.payload = payload
  length : payload.length = (headerOf hdr).len

theorem Arrives.isFrame (h : Arrives least left i c evs hdr payload evs' wire rm) :
    IsFrame (hdr ++ payload) rm ∧ least i ≤ payload.length ∧ ¬ TooShort least left (i + 1) wire := by
  obtain ⟨hwire, hall, hvalid⟩ := meets_message h.meets
  have hle := least_le_of_not_tooShort h.polite (hwire.trans (List.append_assoc _ _ _))
    (by rw [List.length_append]; have := h.behind; omega) hall hvalid
  refine ⟨⟨⟨hdr, by rw [h.content], hall, h.header⟩, ?_, by rw [h.content, h.header, h.length]⟩, h.length ▸ hle,
    not_tooShort_rest h.polite hwire h.behind hall hvalid h.length⟩
  rw [h.header]
  exact ⟨hvalid.1, h.least_pos.trans hle, hvalid.2⟩

/-- A status is read from a payload that is long enough for it. -/
theorem Arrives.long (h : Arrives least left i c evs hdr payload evs' wire rm)
    (hstatus : ReadsStatus c.worker.connState) : 2 ≤ rm.payload.length := by
  rw [h.content, ← h.reads hstatus]
  exact h.isFrame.2.1

theorem not_empty (evs : List IoEvent) (h : ¬ TooShort least left i c.wire) (hleft : left + headerSize ≤ c.wire.length)
    (hleast : 1 ≤ least i) : meets evs c.wire ≠ .empty := by
  intro hm
  obtain ⟨hdr, rest, hwire, hall, hvalid, hzero⟩ := meets_empty hm
  have hle := least_le_of_not_tooShort h hwire (by rw [hwire, List.length_append] at hleft; omega) hall hvalid
  omega

theorem handled_respond (c : Opening) (rm : RcvMessage) :
    (c.respond rm).handled = c.handled ++ [(c.worker.connState, rm)] :=
  (Opening.same_settled (c.hear rm)).handled

theorem keeps_forget {c : Opening} (h : c.receiver.Keeps []) : c.forget.receiver.Keeps [] :=
  ⟨h.headerLength, .idle h.state_nil⟩

/-- A message behind which nothing more is awaited. -/
theorem opens_completed (h : Arrives least left i c evs hdr payload evs' wire rm) (idle : (c.upTo r wire).Idle)
    (hpc : ((c.upTo r wire).respond rm).worker.pc = .completed)
    (hi : ((c.upTo r wire).respond rm).worker.connState = .Connected → i = 1) :
    Opens least left i c (Opening.afterHandshake ((c.upTo r wire).handshake (recvTrue evs') rm)) := by
  obtain ⟨hframe, -, hrest⟩ := h.isFrame
  have hr := respond_receiver (c.upTo r wire) rm
  have hwire := respond_wire (c.upTo r wire) rm
  rw [handshake_completed hpc]
  refine ⟨⟨nofun, nofun⟩, nofun, [hdr ++ payload], [(c.worker.connState, rm)],
    handled_respond (c.upTo r wire) rm, ?_, fun _ hconn => ⟨?_, .cons hframe .nil, ?_, ?_, ?_⟩⟩
  · intro x hx hstatus
    rw [List.mem_singleton.mp hx] at hstatus ⊢
    exact h.long hstatus
  · change _ = _ ++ ((c.upTo r wire).respond rm).wire
    rw [(meets_message h.meets).1, hwire]
    simp
  · apply keeps_forget
    rw [hr]
    exact ⟨idle.keeps.headerLength, .idle idle.keeps.state_nil⟩
  · change ((c.upTo r wire).respond rm).receiver.connected = true
    rw [hr]
    exact decide_eq_true hconn
  · change ¬ TooShort least left 2 ((c.upTo r wire).respond rm).wire
    rw [hwire]
    rwa [hi hconn] at hrest

theorem opens_last (hc : c.Idle) (hlast : c.worker.AwaitsLast) (h : ¬ TooShort least left 1 c.wire)
    (hleft : left ≤ (recvTrue evs c).2.wire.length) (hleast : 1 ≤ least 1)
    (hreads : ReadsStatus c.worker.connState → least 1 = 2) (hcut : meets evs c.wire ≠ .short) :
    Opens least left 1 c (recvTrue evs c) := by
  have hmeets := recvTrue_meets hc evs
  generalize hm : meets evs c.wire = m at hmeets
  generalize recvTrue evs c = o at hmeets hleft ⊢
  cases hmeets with
  | nothing r wire => exact ⟨⟨nofun, nofun⟩, nofun, [], [], by simp, by simp, nofun⟩
  | broken r wire state => exact ⟨⟨nofun, nofun⟩, fun _ => rfl, [], [], by simp [Opening.returns], by simp, nofun⟩
  | short r wire => exact absurd hm hcut
  | empty r wire read => exact absurd hm (not_empty evs h (le_trans (Nat.add_le_add_right hleft _) read) hleast)
  | message r rm header content wellFormed length idle =>
    have hbehind := hleft.trans (handshake_length_le (recvTrue_length_le _) _ rm)
    exact opens_completed ⟨h, hbehind, hleast, hreads, hm, header, content, length⟩ idle
      (respond_last (c := c.upTo r _) rm hlast) fun _ => rfl

/-- The first message is handled in the call that handles the last one inside. -/
theorem opens_nested (h : Arrives least left i c evs hdr payload evs' wire rm)
    (hpc : ((c.upTo r wire).respond rm).worker.pc = .receiving)
    (hlast : ((c.upTo r wire).respond rm).worker.AwaitsLast)
    (hinner : Opens least left (i + 1) ((c.upTo r wire).respond rm) (recvTrue evs' ((c.upTo r wire).respond rm))) :
    Opens least left i c (Opening.afterHandshake ((c.upTo r wire).handshake (recvTrue evs') rm)) := by
  have hframe := h.isFrame.1
  have hwire := respond_wire (c.upTo r wire) rm
  have hhandled := handled_respond (c.upTo r wire) rm
  have hstate : ((c.upTo r wire).respond rm).worker.connState ≠ .Connected := by
    rcases hlast with ⟨-, hst⟩ | ⟨-, hst⟩ <;> simp [hst]
  rw [handshake_receiving hpc]
  generalize recvTrue evs' ((c.upTo r wire).respond rm) = o at hinner ⊢
  obtain ⟨e, d⟩ := o
  obtain ⟨halive, hfailed, fs, ms, hms, hlong, haccount⟩ := hinner
  replace hms : d.handled = c.handled ++ ((c.worker.connState, rm) :: ms) := by
    rw [hms, hhandled, List.append_assoc]
    rfl
  have hlong' : ∀ x ∈ (c.worker.connState, rm) :: ms, ReadsStatus x.1 → 2 ≤ x.2.payload.length := by
    intro x hx hstatus
    rcases List.mem_cons.mp hx with rfl | hx
    · exact h.long hstatus
    · exact hlong x hx hstatus
  cases e with
  | returned rc =>
    cases rc with
    | true =>
      refine ⟨⟨nofun, nofun⟩, nofun, (hdr ++ payload) :: fs, _, hms, hlong', fun _ hconn => ?_⟩
      obtain ⟨hbytes, hframes, hkeeps, hconnected, hpolite⟩ := haccount rfl hconn
      refine ⟨?_, .cons hframe hframes, keeps_forget hkeeps, hconnected, hpolite⟩
      rw [(meets_message h.meets).1, List.flatten_cons, List.append_assoc (hdr ++ payload)]
      exact congrArg _ (hwire.symm.trans hbytes)
    | false =>
      refine ⟨⟨nofun, nofun⟩, nofun, [], _, hms, hlong', fun _ hconn => ?_⟩
      -- the inner call has left the worker as it was
      have hsame : d.worker.connState = _ := congrArg Worker.connState (hfailed rfl)
      exact absurd (hsame.symm.trans hconn) hstate
  | blocked => exact ⟨halive, nofun, [], _, hms, hlong', nofun⟩
  | asserted => exact absurd rfl halive.1
  | nullBuffer => exact absurd rfl halive.2

theorem readsStatus_client {w : Worker} (h : w.AwaitsFirst ∨ w.AwaitsLast) (hreads : ReadsStatus w.connState) :
    w.ct = .Client := by
  rcases h with (⟨-, hst⟩ | ⟨hct, -⟩) | (⟨-, hst⟩ | ⟨hct, -⟩)
  · simp [ReadsStatus, hst] at hreads
  · exact hct
  · simp [ReadsStatus, hst] at hreads
  · exact hct

theorem opens_first (hc : c.Idle) (hfirst : c.worker.AwaitsFirst) (h : ¬ TooShort least left 0 c.wire)
    (hleft : left ≤ (recvTrue evs c).2.wire.length) (hleast : ∀ j, 1 ≤ least j)
    (hclient : c.worker.ct = .Client → ∀ j, least j = 2) (hcut : c.Uncut evs) :
    Opens least left 0 c (recvTrue evs c) := by
  have hmeets := recvTrue_meets hc evs
  have hreads : ReadsStatus c.worker.connState → least 0 = 2 :=
    fun hstatus => hclient (readsStatus_client (.inl hfirst) hstatus) 0
  generalize hm : meets evs c.wire = m at hmeets
  generalize recvTrue evs c = o at hmeets hleft ⊢
  cases hmeets with
  | nothing r wire => exact ⟨⟨nofun, nofun⟩, nofun, [], [], by simp, by simp, nofun⟩
  | broken r wire state => exact ⟨⟨nofun, nofun⟩, fun _ => rfl, [], [], by simp [Opening.returns], by simp, nofun⟩
  | short r wire => exact absurd hm hcut.first
  | empty r wire read => exact absurd hm (not_empty evs h (le_trans (Nat.add_le_add_right hleft _) read) (hleast 0))
  | @message hdr payload evs' wire r rm header content wellFormed length idle =>
    have hbehind := hleft.trans (handshake_length_le (recvTrue_length_le evs') (c.upTo r wire) rm)
    have harrives : Arrives least left 0 c evs hdr payload evs' wire rm :=
      ⟨h, hbehind, hleast 0, hreads, hm, header, content, length⟩
    by_cases hgo : c.GoesOn payload
    · have hgo' : (c.upTo r wire).GoesOn rm.payload := by
        rw [content]
        exact hgo
      obtain ⟨hpc, hlast⟩ := respond_goesOn (c := c.upTo r wire) rm hfirst hgo'
      have hct := (logicPeer_first (c := c.upTo r wire) hfirst hgo').1
      have hwire := respond_wire (c.upTo r wire) rm
      refine opens_nested harrives hpc hlast ?_
      refine opens_last (idle_respond idle hlast) hlast (by rw [hwire]; exact harrives.isFrame.2.2) ?_ (hleast _) ?_ ?_
      · rwa [handshake_receiving hpc, wire_afterHandshake, wire_afterRecv] at hleft
      · exact fun hstatus => hclient (hct.symm.trans (readsStatus_client (.inr hlast) hstatus)) _
      · rw [hwire]
        exact hcut.last hdr payload evs' wire hm hgo
    · have hstop := respond_stops (c := c.upTo r wire) rm hfirst (by rw [content]; exact hgo)
      have hconn : c.worker.connState ≠ .Connected := by
        rcases hfirst with ⟨-, hst⟩ | ⟨-, hst⟩ <;> simp [hst]
      exact opens_completed harrives idle hstop.1 fun hstate => absurd (hstop.2.symm.trans hstate) hconn

end

/-! ## The whole connection -/

/-- `handshake` reads a status or a port from the message; it looks at the size only before the port. -/
def ReadsField (st : ConnectionState) (payload : Bytes) : Prop :=
  ReadsStatus st ∨ (st = .Connecting ∧ payload.length = 2)

/-- The memory pool is never asked for no bytes, no field is read from a payload that is too short
for it, and the frames that have come are delivered in order unless a call has returned false. -/
structure Survives (c : Opening) (o : (InitEnd × Opening) × Option Reception) : Prop where
  alive : o.1.1 ≠ .halted .asserted ∧ o.1.1 ≠ .halted .nullBuffer
  goesOn : o.1.1 ≠ .waiting
  recv : ∀ p, o.2 = some p → ∃ rc, p.ended = .returned rc
  fields : ∀ x ∈ o.1.2.handled, ReadsField x.1 x.2.payload → 2 ≤ x.2.payload.length
  handlerIds : ∀ p, o.2 = some p → ∀ rm ∈ p.delivered, 2 ≤ rm.payload.length
  frames : ∀ p, o.2 = some p → p.ended = .returned true → ∃ fs held,
    c.wire = fs.flatten ++ held ++ p.wire ∧ p.receiver.Keeps held ∧
      List.Forall₂ IsFrame fs (o.1.2.handled.map Prod.snd ++ p.delivered)

theorem one_le_leastPayload (ct : CreatorType) (i : ℕ) : 1 ≤ leastPayload ct i := by
  unfold leastPayload
  split_ifs <;> decide

theorem leastPayload_client (i : ℕ) : leastPayload .Client i = 2 := by
  simp [leastPayload]

theorem leastPayload_of_two_le (ct : CreatorType) {i : ℕ} (h : 2 ≤ i) : leastPayload ct i = 2 := by
  rw [leastPayload, if_neg (by omega)]

theorem ct_enter (c : Opening) : c.enter.worker.ct = c.worker.ct := by
  unfold Opening.enter
  split
  · rw [Opening.send_sending rfl]
    cases c.sends.headD true <;> rfl
  · rfl

theorem opens_enter {c : Opening} (hc : c.Fresh) (evs : List IoEvent) {left : ℕ}
    (hpolite : ¬ TooShort (leastPayload c.worker.ct) left 0 c.wire)
    (hleft : left ≤ (recvTrue evs c.enter).2.wire.length) (hasked : c.Asked) (hcut : c.enter.Uncut evs) :
    Opens (leastPayload c.worker.ct) left 0 c.enter (recvTrue evs c.enter) := by
  refine opens_first hc.idle (hc.enter.1 hasked).2 ?_ hleft (one_le_leastPayload _) ?_ hcut
  · rwa [(Opening.same_enter c).wire]
  · intro hct i
    rw [← ct_enter, hct, leastPayload_client]

/-- How `Initialize` ends, by how its `Recv(true)` does. -/
theorem runInitialize_end {c : Opening} (h : c.enter.worker.pc = .receiving) (evs : List IoEvent) :
    (∀ why, (c.runInitialize evs).1 = .halted why → (recvTrue evs c.enter).1 = why) ∧
      ((c.runInitialize evs).1 = .returned true → (recvTrue evs c.enter).1 = .returned true ∧
        (recvTrue evs c.enter).2.worker.connState = .Connected) := by
  unfold Opening.runInitialize
  dsimp only
  rw [if_neg (by simp [h])]
  obtain ⟨e, d⟩ := recvTrue evs c.enter
  cases e with
  | returned rc =>
    cases rc with
    | false => simp
    | true =>
      by_cases hpc : d.worker.pc = .completed
      · simp [hpc]
      · simp [hpc]
  | blocked => simp
  | asserted => simp
  | nullBuffer => simp

theorem survives_unasked {c : Opening} (hc : c.Fresh) (hasked : ¬ c.Asked) (evs : List IoEvent)
    (nonBlocking : Bool) (calls : List (List IoEvent)) : Survives c (serve c evs nonBlocking calls) := by
  have hhandled : c.enter.handled = [] := (Opening.same_enter c).handled.trans hc.handled
  have hserve : serve c evs nonBlocking calls = ((.returned false, c.enter), none) := by
    simp [serve, runInitialize_unasked (hc.enter.2 hasked)]
  rw [hserve]
  refine ⟨⟨by simp, by simp⟩, by simp, by simp, by simp [hhandled], by simp, by simp⟩

theorem survives_asked {c : Opening} (hc : c.Fresh) (evs : List IoEvent) (nonBlocking : Bool)
    (calls : List (List IoEvent))
    (hpolite : ¬ TooShort (leastPayload c.worker.ct) (unread (serve c evs nonBlocking calls)) 0 c.wire)
    (hasked : c.Asked) (hcut : c.enter.Uncut evs) : Survives c (serve c evs nonBlocking calls) := by
  have hsame := Opening.same_enter c
  obtain ⟨hpc, hfirst⟩ := hc.enter.1 hasked
  obtain ⟨hrun, hwaits⟩ := runInitialize_asked hpc evs
  obtain ⟨hhalted, hreturned⟩ := runInitialize_end hpc evs
  have hdone := (orderly_first hc.idle hfirst hcut).done
  have hleft : unread (serve c evs nonBlocking calls) ≤ (recvTrue evs c.enter).2.wire.length := by
    simp only [unread, serve, hrun]
    split_ifs
    · exact recvCalls_length_le _ _ _
    · exact le_rfl
  obtain ⟨halive, -, fs, ms, hms, hlong, haccount⟩ := opens_enter hc evs hpolite hleft hasked hcut
  rw [hsame.handled, hc.handled, List.nil_append] at hms
  rw [hsame.wire] at haccount
  -- what the calls behind `Initialize` do, if there are any
  have hcalls : ∀ p, (serve c evs nonBlocking calls).2 = some p →
      c.wire = fs.flatten ++ (recvTrue evs c.enter).2.wire ∧ List.Forall₂ IsFrame fs (ms.map Prod.snd) ∧
        Receives (leastPayload c.worker.ct) (unread (serve c evs nonBlocking calls)) 2 []
          (recvTrue evs c.enter).2.wire p := by
    intro p hp
    have hend : unread (serve c evs nonBlocking calls) = p.wire.length := by rw [unread, hp]; rfl
    simp only [serve, hrun] at hp
    split_ifs at hp with hok
    cases hp
    obtain ⟨hret, hconn⟩ := hreturned hok.1
    obtain ⟨hbytes, hframes, hkeeps, hconnected, hrest⟩ := haccount hret hconn
    exact ⟨hbytes, hframes, recvCalls_receives calls hkeeps hconnected
      (fun j hj => leastPayload_of_two_le _ hj) hrest hend.le⟩
  refine ⟨⟨fun h => halive.1 (hhalted _ h), fun h => halive.2 (hhalted _ h)⟩,
    fun h => (hwaits h).2 (hdone (hwaits h).1), fun p hp => (hcalls p hp).2.2.alive, ?_,
    fun p hp => (hcalls p hp).2.2.long, fun p hp hended => ?_⟩
  · change ∀ x ∈ (c.runInitialize evs).2.handled, _
    rw [hrun, hms]
    rintro x hx (hstatus | ⟨-, hlen⟩)
    · exact hlong x hx hstatus
    · exact hlen.ge
  · change ∃ fs held, _ ∧ _ ∧ List.Forall₂ IsFrame fs ((c.runInitialize evs).2.handled.map Prod.snd ++ _)
    obtain ⟨hbytes, hframes, hreceives⟩ := hcalls p hp
    obtain ⟨fs', held, hbytes', hframes', hkeeps, -, -⟩ := hreceives.account hended
    rw [List.nil_append] at hbytes'
    refine ⟨fs ++ fs', held, ?_, hkeeps, ?_⟩
    · rw [hbytes, hbytes', List.flatten_append]
      simp only [List.append_assoc]
    · rw [hrun, hms]
      exact List.rel_append hframes hframes'

/-- A connection survives its peer if no frame whose header it reads is too short for what will be read from it
and no read of the handshake is cut. A header is let through just when it can be sent, unless it announces
no payload. -/
theorem receiver_survives {c : Opening} (hc : c.Fresh) (evs : List IoEvent) (nonBlocking : Bool)
    (calls : List (List IoEvent))
    (hpolite : ¬ TooShort (leastPayload c.worker.ct) (unread (serve c evs nonBlocking calls)) 0 c.wire)
    (hcut : c.Asked → c.enter.Uncut evs) : Survives c (serve c evs nonBlocking calls) ∧
      ∀ (b : Buffer) (hdr : Bytes), b.Filled headerSize hdr → hdr.length = headerSize →
        (((decodeMsgHeader b).isSome ↔ ∃ m : SndMessage, m.Sendable ∧ m.headerBytes = hdr) ↔
          ¬ ((headerOf hdr).magic = messageMagicNo ∧ (headerOf hdr).len = 0)) := by
  constructor
  · by_cases hasked : c.Asked
    · exact survives_asked hc evs nonBlocking calls hpolite hasked (hcut hasked)
    · exact survives_unasked hc hasked evs nonBlocking calls
  · intro b hdr hb hall
    rw [decodeMsgHeader_filled hb hall, ← SndMessage.encodable_iff hall]
    by_cases hvalid : (headerOf hdr).Valid
    · obtain ⟨hmagic, hle⟩ := hvalid
      rw [if_pos ⟨hmagic, hle⟩]
      simp only [Option.isSome_some, true_iff, Header.Encodable, hmagic, hle, true_and, and_true]
      omega
    · have hno : ¬ (headerOf hdr).Encodable := fun h => hvalid ⟨h.1, h.2.2⟩
      have hlen : ¬ ((headerOf hdr).magic = messageMagicNo ∧ (headerOf hdr).len = 0) :=
        fun h => hvalid ⟨h.1, by rw [h.2]; exact Nat.zero_le _⟩
      simp [if_neg hvalid, hno, hlen]

/-- The client's two messages, a request for handler 5, and a frame with one byte that is not read any more. -/
def requestBytes : Bytes :=
  clientBytes ++ (⟨3, [0, 5, 1]⟩ : SndMessage).bytes ++ (⟨4, [5]⟩ : SndMessage).bytes

theorem receiver_survives_request :
    Survives (acceptedConnection requestBytes [])
      (serve (acceptedConnection requestBytes [])
        [.take 15, .take 1, .take 15, .take 1] true [[.take 7], [.take 7, .take 2]]) ∧
    ((serve (acceptedConnection requestBytes [])
        [.take 15, .take 1, .take 15, .take 1] true [[.take 7], [.take 7, .take 2]]).2.map fun p =>
      (p.ended, p.delivered.map RcvMessage.payload)) = some (.returned true, [[0, 5, 1]]) := by
  refine ⟨(receiver_survives (fresh_acceptedConnection _ _) _ true _ ?_ fun _ => ⟨by decide +kernel, ?_⟩).1,
    by decide +kernel⟩
  · have hbytes : (acceptedConnection requestBytes []).wire =
        (⟨1, [0x23, 0x28]⟩ : SndMessage).bytes ++ ((⟨2, [0, 0]⟩ : SndMessage).bytes ++
          ((⟨3, [0, 5, 1]⟩ : SndMessage).bytes ++ (⟨4, [5]⟩ : SndMessage).bytes)) := by decide +kernel
    rw [hbytes]
    exact not_tooShort_bytes (by decide) (by decide) (not_tooShort_bytes (by decide) (by decide)
      (not_tooShort_bytes (by decide) (by decide) (not_tooShort_of_lt (by decide +kernel))))
  · intro hdr payload evs' wire' hm _
    have hm' : meets [.take 15, .take 1, .take 15, .take 1] requestBytes =
        .message (clientBytes.take 16) [0x23, 0x28] [.take 15, .take 1] (requestBytes.drop 18) := by decide +kernel
    cases hm'.symm.trans hm
    decide +kernel

/-- A header with no payload fails the assertion of `MemPool::Get`, in the handshake and behind it.
A payload of one byte goes to `proc_msg`, which reads two; a client reads a status of two bytes
from it. -/
theorem receiver_fails :
    (serve (acceptedConnection (⟨1, []⟩ : SndMessage).bytes []) [.take 15] true []).1.1 = .halted .asserted ∧
    ((serve (acceptedConnection (clientBytes ++ (⟨3, []⟩ : SndMessage).bytes) [])
        [.take 15, .take 1, .take 15, .take 1] true [[.take 15]]).2.map Reception.ended) = some .asserted ∧
    ((serve (acceptedConnection (clientBytes ++ (⟨3, [5]⟩ : SndMessage).bytes) [])
        [.take 15, .take 1, .take 15, .take 1] true [[.take 15, .take 0]]).2.map fun p =>
      p.delivered.map RcvMessage.payload) = some [[5]] ∧
    (serve (acceptedConnection clientBytes []) [.take 7] true []).1.1 = .waiting ∧
    ((Opening.runInitialize [.take 15, .take 0]
        { acceptedConnection (⟨1, [0]⟩ : SndMessage).bytes [] with
          worker := .client ⟨"10.0.0.2", 4000⟩ 9000 }).2.handled.map fun x => (x.1, x.2.payload)) =
      [(.ConnectSe, [0])] := by
  decide +kernel

end FlyingKV.Net
