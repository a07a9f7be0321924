import FlyingKV.RpcClient

set_option autoImplicit false

/-!
# What a step of the clients can do

`Steps` lists all steps with their guards. Most of them leave the tables and the results of
the calls alone; the others register a context, take one out of the tables, complete one,
or break all contexts of a peer.
-/
namespace FlyingKV.Rpc
open CallLife

/-- Where a caller goes once it looks at its context: back to sleep, or out. -/
def RpcCtx.Leaves (x : RpcCtx) (p : Phase) : Prop :=
  (x.complete = false ∧ p = .waiting) ∨ ∃ o, x.complete = true ∧ x.outcome = some o ∧ p = .done o

namespace RpcSys

/-- All steps, with their guards. -/
inductive Steps (s : RpcSys) : RpcEvent → RpcSys → Seen → Prop where
  | null {k : ℕ} {info : CallInfo} (hk : s.phase k = .idle) :
      Steps s (.send k info) (s.setPhase k (.done .nullptr)) .none
  | send {k : ℕ} {info : CallInfo} (hk : s.phase k = .idle) :
      Steps s (.send k info) { s.setPhase k .queued with info := Function.update s.info k info } .none
  | register {k : ℕ} (hk : s.phase k = .queued) (hl : s.holder (s.info k).client = none) :
      Steps s (.register k) ((s.setTables (s.info k).client ((s.tables (s.info k).client).insert
        (s.info k).msgId (s.info k).peer k)).setPhase k .registered) .none
  | initCb {k : ℕ} (hk : s.phase k = .registered) :
      Steps s (.initCb k) { s.setPhase k .ready with
        cb := some (s.cb.getD ((s.info k).client, (s.info k).msgId)) } .none
  | lockMtx {k : ℕ} (hk : s.phase k = .ready) : Steps s (.lockMtx k) (s.setPhase k .locked) .none
  | refused {k now : ℕ} (hk : s.phase k = .locked)
      (hev : now + s.timeout (s.info k).client ∈ s.events.map Prod.fst) :
      Steps s (.subscribe k now) (s.setPhase k (.done .rpcClientInternal)) .none
  | subscribe {k now : ℕ} (hk : s.phase k = .locked) (hf : s.firing = .idle)
      (hev : now + s.timeout (s.info k).client ∉ s.events.map Prod.fst) :
      Steps s (.subscribe k now)
        ({ s with events := insertEvent s.events (now + s.timeout (s.info k).client) k }.setPhase k
          (.subscribed (now + s.timeout (s.info k).client))) .none
  | await {k when : ℕ} {p : Phase} (hk : s.phase k = .subscribed when) (hp : (s.ctx k).Leaves p) :
      Steps s (.await k) ((s.setCtx k { s.ctx k with timerEv := when }).setPhase k p) .none
  | wake {k : ℕ} {p : Phase} (hk : s.phase k = .waiting) (hp : (s.ctx k).Leaves p) :
      Steps s (.wake k) (s.setPhase k p) .none
  | arrive {c : ℕ} {n : ClientNotice} (hl : s.holder c = none) :
      Steps s (.arrive c n) (s.setHolder c (some n)) .none
  | unknown {c : ℕ} {n : ClientNotice} (hn : s.holder c = some n)
      (hno : ∀ r, n = .message r → (s.tables c).byKey r.id = none) :
      Steps s (.handle c) (s.setHolder c none) .none
  | respond {c k : ℕ} {r : Reply} (hr : s.holder c = some (.message r))
      (hk : (s.tables c).byKey r.id = some k) (hu : s.canUnsubscribe k = true) :
      Steps s (.handle c) { ({ s with events := unsubscribeEvent s.events (s.ctx k).timerEv }.remove c
        k).setHolder c none with pending := s.pending ++ [(k, r)] } ⟨.none, [(k, .removed (.response r))]⟩
  | breaks {c : ℕ} {peer : PeerInfo} {ks : List ℕ} (hn : s.holder c = some (.worker peer))
      (hks : (s.tables c).byGroup peer = some ks) :
      Steps s (.handle c) (((breakPipe c ks (some (.worker peer)) s).setTables c
        (((breakPipe c ks (some (.worker peer)) s).tables c).dropGroup peer)).setHolder c none)
          ⟨.none, brokenMarks ks⟩
  | deliver {k : ℕ} {r : Reply} (hk : (k, r) ∈ s.pending) :
      Steps s (.deliver k r) { s.setCtx k { s.ctx k with complete := true, nm := some (.message r) } with
        pending := s.pending.erase (k, r) } ⟨.none, [(k, .completed (.response r))]⟩
  | expire {now : ℕ} (hf : s.firing = .idle) (hev : s.events ≠ []) :
      Steps s (.expire now) { s with firing := .due } .none
  | lapse {when i c id : ℕ} {rest : List (ℕ × ℕ)} (hf : s.firing = .due) (hev : s.events = (when, i) :: rest)
      (hcb : s.cb = some (c, id)) (hl : s.holder c = none) (hk : (s.tables c).byKey id = none) :
      Steps s .callback { s with events := rest, firing := .idle } ⟨some i, []⟩
  | timeout {when i c id k : ℕ} {rest : List (ℕ × ℕ)} (hf : s.firing = .due)
      (hev : s.events = (when, i) :: rest) (hcb : s.cb = some (c, id)) (hl : s.holder c = none)
      (hk : (s.tables c).byKey id = some k) :
      Steps s .callback { s.remove c k with firing := .completing k } ⟨some i, [(k, .removed .timeout)]⟩
  | finish {k : ℕ} (hf : s.firing = .completing k) :
      Steps s .finish { s.setCtx k { s.ctx k with complete := true, state := .Timeout } with
        events := s.events.tail, firing := .idle } ⟨.none, [(k, .completed .timeout)]⟩

variable {s t : RpcSys}

theorem leave_eq_some {k : ℕ} (h : s.leave k = some t) : ∃ p, t = s.setPhase k p ∧ (s.ctx k).Leaves p := by
  unfold leave at h
  split_ifs at h with hc
  · obtain ⟨o, ho, rfl⟩ := Option.map_eq_some_iff.mp h
    exact ⟨_, rfl, .inr ⟨o, hc, ho, rfl⟩⟩
  · cases h
    exact ⟨_, rfl, .inl ⟨Bool.eq_false_iff.mpr hc, rfl⟩⟩

theorem steps_subscribeStep {k now : ℕ} (h : s.subscribeStep k now = some t) :
    s.Steps (.subscribe k now) t .none := by
  simp only [subscribeStep, Option.ite_none_right_eq_some] at h
  obtain ⟨⟨hk, hf, hnow⟩, h⟩ := h
  unfold subscribeEventAt at h
  by_cases hev : now + s.timeout (s.info k).client ∈ s.events.map Prod.fst
  · simp only [hev, if_true, Option.some.injEq] at h
    subst h
    exact .refused hk hev
  · have hpos : ¬ (now + s.timeout (s.info k).client = 0) := by omega
    simp only [hev, if_false, hpos, Option.some.injEq] at h
    subst h
    exact .subscribe hk hf hev

theorem steps_awaitStep {k : ℕ} (h : s.awaitStep k = some t) : s.Steps (.await k) t .none := by
  unfold awaitStep at h
  split at h
  · rename_i when hk
    obtain ⟨p, rfl, hp⟩ := leave_eq_some h
    simp only [setCtx, Function.update_self] at hp
    exact .await hk hp
  · cases h

theorem steps_handleMessage {c : ℕ} {r : Reply} {o : Seen} (hr : s.holder c = some (.message r))
    (h : s.handleMessage c r = some (t, o)) : s.Steps (.handle c) t o := by
  unfold handleMessage at h
  split at h
  · rename_i hno
    cases h
    refine .unknown hr fun r' heq => ?_
    cases heq
    exact hno
  · rename_i k hk
    split_ifs at h with hu
    cases h
    exact .respond hr hk hu

theorem steps_handleWorker {c : ℕ} {peer : PeerInfo} {o : Seen} (hn : s.holder c = some (.worker peer))
    (h : s.handleWorker c peer = some (t, o)) : s.Steps (.handle c) t o := by
  unfold handleWorker at h
  split at h
  · cases h
    exact .unknown hn nofun
  · rename_i ks hks
    split_ifs at h
    cases h
    exact .breaks hn hks

theorem steps_callbackStep {o : Seen} (h : s.callbackStep = some (t, o)) : s.Steps .callback t o := by
  unfold callbackStep at h
  split at h
  · rename_i when owner rest c id hf hev hcb
    split_ifs at h with hl
    split at h
    · rename_i hk
      cases h
      exact .lapse hf hev hcb hl hk
    · rename_i k hk
      cases h
      exact .timeout hf hev hcb hl hk
  · cases h

theorem steps_of_step {e : RpcEvent} {o : Seen} (h : s.step e = some (t, o)) : s.Steps e t o := by
  have hplain : ∀ {x : Option RpcSys}, x.map (·, Seen.none) = some (t, o) → x = some t ∧ o = .none := by
    intro x hx
    obtain ⟨t', ht', heq⟩ := Option.map_eq_some_iff.mp hx
    cases heq
    exact ⟨ht', rfl⟩
  cases e with
  | send k info =>
    obtain ⟨hx, rfl⟩ := hplain h
    unfold sendStep at hx
    split_ifs at hx with hk hid
    · cases hx
      exact .null (not_not.mp hk)
    · cases hx
      exact .send (not_not.mp hk)
  | register k =>
    obtain ⟨hx, rfl⟩ := hplain h
    simp only [registerStep, Option.ite_none_right_eq_some] at hx
    cases hx.2
    exact .register hx.1.1 hx.1.2
  | initCb k =>
    obtain ⟨hx, rfl⟩ := hplain h
    simp only [initCbStep, Option.ite_none_right_eq_some] at hx
    cases hx.2
    exact .initCb hx.1
  | lockMtx k =>
    obtain ⟨hx, rfl⟩ := hplain h
    simp only [lockMtxStep, Option.ite_none_right_eq_some] at hx
    cases hx.2
    exact .lockMtx hx.1
  | subscribe k now =>
    obtain ⟨hx, rfl⟩ := hplain h
    exact steps_subscribeStep hx
  | await k =>
    obtain ⟨hx, rfl⟩ := hplain h
    exact steps_awaitStep hx
  | wake k =>
    obtain ⟨hx, rfl⟩ := hplain h
    simp only [wakeStep, Option.ite_none_right_eq_some] at hx
    obtain ⟨p, rfl, hp⟩ := leave_eq_some hx.2
    exact .wake hx.1.1 hp
  | arrive c notice =>
    simp only [step, Option.ite_none_right_eq_some] at h
    cases h.2
    exact .arrive h.1
  | handle c =>
    simp only [step] at h
    split at h
    · cases h
    · rename_i r hr
      exact steps_handleMessage hr h
    · rename_i peer hn
      exact steps_handleWorker hn h
  | deliver k r =>
    simp only [step, deliverStep, Option.ite_none_right_eq_some] at h
    cases h.2
    exact .deliver h.1.1
  | expire now =>
    obtain ⟨hx, rfl⟩ := hplain h
    unfold expireStep at hx
    split at hx
    · rename_i hf hev
      split_ifs at hx
      cases hx
      exact .expire hf (by simp [hev])
    · cases hx
  | callback => exact steps_callbackStep h
  | finish =>
    simp only [step, finishStep] at h
    split at h
    · rename_i k hk
      split_ifs at h
      cases h
      exact .finish hk
    · cases h

end RpcSys

/-! ## The part of a step that concerns the results -/

/-- Inside `recvMessage`, behind the registration. -/
def Phase.Receiving : Phase → Prop
  | .registered | .ready | .locked | .subscribed _ | .waiting => True
  | _ => False

/-- Before the registration, or ended without one. -/
def Phase.Unregistered : Phase → Prop
  | .idle | .queued | .done .nullptr => True
  | _ => False

/-- The moves of a caller that holds nothing but its own context `x`. -/
inductive Phase.Advances (x : RpcCtx) : Phase → Phase → Prop where
  | stay (p : Phase) : Advances x p p
  | null : Advances x .idle (.done .nullptr)
  | on {p q : Phase} (hp : p.Receiving) (hq : q.Receiving) : Advances x p q
  | fail {p : Phase} (hp : p.Receiving) : Advances x p (.done .rpcClientInternal)
  | leave {p : Phase} {o : Outcome} (hp : p.Receiving) (hx : x.complete = true) (ho : x.outcome = some o) :
      Advances x p (.done o)

theorem Phase.Advances.ne_idle {x : RpcCtx} {p q : Phase} (h : p.Advances x q) (hp : p ≠ .idle) :
    q ≠ .idle := by
  cases h with
  | stay => exact hp
  | null => exact nofun
  | on _ hq =>
    rintro rfl
    exact hq
  | fail => exact nofun
  | leave => exact nofun

/-- Equal but for the time of the event. -/
def RpcCtx.SameResult (x y : RpcCtx) : Prop := x.complete = y.complete ∧ x.state = y.state ∧ x.nm = y.nm

namespace RpcSys

/-- The tables, the results and the contexts between the two stay; callers may advance. -/
structure Quiet (s t : RpcSys) : Prop where
  info : t.info = s.info
  tables : t.tables = s.tables
  pending : t.pending = s.pending
  completing : ∀ k, t.firing = .completing k ↔ s.firing = .completing k
  ctx : ∀ k, (t.ctx k).SameResult (s.ctx k)
  phase : ∀ k, (s.phase k).Advances (s.ctx k) (t.phase k)

/-- What the loop over the contexts `ks` of a peer leaves behind. -/
structure Broken (s : RpcSys) (c : ℕ) (peer : PeerInfo) (ks : List ℕ) (t : RpcSys) : Prop where
  info : t.info = s.info
  phase : t.phase = s.phase
  pending : t.pending = s.pending
  firing : t.firing = s.firing
  tables : ∀ c', c' ≠ c → t.tables c' = s.tables c'
  byGroup : (t.tables c).byGroup = Function.update (s.tables c).byGroup peer none
  byKey : ∀ i, (t.tables c).byKey i =
    if i ∈ ks.map fun k => (s.info k).msgId then none else (s.tables c).byKey i
  broken : ∀ k ∈ ks, (t.ctx k).complete = true ∧ (t.ctx k).state = .BrokenPipe
  others : ∀ k, k ∉ ks → t.ctx k = s.ctx k

/-- The moves of the system on an event, with the marks they leave. The events of the timer and the
holders of the locks play no part. -/
inductive Moves (s : RpcSys) : RpcEvent → RpcSys → List (ℕ × Mark Cause) → Prop where
  | quiet {e : RpcEvent} {t : RpcSys} (h : s.Quiet t) : Moves s e t []
  | send {k : ℕ} {info : CallInfo} (hk : s.phase k = .idle) :
      Moves s (.send k info) { s.setPhase k .queued with info := Function.update s.info k info } []
  | register {k : ℕ} (hk : s.phase k = .queued) :
      Moves s (.register k) ((s.setTables (s.info k).client ((s.tables (s.info k).client).insert
        (s.info k).msgId (s.info k).peer k)).setPhase k .registered) []
  | respond {c k : ℕ} {r : Reply} {events : List (ℕ × ℕ)} {holder : ℕ → Option ClientNotice}
      (hr : s.holder c = some (.message r)) (hk : (s.tables c).byKey r.id = some k) :
      Moves s (.handle c) { s.remove c k with events, holder, pending := s.pending ++ [(k, r)] }
        [(k, .removed (.response r))]
  | timeout {c id k : ℕ} (hk : (s.tables c).byKey id = some k) (hs : s.firing = .due) :
      Moves s .callback { s.remove c k with firing := .completing k } [(k, .removed .timeout)]
  | breaks {c : ℕ} {peer : PeerInfo} {ks : List ℕ} {t : RpcSys}
      (hks : (s.tables c).byGroup peer = some ks) (ht : s.Broken c peer ks t) :
      Moves s (.handle c) t (brokenMarks ks)
  | deliver {k : ℕ} {r : Reply} (hk : (k, r) ∈ s.pending) :
      Moves s (.deliver k r) { s.setCtx k { s.ctx k with complete := true, nm := some (.message r) } with
        pending := s.pending.erase (k, r) } [(k, .completed (.response r))]
  | finish {k : ℕ} {events : List (ℕ × ℕ)} (hk : s.firing = .completing k) :
      Moves s .finish { s.setCtx k { s.ctx k with complete := true, state := .Timeout } with
        events, firing := .idle } [(k, .completed .timeout)]

variable {s t : RpcSys}
variable {k c i j : ℕ} {p : Phase} {ks : List ℕ} {e : RpcEvent} {o : Seen}

theorem Quiet.refl (s : RpcSys) : s.Quiet s :=
  ⟨rfl, rfl, rfl, fun _ => Iff.rfl, fun _ => ⟨rfl, rfl, rfl⟩, fun _ => .stay _⟩

/-- Only the phase of one caller changes, and what `Quiet` does not look at. -/
theorem quiet_setPhase {events : List (ℕ × ℕ)} {cb : Option (ℕ × ℕ)} (hp : (s.phase k).Advances (s.ctx k) p) :
    s.Quiet { s.setPhase k p with events, cb } := by
  refine ⟨rfl, rfl, rfl, fun _ => Iff.rfl, fun _ => ⟨rfl, rfl, rfl⟩, ?_⟩
  intro j
  by_cases hj : j = k
  · subst hj
    simpa only [setPhase, Function.update_self] using hp
  · simpa only [setPhase, Function.update_of_ne hj] using .stay _

/-- A caller looks at its context, after any change of the event time in it. -/
theorem quiet_leaves (when : ℕ) (hk : (s.phase k).Receiving) (hp : (s.ctx k).Leaves p) :
    s.Quiet ((s.setCtx k { s.ctx k with timerEv := when }).setPhase k p) := by
  refine ⟨rfl, rfl, rfl, fun _ => Iff.rfl, ?_, ?_⟩
  · intro j
    by_cases hj : j = k
    · subst hj
      simpa only [setPhase, setCtx, Function.update_self] using ⟨rfl, rfl, rfl⟩
    · simpa only [setPhase, setCtx, Function.update_of_ne hj] using ⟨rfl, rfl, rfl⟩
  · intro j
    by_cases hj : j = k
    · subst hj
      simp only [setPhase, setCtx, Function.update_self]
      rcases hp with ⟨-, rfl⟩ | ⟨o, hc, ho, rfl⟩
      · exact .on hk trivial
      · exact .leave hk hc ho
    · simpa only [setPhase, setCtx, Function.update_of_ne hj] using .stay _

/-! ## The loop over the contexts of a peer -/

theorem unsubscribeEvent_sublist (events : List (ℕ × ℕ)) (when : ℕ) :
    (unsubscribeEvent events when).Sublist events := by
  unfold unsubscribeEvent
  split_ifs
  · exact List.Sublist.refl _
  · exact List.eraseP_sublist

theorem breakPipe_frame (c : ℕ) (ks : List ℕ) (nm : Option ClientNotice) (s : RpcSys) :
    (breakPipe c ks nm s).info = s.info ∧ (breakPipe c ks nm s).phase = s.phase ∧
      (breakPipe c ks nm s).pending = s.pending ∧ (breakPipe c ks nm s).firing = s.firing ∧
      (breakPipe c ks nm s).holder = s.holder ∧ (breakPipe c ks nm s).cb = s.cb ∧
      ((breakPipe c ks nm s).tables c).byGroup = (s.tables c).byGroup ∧
      ∀ c', c' ≠ c → (breakPipe c ks nm s).tables c' = s.tables c' := by
  induction ks generalizing nm s with
  | nil => exact ⟨rfl, rfl, rfl, rfl, rfl, rfl, rfl, fun _ _ => rfl⟩
  | cons k ks ih =>
    obtain ⟨h₁, h₂, h₃, h₄, h₅, h₆, h₇, h₈⟩ := ih none _
    refine ⟨h₁, h₂, h₃, h₄, h₅, h₆, h₇.trans ?_, fun c' hc' => (h₈ c' hc').trans ?_⟩
    · simp only [setCtx, setTables, Function.update_self, GroupedIndex.eraseKey]
    · simp only [setCtx, setTables, Function.update_of_ne hc']

theorem byKey_breakPipe (c : ℕ) (ks : List ℕ) (nm : Option ClientNotice) (s : RpcSys) (i : ℕ) :
    ((breakPipe c ks nm s).tables c).byKey i =
      if i ∈ ks.map fun k => (s.info k).msgId then none else (s.tables c).byKey i := by
  induction ks generalizing nm s with
  | nil => simp [breakPipe]
  | cons k ks ih =>
    rw [breakPipe, ih]
    simp only [setCtx, setTables, Function.update_self, GroupedIndex.eraseKey, List.map_cons, List.mem_cons]
    by_cases hi : i = (s.info k).msgId
    · simp only [hi, Function.update_self, true_or, if_true, ite_self]
    · simp only [hi, Function.update_of_ne hi, false_or]

theorem ctx_breakPipe_of_not_mem (c : ℕ) (nm : Option ClientNotice) (s : RpcSys) (hk : k ∉ ks) :
    (breakPipe c ks nm s).ctx k = s.ctx k := by
  induction ks generalizing nm s with
  | nil => rfl
  | cons j ks ih =>
    rw [List.mem_cons, not_or] at hk
    rw [breakPipe, ih _ _ hk.2]
    exact Function.update_of_ne hk.1 _ _

theorem ctx_breakPipe_of_mem (c : ℕ) (nm : Option ClientNotice) (s : RpcSys) (hk : k ∈ ks) :
    ((breakPipe c ks nm s).ctx k).complete = true ∧ ((breakPipe c ks nm s).ctx k).state = .BrokenPipe := by
  induction ks generalizing nm s with
  | nil => simp at hk
  | cons j ks ih =>
    rw [breakPipe]
    by_cases hks : k ∈ ks
    · exact ih _ _ hks
    · obtain rfl : k = j := by simpa [hks] using hk
      rw [ctx_breakPipe_of_not_mem c _ _ hks]
      simp only [setCtx, Function.update_self, and_self]

/-! ## All moves -/

theorem timerEv_breakPipe (c : ℕ) (ks : List ℕ) (nm : Option ClientNotice) (s : RpcSys) (k : ℕ) :
    ((breakPipe c ks nm s).ctx k).timerEv = (s.ctx k).timerEv := by
  induction ks generalizing nm s with
  | nil => rfl
  | cons j ks ih =>
    rw [breakPipe, ih]
    by_cases hk : k = j
    · subst hk
      simp only [setCtx, Function.update_self]
    · simp only [setCtx, setTables, Function.update_of_ne hk]

theorem events_breakPipe_sublist (c : ℕ) (ks : List ℕ) (nm : Option ClientNotice) (s : RpcSys) :
    (breakPipe c ks nm s).events.Sublist s.events := by
  induction ks generalizing nm s with
  | nil => exact List.Sublist.refl _
  | cons k ks ih => exact (ih none _).trans (unsubscribeEvent_sublist _ _)

theorem broken_breakPipe {peer : PeerInfo} (ks : List ℕ) (nm : Option ClientNotice) :
    s.Broken c peer ks (((breakPipe c ks nm s).setTables c
      (((breakPipe c ks nm s).tables c).dropGroup peer)).setHolder c none) := by
  obtain ⟨h₁, h₂, h₃, h₄, -, -, h₇, h₈⟩ := breakPipe_frame c ks nm s
  refine ⟨h₁, h₂, h₃, h₄, ?_, ?_, ?_, ?_, ?_⟩
  · intro c' hc'
    simp only [setHolder, setTables, Function.update_of_ne hc', h₈ c' hc']
  · simp only [setHolder, setTables, Function.update_self, GroupedIndex.dropGroup, h₇]
  · intro i
    simp only [setHolder, setTables, Function.update_self, GroupedIndex.dropGroup]
    exact byKey_breakPipe c ks _ s i
  · intro k hk
    exact ctx_breakPipe_of_mem c _ s hk
  · intro k hk
    exact ctx_breakPipe_of_not_mem c _ s hk

theorem moves_of_step (h : s.step e = some (t, o)) : s.Moves e t o.marks := by
  cases steps_of_step h with
  | null hk => exact .quiet (quiet_setPhase (by rw [hk]; exact .null))
  | send hk => exact .send hk
  | register hk hl => exact .register hk
  | initCb hk => exact .quiet (quiet_setPhase (.on (by rw [hk]; trivial) trivial))
  | lockMtx hk => exact .quiet (quiet_setPhase (.on (by rw [hk]; trivial) trivial))
  | refused hk hev => exact .quiet (quiet_setPhase (.fail (by rw [hk]; trivial)))
  | subscribe hk hf hev => exact .quiet (quiet_setPhase (.on (by rw [hk]; trivial) trivial))
  | await hk hp => exact .quiet (quiet_leaves _ (by rw [hk]; trivial) hp)
  | @wake k p hk hp =>
    have hq := quiet_leaves (s.ctx k).timerEv (show (s.phase k).Receiving by rw [hk]; trivial) hp
    rw [setCtx, Function.update_eq_self] at hq
    exact .quiet hq
  | arrive hl => exact .quiet { Quiet.refl s with }
  | unknown hn hno => exact .quiet { Quiet.refl s with }
  | respond hr hk hu => exact .respond hr hk
  | breaks hn hks => exact .breaks hks (broken_breakPipe _ _)
  | deliver hk => exact .deliver hk
  | expire hf hev => exact .quiet { Quiet.refl s with completing := by simp [hf] }
  | lapse hf hev hcb hl hk => exact .quiet { Quiet.refl s with completing := by simp [hf] }
  | timeout hf hev hcb hl hk => exact .timeout hk hf
  | finish hf => exact .finish hf

theorem info_step (h : s.step e = some (t, o)) (hk : s.phase k ≠ .idle) : t.info k = s.info k := by
  have hmoves := moves_of_step h
  generalize o.marks = ms at hmoves
  cases hmoves with
  | quiet hq => rw [hq.info]
  | @send j info hj =>
    have hkj : k ≠ j := by
      rintro rfl
      exact hk hj
    exact Function.update_of_ne hkj _ _
  | breaks hks ht => rw [ht.info]
  | _ => rfl

/-! ## The keys of the tables -/

theorem byKey_register {g : PeerInfo}
    (h : (((s.setTables (s.info k).client ((s.tables (s.info k).client).insert (s.info k).msgId g
      k)).setPhase k p).tables c).byKey i = some j) :
    (j = k ∧ (s.info k).client = c ∧ (s.info k).msgId = i) ∨ (s.tables c).byKey i = some j := by
  simp only [setPhase, setTables] at h
  by_cases hc : c = (s.info k).client
  · subst hc
    rw [Function.update_self, GroupedIndex.insert] at h
    by_cases hi : i = (s.info k).msgId
    · simp only [hi, Function.update_self, Option.some.injEq] at h
      exact .inl ⟨h.symm, rfl, hi.symm⟩
    · simp only [Function.update_of_ne hi] at h
      exact .inr h
  · rw [Function.update_of_ne hc] at h
    exact .inr h

theorem byKey_remove {c' : ℕ} (h : ((s.remove c k).tables c').byKey i = some j) :
    (s.tables c').byKey i = some j := by
  simp only [remove, setTables] at h
  by_cases hc : c' = c
  · subst hc
    rw [Function.update_self, GroupedIndex.erase] at h
    by_cases hi : i = (s.info k).msgId
    · simp only [hi, Function.update_self, reduceCtorEq] at h
    · simpa only [Function.update_of_ne hi] using h
  · rwa [Function.update_of_ne hc] at h

theorem Broken.byKey_some {peer : PeerInfo} (ht : s.Broken c peer ks t) {c' : ℕ} (h : (t.tables c').byKey i = some j) :
    (s.tables c').byKey i = some j := by
  by_cases hc : c' = c
  · subst hc
    rw [ht.byKey] at h
    split_ifs at h
    exact h
  · rwa [ht.tables c' hc] at h

/-- A context is only ever found on its client and under its id, and belongs to a call. -/
def Keyed (s : RpcSys) : Prop :=
  ∀ c i k, (s.tables c).byKey i = some k →
    (s.info k).client = c ∧ (s.info k).msgId = i ∧ s.phase k ≠ .idle

theorem keyed_start (timeout : ℕ → ℕ) : (start timeout).Keyed := fun _ _ _ h => nomatch h

theorem Keyed.step (h : s.Keyed) (hs : s.step e = some (t, o)) : t.Keyed := by
  have hmoves := moves_of_step hs
  generalize o.marks = ms at hmoves
  intro c i k hk
  cases hmoves with
  | quiet hq =>
    rw [hq.tables] at hk
    rw [hq.info]
    obtain ⟨hc, hi, hne⟩ := h c i k hk
    exact ⟨hc, hi, (hq.phase k).ne_idle hne⟩
  | @send j info hj =>
    have hkj : k ≠ j := by
      rintro rfl
      exact (h c i k hk).2.2 hj
    simpa only [setPhase, Function.update_of_ne hkj] using h c i k hk
  | @register j hj =>
    rcases byKey_register hk with ⟨rfl, hc, hi⟩ | hk
    · exact ⟨hc, hi, by simp [setPhase]⟩
    · obtain ⟨hc, hi, hne⟩ := h c i k hk
      refine ⟨hc, hi, ?_⟩
      by_cases hkj : k = j
      · simp [setPhase, hkj]
      · simpa only [setPhase, setTables, Function.update_of_ne hkj] using hne
  | respond hr hj => exact h c i k (byKey_remove hk)
  | timeout hj hf => exact h c i k (byKey_remove hk)
  | breaks hks ht =>
    rw [ht.info, ht.phase]
    exact h c i k (ht.byKey_some hk)
  | deliver hj => exact h c i k hk
  | finish hj => exact h c i k hk

end RpcSys

end FlyingKV.Rpc
