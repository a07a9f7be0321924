import FlyingKV.RpcClientLocks

set_option autoImplicit false

/-!
# Responses

`sendMessage` hands the request to the network before `recvMessage` registers the context, so
a response can come too early. In careful runs every response that arrives in time completes
its call: the call cannot end in any other way, and the threads that are left can finish it.
-/
namespace FlyingKV.Rpc.RpcSys
open CallLife EventRun

variable {s t u : RpcSys} {st : ℕ → Stage Cause} {k c : ℕ} {r : Reply}

/-! ## A call whose context the response has -/

theorem leave_complete (hc : (s.ctx k).complete = true) {o : Outcome} (ho : (s.ctx k).outcome = some o) :
    s.leave k = some (s.setPhase k (.done o)) := by
  simp only [leave, hc, if_true, ho, Option.map_some]

theorem leave_incomplete (hc : (s.ctx k).complete = false) : s.leave k = some (s.setPhase k .waiting) := by
  simp [leave, hc]

/-- The response has taken the context out of the tables. -/
def Taken (s : RpcSys) (k : ℕ) (r : Reply) : Prop :=
  s.Indexed ∧ ∃ st, s.Refines st ∧ (st k = .claimed (.response r) ∨ st k = .completed (.response r))

theorem Taken.step (h : s.Taken k r) {e : RpcEvent} {o : Seen} (hs : s.step e = some (t, o))
    (hid : s.DistinctIds e) : t.Taken k r := by
  obtain ⟨hx, st, href, hk⟩ := h
  obtain ⟨hx', st', href', hmoves⟩ := step_refines hx href hs hid
  exact ⟨hx', st', href', (hmoves k).claimed hk⟩

theorem Refines.shows_completed (h : s.Refines st) (hk : st k = .completed (.response r)) :
    (s.ctx k).complete = true ∧ (s.ctx k).outcome = some r.outcome := by
  have hshows := h.shows k
  rw [hk] at hshows
  obtain ⟨hc, hstate, hnm⟩ := hshows
  refine ⟨hc, ?_⟩
  simp only [RpcCtx.outcome, hstate, hnm]

theorem Refines.shows_claimed (h : s.Refines st) (hk : st k = .claimed (.response r)) :
    (s.ctx k).complete = false := by
  have hshows := h.shows k
  rw [hk] at hshows
  exact hshows.1

/-- A call that has its response ends with it, or because its timer was refused. -/
theorem Taken.ended (h : s.Taken k r) {o : Outcome} (hp : s.phase k = .done o)
    (ho : o ≠ .rpcClientInternal) : o = r.outcome := by
  obtain ⟨hx, st, href, hk⟩ := h
  rcases href.ended k o hp with rfl | ho' | ⟨cause, hcause, rfl⟩
  · have hfresh := (href.fresh k).mpr (by rw [hp]; trivial)
    rw [hfresh] at hk
    simp at hk
  · exact absurd ho' ho
  · rw [hcause] at hk
    simp only [reduceCtorEq, Stage.completed.injEq, false_or] at hk
    rw [hk]
    rfl

/-! ## The threads that are left finish the call -/

section
variable (h : s.Taken k r)
include h

theorem leads_waiting (hp : s.phase k = .waiting) : Leads step s fun u => u.phase k = .done r.outcome := by
  have hwake : ∀ {s : RpcSys} {st : ℕ → Stage Cause}, s.Refines st → st k = .completed (.response r) →
      s.phase k = .waiting → Leads step s fun u => u.phase k = .done r.outcome := by
    intro s st href hk hp
    obtain ⟨hc, ho⟩ := href.shows_completed hk
    have hs : s.step (.wake k) = some (s.setPhase k (.done r.outcome), .none) := by
      simp only [step, wakeStep, hp, hc, and_self, if_true, leave_complete hc ho, Option.map_some]
    exact .cons hs (.now (Function.update_self _ _ _))
  obtain ⟨hx, st, href, hk | hk⟩ := h
  · have hmem := (href.pending k r).mpr hk
    have hs : s.step (.deliver k r) = some (
        { s.setCtx k { s.ctx k with complete := true, nm := some (.message r) } with
          pending := s.pending.erase (k, r) }, ⟨.none, [(k, .completed (.response r))]⟩) := by
      simp [step, deliverStep, hmem, mtxFree, hp, Phase.holdsMtx]
    obtain ⟨-, st', href', hmoves⟩ := step_refines hx href hs trivial
    refine .cons hs (hwake href' ?_ hp)
    have hk' := hmoves k
    rw [hk] at hk'
    simp only [marksOf, List.filter_cons_of_pos, decide_true, List.filter_nil, List.map_cons,
      List.map_nil] at hk'
    generalize st' k = a at hk'
    cases hk'
    rfl
  · exact hwake href hk hp

theorem leads_subscribed {when : ℕ} (hp : s.phase k = .subscribed when) :
    Leads step s fun u => u.phase k = .done r.outcome := by
  set x : RpcCtx := { s.ctx k with timerEv := when }
  have hctx : (s.setCtx k x).ctx k = x := Function.update_self _ _ _
  have hs : s.step (.await k) = ((s.setCtx k x).leave k).map (·, Seen.none) := by
    simp only [step, awaitStep, hp, x]
  obtain ⟨hx, st, href, hk | hk⟩ := id h
  · rw [leave_incomplete (by rw [hctx]; exact href.shows_claimed hk), Option.map_some] at hs
    exact .cons hs (leads_waiting (h.step hs trivial) (Function.update_self _ _ _))
  · obtain ⟨hc, ho⟩ := href.shows_completed hk
    rw [leave_complete (by rw [hctx]; exact hc) (by rw [hctx]; exact ho), Option.map_some] at hs
    exact .cons hs (.now (Function.update_self _ _ _))

theorem leads_locked (hf : s.firing = .idle) (hp : s.phase k = .locked) :
    Leads step s fun u => u.phase k = .done r.outcome := by
  -- any time later than all events will do
  obtain ⟨now, hnow, hev⟩ : ∃ now, 0 < now ∧ now + s.timeout (s.info k).client ∉ s.events.map Prod.fst := by
    refine ⟨(s.events.map Prod.fst).sum + 1, Nat.succ_pos _, fun hmem => ?_⟩
    have hle := List.le_sum_of_mem hmem
    omega
  have hpos : ¬ (now + s.timeout (s.info k).client = 0) := by omega
  have hs : s.step (.subscribe k now) = some
      ({ s with events := insertEvent s.events (now + s.timeout (s.info k).client) k }.setPhase k
        (.subscribed (now + s.timeout (s.info k).client)), .none) := by
    simp only [step, subscribeStep, hp, hf, hnow, and_self, if_true, subscribeEventAt, hev, if_false, hpos,
      Option.map_some]
  exact .cons hs (leads_subscribed (h.step hs trivial) (Function.update_self _ _ _))

theorem leads_ready (hf : s.firing = .idle) (hp : s.phase k = .ready) :
    Leads step s fun u => u.phase k = .done r.outcome := by
  have hs : s.step (.lockMtx k) = some (s.setPhase k .locked, .none) := by
    simp [step, lockMtxStep, hp]
  exact .cons hs (leads_locked (h.step hs trivial) hf (Function.update_self _ _ _))

theorem leads_registered (hf : s.firing = .idle) (hp : s.phase k = .registered) :
    Leads step s fun u => u.phase k = .done r.outcome := by
  have hs : s.step (.initCb k) = some ({ s.setPhase k .ready with
      cb := some (s.cb.getD ((s.info k).client, (s.info k).msgId)) }, .none) := by
    simp [step, initCbStep, hp]
  exact .cons hs (leads_ready (h.step hs trivial) hf (Function.update_self _ _ _))

/-- Once the timer sleeps, the caller can go through to the end from wherever it is. -/
theorem leads_idle (hf : s.firing = .idle) (hacc : s.phase k ≠ .done .rpcClientInternal) :
    Leads step s fun u => u.phase k = .done r.outcome := by
  have hreg : ¬ (s.phase k).Unregistered := by
    obtain ⟨hx, st, href, hk⟩ := h
    rw [← href.fresh k]
    rcases hk with hk | hk <;> simp [hk]
  cases hp : s.phase k with
  | idle => exact absurd (by rw [hp]; trivial) hreg
  | queued => exact absurd (by rw [hp]; trivial) hreg
  | registered => exact leads_registered h hf hp
  | ready => exact leads_ready h hf hp
  | locked => exact leads_locked h hf hp
  | subscribed when => exact leads_subscribed h hp
  | waiting => exact leads_waiting h hp
  | done o =>
    have ho := h.ended hp (by rintro rfl; exact hacc hp)
    exact .now (by rw [hp, ho])

theorem leads_completing {j : ℕ} (hf : s.firing = .completing j) (hm : s.mtxFree j = true)
    (hacc : s.phase k ≠ .done .rpcClientInternal) : Leads step s fun u => u.phase k = .done r.outcome := by
  have hs : s.step .finish = some ({ s.setCtx j { s.ctx j with complete := true, state := .Timeout } with
      events := s.events.tail, firing := .idle }, ⟨.none, [(j, .completed .timeout)]⟩) := by
    simp [step, finishStep, hf, hm]
  exact .cons hs (leads_idle (h.step hs trivial) rfl hacc)

/-- A firing that has begun comes to its end first. -/
theorem leads_orderly (ho : s.Orderly) : Leads step s fun u => u.phase k = .done r.outcome := by
  cases hf : s.firing with
  | idle => exact leads_idle h hf (ho.accepted k)
  | completing j => exact leads_completing h hf ((ho.calm (by simp [hf])).2.1 j) (ho.accepted k)
  | due =>
    obtain ⟨hl, hm, hev⟩ := ho.calm (by simp [hf])
    obtain ⟨⟨when, i⟩, rest, hev'⟩ := List.exists_cons_of_ne_nil hev
    obtain ⟨⟨c, id⟩, hcb⟩ := Option.ne_none_iff_exists'.mp (ho.captured hev)
    cases hj : (s.tables c).byKey id with
    | none =>
      have hs : s.step .callback = some ({ s with events := rest, firing := .idle }, ⟨some i, []⟩) := by
        simp [step, callbackStep, hf, hev', hcb, hl, hj]
      exact .cons hs (leads_idle (h.step hs trivial) rfl (ho.accepted k))
    | some j =>
      have hs : s.step .callback = some ({ s.remove c j with firing := .completing j },
          ⟨some i, [(j, .removed .timeout)]⟩) := by
        simp [step, callbackStep, hf, hev', hcb, hl, hj]
      exact .cons hs (leads_completing (h.step hs trivial) rfl (hm j) (ho.accepted k))

end

/-! ## A response on its way -/

/-- The response to call `k` is in the hands of its handler, or has the context. -/
structure Serving (s : RpcSys) (k c : ℕ) (r : Reply) (st : ℕ → Stage Cause) : Prop where
  indexed : s.Indexed
  refines : s.Refines st
  orderly : s.Orderly
  client : (s.info k).client = c
  msgId : (s.info k).msgId = r.id
  hand : (st k = .outstanding ∧ s.holder c = some (.message r)) ∨ st k = .claimed (.response r) ∨
    st k = .completed (.response r)

theorem Refines.ne_idle (h : s.Refines st) (hk : st k ≠ .fresh) : s.phase k ≠ .idle := by
  intro hp
  exact hk ((h.fresh k).mpr (by rw [hp]; trivial))

theorem Serving.byKey (h : s.Serving k c r st) (hk : st k = .outstanding) :
    (s.tables c).byKey r.id = some k := by
  have hout := (h.refines.outstanding k).mp hk
  rwa [Outstanding, h.client, h.msgId] at hout

section
variable {o : Seen} {e : RpcEvent} {os : List Seen}

/-- The step of the handler that holds the response gives it the context. -/
theorem marks_handle (hr : s.holder c = some (.message r)) (hk : (s.tables c).byKey r.id = some k)
    (hs : s.step (.handle c) = some (t, o)) : o.marks = [(k, .removed (.response r))] := by
  cases steps_of_step hs with
  | unknown hn hno =>
    rw [hr, Option.some.injEq] at hn
    rw [hno r hn.symm] at hk
    exact nomatch hk
  | respond hr' hk' hu =>
    rw [hr] at hr'
    cases hr'
    rw [hk] at hk'
    cases hk'
    rfl
  | breaks hn hks =>
    rw [hr] at hn
    exact nomatch hn

theorem Serving.step (h : s.Serving k c r st) (hs : s.step e = some (t, o)) (hc : s.Careful e) :
    ∃ st', t.Serving k c r st' := by
  obtain ⟨hx', st', href', hmoves⟩ := step_refines h.indexed h.refines hs hc.distinctIds
  have hne : st k ≠ .fresh := by
    rcases h.hand with ⟨hk, -⟩ | hk | hk <;> simp [hk]
  have hinfo := info_step hs (h.refines.ne_idle hne)
  refine ⟨st', hx', href', h.orderly.step hc hs, by rw [hinfo, h.client], by rw [hinfo, h.msgId], ?_⟩
  rcases h.hand with ⟨hk, hr⟩ | hk
  · by_cases he : e = .handle c
    · subst he
      have hk' := hmoves k
      rw [marks_handle hr (h.byKey hk) hs, hk] at hk'
      simp only [marksOf, List.filter_cons_of_pos, decide_true, List.filter_nil, List.map_cons,
        List.map_nil] at hk'
      generalize st' k = a at hk'
      cases hk'
      exact .inr (.inl rfl)
    · -- the lock keeps everybody else from the tables
      obtain ⟨hholder, htables⟩ := held hr he hs
      refine .inl ⟨(href'.outstanding k).mpr ?_, hholder⟩
      rw [Outstanding, hinfo, h.client, h.msgId, htables]
      exact h.byKey hk
  · exact .inr ((hmoves k).claimed hk)

theorem Serving.leads (h : s.Serving k c r st) : Leads RpcSys.step s fun u => u.phase k = .done r.outcome := by
  rcases h.hand with ⟨hk, hr⟩ | hk
  · have hf : s.firing = .idle := by
      by_contra hf
      rw [(h.orderly.calm hf).1 c] at hr
      exact nomatch hr
    have hu : s.canUnsubscribe k = true := by simp [canUnsubscribe, hf]
    have hs : ∃ u o, s.step (.handle c) = some (u, o) ∧ u.firing = .idle ∧ u.phase = s.phase := by
      simp only [RpcSys.step, hr, handleMessage, h.byKey hk, hu, if_true]
      exact ⟨_, _, rfl, hf, rfl⟩
    obtain ⟨u, o, hs, hfu, hpu⟩ := hs
    obtain ⟨hx', st', href', hmoves⟩ := step_refines h.indexed h.refines hs trivial
    have hk' := hmoves k
    rw [marks_handle hr (h.byKey hk) hs, hk] at hk'
    simp only [marksOf, List.filter_cons_of_pos, decide_true, List.filter_nil, List.map_cons,
      List.map_nil] at hk'
    have htaken : st' k = .claimed (.response r) := by
      generalize st' k = a at hk'
      cases hk'
      rfl
    refine .cons hs (leads_idle ⟨hx', st', href', .inl htaken⟩ hfu ?_)
    rw [hpu]
    exact h.orderly.accepted k
  · exact leads_orderly ⟨h.indexed, st, h.refines, hk⟩ h.orderly

/-! ## Careful runs -/

/-- What the states of a careful run and the marks left so far have in common. -/
structure CarefulRun (s : RpcSys) (os : List Seen) (st : ℕ → Stage Cause) : Prop where
  indexed : s.Indexed
  refines : s.Refines st
  orderly : s.Orderly
  history : ∀ k, (st k).history = life k os
  fired : ∀ k, .removed .timeout ∈ life k os → ∃ o ∈ os, o.fired = some k
  addressed : ∀ k r, .removed (.response r) ∈ life k os → (s.info k).msgId = r.id

/-- Only an event of its own times a call out. -/
theorem fired_of_removed (hs : s.step e = some (t, o)) (hc : s.Careful e) (hk : (k, .removed .timeout) ∈ o.marks) :
    o.fired = some k := by
  cases steps_of_step hs with
  | @timeout when i c id j rest hf hev hcb hl hj =>
    simp only [List.mem_singleton, Prod.mk.injEq, and_true] at hk
    rw [hk, hc when i rest hev c id j hcb hj]
  | breaks hn hks => simp [brokenMarks] at hk
  | _ => simp [Seen.none] at hk

theorem addressed_of_removed (hx : s.Indexed) (hs : s.step e = some (t, o))
    (hk : (k, .removed (.response r)) ∈ o.marks) : (s.info k).msgId = r.id := by
  cases steps_of_step hs with
  | respond hr hj hu =>
    simp only [List.mem_singleton, Prod.mk.injEq, Mark.removed.injEq, Cause.response.injEq] at hk
    obtain ⟨rfl, rfl⟩ := hk
    exact (hx.keyed _ _ _ hj).2
  | breaks hn hks => simp [brokenMarks] at hk
  | _ => simp [Seen.none] at hk

theorem life_append (k : ℕ) (os : List Seen) (o : Seen) :
    life k (os ++ [o]) = life k os ++ marksOf k o.marks := by
  simp only [life, List.flatMap_append, List.flatMap_cons, List.flatMap_nil, List.append_nil, marksOf_append]

theorem CarefulRun.step (h : s.CarefulRun os st) (hs : s.step e = some (t, o)) (hc : s.Careful e) :
    ∃ st', t.CarefulRun (os ++ [o]) st' := by
  obtain ⟨hx', st', href', hmoves⟩ := step_refines h.indexed h.refines hs hc.distinctIds
  have hhistory : ∀ k, (st' k).history = life k (os ++ [o]) := by
    intro k
    rw [(hmoves k).history, h.history k, life_append]
  refine ⟨st', hx', href', h.orderly.step hc hs, hhistory, ?_, ?_⟩
  · intro k hk
    rw [life_append, List.mem_append] at hk
    rcases hk with hk | hk
    · obtain ⟨o', ho', hfired⟩ := h.fired k hk
      exact ⟨o', List.mem_append_left _ ho', hfired⟩
    · exact ⟨o, by simp, fired_of_removed hs hc (mem_marksOf.mp hk)⟩
  · intro k r hk
    -- a call with a mark is past its start, so its id stays
    have hne : ∀ {m}, m ∈ life k (os ++ [o]) → s.phase k ≠ .idle := by
      intro m hm hp
      have hfresh : st k = .fresh := (h.refines.fresh k).mpr (by rw [hp]; trivial)
      have hk' := hmoves k
      rw [hfresh] at hk'
      have hnil : (st' k).history = [] := by
        generalize st' k = a at hk'
        generalize marksOf k o.marks = ms at hk'
        cases hk' <;> rfl
      rw [← hhistory k, hnil] at hm
      exact nomatch hm
    rw [info_step hs (hne hk)]
    rw [life_append, List.mem_append] at hk
    rcases hk with hk | hk
    · exact h.addressed k r hk
    · exact addressed_of_removed h.indexed hs (mem_marksOf.mp hk)

theorem carefulRun {timeout : ℕ → ℕ} {es : List RpcEvent} (hc : Along step Careful (start timeout) es)
    (hrun : run step (start timeout) es = some (s, os)) : ∃ st, s.CarefulRun os st := by
  have hstart : (start timeout).CarefulRun [] fun _ => .fresh :=
    ⟨indexed_start timeout, refines_start timeout, orderly_start timeout, fun _ => rfl, nofun, nofun⟩
  have hinv := run_invariant (I := fun u tr => ∃ st, u.CarefulRun (tr.map Prod.snd) st) ?_ [] ⟨_, hstart⟩
    hc hrun
  · rw [List.nil_append, List.map_snd_zip (length_run hrun).le] at hinv
    exact hinv
  · rintro u tr e v o ⟨st, h⟩ he hstep
    rw [List.map_append]
    exact h.step hstep he

/-- Call `k` of client `c` with this id is in `sendMessage`, and until now no response has come for it,
its connection was not reported broken, and its timer event has not fired. -/
structure Awaits (s : RpcSys) (os : List Seen) (k c id : ℕ) : Prop where
  phase : (s.phase k).InProgress
  client : (s.info k).client = c
  msgId : (s.info k).msgId = id
  unfired : ∀ o ∈ os, o.fired ≠ some k
  unanswered : ∀ cause, .removed cause ∈ life k os → cause = .timeout

/-- The response completes the call: it is with the handler, or it has the context, or the context is
complete with it; the call returns nothing else; and the threads can get the call to return it. -/
structure Completes (s : RpcSys) (k c : ℕ) (r : Reply) : Prop where
  hand : (s.Outstanding k ∧ s.holder c = some (.message r)) ∨ (k, r) ∈ s.pending ∨
    ((s.ctx k).complete = true ∧ (s.ctx k).state = .Ok ∧ (s.ctx k).nm = some (.message r))
  outcome : ∀ o, s.phase k = .done o → o = r.outcome
  leads : Leads step s fun u => u.phase k = .done r.outcome

/-- A complete context without an error has a response to its own id. -/
def ResponsesMatch (s : RpcSys) : Prop :=
  ∀ j, (s.ctx j).complete = true → (s.ctx j).state = .Ok →
    ∃ r, (s.ctx j).nm = some (.message r) ∧ r.id = (s.info j).msgId

theorem Serving.completes (h : s.Serving k c r st) : s.Completes k c r := by
  refine ⟨?_, ?_, h.leads⟩
  · rcases h.hand with ⟨hk, hr⟩ | hk | hk
    · exact .inl ⟨(h.refines.outstanding k).mp hk, hr⟩
    · exact .inr (.inl ((h.refines.pending k r).mpr hk))
    · have hshows := h.refines.shows k
      rw [hk] at hshows
      exact .inr (.inr hshows)
  · intro o hp
    rcases h.hand with ⟨hk, -⟩ | hk
    · rcases h.refines.ended k o hp with rfl | rfl | ⟨cause, hcause, -⟩
      · rw [(h.refines.fresh k).mpr (by rw [hp]; trivial)] at hk
        exact nomatch hk
      · exact absurd hp (h.orderly.accepted k)
      · rw [hk] at hcause
        exact nomatch hcause
    · refine Taken.ended ⟨h.indexed, st, h.refines, hk⟩ hp ?_
      rintro rfl
      exact h.orderly.accepted k hp

theorem CarefulRun.responsesMatch (h : s.CarefulRun os st) : s.ResponsesMatch := by
  intro j hcomplete hok
  have hshows := h.refines.shows j
  obtain ⟨cause, hcause⟩ := hshows.complete_iff.mp hcomplete
  rw [hcause] at hshows
  cases cause with
  | response r =>
    refine ⟨r, hshows.2.2, (h.addressed j r ?_).symm⟩
    rw [← h.history j, hcause]
    simp [Stage.history]
  | brokenPipe => cases hok.symm.trans hshows.2
  | timeout => cases hok.symm.trans hshows.2

/-- In a careful run a response that arrives for a waiting call completes that call, from its arrival on
and in every state that follows, and no other call of the client that is busy has this id. -/
theorem response_completes_call (timeout : ℕ → ℕ) {es₁ es₂ : List RpcEvent} {os₁ os₂ : List Seen}
    {s v : RpcSys} {k c : ℕ} {r : Reply}
    (hc : Along step Careful (start timeout) (es₁ ++ .arrive c (.message r) :: es₂))
    (hs : run step (start timeout) es₁ = some (s, os₁)) (hk : s.Awaits os₁ k c r.id)
    (hv : run step s (.arrive c (.message r) :: es₂) = some (v, os₂)) :
    v.Completes k c r ∧ v.ResponsesMatch ∧
      ∀ j, s.Busy j → (s.info j).client = c → (s.info j).msgId = r.id → j = k := by
  obtain ⟨st, h⟩ := carefulRun hc.append_left hs
  have hright := hc.append_right hs
  -- the call is registered, and nothing has taken its context
  have hrec : (s.phase k).Receiving := by
    rcases hk.phase with hq | hrec
    · exact absurd hk.msgId (hright.1.2 r rfl k hq hk.client)
    · exact hrec
  have hnil : life k os₁ = [] := by
    refine List.eq_nil_iff_forall_not_mem.mpr fun m hm => ?_
    have hhist := h.history k
    have hremoved : ∃ cause, .removed cause ∈ life k os₁ := by
      rw [← hhist] at hm ⊢
      generalize st k = a at hm ⊢
      cases a <;> simp_all [Stage.history]
    obtain ⟨cause, hcause⟩ := hremoved
    obtain rfl := hk.unanswered cause hcause
    obtain ⟨o, ho, hfired⟩ := h.fired k hcause
    exact hk.unfired o ho hfired
  have hout : st k = .outstanding := by
    have hfresh : st k ≠ .fresh := by
      rw [ne_eq, h.refines.fresh k]
      intro hun
      generalize s.phase k = p at hrec hun
      cases p <;> simp_all [Phase.Receiving, Phase.Unregistered]
    have hhist := h.history k
    rw [hnil] at hhist
    generalize st k = a at hhist hfresh ⊢
    cases a <;> simp_all [Stage.history]
  have harrive : ∃ u o, s.step (.arrive c (.message r)) = some (u, o) ∧ ∃ rs, run step u es₂ = some (v, rs) := by
    obtain ⟨u, o, rs, hstep, hrest, -⟩ := run_cons.mp hv
    exact ⟨u, o, hstep, rs, hrest⟩
  obtain ⟨u, o, hstep, rs, hrest⟩ := harrive
  have hserving : ∃ st', u.Serving k c r st' := by
    obtain ⟨hx', st', href', hmoves⟩ := step_refines h.indexed h.refines hstep trivial
    cases steps_of_step hstep with
    | arrive hl =>
      have hholder : (s.setHolder c (some (.message r))).holder c = some (.message r) :=
        Function.update_self _ _ _
      refine ⟨st', hx', href', h.orderly.step hright.1 hstep, hk.client, hk.msgId, .inl ⟨?_, hholder⟩⟩
      exact (href'.outstanding k).mpr ((h.refines.outstanding k).mp hout)
  obtain ⟨st', hserving⟩ := hserving
  have hend := run_invariant (I := fun w _ => ∃ st, w.Serving k c r st)
    (by rintro _ _ _ _ _ ⟨_, hw⟩ he hstep; exact hw.step hstep he) [] ⟨st', hserving⟩ (hright.2 _ hstep) hrest
  obtain ⟨st'', hend⟩ := hend
  refine ⟨hend.completes, ?_, ?_⟩
  · have hall : run step (start timeout) (es₁ ++ .arrive c (.message r) :: es₂) = some (v, os₁ ++ os₂) :=
      run_append_of hs hv
    obtain ⟨st, hall⟩ := carefulRun hc hall
    exact hall.responsesMatch
  · intro j hj hclient hmsg
    exact h.indexed.unique j k hj (.inl hk.phase) (by rw [hclient, hk.client]) (by rw [hmsg, hk.msgId])

/-! ## Two calls -/

/-- A call up to its wait, at time 10. -/
def oneCall : List RpcEvent :=
  [.send 0 ⟨0, peer, 7⟩, .register 0, .initCb 0, .lockMtx 0, .subscribe 0 10, .await 0]

/-- Both calls are registered when the response to the second one comes. -/
theorem response_completes_call_registered :
    ∃ o ∈ run step (start fun _ => 5) (overlappingCalls.take 4), o.1.Outstanding 0 ∧
      ∃ q ∈ run step o.1 [.arrive 0 (.message ⟨8, [0, 0, 0, 2]⟩)], q.1.Completes 1 0 ⟨8, [0, 0, 0, 2]⟩ := by
  have hs : ∃ o ∈ run step (start fun _ => 5) (overlappingCalls.take 4), o.1.Outstanding 0 ∧
      o.1.Awaits o.2 1 0 8 ∧ o.1.firing = .idle ∧ (∀ k, o.1.phase k ≠ .queued) ∧
      ∃ q, run step o.1 [.arrive 0 (.message ⟨8, [0, 0, 0, 2]⟩)] = some q := by
    refine ⟨_, rfl, rfl, ⟨.inr trivial, rfl, rfl, by simp [Seen.none], by simp [life, Seen.none]⟩, rfl, fun k => ?_, _, rfl⟩
    rcases k with _ | _ | k <;> exact fun h => by cases h
  obtain ⟨⟨s, os⟩, ho, hout, hawaits, hfiring, hqueued, q, hq⟩ := hs
  have hsent : Along step Careful (start fun _ => 5) (overlappingCalls.take 4) :=
    ⟨distinctIds_start _ (.send 0 _), fun o ho => ⟨distinctIds_second (by decide) ho (j := 1), fun _ _ =>
      ⟨trivial, fun _ _ => ⟨trivial, fun _ _ => trivial⟩⟩⟩⟩
  have hc : Along step Careful (start fun _ => 5) (overlappingCalls.take 4 ++ [.arrive 0 (.message ⟨8, [0, 0, 0, 2]⟩)]) :=
    hsent.append ho ⟨⟨hfiring, fun _ _ k hk => absurd hk (hqueued k)⟩, fun _ _ => trivial⟩
  exact ⟨_, ho, hout, q, hq, (response_completes_call (fun _ => 5) hc ho hawaits hq).1⟩

/-- The response comes before the context is registered: it is dropped, and the call times out. -/
theorem early_response_is_lost :
    ∃ o ∈ run step (start fun _ => 5)
        ([.send 0 ⟨0, peer, 7⟩, .arrive 0 (.message ⟨7, [0, 0, 0, 2]⟩), .handle 0] ++
          oneCall.tail ++ [.expire 15, .callback, .finish, .wake 0]),
      o.1.phase 0 = .done .rpcClientSendTimeout ∧ (o.1.ctx 0).nm = none :=
  ⟨_, rfl, rfl, rfl⟩

end

end FlyingKV.Rpc.RpcSys
