import FlyingKV.RpcClientTables

set_option autoImplicit false

/-!
# Timeouts

`s_cb` is a static variable: its lambda captures the id and the client of the first call that
comes to it, and every later call puts the same callback on the timer. So an event is right
about its own call only if that is the captured one, or if there is nothing left to do.
-/
namespace FlyingKV.Rpc.RpcSys
open EventRun

variable {s t : RpcSys}

/-- The firing of the event of call `i`: if the call is outstanding it is taken out of both tables and
will be completed, and no other call changes. -/
structure FiresRight (s t : RpcSys) (i : ℕ) : Prop where
  hit : s.Outstanding i → t.tables = (s.remove (s.info i).client i).tables ∧ t.firing = .completing i
  miss : ¬ s.Outstanding i → t.tables = s.tables ∧ t.firing = .idle
  others : t.ctx = s.ctx ∧ t.phase = s.phase ∧ t.pending = s.pending

/-- The second half of a firing: the call is completed with a timeout, and no other call changes. -/
structure TimesOut (s t : RpcSys) (k : ℕ) : Prop where
  ctx : t.ctx = Function.update s.ctx k { s.ctx k with complete := true, state := .Timeout }
  others : t.tables = s.tables ∧ t.phase = s.phase ∧ t.pending = s.pending

/-- Call `i` is outstanding and the captured one, or it is not outstanding and neither is any call
with the captured id. -/
def CapturedOrOver (s : RpcSys) (i : ℕ) : Prop :=
  (s.Outstanding i ∧ s.cb = some ((s.info i).client, (s.info i).msgId)) ∨
    (¬ s.Outstanding i ∧ ∀ c id, s.cb = some (c, id) → (s.tables c).byKey id = none)

theorem keyed_run {timeout : ℕ → ℕ} {es : List RpcEvent} {os : List Seen}
    (hrun : run step (start timeout) es = some (s, os)) : s.Keyed :=
  run_invariant (P := fun _ _ => True) (I := fun u _ => u.Keyed)
    (fun _ _ _ _ _ hu _ hstep => hu.step hstep) [] (keyed_start timeout)
    (along_of_forall (fun _ _ _ => trivial) _) hrun

/-- The callback looks the captured id up on the captured client, whatever call the event is for. -/
theorem firesRight_iff (hx : s.Keyed) {when i : ℕ} {rest : List (ℕ × ℕ)} {o : Seen}
    (hev : s.events = (when, i) :: rest) (h : s.step .callback = some (t, o)) :
    s.FiresRight t i ↔ s.CapturedOrOver i := by
  cases steps_of_step h with
  | @lapse _ _ c id _ hf _ hcb hl hnone =>
    constructor
    · intro hright
      refine .inr ⟨fun hout => (by cases (hright.hit hout).2), ?_⟩
      intro c' id' hcb'
      rw [hcb] at hcb'
      cases hcb'
      exact hnone
    · rintro (⟨hout, hi⟩ | ⟨hout, -⟩)
      · rw [hcb] at hi
        cases hi
        rw [Outstanding, hnone] at hout
        cases hout
      · exact ⟨fun h => absurd h hout, fun _ => ⟨rfl, rfl⟩, rfl, rfl, rfl⟩
  | @timeout _ _ c id k _ hf _ hcb hl hk =>
    obtain ⟨rfl, rfl, -⟩ := hx c id k hk
    constructor
    · intro hright
      by_cases hout : s.Outstanding i
      · have hki : k = i := by simpa using (hright.hit hout).2
        exact .inl ⟨hout, hki ▸ hcb⟩
      · cases (hright.miss hout).2
    · rintro (⟨hout, hi⟩ | ⟨-, hfree⟩)
      · rw [hcb, Option.some.injEq, Prod.mk.injEq] at hi
        have hki : k = i := by
          rw [Outstanding, ← hi.1, ← hi.2, hk] at hout
          exact Option.some.inj hout
        subst hki
        exact ⟨fun _ => ⟨rfl, rfl⟩, fun hno => absurd hout hno, rfl, rfl, rfl⟩
      · rw [hfree _ _ hcb] at hk
        cases hk

theorem timesOut_of_finish {k : ℕ} {o : Seen} (hf : s.firing = .completing k)
    (h : s.step .finish = some (t, o)) : s.TimesOut t k := by
  cases steps_of_step h with
  | finish hf' =>
    rw [hf] at hf'
    cases hf'
    exact ⟨rfl, rfl, rfl, rfl⟩

theorem subscribed_iff {k now : ℕ} {o : Seen} (h : s.step (.subscribe k now) = some (t, o)) :
    (∃ when, t.phase k = .subscribed when) ↔ ∀ ev ∈ s.events, ev.1 ≠ now + s.timeout (s.info k).client := by
  cases steps_of_step h with
  | refused hk hev =>
    refine iff_of_false (by simp [setPhase]) ?_
    intro hno
    obtain ⟨ev, hmem, heq⟩ := List.mem_map.mp hev
    exact hno ev hmem heq
  | subscribe hk hf hev =>
    refine iff_of_true ⟨_, Function.update_self _ _ _⟩ ?_
    intro ev hmem heq
    exact hev (List.mem_map.mpr ⟨ev, hmem, heq⟩)

/-- In every state that can be reached: the event of a call fires rightly if and only if the call is the
captured one, or it and the captured one are over; what the callback has taken out of the tables is
completed with a timeout; and a subscription succeeds if and only if no other event has its time. -/
theorem timeout_hits_right_call_iff (timeout : ℕ → ℕ) {es : List RpcEvent} {os : List Seen}
    (hrun : run step (start timeout) es = some (s, os)) :
    (∀ when i rest t o, s.events = (when, i) :: rest → s.step .callback = some (t, o) →
        (s.FiresRight t i ↔ s.CapturedOrOver i)) ∧
      (∀ k t o, s.firing = .completing k → s.step .finish = some (t, o) → s.TimesOut t k) ∧
      ∀ k now t o, s.step (.subscribe k now) = some (t, o) →
        ((∃ when, t.phase k = .subscribed when) ↔
          ∀ ev ∈ s.events, ev.1 ≠ now + s.timeout (s.info k).client) :=
  ⟨fun _ _ _ _ _ hev h => firesRight_iff (keyed_run hrun) hev h,
    fun _ _ _ hf h => timesOut_of_finish hf h, fun _ _ _ _ h => subscribed_iff h⟩

/-! ## Two calls -/

/-- All of a call up to its wait, from a request that is queued at `now`. -/
def waitingCall (k id now : ℕ) : List RpcEvent :=
  [.send k ⟨0, peer, id⟩, .register k, .initCb k, .lockMtx k, .subscribe k now, .await k]

/-- The event of the first call of the process is right, with another call outstanding. -/
theorem timeout_hits_right_call_first :
    ∃ o ∈ run step (start fun _ => 5) (waitingCall 0 7 10 ++ waitingCall 1 8 12 ++ [.expire 15]),
      ∃ q ∈ o.1.step .callback, o.1.FiresRight q.1 0 ∧ o.1.Outstanding 1 ∧ q.1.Outstanding 1 := by
  have hrun : ∃ o ∈ run step (start fun _ => 5) (waitingCall 0 7 10 ++ waitingCall 1 8 12 ++ [.expire 15]),
      o.1.events = [(15, 0), (17, 1)] ∧ o.1.Outstanding 0 ∧ o.1.cb = some (0, 7) ∧ (o.1.info 0).msgId = 7 ∧
        (o.1.info 0).client = 0 ∧ ∃ q, o.1.step .callback = some q ∧ o.1.Outstanding 1 ∧ q.1.Outstanding 1 :=
    ⟨_, rfl, rfl, rfl, rfl, rfl, rfl, _, rfl, rfl, rfl⟩
  obtain ⟨o, ho, hev, hout, hcb, hid, hclient, q, hq, hother, hkept⟩ := hrun
  refine ⟨o, ho, q, hq, ?_, hother, hkept⟩
  refine ((timeout_hits_right_call_iff (fun _ => 5) ho).1 15 0 [(17, 1)] q.1 q.2 hev hq).mpr (.inl ⟨hout, ?_⟩)
  rw [hcb, hid, hclient]

/-- The first call is over when the second one is made. The event of the second one then does nothing:
the call stays outstanding and the timer is empty. And a second call whose timer is set in the same
nanosecond as that of the first is refused, with its context left in the tables. -/
theorem second_call_never_times_out :
    (∃ o ∈ run step (start fun _ => 5)
        (waitingCall 0 7 10 ++ [.arrive 0 (.message ⟨7, [0, 0, 0, 2]⟩), .handle 0, .deliver 0 ⟨7, [0, 0, 0, 2]⟩, .wake 0] ++
          waitingCall 1 8 20 ++ [.expire 25]),
      o.1.events = [(25, 1)] ∧ o.1.Outstanding 1 ∧ ∃ q ∈ o.1.step .callback,
        q.1.Outstanding 1 ∧ q.1.firing = .idle ∧ q.1.events = [] ∧ ¬ o.1.FiresRight q.1 1) ∧
      ∃ o ∈ run step (start fun _ => 5) (waitingCall 0 7 10 ++ (waitingCall 1 8 10).take 5),
        o.1.phase 1 = .done .rpcClientInternal ∧ o.1.Outstanding 1 :=
  ⟨⟨_, rfl, rfl, rfl, _, rfl, rfl, rfl, rfl, fun h => nomatch (h.hit rfl).2⟩, _, rfl, rfl, rfl⟩

end FlyingKV.Rpc.RpcSys
