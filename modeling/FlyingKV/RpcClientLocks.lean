import FlyingKV.RpcClientTables

set_option autoImplicit false

/-!
# The locks of the clients and of the timer

A handler takes `m_slRpcCtxs` and then the lock of the timer, the timer takes its own lock and
then `m_slRpcCtxs` of the captured client. The two can wait for each other for ever. Runs in
which a firing does not overlap with a handler or with a caller that subscribes are orderly.
-/
namespace FlyingKV.Rpc.RpcSys

variable {s t : RpcSys}

/-- While a handler holds the lock of a client, only its own step changes the tables. -/
theorem held {c : ℕ} {n : ClientNotice} (hn : s.holder c = some n) {e : RpcEvent} (he : e ≠ .handle c)
    {o : Seen} (h : s.step e = some (t, o)) : t.holder c = some n ∧ t.tables c = s.tables c := by
  have hset : ∀ {c' : ℕ}, RpcEvent.handle c' ≠ .handle c → c ≠ c' := by
    rintro c' hne rfl
    exact hne rfl
  cases steps_of_step h with
  | @register k hk hl =>
    have hc : c ≠ (s.info k).client := by
      rintro rfl
      rw [hn] at hl
      exact nomatch hl
    exact ⟨hn, Function.update_of_ne hc _ _⟩
  | @arrive c' n' hl =>
    have hc : c ≠ c' := by
      rintro rfl
      rw [hn] at hl
      exact nomatch hl
    exact ⟨(Function.update_of_ne hc _ _).trans hn, rfl⟩
  | unknown hn' hno => exact ⟨(Function.update_of_ne (hset he) _ _).trans hn, rfl⟩
  | respond hr hk hu =>
    exact ⟨(Function.update_of_ne (hset he) _ _).trans hn, Function.update_of_ne (hset he) _ _⟩
  | @breaks c' peer ks hn' hks =>
    obtain ⟨-, -, -, -, h₅, -, -, h₈⟩ := breakPipe_frame c' ks (some (.worker peer)) s
    refine ⟨(Function.update_of_ne (hset he) _ _).trans ?_, (Function.update_of_ne (hset he) _ _).trans ?_⟩
    · exact (congrFun h₅ c).trans hn
    · exact h₈ c (hset he)
  | @timeout _ _ c' id k _ hf hev hcb hl hk =>
    have hc : c ≠ c' := by
      rintro rfl
      rw [hn] at hl
      exact nomatch hl
    exact ⟨hn, Function.update_of_ne hc _ _⟩
  | _ => exact ⟨hn, rfl⟩

/-! ## The lock inversion -/

/-- The handler of a response holds the lock of client `c` and waits for the timer, whose callback
waits for the lock of `c`. -/
structure Deadlocked (s : RpcSys) (c k : ℕ) (r : Reply) : Prop where
  holder : s.holder c = some (.message r)
  found : (s.tables c).byKey r.id = some k
  event : (s.ctx k).timerEv ≠ 0
  firing : s.firing = .due
  cb : ∃ id, s.cb = some (c, id)
  settled : s.phase k = .waiting ∨ ∃ o, s.phase k = .done o

/-- Neither of the two ever gets on, whatever the other threads do. -/
theorem Deadlocked.step {c k : ℕ} {r : Reply} (h : s.Deadlocked c k r) {e : RpcEvent} {o : Seen}
    (hs : s.step e = some (t, o)) : t.Deadlocked c k r := by
  have he : e ≠ .handle c := by
    rintro rfl
    have hu : s.canUnsubscribe k = false := by
      simp [canUnsubscribe, h.event, h.firing]
    simp [RpcSys.step, h.holder, handleMessage, h.found, hu] at hs
  obtain ⟨hholder, htables⟩ := held h.holder he hs
  have hfound : (t.tables c).byKey r.id = some k := by rw [htables, h.found]
  have hlock : ∀ {c' id'}, s.cb = some (c', id') → s.holder c' ≠ none := by
    intro c' id' hcb hl
    obtain ⟨id, hcb'⟩ := h.cb
    rw [hcb'] at hcb
    cases hcb
    rw [h.holder] at hl
    cases hl
  -- a caller in any other phase is not the one that waits
  have hkeep : ∀ {j : ℕ} {p : Phase}, s.phase j ≠ .waiting → (∀ o, s.phase j ≠ .done o) →
      Function.update s.phase j p k = .waiting ∨ ∃ o, Function.update s.phase j p k = .done o := by
    intro j p hw hd
    have hkj : k ≠ j := by
      rintro rfl
      rcases h.settled with hp | ⟨o, hp⟩
      · exact hw hp
      · exact hd o hp
    rw [Function.update_of_ne hkj]
    exact h.settled
  cases steps_of_step hs with
  | null hj => exact ⟨hholder, hfound, h.event, h.firing, h.cb, hkeep (by simp [hj]) (by simp [hj])⟩
  | send hj => exact ⟨hholder, hfound, h.event, h.firing, h.cb, hkeep (by simp [hj]) (by simp [hj])⟩
  | register hj hl => exact ⟨hholder, hfound, h.event, h.firing, h.cb, hkeep (by simp [hj]) (by simp [hj])⟩
  | initCb hj =>
    obtain ⟨id, hcb⟩ := h.cb
    exact ⟨hholder, hfound, h.event, h.firing, ⟨id, by simp [hcb]⟩, hkeep (by simp [hj]) (by simp [hj])⟩
  | lockMtx hj => exact ⟨hholder, hfound, h.event, h.firing, h.cb, hkeep (by simp [hj]) (by simp [hj])⟩
  | refused hj hev => exact ⟨hholder, hfound, h.event, h.firing, h.cb, hkeep (by simp [hj]) (by simp [hj])⟩
  | subscribe hj hf hev => cases h.firing.symm.trans hf
  | @await j when p hj hp =>
    have hkj : k ≠ j := by
      rintro rfl
      rcases h.settled with hp | ⟨o, hp⟩ <;> simp [hj] at hp
    refine ⟨hholder, hfound, ?_, h.firing, h.cb, hkeep (by simp [hj]) (by simp [hj])⟩
    simpa only [setPhase, setCtx, Function.update_of_ne hkj] using h.event
  | @wake j p hj hp =>
    refine ⟨hholder, hfound, h.event, h.firing, h.cb, ?_⟩
    by_cases hkj : k = j
    · subst hkj
      simp only [setPhase, Function.update_self]
      rcases hp with ⟨-, rfl⟩ | ⟨o, -, -, rfl⟩
      · exact .inl rfl
      · exact .inr ⟨o, rfl⟩
    · simpa only [setPhase, Function.update_of_ne hkj] using h.settled
  | arrive hl => exact ⟨hholder, hfound, h.event, h.firing, h.cb, h.settled⟩
  | unknown hn hno => exact ⟨hholder, hfound, h.event, h.firing, h.cb, h.settled⟩
  | respond hr hk hu => exact ⟨hholder, hfound, h.event, h.firing, h.cb, h.settled⟩
  | @breaks c' peer ks hn hks =>
    obtain ⟨-, h₂, -, h₄, -, h₆, -, -⟩ := breakPipe_frame c' ks (some (.worker peer)) s
    refine ⟨hholder, hfound, ?_, h₄.trans h.firing, ?_, ?_⟩
    · exact (timerEv_breakPipe c' ks _ s k).trans_ne h.event
    · obtain ⟨id, hcb⟩ := h.cb
      exact ⟨id, h₆.trans hcb⟩
    · simp only [setHolder, setTables, h₂]
      exact h.settled
  | @deliver j r' hj =>
    refine ⟨hholder, hfound, ?_, h.firing, h.cb, h.settled⟩
    by_cases hkj : k = j
    · subst hkj
      simpa only [setCtx, Function.update_self] using h.event
    · simpa only [setCtx, Function.update_of_ne hkj] using h.event
  | expire hf hev => cases h.firing.symm.trans hf
  | lapse hf hev hcb hl hk => exact absurd hl (hlock hcb)
  | timeout hf hev hcb hl hk => exact absurd hl (hlock hcb)
  | finish hf => cases h.firing.symm.trans hf

/-! ## Orderly runs -/

/-- The calls that overlap have different ids; a response arrives when its call is registered, if there
is one; no two events have the same time; the callback finds no other call than the one whose event
it is; and a firing does not overlap with a handler or with a caller that subscribes. -/
def Careful (s : RpcSys) : RpcEvent → Prop
  | .send k info => s.DistinctIds (.send k info)
  | .arrive c n => s.firing = .idle ∧ ∀ r, n = .message r →
      ∀ k, s.phase k = .queued → (s.info k).client = c → (s.info k).msgId ≠ r.id
  | .lockMtx _ => s.firing = .idle
  | .subscribe k now => ∀ ev ∈ s.events, ev.1 ≠ now + s.timeout (s.info k).client
  | .expire _ => (∀ c, s.holder c = none) ∧ ∀ k, s.mtxFree k = true
  | .callback => ∀ when i rest, s.events = (when, i) :: rest →
      ∀ c id k, s.cb = some (c, id) → (s.tables c).byKey id = some k → k = i
  | _ => True

theorem Careful.distinctIds {e : RpcEvent} (h : s.Careful e) : s.DistinctIds e := by
  cases e with
  | send k info => exact h
  | _ => trivial

/-- What holds in every state of a careful run. -/
structure Orderly (s : RpcSys) : Prop where
  calm : s.firing ≠ .idle → (∀ c, s.holder c = none) ∧ (∀ k, s.mtxFree k = true) ∧ s.events ≠ []
  captured : s.events ≠ [] → s.cb ≠ none
  ready : ∀ k, s.phase k = .ready ∨ s.phase k = .locked → s.cb ≠ none
  accepted : ∀ k, s.phase k ≠ .done .rpcClientInternal

theorem orderly_start (timeout : ℕ → ℕ) : (start timeout).Orderly :=
  ⟨fun h => absurd rfl h, fun h => absurd rfl h, fun k h => by simp [start] at h, fun k => by simp [start]⟩

theorem Orderly.caller (h : s.Orderly) {k : ℕ} {p : Phase} (hholder : t.holder = s.holder)
    (hfiring : t.firing = s.firing) (hphase : t.phase = Function.update s.phase k p)
    (hmtx : p.holdsMtx = true → s.firing = .idle) (hp : p ≠ .done .rpcClientInternal)
    (hcb : s.cb ≠ none → t.cb ≠ none) (hready : p = .ready ∨ p = .locked → t.cb ≠ none)
    (hev : t.events = s.events ∨ s.firing = .idle ∧ t.cb ≠ none) : t.Orderly := by
  refine ⟨?_, ?_, ?_, ?_⟩
  · intro hf
    rw [hfiring] at hf
    obtain ⟨hl, hm, he⟩ := h.calm hf
    refine ⟨by rw [hholder]; exact hl, fun j => ?_, ?_⟩
    · rw [mtxFree, hphase]
      by_cases hj : j = k
      · have hno : p.holdsMtx ≠ true := fun hp => hf (hmtx hp)
        simpa only [hj, Function.update_self, Bool.not_eq_true', Bool.not_eq_true] using hno
      · rw [Function.update_of_ne hj]
        exact hm j
    · rcases hev with hev | ⟨hidle, -⟩
      · rwa [hev]
      · exact absurd hidle hf
  · intro he
    rcases hev with hev | ⟨-, hcb'⟩
    · exact hcb (h.captured (hev ▸ he))
    · exact hcb'
  · intro j hj
    rw [hphase] at hj
    by_cases hjk : j = k
    · rw [hjk, Function.update_self] at hj
      exact hready hj
    · rw [Function.update_of_ne hjk] at hj
      exact hcb (h.ready j hj)
  · intro j
    rw [hphase]
    by_cases hj : j = k
    · rwa [hj, Function.update_self]
    · rw [Function.update_of_ne hj]
      exact h.accepted j

theorem Orderly.others (h : s.Orderly) (hphase : t.phase = s.phase) (hcb : t.cb = s.cb)
    (hev : t.events ≠ [] → s.events ≠ [])
    (hcalm : t.firing ≠ .idle → (∀ c, t.holder c = none) ∧ (∀ k, s.mtxFree k = true) ∧ t.events ≠ []) :
    t.Orderly := by
  refine ⟨?_, fun he => hcb ▸ h.captured (hev he), ?_, ?_⟩
  · simpa only [mtxFree, hphase] using hcalm
  · intro k hk
    rw [hphase] at hk
    rw [hcb]
    exact h.ready k hk
  · intro k
    rw [hphase]
    exact h.accepted k

theorem Orderly.step (h : s.Orderly) {e : RpcEvent} (hc : s.Careful e) {o : Seen}
    (hs : s.step e = some (t, o)) : t.Orderly := by
  -- a handler is at work only while the timer sleeps
  have hidle : ∀ {c n}, s.holder c = some n → s.firing = .idle := by
    intro c n hn
    by_contra hf
    rw [(h.calm hf).1 c] at hn
    exact nomatch hn
  cases steps_of_step hs with
  | null hk => exact h.caller rfl rfl rfl nofun nofun id nofun (.inl rfl)
  | send hk => exact h.caller rfl rfl rfl nofun nofun id nofun (.inl rfl)
  | register hk hl => exact h.caller rfl rfl rfl nofun nofun id nofun (.inl rfl)
  | initCb hk => exact h.caller rfl rfl rfl nofun nofun (fun _ => nofun) (fun _ => nofun) (.inl rfl)
  | @lockMtx k hk =>
    have hcb := h.ready k (.inl hk)
    exact h.caller rfl rfl rfl (fun _ => hc) nofun id (fun _ => hcb) (.inl rfl)
  | refused hk hev =>
    obtain ⟨ev, hmem, heq⟩ := List.mem_map.mp hev
    exact absurd heq (hc ev hmem)
  | @subscribe k now hk hf hev =>
    have hcb := h.ready k (.inr hk)
    exact h.caller rfl rfl rfl (fun _ => hf) nofun id nofun (.inr ⟨hf, hcb⟩)
  | await hk hp =>
    obtain ⟨hm, hfail, hready, hlocked⟩ := hp.plain
    exact h.caller rfl rfl rfl (by simp [hm]) hfail id (by simp [hready, hlocked]) (.inl rfl)
  | wake hk hp =>
    obtain ⟨hm, hfail, hready, hlocked⟩ := hp.plain
    exact h.caller rfl rfl rfl (by simp [hm]) hfail id (by simp [hready, hlocked]) (.inl rfl)
  | arrive hl => exact h.others rfl rfl id fun hf => absurd hc.1 hf
  | unknown hn hno => exact h.others rfl rfl id fun hf => absurd (hidle hn) hf
  | respond hr hk hu =>
    refine h.others rfl rfl (fun hne heq => ?_) fun hf => absurd (hidle hr) hf
    exact hne (List.sublist_nil.mp (heq ▸ unsubscribeEvent_sublist _ _))
  | @breaks c peer ks hn hks =>
    obtain ⟨-, h₂, -, h₄, -, h₆, -, -⟩ := breakPipe_frame c ks (some (.worker peer)) s
    refine h.others h₂ h₆ (fun hne heq => ?_) fun hf => absurd (h₄.trans (hidle hn)) hf
    exact hne (List.sublist_nil.mp (heq ▸ events_breakPipe_sublist c ks _ s))
  | deliver hk => exact h.others rfl rfl id h.calm
  | expire hf hev => exact h.others rfl rfl id fun _ => ⟨hc.1, hc.2, hev⟩
  | lapse hf hev hcb hl hk =>
    refine h.others rfl rfl (fun _ => ?_) fun hf => absurd rfl hf
    simp [hev]
  | timeout hf hev hcb hl hk => exact h.others rfl rfl id fun _ => h.calm (by simp [hf])
  | finish hf =>
    refine h.others rfl rfl (fun hne heq => ?_) fun hf => absurd rfl hf
    simp [heq] at hne

end FlyingKV.Rpc.RpcSys
