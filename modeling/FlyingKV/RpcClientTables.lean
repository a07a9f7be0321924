import FlyingKV.RpcClientMoves

set_option autoImplicit false

/-!
# The two tables of a client and the completion of a call

The system refines the life of its calls: every step moves each call from its stage to the
same or to the next one, and the stage says which table, list or flag the call is found in.
-/
namespace FlyingKV.Rpc
open CallLife EventRun

def Cause.outcome : Cause → Outcome
  | .response r => r.outcome
  | .brokenPipe => .rpcBrokenPipe
  | .timeout => .rpcClientSendTimeout

/-- The context of a call in a stage. -/
def RpcCtx.Shows (x : RpcCtx) : Stage Cause → Prop
  | .completed (.response r) => x.complete = true ∧ x.state = .Ok ∧ x.nm = some (.message r)
  | .completed .brokenPipe => x.complete = true ∧ x.state = .BrokenPipe
  | .completed .timeout => x.complete = true ∧ x.state = .Timeout
  | _ => x.complete = false ∧ x.state = .Ok ∧ x.nm = none

section
variable {x : RpcCtx} {a : Stage Cause} {p : Phase}

theorem RpcCtx.Shows.complete_iff (h : x.Shows a) : x.complete = true ↔ ∃ cause, a = .completed cause := by
  rcases a with _ | _ | _ | (_ | _ | _) <;> simp_all [RpcCtx.Shows]

theorem RpcCtx.Shows.same {y : RpcCtx} (h : x.Shows a) (hy : y.SameResult x) : y.Shows a := by
  obtain ⟨h₁, h₂, h₃⟩ := hy
  rcases a with _ | _ | _ | (_ | _ | _) <;> simpa only [RpcCtx.Shows, h₁, h₂, h₃] using h

theorem RpcCtx.Shows.outcome (h : x.Shows a) (hx : x.complete = true) {o : Outcome} (ho : x.outcome = some o) :
    ∃ cause, a = .completed cause ∧ cause.outcome = o := by
  obtain ⟨cause, rfl⟩ := h.complete_iff.mp hx
  refine ⟨cause, rfl, ?_⟩
  cases cause with
  | response r => simpa [RpcCtx.outcome, h.2.1, h.2.2, Cause.outcome] using ho
  | brokenPipe => simpa [RpcCtx.outcome, h.2, Cause.outcome] using ho
  | timeout => simpa [RpcCtx.outcome, h.2, Cause.outcome] using ho

/-- A complete context never ends a call in one of the two ways that need no context. -/
theorem RpcCtx.outcome_ne (x : RpcCtx) :
    x.outcome ≠ some .nullptr ∧ x.outcome ≠ some .rpcClientInternal := by
  unfold RpcCtx.outcome
  split
  · simp
  · simp
  · simp only [Reply.outcome, ne_eq, Option.some.injEq]
    split_ifs <;> simp
  · simp

theorem RpcCtx.Leaves.plain (h : x.Leaves p) :
    p.holdsMtx = false ∧ p ≠ .done .rpcClientInternal ∧ p ≠ .ready ∧ p ≠ .locked := by
  rcases h with ⟨-, rfl⟩ | ⟨o, -, ho, rfl⟩
  · exact ⟨rfl, nofun, nofun, nofun⟩
  · refine ⟨rfl, ?_, nofun, nofun⟩
    rintro heq
    cases heq
    exact x.outcome_ne.2 ho

/-- A call is in `sendMessage`. -/
def Phase.InProgress (p : Phase) : Prop := p = .queued ∨ p.Receiving

theorem Phase.Advances.unregistered_iff {q : Phase} (h : p.Advances x q) : q.Unregistered ↔ p.Unregistered := by
  have hrec : ∀ {p : Phase}, p.Receiving → ¬ p.Unregistered := by
    intro p hp
    cases p <;> simp_all [Phase.Receiving, Phase.Unregistered]
  cases h with
  | stay => exact Iff.rfl
  | null => exact Iff.rfl
  | on hp hq => exact iff_of_false (hrec hq) (hrec hp)
  | fail hp => exact iff_of_false id (hrec hp)
  | leave hp hx ho =>
    refine iff_of_false ?_ (hrec hp)
    rename_i o
    have hne : o ≠ .nullptr := by
      rintro rfl
      exact x.outcome_ne.1 ho
    cases o <;> simp_all [Phase.Unregistered]

theorem Phase.Advances.inProgress {q : Phase} (h : p.Advances x q) (hq : q.InProgress) : p.InProgress := by
  cases h with
  | stay => exact hq
  | null => simp [Phase.InProgress, Phase.Receiving] at hq
  | on hp _ => exact .inr hp
  | fail hp => exact .inr hp
  | leave hp => exact .inr hp

end

namespace RpcSys

/-- The context is found under its id. -/
def Outstanding (s : RpcSys) (k : ℕ) : Prop :=
  (s.tables (s.info k).client).byKey (s.info k).msgId = some k

/-- The call has not returned, or its context is still in the tables. -/
def Busy (s : RpcSys) (k : ℕ) : Prop := (s.phase k).InProgress ∨ s.Outstanding k

/-- A call gets an id that no other call of the client has at this time. -/
def DistinctIds (s : RpcSys) : RpcEvent → Prop
  | .send _ info => ∀ j, s.Busy j → (s.info j).client = info.client → (s.info j).msgId ≠ info.msgId
  | _ => True

/-- The tables are keyed by the ids of the contexts in them, agree with each other, and no two busy
calls of a client have the same id. -/
structure Indexed (s : RpcSys) : Prop where
  keyed : ∀ c i k, (s.tables c).byKey i = some k → (s.info k).client = c ∧ (s.info k).msgId = i
  agree : ∀ c, (s.tables c).Agree (fun k => (s.info k).msgId) (fun k => (s.info k).peer)
  unique : ∀ j k, s.Busy j → s.Busy k → (s.info j).client = (s.info k).client →
    (s.info j).msgId = (s.info k).msgId → j = k

/-- Where a call of each stage is found. -/
structure Refines (s : RpcSys) (st : ℕ → Stage Cause) : Prop where
  outstanding : ∀ k, st k = .outstanding ↔ s.Outstanding k
  pending : ∀ k r, (k, r) ∈ s.pending ↔ st k = .claimed (.response r)
  nodup : s.pending.Nodup
  completing : ∀ k, s.firing = .completing k ↔ st k = .claimed .timeout
  unbroken : ∀ k, st k ≠ .claimed .brokenPipe
  shows : ∀ k, (s.ctx k).Shows (st k)
  fresh : ∀ k, st k = .fresh ↔ (s.phase k).Unregistered
  ended : ∀ k o, s.phase k = .done o →
    o = .nullptr ∨ o = .rpcClientInternal ∨ ∃ cause, st k = .completed cause ∧ cause.outcome = o

variable {s t : RpcSys} {st : ℕ → Stage Cause}
variable {c i k : ℕ} {ks : List ℕ} {timeout : ℕ → ℕ}

theorem indexed_start (timeout : ℕ → ℕ) : (start timeout).Indexed where
  keyed _ _ _ h := nomatch h
  agree c := GroupedIndex.agree_empty _ _
  unique j k hj := by
    simp [Busy, start, Phase.InProgress, Phase.Receiving, Outstanding, GroupedIndex.empty] at hj

theorem refines_start (timeout : ℕ → ℕ) : (start timeout).Refines fun _ => .fresh where
  outstanding k := by simp [Outstanding, start, GroupedIndex.empty]
  pending k r := by simp [start]
  nodup := List.nodup_nil
  completing k := by simp [start]
  unbroken k := by simp
  shows k := ⟨rfl, rfl, rfl⟩
  fresh k := by simp [start, Phase.Unregistered]
  ended k o h := nomatch h

/-! ## Which contexts are in the tables -/

theorem Indexed.outstanding (h : s.Indexed) (hk : (s.tables c).byKey i = some k) : s.Outstanding k := by
  obtain ⟨rfl, rfl⟩ := h.keyed c i k hk
  exact hk

theorem Indexed.outstanding_of_mem (h : s.Indexed) {peer : PeerInfo} (hks : (s.tables c).byGroup peer = some ks)
    (hk : k ∈ ks) : s.Outstanding k :=
  h.outstanding ((h.agree c).byKey_of_mem hks hk)

theorem outstanding_remove (h : s.Indexed) (hk : (s.tables c).byKey i = some k) (j : ℕ) :
    (s.remove c k).Outstanding j ↔ j ≠ k ∧ s.Outstanding j := by
  obtain ⟨rfl, rfl⟩ := h.keyed c i k hk
  simp only [Outstanding, remove, setTables]
  by_cases hc : (s.info j).client = (s.info k).client
  · rw [hc, Function.update_self, GroupedIndex.erase]
    by_cases hi : (s.info j).msgId = (s.info k).msgId
    · simp only [hi, Function.update_self, hk, reduceCtorEq, Option.some.injEq, false_iff, not_and]
      intro hne heq
      exact hne heq.symm
    · have hne : j ≠ k := fun heq => hi (by rw [heq])
      simp only [Function.update_of_ne hi, ne_eq, hne, not_false_eq_true, true_and]
  · have hne : j ≠ k := fun heq => hc (by rw [heq])
    simp only [Function.update_of_ne hc, ne_eq, hne, not_false_eq_true, true_and]

theorem Broken.outstanding_iff {peer : PeerInfo} (ht : s.Broken c peer ks t) (h : s.Indexed)
    (hks : (s.tables c).byGroup peer = some ks) (j : ℕ) : t.Outstanding j ↔ j ∉ ks ∧ s.Outstanding j := by
  simp only [Outstanding, ht.info]
  by_cases hc : (s.info j).client = c
  · rw [hc, ht.byKey]
    by_cases hj : j ∈ ks
    · simp only [List.mem_map_of_mem hj, if_true, reduceCtorEq, hj, not_true_eq_false, false_and]
    · simp only [hj, not_false_eq_true, true_and]
      by_cases hi : (s.info j).msgId ∈ ks.map fun k => (s.info k).msgId
      · -- the id belongs to a context of the peer, which is then the one found under it
        simp only [hi, if_true, reduceCtorEq, false_iff]
        obtain ⟨k, hk, heq⟩ := List.mem_map.mp hi
        have hfound := (h.agree c).byKey_of_mem hks hk
        rw [← heq, hfound, Option.some.injEq]
        rintro rfl
        exact hj hk
      · simp only [hi, if_false]
  · have hj : j ∉ ks := by
      intro hj
      exact hc (h.keyed _ _ j ((h.agree c).byKey_of_mem hks hj)).1
    rw [ht.tables _ hc]
    simp only [hj, not_false_eq_true, true_and]

/-! ## The tables -/

/-- Fewer busy calls are still told apart by their ids. -/
theorem Indexed.unique_mono (h : s.Indexed) (hinfo : t.info = s.info)
    (hbusy : ∀ k, t.Busy k → s.Busy k) : ∀ j k, t.Busy j → t.Busy k →
      (t.info j).client = (t.info k).client → (t.info j).msgId = (t.info k).msgId → j = k := by
  intro j k hj hk
  rw [hinfo]
  exact h.unique j k (hbusy j hj) (hbusy k hk)

theorem Indexed.same (h : s.Indexed) (hinfo : t.info = s.info) (htables : t.tables = s.tables)
    (hphase : ∀ k, (t.phase k).InProgress → (s.phase k).InProgress) : t.Indexed where
  keyed := by
    rw [htables, hinfo]
    exact h.keyed
  agree := by
    rw [htables, hinfo]
    exact h.agree
  unique := by
    refine h.unique_mono hinfo ?_
    rintro k (hk | hk)
    · exact .inl (hphase k hk)
    · right
      simpa only [Outstanding, htables, hinfo] using hk

theorem Indexed.send (h : s.Indexed) {k : ℕ} (hk : ¬ s.Outstanding k) {info : CallInfo}
    (hid : s.DistinctIds (.send k info)) :
    Indexed { s.setPhase k .queued with info := Function.update s.info k info } := by
  have hne : ∀ {c i j}, (s.tables c).byKey i = some j → j ≠ k := by
    rintro c i j hj rfl
    exact hk (h.outstanding hj)
  have hout : ∀ {j}, Outstanding { s.setPhase k .queued with info := Function.update s.info k info } j →
      j ≠ k ∧ s.Outstanding j := by
    intro j hj
    have hjk := hne hj
    refine ⟨hjk, ?_⟩
    simpa only [Outstanding, Function.update_of_ne hjk, setPhase] using hj
  refine ⟨?_, ?_, ?_⟩
  · intro c i j hj
    simpa only [Function.update_of_ne (hne hj)] using h.keyed c i j hj
  · intro c
    refine (h.agree c).congr fun g vs v hvs hv => ?_
    have hvk : v ≠ k := hne ((h.agree c).byKey_of_mem hvs hv)
    simp only [Function.update_of_ne hvk, and_self]
  · have hbusy : ∀ j, j ≠ k →
        Busy { s.setPhase k .queued with info := Function.update s.info k info } j → s.Busy j := by
      rintro j hj (hp | ho)
      · left
        simpa only [setPhase, Function.update_of_ne hj] using hp
      · exact .inr (hout ho).2
    intro i j hi hj hclient hmsg
    by_cases hik : i = k
    · by_cases hjk : j = k
      · rw [hik, hjk]
      · simp only [hik, Function.update_self, Function.update_of_ne hjk] at hclient hmsg
        exact absurd hmsg.symm (hid j (hbusy j hjk hj) hclient.symm)
    · by_cases hjk : j = k
      · simp only [hjk, Function.update_self, Function.update_of_ne hik] at hclient hmsg
        exact absurd hmsg (hid i (hbusy i hik hi) hclient)
      · simp only [Function.update_of_ne hik, Function.update_of_ne hjk] at hclient hmsg
        exact h.unique i j (hbusy i hik hi) (hbusy j hjk hj) hclient hmsg

/-- No other context is under the id of a call that comes to register. -/
theorem Indexed.free_of_queued (h : s.Indexed) (hk : s.phase k = .queued) (hout : ¬ s.Outstanding k) :
    (s.tables (s.info k).client).byKey (s.info k).msgId = none := by
  cases hj : (s.tables (s.info k).client).byKey (s.info k).msgId with
  | none => rfl
  | some j =>
    obtain ⟨hclient, hmsg⟩ := h.keyed _ _ j hj
    have hjk := h.unique j k (.inr (h.outstanding hj)) (.inl (.inl hk)) hclient hmsg
    rw [hjk] at hj
    exact absurd hj hout

theorem outstanding_register (hfree : (s.tables (s.info k).client).byKey (s.info k).msgId = none) (j : ℕ) :
    ((s.setTables (s.info k).client ((s.tables (s.info k).client).insert (s.info k).msgId (s.info k).peer
      k)).setPhase k .registered).Outstanding j ↔ j = k ∨ s.Outstanding j := by
  simp only [Outstanding, setPhase, setTables]
  by_cases hc : (s.info j).client = (s.info k).client
  · rw [hc, Function.update_self, GroupedIndex.insert]
    by_cases hi : (s.info j).msgId = (s.info k).msgId
    · simp only [hi, Function.update_self, hfree, Option.some.injEq, reduceCtorEq, or_false]
      exact eq_comm
    · have hne : j ≠ k := fun heq => hi (by rw [heq])
      simp only [Function.update_of_ne hi, hne, false_or]
  · have hne : j ≠ k := fun heq => hc (by rw [heq])
    simp only [Function.update_of_ne hc, hne, false_or]

theorem Indexed.register (h : s.Indexed) {k : ℕ} (hk : s.phase k = .queued)
    (hfree : (s.tables (s.info k).client).byKey (s.info k).msgId = none) :
    ((s.setTables (s.info k).client ((s.tables (s.info k).client).insert (s.info k).msgId (s.info k).peer
      k)).setPhase k .registered).Indexed := by
  refine ⟨?_, ?_, h.unique_mono rfl ?_⟩
  · intro c i j hj
    rcases byKey_register hj with ⟨rfl, hc, hi⟩ | hj
    · exact ⟨hc, hi⟩
    · exact h.keyed c i j hj
  · intro c
    simp only [setPhase, setTables]
    by_cases hc : c = (s.info k).client
    · subst hc
      rw [Function.update_self]
      exact (h.agree _).insert hfree
    · rw [Function.update_of_ne hc]
      exact h.agree c
  · rintro j (hj | hj)
    · by_cases hjk : j = k
      · exact .inl (.inl (hjk ▸ hk))
      · left
        simpa only [setPhase, setTables, Function.update_of_ne hjk] using hj
    · rcases (outstanding_register hfree j).mp hj with rfl | hj
      · exact .inl (.inl hk)
      · exact .inr hj

theorem Indexed.remove (h : s.Indexed) (hk : (s.tables c).byKey i = some k) (hinfo : t.info = s.info)
    (hphase : t.phase = s.phase) (htables : t.tables = (s.remove c k).tables) : t.Indexed := by
  have hout : ∀ j, t.Outstanding j ↔ j ≠ k ∧ s.Outstanding j := by
    intro j
    rw [← outstanding_remove h hk j]
    simp only [Outstanding, hinfo, htables, RpcSys.remove, setTables]
  refine ⟨?_, ?_, h.unique_mono hinfo ?_⟩
  · intro c' i' j hj
    rw [htables] at hj
    rw [hinfo]
    exact h.keyed c' i' j (byKey_remove hj)
  · obtain ⟨rfl, rfl⟩ := h.keyed c i k hk
    intro c'
    rw [hinfo, htables]
    simp only [RpcSys.remove, setTables]
    by_cases hc : c' = (s.info k).client
    · subst hc
      rw [Function.update_self]
      exact (h.agree _).erase hk
    · rw [Function.update_of_ne hc]
      exact h.agree c'
  · rintro j (hj | hj)
    · exact .inl (hphase ▸ hj)
    · exact .inr ((hout j).mp hj).2

theorem Indexed.breaks (h : s.Indexed) {c : ℕ} {peer : PeerInfo} {ks : List ℕ}
    (hks : (s.tables c).byGroup peer = some ks) (ht : s.Broken c peer ks t) : t.Indexed := by
  refine ⟨?_, ?_, h.unique_mono ht.info ?_⟩
  · intro c' i j hj
    rw [ht.info]
    exact h.keyed c' i j (ht.byKey_some hj)
  · intro c'
    rw [ht.info]
    by_cases hc : c' = c
    · subst hc
      have hdrop := (h.agree c').dropGroup hks
        (u := { t.tables c' with byGroup := (s.tables c').byGroup }) rfl ht.byKey
      rw [GroupedIndex.dropGroup] at hdrop
      rwa [← ht.byGroup] at hdrop
    · rw [ht.tables c' hc]
      exact h.agree c'
  · rintro j (hj | hj)
    · exact .inl (ht.phase ▸ hj)
    · exact .inr ((ht.outstanding_iff h hks j).mp hj).2

/-! ## The stages -/

theorem Refines.quiet (h : s.Refines st) (hq : s.Quiet t) : t.Refines st where
  outstanding := by
    simp only [Outstanding, hq.tables, hq.info]
    exact h.outstanding
  pending := by
    rw [hq.pending]
    exact h.pending
  nodup := by
    rw [hq.pending]
    exact h.nodup
  completing k := (hq.completing k).trans (h.completing k)
  unbroken := h.unbroken
  shows k := (h.shows k).same (hq.ctx k)
  fresh k := (h.fresh k).trans (hq.phase k).unregistered_iff.symm
  ended k o hk := by
    have hadv := hq.phase k
    rw [hk] at hadv
    generalize hp : s.phase k = p at hadv
    cases hadv with
    | stay => exact h.ended k o hp
    | null => exact .inl rfl
    | on _ hq => exact hq.elim
    | fail => exact .inr (.inl rfl)
    | leave _ hx ho => exact .inr (.inr ((h.shows k).outcome hx ho))

theorem Refines.not_outstanding_of_fresh (h : s.Refines st) (hk : (s.phase k).Unregistered) :
    ¬ s.Outstanding k := by
  rw [← h.outstanding, (h.fresh k).mpr hk]
  simp

/-- One call gets to the stage `a`; nothing changes for the others. -/
theorem Refines.advance (h : s.Refines st) {a : Stage Cause}
    (hout : ∀ j, t.Outstanding j ↔ if j = k then a = .outstanding else s.Outstanding j)
    (hpending : ∀ j r, (j, r) ∈ t.pending ↔ if j = k then a = .claimed (.response r) else (j, r) ∈ s.pending)
    (hnodup : t.pending.Nodup) (hfiring : ∀ j, t.firing = .completing j ↔
      if j = k then a = .claimed .timeout else s.firing = .completing j) (hbroken : a ≠ .claimed .brokenPipe)
    (hshows : (t.ctx k).Shows a) (hctx : ∀ j, j ≠ k → t.ctx j = s.ctx j) (hreg : ¬ (t.phase k).Unregistered)
    (hfresh : a ≠ .fresh) (hdone : ∀ cause, st k ≠ .completed cause)
    (hphase : ∀ j, t.phase j = s.phase j ∨ j = k ∧ (t.phase k).Receiving) :
    t.Refines (Function.update st k a) := by
  have hother : ∀ j, j ≠ k → t.phase j = s.phase j := by
    intro j hj
    rcases hphase j with heq | ⟨hjk, -⟩
    · exact heq
    · exact absurd hjk hj
  refine ⟨?_, ?_, hnodup, ?_, ?_, ?_, ?_, ?_⟩
  · intro j
    rw [hout j]
    by_cases hj : j = k
    · simp only [hj, Function.update_self, if_true]
    · simp only [hj, Function.update_of_ne hj, if_false, h.outstanding j]
  · intro j r
    rw [hpending j r]
    by_cases hj : j = k
    · simp only [hj, Function.update_self, if_true]
    · simp only [hj, Function.update_of_ne hj, if_false, h.pending j r]
  · intro j
    rw [hfiring j]
    by_cases hj : j = k
    · simp only [hj, Function.update_self, if_true]
    · simp only [hj, Function.update_of_ne hj, if_false, h.completing j]
  · intro j
    by_cases hj : j = k
    · simpa only [hj, Function.update_self] using hbroken
    · simpa only [Function.update_of_ne hj] using h.unbroken j
  · intro j
    by_cases hj : j = k
    · simpa only [hj, Function.update_self] using hshows
    · simpa only [Function.update_of_ne hj, hctx j hj] using h.shows j
  · intro j
    by_cases hj : j = k
    · simpa only [hj, Function.update_self] using iff_of_false hfresh hreg
    · simpa only [Function.update_of_ne hj, hother j hj] using h.fresh j
  · intro j o hjo
    by_cases hj : j = k
    · subst hj
      rcases hphase j with heq | ⟨-, hrec⟩
      · rcases h.ended j o (heq ▸ hjo) with ho | ho | ⟨cause, hcause, -⟩
        · exact .inl ho
        · exact .inr (.inl ho)
        · exact absurd hcause (hdone cause)
      · rw [hjo] at hrec
        exact hrec.elim
    · rw [hother j hj] at hjo
      simpa only [Function.update_of_ne hj] using h.ended j o hjo

theorem Refines.send (hx : s.Indexed) (h : s.Refines st) {k : ℕ} (hk : s.phase k = .idle)
    (info : CallInfo) :
    Refines { s.setPhase k .queued with info := Function.update s.info k info } st := by
  have hfresh : (s.phase k).Unregistered := by rw [hk]; trivial
  have hout : ∀ j, Outstanding { s.setPhase k .queued with info := Function.update s.info k info } j ↔
      s.Outstanding j := by
    intro j
    by_cases hj : j = k
    · subst hj
      refine iff_of_false (fun hj => ?_) (h.not_outstanding_of_fresh hfresh)
      exact h.not_outstanding_of_fresh hfresh (hx.outstanding hj)
    · simp only [Outstanding, Function.update_of_ne hj, setPhase]
  refine ⟨fun j => (h.outstanding j).trans (hout j).symm, h.pending, h.nodup, h.completing, h.unbroken,
    h.shows, ?_, ?_⟩
  · intro j
    by_cases hj : j = k
    · subst hj
      simp only [setPhase, Function.update_self]
      exact iff_of_true ((h.fresh j).mpr hfresh) trivial
    · simpa only [setPhase, Function.update_of_ne hj] using h.fresh j
  · intro j o hjo
    by_cases hj : j = k
    · simp only [hj, setPhase, Function.update_self, reduceCtorEq] at hjo
    · simp only [setPhase, Function.update_of_ne hj] at hjo
      exact h.ended j o hjo

theorem Refines.register (h : s.Refines st) {k : ℕ} (hk : s.phase k = .queued)
    (hfree : (s.tables (s.info k).client).byKey (s.info k).msgId = none) :
    ((s.setTables (s.info k).client ((s.tables (s.info k).client).insert (s.info k).msgId (s.info k).peer
      k)).setPhase k .registered).Refines (Function.update st k .outstanding) := by
  have hst : st k = .fresh := (h.fresh k).mpr (by rw [hk]; trivial)
  refine h.advance ?_ ?_ h.nodup ?_ nofun ?_ (fun _ _ => rfl) ?_ nofun (by simp [hst]) ?_
  · intro j
    rw [outstanding_register hfree]
    by_cases hj : j = k <;> simp [hj]
  · intro j r
    by_cases hj : j = k
    · simp [hj, setPhase, setTables, h.pending, hst]
    · simp [hj, setPhase, setTables]
  · intro j
    by_cases hj : j = k
    · simp [hj, setPhase, setTables, h.completing, hst]
    · simp [hj, setPhase, setTables]
  · have hshows := h.shows k
    rw [hst] at hshows
    exact hshows
  · simp [setPhase, Phase.Unregistered]
  · intro j
    by_cases hj : j = k
    · exact .inr ⟨hj, by simp [setPhase, Phase.Receiving]⟩
    · exact .inl (by simp [setPhase, setTables, hj])

/-- A context is taken out of the tables for a cause. -/
theorem Refines.remove (hx : s.Indexed) (h : s.Refines st) (hk : (s.tables c).byKey i = some k) (cause : Cause)
    (hcause : cause ≠ .brokenPipe) (hinfo : t.info = s.info) (hphase : t.phase = s.phase) (hctx : t.ctx = s.ctx)
    (htables : t.tables = (s.remove c k).tables)
    (hpending : ∀ j r, (j, r) ∈ t.pending ↔ (j = k ∧ cause = .response r) ∨ (j, r) ∈ s.pending)
    (hnodup : t.pending.Nodup)
    (hfiring : ∀ j, t.firing = .completing j ↔ (j = k ∧ cause = .timeout) ∨ s.firing = .completing j) :
    t.Refines (Function.update st k (.claimed cause)) := by
  have hst : st k = .outstanding := (h.outstanding k).mpr (hx.outstanding hk)
  refine h.advance ?_ ?_ hnodup ?_ ?_ ?_ (fun j _ => by rw [hctx]) ?_ nofun (by simp [hst]) ?_
  · intro j
    have hout := outstanding_remove hx hk j
    simp only [Outstanding, RpcSys.remove, setTables] at hout htables
    simp only [Outstanding, hinfo, htables, hout]
    by_cases hj : j = k <;> simp [hj]
  · intro j r
    rw [hpending j r]
    by_cases hj : j = k
    · simp [hj, h.pending, hst]
    · simp [hj]
  · intro j
    rw [hfiring j]
    by_cases hj : j = k
    · simp [hj, h.completing, hst]
    · simp [hj]
  · simpa using hcause
  · have hshows := h.shows k
    rw [hst] at hshows
    rw [hctx]
    exact hshows
  · rw [hphase, ← h.fresh k, hst]
    simp
  · intro j
    exact .inl (by rw [hphase])

theorem Refines.complete (h : s.Refines st) {cause : Cause} (hk : st k = .claimed cause) (hinfo : t.info = s.info)
    (hphase : t.phase = s.phase) (htables : t.tables = s.tables) (hctx : ∀ j, j ≠ k → t.ctx j = s.ctx j)
    (hshows : (t.ctx k).Shows (.completed cause)) (hpending : ∀ j r, (j, r) ∈ t.pending ↔ j ≠ k ∧ (j, r) ∈ s.pending)
    (hnodup : t.pending.Nodup) (hfiring : ∀ j, t.firing = .completing j ↔ j ≠ k ∧ s.firing = .completing j) :
    t.Refines (Function.update st k (.completed cause)) := by
  refine h.advance ?_ ?_ hnodup ?_ nofun hshows hctx ?_ nofun (by simp [hk]) ?_
  · intro j
    simp only [Outstanding, hinfo, htables]
    by_cases hj : j = k
    · have hout : ¬ s.Outstanding k := by
        rw [← h.outstanding, hk]
        simp
      simp only [hj, if_true, reduceCtorEq, iff_false]
      exact hout
    · simp [hj]
  · intro j r
    rw [hpending j r]
    by_cases hj : j = k <;> simp [hj]
  · intro j
    rw [hfiring j]
    by_cases hj : j = k <;> simp [hj]
  · rw [hphase, ← h.fresh k, hk]
    simp
  · intro j
    exact .inl (by rw [hphase])

/-- The reply reaches the context it was taken for. -/
theorem Refines.deliver (h : s.Refines st) {k : ℕ} {r : Reply} (hst : st k = .claimed (.response r)) :
    Refines { s.setCtx k { s.ctx k with complete := true, nm := some (.message r) } with
      pending := s.pending.erase (k, r) } (Function.update st k (.completed (.response r))) := by
  refine h.complete hst rfl rfl rfl ?_ ?_ ?_ (h.nodup.erase _) ?_
  · intro j hj
    exact Function.update_of_ne hj _ _
  · have hshows := h.shows k
    rw [hst] at hshows
    simp only [setCtx, Function.update_self]
    exact ⟨rfl, hshows.2.1, rfl⟩
  · intro j r'
    simp only [h.nodup.mem_erase_iff, ne_eq, Prod.mk.injEq, not_and]
    refine and_congr_left fun hj => ?_
    constructor
    · rintro hne rfl
      rw [h.pending, hst] at hj
      simp only [Stage.claimed.injEq, Cause.response.injEq] at hj
      exact hne rfl hj.symm
    · intro hne heq
      exact absurd heq hne
  · intro j
    simp only [setCtx, h.completing]
    refine ⟨fun hj => ⟨?_, hj⟩, fun hj => hj.2⟩
    rintro rfl
    rw [hst] at hj
    cases hj

theorem Refines.finish (h : s.Refines st) {k : ℕ} {events : List (ℕ × ℕ)} (hk : s.firing = .completing k) :
    Refines { s.setCtx k { s.ctx k with complete := true, state := .Timeout } with events, firing := .idle }
      (Function.update st k (.completed .timeout)) := by
  have hst := (h.completing k).mp hk
  refine h.complete hst rfl rfl rfl ?_ ?_ ?_ h.nodup ?_
  · intro j hj
    exact Function.update_of_ne hj _ _
  · simp only [setCtx, Function.update_self]
    exact ⟨rfl, rfl⟩
  · intro j r
    simp only [setCtx, h.pending]
    refine ⟨fun hj => ⟨?_, hj⟩, fun hj => hj.2⟩
    rintro rfl
    rw [hst] at hj
    cases hj
  · intro j
    simp only [hk, reduceCtorEq, Firing.completing.injEq, false_iff, not_and]
    exact fun hj heq => hj heq.symm

theorem Refines.breaks (hx : s.Indexed) (h : s.Refines st) {c : ℕ} {peer : PeerInfo} {ks : List ℕ}
    (hks : (s.tables c).byGroup peer = some ks) (ht : s.Broken c peer ks t) :
    t.Refines fun k => if k ∈ ks then .completed .brokenPipe else st k := by
  have hst : ∀ k ∈ ks, st k = .outstanding :=
    fun k hk => (h.outstanding k).mpr (hx.outstanding_of_mem hks hk)
  refine ⟨?_, ?_, ht.pending ▸ h.nodup, ?_, ?_, ?_, ?_, ?_⟩
  · intro k
    rw [ht.outstanding_iff hx hks k, ← h.outstanding k]
    by_cases hk : k ∈ ks <;> simp [hk]
  · intro k r
    rw [ht.pending, h.pending]
    by_cases hk : k ∈ ks
    · simp [hk, hst k hk]
    · simp [hk]
  · intro k
    rw [ht.firing, h.completing]
    by_cases hk : k ∈ ks
    · simp [hk, hst k hk]
    · simp [hk]
  · intro k
    by_cases hk : k ∈ ks
    · simp [hk]
    · simpa [hk] using h.unbroken k
  · intro k
    by_cases hk : k ∈ ks
    · simp only [hk, if_true]
      exact ht.broken k hk
    · simpa only [hk, if_false, ht.others k hk] using h.shows k
  · intro k
    rw [ht.phase, ← h.fresh]
    by_cases hk : k ∈ ks
    · simp [hk, hst k hk]
    · simp [hk]
  · intro k o hko
    rw [ht.phase] at hko
    rcases h.ended k o hko with ho | ho | ⟨cause, hcause, ho⟩
    · exact .inl ho
    · exact .inr (.inl ho)
    · refine .inr (.inr ⟨cause, ?_, ho⟩)
      have hk : k ∉ ks := by
        intro hk
        rw [hst k hk] at hcause
        exact nomatch hcause
      simpa only [hk, if_false] using hcause

theorem marksOf_brokenMarks (hks : ks.Nodup) (k : ℕ) : marksOf k (brokenMarks ks) =
    if k ∈ ks then [.removed .brokenPipe, .completed .brokenPipe] else [] := by
  induction ks with
  | nil => rfl
  | cons j ks ih =>
    rw [List.nodup_cons] at hks
    rw [brokenMarks, List.flatMap_cons, marksOf_append]
    change _ ++ marksOf k (brokenMarks ks) = _
    rw [ih hks.2]
    by_cases hk : k = j
    · subst hk
      simp [marksOf, hks.1]
    · have hjk : ¬ j = k := fun heq => hk heq.symm
      simp [marksOf, hk, hjk]

/-- A step keeps the tables in order and moves every call at most to its next stage. -/
theorem step_refines (hx : s.Indexed) (h : s.Refines st) {e : RpcEvent} {o : Seen}
    (hs : s.step e = some (t, o)) (hid : s.DistinctIds e) :
    t.Indexed ∧ ∃ st', t.Refines st' ∧ ∀ k, (st k).Moves (marksOf k o.marks) (st' k) := by
  have hmoves := moves_of_step hs
  generalize o.marks = ms at hmoves
  cases hmoves with
  | quiet hq =>
    exact ⟨hx.same hq.info hq.tables fun k => (hq.phase k).inProgress, st, h.quiet hq, fun k => .stay _⟩
  | @send k info hk =>
    have hout := h.not_outstanding_of_fresh (k := k) (by rw [hk]; trivial)
    exact ⟨hx.send hout hid, st, h.send hx hk info, fun k => .stay _⟩
  | @register k hk =>
    have hunreg : (s.phase k).Unregistered := by rw [hk]; trivial
    have hfree := hx.free_of_queued hk (h.not_outstanding_of_fresh hunreg)
    refine ⟨hx.register hk hfree, _, h.register hk hfree, ?_⟩
    intro j
    by_cases hj : j = k
    · subst hj
      rw [Function.update_self, (h.fresh j).mpr hunreg]
      exact .enter
    · rw [Function.update_of_ne hj]
      exact .stay _
  | @respond c k r events holder hr hk =>
    have hst := (h.outstanding k).mpr (hx.outstanding hk)
    have hnew : (k, r) ∉ s.pending := by
      rw [h.pending, hst]
      simp
    refine ⟨hx.remove hk rfl rfl rfl, _,
      h.remove hx hk (.response r) (fun h => by cases h) rfl rfl rfl rfl ?_ ?_ ?_, ?_⟩
    · intro j r'
      simp only [List.mem_append, List.mem_singleton, Prod.mk.injEq, Cause.response.injEq]
      rw [or_comm, eq_comm (a := r)]
    · rw [← List.concat_eq_append]
      exact h.nodup.concat hnew
    · intro j
      simp [RpcSys.remove, setTables]
    · exact Stage.Moves.update (by rw [hst]; exact .claim _)
  | @timeout c id k hk hf =>
    have hst := (h.outstanding k).mpr (hx.outstanding hk)
    refine ⟨hx.remove hk rfl rfl rfl, _, h.remove hx hk .timeout (fun h => by cases h) rfl rfl rfl rfl ?_ h.nodup ?_, ?_⟩
    · intro j r
      simp [RpcSys.remove, setTables]
    · intro j
      simp [hf, eq_comm]
    · exact Stage.Moves.update (by rw [hst]; exact .claim _)
  | @breaks c peer ks t hks ht =>
    refine ⟨hx.breaks hks ht, _, h.breaks hx hks ht, ?_⟩
    intro k
    rw [marksOf_brokenMarks ((hx.agree c).nodup _ _ hks)]
    by_cases hk : k ∈ ks
    · simp only [hk, if_true, (h.outstanding k).mpr (hx.outstanding_of_mem hks hk)]
      exact .settle _
    · simp only [hk, if_false]
      exact .stay _
  | @deliver k r hk =>
    have hst := (h.pending k r).mp hk
    exact ⟨hx.same rfl rfl fun _ hj => hj, _, h.deliver hst, Stage.Moves.update (by rw [hst]; exact .complete _)⟩
  | @finish k events hk =>
    have hst := (h.completing k).mp hk
    exact ⟨hx.same rfl rfl fun _ hj => hj, _, h.finish hk, Stage.Moves.update (by rw [hst]; exact .complete _)⟩

/-! ## Runs -/

/-- The marks a call has got. -/
def life (k : ℕ) (os : List Seen) : List (Mark Cause) := marksOf k (os.flatMap Seen.marks)

/-- The stages reached in a run account for all marks. -/
theorem run_refines {es : List RpcEvent} {os : List Seen} (hid : Along step DistinctIds (start timeout) es)
    (hrun : run step (start timeout) es = some (s, os)) :
    s.Indexed ∧ ∃ st, s.Refines st ∧ ∀ k, (st k).history = life k os := by
  have hinv := run_invariant
    (I := fun u tr => u.Indexed ∧ ∃ st, u.Refines st ∧ ∀ k, (st k).history = life k (tr.map Prod.snd))
    ?_ [] ⟨indexed_start timeout, _, refines_start timeout, fun _ => rfl⟩ hid hrun
  · rw [List.nil_append, List.map_snd_zip (length_run hrun).le] at hinv
    exact hinv
  · rintro u tr e v o ⟨hx, st, h, hlife⟩ he hstep
    obtain ⟨hx', st', h', hmoves⟩ := step_refines hx h hstep he
    refine ⟨hx', st', h', fun k => ?_⟩
    rw [(hmoves k).history, hlife k]
    simp only [life, List.map_append, List.map_cons, List.map_nil, List.flatMap_append, List.flatMap_cons,
      List.flatMap_nil, List.append_nil, marksOf_append]

/-- In every run in which calls that overlap have different ids: the two tables of each client hold
the same contexts, no peer has an empty set, and a context is completed at most once, for the cause
that it was taken out of the tables for. -/
theorem tables_agree_and_completed_once (timeout : ℕ → ℕ) {es : List RpcEvent} {os : List Seen}
    (hid : Along step DistinctIds (start timeout) es) (hrun : run step (start timeout) es = some (s, os)) :
    (∀ c id k, (s.tables c).byKey id = some k ↔
        (∃ ks, (s.tables c).byGroup (s.info k).peer = some ks ∧ k ∈ ks) ∧ (s.info k).msgId = id) ∧
      (∀ c peer, (s.tables c).byGroup peer ≠ some []) ∧
      ∀ k, (life k os = [] ∨ ∃ cause, life k os = [.removed cause] ∨
          life k os = [.removed cause, .completed cause]) ∧
        ((s.ctx k).complete = true ↔ ∃ cause, .completed cause ∈ life k os) := by
  obtain ⟨hx, st, h, hlife⟩ := run_refines hid hrun
  refine ⟨fun c => (hx.agree c).byKey_iff, fun c => (hx.agree c).ne_nil, fun k => ?_⟩
  rw [(h.shows k).complete_iff, ← hlife k]
  cases st k with
  | fresh => simp [Stage.history]
  | outstanding => simp [Stage.history]
  | claimed cause => simp [Stage.history]
  | completed cause => simp [Stage.history]

theorem distinctIds_start (timeout : ℕ → ℕ) (e : RpcEvent) : (start timeout).DistinctIds e := by
  cases e with
  | send k info =>
    intro j hj
    simp [Busy, start, Phase.InProgress, Phase.Receiving, Outstanding, GroupedIndex.empty] at hj
  | _ => trivial

theorem distinctIds_second {j : ℕ} {info info' : CallInfo} (hne : info.msgId ≠ info'.msgId) {o : RpcSys × Seen}
    (ho : (start timeout).step (.send k info) = some o) : o.1.DistinctIds (.send j info') := by
  intro a ha _
  by_cases hak : a = k
  · subst hak
    simp only [step, sendStep, start, ne_eq, not_true_eq_false, if_false] at ho
    split_ifs at ho with hzero
    · cases ho
      simp [Busy, setPhase, Phase.InProgress, Phase.Receiving, Outstanding, GroupedIndex.empty] at ha
    · cases ho
      simpa using hne
  · simp only [step, sendStep, start, ne_eq, not_true_eq_false, if_false] at ho
    split_ifs at ho <;> cases ho <;>
      simp [Busy, setPhase, Function.update_of_ne hak, Phase.InProgress, Phase.Receiving, Outstanding,
        GroupedIndex.empty] at ha

theorem along_distinctIds {j : ℕ} {info info' : CallInfo} (hne : info.msgId ≠ info'.msgId) {es : List RpcEvent}
    (hes : ∀ e ∈ es, ∀ j i, e ≠ .send j i) :
    Along step DistinctIds (start timeout) (.send k info :: .send j info' :: es) := by
  refine ⟨distinctIds_start timeout _, fun o ho => ⟨distinctIds_second hne ho, fun o' _ => along_of_forall ?_ o'.1⟩⟩
  intro e he u
  cases e with
  | send j i => exact absurd rfl (hes _ he j i)
  | _ => trivial

def peer : PeerInfo := ⟨"10.0.0.1", 2350, .tcp⟩

/-- Two calls that overlap; the response to the second one comes first. -/
def overlappingCalls : List RpcEvent :=
  [.send 0 ⟨0, peer, 7⟩, .send 1 ⟨0, peer, 8⟩, .register 0, .register 1, .arrive 0 (.message ⟨8, [0, 0, 0, 2]⟩),
    .handle 0, .deliver 1 ⟨8, [0, 0, 0, 2]⟩]

theorem tables_agree_and_completed_once_overlapping :
    ∃ o ∈ run step (start fun _ => 5) overlappingCalls,
      (∃ ks, (o.1.tables 0).byGroup peer = some ks ∧ 0 ∈ ks ∧ 1 ∉ ks) ∧ life 0 o.2 = [] ∧
        (o.1.ctx 1).complete = true ∧ ∃ cause, .completed cause ∈ life 1 o.2 := by
  have hdone : ∃ o ∈ run step (start fun _ => 5) overlappingCalls, (o.1.tables 0).byKey 7 = some 0 ∧
      (o.1.tables 0).byKey 8 = none ∧ o.1.info 0 = ⟨0, peer, 7⟩ ∧ o.1.info 1 = ⟨0, peer, 8⟩ ∧
      life 0 o.2 = [] ∧ (o.1.ctx 1).complete = true :=
    ⟨_, rfl, rfl, rfl, rfl, rfl, rfl, rfl⟩
  obtain ⟨o, ho, h7, h8, hinfo, hinfo', hnone, hcomplete⟩ := hdone
  have hid : Along step DistinctIds (start fun _ => 5) overlappingCalls := along_distinctIds (by decide) (by simp)
  obtain ⟨hagree, -, hlife⟩ := tables_agree_and_completed_once (fun _ => 5) hid ho
  obtain ⟨⟨ks, hks, hmem⟩, -⟩ := (hagree 0 7 0).mp h7
  rw [hinfo] at hks
  refine ⟨o, ho, ⟨ks, hks, hmem, fun hin => ?_⟩, hnone, hcomplete, (hlife 1).2.mp hcomplete⟩
  have hfound := (hagree 0 8 1).mpr (by rw [hinfo']; exact ⟨⟨ks, hks, hin⟩, rfl⟩)
  rw [h8] at hfound
  cases hfound

/-- A call gets an id that no call of the client has which has not returned. -/
def ConcurrentIds (s : RpcSys) : RpcEvent → Prop
  | .send _ info => ∀ j, (s.phase j).InProgress → (s.info j).client = info.client → (s.info j).msgId ≠ info.msgId
  | _ => True

/-- The timers of the calls 0 and 1 are set in the same nanosecond. Call 1 returns with an exception and leaves
its context in the tables; call 2 is made then and gets the id of call 1. -/
def refusedCall : List RpcEvent :=
  [.send 0 ⟨0, peer, 6⟩, .send 1 ⟨0, peer, 7⟩, .register 0, .initCb 0, .lockMtx 0, .subscribe 0 10, .await 0,
    .register 1, .initCb 1, .lockMtx 1, .subscribe 1 10, .send 2 ⟨0, peer, 7⟩, .register 2]

/-- The table by id has lost the context of call 1, and the set of the peer still has it. -/
theorem tables_disagree_after_refused_call :
    Along step ConcurrentIds (start fun _ => 5) refusedCall ∧
    ∃ o ∈ run step (start fun _ => 5) refusedCall, o.1.phase 1 = .done .rpcClientInternal ∧
      (o.1.tables 0).byKey 7 = some 2 ∧ (o.1.tables 0).byGroup peer = some [2, 1, 0] ∧
      o.1.info 1 = ⟨0, peer, 7⟩ := by
  have hfirst : Along step ConcurrentIds (start fun _ => 5) (refusedCall.take 11) := by
    refine ⟨fun j hj => distinctIds_start _ (.send 0 _) j (.inl hj), fun o ho => ⟨fun j hj =>
      distinctIds_second (by decide) ho (j := 1) j (.inl hj), fun o' _ => along_of_forall ?_ o'.1⟩⟩
    intro e he u
    cases e with
    | send j i => simp at he
    | _ => trivial
  -- when call 2 is made, only call 0 has not returned
  have hreached : ∃ o, run step (start fun _ => 5) (refusedCall.take 11) = some o ∧
      (∀ j, o.1.phase j = if j = 0 then .waiting else if j = 1 then .done .rpcClientInternal else .idle) ∧
      (o.1.info 0).msgId = 6 := by
    refine ⟨_, rfl, fun j => ?_, rfl⟩
    match j with
    | 0 => rfl
    | 1 => rfl
    | _ + 2 => rfl
  obtain ⟨⟨u, rs⟩, hrun, hphase, hid⟩ := hreached
  refine ⟨hfirst.append hrun ⟨fun j hj _ => ?_, fun o _ => ⟨trivial, fun _ _ => trivial⟩⟩, _, rfl, rfl, rfl, rfl, rfl⟩
  rw [hphase] at hj
  split_ifs at hj with h0 h1
  · rw [h0, hid]
    decide
  · simp [Phase.InProgress, Phase.Receiving] at hj
  · simp [Phase.InProgress, Phase.Receiving] at hj

end RpcSys

end FlyingKV.Rpc
