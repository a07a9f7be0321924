import FlyingKV.EventRun

set_option autoImplicit false

/-!
# `ResourcePool`

Resources are pointers. A caller may put back what it holds, and `new` returns what nobody has.
-/
namespace FlyingKV.Common
open EventRun

/-- `held` are the resources in the hands of callers. -/
structure ResourcePool where
  maxResCnt : UInt32
  curResCnt : UInt32
  freeRes : List ℕ
  held : List ℕ
deriving DecidableEq, Repr

/-- `fresh` is what `new T()` returns, if it is called. -/
inductive PoolCall where
  | get (fresh : ℕ)
  | put (res : ℕ)
deriving DecidableEq, Repr

namespace ResourcePool

def construct (maxResCnt : UInt32) : ResourcePool := ⟨maxResCnt, 0, [], []⟩

def get (s : ResourcePool) (fresh : ℕ) : Option (ResourcePool × ℕ) :=
  if s.curResCnt = 0 then some ({ s with held := fresh :: s.held }, fresh)
  else
    match s.freeRes with
    | [] => none
    | res :: freeRes => some ({ s with freeRes := freeRes, held := res :: s.held }, res)

/-- A null pointer fails the assertion. -/
def put (s : ResourcePool) (res : ℕ) : Option ResourcePool :=
  if res = 0 then none
  else if s.curResCnt < s.maxResCnt then
    some { s with freeRes := s.freeRes ++ [res], held := s.held.erase res }
  else some { s with held := s.held.erase res }

def count (s : ResourcePool) : UInt32 := s.curResCnt

def empty (s : ResourcePool) : Bool := s.curResCnt = 0

/-- The reply is the resource that was handed out. -/
def step (s : ResourcePool) : PoolCall → Option (ResourcePool × Option ℕ)
  | .get fresh => (s.get fresh).map fun o => (o.1, some o.2)
  | .put res => (s.put res).map fun u => (u, none)

/-- What callers and the allocator do. -/
def Legal (s : ResourcePool) : PoolCall → Prop
  | .get fresh => fresh ≠ 0 ∧ fresh ∉ s.freeRes ∧ fresh ∉ s.held
  | .put res => res ≠ 0 ∧ res ∈ s.held

instance decidableLegal (s : ResourcePool) : ∀ c, Decidable (s.Legal c)
  | .get _ => inferInstanceAs (Decidable (_ ∧ _))
  | .put _ => inferInstanceAs (Decidable (_ ∧ _))

/-- Counter and list agree. -/
structure Accounted (s : ResourcePool) : Prop where
  count : s.count.toNat = s.freeRes.length
  bound : s.count ≤ s.maxResCnt
  empty : s.empty = true ↔ s.freeRes = []

/-- What a reply may be: a free resource if there is one, and none that somebody holds. -/
def Fair (s : ResourcePool) (reply : Option ℕ) : Prop :=
  ∀ res ∈ reply, (s.freeRes ≠ [] → res ∈ s.freeRes) ∧ res ∉ s.held

def Sound (s : ResourcePool) (c : PoolCall) : Prop :=
  ∃ o, s.step c = some o ∧ o.1.Accounted ∧ s.Fair o.2

/-! ## No two holders -/

/-- Every resource is in one place. -/
def Apart (s : ResourcePool) : Prop := s.curResCnt = 0 ∧ (s.held ++ s.freeRes).Nodup

theorem Apart.step {s u : ResourcePool} {c : PoolCall} {reply : Option ℕ} (hs : s.Apart) (hc : s.Legal c)
    (h : s.step c = some (u, reply)) : u.Apart ∧ ∀ res ∈ reply, res ∉ s.held := by
  obtain ⟨hcur, hnodup⟩ := hs
  cases c with
  | get fresh =>
    obtain ⟨-, hfree, hheld⟩ := hc
    rw [ResourcePool.step, get, if_pos hcur] at h
    cases h
    refine ⟨⟨hcur, ?_⟩, ?_⟩
    · exact List.nodup_cons.mpr ⟨fun hmem => (List.mem_append.mp hmem).elim hheld hfree, hnodup⟩
    · rintro res ⟨⟩
      exact hheld
  | put res =>
    obtain ⟨hne, hmem⟩ := hc
    have hperm : (s.held.erase res ++ (s.freeRes ++ [res])).Perm (s.held ++ s.freeRes) := by
      rw [← List.append_assoc]
      refine (List.perm_append_singleton _ _).trans ?_
      exact ((List.perm_cons_erase hmem).symm.append_right s.freeRes)
    simp only [ResourcePool.step, put, if_neg hne] at h
    split_ifs at h
    · cases h
      exact ⟨⟨hcur, hperm.nodup_iff.mpr hnodup⟩, nofun⟩
    · cases h
      refine ⟨⟨hcur, hnodup.sublist ?_⟩, nofun⟩
      exact (List.erase_sublist.append_right _)

/-- The last part of the accounting does hold: in every run nobody gets what another one holds. -/
theorem run_apart {n : UInt32} {calls : List PoolCall} {s : ResourcePool} {replies : List (Option ℕ)}
    (hcalls : Along step Legal (construct n) calls) (hrun : run step (construct n) calls = some (s, replies)) :
    (s.held ++ s.freeRes).Nodup := by
  have hstart : (construct n).Apart := ⟨rfl, List.nodup_nil⟩
  have hend := run_invariant (I := fun (s : ResourcePool) _ => s.Apart)
    (fun _ _ _ _ _ hs hc h => (hs.step hc h).1) [] hstart hcalls hrun
  exact hend.2

/-! ## The counter -/

/-- Nothing has been kept so far. -/
def Unused (n : UInt32) (s : ResourcePool) : Prop := s.maxResCnt = n ∧ s.curResCnt = 0 ∧ s.freeRes = []

theorem unused_get {n : UInt32} {s : ResourcePool} (hs : Unused n s) (fresh : ℕ) :
    ∃ u, s.step (.get fresh) = some (u, some fresh) ∧ Unused n u := by
  obtain ⟨hmax, hcur, hfree⟩ := hs
  refine ⟨{ s with held := fresh :: s.held }, ?_, hmax, hcur, hfree⟩
  rw [step, get, if_pos hcur, Option.map_some]

theorem Unused.accounted {n : UInt32} {s : ResourcePool} (hs : Unused n s) : s.Accounted := by
  obtain ⟨hmax, hcur, hfree⟩ := hs
  refine ⟨?_, ?_, ?_⟩
  · rw [count, hcur, hfree]
    rfl
  · rw [count, hcur, UInt32.le_iff_toNat_le]
    exact Nat.zero_le _
  · exact iff_of_true (decide_eq_true hcur) hfree

/-- The accounting holds all along just when nothing may be kept or nothing is put back. -/
theorem pool_accounted_iff {n : UInt32} {calls : List PoolCall} (hcalls : Along step Legal (construct n) calls) :
    Along step Sound (construct n) calls ↔ n = 0 ∨ ∀ res, PoolCall.put res ∉ calls := by
  have hstart : Unused n (construct n) := ⟨rfl, rfl, rfl⟩
  generalize construct n = s at hcalls hstart ⊢
  induction calls generalizing s with
  | nil => exact iff_of_true trivial (.inr fun _ => List.not_mem_nil)
  | cons c calls ih =>
    obtain ⟨hlegal, hrest⟩ := hcalls
    cases c with
    | get fresh =>
      obtain ⟨u, hstep, hu⟩ := unused_get hstart fresh
      have hsound : s.Sound (.get fresh) := by
        refine ⟨_, hstep, hu.accounted, ?_⟩
        rintro res ⟨⟩
        exact ⟨fun hne => absurd hstart.2.2 hne, hlegal.2.2⟩
      have hiff : Along step Sound u calls ↔ n = 0 ∨ ∀ res, PoolCall.put res ∉ calls := ih u (hrest _ hstep) hu
      simp only [List.mem_cons, reduceCtorEq, false_or]
      constructor
      · intro h
        exact hiff.mp (h.2 _ hstep)
      · intro h
        replace h := hiff.mpr h
        refine ⟨hsound, fun o ho => ?_⟩
        obtain rfl := Option.some.inj (hstep.symm.trans ho)
        exact h
    | put res =>
      obtain ⟨hmax, hcur, hfree⟩ := hstart
      by_cases hzero : n = 0
      · have hstep : s.step (.put res) = some ({ s with held := s.held.erase res }, none) := by
          rw [step, put, if_neg hlegal.1, if_neg (by rw [hcur, hmax, hzero]; decide), Option.map_some]
        have hu : Unused n { s with held := s.held.erase res } := ⟨hmax, hcur, hfree⟩
        refine iff_of_true ⟨⟨_, hstep, hu.accounted, nofun⟩, fun o ho => ?_⟩ (.inl hzero)
        obtain rfl := Option.some.inj (hstep.symm.trans ho)
        exact (ih _ (hrest _ hstep) hu).mpr (.inl hzero)
      · -- one resource in the list, and a count of 0
        refine iff_of_false (fun h => ?_) fun h => h.elim hzero fun h => h res List.mem_cons_self
        obtain ⟨o, ho, haccounted, -⟩ := h.1
        have hlt : s.curResCnt < s.maxResCnt := by
          rw [hcur, hmax]
          exact UInt32.pos_iff_ne_zero.mpr hzero
        rw [step, put, if_neg hlegal.1, if_pos hlt] at ho
        cases ho
        have hcount := haccounted.count
        rw [count, hcur, hfree] at hcount
        cases hcount

/-- Two resources are taken and none is put back; one is put back to a pool that is to keep none. -/
theorem pool_accounted_two :
    (Along step Legal (construct 200) [.get 8, .get 16] ∧ Along step Sound (construct 200) [.get 8, .get 16]) ∧
      Along step Legal (construct 0) [.get 8, .put 8, .get 16] ∧
      Along step Sound (construct 0) [.get 8, .put 8, .get 16] := by
  have htaken : Along step Legal (construct 200) [.get 8, .get 16] := by decide
  have hput : Along step Legal (construct 0) [.get 8, .put 8, .get 16] := by decide
  exact ⟨⟨htaken, (pool_accounted_iff htaken).mpr (.inr (by simp))⟩, hput, (pool_accounted_iff hput).mpr (.inl rfl)⟩

/-- A resource is put back: the count stays 0, and the next caller gets a new one. -/
theorem pool_drifts :
    Along step Legal (construct 200) [.get 8, .put 8, .get 16] ∧
    (run step (construct 200) [.get 8, .put 8, .get 16]).map (fun o => (o.1.count, o.1.freeRes, o.2)) =
      some (0, [8], [some 8, none, some 16]) := by
  decide

end ResourcePool

end FlyingKV.Common
