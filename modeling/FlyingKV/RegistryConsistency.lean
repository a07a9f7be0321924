import FlyingKV.KeyIndex
import FlyingKV.UniqueWorkerManager

set_option autoImplicit false

/-!
# The three maps of the registry

`PutWorkerEventHandler`, `Disconnect` and `on_finish` in any order. An address may be used again
by a later handler, so a handler is its address with its two peers.
-/
namespace FlyingKV.Net
open EventRun KeyIndex

/-- An `AFileEventHandler`: where it is and what its socket descriptor says. -/
structure EventHandler where
  address : ℕ
  logicPeer : NetAddr
  realPeer : NetAddr
deriving DecidableEq, Repr

inductive RegistryOp where
  | put (h : EventHandler)
  | disconnect (logicNpt : NetAddr)
  | onFinish (h : EventHandler)
deriving DecidableEq, Repr

/-- The registry, with the handlers that were entered in `m_hmap_workers` and not taken out since. -/
structure Registry where
  manager : UniqueWorkerManager
  registered : List EventHandler

namespace Registry

def empty : Registry := ⟨.empty, []⟩

/-- The handlers behind a removal that returned `removed`. -/
def without (s : Registry) (lnpt : NetAddr) (removed : Option ℕ) : List EventHandler :=
  if removed.isSome then s.registered.filter (·.logicPeer ≠ lnpt) else s.registered

/-- One operation, with the handler that the registry gives back. -/
def step (s : Registry) : RegistryOp → Option (Registry × Option ℕ)
  | .put h =>
    let put := s.manager.putWorkerEventHandler h.address h.logicPeer h.realPeer
    some (⟨put.1, if put.2 then h :: s.registered else s.registered⟩, none)
  | .disconnect lnpt =>
    let removed := s.manager.removeWorkerEventHandler lnpt
    some (⟨removed.1, s.without lnpt removed.2⟩, removed.2)
  | .onFinish h =>
    let removed := s.manager.removeFinished h.logicPeer h.realPeer
    some (⟨removed.1, s.without h.logicPeer removed.2⟩, removed.2)

/-- The maps from logic to real peers and back are those of the registered handlers, and the real
peer of each of them is known. -/
structure Tracks (s : Registry) : Prop where
  workers : Indexes s.manager.workers EventHandler.logicPeer EventHandler.address s.registered
  rpLp : Indexes s.manager.rpLp EventHandler.realPeer EventHandler.logicPeer s.registered
  handlerRp : ∀ h ∈ s.registered, s.manager.handlerRp h.address = some h.realPeer

/-- All three maps describe the registered handlers. -/
structure Consistent (s : Registry) : Prop where
  workers : Indexes s.manager.workers EventHandler.logicPeer EventHandler.address s.registered
  rpLp : Indexes s.manager.rpLp EventHandler.realPeer EventHandler.logicPeer s.registered
  handlerRp : Indexes s.manager.handlerRp EventHandler.address EventHandler.realPeer s.registered

/-- Handlers that are registered at one time have different real peers. -/
def Apart (s : Registry) : RegistryOp → Prop
  | .put h => s.manager.workers h.logicPeer = none → ∀ d ∈ s.registered, d.realPeer ≠ h.realPeer
  | .disconnect _ => True
  | .onFinish _ => True

instance (s : Registry) : ∀ op, Decidable (s.Apart op)
  | .put h => inferInstanceAs (Decidable (s.manager.workers h.logicPeer = none → _))
  | .disconnect _ => isTrue trivial
  | .onFinish _ => isTrue trivial

/-- What `on_finish` removes is the handler that it releases. -/
def OwnOnly (s : Registry) (op : RegistryOp) (removed : Option ℕ) : Prop :=
  ∀ h a, op = .onFinish h → removed = some a → a = h.address ∧ h ∈ s.registered

/-- The operation leaves the maps consistent, and `on_finish` removes its own handler if any. -/
def Sound (s : Registry) (op : RegistryOp) : Prop :=
  ∀ o ∈ s.step op, o.1.Consistent ∧ s.OwnOnly op o.2

/-- No registered handler is at the address of one that is entered, and none has the real peer
with which `on_finish` is called. -/
def Spared (s : Registry) : RegistryOp → Prop
  | .put h => s.manager.workers h.logicPeer = none → ∀ d ∈ s.registered, d.address ≠ h.address
  | .disconnect _ => True
  | .onFinish h => s.manager.rpLp h.realPeer = none

instance (s : Registry) : ∀ op, Decidable (s.Spared op)
  | .put h => inferInstanceAs (Decidable (s.manager.workers h.logicPeer = none → _))
  | .disconnect _ => isTrue trivial
  | .onFinish h => inferInstanceAs (Decidable (s.manager.rpLp h.realPeer = none))

theorem consistent_empty : empty.Consistent :=
  ⟨indexes_nil _ _, indexes_nil _ _, indexes_nil _ _⟩

theorem Consistent.tracks {s : Registry} (h : s.Consistent) : s.Tracks :=
  ⟨h.workers, h.rpLp, fun _ hd => h.handlerRp.apply hd⟩

section
variable {s : Registry}
variable {h d : EventHandler} {lnpt : NetAddr} {o : Registry × Option ℕ}

/-- A registered handler is known by its real peer. -/
theorem Tracks.logicPeer_eq_iff (hs : s.Tracks) (hh : h ∈ s.registered) (hd : d ∈ s.registered) :
    h.logicPeer = d.logicPeer ↔ h.realPeer = d.realPeer := by
  constructor
  · intro heq
    have haddress := hs.workers.val_eq hh hd heq
    have hreal := hs.handlerRp h hh
    rw [haddress, hs.handlerRp d hd] at hreal
    exact (Option.some.inj hreal).symm
  · exact hs.rpLp.val_eq hh hd

theorem Tracks.logicPeer_eq_iff_address (hs : s.Tracks) (hh : h ∈ s.registered) (hd : d ∈ s.registered) :
    h.logicPeer = d.logicPeer ↔ h.address = d.address := by
  constructor
  · exact hs.workers.val_eq hh hd
  · intro heq
    have hreal := hs.handlerRp h hh
    rw [heq, hs.handlerRp d hd] at hreal
    exact (hs.logicPeer_eq_iff hh hd).mpr (Option.some.inj hreal).symm

theorem mem_without (a : ℕ) : h ∈ s.without lnpt (some a) ↔ h ∈ s.registered ∧ h.logicPeer ≠ lnpt := by
  simp [without]

/-! ## What the operations do -/

theorem step_put_refused (hw : s.manager.workers h.logicPeer ≠ none) : s.step (.put h) = some (s, none) := by
  obtain ⟨a, ha⟩ := Option.ne_none_iff_exists'.mp hw
  simp [step, UniqueWorkerManager.putWorkerEventHandler, ha]

theorem step_put_entered (hw : s.manager.workers h.logicPeer = none) :
    s.step (.put h) = some (⟨⟨Function.update s.manager.workers h.logicPeer (some h.address),
      Function.update s.manager.rpLp h.realPeer (some h.logicPeer),
      Function.update s.manager.handlerRp h.address (some h.realPeer)⟩, h :: s.registered⟩, none) := by
  simp [step, UniqueWorkerManager.putWorkerEventHandler, hw]

theorem step_disconnect_none (hw : s.manager.workers lnpt = none) :
    s.step (.disconnect lnpt) = some (s, none) := by
  simp [step, UniqueWorkerManager.removeWorkerEventHandler, hw, without]

theorem Tracks.step_disconnect (hs : s.Tracks) (hd : d ∈ s.registered) :
    s.step (.disconnect d.logicPeer) = some (⟨⟨Function.update s.manager.workers d.logicPeer none,
      Function.update s.manager.rpLp d.realPeer none, Function.update s.manager.handlerRp d.address none⟩,
      s.without d.logicPeer (some d.address)⟩, some d.address) := by
  simp only [step, UniqueWorkerManager.removeWorkerEventHandler, hs.workers.apply hd, hs.handlerRp d hd,
    Option.getD_some]

theorem step_onFinish_none (hrp : s.manager.rpLp h.realPeer = none) :
    s.step (.onFinish h) = some (s, none) := by
  simp [step, UniqueWorkerManager.removeFinished, hrp, without]

theorem Tracks.step_onFinish (hs : s.Tracks) (hh : h ∈ s.registered) :
    s.step (.onFinish h) = some (⟨⟨Function.update s.manager.workers h.logicPeer none,
      Function.update s.manager.rpLp h.realPeer none, s.manager.handlerRp⟩,
      s.without h.logicPeer (some h.address)⟩, some h.address) := by
  simp only [step, UniqueWorkerManager.removeFinished, hs.workers.apply hh, hs.rpLp.apply hh]

/-- `on_finish` with a real peer that is known forgets it and keeps the map of the handlers. -/
theorem step_onFinish_some (hrp : s.manager.rpLp h.realPeer ≠ none) :
    ∃ o, s.step (.onFinish h) = some o ∧ o.1.manager.rpLp h.realPeer = none ∧
      o.1.manager.handlerRp = s.manager.handlerRp := by
  obtain ⟨lnpt, hlnpt⟩ := Option.ne_none_iff_exists'.mp hrp
  refine ⟨_, rfl, ?_⟩
  simp only [UniqueWorkerManager.removeFinished, hlnpt]
  cases s.manager.workers h.logicPeer with
  | none => exact ⟨Function.update_self _ _ _, rfl⟩
  | some a => exact ⟨Function.update_self _ _ _, rfl⟩

/-! ## What they keep -/

theorem Tracks.put (hs : s.Tracks) (hw : s.manager.workers h.logicPeer = none)
    (hreal : ∀ d ∈ s.registered, d.realPeer ≠ h.realPeer) (haddress : ∀ d ∈ s.registered, d.address ≠ h.address)
    (ho : s.step (.put h) = some o) : o.1.Tracks := by
  rw [step_put_entered hw] at ho
  cases ho
  refine ⟨hs.workers.insert (hs.workers.eq_none_iff.mp hw), hs.rpLp.insert hreal, ?_⟩
  intro d hd
  rcases List.mem_cons.mp hd with rfl | hd
  · exact Function.update_self _ _ _
  · exact (Function.update_of_ne (haddress d hd) _ _).trans (hs.handlerRp d hd)

theorem Consistent.put (hs : s.Consistent) (hw : s.manager.workers h.logicPeer = none)
    (hreal : ∀ d ∈ s.registered, d.realPeer ≠ h.realPeer) (haddress : ∀ d ∈ s.registered, d.address ≠ h.address)
    (ho : s.step (.put h) = some o) : o.1.Consistent := by
  have htracks := hs.tracks.put hw hreal haddress ho
  rw [step_put_entered hw] at ho
  cases ho
  exact ⟨htracks.workers, htracks.rpLp, hs.handlerRp.insert haddress⟩

/-- The handler that a removal takes out, told by its real peer. -/
theorem Tracks.mem_without_realPeer (hs : s.Tracks) (hd : d ∈ s.registered) :
    h ∈ s.without d.logicPeer (some d.address) ↔ h ∈ s.registered ∧ h.realPeer ≠ d.realPeer := by
  rw [mem_without]
  exact and_congr_right fun hh => not_congr (hs.logicPeer_eq_iff hh hd)

theorem Tracks.mem_without_address (hs : s.Tracks) (hd : d ∈ s.registered) :
    h ∈ s.without d.logicPeer (some d.address) ↔ h ∈ s.registered ∧ h.address ≠ d.address := by
  rw [mem_without]
  exact and_congr_right fun hh => not_congr (hs.logicPeer_eq_iff_address hh hd)

theorem Tracks.registered_of_workers (hs : s.Tracks) (hw : s.manager.workers lnpt ≠ none) :
    ∃ d ∈ s.registered, d.logicPeer = lnpt := by
  obtain ⟨a, ha⟩ := Option.ne_none_iff_exists'.mp hw
  obtain ⟨d, hd, hlnpt, -⟩ := (hs.workers _ _).mp ha
  exact ⟨d, hd, hlnpt⟩

theorem Tracks.disconnect (hs : s.Tracks) (lnpt : NetAddr) (ho : s.step (.disconnect lnpt) = some o) :
    o.1.Tracks := by
  by_cases hw : s.manager.workers lnpt = none
  · rw [step_disconnect_none hw] at ho
    cases ho
    exact hs
  · obtain ⟨d, hd, rfl⟩ := hs.registered_of_workers hw
    rw [hs.step_disconnect hd] at ho
    cases ho
    refine ⟨hs.workers.erase fun _ => mem_without d.address, hs.rpLp.erase fun _ => hs.mem_without_realPeer hd, ?_⟩
    intro h hh
    obtain ⟨hh, hne⟩ := (hs.mem_without_address hd).mp hh
    exact (Function.update_of_ne hne _ _).trans (hs.handlerRp h hh)

theorem Consistent.disconnect (hs : s.Consistent) (lnpt : NetAddr) (ho : s.step (.disconnect lnpt) = some o) :
    o.1.Consistent := by
  have htracks := hs.tracks.disconnect lnpt ho
  by_cases hw : s.manager.workers lnpt = none
  · rw [step_disconnect_none hw] at ho
    cases ho
    exact hs
  · obtain ⟨d, hd, rfl⟩ := hs.tracks.registered_of_workers hw
    rw [hs.tracks.step_disconnect hd] at ho
    cases ho
    exact ⟨htracks.workers, htracks.rpLp, hs.handlerRp.erase fun _ => hs.tracks.mem_without_address hd⟩

/-- `on_finish` of a registered handler leaves its real peer in `m_hmap_handler_rp`. -/
theorem Tracks.onFinish (hs : s.Tracks) (hh : h ∈ s.registered) (ho : s.step (.onFinish h) = some o) :
    o.1.Tracks ∧ o.2 = some h.address := by
  rw [hs.step_onFinish hh] at ho
  cases ho
  refine ⟨⟨hs.workers.erase fun _ => mem_without h.address,
    hs.rpLp.erase fun _ => hs.mem_without_realPeer hh, ?_⟩, rfl⟩
  intro d hd
  exact hs.handlerRp d ((mem_without h.address).mp hd).1

/-! ## Whole runs -/

/-- `on_finish` with a real peer that is known makes the maps inconsistent. -/
theorem Consistent.not_onFinish (hs : s.Consistent) (hrp : s.manager.rpLp h.realPeer ≠ none)
    (ho : s.step (.onFinish h) = some o) : ¬ o.1.Consistent := by
  intro hc
  obtain ⟨lnpt, hlnpt⟩ := Option.ne_none_iff_exists'.mp hrp
  obtain ⟨d, hd, hreal, -⟩ := (hs.rpLp _ _).mp hlnpt
  obtain ⟨o', ho', hgone, hkept⟩ := step_onFinish_some hrp
  obtain rfl : o = o' := Option.some.inj (ho.symm.trans ho')
  -- the handler that has the real peer is still known by its address
  have hknown : o.1.manager.handlerRp d.address = some d.realPeer := by
    rw [hkept]
    exact hs.handlerRp.apply hd
  obtain ⟨e, he, -, heq⟩ := (hc.handlerRp _ _).mp hknown
  have hthere := hc.rpLp.apply he
  rw [heq, hreal, hgone] at hthere
  cases hthere

/-- And so does a handler at an address that is in use. -/
theorem not_consistent_put (hw : s.manager.workers h.logicPeer = none)
    (hreal : ∀ d ∈ s.registered, d.realPeer ≠ h.realPeer) (hd : d ∈ s.registered) (haddress : d.address = h.address)
    (ho : s.step (.put h) = some o) : ¬ o.1.Consistent := by
  intro hc
  rw [step_put_entered hw] at ho
  cases ho
  have hold := hc.handlerRp.apply (List.mem_cons_of_mem h hd)
  have hnew := hc.handlerRp.apply (List.mem_cons_self (a := h) (l := s.registered))
  rw [haddress, hnew] at hold
  exact hreal d hd (Option.some.inj hold).symm

theorem sound_iff (hs : s.Consistent) {op : RegistryOp} (hapart : s.Apart op) : s.Sound op ↔ s.Spared op := by
  cases op with
  | put h =>
    by_cases hw : s.manager.workers h.logicPeer = none
    · constructor
      · intro hsound _ d hd haddress
        exact not_consistent_put hw (hapart hw) hd haddress (step_put_entered hw) (hsound _ (step_put_entered hw)).1
      · intro hspared o ho
        exact ⟨hs.put hw (hapart hw) (hspared hw) ho, fun _ _ hop => by cases hop⟩
    · refine ⟨fun _ hno => absurd hno hw, fun _ o ho => ?_⟩
      rw [step_put_refused hw] at ho
      cases ho
      exact ⟨hs, fun _ _ hop => by cases hop⟩
  | disconnect lnpt =>
    refine ⟨fun _ => trivial, fun _ o ho => ⟨hs.disconnect lnpt ho, fun _ _ hop => by cases hop⟩⟩
  | onFinish h =>
    constructor
    · intro hsound
      by_contra hrp
      obtain ⟨o, ho, -⟩ := step_onFinish_some hrp
      exact hs.not_onFinish hrp ho (hsound o ho).1
    · intro hrp o ho
      rw [step_onFinish_none hrp] at ho
      cases ho
      exact ⟨hs, fun _ _ _ hnone => by cases hnone⟩

end

/-- The maps are consistent and `on_finish` keeps to its own handler all along a run just when no
step of it meets a registered handler with the same address or the same real peer. -/
theorem along_sound_iff {ops : List RegistryOp} (hapart : Along step Apart empty ops) :
    Along step Sound empty ops ↔ Along step Spared empty ops :=
  along_congr (I := Consistent) (fun _ _ hs ha => sound_iff hs ha) (fun _ _ o _ _ hsound ho => (hsound o ho).1)
    consistent_empty hapart

/-- A connection to 10.0.0.2:9000, and one that takes its place. -/
def firstHandler : EventHandler := ⟨1, ⟨"10.0.0.2", 9000⟩, ⟨"10.0.0.2", 9000⟩⟩

def nextHandler : EventHandler := ⟨2, ⟨"10.0.0.2", 9000⟩, ⟨"10.0.0.2", 9000⟩⟩

/-- Both connections end with `Disconnect`. -/
theorem along_sound_disconnected :
    Along step Sound empty [.put firstHandler, .disconnect firstHandler.logicPeer, .onFinish firstHandler,
      .put nextHandler, .disconnect nextHandler.logicPeer] := by
  refine (along_sound_iff ?_).mpr ?_
  · decide +kernel
  · decide +kernel

/-- Behind `on_finish` of the first connection its real peer is still in `m_hmap_handler_rp`. In the
second run `on_finish` of the first connection comes late: it removes the second one and releases
the first. -/
theorem registry_stale :
    Along step Apart empty [.put firstHandler, .onFinish firstHandler] ∧
    ((run step empty [.put firstHandler, .onFinish firstHandler]).map fun o =>
      (o.1.manager.workers firstHandler.logicPeer, o.1.manager.handlerRp 1)) =
      some (none, some firstHandler.realPeer) ∧
    Along step Apart empty [.put firstHandler, .disconnect firstHandler.logicPeer, .put nextHandler,
      .onFinish firstHandler] ∧
    ((run step empty [.put firstHandler, .disconnect firstHandler.logicPeer, .put nextHandler,
      .onFinish firstHandler]).map Prod.snd) = some [none, some 1, none, some 2] := by
  decide +kernel

/-! ## What is left of the invariant -/

/-- `on_finish` is called for a registered handler, or for one whose real peer no registered
handler has. -/
def Orderly (s : Registry) : RegistryOp → Prop
  | .onFinish h => h ∈ s.registered ∨ s.manager.rpLp h.realPeer = none
  | op => s.Spared op

theorem tracks_step {s : Registry} (hs : s.Tracks) {op : RegistryOp} (hapart : s.Apart op) (hop : s.Orderly op)
    {o : Registry × Option ℕ} (ho : s.step op = some o) :
    o.1.Tracks ∧ s.OwnOnly op o.2 := by
  cases op with
  | put h =>
    refine ⟨?_, fun _ _ hno => by cases hno⟩
    by_cases hw : s.manager.workers h.logicPeer = none
    · exact hs.put hw (hapart hw) (hop hw) ho
    · rw [step_put_refused hw] at ho
      cases ho
      exact hs
  | disconnect lnpt => exact ⟨hs.disconnect lnpt ho, fun _ _ hno => by cases hno⟩
  | onFinish h =>
    rcases hop with hh | hrp
    · obtain ⟨htracks, hremoved⟩ := hs.onFinish hh ho
      refine ⟨htracks, fun h' a heq ha => ?_⟩
      cases heq
      exact ⟨Option.some.inj (ha.symm.trans hremoved), hh⟩
    · rw [step_onFinish_none hrp] at ho
      cases ho
      exact ⟨hs, fun _ _ _ hnone => by cases hnone⟩

/-- Where `on_finish` is orderly it keeps to its own handler, and only `m_hmap_handler_rp` has
entries of handlers that are gone. -/
theorem along_tracks {ops : List RegistryOp} (hops : Along step (fun s op => s.Apart op ∧ s.Orderly op) empty ops) :
    Along step (fun s op => ∀ o ∈ s.step op, o.1.Tracks ∧ s.OwnOnly op o.2) empty ops := by
  have hiff := along_congr (Q := fun _ _ => True) (I := Tracks)
    (P := fun s op => ∀ o ∈ s.step op, o.1.Tracks ∧ s.OwnOnly op o.2)
    (fun s op hs hop => iff_of_true (fun o ho => tracks_step hs hop.1 hop.2 ho) trivial)
    (fun s op o hs hop _ ho => (tracks_step hs hop.1 hop.2 ho).1) consistent_empty.tracks hops
  exact hiff.mpr (along_of_forall (fun _ _ _ => trivial) _)

end Registry

end FlyingKV.Net
