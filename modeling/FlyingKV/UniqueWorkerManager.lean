import FlyingKV.EventRun

set_option autoImplicit false

/-!
# `UniqueWorkerManager`

The registry of connections: one handler for each logic peer, with the real peer of every
handler. Handlers are numbers, and all peers speak TCP.
-/
namespace FlyingKV.Net

/-- `net_addr_t`. -/
structure NetAddr where
  addr : String
  port : UInt16
deriving DecidableEq, Repr

structure UniqueWorkerManager where
  workers : NetAddr → Option ℕ
  rpLp : NetAddr → Option NetAddr
  handlerRp : ℕ → Option NetAddr

namespace UniqueWorkerManager

def empty : UniqueWorkerManager := ⟨fun _ => none, fun _ => none, fun _ => none⟩

/-- `GetWorkerEventHandler`, and `GetWorkerEventHandlerWithRef` without its reference. -/
def getWorkerEventHandler (m : UniqueWorkerManager) (logicNpt : NetAddr) : Option ℕ := m.workers logicNpt

def putWorkerEventHandler (m : UniqueWorkerManager) (handler : ℕ) (lnpt rnpt : NetAddr) :
    UniqueWorkerManager × Bool :=
  match m.workers lnpt with
  | some _ => (m, false)
  | none =>
    (⟨Function.update m.workers lnpt (some handler), Function.update m.rpLp rnpt (some lnpt),
      Function.update m.handlerRp handler (some rnpt)⟩, true)

/-- `RemoveWorkerEventHandler` as `on_finish` calls it. -/
def removeFinished (m : UniqueWorkerManager) (logicNpt realNpt : NetAddr) : UniqueWorkerManager × Option ℕ :=
  match m.rpLp realNpt with
  | none => (m, none)
  | some _ =>
    let m := { m with rpLp := Function.update m.rpLp realNpt none }
    match m.workers logicNpt with
    | some handler => ({ m with workers := Function.update m.workers logicNpt none }, some handler)
    | none => (m, none)

/-- `RemoveWorkerEventHandler` as `Disconnect` calls it; `operator[]` on `m_hmap_handler_rp`
makes an empty real peer of one that is missing. -/
def removeWorkerEventHandler (m : UniqueWorkerManager) (logicNpt : NetAddr) : UniqueWorkerManager × Option ℕ :=
  match m.workers logicNpt with
  | none => (m, none)
  | some handler =>
    let realNpt := (m.handlerRp handler).getD ⟨"", 0⟩
    (⟨Function.update m.workers logicNpt none, Function.update m.rpLp realNpt none,
      Function.update m.handlerRp handler none⟩, some handler)

end UniqueWorkerManager

/-- What a removal from the registry can do. -/
structure Removes (m : UniqueWorkerManager) (lnpt : NetAddr) (r : UniqueWorkerManager × Option ℕ) : Prop where
  absent : r.2 = none → r.1.workers = m.workers
  present : ∀ h, r.2 = some h → m.workers lnpt = some h ∧
    r.1.workers = Function.update m.workers lnpt none

theorem removes_removeWorkerEventHandler (m : UniqueWorkerManager) (lnpt : NetAddr) :
    Removes m lnpt (m.removeWorkerEventHandler lnpt) := by
  unfold UniqueWorkerManager.removeWorkerEventHandler
  cases hw : m.workers lnpt with
  | none => exact ⟨fun _ => rfl, nofun⟩
  | some h => exact ⟨nofun, fun h' heq => ⟨hw.trans heq, rfl⟩⟩

theorem removes_removeFinished (m : UniqueWorkerManager) (lnpt rnpt : NetAddr) :
    Removes m lnpt (m.removeFinished lnpt rnpt) := by
  unfold UniqueWorkerManager.removeFinished
  cases m.rpLp rnpt with
  | none => exact ⟨fun _ => rfl, nofun⟩
  | some p =>
    cases hw : m.workers lnpt with
    | none =>
      simp only [hw]
      exact ⟨fun _ => rfl, nofun⟩
    | some h =>
      simp only [hw]
      exact ⟨nofun, fun h' heq => ⟨hw.trans heq, rfl⟩⟩

theorem Removes.workers {m : UniqueWorkerManager} {lnpt p : NetAddr} {r : UniqueWorkerManager × Option ℕ}
    (hr : Removes m lnpt r) {h : ℕ} (hw : r.1.workers p = some h) : m.workers p = some h := by
  cases hfound : r.2 with
  | none => rwa [hr.absent hfound] at hw
  | some x =>
    rw [(hr.present x hfound).2] at hw
    by_cases hp : p = lnpt
    · rw [hp, Function.update_self] at hw
      cases hw
    · rwa [Function.update_of_ne hp] at hw

/-! ## Who is registered -/

inductive RegEvent where
  | put (handler : ℕ) (lnpt : NetAddr)
  | removed (handler : ℕ) (lnpt : NetAddr)
deriving DecidableEq, Repr

/-- The handlers put for a logic peer and not removed since. -/
def holdersFrom (lnpt : NetAddr) : List ℕ → List RegEvent → List ℕ
  | hs, [] => hs
  | hs, .put h p :: log => holdersFrom lnpt (if p = lnpt then h :: hs else hs) log
  | hs, .removed h p :: log => holdersFrom lnpt (if p = lnpt then hs.erase h else hs) log

def holders (log : List RegEvent) (lnpt : NetAddr) : List ℕ := holdersFrom lnpt [] log

theorem holdersFrom_append (lnpt : NetAddr) (hs : List ℕ) (log log' : List RegEvent) :
    holdersFrom lnpt hs (log ++ log') = holdersFrom lnpt (holdersFrom lnpt hs log) log' := by
  induction log generalizing hs with
  | nil => rfl
  | cons e log ih =>
    cases e with
    | put h p => exact ih _
    | removed h p => exact ih _

theorem holders_put (log : List RegEvent) (lnpt p : NetAddr) (h : ℕ) :
    holders (log ++ [.put h p]) lnpt = if p = lnpt then h :: holders log lnpt else holders log lnpt :=
  holdersFrom_append lnpt [] log _

theorem holders_removed (log : List RegEvent) (lnpt p : NetAddr) (h : ℕ) :
    holders (log ++ [.removed h p]) lnpt =
      if p = lnpt then (holders log lnpt).erase h else holders log lnpt :=
  holdersFrom_append lnpt [] log _

/-- The registry knows exactly the handlers that hold a logic peer. -/
def Registers (m : UniqueWorkerManager) (log : List RegEvent) : Prop :=
  ∀ lnpt, holders log lnpt = (m.workers lnpt).toList

theorem registers_empty : Registers .empty [] := fun _ => rfl

theorem Registers.put {m : UniqueWorkerManager} {log : List RegEvent} (hr : Registers m log) (h : ℕ)
    (lnpt rnpt : NetAddr) (hput : (m.putWorkerEventHandler h lnpt rnpt).2 = true) :
    Registers (m.putWorkerEventHandler h lnpt rnpt).1 (log ++ [.put h lnpt]) := by
  intro p
  have hp := hr p
  unfold UniqueWorkerManager.putWorkerEventHandler at hput ⊢
  cases hw : m.workers lnpt with
  | some other =>
    rw [hw] at hput
    cases hput
  | none =>
    rw [holders_put]
    by_cases heq : lnpt = p
    · subst heq
      rw [if_pos rfl, hp, hw]
      simp
    · rw [if_neg heq, hp]
      simp [Function.update_of_ne (Ne.symm heq)]

theorem putWorkerEventHandler_false {m : UniqueWorkerManager} {h : ℕ} {lnpt rnpt : NetAddr}
    (hput : (m.putWorkerEventHandler h lnpt rnpt).2 = false) :
    (m.putWorkerEventHandler h lnpt rnpt).1 = m := by
  unfold UniqueWorkerManager.putWorkerEventHandler at hput ⊢
  cases hw : m.workers lnpt with
  | some other => rfl
  | none =>
    rw [hw] at hput
    cases hput

/-- A removal takes the handler of one logic peer out. -/
theorem Registers.erase {m m' : UniqueWorkerManager} {log : List RegEvent} (hr : Registers m log) {h : ℕ}
    {lnpt : NetAddr} (hfound : m.workers lnpt = some h)
    (hworkers : m'.workers = Function.update m.workers lnpt none) :
    Registers m' (log ++ [.removed h lnpt]) := by
  intro p
  have hp := hr p
  rw [holders_removed, hworkers]
  by_cases heq : lnpt = p
  · subst heq
    rw [if_pos rfl, hp, hfound]
    simp
  · rw [if_neg heq, hp, Function.update_of_ne (Ne.symm heq)]

end FlyingKV.Net
