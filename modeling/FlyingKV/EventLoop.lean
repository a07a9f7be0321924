import FlyingKV.EventRun

set_option autoImplicit false

/-!
# The loop of an event worker

One `EventWorker` and the thread that runs `PosixEventManager::worker_loop` on it. Other threads leave
events in its three lists, each under its own lock, and write a byte to its pipe behind that. Every access to
a list, every system call and every handler call is one step. A step that touches a deleted handler, or
writes to a full pipe, ends the process.
-/
namespace FlyingKV.Net.EventLoop
open EventRun

structure Mask where
  read : Bool
  write : Bool
deriving DecidableEq, Repr

/-- `NetEvent` for a socket. -/
structure NetEvent where
  eh : ℕ
  mask : Mask
deriving DecidableEq, Repr

structure EpollAddEvent where
  eh : ℕ
  curMask : Mask
  mask : Mask
deriving DecidableEq, Repr

/-- What `epoll_wait` reports: the reading end of the pipe, which is registered for reading only, or a socket. -/
inductive Report where
  | notify
  | socket (e : NetEvent)
deriving DecidableEq, Repr

/-- Where the thread is in `worker_loop`. `pending` are the handlers to delete at the end of the round. -/
inductive Pc where
  | top
  | waiting
  | returned (events : List Report)
  | unlinking (events : List Report)
  | internals (pending : List ℕ) (events : List Report)
  | draining (pending : List ℕ) (events : List Report)
  | externals (pending : List ℕ) (events : List NetEvent)
  | deleting (pending : List ℕ)
  | adding (events : List EpollAddEvent)
  | ended
deriving DecidableEq, Repr

/-- What `process_event` calls. -/
inductive Call where
  | handleRead (eh : ℕ)
  | handleWrite (eh : ℕ)
  | onFinish (eh : ℕ)
deriving DecidableEq, Repr

/-- `ready`: the pipe is on the ready list of epoll. `owed`: how many threads have still to call `Wakeup`.
The last four are kept for reference: what was posted, what of it was processed or skipped, which handlers
were given up, and what was called. -/
structure Loop where
  capacity : ℕ
  pipe : ℕ
  ready : Bool
  registered : List ℕ
  rwOp : List NetEvent
  addEp : List EpollAddEvent
  delEp : List ℕ
  owed : ℕ
  stopped : Bool
  pc : Pc
  freed : List ℕ
  posted : List NetEvent
  seen : List (NetEvent × Bool)
  doomed : List ℕ
  calls : List Call
deriving DecidableEq, Repr

def start (capacity : ℕ) : Loop where
  capacity := capacity
  pipe := 0
  ready := false
  registered := []
  rwOp := []
  addEp := []
  delEp := []
  owed := 0
  stopped := false
  pc := .top
  freed := []
  posted := []
  seen := []
  doomed := []
  calls := []

/-- In `wakeup edge` the pipe is put on the ready list when it was empty, and otherwise as the kernel likes.
In `work readRc writeRc` the worker takes its next step; the flags are what a handler returns. -/
inductive Event where
  | post (e : NetEvent)
  | add (a : EpollAddEvent)
  | del (h : ℕ)
  | stop
  | wakeup (edge : Bool)
  | look
  | wait (events : List Report)
  | work (readRc writeRc : Bool)
deriving DecidableEq, Repr

def processEvent (e : NetEvent) (readRc writeRc : Bool) : List Call :=
  let rc := if e.mask.read then readRc else true
  let rc' := if rc && e.mask.write then writeRc else rc
  (if e.mask.read then [.handleRead e.eh] else []) ++
    (if rc && e.mask.write then [.handleWrite e.eh] else []) ++
    (if rc' then [] else [.onFinish e.eh])

def Report.eh : Report → Option ℕ
  | .notify => none
  | .socket e => some e.eh

/-- How much `HandleReadEvent` of the pipe asks for. -/
def bufSize : ℕ := 1024

namespace Loop

/-- `process_event` on a handler that is not deleted. -/
def process (s : Loop) (e : NetEvent) (readRc writeRc : Bool) : Option Loop :=
  if e.eh ∈ s.freed then none else some { s with calls := s.calls ++ processEvent e readRc writeRc }

def work (s : Loop) (readRc writeRc : Bool) : Option Loop :=
  match s.pc with
  | .top => some { s with pc := if s.stopped then .ended else .waiting }
  | .waiting => none
  | .returned events => some { s with pc := if s.stopped then .ended else .unlinking events }
  | .unlinking events =>
    if ∃ h ∈ s.delEp, h ∈ s.freed then none
    else some { s with
      delEp := []
      registered := s.registered.filter fun h => h ∉ s.delEp
      pc := .internals s.delEp events }
  | .internals pending [] => some { s with rwOp := [], pc := .externals pending s.rwOp }
  | .internals pending (.notify :: events) => some { s with pc := .draining pending events }
  | .internals pending (.socket e :: events) =>
    if e.eh ∈ pending then some { s with pc := .internals pending events }
    else (s.process e readRc writeRc).map fun s => { s with pc := .internals pending events }
  | .draining pending events =>
    if s.pipe = 0 then some { s with pc := .internals pending events }
    else some { s with pipe := s.pipe - min s.pipe bufSize }
  | .externals pending [] => some { s with pc := .deleting pending }
  | .externals pending (e :: events) =>
    if e.eh ∈ pending then some { s with seen := s.seen ++ [(e, false)], pc := .externals pending events }
    else (s.process e readRc writeRc).map fun s =>
      { s with seen := s.seen ++ [(e, true)], pc := .externals pending events }
  | .deleting [] => some { s with addEp := [], pc := .adding s.addEp }
  | .deleting (h :: pending) =>
    if h ∈ s.freed then none else some { s with freed := h :: s.freed, pc := .deleting pending }
  | .adding [] => some { s with pc := .top }
  | .adding (a :: events) =>
    if a.eh ∈ s.freed then none
    else some { s with
      registered := if a.curMask = ⟨false, false⟩ then s.registered.insert a.eh else s.registered
      pc := .adding events }
  | .ended => none

def step (s : Loop) (e : Event) : Option (Loop × Unit) :=
  (match e with
  | .post e => some { s with rwOp := s.rwOp ++ [e], owed := s.owed + 1, posted := s.posted ++ [e] }
  | .add a => some { s with addEp := s.addEp ++ [a], owed := s.owed + 1 }
  | .del h => some { s with delEp := s.delEp.insert h, owed := s.owed + 1, doomed := h :: s.doomed }
  | .stop => some { s with stopped := true, owed := s.owed + 1 }
  | .wakeup edge =>
    if 0 < s.owed ∧ s.pipe < s.capacity then
      some { s with owed := s.owed - 1, pipe := s.pipe + 1, ready := s.ready || edge || s.pipe = 0 }
    else none
  | .look => if s.pipe = 0 then some { s with ready := false } else none
  | .wait events =>
    if s.pc = Pc.waiting ∧ (∀ r ∈ events, ∀ h ∈ r.eh, h ∈ s.registered) ∧
        (Report.notify ∈ events → s.ready = true ∧ 0 < s.pipe) then
      some { s with ready := s.ready && Report.notify ∉ events, pc := .returned events }
    else none
  | .work readRc writeRc => s.work readRc writeRc).map (·, ())

/-! ## What a step can do -/

inductive Works (s : Loop) (readRc writeRc : Bool) : Loop → Prop
  | again (at_pc : s.pc = .top) (go : s.stopped = false) : Works s readRc writeRc { s with pc := .waiting }
  | leave (at_pc : s.pc = .top ∨ ∃ events, s.pc = .returned events) (stop : s.stopped = true) :
      Works s readRc writeRc { s with pc := .ended }
  | returned {events : List Report} (at_pc : s.pc = .returned events) (go : s.stopped = false) :
      Works s readRc writeRc { s with pc := .unlinking events }
  | unlinking {events : List Report} (at_pc : s.pc = .unlinking events) (alive : ∀ h ∈ s.delEp, h ∉ s.freed) :
      Works s readRc writeRc { s with
        delEp := []
        registered := s.registered.filter fun h => h ∉ s.delEp
        pc := .internals s.delEp events }
  | takeRw {pending : List ℕ} (at_pc : s.pc = .internals pending []) :
      Works s readRc writeRc { s with rwOp := [], pc := .externals pending s.rwOp }
  | notified {pending : List ℕ} {events : List Report} (at_pc : s.pc = .internals pending (.notify :: events)) :
      Works s readRc writeRc { s with pc := .draining pending events }
  | skipInternal {pending : List ℕ} {e : NetEvent} {events : List Report}
      (at_pc : s.pc = .internals pending (.socket e :: events)) (mem : e.eh ∈ pending) :
      Works s readRc writeRc { s with pc := .internals pending events }
  | internal {pending : List ℕ} {e : NetEvent} {events : List Report}
      (at_pc : s.pc = .internals pending (.socket e :: events)) (notMem : e.eh ∉ pending) (alive : e.eh ∉ s.freed) :
      Works s readRc writeRc { s with
        calls := s.calls ++ processEvent e readRc writeRc
        pc := .internals pending events }
  | drained {pending : List ℕ} {events : List Report} (at_pc : s.pc = .draining pending events) (empty : s.pipe = 0) :
      Works s readRc writeRc { s with pc := .internals pending events }
  | drain {pending : List ℕ} {events : List Report} (at_pc : s.pc = .draining pending events) :
      Works s readRc writeRc { s with pipe := s.pipe - min s.pipe bufSize }
  | externalsDone {pending : List ℕ} (at_pc : s.pc = .externals pending []) :
      Works s readRc writeRc { s with pc := .deleting pending }
  | skipExternal {pending : List ℕ} {e : NetEvent} {events : List NetEvent}
      (at_pc : s.pc = .externals pending (e :: events)) (mem : e.eh ∈ pending) :
      Works s readRc writeRc { s with seen := s.seen ++ [(e, false)], pc := .externals pending events }
  | external {pending : List ℕ} {e : NetEvent} {events : List NetEvent}
      (at_pc : s.pc = .externals pending (e :: events)) (notMem : e.eh ∉ pending) (alive : e.eh ∉ s.freed) :
      Works s readRc writeRc { s with
        calls := s.calls ++ processEvent e readRc writeRc
        seen := s.seen ++ [(e, true)]
        pc := .externals pending events }
  | takeAdd (at_pc : s.pc = .deleting []) : Works s readRc writeRc { s with addEp := [], pc := .adding s.addEp }
  | delete {h : ℕ} {pending : List ℕ} (at_pc : s.pc = .deleting (h :: pending)) (alive : h ∉ s.freed) :
      Works s readRc writeRc { s with freed := h :: s.freed, pc := .deleting pending }
  | addsDone (at_pc : s.pc = .adding []) : Works s readRc writeRc { s with pc := .top }
  | adds {a : EpollAddEvent} {events : List EpollAddEvent} (at_pc : s.pc = .adding (a :: events))
      (alive : a.eh ∉ s.freed) :
      Works s readRc writeRc { s with
        registered := if a.curMask = ⟨false, false⟩ then s.registered.insert a.eh else s.registered
        pc := .adding events }

inductive Moves (s : Loop) : Event → Loop → Prop
  | post (e : NetEvent) :
      Moves s (.post e) { s with rwOp := s.rwOp ++ [e], owed := s.owed + 1, posted := s.posted ++ [e] }
  | add (a : EpollAddEvent) : Moves s (.add a) { s with addEp := s.addEp ++ [a], owed := s.owed + 1 }
  | del (h : ℕ) :
      Moves s (.del h) { s with delEp := s.delEp.insert h, owed := s.owed + 1, doomed := h :: s.doomed }
  | stop : Moves s .stop { s with stopped := true, owed := s.owed + 1 }
  | wakeup (edge : Bool) (owes : 0 < s.owed) :
      Moves s (.wakeup edge)
        { s with owed := s.owed - 1, pipe := s.pipe + 1, ready := s.ready || edge || s.pipe = 0 }
  | look (empty : s.pipe = 0) : Moves s .look { s with ready := false }
  | wait {events : List Report} (at_pc : s.pc = .waiting)
      (registered : ∀ r ∈ events, ∀ h ∈ r.eh, h ∈ s.registered)
      (notified : .notify ∈ events → s.ready = true ∧ 0 < s.pipe) :
      Moves s (.wait events) { s with ready := s.ready && Report.notify ∉ events, pc := .returned events }
  | work {readRc writeRc : Bool} {u : Loop} (works : Works s readRc writeRc u) : Moves s (.work readRc writeRc) u

section
variable {s u : Loop} {e : Event} {r : Unit}

theorem works_of_work {readRc writeRc : Bool} (h : s.work readRc writeRc = some u) : Works s readRc writeRc u := by
  unfold work at h
  split at h
  next hpc =>
    by_cases hs : s.stopped = true
    · rw [if_pos hs] at h
      cases h
      exact .leave (.inl hpc) hs
    · rw [if_neg hs] at h
      cases h
      exact .again hpc (Bool.eq_false_of_not_eq_true hs)
  next => cases h
  next events hpc =>
    by_cases hs : s.stopped = true
    · rw [if_pos hs] at h
      cases h
      exact .leave (.inr ⟨events, hpc⟩) hs
    · rw [if_neg hs] at h
      cases h
      exact .returned hpc (Bool.eq_false_of_not_eq_true hs)
  next events hpc =>
    obtain ⟨halive, h⟩ := Option.ite_none_left_eq_some.mp h
    cases h
    exact .unlinking hpc fun h hmem hfreed => halive ⟨h, hmem, hfreed⟩
  next pending hpc =>
    cases h
    exact .takeRw hpc
  next pending events hpc =>
    cases h
    exact .notified hpc
  next pending e events hpc =>
    split_ifs at h with hmem
    · cases h
      exact .skipInternal hpc hmem
    · obtain ⟨v, hv, rfl⟩ := Option.map_eq_some_iff.mp h
      obtain ⟨halive, hv⟩ := Option.ite_none_left_eq_some.mp hv
      cases hv
      exact .internal hpc hmem halive
  next pending events hpc =>
    split_ifs at h with hempty
    · cases h
      exact .drained hpc hempty
    · cases h
      exact .drain hpc
  next pending hpc =>
    cases h
    exact .externalsDone hpc
  next pending e events hpc =>
    split_ifs at h with hmem
    · cases h
      exact .skipExternal hpc hmem
    · obtain ⟨v, hv, rfl⟩ := Option.map_eq_some_iff.mp h
      obtain ⟨halive, hv⟩ := Option.ite_none_left_eq_some.mp hv
      cases hv
      exact .external hpc hmem halive
  next hpc =>
    cases h
    exact .takeAdd hpc
  next h' pending hpc =>
    obtain ⟨halive, h⟩ := Option.ite_none_left_eq_some.mp h
    cases h
    exact .delete hpc halive
  next hpc =>
    cases h
    exact .addsDone hpc
  next a events hpc =>
    obtain ⟨halive, h⟩ := Option.ite_none_left_eq_some.mp h
    cases h
    exact .adds hpc halive
  next => cases h

theorem moves_of_step (hstep : step s e = some (u, r)) : Moves s e u := by
  obtain ⟨u', hu, hpair⟩ := Option.map_eq_some_iff.mp hstep
  obtain rfl : u' = u := congrArg Prod.fst hpair
  cases e with
  | post e =>
    cases hu
    exact .post e
  | add a =>
    cases hu
    exact .add a
  | del h =>
    cases hu
    exact .del h
  | stop =>
    cases hu
    exact .stop
  | wakeup edge =>
    obtain ⟨howed, hu⟩ := Option.ite_none_right_eq_some.mp hu
    cases hu
    exact .wakeup edge howed.1
  | look =>
    obtain ⟨hempty, hu⟩ := Option.ite_none_right_eq_some.mp hu
    cases hu
    exact .look hempty
  | wait events =>
    obtain ⟨⟨hpc, hreg, hnotify⟩, hu⟩ := Option.ite_none_right_eq_some.mp hu
    cases hu
    exact .wait hpc hreg hnotify
  | work readRc writeRc => exact .work (works_of_work hu)

end

end Loop

/-! ## Events are not left behind -/

namespace Pc

def pending : Pc → List ℕ
  | .internals pending _ | .draining pending _ | .externals pending _ | .deleting pending => pending
  | _ => []

/-- The events that the worker has taken and not looked at. -/
def external : Pc → List NetEvent
  | .externals _ events => events
  | _ => []

/-- The worker will empty the pipe in this round, or has left. -/
def drains : Pc → Bool
  | .returned events | .unlinking events | .internals _ events => .notify ∈ events
  | .draining _ _ | .ended => true
  | _ => false

/-- The worker will take the external events in this round, or has left. -/
def beforeRw : Pc → Bool
  | .returned _ | .unlinking _ | .internals _ _ | .draining _ _ | .ended => true
  | _ => false

def beforeAdd : Pc → Bool
  | .externals _ _ | .deleting _ => true
  | pc => pc.beforeRw

/-- The reports of this round that are not looked at. -/
def reports : Pc → List Report
  | .returned events | .unlinking events | .internals _ events | .draining _ events => events
  | _ => []

/-- The handlers whose external events will be passed over. -/
def hidden : Pc → List ℕ
  | .internals pending _ | .draining pending _ => pending
  | _ => []

/-- The sockets that the worker is about to register. -/
def toAdd : Pc → List EpollAddEvent
  | .adding events => events
  | _ => []

end Pc

namespace Loop

/-- A list that is not empty has a thread that will wake the worker, or a byte in the pipe, or the worker has yet
to take it in this round. -/
structure Awake (s : Loop) : Prop where
  pipe : 0 < s.pipe → s.ready = true ∨ s.pc.drains = true
  rwOp : s.rwOp ≠ [] → 0 < s.owed ∨ 0 < s.pipe ∨ s.pc.beforeRw = true
  addEp : s.addEp ≠ [] → 0 < s.owed ∨ 0 < s.pipe ∨ s.pc.beforeAdd = true
  stop : s.stopped = true → s.pc = .waiting → 0 < s.owed ∨ 0 < s.pipe

theorem awake_start (capacity : ℕ) : (start capacity).Awake where
  pipe := fun h => absurd h (Nat.lt_irrefl 0)
  rwOp := fun h => absurd rfl h
  addEp := fun h => absurd rfl h
  stop := fun h => by cases h

section
variable {s u : Loop} {e : Event} {readRc writeRc : Bool}

theorem Works.awake (h : Works s readRc writeRc u) (hs : s.Awake) : u.Awake := by
  obtain ⟨hpipe, hrw, hadd, hstop⟩ := hs
  cases h with
  | leave at_pc stop =>
    exact ⟨fun _ => .inr rfl, fun _ => .inr (.inr rfl), fun _ => .inr (.inr rfl), fun _ h => (by cases h)⟩
  | again at_pc go =>
    rw [at_pc] at hpipe hrw hadd
    exact ⟨hpipe, hrw, hadd, fun h => absurd (go.symm.trans h) Bool.false_ne_true⟩
  | takeRw at_pc =>
    rw [at_pc] at hpipe hadd
    exact ⟨hpipe, fun h => absurd rfl h, hadd, fun _ h => (by cases h)⟩
  | takeAdd at_pc =>
    rw [at_pc] at hpipe hrw
    exact ⟨hpipe, hrw, fun h => absurd rfl h, fun _ h => (by cases h)⟩
  | drained at_pc empty =>
    rw [at_pc] at hrw hadd
    exact ⟨fun h => absurd empty h.ne', hrw, hadd, fun _ h => (by cases h)⟩
  | drain at_pc =>
    -- the bytes are gone, but the lists are taken behind this
    rw [at_pc] at hpipe hrw hadd
    refine ⟨fun _ => .inr (at_pc ▸ rfl), fun _ => .inr (.inr (at_pc ▸ rfl)), fun _ => .inr (.inr (at_pc ▸ rfl)),
      fun _ h => ?_⟩
    rw [show s.pc = .waiting from h] at at_pc
    cases at_pc
  | skipInternal at_pc mem =>
    rw [at_pc] at hpipe hrw hadd
    exact ⟨by simpa [Pc.drains] using hpipe, hrw, hadd, fun _ h => (by cases h)⟩
  | internal at_pc notMem alive =>
    rw [at_pc] at hpipe hrw hadd
    exact ⟨by simpa [Pc.drains] using hpipe, hrw, hadd, fun _ h => (by cases h)⟩
  | notified at_pc =>
    rw [at_pc] at hrw hadd
    exact ⟨fun _ => .inr rfl, hrw, hadd, fun _ h => (by cases h)⟩
  | returned at_pc go | unlinking at_pc alive | externalsDone at_pc | skipExternal at_pc mem
  | external at_pc notMem alive | delete at_pc alive | addsDone at_pc | adds at_pc alive =>
    rw [at_pc] at hpipe hrw hadd
    exact ⟨hpipe, hrw, hadd, fun _ h => (by cases h)⟩

theorem Moves.awake (h : Moves s e u) (hs : s.Awake) : u.Awake := by
  cases h with
  | work works => exact works.awake hs
  | post | add | del | stop =>
    have howed : 0 < s.owed + 1 := Nat.succ_pos _
    exact ⟨hs.pipe, fun _ => .inl howed, fun _ => .inl howed, fun _ _ => .inl howed⟩
  | wakeup edge owes =>
    have hpos : 0 < s.pipe + 1 := Nat.succ_pos _
    refine ⟨fun _ => ?_, fun _ => .inr (.inl hpos), fun _ => .inr (.inl hpos), fun _ _ => .inr hpos⟩
    rcases Nat.eq_zero_or_pos s.pipe with hzero | hsome
    · exact .inl (by simp [hzero])
    · rcases hs.pipe hsome with hready | hdrains
      · exact .inl (by simp [hready])
      · exact .inr hdrains
  | look empty => exact ⟨fun h => absurd empty h.ne', hs.rwOp, hs.addEp, hs.stop⟩
  | @wait events at_pc registered notified =>
    refine ⟨fun hpos => ?_, fun _ => .inr (.inr rfl), fun _ => .inr (.inr rfl), fun _ h => (by cases h)⟩
    by_cases hmem : .notify ∈ events
    · exact .inr (decide_eq_true hmem)
    · have hready := hs.pipe hpos
      rw [at_pc] at hready
      exact .inl (by simpa [Pc.drains, hmem] using hready)

/-- Asleep, with nobody on the way to wake it, the worker has nothing left to do. -/
theorem Awake.asleep (hs : s.Awake) (hpc : s.pc = .waiting) (hready : s.ready = false) (howed : s.owed = 0) :
    s.rwOp = [] ∧ s.addEp = [] ∧ s.stopped = false := by
  have hpipe : s.pipe = 0 := by
    by_contra hne
    have := hs.pipe (Nat.pos_of_ne_zero hne)
    rw [hpc, hready] at this
    simp [Pc.drains] at this
  have hnone : ∀ b : Bool, b = false → ¬ (0 < s.owed ∨ 0 < s.pipe ∨ b = true) := by
    rintro b rfl
    simp [howed, hpipe]
  refine ⟨?_, ?_, ?_⟩
  · by_contra hne
    exact hnone _ (by rw [hpc]; rfl) (hs.rwOp hne)
  · by_contra hne
    exact hnone _ (by rw [hpc]; rfl) (hs.addEp hne)
  · refine Bool.eq_false_of_not_eq_true fun hstop => ?_
    rcases hs.stop hstop hpc with h | h
    · omega
    · omega

end

/-! ## Each event is looked at once -/

/-- What was posted has been looked at, or is in the worker's hands, or in the list; and an event is passed over
only when its handler has been given up. -/
structure Accounted (s : Loop) : Prop where
  posted : s.posted = s.seen.map Prod.fst ++ (s.pc.external ++ s.rwOp)
  skipped : ∀ x ∈ s.seen, x.2 = false → x.1.eh ∈ s.doomed
  delEp : ∀ h ∈ s.delEp, h ∈ s.doomed
  pending : ∀ h ∈ s.pc.pending, h ∈ s.doomed

theorem accounted_start (capacity : ℕ) : (start capacity).Accounted where
  posted := rfl
  skipped := fun x hx => by cases hx
  delEp := fun h hh => by cases hh
  pending := fun h hh => by cases hh

section
variable {s u : Loop} {e : Event} {readRc writeRc : Bool}

theorem Works.accounted (h : Works s readRc writeRc u) (hs : s.Accounted) : u.Accounted := by
  obtain ⟨hposted, hskipped, hdel, hpending⟩ := hs
  cases h with
  | leave at_pc stop =>
    have hnone : s.pc.external = [] := by
      rcases at_pc with h | ⟨events, h⟩ <;> rw [h] <;> rfl
    rw [hnone] at hposted
    exact ⟨hposted, hskipped, hdel, fun h hh => (by cases hh)⟩
  | again at_pc go | returned at_pc go | drained at_pc empty | notified at_pc | skipInternal at_pc mem
  | internal at_pc notMem alive | externalsDone at_pc | takeAdd at_pc | addsDone at_pc | adds at_pc alive =>
    rw [at_pc] at hposted hpending
    exact ⟨hposted, hskipped, hdel, hpending⟩
  | drain at_pc => exact ⟨hposted, hskipped, hdel, hpending⟩
  | unlinking at_pc alive =>
    rw [at_pc] at hposted
    exact ⟨hposted, hskipped, fun h hh => (by cases hh), hdel⟩
  | takeRw at_pc =>
    rw [at_pc] at hposted hpending
    exact ⟨by simpa [Pc.external] using hposted, hskipped, hdel, hpending⟩
  | @skipExternal pending e events at_pc mem =>
    rw [at_pc] at hposted hpending
    refine ⟨by simpa [Pc.external] using hposted, fun x hx hpassed => ?_, hdel, hpending⟩
    rcases List.mem_append.mp hx with hx | hx
    · exact hskipped x hx hpassed
    · rw [List.mem_singleton.mp hx]
      exact hpending _ mem
  | @external pending e events at_pc notMem alive =>
    rw [at_pc] at hposted hpending
    refine ⟨by simpa [Pc.external] using hposted, fun x hx hpassed => ?_, hdel, hpending⟩
    rcases List.mem_append.mp hx with hx | hx
    · exact hskipped x hx hpassed
    · rw [List.mem_singleton.mp hx] at hpassed
      cases hpassed
  | @delete h pending at_pc alive =>
    rw [at_pc] at hposted hpending
    exact ⟨hposted, hskipped, hdel, fun h' hh' => hpending h' (List.mem_cons_of_mem h hh')⟩

theorem Moves.accounted (h : Moves s e u) (hs : s.Accounted) : u.Accounted := by
  cases h with
  | work works => exact works.accounted hs
  | post e =>
    refine ⟨?_, hs.skipped, hs.delEp, hs.pending⟩
    change s.posted ++ [e] = s.seen.map Prod.fst ++ (s.pc.external ++ (s.rwOp ++ [e]))
    rw [hs.posted]
    simp
  | add a | stop | wakeup edge owes | look empty => exact ⟨hs.posted, hs.skipped, hs.delEp, hs.pending⟩
  | del h =>
    refine ⟨hs.posted, fun x hx hpassed => List.mem_cons_of_mem _ (hs.skipped x hx hpassed), fun h' hh' => ?_,
      fun h' hh' => List.mem_cons_of_mem _ (hs.pending h' hh')⟩
    rcases List.mem_insert_iff.mp hh' with rfl | hh'
    · exact List.mem_cons_self
    · exact List.mem_cons_of_mem _ (hs.delEp h' hh')
  | wait at_pc registered notified =>
    have hposted := hs.posted
    rw [at_pc] at hposted
    exact ⟨hposted, hs.skipped, hs.delEp, fun h hh => (by cases hh)⟩

end

/-- However the other threads, the kernel and the worker take their steps: the events that were posted are looked
at in the order of posting, each once, and one is passed over only if its handler has been given up; and when
the worker sleeps and nobody is on the way to wake it, then no event is left, no socket waits to be registered,
and `Stop` has not been called. -/
theorem posted_events_handled {capacity : ℕ} {es : List Event} {s : Loop} {rs : List Unit}
    (hrun : run step (start capacity) es = some (s, rs)) :
    (∃ left, s.posted = s.seen.map Prod.fst ++ left) ∧ (∀ x ∈ s.seen, x.2 = false → x.1.eh ∈ s.doomed) ∧
      (s.pc = .waiting → s.ready = false → s.owed = 0 →
        s.posted = s.seen.map Prod.fst ∧ s.addEp = [] ∧ s.stopped = false) := by
  obtain ⟨hawake, haccount⟩ := run_invariant (P := fun _ _ => True) (I := fun s _ => s.Awake ∧ s.Accounted)
    (fun _ _ _ _ _ hs _ hstep => ⟨(moves_of_step hstep).awake hs.1, (moves_of_step hstep).accounted hs.2⟩) []
    ⟨awake_start capacity, accounted_start capacity⟩ (along_of_forall (fun _ _ _ => trivial) _) hrun
  refine ⟨⟨_, haccount.posted⟩, haccount.skipped, fun hpc hready howed => ?_⟩
  obtain ⟨hrw, hadd, hstop⟩ := hawake.asleep hpc hready howed
  have hposted := haccount.posted
  rw [hpc, hrw] at hposted
  exact ⟨by simpa [Pc.external] using hposted, hadd, hstop⟩

/-- A socket is added and an event posted for it; the second wake-up comes while the worker reads the first. -/
def handover : List Event :=
  [.work true true, .add ⟨3, ⟨false, false⟩, ⟨true, true⟩⟩, .post ⟨3, ⟨false, true⟩⟩, .wakeup false, .wait [.notify],
    .work true true, .work true true, .work true true, .wakeup false] ++ List.replicate 9 (.work true true)

theorem posted_events_handled_handover : ∃ s rs, run step (start 65536) handover = some (s, rs) ∧ s.addEp = [] ∧
    s.posted = [⟨3, ⟨false, true⟩⟩] ∧ s.seen.map Prod.fst = [⟨3, ⟨false, true⟩⟩] := by
  have hend : ∃ o ∈ run step (start 65536) handover, o.1.pc = .waiting ∧ o.1.ready = false ∧ o.1.owed = 0 ∧
      o.1.posted = [⟨3, ⟨false, true⟩⟩] := by decide +kernel
  obtain ⟨⟨s, rs⟩, hrun, hpc, hready, howed, hposted⟩ := hend
  obtain ⟨hseen, hadd, -⟩ := (posted_events_handled hrun).2.2 hpc hready howed
  exact ⟨s, rs, hrun, hadd, hposted, hseen ▸ hposted⟩

/-- It is not so for the handlers to delete: the list is taken before the pipe is emptied, and the wake-up for one
that comes between is lost. -/
example : ∃ o ∈ run step (start 65536) ([.work true true, .post ⟨3, ⟨false, true⟩⟩, .wakeup false, .wait [.notify],
      .work true true, .work true true, .del 4, .wakeup false] ++ List.replicate 9 (.work true true)),
    o.1.pc = .waiting ∧ o.1.ready = false ∧ o.1.owed = 0 ∧ o.1.delEp = [4] := by decide +kernel

/-! ## No handler is touched behind its deletion -/

/-- How the other threads use handlers: nothing is posted for a handler that has been given up, and it is given up
once and not while it waits to be registered. -/
def Proper (s : Loop) : Event → Prop
  | .post e => e.eh ∉ s.doomed
  | .add a => a.eh ∉ s.doomed
  | .del h => h ∉ s.doomed ∧ ∀ a ∈ s.addEp ++ s.pc.toAdd, a.eh ≠ h
  | _ => True

instance (s : Loop) : DecidablePred s.Proper
  | .post e => inferInstanceAs (Decidable (e.eh ∉ s.doomed))
  | .add a => inferInstanceAs (Decidable (a.eh ∉ s.doomed))
  | .del h => inferInstanceAs (Decidable (h ∉ s.doomed ∧ ∀ a ∈ s.addEp ++ s.pc.toAdd, a.eh ≠ h))
  | .stop | .wakeup _ | .look | .wait _ | .work _ _ => isTrue trivial

/-- A handler that has been given up is in the list of those to delete, then in the worker's hands, then deleted. -/
structure Owned (s : Loop) : Prop where
  freed : ∀ h ∈ s.freed, h ∈ s.doomed ∧ h ∉ s.registered
  freedOnce : s.freed.Nodup
  delEp : ∀ h ∈ s.delEp, h ∈ s.doomed ∧ h ∉ s.freed
  delOnce : s.delEp.Nodup
  pending : ∀ h ∈ s.pc.pending, h ∈ s.doomed ∧ h ∉ s.freed ∧ h ∉ s.delEp ∧ h ∉ s.registered
  pendingOnce : s.pc.pending.Nodup
  reports : ∀ r ∈ s.pc.reports, ∀ h ∈ r.eh, h ∉ s.freed
  external : ∀ e ∈ s.pc.external, e.eh ∉ s.freed
  rwOp : ∀ e ∈ s.rwOp, e.eh ∉ s.freed ∧ (e.eh ∈ s.doomed → e.eh ∈ s.delEp ∨ e.eh ∈ s.pc.hidden)
  addEp : ∀ a ∈ s.addEp ++ s.pc.toAdd, a.eh ∉ s.doomed

theorem owned_start (capacity : ℕ) : (start capacity).Owned where
  freed := fun h hh => by cases hh
  freedOnce := List.nodup_nil
  delEp := fun h hh => by cases hh
  delOnce := List.nodup_nil
  pending := fun h hh => by cases hh
  pendingOnce := List.nodup_nil
  reports := fun r hr => by cases hr
  external := fun e he => by cases he
  rwOp := fun e he => by cases he
  addEp := fun a ha => by cases ha

section
variable {s u : Loop} {e : Event} {readRc writeRc : Bool}

theorem Owned.unlinking (hs : s.Owned) {events : List Report} (at_pc : s.pc = .unlinking events) :
    Owned { s with
      delEp := []
      registered := s.registered.filter fun h => h ∉ s.delEp
      pc := .internals s.delEp events } := by
  obtain ⟨hfreed, hfreedOnce, hdel, hdelOnce, -, -, hreports, hexternal, hrw, hadd⟩ := hs
  rw [at_pc] at hreports hexternal hrw hadd
  refine ⟨fun h hh => ⟨(hfreed h hh).1, fun hreg => (hfreed h hh).2 (List.mem_filter.mp hreg).1⟩, hfreedOnce,
    fun h hh => (by cases hh), List.nodup_nil, fun h hh => ⟨(hdel h hh).1, (hdel h hh).2, List.not_mem_nil, ?_⟩,
    hdelOnce, hreports, hexternal, fun e he => ⟨(hrw e he).1, fun hdoomed => ?_⟩, hadd⟩
  · intro hreg
    have := (List.mem_filter.mp hreg).2
    simp only [decide_not, Bool.not_eq_true', decide_eq_false_iff_not] at this
    exact this hh
  · rcases (hrw e he).2 hdoomed with h | h
    · exact .inr h
    · cases h

theorem Owned.delete (hs : s.Owned) {h : ℕ} {pending : List ℕ} (at_pc : s.pc = .deleting (h :: pending))
    (alive : h ∉ s.freed) : Owned { s with freed := h :: s.freed, pc := .deleting pending } := by
  obtain ⟨hfreed, hfreedOnce, hdel, hdelOnce, hpending, hpendingOnce, -, -, hrw, hadd⟩ := hs
  rw [at_pc] at hpending hpendingOnce hrw hadd
  obtain ⟨hdoomed, -, hnotDel, hnotReg⟩ := hpending h List.mem_cons_self
  have hother : ∀ h' ∈ pending, h' ≠ h := fun h' hh' heq => (List.nodup_cons.mp hpendingOnce).1 (heq ▸ hh')
  refine ⟨fun h' hh' => ?_, List.nodup_cons.mpr ⟨alive, hfreedOnce⟩, fun h' hh' => ⟨(hdel h' hh').1, ?_⟩, hdelOnce,
    fun h' hh' => ?_, (List.nodup_cons.mp hpendingOnce).2, fun r hr => (by cases hr), fun e he => (by cases he),
    fun e he => ⟨?_, (hrw e he).2⟩, hadd⟩
  · rcases List.mem_cons.mp hh' with rfl | hh'
    · exact ⟨hdoomed, hnotReg⟩
    · exact hfreed h' hh'
  · rw [List.mem_cons, not_or]
    exact ⟨fun heq => hnotDel (heq ▸ hh'), (hdel h' hh').2⟩
  · obtain ⟨h₁, h₂, h₃, h₄⟩ := hpending h' (List.mem_cons_of_mem _ hh')
    exact ⟨h₁, by rw [List.mem_cons, not_or]; exact ⟨hother h' hh', h₂⟩, h₃, h₄⟩
  · -- an event that has come since the list was taken is not for a handler of this round
    rw [List.mem_cons, not_or]
    refine ⟨fun heq => ?_, (hrw e he).1⟩
    rcases (hrw e he).2 (heq ▸ hdoomed) with h | h
    · exact hnotDel (heq ▸ h)
    · cases h

theorem Owned.adds (hs : s.Owned) {a : EpollAddEvent} {events : List EpollAddEvent}
    (at_pc : s.pc = .adding (a :: events)) :
    Owned { s with
      registered := if a.curMask = ⟨false, false⟩ then s.registered.insert a.eh else s.registered
      pc := .adding events } := by
  obtain ⟨hfreed, hfreedOnce, hdel, hdelOnce, -, -, -, -, hrw, hadd⟩ := hs
  rw [at_pc] at hrw hadd
  have hnew : a.eh ∉ s.doomed := hadd a (List.mem_append_right _ List.mem_cons_self)
  refine ⟨fun h hh => ⟨(hfreed h hh).1, fun hreg => ?_⟩, hfreedOnce, hdel, hdelOnce, fun h hh => (by cases hh),
    List.nodup_nil, fun r hr => (by cases hr), fun e he => (by cases he), hrw, fun a' ha' => ?_⟩
  · have hmem : h = a.eh ∨ h ∈ s.registered := by
      change h ∈ (if a.curMask = ⟨false, false⟩ then s.registered.insert a.eh else s.registered) at hreg
      split_ifs at hreg
      · exact List.mem_insert_iff.mp hreg
      · exact .inr hreg
    rcases hmem with rfl | hmem
    · exact hnew (hfreed _ hh).1
    · exact (hfreed h hh).2 hmem
  · refine hadd a' ?_
    rcases List.mem_append.mp ha' with ha' | ha'
    · exact List.mem_append_left _ ha'
    · exact List.mem_append_right _ (List.mem_cons_of_mem _ ha')

theorem Works.owned (h : Works s readRc writeRc u) (hs : s.Owned) : u.Owned := by
  have ⟨hfreed, hfreedOnce, hdel, hdelOnce, hpending, hpendingOnce, hreports, hexternal, hrw, hadd⟩ := hs
  cases h with
  | drain at_pc => exact { hs with }
  | leave at_pc stop =>
    have hnone : s.pc.hidden = [] ∧ s.pc.toAdd = [] := by
      rcases at_pc with h | ⟨events, h⟩ <;> rw [h] <;> exact ⟨rfl, rfl⟩
    rw [hnone.1] at hrw
    rw [hnone.2] at hadd
    exact ⟨hfreed, hfreedOnce, hdel, hdelOnce, fun h hh => (by cases hh), List.nodup_nil, fun r hr => (by cases hr),
      fun e he => (by cases he), hrw, hadd⟩
  | again at_pc go | returned at_pc go | drained at_pc empty | addsDone at_pc =>
    rw [at_pc] at hpending hpendingOnce hreports hexternal hrw hadd
    exact ⟨hfreed, hfreedOnce, hdel, hdelOnce, hpending, hpendingOnce, hreports, hexternal, hrw, hadd⟩
  | unlinking at_pc alive => exact hs.unlinking at_pc
  | takeRw at_pc =>
    rw [at_pc] at hpending hpendingOnce hadd
    exact ⟨hfreed, hfreedOnce, hdel, hdelOnce, hpending, hpendingOnce, fun r hr => (by cases hr),
      fun e he => (hrw e he).1, fun e he => (by cases he), hadd⟩
  | notified at_pc | skipInternal at_pc mem | internal at_pc notMem alive =>
    rw [at_pc] at hpending hpendingOnce hreports hexternal hrw hadd
    exact ⟨hfreed, hfreedOnce, hdel, hdelOnce, hpending, hpendingOnce,
      fun r hr => hreports r (List.mem_cons_of_mem _ hr), hexternal, hrw, hadd⟩
  | externalsDone at_pc =>
    rw [at_pc] at hpending hpendingOnce hrw hadd
    exact ⟨hfreed, hfreedOnce, hdel, hdelOnce, hpending, hpendingOnce, fun r hr => (by cases hr),
      fun e he => (by cases he), hrw, hadd⟩
  | skipExternal at_pc mem | external at_pc notMem alive =>
    rw [at_pc] at hpending hpendingOnce hexternal hrw hadd
    exact ⟨hfreed, hfreedOnce, hdel, hdelOnce, hpending, hpendingOnce, fun r hr => (by cases hr),
      fun e he => hexternal e (List.mem_cons_of_mem _ he), hrw, hadd⟩
  | takeAdd at_pc =>
    rw [at_pc] at hrw hadd
    exact ⟨hfreed, hfreedOnce, hdel, hdelOnce, fun h hh => (by cases hh), List.nodup_nil, fun r hr => (by cases hr),
      fun e he => (by cases he), hrw, by simpa [Pc.toAdd] using hadd⟩
  | delete at_pc alive => exact hs.delete at_pc alive
  | adds at_pc alive => exact hs.adds at_pc

theorem Moves.owned (h : Moves s e u) (hs : s.Owned) (hproper : s.Proper e) : u.Owned := by
  cases h with
  | work works => exact works.owned hs
  | post e =>
    refine { hs with rwOp := fun e' he' => ?_ }
    rcases List.mem_append.mp he' with he' | he'
    · exact hs.rwOp e' he'
    · rw [List.mem_singleton.mp he']
      exact ⟨fun hfreed => hproper (hs.freed _ hfreed).1, fun hdoomed => absurd hdoomed hproper⟩
  | add a =>
    refine { hs with addEp := fun a' ha' => ?_ }
    rcases List.mem_append.mp ha' with ha' | ha'
    · rcases List.mem_append.mp ha' with ha' | ha'
      · exact hs.addEp a' (List.mem_append_left _ ha')
      · rw [List.mem_singleton.mp ha']
        exact hproper
    · exact hs.addEp a' (List.mem_append_right _ ha')
  | del h =>
    obtain ⟨hfirst, hnotAdd⟩ := hproper
    have hnotFreed : h ∉ s.freed := fun hfreed => hfirst (hs.freed h hfreed).1
    refine { hs with
      freed := fun h' hh' => ⟨List.mem_cons_of_mem _ (hs.freed h' hh').1, (hs.freed h' hh').2⟩
      delEp := fun h' hh' => ?_
      delOnce := hs.delOnce.insert
      pending := fun h' hh' => ?_
      rwOp := fun e he => ⟨(hs.rwOp e he).1, fun hdoomed => ?_⟩
      addEp := fun a ha => ?_ }
    · rcases List.mem_insert_iff.mp hh' with rfl | hh'
      · exact ⟨List.mem_cons_self, hnotFreed⟩
      · exact ⟨List.mem_cons_of_mem _ (hs.delEp h' hh').1, (hs.delEp h' hh').2⟩
    · obtain ⟨h₁, h₂, h₃, h₄⟩ := hs.pending h' hh'
      refine ⟨List.mem_cons_of_mem _ h₁, h₂, fun hmem => ?_, h₄⟩
      rcases List.mem_insert_iff.mp hmem with rfl | hmem
      · exact hfirst h₁
      · exact h₃ hmem
    · rcases List.mem_cons.mp hdoomed with heq | hdoomed
      · exact .inl (List.mem_insert_iff.mpr (.inl heq))
      · exact ((hs.rwOp e he).2 hdoomed).imp_left fun hmem => List.mem_insert_iff.mpr (.inr hmem)
    · rw [List.mem_cons, not_or]
      exact ⟨hnotAdd a ha, hs.addEp a ha⟩
  | stop | wakeup edge owes | look empty => exact { hs with }
  | wait at_pc registered notified =>
    have hrw := hs.rwOp
    have hadd := hs.addEp
    rw [at_pc] at hrw hadd
    refine { hs with
      pending := fun h hh => (by cases hh)
      pendingOnce := List.nodup_nil
      reports := fun r hr h hh hfreed => (hs.freed h hfreed).2 (registered r hr h hh)
      external := fun e he => (by cases he)
      rwOp := hrw
      addEp := hadd }

theorem process_of_alive {e : NetEvent} (h : e.eh ∉ s.freed) :
    s.process e readRc writeRc = some { s with calls := s.calls ++ processEvent e readRc writeRc } := if_neg h

/-- Outside `epoll_wait` the worker can always go on. -/
theorem Owned.works (hs : s.Owned) (hwait : s.pc ≠ .waiting) (hend : s.pc ≠ .ended) :
    s.work readRc writeRc ≠ none := by
  have hpending := hs.pending
  have hreports := hs.reports
  have hexternal := hs.external
  have hadd := hs.addEp
  unfold work
  cases hpc : s.pc with
  | waiting => exact absurd hpc hwait
  | ended => exact absurd hpc hend
  | top | returned events => simp
  | unlinking events =>
    have halive : ¬ ∃ h ∈ s.delEp, h ∈ s.freed := by
      rintro ⟨h, hmem, hfreed⟩
      exact (hs.delEp h hmem).2 hfreed
    simp [if_neg halive]
  | draining pending events =>
    dsimp only
    split_ifs <;> simp
  | internals pending events =>
    rw [hpc] at hreports
    cases events with
    | nil => simp
    | cons r events =>
      cases r with
      | notify => simp
      | socket e =>
        have halive : e.eh ∉ s.freed := hreports _ List.mem_cons_self e.eh rfl
        dsimp only
        split_ifs <;> simp [process_of_alive halive]
  | externals pending events =>
    rw [hpc] at hexternal
    cases events with
    | nil => simp
    | cons e events =>
      have halive : e.eh ∉ s.freed := hexternal e List.mem_cons_self
      dsimp only
      split_ifs <;> simp [process_of_alive halive]
  | deleting pending =>
    rw [hpc] at hpending
    cases pending with
    | nil => simp
    | cons h pending =>
      have halive : h ∉ s.freed := (hpending h List.mem_cons_self).2.1
      simp [halive]
  | adding events =>
    rw [hpc] at hadd
    cases events with
    | nil => simp
    | cons a events =>
      have hnew : a.eh ∉ s.doomed := hadd a (List.mem_append_right _ List.mem_cons_self)
      have halive : a.eh ∉ s.freed := fun hfreed => hnew (hs.freed _ hfreed).1
      simp [halive]

end

/-- If the other threads post nothing for a handler that has been given up, and give it up once and not while it waits
to be registered, then in every order of the steps the worker never touches a deleted handler: outside
`epoll_wait` it can always go on, and it deletes only handlers that were given up, each once. -/
theorem worker_spares_deleted {capacity : ℕ} {es : List Event} {s : Loop} {rs : List Unit}
    (hes : Along step Proper (start capacity) es) (hrun : run step (start capacity) es = some (s, rs)) :
    (s.pc ≠ .waiting → s.pc ≠ .ended → ∀ readRc writeRc, s.work readRc writeRc ≠ none) ∧
      s.freed.Nodup ∧ ∀ h ∈ s.freed, h ∈ s.doomed := by
  have howned : s.Owned := run_invariant (I := fun s _ => s.Owned)
    (fun _ _ _ _ _ hs hproper hstep => (moves_of_step hstep).owned hs hproper) [] (owned_start capacity) hes hrun
  exact ⟨fun hwait hend readRc writeRc => howned.works hwait hend, howned.freedOnce, fun h hh => (howned.freed h hh).1⟩

/-- A handler is given up between the report of its socket and the end of the round, with an event posted for it. -/
def givenUp : List Event :=
  [.add ⟨3, ⟨false, false⟩, ⟨true, true⟩⟩, .wakeup true, .work true true, .wait [.notify]] ++
    List.replicate 11 (.work true true) ++
    [.post ⟨3, ⟨false, true⟩⟩, .wakeup true, .wait [.notify, .socket ⟨3, ⟨true, false⟩⟩], .del 3, .wakeup true] ++
    List.replicate 10 (.work true true)

theorem worker_spares_deleted_givenUp : ∃ s rs, run step (start 65536) givenUp = some (s, rs) ∧ s.freed = [3] ∧
    s.work true true ≠ none := by
  have hend : ∃ o ∈ run step (start 65536) givenUp, o.1.freed = [3] ∧ o.1.pc ≠ .waiting ∧ o.1.pc ≠ .ended := by
    decide +kernel
  obtain ⟨⟨s, rs⟩, hrun, hfreed, hwait, hleft⟩ := hend
  exact ⟨s, rs, hrun, hfreed, (worker_spares_deleted (by decide +kernel) hrun).1 hwait hleft true true⟩

/-- A handler that is given up while it waits to be registered is deleted first and registered behind that. -/
example : ∃ o ∈ run step (start 65536) ([.add ⟨3, ⟨false, false⟩, ⟨true, true⟩⟩, .wakeup true, .del 3, .wakeup true,
      .work true true, .wait [.notify]] ++ List.replicate 9 (.work true true)),
    o.1.pc = .adding [⟨3, ⟨false, false⟩, ⟨true, true⟩⟩] ∧ o.1.freed = [3] ∧ o.1.work true true = none := by
  decide +kernel

end Loop

end FlyingKV.Net.EventLoop
