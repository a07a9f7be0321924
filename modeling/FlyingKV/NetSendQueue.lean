import FlyingKV.EventRun

set_option autoImplicit false

/-!
# The send queue of a connection and its I/O worker

Any number of threads are inside `ANetStackMessageWorker::SendMessage` of one handler while
the worker runs its loop. Each access to the queue, to the list of external events and to the
notify pipe is one step. The socket takes whatever is written, and epoll reports nothing but
the pipe.
-/
namespace FlyingKV.Net.SendQueue
open EventRun

/-- How far a call of `SendMessage` has come. -/
inductive SendPc where
  | entered (m : ℕ)
  | sized (m : ℕ) (previousSize : ℕ)
  | pushed
  | added
  | done (rc : Bool)
deriving DecidableEq, Repr

/-- How far `worker_loop` has come; `left` counts the write events of this handler that are
taken and not yet processed. -/
inductive WorkerPc where
  | waiting
  | woken
  | drained
  | handling (left : ℕ)
  | sending (left : ℕ)
deriving DecidableEq, Repr

structure Conn where
  queueMaxSize : ℕ
  queue : List ℕ
  sent : List ℕ
  calls : List SendPc
  rwOpExtEvents : ℕ
  notifyPipe : ℕ
  worker : WorkerPc
deriving DecidableEq, Repr

def start (queueMaxSize : ℕ) : Conn := ⟨queueMaxSize, [], [], [], 0, 0, .waiting⟩

/-- `work` lets the worker take its next step. -/
inductive Event where
  | sendMessage (m : ℕ)
  | advance (i : ℕ)
  | work
deriving DecidableEq, Repr

def Conn.full (s : Conn) : Prop := s.queueMaxSize ≠ 0 ∧ s.queueMaxSize ≤ s.queue.length

instance (s : Conn) : Decidable s.full := inferInstanceAs (Decidable (_ ∧ _))

/-- The next step of call `i`. -/
def Conn.advance (s : Conn) (i : ℕ) : Option Conn :=
  match s.calls[i]? with
  | some (.entered m) => some { s with calls := s.calls.set i (.sized m s.queue.length) }
  | some (.sized m previousSize) =>
    if s.full then some { s with calls := s.calls.set i (.done false) }
    else some { s with
      queue := s.queue ++ [m]
      calls := s.calls.set i (if previousSize = 0 then .pushed else .done true) }
  | some .pushed =>
    some { s with rwOpExtEvents := s.rwOpExtEvents + 1, calls := s.calls.set i .added }
  | some .added => some { s with notifyPipe := s.notifyPipe + 1, calls := s.calls.set i (.done true) }
  | some (.done _) => none
  | none => none

/-- The next step of the worker; it waits while the pipe is empty. -/
def Conn.work (s : Conn) : Option Conn :=
  match s.worker with
  | .waiting => if s.notifyPipe = 0 then none else some { s with worker := .woken }
  | .woken => some { s with notifyPipe := 0, worker := .drained }
  | .drained => some { s with rwOpExtEvents := 0, worker := .handling s.rwOpExtEvents }
  | .handling 0 => some { s with worker := .waiting }
  | .handling (left + 1) => some { s with worker := .sending left }
  | .sending left =>
    match s.queue with
    | [] => some { s with worker := .handling left }
    | m :: rest => some { s with queue := rest, sent := s.sent ++ [m] }

def Conn.step (s : Conn) : Event → Option (Conn × Unit)
  | .sendMessage m => some ({ s with calls := s.calls ++ [.entered m] }, ())
  | .advance i => (s.advance i).map (·, ())
  | .work => s.work.map (·, ())

/-! ## Who will send what is queued -/

def WorkerPc.inSend : WorkerPc → Bool
  | .sending _ => true
  | _ => false

def WorkerPc.taken : WorkerPc → ℕ
  | .handling left => left
  | .sending left => left
  | _ => 0

/-- A write event is in the list, or taken and not yet processed. -/
def Conn.eventPending (s : Conn) : Prop := 0 < s.rwOpExtEvents + s.worker.taken

/-- Between `TryPush` and the wake-up. -/
def SendPc.waking : SendPc → Bool
  | .pushed => true
  | .added => true
  | _ => false

/-- No message is stranded. -/
def NotStranded (s : Conn) : Prop :=
  s.queue ≠ [] → s.eventPending ∨ s.worker.inSend = true ∨ ∃ pc ∈ s.calls, pc.waking = true

instance (s : Conn) : Decidable (NotStranded s) := inferInstanceAs (Decidable (_ → 0 < _ ∨ _ ∨ _))

/-- The queued messages will be met by the worker: it is inside `Send`, or an event will take
it there, or a call is about to add one. -/
def Covered (s : Conn) : Prop :=
  s.eventPending ∨ s.worker.inSend = true ∨ SendPc.pushed ∈ s.calls

instance (s : Conn) : Decidable (Covered s) := inferInstanceAs (Decidable (0 < _ ∨ _ ∨ _))

/-- About to push without waking the worker. -/
def SendPc.quiet : SendPc → Bool
  | .sized _ (_ + 1) => true
  | _ => false

/-- A call that has read a size other than zero pushes only while that still means something. -/
def Careful (s : Conn) : Event → Prop
  | .advance i => ∀ pc ∈ s.calls[i]?, pc.quiet = true → s.queue ≠ [] ∨ Covered s
  | _ => True

instance decidableCareful (s : Conn) : ∀ e, Decidable (Careful s e)
  | .sendMessage _ => isTrue trivial
  | .advance i => inferInstanceAs (Decidable (∀ pc ∈ s.calls[i]?, _ → _))
  | .work => isTrue trivial

section
variable {s u : Conn} {i : ℕ} {pc₀ : SendPc}

theorem Covered.notStranded (h : s.queue ≠ [] → Covered s) : NotStranded s := by
  intro hne
  rcases h hne with hevent | hsend | hpushed
  · exact .inl hevent
  · exact .inr (.inl hsend)
  · exact .inr (.inr ⟨.pushed, hpushed, rfl⟩)

theorem mem_set_of_ne {calls : List SendPc} {x : SendPc} (pc : SendPc) (hi : calls[i]? = some pc₀) (hne : pc₀ ≠ x)
    (h : x ∈ calls) : x ∈ calls.set i pc := by
  obtain ⟨j, hj⟩ := List.mem_iff_getElem?.mp h
  have hij : i ≠ j := by
    rintro rfl
    exact hne (Option.some.inj (hi.symm.trans hj))
  refine List.mem_iff_getElem?.mpr ⟨j, ?_⟩
  rw [List.getElem?_set_ne hij]
  exact hj

theorem Covered.moveTo (h : Covered s) (pc : SendPc) (hi : s.calls[i]? = some pc₀) (hpc₀ : pc₀ ≠ .pushed)
    (queue : List ℕ) (notifyPipe : ℕ) :
    Covered { s with queue := queue, notifyPipe := notifyPipe, calls := s.calls.set i pc } :=
  h.imp id (Or.imp id (mem_set_of_ne pc hi hpc₀))

theorem covered_advance (h : s.queue ≠ [] → Covered s) (hcareful : Careful s (.advance i)) (hs : s.advance i = some u) :
    u.queue ≠ [] → Covered u := by
  unfold Conn.advance at hs
  split at hs
  case h_1 m hi =>
    cases hs
    exact fun hne => (h hne).moveTo _ hi nofun _ _
  case h_2 m previousSize hi =>
    by_cases hfull : s.full
    · rw [if_pos hfull] at hs
      cases hs
      exact fun hne => (h hne).moveTo _ hi nofun _ _
    · rw [if_neg hfull] at hs
      cases hs
      intro _
      cases previousSize with
      | zero => exact .inr (.inr (List.mem_set (List.getElem?_eq_some_iff.mp hi).1 _))
      | succ k =>
        have hcovered : Covered s := (hcareful _ hi rfl).elim h id
        exact hcovered.moveTo _ hi nofun _ _
  case h_3 hi =>
    cases hs
    exact fun _ => .inl (Nat.add_pos_left (Nat.succ_pos _) _)
  case h_4 hi =>
    cases hs
    exact fun hne => (h hne).moveTo _ hi nofun _ _
  case h_5 => cases hs
  case h_6 => cases hs

/-- A step of the worker outside `Send` that drops no event. -/
theorem Covered.loop (h : Covered s) {w : WorkerPc} (htaken : s.worker.taken = w.taken)
    (hsend : s.worker.inSend = w.inSend) (notifyPipe : ℕ) :
    Covered { s with notifyPipe := notifyPipe, worker := w } := by
  unfold Covered Conn.eventPending at h ⊢
  rw [htaken, hsend] at h
  exact h

theorem covered_work (h : s.queue ≠ [] → Covered s) (hs : s.work = some u) : u.queue ≠ [] → Covered u := by
  cases hw : s.worker with
  | waiting =>
    simp only [Conn.work, hw] at hs
    split_ifs at hs
    cases hs
    exact fun hne => (h hne).loop (by rw [hw]; rfl) (by rw [hw]; rfl) _
  | woken =>
    simp only [Conn.work, hw, Option.some.injEq] at hs
    subst hs
    exact fun hne => (h hne).loop (by rw [hw]; rfl) (by rw [hw]; rfl) _
  | drained =>
    simp only [Conn.work, hw, Option.some.injEq] at hs
    subst hs
    intro hne
    -- the events leave the list and are in the worker's hands
    have hc := h hne
    simp only [Covered, Conn.eventPending, hw, WorkerPc.taken, WorkerPc.inSend, zero_add, add_zero] at hc ⊢
    exact hc
  | handling left =>
    cases left with
    | zero =>
      simp only [Conn.work, hw, Option.some.injEq] at hs
      subst hs
      exact fun hne => (h hne).loop (by rw [hw]; rfl) (by rw [hw]; rfl) _
    | succ left =>
      simp only [Conn.work, hw, Option.some.injEq] at hs
      subst hs
      exact fun _ => .inr (.inl rfl)
  | sending left =>
    cases hq : s.queue with
    | nil =>
      simp only [Conn.work, hw, hq, Option.some.injEq] at hs
      subst hs
      exact fun hne => absurd rfl hne
    | cons m rest =>
      simp only [Conn.work, hw, hq, Option.some.injEq] at hs
      subst hs
      exact fun _ => .inr (.inl rfl)

theorem covered_step {e : Event} {r : Unit} (h : s.queue ≠ [] → Covered s) (hcareful : Careful s e)
    (hs : s.step e = some (u, r)) : u.queue ≠ [] → Covered u := by
  cases e with
  | sendMessage m =>
    cases hs
    exact fun hne => (h hne).imp id (Or.imp id (List.mem_append_left _))
  | advance i =>
    obtain ⟨v, hv, heq⟩ := Option.map_eq_some_iff.mp hs
    cases heq
    exact covered_advance h hcareful hv
  | work =>
    obtain ⟨v, hv, heq⟩ := Option.map_eq_some_iff.mp hs
    cases heq
    exact covered_work h hv

theorem not_stranded {queueMaxSize : ℕ} {es : List Event} {s : Conn} {rs : List Unit}
    (hcareful : Along Conn.step Careful (start queueMaxSize) es)
    (hrun : run Conn.step (start queueMaxSize) es = some (s, rs)) : NotStranded s :=
  Covered.notStranded (run_invariant (I := fun s _ => s.queue ≠ [] → Covered s)
    (fun _ _ _ _ _ h hP hs => covered_step h hP hs) [] (fun hne => absurd rfl hne) hcareful hrun)

/-- The second message is pushed while the worker is still sending the first. -/
theorem not_stranded_two_calls : ∃ o ∈ run Conn.step (start 0)
    [.sendMessage 7, .advance 0, .advance 0, .advance 0, .advance 0, .work, .work, .work, .work,
      .sendMessage 8, .advance 1, .work, .advance 1], o.1.queue = [8] ∧ NotStranded o.1 := by
  refine ⟨_, rfl, rfl, ?_⟩
  exact @not_stranded 0 [.sendMessage 7, .advance 0, .advance 0, .advance 0, .advance 0, .work, .work,
    .work, .work, .sendMessage 8, .advance 1, .work, .advance 1] _ _ (by decide) rfl

/-- The worker drains the queue and goes back to sleep between the `Size` and the `TryPush` of
the second call: its message stays, no event is pending, both calls have returned, and the
worker has no step to take. -/
theorem message_is_stranded : ∃ o ∈ run Conn.step (start 0)
    [.sendMessage 7, .advance 0, .advance 0, .advance 0, .advance 0, .work, .work, .work, .work,
      .sendMessage 8, .advance 1, .work, .work, .work, .advance 1],
    o.1.queue = [8] ∧ ¬ NotStranded o.1 ∧ o.1.calls = [.done true, .done true] ∧ o.1.work = none := by
  decide

/-! ## No wake-up is lost -/

/-- The worker is past `epoll_wait` and has not yet taken the events. -/
def WorkerPc.awake : WorkerPc → Bool
  | .woken => true
  | .drained => true
  | _ => false

/-- An event in the list finds the worker awake, or about to be woken. -/
def Noticed (s : Conn) : Prop :=
  0 < s.rwOpExtEvents → s.worker.awake = true ∨ 0 < s.notifyPipe ∨ SendPc.added ∈ s.calls

theorem Noticed.moveTo (h : Noticed s) (pc : SendPc) (hi : s.calls[i]? = some pc₀) (hpc₀ : pc₀ ≠ .added)
    (queue : List ℕ) :
    Noticed { s with queue := queue, calls := s.calls.set i pc } :=
  fun hpos => (h hpos).imp id (Or.imp id (mem_set_of_ne pc hi hpc₀))

theorem noticed_advance (h : Noticed s) (hs : s.advance i = some u) : Noticed u := by
  unfold Conn.advance at hs
  split at hs
  case h_1 m hi =>
    cases hs
    exact h.moveTo _ hi nofun _
  case h_2 m previousSize hi =>
    by_cases hfull : s.full
    · rw [if_pos hfull] at hs
      cases hs
      exact h.moveTo _ hi nofun _
    · rw [if_neg hfull] at hs
      cases hs
      exact h.moveTo _ hi nofun _
  case h_3 hi =>
    cases hs
    exact fun _ => .inr (.inr (List.mem_set (List.getElem?_eq_some_iff.mp hi).1 _))
  case h_4 hi =>
    cases hs
    exact fun _ => .inr (.inl (Nat.succ_pos _))
  case h_5 => cases hs
  case h_6 => cases hs

theorem Noticed.loop (h : Noticed s) (hw : s.worker.awake = false) (w : WorkerPc) :
    Noticed { s with worker := w } :=
  fun hpos => .inr ((h hpos).resolve_left (by simp [hw]))

theorem noticed_work (h : Noticed s) (hs : s.work = some u) : Noticed u := by
  unfold Conn.work at hs
  split at hs
  case h_1 =>
    split_ifs at hs
    cases hs
    exact fun _ => .inl rfl
  case h_2 =>
    cases hs
    exact fun _ => .inl rfl
  case h_3 =>
    cases hs
    exact fun hpos => absurd hpos (lt_irrefl 0)
  case h_4 hw =>
    cases hs
    exact h.loop (by rw [hw]; rfl) _
  case h_5 left hw =>
    cases hs
    exact h.loop (by rw [hw]; rfl) _
  case h_6 left hw =>
    split at hs
    case h_1 =>
      cases hs
      exact h.loop (by rw [hw]; rfl) _
    case h_2 =>
      cases hs
      exact h

/-- In every run, whatever the sizes read. -/
theorem run_noticed {queueMaxSize : ℕ} {es : List Event} {rs : List Unit}
    (hrun : run Conn.step (start queueMaxSize) es = some (s, rs)) : Noticed s := by
  refine run_invariant (P := fun _ _ => True) (I := fun s _ => Noticed s) ?_ [] ?_
    (along_of_forall (fun _ _ _ => trivial) _) hrun
  · intro s tr e u r h _ hs
    cases e with
    | sendMessage m =>
      cases hs
      exact fun hpos => (h hpos).imp id (Or.imp id (List.mem_append_left _))
    | advance i =>
      obtain ⟨v, hv, heq⟩ := Option.map_eq_some_iff.mp hs
      cases heq
      exact noticed_advance h hv
    | work =>
      obtain ⟨v, hv, heq⟩ := Option.map_eq_some_iff.mp hs
      cases heq
      exact noticed_work h hv
  · exact fun hpos => absurd hpos (lt_irrefl 0)

end

end FlyingKV.Net.SendQueue
