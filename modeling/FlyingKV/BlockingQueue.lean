import FlyingKV.Monitor

set_option autoImplicit false

/-!
# `BlockingQueue`

Every operation holds `m_mutex` from its first access to its return, except while it waits on
`m_cond`; producers and consumers wait on the same condition variable.
-/
namespace FlyingKV.Common.BlockingQueue
open EventRun Monitor

/-- The two forms of `Pop`, `TryPush` and `Push` differ in how the item is passed only. -/
inductive Call (α : Type) where
  | tryPop
  | pop
  | tryPush (item : α)
  | push (item : α)
  | empty
  | size
  | clear
deriving DecidableEq, Repr

/-- `Clear` returns nothing; what it drops is kept for reference. -/
inductive Reply (α : Type) where
  | refused
  | popped (item : α)
  | pushed
  | flag (b : Bool)
  | count (n : ℕ)
  | cleared (items : List α)
deriving DecidableEq, Repr

section
variable {α : Type} (queueMaxSize : ℕ)

/-- A bounded queue tells a producer that there is room. -/
def roomSignal : Signal := if queueMaxSize ≠ 0 then .one else .silent

def full (queue : List α) : Prop := queueMaxSize ≠ 0 ∧ queueMaxSize ≤ queue.length

instance (queue : List α) : Decidable (full queueMaxSize queue) := inferInstanceAs (Decidable (_ ∧ _))

def body (queue : List α) : Call α → Outcome (List α) (Reply α)
  | .tryPop =>
    match queue with
    | [] => .finish [] .refused .silent
    | item :: rest => .finish rest (.popped item) (roomSignal queueMaxSize)
  | .pop =>
    match queue with
    | [] => .sleep
    | item :: rest => .finish rest (.popped item) (roomSignal queueMaxSize)
  | .tryPush item =>
    if full queueMaxSize queue then .finish queue .refused .silent
    else .finish (queue ++ [item]) .pushed .one
  | .push item =>
    if full queueMaxSize queue then .sleep else .finish (queue ++ [item]) .pushed .one
  | .empty => .finish queue (.flag queue.isEmpty) .silent
  | .size => .finish queue (.count queue.length) .silent
  | .clear => .finish [] (.cleared queue) .all

/-! ## First in, first out -/

/-- What a finished call has put in. -/
def entering : Call α × Reply α → List α
  | (.tryPush item, .pushed) => [item]
  | (.push item, .pushed) => [item]
  | _ => []

/-- What a finished call has taken out. -/
def leaving : Call α × Reply α → List α
  | (_, .popped item) => [item]
  | (_, .cleared items) => items
  | _ => []

variable {queueMaxSize}
variable {queue queue' : List α} {c : Call α} {r : Reply α} {signal : Signal}

theorem body_conserves (h : body queueMaxSize queue c = .finish queue' r signal) :
    queue ++ entering (c, r) = leaving (c, r) ++ queue' := by
  cases c with
  | tryPop =>
    cases queue with
    | nil =>
      cases h
      rfl
    | cons item rest =>
      cases h
      simp [entering, leaving]
  | pop =>
    cases queue with
    | nil => cases h
    | cons item rest =>
      cases h
      simp [entering, leaving]
  | tryPush item =>
    simp only [body] at h
    split_ifs at h
    · cases h
      simp [entering, leaving]
    · cases h
      rfl
  | push item =>
    simp only [body] at h
    split_ifs at h
    cases h
    rfl
  | empty | size =>
    cases h
    simp [entering, leaving]
  | clear =>
    cases h
    rfl

theorem body_bounded (hmax : queueMaxSize ≠ 0) (hle : queue.length ≤ queueMaxSize)
    (h : body queueMaxSize queue c = .finish queue' r signal) : queue'.length ≤ queueMaxSize := by
  have hpush : ∀ item : α, ¬ full queueMaxSize queue → (queue ++ [item]).length ≤ queueMaxSize := by
    intro item hfull
    have : ¬ queueMaxSize ≤ queue.length := fun hle' => hfull ⟨hmax, hle'⟩
    rw [List.length_append, List.length_singleton]
    omega
  cases c with
  | tryPop =>
    cases queue with
    | nil =>
      cases h
      exact hle
    | cons item rest =>
      cases h
      exact (Nat.le_succ _).trans hle
  | pop =>
    cases queue with
    | nil => cases h
    | cons item rest =>
      cases h
      exact (Nat.le_succ _).trans hle
  | tryPush item =>
    simp only [body] at h
    split_ifs at h with hfull
    · cases h
      exact hle
    · cases h
      exact hpush item hfull
  | push item =>
    simp only [body] at h
    split_ifs at h with hfull
    cases h
    exact hpush item hfull
  | empty | size =>
    cases h
    exact hle
  | clear =>
    cases h
    exact Nat.zero_le _

theorem performs_conserves {calls : List (Call α × Reply α)} (h : Performs (body queueMaxSize) queue calls queue') :
    queue ++ calls.flatMap entering = calls.flatMap leaving ++ queue' := by
  induction h with
  | nil queue => simp
  | @cons queue mid last c r signal calls hbody hrest ih =>
    rw [List.flatMap_cons, List.flatMap_cons, ← List.append_assoc, body_conserves hbody, List.append_assoc,
      ih, List.append_assoc]

theorem performs_bounded {calls : List (Call α × Reply α)} (hmax : queueMaxSize ≠ 0)
    (hle : queue.length ≤ queueMaxSize) (h : Performs (body queueMaxSize) queue calls queue') :
    queue'.length ≤ queueMaxSize := by
  induction h with
  | nil queue => exact hle
  | cons hbody hrest ih => exact ih (body_bounded hmax hle hbody)

/-! ## Wake-ups -/

inductive Side where
  | producer
  | consumer
deriving DecidableEq, Repr

def side : Call α → Side
  | .tryPush _ => .producer
  | .push _ => .producer
  | _ => .consumer

/-- A consumer finds the items, a producer the room that is left. -/
def credit (queueMaxSize : ℕ) (queue : List α) : Side → ℕ
  | .producer => queueMaxSize - queue.length
  | .consumer => queue.length

def mayWait (queueMaxSize : ℕ) : Call α → Bool
  | .pop => true
  | .push _ => queueMaxSize ≠ 0
  | _ => false

theorem body_sleep_mayWait (h : body queueMaxSize queue c = .sleep) : mayWait queueMaxSize c = true := by
  cases c with
  | pop => rfl
  | push item =>
    simp only [body] at h
    split_ifs at h with hfull
    exact decide_eq_true hfull.1
  | tryPop => cases queue <;> cases h
  | tryPush item =>
    simp only [body] at h
    split_ifs at h
  | empty | size | clear => cases h

theorem body_sleep_iff (hc : mayWait queueMaxSize c = true) :
    body queueMaxSize queue c = .sleep ↔ credit queueMaxSize queue (side c) = 0 := by
  cases c with
  | pop => cases queue <;> simp [body, credit, side]
  | push item =>
    have hmax : queueMaxSize ≠ 0 := of_decide_eq_true hc
    simp only [body, credit, side, Nat.sub_eq_zero_iff_le]
    split_ifs with hfull
    · exact iff_of_true rfl hfull.2
    · exact iff_of_false (by rintro ⟨⟩) (fun hle => hfull ⟨hmax, hle⟩)
  | tryPop | tryPush item | empty | size | clear => cases hc

theorem body_spent (hc : mayWait queueMaxSize c = true) (h : body queueMaxSize queue c = .finish queue' r signal) :
    credit queueMaxSize queue' (side c) < credit queueMaxSize queue (side c) := by
  cases c with
  | pop =>
    cases queue with
    | nil => cases h
    | cons item rest =>
      cases h
      exact Nat.lt_succ_self _
  | push item =>
    have hmax : queueMaxSize ≠ 0 := of_decide_eq_true hc
    simp only [body] at h
    split_ifs at h with hfull
    cases h
    have : ¬ queueMaxSize ≤ queue.length := fun hle => hfull ⟨hmax, hle⟩
    simp only [credit, side, List.length_append, List.length_singleton]
    omega
  | tryPop | tryPush item | empty | size | clear => cases hc

/-- An operation that is not `Clear` makes room for at most one more, and it tells one if it does. -/
theorem body_credit (hc : c ≠ .clear) (h : body queueMaxSize queue c = .finish queue' r signal) (k : Side) :
    credit queueMaxSize queue' k ≤ credit queueMaxSize queue k + (if signal = .silent then 0 else 1) := by
  have hpop : ∀ (item : α) (rest : List α), credit queueMaxSize rest k ≤
      credit queueMaxSize (item :: rest) k + (if roomSignal queueMaxSize = .silent then 0 else 1) := by
    intro item rest
    by_cases hmax : queueMaxSize = 0
    · cases k <;> simp [credit, roomSignal, hmax]
    · cases k <;> simp only [credit, roomSignal, List.length_cons, if_pos hmax, reduceCtorEq, if_false] <;> omega
  have hpush : ∀ item : α, credit queueMaxSize (queue ++ [item]) k ≤ credit queueMaxSize queue k + 1 := by
    intro item
    cases k <;> simp only [credit, List.length_append, List.length_singleton] <;> omega
  cases c with
  | tryPop =>
    cases queue with
    | nil =>
      cases h
      exact Nat.le_add_right _ _
    | cons item rest =>
      cases h
      exact hpop _ _
  | pop =>
    cases queue with
    | nil => cases h
    | cons item rest =>
      cases h
      exact hpop _ _
  | tryPush item =>
    simp only [body] at h
    split_ifs at h
    · cases h
      exact Nat.le_add_right _ _
    · cases h
      exact hpush item
  | push item =>
    simp only [body] at h
    split_ifs at h
    cases h
    exact hpush item
  | empty | size =>
    cases h
    exact Nat.le_add_right _ _
  | clear => exact absurd rfl hc

def credits (queueMaxSize : ℕ) : Credits (body (α := α) queueMaxSize) Side where
  kind := side
  credit k queue := credit queueMaxSize queue k
  mayWait := mayWait queueMaxSize
  waits := body_sleep_mayWait
  sleep_iff := body_sleep_iff
  spent := body_spent
  silent := by
    intro queue c queue' r h k
    refine body_credit ?_ h k
    rintro rfl
    cases h
  one := by
    intro queue c queue' r h k
    refine body_credit ?_ h k
    rintro rfl
    cases h

/-- `Push` never waits for room that is not limited. -/
theorem asleep_unbounded {s : State (List α) (Call α)} (h : (credits 0).Waiting s) (hc : .asleep c ∈ s.threads) :
    c = .pop := by
  have hwait := h c (.inl hc)
  cases c with
  | pop => rfl
  | push item | tryPop | tryPush item | empty | size | clear => cases hwait

theorem unmixed_unbounded {s : State (List α) (Call α)} (h : (credits 0).Waiting s) :
    (credits 0).Unmixed s := by
  intro c d hc hd
  rw [asleep_unbounded h hc, asleep_unbounded h hd]

theorem run_wakes {threadsCnt : ℕ} {es : List (Event (Call α))} {v : State (List α) (Call α)}
    {rs : List (Option (Call α × Reply α))}
    (hes : Along (step (body queueMaxSize)) (fun s _ => queueMaxSize = 0 ∨ (credits queueMaxSize).Unmixed s)
      (start [] threadsCnt) es)
    (hrun : run (step (body queueMaxSize)) (start [] threadsCnt) es = some (v, rs)) :
    (credits queueMaxSize).Waiting v ∧ (credits queueMaxSize).NoLostWakeup v := by
  refine Credits.run_noLostWakeup ?_ (Credits.waiting_start _ _) (Credits.noLostWakeup_start _ _) hes hrun
  rintro s e hw (rfl | hu)
  · exact unmixed_unbounded hw
  · exact hu

/-- In every interleaving the items leave in the order in which they came, none is lost or doubled,
and a bounded queue keeps its bound. As long as producers and consumers do not sleep at the same time
(and always, if the queue is not bounded), whoever sleeps is matched by a thread already woken for
each item or place that is free; if no thread is left to run, whoever sleeps has to. -/
theorem queue_fifo_and_wakes {threadsCnt : ℕ} {es : List (Event (Call α))} {v : State (List α) (Call α)}
    {rs : List (Option (Call α × Reply α))}
    (hrun : run (step (body queueMaxSize)) (start [] threadsCnt) es = some (v, rs)) :
    (rs.filterMap id).flatMap entering = (rs.filterMap id).flatMap leaving ++ v.obj ∧
      (queueMaxSize ≠ 0 → v.obj.length ≤ queueMaxSize) ∧
      (Along (step (body queueMaxSize)) (fun s _ => queueMaxSize = 0 ∨ (credits queueMaxSize).Unmixed s)
          (start [] threadsCnt) es →
        ∀ c, .asleep c ∈ v.threads →
          credit queueMaxSize v.obj (side c) ≤ v.threads.countP (Thread.wokenIn (fun d => side d = side c)) ∧
          ((∀ t ∈ v.threads, t.ready = none) → body queueMaxSize v.obj c = .sleep)) := by
  have hperf := run_performs hrun
  refine ⟨performs_conserves hperf, fun hmax => performs_bounded hmax (Nat.zero_le _) hperf, ?_⟩
  intro hes c hc
  obtain ⟨hw, hlost⟩ := run_wakes hes hrun
  exact ⟨hlost c hc, fun hidle => hlost.rightly hw hidle hc⟩

end

/-- Two consumers wait, and a producer wakes the first. -/
def handover : List (Event (Call ℕ)) :=
  [.call 0 .pop, .run 0 0, .call 1 .pop, .run 1 0, .call 2 (.push 7), .run 2 0]

theorem handover_fifo_and_wakes :
    ∃ v rs, run (step (body 0)) (start [] 3) handover = some (v, rs) ∧ v.obj = [7] ∧ .asleep .pop ∈ v.threads ∧
      (rs.filterMap id).flatMap entering = (rs.filterMap id).flatMap leaving ++ v.obj ∧
      v.obj.length ≤ v.threads.countP (Thread.wokenIn (fun d => side d = .consumer)) := by
  have hrun : run (step (body 0)) (start [] 3) handover = some (⟨[7], [.woken .pop, .asleep .pop, .outside]⟩,
      [none, none, none, none, none, some (.push 7, .pushed)]) := by decide
  obtain ⟨hfifo, -, hwakes⟩ := queue_fifo_and_wakes hrun
  have hlast := hwakes (along_of_forall (fun _ _ _ => .inl rfl) _) .pop (by decide)
  exact ⟨_, _, hrun, rfl, by decide, hfifo, hlast.1⟩

-- with both sides asleep the consumer that leaves may wake the other consumer, and the producer stays
-- asleep in front of an empty queue
example : run (step (body 1)) (start [] 4)
    [.call 0 .pop, .run 0 0, .call 1 .pop, .run 1 0, .call 2 (.push 7), .run 2 0, .call 3 (.push 8), .run 3 0,
      .run 0 1, .run 1 0] =
    some (⟨[], [.outside, .asleep .pop, .outside, .asleep (.push 8)]⟩,
      [none, none, none, none, none, some (.push 7, .pushed), none, none, some (.pop, .popped 7), none]) := by
  decide

end FlyingKV.Common.BlockingQueue
