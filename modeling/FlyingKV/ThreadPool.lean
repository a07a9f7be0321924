import FlyingKV.EventRun

set_option autoImplicit false

/-!
# `ThreadPool`

Workers and callers of `WaitAll` in any interleaving; a step is one access to what they share. The
pool is not destroyed meanwhile. `wait` may wake up at any time, so what `notify_one` does to a
waiter needs no step of its own.
-/
namespace FlyingKV.ThreadPool
open EventRun

/-- Tasks are numbered in the order of `AddTask`. -/
structure Task where
  id : ℕ
  hasAction : Bool
deriving DecidableEq, Repr

/-- Where a worker stands in `proc`. -/
inductive Worker where
  | idle
  | popped (t : Task)
  | counted (t : Task)
  | ran
  | notifying
deriving DecidableEq, Repr

/-- Where a thread stands in `WaitAll`, with the number of tasks that had been added when it was
called. -/
inductive Waiter where
  | outside
  | called (before : ℕ)
  | atQueue (before : ℕ)
  | atCounter (before : ℕ)
  | waiting (before : ℕ)
  | returned (before : ℕ)
deriving DecidableEq, Repr

/-- `added` and `finished` are kept for reference. `mtx` is `m_mtxActiveWorkerCnt`. -/
structure Pool where
  tasks : List Task
  activeWorkersCnt : ℕ
  mtx : Option ℕ
  workers : List Worker
  waiters : ℕ → Waiter
  added : List Task
  finished : List Task

def construct (threadsCnt : UInt32) : Pool where
  tasks := []
  activeWorkersCnt := 0
  mtx := none
  workers := List.replicate threadsCnt.toNat .idle
  waiters := fun _ => .outside
  added := []
  finished := []

inductive Event where
  | addTask (hasAction : Bool)
  | pop (i : ℕ)
  | increment (i : ℕ)
  | skip (i : ℕ)
  | act (i : ℕ)
  | decrement (i : ℕ)
  | notify (i : ℕ)
  | waitAll (j : ℕ)
  | lock (j : ℕ)
  | lookQueue (j : ℕ)
  | lookCounter (j : ℕ)
  | wake (j : ℕ)
deriving DecidableEq, Repr

namespace Pool

def setWorker (s : Pool) (i : ℕ) (w : Worker) : Pool := { s with workers := s.workers.set i w }

def setWaiter (s : Pool) (j : ℕ) (w : Waiter) : Pool := { s with waiters := Function.update s.waiters j w }

/-- `m_bqTasks.Push`. -/
def addTask (s : Pool) (hasAction : Bool) : Pool :=
  let t : Task := ⟨s.added.length, hasAction⟩
  { s with tasks := s.tasks ++ [t], added := s.added ++ [t] }

/-- One step of a worker. -/
def workerStep (s : Pool) : Event → Option Pool
  | .pop i =>
    match s.workers[i]?, s.tasks with
    | some .idle, t :: rest => some ({ s with tasks := rest }.setWorker i (.popped t))
    | _, _ => none
  | .increment i =>
    match s.workers[i]? with
    | some (.popped t) =>
      if t.hasAction then
        some ({ s with activeWorkersCnt := (s.activeWorkersCnt + 1) % 2 ^ 32 }.setWorker i (.counted t))
      else none
    | _ => none
  | .skip i =>
    match s.workers[i]? with
    | some (.popped t) =>
      if t.hasAction then none else some ({ s with finished := t :: s.finished }.setWorker i .notifying)
    | _ => none
  | .act i =>
    match s.workers[i]? with
    | some (.counted t) => some ({ s with finished := t :: s.finished }.setWorker i .ran)
    | _ => none
  | .decrement i =>
    match s.workers[i]? with
    | some .ran =>
      some ({ s with activeWorkersCnt := (s.activeWorkersCnt + 2 ^ 32 - 1) % 2 ^ 32 }.setWorker i .notifying)
    | _ => none
  | .notify i =>
    match s.workers[i]? with
    | some .notifying => some (s.setWorker i .idle)
    | _ => none
  | _ => none

/-- One step of a thread in `WaitAll`. -/
def waiterStep (s : Pool) : Event → Option Pool
  | .waitAll j =>
    match s.waiters j with
    | .outside | .returned _ => some (s.setWaiter j (.called s.added.length))
    | _ => none
  | .lock j =>
    match s.waiters j, s.mtx with
    | .called n, none => some ({ s with mtx := some j }.setWaiter j (.atQueue n))
    | _, _ => none
  | .lookQueue j =>
    match s.waiters j with
    | .atQueue n =>
      if s.tasks = [] then some (s.setWaiter j (.atCounter n))
      else some ({ s with mtx := none }.setWaiter j (.waiting n))
    | _ => none
  | .lookCounter j =>
    match s.waiters j with
    | .atCounter n =>
      if s.activeWorkersCnt = 0 then some ({ s with mtx := none }.setWaiter j (.returned n))
      else some ({ s with mtx := none }.setWaiter j (.waiting n))
    | _ => none
  | .wake j =>
    match s.waiters j with
    | .waiting n => some (s.setWaiter j (.called n))
    | _ => none
  | _ => none

def step (s : Pool) (e : Event) : Option (Pool × Unit) :=
  match e with
  | .addTask hasAction => some (s.addTask hasAction, ())
  | .pop _ | .increment _ | .skip _ | .act _ | .decrement _ | .notify _ => (s.workerStep e).map (·, ())
  | .waitAll _ | .lock _ | .lookQueue _ | .lookCounter _ | .wake _ => (s.waiterStep e).map (·, ())

/-- If `WaitAll` returns, the tasks that had been added when it was called have run. -/
def Sound (s : Pool) (e : Event) : Prop :=
  ∀ o ∈ s.step e, ∀ j n, s.waiters j ≠ .returned n → o.1.waiters j = .returned n →
    ∀ t ∈ s.added, t.id < n → t.hasAction = true → t ∈ s.finished

/-- When `WaitAll` finds the counter at 0, no worker has taken one of these tasks from the queue
without having counted itself yet. -/
def Settled (s : Pool) (e : Event) : Prop :=
  ∀ j n, e = .lookCounter j → s.waiters j = .atCounter n → s.activeWorkersCnt = 0 →
    ∀ t, .popped t ∈ s.workers → t.hasAction = true → n ≤ t.id

/-! ## What a step does -/

inductive Moves (s : Pool) : Event → Pool → Prop
  | addTask (hasAction : Bool) : Moves s (.addTask hasAction) (s.addTask hasAction)
  | pop {i : ℕ} {t : Task} {rest : List Task} (hw : s.workers[i]? = some .idle) (ht : s.tasks = t :: rest) :
      Moves s (.pop i) ({ s with tasks := rest }.setWorker i (.popped t))
  | increment {i : ℕ} {t : Task} (hw : s.workers[i]? = some (.popped t)) :
      Moves s (.increment i)
        ({ s with activeWorkersCnt := (s.activeWorkersCnt + 1) % 2 ^ 32 }.setWorker i (.counted t))
  | skip {i : ℕ} {t : Task} (hw : s.workers[i]? = some (.popped t)) :
      Moves s (.skip i) ({ s with finished := t :: s.finished }.setWorker i .notifying)
  | act {i : ℕ} {t : Task} (hw : s.workers[i]? = some (.counted t)) :
      Moves s (.act i) ({ s with finished := t :: s.finished }.setWorker i .ran)
  | decrement {i : ℕ} (hw : s.workers[i]? = some .ran) :
      Moves s (.decrement i)
        ({ s with activeWorkersCnt := (s.activeWorkersCnt + 2 ^ 32 - 1) % 2 ^ 32 }.setWorker i .notifying)
  | notify {i : ℕ} (hw : s.workers[i]? = some .notifying) : Moves s (.notify i) (s.setWorker i .idle)
  | waitAll (j : ℕ) : Moves s (.waitAll j) (s.setWaiter j (.called s.added.length))
  | lock {j n : ℕ} (hw : s.waiters j = .called n) :
      Moves s (.lock j) ({ s with mtx := some j }.setWaiter j (.atQueue n))
  | queueEmpty {j n : ℕ} (hw : s.waiters j = .atQueue n) (hq : s.tasks = []) :
      Moves s (.lookQueue j) (s.setWaiter j (.atCounter n))
  | queueBusy {j n : ℕ} (hw : s.waiters j = .atQueue n) :
      Moves s (.lookQueue j) ({ s with mtx := none }.setWaiter j (.waiting n))
  | counterZero {j n : ℕ} (hw : s.waiters j = .atCounter n) (hc : s.activeWorkersCnt = 0) :
      Moves s (.lookCounter j) ({ s with mtx := none }.setWaiter j (.returned n))
  | counterBusy {j n : ℕ} (hw : s.waiters j = .atCounter n) (hc : s.activeWorkersCnt ≠ 0) :
      Moves s (.lookCounter j) ({ s with mtx := none }.setWaiter j (.waiting n))
  | wake {j n : ℕ} (hw : s.waiters j = .waiting n) : Moves s (.wake j) (s.setWaiter j (.called n))

theorem moves_of_workerStep {s u : Pool} {e : Event} (h : s.workerStep e = some u) : s.Moves e u := by
  cases e with
  | pop i =>
    simp only [workerStep] at h
    split at h
    · rename_i hw ht
      cases h
      exact .pop hw ht
    · cases h
  | increment i =>
    simp only [workerStep] at h
    split at h
    · rename_i hw
      split_ifs at h
      cases h
      exact .increment hw
    · cases h
  | skip i =>
    simp only [workerStep] at h
    split at h
    · rename_i hw
      split_ifs at h
      cases h
      exact .skip hw
    · cases h
  | act i =>
    simp only [workerStep] at h
    split at h
    · rename_i hw
      cases h
      exact .act hw
    · cases h
  | decrement i =>
    simp only [workerStep] at h
    split at h
    · rename_i hw
      cases h
      exact .decrement hw
    · cases h
  | notify i =>
    simp only [workerStep] at h
    split at h
    · rename_i hw
      cases h
      exact .notify hw
    · cases h
  | addTask | waitAll | lock | lookQueue | lookCounter | wake => cases h

theorem moves_of_waiterStep {s u : Pool} {e : Event} (h : s.waiterStep e = some u) : s.Moves e u := by
  cases e with
  | waitAll j =>
    simp only [waiterStep] at h
    split at h
    · cases h
      exact .waitAll j
    · cases h
      exact .waitAll j
    · cases h
  | lock j =>
    simp only [waiterStep] at h
    split at h
    · rename_i hw _
      cases h
      exact .lock hw
    · cases h
  | lookQueue j =>
    simp only [waiterStep] at h
    split at h
    · rename_i hw
      split_ifs at h with hq
      · cases h
        exact .queueEmpty hw hq
      · cases h
        exact .queueBusy hw
    · cases h
  | lookCounter j =>
    simp only [waiterStep] at h
    split at h
    · rename_i hw
      split_ifs at h with hc
      · cases h
        exact .counterZero hw hc
      · cases h
        exact .counterBusy hw hc
    · cases h
  | wake j =>
    simp only [waiterStep] at h
    split at h
    · rename_i hw
      cases h
      exact .wake hw
    · cases h
  | addTask | pop | increment | skip | act | decrement | notify => cases h

theorem moves_of_step {s : Pool} {e : Event} {o : Pool × Unit} (h : s.step e = some o) : s.Moves e o.1 := by
  cases e with
  | addTask hasAction =>
    cases h
    exact .addTask hasAction
  | pop | increment | skip | act | decrement | notify =>
    obtain ⟨u, hu, rfl⟩ := Option.map_eq_some_iff.mp h
    exact moves_of_workerStep hu
  | waitAll | lock | lookQueue | lookCounter | wake =>
    obtain ⟨u, hu, rfl⟩ := Option.map_eq_some_iff.mp h
    exact moves_of_waiterStep hu

end Pool

/-! ## The invariant -/

/-- The task that a worker has not run yet. -/
def Worker.held : Worker → Option Task
  | .popped t | .counted t => some t
  | _ => none

def Worker.counting : Worker → Bool
  | .counted _ | .ran => true
  | _ => false

def Waiter.before : Waiter → Option ℕ
  | .outside => none
  | .called n | .atQueue n | .atCounter n | .waiting n | .returned n => some n

namespace Pool

/-- Every task is in the queue, with one worker, or has run. -/
structure Inv (s : Pool) : Prop where
  conserved : (s.tasks ++ s.workers.filterMap Worker.held ++ s.finished).Perm s.added
  numbered : s.added.map Task.id = List.range s.added.length
  counting : s.activeWorkersCnt = s.workers.countP Worker.counting % 2 ^ 32
  few : s.workers.length < 2 ^ 32
  known : ∀ j n, (s.waiters j).before = some n → n ≤ s.added.length
  drained : ∀ j n, s.waiters j = .atCounter n → ∀ t ∈ s.tasks, n ≤ t.id

theorem inv_construct (threadsCnt : UInt32) : (construct threadsCnt).Inv where
  conserved := by simp [construct, Worker.held]
  numbered := rfl
  counting := by
    have hzero : (construct threadsCnt).workers.countP Worker.counting = 0 := by
      rw [List.countP_eq_zero]
      intro w hw
      rw [List.eq_of_mem_replicate hw]
      exact Bool.false_ne_true
    rw [hzero]
    rfl
  few := by
    simp only [construct, List.length_replicate]
    exact threadsCnt.toNat_lt
  known := nofun
  drained := nofun

theorem exists_around {workers : List Worker} {i : ℕ} {w : Worker} (h : workers[i]? = some w) :
    ∃ ws vs, workers = ws ++ w :: vs ∧ ∀ w', workers.set i w' = ws ++ w' :: vs := by
  obtain ⟨hi, rfl⟩ := List.getElem?_eq_some_iff.mp h
  refine ⟨workers.take i, workers.drop (i + 1), ?_, fun w' => ?_⟩
  · rw [List.getElem_cons_drop, List.take_append_drop]
  · exact List.set_eq_take_append_cons_drop.trans (if_pos hi)

section
variable {s : Pool} {i j n : ℕ} {w w' : Worker}

theorem Inv.setWorker (hs : s.Inv) (hw : s.workers[i]? = some w) (tasks finished : List Task) (cnt : ℕ)
    (hheld : ∀ rest : List Task, (tasks ++ (w'.held.toList ++ rest) ++ finished).Perm
      (s.tasks ++ (w.held.toList ++ rest) ++ s.finished))
    (hcnt : ∀ k, s.activeWorkersCnt = ((if w.counting then 1 else 0) + k) % 2 ^ 32 →
      cnt = ((if w'.counting then 1 else 0) + k) % 2 ^ 32)
    (htasks : tasks ⊆ s.tasks) :
    ({ s with tasks := tasks, finished := finished, activeWorkersCnt := cnt }.setWorker i w').Inv := by
  obtain ⟨ws, vs, hsplit, hset⟩ := exists_around hw
  have hperm : ∀ x : Worker, ((ws ++ x :: vs).filterMap Worker.held).Perm
      (x.held.toList ++ (ws ++ vs).filterMap Worker.held) := by
    intro x
    refine (List.perm_middle.filterMap Worker.held).trans ?_
    cases hx : x.held <;> simp [hx]
  have hcount : ∀ x : Worker, (ws ++ x :: vs).countP Worker.counting =
      (if x.counting then 1 else 0) + (ws ++ vs).countP Worker.counting := by
    intro x
    rw [List.perm_middle.countP_eq, List.countP_cons, Nat.add_comm]
  refine ⟨?_, hs.numbered, ?_, ?_, hs.known, fun j n hj t ht => hs.drained j n hj t (htasks ht)⟩
  · change (tasks ++ (s.workers.set i w').filterMap Worker.held ++ finished).Perm s.added
    have hold := hs.conserved
    rw [hsplit] at hold
    rw [hset]
    refine (((hperm w').append_left tasks).append_right finished).trans ((hheld _).trans ?_)
    exact (((hperm w).append_left s.tasks).append_right s.finished).symm.trans hold
  · change cnt = (s.workers.set i w').countP Worker.counting % 2 ^ 32
    rw [hset, hcount]
    refine hcnt _ ?_
    rw [hs.counting, hsplit, hcount]
  · change (s.workers.set i w').length < 2 ^ 32
    rw [List.length_set]
    exact hs.few

theorem Inv.setWaiter (hs : s.Inv) {w : Waiter} {mtx : Option ℕ} (hknown : ∀ n, w.before = some n → n ≤ s.added.length)
    (hdrained : ∀ n, w = .atCounter n → s.tasks = []) : ({ s with mtx := mtx }.setWaiter j w).Inv := by
  refine ⟨hs.conserved, hs.numbered, hs.counting, hs.few, fun k n hk => ?_, fun k n hk => ?_⟩
  · change (Function.update s.waiters j w k).before = some n at hk
    by_cases hkj : k = j
    · subst hkj
      rw [Function.update_self] at hk
      exact hknown n hk
    · rw [Function.update_of_ne hkj] at hk
      exact hs.known k n hk
  · change Function.update s.waiters j w k = .atCounter n at hk
    by_cases hkj : k = j
    · subst hkj
      rw [Function.update_self] at hk
      intro t ht
      rw [show s.tasks = [] from hdrained n hk] at ht
      cases ht
    · rw [Function.update_of_ne hkj] at hk
      exact hs.drained k n hk

theorem Inv.addTask (hs : s.Inv) (hasAction : Bool) : (s.addTask hasAction).Inv := by
  have hlen : (s.added ++ [(⟨s.added.length, hasAction⟩ : Task)]).length = s.added.length + 1 := by simp
  refine ⟨?_, ?_, hs.counting, hs.few, fun j n hj => ?_, fun j n hj t ht => ?_⟩
  · change (s.tasks ++ [_] ++ s.workers.filterMap Worker.held ++ s.finished).Perm (s.added ++ [_])
    have hold := hs.conserved.append_right [(⟨s.added.length, hasAction⟩ : Task)]
    refine List.Perm.trans ?_ hold
    rw [List.perm_iff_count]
    intro t
    simp only [List.count_append]
    omega
  · change (s.added ++ [_]).map Task.id = List.range (s.added ++ [_]).length
    rw [hlen, List.range_succ, List.map_append, hs.numbered]
    rfl
  · change n ≤ (s.added ++ [_]).length
    rw [hlen]
    exact (hs.known j n hj).trans (Nat.le_succ _)
  · rcases List.mem_append.mp ht with ht | ht
    · exact hs.drained j n hj t ht
    · rw [List.mem_singleton.mp ht]
      change s.waiters j = .atCounter n at hj
      exact hs.known j n (by rw [hj]; rfl)

theorem perm_finish (tasks rest finished : List Task) (t : Task) :
    (tasks ++ rest ++ t :: finished).Perm (tasks ++ (t :: rest) ++ finished) := by
  rw [List.perm_iff_count]
  intro x
  simp only [List.count_append, List.count_cons]
  omega

/-- A thread that moves on in `WaitAll` waits for the tasks it waited for. -/
theorem Inv.known_waiter (hs : s.Inv) {w w' : Waiter} (hw : s.waiters j = w) (hsame : w'.before = w.before) (n : ℕ)
    (hn : w'.before = some n) : n ≤ s.added.length :=
  hs.known j n (by rw [hw, ← hsame, hn])

theorem Inv.moves {e : Event} {u : Pool} (hs : s.Inv) (h : s.Moves e u) : u.Inv := by
  cases h with
  | addTask hasAction => exact hs.addTask hasAction
  | @pop i t tasks hw ht =>
    refine hs.setWorker hw tasks s.finished s.activeWorkersCnt (fun rest => ?_) (fun k hk => hk) ?_
    · rw [ht, List.perm_iff_count]
      intro x
      simp only [Worker.held, Option.toList_some, Option.toList_none, List.count_append, List.count_cons, List.count_nil]
      omega
    · rw [ht]
      exact List.subset_cons_self t tasks
  | increment hw =>
    refine hs.setWorker hw s.tasks s.finished _ (fun rest => .refl _) (fun k hk => ?_) (List.Subset.refl _)
    simp only [Worker.counting, Bool.false_eq_true, if_false, if_true] at hk ⊢
    omega
  | skip hw =>
    exact hs.setWorker hw s.tasks _ s.activeWorkersCnt (fun rest => perm_finish s.tasks rest s.finished _)
      (fun k hk => hk) (List.Subset.refl _)
  | act hw =>
    exact hs.setWorker hw s.tasks _ s.activeWorkersCnt (fun rest => perm_finish s.tasks rest s.finished _)
      (fun k hk => hk) (List.Subset.refl _)
  | decrement hw =>
    refine hs.setWorker hw s.tasks s.finished _ (fun rest => .refl _) (fun k hk => ?_) (List.Subset.refl _)
    simp only [Worker.counting, Bool.false_eq_true, if_false, if_true] at hk ⊢
    omega
  | notify hw =>
    exact hs.setWorker hw s.tasks s.finished s.activeWorkersCnt (fun rest => .refl _) (fun k hk => hk)
      (List.Subset.refl _)
  | waitAll j =>
    refine hs.setWaiter (fun n hn => ?_) nofun
    cases hn
    exact le_rfl
  | @lock j n hw => exact hs.setWaiter (hs.known_waiter hw rfl) nofun
  | @queueEmpty j n hw hq => exact hs.setWaiter (hs.known_waiter hw rfl) fun _ _ => hq
  | @queueBusy j n hw => exact hs.setWaiter (hs.known_waiter hw rfl) nofun
  | @counterZero j n hw => exact hs.setWaiter (hs.known_waiter hw rfl) nofun
  | @counterBusy j n hw => exact hs.setWaiter (hs.known_waiter hw rfl) nofun
  | @wake j n hw => exact hs.setWaiter (hs.known_waiter hw rfl) nofun

/-! ## What the counter tells -/

/-- At 0 no worker has counted itself. -/
theorem Inv.not_counting (hs : s.Inv) (hzero : s.activeWorkersCnt = 0) {w : Worker} (hw : w ∈ s.workers) :
    w.counting = false := by
  have hle := List.countP_le_length (p := Worker.counting) (l := s.workers)
  have hfew := hs.few
  have hcount := hs.counting
  rw [hzero, Nat.mod_eq_of_lt (by omega)] at hcount
  have := List.countP_eq_zero.mp hcount.symm w hw
  simpa using this

theorem Inv.nodup (hs : s.Inv) : (s.tasks ++ s.workers.filterMap Worker.held ++ s.finished).Nodup := by
  rw [hs.conserved.nodup_iff]
  refine List.Nodup.of_map Task.id ?_
  rw [hs.numbered]
  exact List.nodup_range

/-- A task that is not in the queue any more when nobody counts has run or is with a worker that
has only taken it. -/
theorem Inv.unfinished_iff (hs : s.Inv) (hzero : s.activeWorkersCnt = 0) {t : Task} (ht : t ∈ s.added)
    (hqueue : t ∉ s.tasks) : t ∉ s.finished ↔ .popped t ∈ s.workers := by
  have hmem := hs.conserved.mem_iff.mpr ht
  constructor
  · intro hnot
    rcases List.mem_append.mp hmem with hmem | hmem
    · obtain ⟨w, hw, hheld⟩ := List.mem_filterMap.mp ((List.mem_append.mp hmem).resolve_left hqueue)
      have hcount := hs.not_counting hzero hw
      cases w with
      | popped t' =>
        cases hheld
        exact hw
      | counted t' => cases hcount
      | idle | ran | notifying => cases hheld
    · exact absurd hmem hnot
  · intro hw hfinished
    have hheld : t ∈ s.workers.filterMap Worker.held := List.mem_filterMap.mpr ⟨_, hw, rfl⟩
    exact List.disjoint_of_nodup_append hs.nodup (List.mem_append_right _ hheld) hfinished

theorem Inv.mem_added (hs : s.Inv) {t : Task} (hw : .popped t ∈ s.workers) : t ∈ s.added := by
  refine hs.conserved.mem_iff.mp (List.mem_append_left _ (List.mem_append_right _ ?_))
  exact List.mem_filterMap.mpr ⟨_, hw, rfl⟩

theorem returned_setWaiter {k : ℕ} {w : Waiter} (hold : s.waiters j ≠ .returned n)
    (hnew : (s.setWaiter k w).waiters j = .returned n) : j = k ∧ w = .returned n := by
  change Function.update s.waiters k w j = .returned n at hnew
  by_cases hjk : j = k
  · subst hjk
    rw [Function.update_self] at hnew
    exact ⟨rfl, hnew⟩
  · rw [Function.update_of_ne hjk] at hnew
    exact absurd hnew hold

/-- Only a look at the counter makes `WaitAll` return. -/
theorem returned_of_moves {e : Event} {u : Pool} (h : s.Moves e u) (hold : s.waiters j ≠ .returned n)
    (hnew : u.waiters j = .returned n) :
    e = .lookCounter j ∧ s.waiters j = .atCounter n ∧ s.activeWorkersCnt = 0 := by
  cases h with
  | addTask | pop | increment | skip | act | decrement | notify => exact absurd hnew hold
  | counterZero hw hc =>
    obtain ⟨rfl, heq⟩ := returned_setWaiter hold hnew
    cases heq
    exact ⟨rfl, hw, hc⟩
  | waitAll | lock | queueEmpty | queueBusy | counterBusy | wake => cases (returned_setWaiter hold hnew).2

theorem sound_iff_settled (hs : s.Inv) (e : Event) : s.Sound e ↔ s.Settled e := by
  have hqueue : ∀ j n t, s.waiters j = .atCounter n → t.id < n → t ∉ s.tasks := fun j n t hj hlt ht =>
    absurd (hs.drained j n hj t ht) (not_le.mpr hlt)
  constructor
  · rintro h j n rfl hj hzero t hw haction
    have hstep : s.step (.lookCounter j) = some ({ s with mtx := none }.setWaiter j (.returned n), ()) := by
      simp only [step, waiterStep, hj, hzero, if_true, Option.map_some]
    by_contra hlt
    refine (hs.unfinished_iff hzero (hs.mem_added hw) (hqueue j n t hj (not_le.mp hlt))).mpr hw ?_
    refine h _ hstep j n (by rw [hj]; nofun) ?_ t (hs.mem_added hw) (not_le.mp hlt) haction
    exact Function.update_self _ _ _
  · intro h o ho j n hold hnew t ht hlt haction
    obtain ⟨rfl, hj, hzero⟩ := returned_of_moves (moves_of_step ho) hold hnew
    by_contra hnot
    have hw := (hs.unfinished_iff hzero ht (hqueue j n t hj hlt)).mp hnot
    exact absurd (h j n rfl hj hzero t hw haction) (not_le.mpr hlt)

end

end Pool

theorem waitAll_done_iff (threadsCnt : UInt32) (es : List Event) :
    Along Pool.step Pool.Sound (construct threadsCnt) es ↔ Along Pool.step Pool.Settled (construct threadsCnt) es :=
  along_congr (L := fun _ _ => True) (I := Pool.Inv) (fun _ e hs _ => Pool.sound_iff_settled hs e)
    (fun _ _ _ hs _ _ ho => hs.moves (Pool.moves_of_step ho)) (Pool.inv_construct threadsCnt)
    (along_of_forall (fun _ _ _ => trivial) _)

/-- A worker takes the task; before it counts itself `WaitAll` looks at the empty queue and at the
counter. The task runs afterwards. -/
theorem waitAll_returns_early :
    (run Pool.step (construct 1)
        [.addTask true, .waitAll 0, .pop 0, .lock 0, .lookQueue 0, .lookCounter 0]).map
        (fun o => (o.1.waiters 0, o.1.workers, o.1.finished)) =
      some (.returned 1, [.popped ⟨0, true⟩], []) ∧
    ¬ Along Pool.step Pool.Sound (construct 1)
        [.addTask true, .waitAll 0, .pop 0, .lock 0, .lookQueue 0, .lookCounter 0] := by
  refine ⟨rfl, fun h => ?_⟩
  have hsound := (((((h.2 _ rfl).2 _ rfl).2 _ rfl).2 _ rfl).2 _ rfl).1
  exact absurd (hsound _ rfl 0 1 nofun rfl ⟨0, true⟩ List.mem_cons_self (by decide) rfl) List.not_mem_nil

end FlyingKV.ThreadPool
