import FlyingKV.EventRun

set_option autoImplicit false

/-!
# Monitors with one condition variable

The operations of an object run under one mutex. An operation that cannot go on sleeps on the
condition variable and looks at the object again when it is woken; one that finishes may wake a
sleeper, or all of them. Which sleeper is woken is not determined, and a sleeper may wake up by
itself.
-/
namespace FlyingKV.Monitor
open EventRun

inductive Signal where
  | silent
  | one
  | all
deriving DecidableEq, Repr

/-- What an operation does from one acquisition of the mutex to its release. -/
inductive Outcome (σ ρ : Type) where
  | sleep
  | finish (obj : σ) (reply : ρ) (signal : Signal)
deriving DecidableEq, Repr

inductive Thread (κ : Type) where
  | outside
  | entered (c : κ)
  | asleep (c : κ)
  | woken (c : κ)
deriving DecidableEq, Repr

structure State (σ κ : Type) where
  obj : σ
  threads : List (Thread κ)
deriving DecidableEq, Repr

/-- In `run i j` thread `i` gets the mutex, and `j` is the sleeper it wakes if it wakes one. -/
inductive Event (κ : Type) where
  | call (i : ℕ) (c : κ)
  | run (i j : ℕ)
  | spurious (i : ℕ)
deriving DecidableEq, Repr

section
variable {σ κ ρ : Type}

namespace Thread

def isAsleep : Thread κ → Bool
  | asleep _ => true
  | _ => false

/-- The call of a thread that waits for the mutex only. -/
def ready : Thread κ → Option κ
  | entered c => some c
  | woken c => some c
  | _ => none

def wake : Thread κ → Thread κ
  | asleep c => woken c
  | t => t

/-- The thread is woken inside a call with the property. -/
def wokenIn (p : κ → Bool) : Thread κ → Bool
  | woken c => p c
  | _ => false

end Thread

def notifyOne (ts : List (Thread κ)) (j : ℕ) : Option (List (Thread κ)) :=
  if ts.any Thread.isAsleep then
    match ts[j]? with
    | some (.asleep c) => some (ts.set j (.woken c))
    | _ => none
  else some ts

def notify (ts : List (Thread κ)) (j : ℕ) : Signal → Option (List (Thread κ))
  | .silent => some ts
  | .one => notifyOne ts j
  | .all => some (ts.map Thread.wake)

variable (body : σ → κ → Outcome σ ρ)

def step (s : State σ κ) : Event κ → Option (State σ κ × Option (κ × ρ))
  | .call i c =>
    match s.threads[i]? with
    | some .outside => some (⟨s.obj, s.threads.set i (.entered c)⟩, none)
    | _ => none
  | .run i j =>
    match (s.threads[i]?).bind Thread.ready with
    | none => none
    | some c =>
      match body s.obj c with
      | .sleep => some (⟨s.obj, s.threads.set i (.asleep c)⟩, none)
      | .finish obj reply signal =>
        (notify (s.threads.set i .outside) j signal).map (fun ts => (⟨obj, ts⟩, some (c, reply)))
  | .spurious i =>
    match s.threads[i]? with
    | some (.asleep c) => some (⟨s.obj, s.threads.set i (.woken c)⟩, none)
    | _ => none

def start (obj : σ) (threadsCnt : ℕ) : State σ κ := ⟨obj, List.replicate threadsCnt .outside⟩

/-- The operations one after the other, each finishing at once. -/
inductive Performs : σ → List (κ × ρ) → σ → Prop
  | nil (obj : σ) : Performs obj [] obj
  | cons {obj mid last : σ} {c : κ} {reply : ρ} {signal : Signal} {calls : List (κ × ρ)}
      (hbody : body obj c = .finish mid reply signal) (hrest : Performs mid calls last) :
      Performs obj ((c, reply) :: calls) last

/-! ## What a step does -/

inductive Moves (s : State σ κ) : Event κ → State σ κ → Option (κ × ρ) → Prop
  | call {i : ℕ} (c : κ) (hi : s.threads[i]? = some .outside) :
      Moves s (.call i c) ⟨s.obj, s.threads.set i (.entered c)⟩ none
  | sleep {i j : ℕ} {t : Thread κ} {c : κ} (hi : s.threads[i]? = some t) (ht : t.ready = some c)
      (hbody : body s.obj c = .sleep) :
      Moves s (.run i j) ⟨s.obj, s.threads.set i (.asleep c)⟩ none
  | finish {i j : ℕ} {t : Thread κ} {c : κ} {obj : σ} {reply : ρ} {signal : Signal} {ts : List (Thread κ)}
      (hi : s.threads[i]? = some t) (ht : t.ready = some c) (hbody : body s.obj c = .finish obj reply signal)
      (hts : notify (s.threads.set i .outside) j signal = some ts) :
      Moves s (.run i j) ⟨obj, ts⟩ (some (c, reply))
  | spurious {i : ℕ} {c : κ} (hi : s.threads[i]? = some (.asleep c)) :
      Moves s (.spurious i) ⟨s.obj, s.threads.set i (.woken c)⟩ none

variable {body}

theorem moves_of_step {s u : State σ κ} {e : Event κ} {r : Option (κ × ρ)}
    (h : step body s e = some (u, r)) : Moves body s e u r := by
  cases e with
  | call i c =>
    simp only [step] at h
    split at h
    · rename_i hi
      cases h
      exact .call c hi
    · cases h
  | run i j =>
    simp only [step] at h
    split at h
    · cases h
    · rename_i c hc
      obtain ⟨t, hi, ht⟩ := Option.bind_eq_some_iff.mp hc
      split at h
      · rename_i hbody
        cases h
        exact .sleep hi ht hbody
      · rename_i obj reply signal hbody
        obtain ⟨ts, hts, heq⟩ := Option.map_eq_some_iff.mp h
        cases heq
        exact .finish hi ht hbody hts
  | spurious i =>
    simp only [step] at h
    split at h
    · rename_i hi
      cases h
      exact .spurious hi
    · cases h

theorem notifyOne_cases {ts us : List (Thread κ)} {j : ℕ} (h : notifyOne ts j = some us) :
    (∃ d, ts[j]? = some (.asleep d) ∧ us = ts.set j (.woken d)) ∨ (∀ d, .asleep d ∉ ts) ∧ us = ts := by
  unfold notifyOne at h
  split at h
  · split at h
    · rename_i d hj
      cases h
      exact .inl ⟨d, hj, rfl⟩
    · cases h
  · rename_i hnone
    cases h
    refine .inr ⟨fun d hd => hnone ?_, rfl⟩
    exact List.any_eq_true.mpr ⟨_, hd, rfl⟩

/-- Whatever the interleaving, the object has seen the finished calls one after the other. -/
theorem run_performs {s v : State σ κ} {es : List (Event κ)} {rs : List (Option (κ × ρ))}
    (h : run (step body) s es = some (v, rs)) : Performs body s.obj (rs.filterMap id) v.obj := by
  induction es generalizing s rs with
  | nil =>
    cases h
    exact .nil _
  | cons e es ih =>
    obtain ⟨u, r, rs', hs, hr, rfl⟩ := run_cons.mp h
    have hrest := ih hr
    cases moves_of_step hs with
    | call _ _ => simpa using hrest
    | sleep _ _ _ => simpa using hrest
    | spurious _ => simpa using hrest
    | finish _ _ hbody _ => exact .cons hbody hrest

/-! ## Wake-ups -/

theorem countP_set_of {α : Type} (p : α → Bool) {l : List α} {i : ℕ} {x : α} (y : α) (h : l[i]? = some x) :
    (l.set i y).countP p + (if p x then 1 else 0) = l.countP p + (if p y then 1 else 0) := by
  obtain ⟨hi, rfl⟩ := List.getElem?_eq_some_iff.mp h
  have hpos : p l[i] = true → 0 < l.countP p := fun hp =>
    List.countP_pos_iff.mpr ⟨l[i], List.getElem_mem hi, hp⟩
  rw [List.countP_set hi]
  by_cases hx : p l[i] = true
  · have := hpos hx
    rw [if_pos hx]
    omega
  · rw [if_neg hx]
    omega

/-- How many calls of each kind the object lets through: a call sleeps when there is none for its
kind, uses one up when it finishes, and makes room for at most as many as it wakes. -/
structure Credits (body : σ → κ → Outcome σ ρ) (ι : Type) where
  kind : κ → ι
  credit : ι → σ → ℕ
  mayWait : κ → Bool
  waits : ∀ {obj c}, body obj c = .sleep → mayWait c = true
  sleep_iff : ∀ {obj c}, mayWait c = true → (body obj c = .sleep ↔ credit (kind c) obj = 0)
  spent : ∀ {obj c u r signal}, mayWait c = true → body obj c = .finish u r signal →
    credit (kind c) u < credit (kind c) obj
  silent : ∀ {obj c u r}, body obj c = .finish u r .silent → ∀ k, credit k u ≤ credit k obj
  one : ∀ {obj c u r}, body obj c = .finish u r .one → ∀ k, credit k u ≤ credit k obj + 1

namespace Credits
variable {ι : Type} (C : Credits body ι)

/-- Only calls that may wait are asleep or woken. -/
def Waiting (s : State σ κ) : Prop :=
  ∀ c, .asleep c ∈ s.threads ∨ .woken c ∈ s.threads → C.mayWait c = true

variable {C}

theorem Waiting.set {s : State σ κ} (h : C.Waiting s) (obj : σ) (i : ℕ) {t : Thread κ}
    (ht : ∀ c, t = .asleep c ∨ t = .woken c → C.mayWait c = true) : C.Waiting ⟨obj, s.threads.set i t⟩ := by
  rintro c (hc | hc)
  · rcases List.mem_or_eq_of_mem_set hc with hc | hc
    · exact h c (.inl hc)
    · exact ht c (.inl hc.symm)
  · rcases List.mem_or_eq_of_mem_set hc with hc | hc
    · exact h c (.inr hc)
    · exact ht c (.inr hc.symm)

theorem Waiting.wake {s : State σ κ} (h : C.Waiting s) (obj : σ) :
    C.Waiting ⟨obj, s.threads.map Thread.wake⟩ := by
  intro c hc
  have hmem : ∃ t ∈ s.threads, t.wake = .asleep c ∨ t.wake = .woken c := by
    rcases hc with hc | hc
    · obtain ⟨t, ht, heq⟩ := List.mem_map.mp hc
      exact ⟨t, ht, .inl heq⟩
    · obtain ⟨t, ht, heq⟩ := List.mem_map.mp hc
      exact ⟨t, ht, .inr heq⟩
  obtain ⟨t, ht, heq⟩ := hmem
  cases t with
  | outside | entered d => rcases heq with heq | heq <;> cases heq
  | asleep d =>
    rcases heq with heq | heq
    · cases heq
    · cases heq
      exact h c (.inl ht)
  | woken d =>
    rcases heq with heq | heq
    · cases heq
    · cases heq
      exact h c (.inr ht)

theorem Waiting.notify {s : State σ κ} (h : C.Waiting s) (obj : σ) {j : ℕ} {signal : Signal}
    {ts : List (Thread κ)} (hts : Monitor.notify s.threads j signal = some ts) : C.Waiting ⟨obj, ts⟩ := by
  cases signal with
  | silent =>
    cases hts
    exact h
  | one =>
    rcases notifyOne_cases hts with ⟨d, hj, rfl⟩ | ⟨-, rfl⟩
    · refine h.set obj j (fun c hc => ?_)
      rcases hc with hc | hc
      · cases hc
      · cases hc
        exact h d (.inl (List.mem_of_getElem? hj))
    · exact h
  | all =>
    cases hts
    exact h.wake obj

theorem Waiting.moves {s u : State σ κ} {e : Event κ} {r : Option (κ × ρ)} (h : C.Waiting s)
    (hm : Moves body s e u r) : C.Waiting u := by
  cases hm with
  | call c _ => exact h.set _ _ (fun d hd => by rcases hd with hd | hd <;> cases hd)
  | sleep _ _ hbody =>
    refine h.set _ _ (fun d hd => ?_)
    rcases hd with hd | hd
    · cases hd
      exact C.waits hbody
    · cases hd
  | @finish i j t c obj reply signal ts _ _ _ hts =>
    have hout : C.Waiting ⟨obj, s.threads.set i .outside⟩ :=
      h.set _ _ (fun d hd => by rcases hd with hd | hd <;> cases hd)
    exact hout.notify obj hts
  | @spurious i c hi =>
    refine h.set _ _ (fun d hd => ?_)
    rcases hd with hd | hd
    · cases hd
    · cases hd
      exact h c (.inl (List.mem_of_getElem? hi))

theorem waiting_start (obj : σ) (threadsCnt : ℕ) : C.Waiting (start obj threadsCnt) := by
  rintro c (hc | hc)
  · cases List.eq_of_mem_replicate hc
  · cases List.eq_of_mem_replicate hc

variable [DecidableEq ι] (C)

def wokenOf (k : ι) (ts : List (Thread κ)) : ℕ := ts.countP (Thread.wokenIn (fun c => C.kind c = k))

/-- A sleeper's kind has no more credit than there are threads of the kind already woken. -/
def NoLostWakeup (s : State σ κ) : Prop :=
  ∀ c, .asleep c ∈ s.threads → C.credit (C.kind c) s.obj ≤ C.wokenOf (C.kind c) s.threads

/-- The threads asleep are all inside calls of one kind. -/
def Unmixed (s : State σ κ) : Prop :=
  ∀ c d, .asleep c ∈ s.threads → .asleep d ∈ s.threads → C.kind c = C.kind d

variable {C}

/-- The thread that leaves takes its own credit with it. -/
theorem NoLostWakeup.leave {s : State σ κ} (h : C.NoLostWakeup s) (hw : C.Waiting s) {i : ℕ} {t : Thread κ}
    {c : κ} (hi : s.threads[i]? = some t) (ht : t.ready = some c) {d : κ} (hd : .asleep d ∈ s.threads)
    {obj : σ} {n : ℕ} (hspent : C.mayWait c = true → C.credit (C.kind c) obj < C.credit (C.kind c) s.obj)
    (hcredit : C.credit (C.kind d) obj ≤ C.credit (C.kind d) s.obj + n) :
    C.credit (C.kind d) obj ≤ C.wokenOf (C.kind d) (s.threads.set i .outside) + n := by
  have hcount := countP_set_of (Thread.wokenIn (fun x => C.kind x = C.kind d)) .outside hi
  have hle := h d hd
  have hout : Thread.wokenIn (fun x => decide (C.kind x = C.kind d)) (Thread.outside : Thread κ) = false := rfl
  simp only [hout, Bool.false_eq_true, if_false, add_zero] at hcount
  unfold wokenOf at hle ⊢
  by_cases hwoken : t.wokenIn (fun x => C.kind x = C.kind d) = true
  · rw [if_pos hwoken] at hcount
    cases t with
    | woken x =>
      cases ht
      have hkind : C.kind c = C.kind d := of_decide_eq_true hwoken
      have hlt := hspent (hw c (.inr (List.mem_of_getElem? hi)))
      rw [hkind] at hlt
      omega
    | outside | entered x | asleep x => cases hwoken
  · rw [if_neg hwoken] at hcount
    omega

theorem asleep_of_set {ts : List (Thread κ)} {i : ℕ} {t : Thread κ} {d : κ} (ht : t ≠ .asleep d)
    (h : .asleep d ∈ ts.set i t) : .asleep d ∈ ts :=
  (List.mem_or_eq_of_mem_set h).resolve_right (fun heq => ht heq.symm)

theorem NoLostWakeup.moves {s u : State σ κ} {e : Event κ} {r : Option (κ × ρ)} (h : C.NoLostWakeup s)
    (hw : C.Waiting s) (hu : C.Unmixed s) (hm : Moves body s e u r) : C.NoLostWakeup u := by
  intro d hd
  cases hm with
  | @call i c hi =>
    have hcount := countP_set_of (Thread.wokenIn (fun x => C.kind x = C.kind d)) (.entered c) hi
    exact (h d (asleep_of_set (by rintro ⟨⟩) hd)).trans_eq hcount.symm
  | @sleep i j t c hi ht hbody =>
    have hzero := (C.sleep_iff (C.waits hbody)).mp hbody
    by_cases hkind : C.kind c = C.kind d
    · rw [hkind] at hzero
      exact hzero.trans_le (Nat.zero_le _)
    · have hd' : .asleep d ∈ s.threads := asleep_of_set (by rintro ⟨⟩; exact hkind rfl) hd
      have hcount := countP_set_of (Thread.wokenIn (fun x => C.kind x = C.kind d)) (.asleep c) hi
      have hwoken : t.wokenIn (fun x => C.kind x = C.kind d) = false := by
        cases t with
        | woken x =>
          cases ht
          exact decide_eq_false hkind
        | _ => rfl
      rw [hwoken] at hcount
      exact (h d hd').trans_eq hcount.symm
  | @finish i j t c obj reply signal ts hi ht hbody hts =>
    have hspent := fun hc => C.spent hc hbody
    cases signal with
    | silent =>
      cases hts
      have hd' : .asleep d ∈ s.threads := asleep_of_set (by rintro ⟨⟩) hd
      exact h.leave hw hi ht hd' (n := 0) hspent (C.silent hbody _)
    | one =>
      rcases notifyOne_cases hts with ⟨x, hj, rfl⟩ | ⟨hnone, rfl⟩
      · have hx : .asleep x ∈ s.threads := asleep_of_set (by rintro ⟨⟩) (List.mem_of_getElem? hj)
        have hd' : .asleep d ∈ s.threads :=
          asleep_of_set (by rintro ⟨⟩) (asleep_of_set (by rintro ⟨⟩) hd)
        have hcount := countP_set_of (Thread.wokenIn (fun y => C.kind y = C.kind d)) (.woken x) hj
        have hkind : Thread.wokenIn (fun y => decide (C.kind y = C.kind d)) (Thread.woken x) = true :=
          decide_eq_true (hu x d hx hd')
        rw [hkind] at hcount
        exact (h.leave hw hi ht hd' (n := 1) hspent (C.one hbody _)).trans_eq hcount.symm
      · exact absurd hd (hnone d)
    | all =>
      cases hts
      obtain ⟨t, -, heq⟩ := List.mem_map.mp hd
      cases t <;> cases heq
  | @spurious i c hi =>
    have hd' : .asleep d ∈ s.threads := asleep_of_set (by rintro ⟨⟩) hd
    have hcount := countP_set_of (Thread.wokenIn (fun x => C.kind x = C.kind d)) (.woken c) hi
    exact (h d hd').trans ((Nat.le_add_right _ _).trans_eq hcount.symm)

theorem noLostWakeup_start (obj : σ) (threadsCnt : ℕ) : C.NoLostWakeup (start obj threadsCnt) := by
  intro c hc
  cases List.eq_of_mem_replicate hc

theorem run_noLostWakeup {P : State σ κ → Event κ → Prop} {s v : State σ κ} {es : List (Event κ)}
    {rs : List (Option (κ × ρ))} (hP : ∀ s e, C.Waiting s → P s e → C.Unmixed s) (hw : C.Waiting s)
    (h : C.NoLostWakeup s) (hes : Along (step body) P s es) (hrun : run (step body) s es = some (v, rs)) :
    C.Waiting v ∧ C.NoLostWakeup v := by
  refine run_invariant (I := fun s _ => C.Waiting s ∧ C.NoLostWakeup s) ?_ [] ⟨hw, h⟩ hes hrun
  intro s tr e u r hI hPs hs
  have hm := moves_of_step hs
  exact ⟨hI.1.moves hm, hI.2.moves hI.1 (hP s e hI.1 hPs) hm⟩

/-- If no thread waits for the mutex, the threads asleep would go to sleep again. -/
theorem NoLostWakeup.rightly {s : State σ κ} (h : C.NoLostWakeup s) (hw : C.Waiting s)
    (hidle : ∀ t ∈ s.threads, t.ready = none) {c : κ} (hc : .asleep c ∈ s.threads) :
    body s.obj c = .sleep := by
  have hwoken : C.wokenOf (C.kind c) s.threads = 0 := by
    refine List.countP_eq_zero.mpr (fun t ht hwoken => ?_)
    cases t with
    | woken x => cases hidle _ ht
    | outside | entered x | asleep x => cases hwoken
  refine (C.sleep_iff (hw c (.inl hc))).mpr (Nat.le_zero.mp ?_)
  exact (h c hc).trans_eq hwoken

end Credits

end

end FlyingKV.Monitor
