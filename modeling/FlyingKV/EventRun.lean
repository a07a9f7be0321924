import Mathlib.Tactic

set_option autoImplicit false

/-!
# Runs of a partial step function

A step takes a state and an event to the next state and a reply, or to nothing
when the system is gone. A run is the fold over a list of events.
-/
namespace FlyingKV.EventRun

section
variable {σ ε ρ : Type} (step : σ → ε → Option (σ × ρ))

def run : σ → List ε → Option (σ × List ρ)
  | s, [] => some (s, [])
  | s, e :: es =>
    match step s e with
    | none => none
    | some (u, r) => (run u es).map (fun o => (o.1, r :: o.2))

/-- `P` holds of every step of the run from `s`, at the state before it. -/
def Along (P : σ → ε → Prop) : σ → List ε → Prop
  | _, [] => True
  | s, e :: es => P s e ∧ ∀ o ∈ step s e, Along P o.1 es

instance decidableAlong (P : σ → ε → Prop) [∀ s e, Decidable (P s e)] :
    ∀ s es, Decidable (Along step P s es)
  | _, [] => isTrue trivial
  | s, e :: es =>
    have : ∀ o : σ × ρ, Decidable (Along step P o.1 es) := fun o => decidableAlong P o.1 es
    inferInstanceAs (Decidable (P s e ∧ ∀ o ∈ step s e, Along step P o.1 es))

variable {step}
variable {s v u : σ} {es fs : List ε} {rs : List ρ} {P : σ → ε → Prop} {I : σ → List (ε × ρ) → Prop}

theorem run_cons {e : ε} :
    run step s (e :: es) = some (v, rs) ↔
      ∃ u r rs', step s e = some (u, r) ∧ run step u es = some (v, rs') ∧ rs = r :: rs' := by
  rw [run]
  cases hs : step s e with
  | none => simp
  | some o =>
    obtain ⟨u, r⟩ := o
    simp only [Option.map_eq_some_iff, Prod.mk.injEq, Prod.exists, Option.some.injEq]
    constructor
    · rintro ⟨v', rs', hr, rfl, rfl⟩
      exact ⟨u, r, rs', ⟨rfl, rfl⟩, hr, rfl⟩
    · rintro ⟨u', r', rs', ⟨rfl, rfl⟩, hr, rfl⟩
      exact ⟨v, rs', hr, rfl, rfl⟩

theorem run_append :
    run step s (es ++ fs) = some (v, rs) → ∃ u rs₁ rs₂, run step s es = some (u, rs₁) ∧
      run step u fs = some (v, rs₂) ∧ rs = rs₁ ++ rs₂ := by
  induction es generalizing s rs with
  | nil => exact fun h => ⟨s, [], rs, rfl, h, rfl⟩
  | cons e es ih =>
    intro h
    rw [List.cons_append] at h
    obtain ⟨u, r, rs', hs, hr, rfl⟩ := run_cons.mp h
    obtain ⟨u', rs₁, rs₂, h₁, h₂, rfl⟩ := ih hr
    exact ⟨u', r :: rs₁, rs₂, run_cons.mpr ⟨u, r, rs₁, hs, h₁, rfl⟩, h₂, rfl⟩

theorem run_append_of {rs₁ rs₂ : List ρ} (h₁ : run step s es = some (u, rs₁)) (h₂ : run step u fs = some (v, rs₂)) :
    run step s (es ++ fs) = some (v, rs₁ ++ rs₂) := by
  induction es generalizing s rs₁ with
  | nil =>
    cases h₁
    exact h₂
  | cons e es ih =>
    obtain ⟨u', r, rs', hs, hr, rfl⟩ := run_cons.mp h₁
    exact run_cons.mpr ⟨u', r, rs' ++ rs₂, hs, ih hr, rfl⟩

/-- An invariant of the state and of the trace so far, kept by every step that satisfies `P`,
holds at the end of every run whose steps all satisfy `P`. -/
theorem run_invariant (hstep : ∀ s tr e u r, I s tr → P s e → step s e = some (u, r) → I u (tr ++ [(e, r)]))
    (tr : List (ε × ρ)) (hI : I s tr) (hP : Along step P s es) (hrun : run step s es = some (v, rs)) :
    I v (tr ++ es.zip rs) := by
  induction es generalizing s rs tr with
  | nil =>
    cases hrun
    simpa using hI
  | cons e es ih =>
    obtain ⟨u, r, rs', hs, hr, rfl⟩ := run_cons.mp hrun
    have h := ih _ (hstep s tr e u r hI hP.1 hs) (hP.2 (u, r) hs) hr
    simpa using h

/-- Two properties of steps that agree at the states of an invariant, which either of them keeps. -/
theorem along_congr {L Q : σ → ε → Prop} {I : σ → Prop} (heq : ∀ s e, I s → L s e → (P s e ↔ Q s e))
    (hstep : ∀ s e o, I s → L s e → P s e → o ∈ step s e → I o.1) (hI : I s) (hL : Along step L s es) :
    Along step P s es ↔ Along step Q s es := by
  induction es generalizing s with
  | nil => exact Iff.rfl
  | cons e es ih =>
    have he := heq s e hI hL.1
    constructor
    · intro hP
      exact ⟨he.mp hP.1, fun o ho => (ih (hstep s e o hI hL.1 hP.1 ho) (hL.2 o ho)).mp (hP.2 o ho)⟩
    · intro hQ
      have hP := he.mpr hQ.1
      exact ⟨hP, fun o ho => (ih (hstep s e o hI hL.1 hP ho) (hL.2 o ho)).mpr (hQ.2 o ho)⟩

theorem along_of_forall (h : ∀ e ∈ es, ∀ s, P s e) (s : σ) : Along step P s es := by
  induction es generalizing s with
  | nil => trivial
  | cons e es ih =>
    exact ⟨h e List.mem_cons_self s, fun o _ => ih (fun e' he' => h e' (List.mem_cons_of_mem _ he')) o.1⟩

/-- The same for a system that no admitted step can stop. -/
theorem run_along (hstep : ∀ s tr e, I s tr → P s e → ∃ u r, step s e = some (u, r) ∧ I u (tr ++ [(e, r)]))
    (tr : List (ε × ρ)) (hI : I s tr) (hP : Along step P s es) :
    ∃ v rs, run step s es = some (v, rs) ∧ I v (tr ++ es.zip rs) := by
  induction es generalizing s tr with
  | nil => exact ⟨s, [], rfl, by simpa using hI⟩
  | cons e es ih =>
    obtain ⟨u, r, hs, hu⟩ := hstep s tr e hI hP.1
    obtain ⟨v, rs, hr, hv⟩ := ih _ hu (hP.2 (u, r) hs)
    exact ⟨v, r :: rs, run_cons.mpr ⟨u, r, rs, hs, hr, rfl⟩, by simpa using hv⟩

theorem run_total {P : ε → Prop}
    (hstep : ∀ s tr e, I s tr → P e → ∃ u r, step s e = some (u, r) ∧ I u (tr ++ [(e, r)])) (tr : List (ε × ρ))
    (hI : I s tr) (hP : ∀ e ∈ es, P e) :
    ∃ v rs, run step s es = some (v, rs) ∧ I v (tr ++ es.zip rs) :=
  run_along (P := fun _ e => P e) hstep tr hI (along_of_forall (fun e he _ => hP e he) s)

theorem Along.append_left (h : Along step P s (es ++ fs)) : Along step P s es := by
  induction es generalizing s with
  | nil => trivial
  | cons e es ih => exact ⟨h.1, fun o ho => ih (h.2 o ho)⟩

theorem Along.append_right (h : Along step P s (es ++ fs)) (hrun : run step s es = some (u, rs)) :
    Along step P u fs := by
  induction es generalizing s rs with
  | nil =>
    cases hrun
    exact h
  | cons e es ih =>
    obtain ⟨u', r, rs', hs, hr, rfl⟩ := run_cons.mp hrun
    exact ih (h.2 (u', r) hs) hr

theorem Along.append (h : Along step P s es) (hrun : run step s es = some (u, rs)) (hfs : Along step P u fs) :
    Along step P s (es ++ fs) := by
  induction es generalizing s rs with
  | nil =>
    cases hrun
    exact hfs
  | cons e es ih =>
    obtain ⟨u', r, rs', hs, hr, rfl⟩ := run_cons.mp hrun
    refine ⟨h.1, fun o ho => ?_⟩
    obtain rfl : o = (u', r) := Option.some.inj (ho.symm.trans hs)
    exact ih (h.2 _ hs) hr

variable (step) in
/-- Some events lead from `s` to a state with the property. -/
def Leads (s : σ) (P : σ → Prop) : Prop := ∃ es u rs, run step s es = some (u, rs) ∧ P u

theorem Leads.now {s : σ} {P : σ → Prop} (h : P s) : Leads step s P := ⟨[], s, [], rfl, h⟩

theorem Leads.cons {s u : σ} {e : ε} {r : ρ} {P : σ → Prop} (hs : step s e = some (u, r))
    (h : Leads step u P) : Leads step s P := by
  obtain ⟨es, v, rs, hrun, hv⟩ := h
  exact ⟨e :: es, v, r :: rs, run_cons.mpr ⟨u, r, rs, hs, hrun, rfl⟩, hv⟩

theorem length_run {s v : σ} {es : List ε} {rs : List ρ} (h : run step s es = some (v, rs)) :
    rs.length = es.length := by
  induction es generalizing s rs with
  | nil =>
    cases h
    rfl
  | cons e es ih =>
    obtain ⟨u, r, rs', -, hr, rfl⟩ := run_cons.mp h
    rw [List.length_cons, List.length_cons, ih hr]

end

end FlyingKV.EventRun
