import Mathlib.Tactic

set_option autoImplicit false

/-!
# Requests that are completed once

A request becomes outstanding, is claimed for one cause, and is completed for the
cause it was claimed for.
-/
namespace FlyingKV.CallLife

inductive Stage (κ : Type) where
  | fresh
  | outstanding
  | claimed (cause : κ)
  | completed (cause : κ)
deriving DecidableEq, Repr

/-- What can be seen of a request: that it is no longer outstanding, and that it is complete. -/
inductive Mark (κ : Type) where
  | removed (cause : κ)
  | completed (cause : κ)
deriving DecidableEq, Repr

section
variable {κ : Type}

/-- The marks of a request up to its stage. -/
def Stage.history : Stage κ → List (Mark κ)
  | .fresh | .outstanding => []
  | .claimed cause => [.removed cause]
  | .completed cause => [.removed cause, .completed cause]

/-- The moves of a request, with the marks each one leaves. -/
inductive Stage.Moves : Stage κ → List (Mark κ) → Stage κ → Prop where
  | stay (a : Stage κ) : Moves a [] a
  | enter : Moves .fresh [] .outstanding
  | claim (cause : κ) : Moves .outstanding [.removed cause] (.claimed cause)
  | complete (cause : κ) : Moves (.claimed cause) [.completed cause] (.completed cause)
  | settle (cause : κ) : Moves .outstanding [.removed cause, .completed cause] (.completed cause)

theorem Stage.Moves.history {a b : Stage κ} {ms : List (Mark κ)} (h : a.Moves ms b) :
    b.history = a.history ++ ms := by
  cases h with
  | stay => exact (List.append_nil _).symm
  | enter => rfl
  | claim cause => rfl
  | complete cause => rfl
  | settle cause => rfl

/-- A stage is never left backwards. -/
theorem Stage.Moves.claimed {a b : Stage κ} {ms : List (Mark κ)} (h : a.Moves ms b) {cause : κ}
    (ha : a = .claimed cause ∨ a = .completed cause) : b = .claimed cause ∨ b = .completed cause := by
  cases h with
  | stay => exact ha
  | enter => simp at ha
  | claim cause' => simp at ha
  | complete cause' =>
    simp only [Stage.claimed.injEq, reduceCtorEq, or_false] at ha
    exact .inr (congrArg _ ha)
  | settle cause' => simp at ha

/-- The marks of one request among those of all. -/
def marksOf (k : ℕ) (ms : List (ℕ × Mark κ)) : List (Mark κ) :=
  (ms.filter fun m => m.1 = k).map Prod.snd

@[simp] theorem marksOf_nil (k : ℕ) : marksOf k ([] : List (ℕ × Mark κ)) = [] := rfl

@[simp] theorem marksOf_append (k : ℕ) (ms ns : List (ℕ × Mark κ)) :
    marksOf k (ms ++ ns) = marksOf k ms ++ marksOf k ns := by
  simp [marksOf]

theorem Stage.Moves.update {st : ℕ → Stage κ} {k : ℕ} {m : Mark κ} {a : Stage κ} (h : (st k).Moves [m] a)
    (j : ℕ) : (st j).Moves (marksOf j [(k, m)]) (Function.update st k a j) := by
  by_cases hj : j = k
  · subst hj
    simpa [marksOf] using h
  · have hjk : ¬ k = j := fun heq => hj heq.symm
    simpa [marksOf, hj, hjk] using Stage.Moves.stay (st j)

theorem mem_marksOf {k : ℕ} {m : Mark κ} {ms : List (ℕ × Mark κ)} :
    m ∈ marksOf k ms ↔ (k, m) ∈ ms := by
  simp [marksOf]

end

end FlyingKV.CallLife
