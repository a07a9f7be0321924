import Mathlib.Tactic

set_option autoImplicit false

/-!
# Asking a row of parties and taking back

The parties are asked one after the other until one refuses; those before it are told so. Neither
an answer nor a notice needs to come: then the whole has no result.
-/
namespace FlyingKV.AllOrNothing

section
variable {γ : Type}

/-- Asks `n` parties, numbered from `i` on: the parties behind it, their answers, and the number
of the one that refused. -/
def askAll (ask : ℕ → γ → Option (γ × Bool)) : ℕ → ℕ → List γ → Option (List γ × List Bool × Option ℕ)
  | 0, _, gs => some (gs, [], none)
  | _ + 1, _, [] => none
  | n + 1, i, g :: gs =>
    (ask i g).bind fun o =>
      if o.2 then (askAll ask n (i + 1) gs).map fun r => (o.1 :: r.1, true :: r.2.1, r.2.2)
      else some (o.1 :: gs, [false], some i)

/-- Tells the first `n` parties. -/
def undoAll (undo : γ → Option γ) : ℕ → List γ → Option (List γ)
  | 0, gs => some gs
  | _ + 1, [] => none
  | n + 1, g :: gs => (undo g).bind fun u => (undoAll undo n gs).map (u :: ·)

/-- Party `i` grants when it is asked. -/
def Grants (ask : ℕ → γ → Option (γ × Bool)) (i : ℕ) (g : γ) : Prop := ∃ u, ask i g = some (u, true)

/-- The first `n` of the parties, numbered from `i` on, grant. -/
def AllGrant (ask : ℕ → γ → Option (γ × Bool)) (n i : ℕ) (gs : List γ) : Prop :=
  ∀ j < n, ∀ g, gs[j]? = some g → Grants ask (i + j) g

variable {ask : ℕ → γ → Option (γ × Bool)} {undo : γ → Option γ} {n i : ℕ} {g : γ} {gs us : List γ}
  {answers : List Bool}

theorem allGrant_cons : AllGrant ask (n + 1) i (g :: gs) ↔ Grants ask i g ∧ AllGrant ask n (i + 1) gs := by
  constructor
  · intro h
    refine ⟨h 0 n.succ_pos g rfl, fun j hj x hx => ?_⟩
    have := h (j + 1) (Nat.succ_lt_succ hj) x hx
    rwa [show i + (j + 1) = i + 1 + j by omega] at this
  · rintro ⟨hg, hgs⟩ j hj x hx
    cases j with
    | zero =>
      cases hx
      exact hg
    | succ j =>
      rw [show i + (j + 1) = i + 1 + j by omega]
      exact hgs j (Nat.lt_of_succ_lt_succ hj) x hx

/-- The first party refuses, or it grants and the others are asked. -/
theorem askAll_cons {r : Option ℕ} (h : askAll ask (n + 1) i (g :: gs) = some (us, answers, r)) :
    (∃ u, ask i g = some (u, false) ∧ us = u :: gs ∧ answers = [false] ∧ r = some i) ∨
      ∃ u vs rest, ask i g = some (u, true) ∧ askAll ask n (i + 1) gs = some (vs, rest, r) ∧
        us = u :: vs ∧ answers = true :: rest := by
  obtain ⟨⟨u, granted⟩, hask, h⟩ := Option.bind_eq_some_iff.mp h
  cases granted with
  | false =>
    cases h
    exact .inl ⟨u, hask, rfl, rfl, rfl⟩
  | true =>
    obtain ⟨⟨vs, rest, r⟩, hrest, heq⟩ := Option.map_eq_some_iff.mp h
    cases heq
    exact .inr ⟨u, vs, rest, hask, hrest, rfl, rfl⟩

theorem askAll_none_iff (hn : n ≤ gs.length) :
    (∃ us answers, askAll ask n i gs = some (us, answers, none)) ↔ AllGrant ask n i gs := by
  induction n generalizing i gs with
  | zero => exact iff_of_true ⟨gs, [], rfl⟩ nofun
  | succ n ih =>
    cases gs with
    | nil => exact absurd hn (by simp)
    | cons g gs =>
      rw [allGrant_cons, ← ih (Nat.le_of_succ_le_succ hn)]
      constructor
      · rintro ⟨us, answers, h⟩
        rcases askAll_cons h with ⟨u, -, -, -, hr⟩ | ⟨u, vs, rest, hask, hrest, -, -⟩
        · cases hr
        · exact ⟨⟨u, hask⟩, vs, rest, hrest⟩
      · rintro ⟨⟨u, hask⟩, vs, rest, hrest⟩
        exact ⟨_, _, by rw [askAll, hask, Option.bind_some, if_pos rfl, hrest, Option.map_some]⟩

theorem answers_of_none (h : askAll ask n i gs = some (us, answers, none)) : answers = List.replicate n true := by
  induction n generalizing i gs us answers with
  | zero =>
    cases h
    rfl
  | succ n ih =>
    cases gs with
    | nil => cases h
    | cons g gs =>
      rcases askAll_cons h with ⟨u, -, -, -, hr⟩ | ⟨u, vs, rest, -, hrest, -, rfl⟩
      · cases hr
      · rw [ih hrest, List.replicate_succ]

/-- The party at place `k` has refused, those before it have granted, and those behind it have not
been asked. -/
structure RefusedAt (ask : ℕ → γ → Option (γ × Bool)) (i k : ℕ) (gs us : List γ) : Prop where
  refused : ∃ g u, gs[k]? = some g ∧ ask (i + k) g = some (u, false) ∧ us[k]? = some u
  granted : ∀ j < k, ∃ g u, gs[j]? = some g ∧ ask (i + j) g = some (u, true) ∧ us[j]? = some u
  unasked : ∀ j > k, us[j]? = gs[j]?

theorem RefusedAt.cons {u : γ} {k : ℕ} (hask : ask i g = some (u, true)) (h : RefusedAt ask (i + 1) k gs us) :
    RefusedAt ask i (k + 1) (g :: gs) (u :: us) where
  refused := by simpa only [Nat.add_assoc, Nat.add_comm 1, List.getElem?_cons_succ] using h.refused
  granted j hj := by
    cases j with
    | zero => exact ⟨g, u, rfl, hask, rfl⟩
    | succ j =>
      simpa only [Nat.add_assoc, Nat.add_comm 1, List.getElem?_cons_succ] using h.granted j (Nat.lt_of_succ_lt_succ hj)
  unasked j hj := by
    obtain ⟨j, rfl⟩ := Nat.exists_eq_add_of_lt hj
    exact h.unasked (k + 1 + j) (by omega)

theorem askAll_refused {m : ℕ} (h : askAll ask n i gs = some (us, answers, some m)) :
    ∃ k, m = i + k ∧ answers = List.replicate k true ++ [false] ∧ RefusedAt ask i k gs us := by
  induction n generalizing i gs us answers with
  | zero => cases h
  | succ n ih =>
    cases gs with
    | nil => cases h
    | cons g gs =>
      rcases askAll_cons h with ⟨u, hask, rfl, rfl, hr⟩ | ⟨u, vs, rest, hask, hrest, rfl, rfl⟩
      · cases hr
        refine ⟨0, rfl, rfl, ⟨g, u, rfl, hask, rfl⟩, nofun, fun j hj => ?_⟩
        obtain ⟨j, rfl⟩ := Nat.exists_eq_add_of_lt hj
        rw [Nat.zero_add]
        rfl
      · obtain ⟨k, rfl, rfl, hk⟩ := ih hrest
        exact ⟨k + 1, by omega, rfl, hk.cons hask⟩

theorem undoAll_spec (h : undoAll undo n gs = some us) :
    (∀ j < n, ∃ g u, gs[j]? = some g ∧ undo g = some u ∧ us[j]? = some u) ∧ ∀ j ≥ n, us[j]? = gs[j]? := by
  induction n generalizing gs us with
  | zero =>
    cases h
    exact ⟨nofun, fun _ _ => rfl⟩
  | succ n ih =>
    cases gs with
    | nil => cases h
    | cons g gs =>
      obtain ⟨u, hu, h⟩ := Option.bind_eq_some_iff.mp h
      obtain ⟨vs, hrest, rfl⟩ := Option.map_eq_some_iff.mp h
      obtain ⟨htold, huntold⟩ := ih hrest
      constructor
      · intro j hj
        cases j with
        | zero => exact ⟨g, u, rfl, hu, rfl⟩
        | succ j => exact htold j (Nat.lt_of_succ_lt_succ hj)
      · intro j hj
        obtain ⟨j, rfl⟩ := Nat.exists_eq_add_of_le' (Nat.one_le_iff_ne_zero.mpr (by omega : j ≠ 0))
        exact huntold j (Nat.le_of_succ_le_succ hj)

end

end FlyingKV.AllOrNothing
