import Mathlib.Tactic

set_option autoImplicit false

/-!
# Stores under a sequence of writes

A write gives a key a new content, or none. What a key holds after a sequence of
writes is what its last writer gave it, so a stretch of the sequence may be replayed
over a store that has seen it already.
-/
namespace FlyingKV.LastWriter
variable {K V : Type} [DecidableEq K]

abbrev Write (K V : Type) := K × Option V

def store (f : K → Option V) (w : Write K V) : K → Option V := Function.update f w.1 w.2

def storeAll (f : K → Option V) (ws : List (Write K V)) : K → Option V := ws.foldl store f

/-- The content given by the last write to a key, if there is one. -/
def lastWrite (k : K) (ws : List (Write K V)) : Option (Option V) :=
  ((ws.filter (fun w => w.1 = k)).getLast?).map Prod.snd

@[simp] theorem storeAll_append (f : K → Option V) (xs ys : List (Write K V)) :
    storeAll f (xs ++ ys) = storeAll (storeAll f xs) ys := List.foldl_append

theorem storeAll_singleton (f : K → Option V) (w : Write K V) :
    storeAll f [w] = Function.update f w.1 w.2 := rfl

theorem lastWrite_append (k : K) (xs ys : List (Write K V)) :
    lastWrite k (xs ++ ys) = (lastWrite k ys).or (lastWrite k xs) := by
  simp only [lastWrite, List.filter_append, List.getLast?_append]
  cases (ys.filter (fun w => w.1 = k)).getLast? <;> rfl

theorem lastWrite_cons (k : K) (w : Write K V) (ws : List (Write K V)) :
    lastWrite k (w :: ws) = (lastWrite k ws).or (lastWrite k [w]) :=
  lastWrite_append k [w] ws

theorem storeAll_apply (f : K → Option V) (ws : List (Write K V)) (k : K) :
    storeAll f ws k = (lastWrite k ws).getD (f k) := by
  induction ws using List.reverseRecOn with
  | nil => rfl
  | append_singleton ws w ih =>
    rw [storeAll_append, storeAll_singleton, Function.update_apply, lastWrite_append]
    by_cases hk : w.1 = k
    · simp [lastWrite, hk]
    · simp [lastWrite, hk, Ne.symm hk, ih]

/-- Writes that the store has seen may be replayed as long as all that follows them is replayed. -/
theorem storeAll_replay (f : K → Option V) (xs ys zs : List (Write K V)) :
    storeAll (storeAll f (xs ++ ys)) (ys ++ zs) = storeAll f (xs ++ ys ++ zs) := by
  funext k
  simp only [storeAll_apply, lastWrite_append]
  cases lastWrite k zs <;> cases lastWrite k ys <;> cases lastWrite k xs <;> rfl

theorem storeAll_take_drop (f : K → Option V) (ws : List (Write K V)) {i j : ℕ} (h : i ≤ j) :
    storeAll (storeAll f (ws.take j)) (ws.drop i) = storeAll f ws := by
  have htake : ws.take j = ws.take i ++ (ws.take j).drop i := by
    conv_lhs => rw [← List.take_append_drop i (ws.take j), List.take_take, Nat.min_eq_left h]
  have hdrop : ws.drop i = (ws.take j).drop i ++ ws.drop j := by
    conv_lhs => rw [← List.take_append_drop j ws]
    rw [List.drop_append]
    by_cases hj : j ≤ ws.length
    · rw [List.length_take, Nat.min_eq_left hj, Nat.sub_eq_zero_of_le h, List.drop_zero]
    · simp [List.drop_eq_nil_of_le (show ws.length ≤ j by omega)]
  rw [htake, hdrop, storeAll_replay, ← htake, List.take_append_drop]

/-- The last writer of a key that occurs comes no earlier than the occurrence. -/
theorem lastWrite_of_mem (k : K) (v : Option V) (xs ys : List (Write K V)) :
    ∃ w ∈ (k, v) :: ys, w.1 = k ∧ lastWrite k (xs ++ (k, v) :: ys) = some w.2 := by
  rw [lastWrite_append]
  have hne : (((k, v) :: ys).filter (fun w => w.1 = k)) ≠ [] := by simp
  refine ⟨_, List.mem_of_mem_filter (List.getLast_mem hne), ?_, ?_⟩
  · simpa using List.of_mem_filter (List.getLast_mem hne)
  · rw [lastWrite, List.getLast?_eq_some_getLast hne]
    rfl

end FlyingKV.LastWriter
