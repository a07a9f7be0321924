import Mathlib.Tactic

set_option autoImplicit false

/-!
# Maps that index a list

A map from keys to values describes a list of records if its entries are the keys and values of
the records. Records come and go with one update of the map each.
-/
namespace FlyingKV.KeyIndex

section
variable {α κ β : Type} {f : κ → Option β} {key : α → κ} {val : α → β} {xs : List α}

/-- The entries of `f` are those of the records in `xs`. -/
def Indexes (f : κ → Option β) (key : α → κ) (val : α → β) (xs : List α) : Prop :=
  ∀ k v, f k = some v ↔ ∃ x ∈ xs, key x = k ∧ val x = v

theorem indexes_nil (key : α → κ) (val : α → β) : Indexes (fun _ => none) key val [] := by
  intro k v
  simp

theorem Indexes.apply (h : Indexes f key val xs) {x : α} (hx : x ∈ xs) : f (key x) = some (val x) :=
  (h _ _).mpr ⟨x, hx, rfl, rfl⟩

theorem Indexes.val_eq (h : Indexes f key val xs) {x y : α} (hx : x ∈ xs) (hy : y ∈ xs) (hkey : key x = key y) :
    val x = val y := by
  have hval := h.apply hx
  rw [hkey, h.apply hy] at hval
  exact (Option.some.inj hval).symm

theorem Indexes.eq_none_iff (h : Indexes f key val xs) {k : κ} : f k = none ↔ ∀ x ∈ xs, key x ≠ k := by
  constructor
  · intro hk x hx hkey
    rw [← hkey, h.apply hx] at hk
    cases hk
  · intro hno
    cases hk : f k with
    | none => rfl
    | some v =>
      obtain ⟨x, hx, hkey, -⟩ := (h k v).mp hk
      exact absurd hkey (hno x hx)

variable [DecidableEq κ]

theorem Indexes.insert (h : Indexes f key val xs) {x : α} (hfresh : ∀ y ∈ xs, key y ≠ key x) :
    Indexes (Function.update f (key x) (some (val x))) key val (x :: xs) := by
  intro k v
  by_cases hk : k = key x
  · subst hk
    rw [Function.update_self]
    constructor
    · intro hv
      exact ⟨x, List.mem_cons_self, rfl, Option.some.inj hv⟩
    · rintro ⟨y, hy, hkey, rfl⟩
      rcases List.mem_cons.mp hy with rfl | hy
      · rfl
      · exact absurd hkey (hfresh y hy)
  · rw [Function.update_of_ne hk, h k v]
    constructor
    · rintro ⟨y, hy, hy'⟩
      exact ⟨y, List.mem_cons_of_mem _ hy, hy'⟩
    · rintro ⟨y, hy, hkey, hval⟩
      rcases List.mem_cons.mp hy with rfl | hy
      · exact absurd hkey.symm hk
      · exact ⟨y, hy, hkey, hval⟩

theorem Indexes.erase (h : Indexes f key val xs) {k : κ} {ys : List α} (hys : ∀ x, x ∈ ys ↔ x ∈ xs ∧ key x ≠ k) :
    Indexes (Function.update f k none) key val ys := by
  intro k' v
  by_cases hk : k' = k
  · subst hk
    rw [Function.update_self]
    constructor
    · intro hv
      cases hv
    · rintro ⟨x, hx, hkey, -⟩
      exact absurd hkey ((hys x).mp hx).2
  · rw [Function.update_of_ne hk, h k' v]
    constructor
    · rintro ⟨x, hx, hkey, hval⟩
      exact ⟨x, (hys x).mpr ⟨hx, fun heq => hk (hkey.symm.trans heq)⟩, hkey, hval⟩
    · rintro ⟨x, hx, hx'⟩
      exact ⟨x, ((hys x).mp hx).1, hx'⟩

end

end FlyingKV.KeyIndex
