import Mathlib.Tactic

set_option autoImplicit false

/-!
# A table with a second index by groups

Each value is stored under a key and also in the set of its group. A group that has no
values has no set either.
-/
namespace FlyingKV

structure GroupedIndex (ι γ α : Type) where
  byKey : ι → Option α
  byGroup : γ → Option (List α)

namespace GroupedIndex

section
variable {ι γ α : Type}

def empty : GroupedIndex ι γ α := ⟨fun _ => none, fun _ => none⟩

variable [DecidableEq ι] [DecidableEq γ] [DecidableEq α]

def insert (t : GroupedIndex ι γ α) (i : ι) (g : γ) (v : α) : GroupedIndex ι γ α where
  byKey := Function.update t.byKey i (some v)
  byGroup := Function.update t.byGroup g
    (some (match t.byGroup g with
      | none => [v]
      | some vs => vs.insert v))

/-- The set of a group goes with its last value. -/
def erase (t : GroupedIndex ι γ α) (i : ι) (g : γ) (v : α) : GroupedIndex ι γ α where
  byKey := Function.update t.byKey i none
  byGroup := Function.update t.byGroup g
    (let vs := ((t.byGroup g).getD []).erase v
     if vs = [] then none else some vs)

def eraseKey (t : GroupedIndex ι γ α) (i : ι) : GroupedIndex ι γ α :=
  { t with byKey := Function.update t.byKey i none }

def dropGroup (t : GroupedIndex ι γ α) (g : γ) : GroupedIndex ι γ α :=
  { t with byGroup := Function.update t.byGroup g none }

/-- The value is in the set of its group. -/
def Has (group : α → γ) (t : GroupedIndex ι γ α) (v : α) : Prop :=
  ∃ vs, t.byGroup (group v) = some vs ∧ v ∈ vs

/-- The two indexes hold the same values. -/
structure Agree (key : α → ι) (group : α → γ) (t : GroupedIndex ι γ α) : Prop where
  byKey_iff : ∀ i v, t.byKey i = some v ↔ t.Has group v ∧ key v = i
  ne_nil : ∀ g, t.byGroup g ≠ some []
  nodup : ∀ g vs, t.byGroup g = some vs → vs.Nodup
  group_eq : ∀ g vs v, t.byGroup g = some vs → v ∈ vs → group v = g

variable {key : α → ι} {group : α → γ} {t : GroupedIndex ι γ α} {v : α}

omit [DecidableEq ι] [DecidableEq γ] [DecidableEq α] in
theorem agree_empty (key : α → ι) (group : α → γ) : Agree key group (empty : GroupedIndex ι γ α) :=
  ⟨fun i v => by simp [empty, Has], fun g => by simp [empty], fun g vs h => by simp [empty] at h,
    fun g vs v h => by simp [empty] at h⟩

omit [DecidableEq ι] [DecidableEq γ] [DecidableEq α] in
theorem Agree.byKey_of_mem (h : t.Agree key group) {g : γ} {vs : List α} (hg : t.byGroup g = some vs)
    (hv : v ∈ vs) : t.byKey (key v) = some v := by
  have hgroup := h.group_eq g vs v hg hv
  exact (h.byKey_iff _ v).mpr ⟨⟨vs, by rw [hgroup, hg], hv⟩, rfl⟩

omit [DecidableEq ι] [DecidableEq γ] [DecidableEq α] in
/-- Only the keys and groups of the values in the table count. -/
theorem Agree.congr (h : t.Agree key group) {key' : α → ι} {group' : α → γ}
    (hsame : ∀ g vs v, t.byGroup g = some vs → v ∈ vs → key' v = key v ∧ group' v = group v) :
    t.Agree key' group' := by
  refine ⟨?_, h.ne_nil, h.nodup, ?_⟩
  · intro i v
    constructor
    · intro hv
      obtain ⟨⟨vs, hvs, hmem⟩, hkey⟩ := (h.byKey_iff i v).mp hv
      obtain ⟨hk, hg⟩ := hsame _ vs v hvs hmem
      exact ⟨⟨vs, by rw [hg, hvs], hmem⟩, by rw [hk, hkey]⟩
    · rintro ⟨⟨vs, hvs, hmem⟩, hkey⟩
      obtain ⟨hk, hg⟩ := hsame _ vs v hvs hmem
      exact (h.byKey_iff i v).mpr ⟨⟨vs, by rw [← hg, hvs], hmem⟩, by rw [← hk, hkey]⟩
  · intro g vs v hvs hmem
    rw [(hsame g vs v hvs hmem).2]
    exact h.group_eq g vs v hvs hmem

/-! ## Insertion -/

theorem has_insert (i : ι) (w : α) :
    (t.insert i (group v) v).Has group w ↔ w = v ∨ t.Has group w := by
  by_cases hw : group w = group v
  · simp only [Has, GroupedIndex.insert, hw, Function.update_self, Option.some.injEq, exists_eq_left']
    cases t.byGroup (group v) with
    | none => simp
    | some vs => simp [List.mem_insert_iff]
  · have hwv : w ≠ v := fun heq => hw (by rw [heq])
    simp only [Has, GroupedIndex.insert, Function.update_of_ne hw, hwv, false_or]

omit [DecidableEq ι] [DecidableEq γ] [DecidableEq α] in
theorem Agree.not_mem_of_free (h : t.Agree key group) (hfree : t.byKey (key v) = none) {g : γ} {vs : List α}
    (hvs : t.byGroup g = some vs) : v ∉ vs := by
  intro hv
  rw [h.byKey_of_mem hvs hv] at hfree
  cases hfree

theorem Agree.insert (h : t.Agree key group) (hfree : t.byKey (key v) = none) :
    (t.insert (key v) (group v) v).Agree key group := by
  have hset : (t.insert (key v) (group v) v).byGroup (group v) =
      some (v :: (t.byGroup (group v)).getD []) := by
    simp only [GroupedIndex.insert, Function.update_self]
    cases hvs : t.byGroup (group v) with
    | none => rfl
    | some vs => exact congrArg some (List.insert_of_not_mem (h.not_mem_of_free hfree hvs))
  have hother : ∀ g, g ≠ group v → (t.insert (key v) (group v) v).byGroup g = t.byGroup g :=
    fun g hg => Function.update_of_ne hg _ _
  constructor
  · intro i w
    rw [has_insert]
    by_cases hi : i = key v
    · subst hi
      simp only [GroupedIndex.insert, Function.update_self, Option.some.injEq]
      constructor
      · rintro rfl
        exact ⟨.inl rfl, rfl⟩
      · rintro ⟨rfl | hw, hkey⟩
        · rfl
        · rw [(h.byKey_iff (key v) w).mpr ⟨hw, hkey⟩] at hfree
          exact nomatch hfree
    · simp only [GroupedIndex.insert, Function.update_of_ne hi, h.byKey_iff i w]
      constructor
      · rintro ⟨hw, hkey⟩
        exact ⟨.inr hw, hkey⟩
      · rintro ⟨rfl | hw, hkey⟩
        · exact absurd hkey.symm hi
        · exact ⟨hw, hkey⟩
  · intro g
    by_cases hg : g = group v
    · rw [hg, hset]
      simp
    · rw [hother g hg]
      exact h.ne_nil g
  · intro g vs hvs
    by_cases hg : g = group v
    · rw [hg, hset, Option.some.injEq] at hvs
      subst hvs
      cases hold : t.byGroup (group v) with
      | none => simp
      | some vs => exact List.nodup_cons.mpr ⟨h.not_mem_of_free hfree hold, h.nodup _ vs hold⟩
    · rw [hother g hg] at hvs
      exact h.nodup g vs hvs
  · intro g vs w hvs hw
    by_cases hg : g = group v
    · rw [hg, hset, Option.some.injEq] at hvs
      subst hvs hg
      rcases List.mem_cons.mp hw with rfl | hw
      · rfl
      · cases hold : t.byGroup (group v) with
        | none => simp [hold] at hw
        | some vs =>
          rw [hold, Option.getD_some] at hw
          exact h.group_eq _ vs w hold hw
    · rw [hother g hg] at hvs
      exact h.group_eq g vs w hvs hw

/-! ## Removal -/

theorem Agree.has_erase (h : t.Agree key group) (hv : t.Has group v) (i : ι) (w : α) :
    (t.erase i (group v) v).Has group w ↔ w ≠ v ∧ t.Has group w := by
  obtain ⟨vs, hvs, -⟩ := hv
  by_cases hw : group w = group v
  · simp only [Has, GroupedIndex.erase, hw, Function.update_self, hvs, Option.getD_some, Option.some.injEq,
      exists_eq_left', ← (h.nodup _ vs hvs).mem_erase_iff]
    by_cases hnil : vs.erase v = [] <;> simp [hnil]
  · have hwv : w ≠ v := fun heq => hw (by rw [heq])
    simp only [Has, GroupedIndex.erase, Function.update_of_ne hw, ne_eq, hwv, not_false_eq_true, true_and]

theorem Agree.erase (h : t.Agree key group) (hv : t.byKey (key v) = some v) :
    (t.erase (key v) (group v) v).Agree key group := by
  have hhas := ((h.byKey_iff _ v).mp hv).1
  obtain ⟨vs, hvs, -⟩ := hhas
  have hset : (t.erase (key v) (group v) v).byGroup (group v) =
      if vs.erase v = [] then none else some (vs.erase v) := by
    simp only [GroupedIndex.erase, Function.update_self, hvs, Option.getD_some]
  have hother : ∀ g, g ≠ group v → (t.erase (key v) (group v) v).byGroup g = t.byGroup g :=
    fun g hg => Function.update_of_ne hg _ _
  constructor
  · intro i w
    rw [h.has_erase ((h.byKey_iff _ v).mp hv).1]
    by_cases hi : i = key v
    · subst hi
      simp only [GroupedIndex.erase, Function.update_self, reduceCtorEq, false_iff]
      rintro ⟨⟨hne, hw⟩, hkey⟩
      rw [(h.byKey_iff (key v) w).mpr ⟨hw, hkey⟩, Option.some.injEq] at hv
      exact hne hv
    · simp only [GroupedIndex.erase, Function.update_of_ne hi, h.byKey_iff i w]
      constructor
      · rintro ⟨hw, hkey⟩
        refine ⟨⟨?_, hw⟩, hkey⟩
        rintro rfl
        exact hi hkey.symm
      · rintro ⟨⟨-, hw⟩, hkey⟩
        exact ⟨hw, hkey⟩
  · intro g
    by_cases hg : g = group v
    · rw [hg, hset]
      split_ifs with hnil
      · simp
      · simpa using hnil
    · rw [hother g hg]
      exact h.ne_nil g
  · intro g ws hws
    by_cases hg : g = group v
    · rw [hg, hset] at hws
      split_ifs at hws
      cases hws
      exact (h.nodup _ vs hvs).erase v
    · rw [hother g hg] at hws
      exact h.nodup g ws hws
  · intro g ws w hws hw
    by_cases hg : g = group v
    · rw [hg, hset] at hws
      split_ifs at hws
      cases hws
      rw [hg]
      exact h.group_eq _ vs w hvs (List.mem_of_mem_erase hw)
    · rw [hother g hg] at hws
      exact h.group_eq g ws w hws hw

omit [DecidableEq α] in
theorem Agree.dropGroup (h : t.Agree key group) {g : γ} {vs : List α} (hg : t.byGroup g = some vs)
    {u : GroupedIndex ι γ α} (hgroup : u.byGroup = t.byGroup)
    (hkey : ∀ i, u.byKey i = if i ∈ vs.map key then none else t.byKey i) :
    (u.dropGroup g).Agree key group := by
  have hgroup' : ∀ g', g' ≠ g → (u.dropGroup g).byGroup g' = t.byGroup g' := by
    intro g' hg'
    simp only [GroupedIndex.dropGroup, Function.update_of_ne hg', hgroup]
  have hnone : (u.dropGroup g).byGroup g = none := Function.update_self _ _ _
  constructor
  · intro i w
    have hkey' : (u.dropGroup g).byKey i = if i ∈ vs.map key then none else t.byKey i := hkey i
    rw [hkey']
    by_cases hw : group w = g
    · simp only [Has, hw, hnone, reduceCtorEq, false_and, exists_false, iff_false]
      split_ifs with hi
      · simp
      · intro hfound
        obtain ⟨⟨ws, hws, hmem⟩, rfl⟩ := (h.byKey_iff i w).mp hfound
        rw [hw, hg, Option.some.injEq] at hws
        subst hws
        exact hi (List.mem_map_of_mem hmem)
    · have hhas : (u.dropGroup g).Has group w ↔ t.Has group w := by
        rw [Has, Has, hgroup' _ hw]
      rw [hhas, ← h.byKey_iff i w]
      split_ifs with hi
      · refine iff_of_false nofun ?_
        intro hfound
        obtain ⟨x, hx, rfl⟩ := List.mem_map.mp hi
        rw [h.byKey_of_mem hg hx, Option.some.injEq] at hfound
        subst hfound
        exact hw (h.group_eq g vs x hg hx)
      · rfl
  · intro g'
    by_cases hg' : g' = g
    · rw [hg', hnone]
      simp
    · rw [hgroup' g' hg']
      exact h.ne_nil g'
  · intro g' ws hws
    by_cases hg' : g' = g
    · rw [hg', hnone] at hws
      exact nomatch hws
    · rw [hgroup' g' hg'] at hws
      exact h.nodup g' ws hws
  · intro g' ws w hws hw
    by_cases hg' : g' = g
    · rw [hg', hnone] at hws
      exact nomatch hws
    · rw [hgroup' g' hg'] at hws
      exact h.group_eq g' ws w hws hw

end

end GroupedIndex

end FlyingKV
