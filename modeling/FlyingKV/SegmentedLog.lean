import Mathlib.Tactic

set_option autoImplicit false

/-!
# Segmented logs

A log cut into numbered segments: the closed ones, none of them empty, and the
one being written. Segments are removed from the old end only.
-/
namespace FlyingKV

structure SegmentedLog (ρ : Type) where
  first : ℕ
  closed : List (List ρ)
  tail : List ρ
  closed_ne : ∀ s ∈ closed, s ≠ []

namespace SegmentedLog
variable {ρ : Type}

def start (n : ℕ) : SegmentedLog ρ := ⟨n, [], [], by simp⟩

def segments (l : SegmentedLog ρ) : List (List ρ) := l.closed ++ [l.tail]

def entries (l : SegmentedLog ρ) : List ρ := l.segments.flatten

/-- The number of the segment being written. -/
def current (l : SegmentedLog ρ) : ℕ := l.first + l.closed.length

def seg (l : SegmentedLog ρ) (i : ℕ) : Option (List ρ) :=
  if i < l.first then none else l.segments[i - l.first]?

def push (l : SegmentedLog ρ) (r : ρ) : SegmentedLog ρ := { l with tail := l.tail ++ [r] }

theorem push_tail_ne (l : SegmentedLog ρ) (r : ρ) : (l.push r).tail ≠ [] := by
  simp [push]

def roll (l : SegmentedLog ρ) (h : l.tail ≠ []) : SegmentedLog ρ where
  first := l.first
  closed := l.closed ++ [l.tail]
  tail := []
  closed_ne s hs := by
    rcases List.mem_append.mp hs with hs | hs
    · exact l.closed_ne s hs
    · rw [List.mem_singleton.mp hs]
      exact h

/-- Without the segments numbered up to `b`, which are all closed ones. -/
def dropThrough (l : SegmentedLog ρ) (b : ℕ) : SegmentedLog ρ where
  first := max l.first (b + 1)
  closed := l.closed.drop (b + 1 - l.first)
  tail := l.tail
  closed_ne s hs := l.closed_ne s (List.mem_of_mem_drop hs)

theorem entries_eq (l : SegmentedLog ρ) : l.entries = l.closed.flatten ++ l.tail := by
  simp [entries, segments]

@[simp] theorem entries_start (n : ℕ) : (start n : SegmentedLog ρ).entries = [] := rfl

@[simp] theorem entries_push (l : SegmentedLog ρ) (r : ρ) : (l.push r).entries = l.entries ++ [r] := by
  simp [entries_eq, push]

@[simp] theorem entries_roll (l : SegmentedLog ρ) (h : l.tail ≠ []) : (l.roll h).entries = l.entries := by
  simp [entries_eq, roll]

theorem entries_dropThrough_suffix (l : SegmentedLog ρ) (b : ℕ) :
    (l.dropThrough b).entries <:+ l.entries := by
  rw [entries_eq, entries_eq]
  refine ⟨(l.closed.take (b + 1 - l.first)).flatten, ?_⟩
  rw [← List.append_assoc, dropThrough, ← List.flatten_append, List.take_append_drop]

@[simp] theorem current_push (l : SegmentedLog ρ) (r : ρ) : (l.push r).current = l.current := rfl

@[simp] theorem current_roll (l : SegmentedLog ρ) (h : l.tail ≠ []) :
    (l.roll h).current = l.current + 1 := by
  simp [current, roll, Nat.add_assoc]

variable {l : SegmentedLog ρ} {b i : ℕ} {s : List ρ}

theorem current_dropThrough (h : b < l.current) : (l.dropThrough b).current = l.current := by
  simp only [current, dropThrough, List.length_drop] at h ⊢
  omega

theorem first_le_current (l : SegmentedLog ρ) : l.first ≤ l.current := Nat.le_add_right _ _

@[simp] theorem length_segments (l : SegmentedLog ρ) : l.segments.length = l.closed.length + 1 := by
  simp [segments]

theorem seg_eq_none_iff : l.seg i = none ↔ i < l.first ∨ l.current < i := by
  unfold seg current
  split_ifs with h
  · simp [h]
  · rw [List.getElem?_eq_none_iff, length_segments]
    omega

theorem seg_isSome_iff : (∃ s, l.seg i = some s) ↔ l.first ≤ i ∧ i ≤ l.current := by
  rw [← Option.ne_none_iff_exists', Ne, seg_eq_none_iff]
  omega

theorem seg_bounds (h : l.seg i = some s) :
    l.first ≤ i ∧ i ≤ l.current :=
  seg_isSome_iff.mp ⟨s, h⟩

theorem seg_current (l : SegmentedLog ρ) : l.seg l.current = some l.tail := by
  rw [seg, if_neg (by have := l.first_le_current; omega), current, Nat.add_sub_cancel_left, segments]
  simp

theorem seg_of_lt (h₁ : l.first ≤ i) (h₂ : i < l.current) : ∃ s ∈ l.closed, l.seg i = some s := by
  have hi : i - l.first < l.closed.length := by unfold current at h₂; omega
  refine ⟨l.closed[i - l.first], List.getElem_mem hi, ?_⟩
  rw [seg, if_neg (by omega), segments, List.getElem?_append_left hi, List.getElem?_eq_getElem hi]

theorem seg_ne_nil (h : l.seg i = some s) (hi : i < l.current) : s ≠ [] := by
  obtain ⟨s', hs', h'⟩ := seg_of_lt (seg_bounds h).1 hi
  rw [h] at h'
  cases h'
  exact l.closed_ne s hs'

theorem getElem?_from_concat {α : Type} (xs : List α) (a : α) (n i : ℕ) :
    (if i < n then none else (xs ++ [a])[i - n]?) =
      if i = n + xs.length then some a else if i < n then none else xs[i - n]? := by
  split_ifs with hlt heq heq
  · omega
  · rfl
  · rw [heq, Nat.add_sub_cancel_left, List.getElem?_concat_length]
  · rw [List.getElem?_append]
    split_ifs
    · rfl
    · rw [List.getElem?_eq_none (by simp; omega), List.getElem?_eq_none (by omega)]

theorem getElem?_from_drop {α : Type} (xs : List α) (a : α) {n : ℕ} (h : b < n + xs.length) (i : ℕ) :
    (if i < max n (b + 1) then none else (xs.drop (b + 1 - n) ++ [a])[i - max n (b + 1)]?) =
      if i ≤ b then none else if i < n then none else (xs ++ [a])[i - n]? := by
  by_cases hi : i ≤ b
  · rw [if_pos hi, if_pos (by omega)]
  · rw [if_neg hi]
    by_cases hf : i < n
    · rw [if_pos hf, if_pos (by omega)]
    · rw [if_neg hf, if_neg (by omega), ← List.drop_append_of_le_length (by omega), List.getElem?_drop]
      congr 1
      omega

theorem seg_eq (l : SegmentedLog ρ) (i : ℕ) : l.seg i =
    if i = l.current then some l.tail else if i < l.first then none else l.closed[i - l.first]? :=
  getElem?_from_concat _ _ _ _

theorem seg_push (l : SegmentedLog ρ) (r : ρ) (i : ℕ) :
    (l.push r).seg i = if i = l.current then some (l.tail ++ [r]) else l.seg i := by
  rw [seg_eq, seg_eq l, current_push]
  by_cases hi : i = l.current
  · rw [if_pos hi, if_pos hi]
    rfl
  · rw [if_neg hi, if_neg hi, if_neg hi]
    rfl

theorem seg_roll (l : SegmentedLog ρ) (h : l.tail ≠ []) (i : ℕ) :
    (l.roll h).seg i = if i = l.current + 1 then some [] else l.seg i := by
  rw [seg_eq, current_roll]
  rfl

theorem seg_dropThrough (h : b < l.current) (i : ℕ) :
    (l.dropThrough b).seg i = if i ≤ b then none else l.seg i :=
  getElem?_from_drop _ _ h i

theorem dropThrough_of_lt (h : b < l.first) : l.dropThrough b = l := by
  have hb : b + 1 - l.first = 0 := by omega
  have hm : max l.first (b + 1) = l.first := by omega
  cases l
  simp_all [dropThrough]

theorem mem_entries_iff {r : ρ} : r ∈ l.entries ↔ ∃ i s, l.seg i = some s ∧ r ∈ s := by
  rw [entries, List.mem_flatten]
  constructor
  · rintro ⟨s, hs, hr⟩
    obtain ⟨k, hk, rfl⟩ := List.getElem_of_mem hs
    refine ⟨l.first + k, _, ?_, hr⟩
    rw [seg, if_neg (by omega), Nat.add_sub_cancel_left, List.getElem?_eq_getElem hk]
  · rintro ⟨i, s, hs, hr⟩
    unfold seg at hs
    split_ifs at hs
    exact ⟨s, List.mem_of_getElem? hs, hr⟩

theorem mem_entries_dropThrough (h : b < l.current) {r : ρ} :
    r ∈ (l.dropThrough b).entries ↔ ∃ i s, b < i ∧ l.seg i = some s ∧ r ∈ s := by
  simp only [mem_entries_iff, seg_dropThrough h]
  constructor
  · rintro ⟨i, s, hs, hr⟩
    split_ifs at hs with hi
    exact ⟨i, s, by omega, hs, hr⟩
  · rintro ⟨i, s, hi, hs, hr⟩
    exact ⟨i, s, by rw [if_neg (by omega), hs], hr⟩

/-- A relation that orders the entries orders those of different segments. -/
theorem rel_of_lt {R : ρ → ρ → Prop} (hR : l.entries.Pairwise R) {j : ℕ} {t : List ρ} (hs : l.seg i = some s)
    (ht : l.seg j = some t) (hij : i < j) {a b : ρ} (ha : a ∈ s) (hb : b ∈ t) : R a b := by
  have hi := (seg_bounds hs).1
  rw [seg, if_neg (by omega)] at hs ht
  obtain ⟨hs', rfl⟩ := List.getElem?_eq_some_iff.mp hs
  obtain ⟨ht', rfl⟩ := List.getElem?_eq_some_iff.mp ht
  have h := (List.pairwise_flatten.mp hR).2
  exact List.pairwise_iff_getElem.mp h _ _ hs' ht' (by omega) a ha b hb

theorem pairwise_seg {R : ρ → ρ → Prop} (hR : l.entries.Pairwise R) (hs : l.seg i = some s) : s.Pairwise R := by
  unfold seg at hs
  split_ifs at hs
  exact (List.pairwise_flatten.mp hR).1 s (List.mem_of_getElem? hs)

end SegmentedLog

end FlyingKV
