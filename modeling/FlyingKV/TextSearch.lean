import Mathlib.Data.List.Infix

set_option autoImplicit false

/-!
# Searching a text

`find` and `rfind` of a C++ string over an arbitrary alphabet; `none` is `npos`.
-/
namespace FlyingKV.TextSearch

variable {α : Type} [DecidableEq α]

/-- The position of the first occurrence of a pattern. -/
def find (pat s : List α) : Option ℕ := s.tails.findIdx? fun t => decide (pat <+: t)

/-- The position of the last occurrence of a letter. -/
def rfind (c : α) : List α → Option ℕ
  | [] => none
  | x :: s => match rfind c s with
    | some i => some (i + 1)
    | none => if x = c then some 0 else none

theorem find_eq_none_iff (pat s : List α) : find pat s = none ↔ ¬ pat <:+: s := by
  rw [find, List.findIdx?_eq_none_iff, List.infix_iff_prefix_suffix]
  simp only [List.mem_tails, decide_eq_false_iff_not, not_exists, not_and]
  exact forall_congr' fun t => ⟨fun h hp hs => h hs hp, fun h hs hp => h hp hs⟩

theorem rfind_eq_none {c : α} {s : List α} (h : c ∉ s) : rfind c s = none := by
  induction s with
  | nil => rfl
  | cons x s ih =>
    rw [List.mem_cons, not_or] at h
    simp only [rfind, ih h.2, if_neg (Ne.symm h.1)]

theorem rfind_append {c : α} (xs : List α) {ys : List α} (h : c ∉ ys) :
    rfind c (xs ++ c :: ys) = some xs.length := by
  induction xs with
  | nil => simp only [List.nil_append, rfind, rfind_eq_none h, if_true, List.length_nil]
  | cons x xs ih => simp only [List.cons_append, rfind, ih, List.length_cons]

omit [DecidableEq α] in
/-- An occurrence does not reach over a letter the pattern does not have. -/
theorem infix_split {pat xs ys : List α} {c : α} (hc : c ∉ pat) (h : pat <:+: xs ++ c :: ys) :
    pat <:+: xs ∨ pat <:+: ys := by
  obtain ⟨s, t, h⟩ := h
  rcases List.append_eq_append_iff.mp h with ⟨z, rfl, -⟩ | ⟨z, hz, hrest⟩
  · exact .inl ⟨s, z, rfl⟩
  rcases z with _ | ⟨b, z⟩
  · exact .inl ⟨s, [], by rw [hz, List.append_nil, List.append_nil]⟩
  obtain ⟨rfl, rfl⟩ := List.cons.inj hrest
  rcases List.append_eq_append_iff.mp hz with ⟨w, -, hw⟩ | ⟨w, -, hw⟩
  · exact absurd (hw ▸ List.mem_append_right w List.mem_cons_self) hc
  rcases w with _ | ⟨b, w⟩
  · rw [List.nil_append] at hw
    exact absurd (hw ▸ List.mem_cons_self) hc
  obtain ⟨-, rfl⟩ := List.cons.inj hw
  exact .inr ⟨w, t, rfl⟩

end FlyingKV.TextSearch
