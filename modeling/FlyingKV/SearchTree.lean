import Mathlib.Data.List.Perm.Basic
import Mathlib.Data.List.Sort

set_option autoImplicit false

/-!
# Search trees with an arbitrary comparison

`std::map` as libstdc++ has it, for a comparison that need not be an order: every
operation descends from the root by asking the comparison at each node, so what it
finds depends on the shape of the tree. Nothing is assumed of the rotations. Where
the keys are a chain of a partial order and the comparison agrees with it, the
shape does not matter.
-/
namespace FlyingKV.SearchTree

inductive BinTree (α : Type) where
  | nil
  | node (red : Bool) (l : BinTree α) (x : α) (r : BinTree α)
deriving DecidableEq, Repr

variable {α : Type}

namespace BinTree

def toList : BinTree α → List α
  | nil => []
  | node _ l x r => l.toList ++ x :: r.toList

def size : BinTree α → ℕ
  | nil => 0
  | node _ l _ r => l.size + 1 + r.size

/-- A descent that turns right where `p` holds ends between two elements. The number of
elements before that place. -/
def gap (p : α → Bool) : BinTree α → ℕ
  | nil => 0
  | node _ l x r => if p x then l.size + 1 + r.gap p else l.gap p

/-- A new red leaf where the descent ends. -/
def insertAt (p : α → Bool) (x : α) : BinTree α → BinTree α
  | nil => node true nil x nil
  | node c l y r => if p y then node c l y (r.insertAt p x) else node c (l.insertAt p x) y r

theorem size_eq (t : BinTree α) : t.size = t.toList.length := by
  induction t with
  | nil => rfl
  | node c l x r ihl ihr =>
    simp only [size, toList, List.length_append, List.length_cons, ihl, ihr]
    omega

theorem gap_le (p : α → Bool) (t : BinTree α) : t.gap p ≤ t.toList.length := by
  induction t with
  | nil => exact Nat.le_refl 0
  | node c l x r ihl ihr =>
    simp only [gap, toList, size_eq, List.length_append, List.length_cons]
    split_ifs <;> omega

section
variable {p : α → Bool} {t : BinTree α} {xs ys : List α}

/-- The element after the place is one at which the descent has turned left. -/
theorem getElem?_gap {x : α} (h : t.toList[t.gap p]? = some x) : p x = false := by
  induction t with
  | nil => simp [toList] at h
  | node c l y r ihl ihr =>
    simp only [gap, toList, size_eq] at h
    split_ifs at h with hy
    · rw [List.getElem?_append_right (by omega), Nat.add_assoc, Nat.add_sub_cancel_left, Nat.add_comm 1,
        List.getElem?_cons_succ] at h
      exact ihr h
    · rcases (gap_le p l).lt_or_eq with hlt | heq
      · rw [List.getElem?_append_left hlt] at h
        exact ihl h
      · rw [heq, List.getElem?_append_right le_rfl, Nat.sub_self] at h
        obtain rfl : y = x := Option.some.inj h
        exact Bool.eq_false_iff.mpr hy

/-- In a list cut where `p` stops to hold, the root is on the side `p` says. -/
theorem cut_node {c : Bool} {l r : BinTree α} {x : α} (h : (node c l x r).toList = xs ++ ys)
    (hxs : ∀ x ∈ xs, p x = true) (hys : ∀ y ∈ ys, p y = false) :
    (p x = true ∧ ∃ zs, xs = l.toList ++ x :: zs ∧ r.toList = zs ++ ys) ∨
      (p x = false ∧ ∃ zs, l.toList = xs ++ zs ∧ ys = zs ++ x :: r.toList) := by
  rcases List.append_eq_append_iff.mp h with ⟨zs, rfl, hr⟩ | ⟨zs, hl, rfl⟩
  · rcases zs with _ | ⟨z, zs⟩
    · rw [List.nil_append] at hr
      subst hr
      exact .inr ⟨hys x List.mem_cons_self, [], by simp, rfl⟩
    · obtain ⟨rfl, hzs⟩ := List.cons.inj hr
      exact .inl ⟨hxs x (by simp), zs, rfl, hzs⟩
  · exact .inr ⟨hys x (by simp), zs, hl, rfl⟩

/-- Where the elements that turn the descent right all come first, the shape does not matter. -/
theorem gap_eq (h : t.toList = xs ++ ys) (hxs : ∀ x ∈ xs, p x = true) (hys : ∀ y ∈ ys, p y = false) :
    t.gap p = xs.length := by
  induction t generalizing xs ys with
  | nil => rw [(List.append_eq_nil_iff.mp h.symm).1, gap, List.length_nil]
  | node c l x r ihl ihr =>
    rcases cut_node h hxs hys with ⟨hx, zs, rfl, hr⟩ | ⟨hx, zs, hl, rfl⟩
    · rw [gap, if_pos hx, ihr hr (fun z hz => hxs z (by simp [hz])) hys, size_eq, List.length_append,
        List.length_cons, Nat.add_assoc, Nat.add_comm 1]
    · rw [gap, if_neg (Bool.eq_false_iff.mp hx), ihl hl hxs fun z hz => hys z (by simp [hz])]

theorem toList_insertAt (x : α) (h : t.toList = xs ++ ys) (hxs : ∀ x ∈ xs, p x = true) (hys : ∀ y ∈ ys, p y = false) :
    (t.insertAt p x).toList = xs ++ x :: ys := by
  induction t generalizing xs ys with
  | nil =>
    obtain ⟨rfl, rfl⟩ := List.append_eq_nil_iff.mp h.symm
    rfl
  | node c l y r ihl ihr =>
    rcases cut_node h hxs hys with ⟨hy, zs, rfl, hr⟩ | ⟨hy, zs, hl, rfl⟩
    · rw [insertAt, if_pos hy, toList, ihr hr (fun z hz => hxs z (by simp [hz])) hys, List.append_assoc,
        List.cons_append]
    · rw [insertAt, if_neg (Bool.eq_false_iff.mp hy), toList, ihl hl hxs fun z hz => hys z (by simp [hz]),
        List.append_assoc, List.cons_append]

end

end BinTree

/-- The rotations after an insertion, and an erasure with its rotations. -/
structure Balance (α : Type) where
  settle : BinTree α → BinTree α
  toList_settle : ∀ t, (settle t).toList = t.toList
  erase : ℕ → BinTree α → BinTree α
  toList_erase : ∀ i t, (erase i t).toList = t.toList.eraseIdx i

/-- The tree in which every element is the right child of the one before it. -/
def spine (l : List α) : BinTree α := l.foldr (.node false .nil) .nil

theorem toList_spine (l : List α) : (spine l).toList = l := by
  induction l with
  | nil => rfl
  | cons x l ih => exact congrArg (x :: ·) ih

/-- No rotations. A tree of two elements has none. -/
def Balance.unrotated (α : Type) : Balance α where
  settle t := t
  toList_settle _ := rfl
  erase i t := spine (t.toList.eraseIdx i)
  toList_erase _ _ := toList_spine _

section Map
variable {κ β : Type} (lt : κ → κ → Bool)

def lowerBound (k : κ) (t : BinTree (κ × β)) : ℕ := t.gap fun x => lt x.1 k

def upperBound (k : κ) (t : BinTree (κ × β)) : ℕ := t.gap fun x => !lt k x.1

/-- The place of the element and the element. -/
def find (k : κ) (t : BinTree (κ × β)) : Option (ℕ × κ × β) :=
  match t.toList[lowerBound lt k t]? with
  | none => none
  | some x => if lt k x.1 then none else some (lowerBound lt k t, x)

/-- `insert` keeps an element before the new place that is not less than the key. -/
def insertUnique (bal : Balance (κ × β)) (k : κ) (v : β) (t : BinTree (κ × β)) : BinTree (κ × β) :=
  let new := bal.settle (t.insertAt (fun x => !lt k x.1) (k, v))
  if upperBound lt k t = 0 then new
  else match t.toList[upperBound lt k t - 1]? with
    | none => new
    | some x => if lt x.1 k then new else t

/-- The places from the first element that is not less to the first one that is greater. The
two descents part at the first node that is neither. -/
def equalRange (k : κ) : BinTree (κ × β) → ℕ × ℕ
  | .nil => (0, 0)
  | .node _ l x r =>
    if lt x.1 k then
      let range := equalRange k r
      (l.size + 1 + range.1, l.size + 1 + range.2)
    else if lt k x.1 then equalRange k l
    else (lowerBound lt k l, l.size + 1 + upperBound lt k r)

/-- `erase` of a key. -/
def eraseKey (bal : Balance (κ × β)) (k : κ) (t : BinTree (κ × β)) : BinTree (κ × β) :=
  let range := equalRange lt k t
  (bal.erase range.1)^[range.2 - range.1] t

variable {lt}

/-- What is found is neither less nor greater, whatever the shape. -/
theorem find_eq_some {k : κ} {t : BinTree (κ × β)} {i : ℕ} {x : κ × β} (h : find lt k t = some (i, x)) :
    t.toList[i]? = some x ∧ lt x.1 k = false ∧ lt k x.1 = false := by
  rw [find] at h
  cases hget : t.toList[lowerBound lt k t]? with
  | none => simp [hget] at h
  | some y =>
    simp only [hget] at h
    split_ifs at h with hlt
    obtain ⟨rfl, rfl⟩ := Prod.mk.inj (Option.some.inj h)
    exact ⟨hget, BinTree.getElem?_gap (p := fun x : κ × β => lt x.1 k) hget, Bool.eq_false_iff.mpr hlt⟩

theorem equalRange_eq {k : κ} {t : BinTree (κ × β)} (h : ∀ x ∈ t.toList, lt x.1 k = true → lt k x.1 = false) :
    equalRange lt k t = (lowerBound lt k t, upperBound lt k t) := by
  induction t with
  | nil => rfl
  | node c l x r ihl ihr =>
    have hl := ihl fun y hy => h y (by simp [BinTree.toList, hy])
    have hr := ihr fun y hy => h y (by simp [BinTree.toList, hy])
    have hx := h x (by simp [BinTree.toList])
    rw [equalRange]
    by_cases hlt : lt x.1 k = true
    · simp only [if_pos hlt, hr, lowerBound, upperBound, BinTree.gap, hx hlt, Bool.not_false, if_true]
    cases hgt : lt k x.1 with
    | true =>
      simp only [if_neg hlt, if_true, hl, lowerBound, upperBound, BinTree.gap, hgt, Bool.not_true, Bool.false_eq_true,
        if_false]
    | false =>
      simp only [if_neg hlt, lowerBound, upperBound, BinTree.gap, hgt, Bool.not_false, Bool.false_eq_true, if_false,
        if_true]

end Map

/-! ## Keys in a chain -/

section Chain
variable {κ β : Type} [PartialOrder κ] {lt : κ → κ → Bool}

/-- On comparable keys the comparison is the strict order. -/
def Agrees (lt : κ → κ → Bool) : Prop := ∀ a b, a ≤ b ∨ b ≤ a → (lt a b = true ↔ a < b)

def Ascending (t : BinTree (κ × β)) : Prop := t.toList.Pairwise fun x y => x.1 < y.1

theorem Agrees.lt_eq_true (hlt : Agrees lt) {a b : κ} (h : a < b) : lt a b = true := (hlt a b (.inl h.le)).mpr h

theorem Agrees.lt_eq_false (hlt : Agrees lt) {a b : κ} (h : b ≤ a) : lt a b = false :=
  Bool.eq_false_iff.mpr fun hab => ((hlt a b (.inr h)).mp hab).not_ge h

variable {t : BinTree (κ × β)}
variable {k : κ} {x : κ × β} {xs ys : List (κ × β)}

theorem Ascending.cut (ht : Ascending t) {x : κ × β} (hx : x ∈ t.toList) :
    ∃ xs ys, t.toList = xs ++ x :: ys ∧ (∀ y ∈ xs, y.1 < x.1) ∧ ∀ y ∈ ys, x.1 < y.1 := by
  obtain ⟨xs, ys, h⟩ := List.append_of_mem hx
  rw [Ascending, h, List.pairwise_append, List.pairwise_cons] at ht
  exact ⟨xs, ys, h, fun y hy => ht.2.2 y hy x List.mem_cons_self, ht.2.1.1⟩

/-- A new key that is comparable with all the others has a place among them. -/
theorem Ascending.cut_new (ht : Ascending t) (hk : ∀ x ∈ t.toList, x.1 < k ∨ k < x.1) :
    ∃ xs ys, t.toList = xs ++ ys ∧ (∀ y ∈ xs, y.1 < k) ∧ ∀ y ∈ ys, k < y.1 := by
  unfold Ascending at ht
  generalize t.toList = l at ht hk
  induction l with
  | nil => exact ⟨[], [], rfl, by simp, by simp⟩
  | cons x l ih =>
    obtain ⟨hx, hl⟩ := List.pairwise_cons.mp ht
    rcases hk x List.mem_cons_self with hlt | hgt
    · obtain ⟨xs, ys, rfl, hxs, hys⟩ := ih hl fun y hy => hk y (List.mem_cons_of_mem _ hy)
      exact ⟨x :: xs, ys, rfl, List.forall_mem_cons.mpr ⟨hlt, hxs⟩, hys⟩
    · exact ⟨[], x :: l, rfl, by simp, List.forall_mem_cons.mpr ⟨hgt, fun y hy => hgt.trans (hx y hy)⟩⟩

theorem Agrees.lowerBound_eq (hlt : Agrees lt) (h : t.toList = xs ++ x :: ys) (hxs : ∀ y ∈ xs, y.1 < x.1)
    (hys : ∀ y ∈ ys, x.1 < y.1) : lowerBound lt x.1 t = xs.length :=
  BinTree.gap_eq h (fun y hy => hlt.lt_eq_true (hxs y hy)) <|
    List.forall_mem_cons.mpr ⟨hlt.lt_eq_false le_rfl, fun y hy => hlt.lt_eq_false (hys y hy).le⟩

theorem Agrees.upperBound_eq (hlt : Agrees lt) (h : t.toList = xs ++ ys) (hxs : ∀ y ∈ xs, y.1 ≤ k)
    (hys : ∀ y ∈ ys, k < y.1) : upperBound lt k t = xs.length :=
  BinTree.gap_eq h (fun y hy => by rw [hlt.lt_eq_false (hxs y hy), Bool.not_false])
    fun y hy => by rw [hlt.lt_eq_true (hys y hy), Bool.not_true]

theorem Ascending.find_of_mem (ht : Ascending t) (hlt : Agrees lt) (hx : x ∈ t.toList) :
    ∃ i, find lt x.1 t = some (i, x) := by
  obtain ⟨xs, ys, h, hxs, hys⟩ := ht.cut hx
  have hget : t.toList[xs.length]? = some x := by simp [h]
  refine ⟨xs.length, ?_⟩
  simp only [find, hlt.lowerBound_eq h hxs hys, hget, hlt.lt_eq_false le_rfl, Bool.false_eq_true, if_false]

theorem Ascending.erase (ht : Ascending t) (bal : Balance (κ × β)) {i : ℕ} (hx : t.toList[i]? = some x) :
    Ascending (bal.erase i t) ∧ t.toList.Perm (x :: (bal.erase i t).toList) := by
  rw [Ascending, bal.toList_erase]
  obtain ⟨hi, rfl⟩ := List.getElem?_eq_some_iff.mp hx
  exact ⟨ht.sublist (List.eraseIdx_sublist _ _), (List.getElem_cons_eraseIdx_perm hi).symm⟩

theorem Ascending.eraseKey (ht : Ascending t) (hlt : Agrees lt) (bal : Balance (κ × β)) (hx : x ∈ t.toList) :
    Ascending (SearchTree.eraseKey lt bal x.1 t) ∧
      t.toList.Perm (x :: (SearchTree.eraseKey lt bal x.1 t).toList) := by
  obtain ⟨xs, ys, h, hxs, hys⟩ := ht.cut hx
  have hupper : upperBound lt x.1 t = xs.length + 1 := by
    have hcut : t.toList = (xs ++ [x]) ++ ys := by rw [h, List.append_assoc, List.singleton_append]
    rw [hlt.upperBound_eq hcut _ hys, List.length_append, List.length_singleton]
    intro y hy
    rcases List.mem_append.mp hy with hy | hy
    · exact (hxs y hy).le
    · rw [List.mem_singleton.mp hy]
  have hrange : equalRange lt x.1 t = (xs.length, xs.length + 1) := by
    rw [equalRange_eq, hlt.lowerBound_eq h hxs hys, hupper]
    intro y hy hyx
    have hcomparable : y.1 ≤ x.1 ∨ x.1 ≤ y.1 := by
      rw [h, List.mem_append, List.mem_cons] at hy
      rcases hy with hy | rfl | hy
      · exact .inl (hxs y hy).le
      · exact .inl le_rfl
      · exact .inr (hys y hy).le
    exact hlt.lt_eq_false ((hlt y.1 x.1 hcomparable).mp hyx).le
  rw [SearchTree.eraseKey, hrange, Nat.add_sub_cancel_left, Function.iterate_one]
  exact ht.erase bal (by simp [h])

theorem Agrees.toList_insertUnique (hlt : Agrees lt) (bal : Balance (κ × β)) (v : β) (h : t.toList = xs ++ ys)
    (hxs : ∀ y ∈ xs, y.1 < k) (hys : ∀ y ∈ ys, k < y.1) :
    (insertUnique lt bal k v t).toList = xs ++ (k, v) :: ys := by
  have hnew : (bal.settle (t.insertAt (fun x => !lt k x.1) (k, v))).toList = xs ++ (k, v) :: ys := by
    rw [bal.toList_settle]
    refine BinTree.toList_insertAt (k, v) h (fun y hy => ?_) fun y hy => ?_
    · rw [hlt.lt_eq_false (hxs y hy).le, Bool.not_false]
    · rw [hlt.lt_eq_true (hys y hy), Bool.not_true]
  have hupper := hlt.upperBound_eq h (fun y hy => (hxs y hy).le) hys
  rcases List.eq_nil_or_concat xs with rfl | ⟨zs, z, rfl⟩
  · rw [List.length_nil] at hupper
    rw [insertUnique, if_pos hupper]
    exact hnew
  · -- the element before the new place is less than the key
    rw [List.concat_eq_append] at h hupper hxs hnew
    have hget : t.toList[zs.length]? = some z := by simp [h]
    have hz : lt z.1 k = true := hlt.lt_eq_true (hxs z (by simp))
    rw [List.length_append, List.length_singleton] at hupper
    rw [insertUnique, hupper, if_neg (Nat.succ_ne_zero _), Nat.add_sub_cancel]
    simp only [hget, hz, if_true, hnew, List.concat_eq_append]

theorem Ascending.insertUnique (ht : Ascending t) (hlt : Agrees lt) (bal : Balance (κ × β)) (v : β)
    (hk : ∀ x ∈ t.toList, x.1 < k ∨ k < x.1) :
    Ascending (SearchTree.insertUnique lt bal k v t) ∧
      (SearchTree.insertUnique lt bal k v t).toList.Perm ((k, v) :: t.toList) := by
  obtain ⟨xs, ys, h, hxs, hys⟩ := ht.cut_new hk
  rw [Ascending, h, List.pairwise_append] at ht
  obtain ⟨hpx, hpy, hxy⟩ := ht
  rw [Ascending, hlt.toList_insertUnique bal v h hxs hys, h, List.pairwise_append, List.pairwise_cons]
  refine ⟨⟨hpx, ⟨hys, hpy⟩, fun x hx y hy => ?_⟩, List.perm_middle⟩
  rcases List.mem_cons.mp hy with rfl | hy
  · exact hxs x hx
  · exact hxy x hx y hy

end Chain
end FlyingKV.SearchTree
