import FlyingKV.Slab

set_option autoImplicit false

/-!
# A ledger of pages

A page of slot `i` has `perPage i` blocks. Of every slot the ledger has the pages of its free blocks,
once for each block, and a counter of them modulo 2^32; of every live block it has slot and page. A
block that is neither free nor live is lost.
-/
namespace FlyingKV.PageLedger
open Slab

@[ext] structure Ledger (ι π : Type) where
  free : ι → Multiset π
  live : Multiset (ι × π)
  held : Set π
  cnt : ι → ℕ

section
variable {ι π : Type} [DecidableEq ι] [DecidableEq π]

namespace Ledger

/-- The number of blocks of a page that are not lost. -/
def blocks (L : Ledger ι π) (i : ι) (p : π) : ℕ := (L.free i).count p + L.live.count (i, p)

def grow (L : Ledger ι π) (perPage : ι → ℕ) (i : ι) (p : π) : Ledger ι π where
  free := Function.update L.free i (.replicate (perPage i) p)
  live := L.live
  held := insert p L.held
  cnt := Function.update L.cnt i (perPage i)

def take (L : Ledger ι π) (i : ι) (p : π) : Ledger ι π where
  free := Function.update L.free i ((L.free i).erase p)
  live := (i, p) ::ₘ L.live
  held := L.held
  cnt := Function.update L.cnt i ((L.cnt i + 2 ^ 32 - 1) % 2 ^ 32)

def give (L : Ledger ι π) (i : ι) (p : π) : Ledger ι π where
  free := Function.update L.free i (p ::ₘ L.free i)
  live := L.live.erase (i, p)
  held := L.held
  cnt := Function.update L.cnt i ((L.cnt i + 1) % 2 ^ 32)

def release (L : Ledger ι π) (perPage : ι → ℕ) (i : ι) (p : π) : Ledger ι π where
  free := Function.update L.free i ((L.free i).filter (· ≠ p))
  live := L.live
  held := L.held \ {p}
  cnt := Function.update L.cnt i ((L.cnt i + 2 ^ 32 - perPage i) % 2 ^ 32)

/-- A live block goes with its page. -/
def discard (L : Ledger ι π) (i : ι) (p : π) : Ledger ι π :=
  { L with live := L.live.erase (i, p), held := L.held \ {p} }

/-- The free blocks of a slot are lost. -/
def forget (L : Ledger ι π) (i : ι) : Ledger ι π :=
  { L with free := Function.update L.free i 0, cnt := Function.update L.cnt i 0 }

/-- No page has more blocks than it can have, or is used by two slots, or is used without being held. -/
structure Sound (L : Ledger ι π) (perPage : ι → ℕ) : Prop where
  fits : ∀ i p, L.blocks i p ≤ perPage i
  owner : ∀ i j p, 0 < L.blocks i p → 0 < L.blocks j p → i = j
  held : ∀ i p, 0 < L.blocks i p → p ∈ L.held
  counted : ∀ i, (∀ p, L.blocks i p = 0) ∨ L.cnt i = (L.free i).card % 2 ^ 32

/-- With so many free blocks no page is free as a whole. -/
def Trimmed (L : Ledger ι π) (perPage resident : ι → ℕ) (i : ι) : Prop :=
  resident i + perPage i ≤ L.cnt i → ∀ p, (L.free i).count p < perPage i

/-! ## Blocks -/

section
variable {L M : Ledger ι π} {perPage resident : ι → ℕ} {i : ι} {p : π}

theorem blocks_pos_of_free (h : p ∈ L.free i) : 0 < L.blocks i p :=
  Nat.add_pos_left (Multiset.count_pos.mpr h) _

theorem blocks_pos_of_live (h : (i, p) ∈ L.live) : 0 < L.blocks i p :=
  Nat.add_pos_right _ (Multiset.count_pos.mpr h)

theorem blocks_take (h : p ∈ L.free i) : (L.take i p).blocks = L.blocks := by
  funext j q
  simp only [blocks, take]
  by_cases hj : j = i
  · subst hj
    rw [Function.update_self]
    by_cases hq : q = p
    · subst hq
      have := Multiset.count_pos.mpr h
      rw [Multiset.count_erase_self, Multiset.count_cons_self]
      omega
    · rw [Multiset.count_erase_of_ne hq, Multiset.count_cons_of_ne (by simpa using hq)]
  · rw [Function.update_of_ne hj, Multiset.count_cons_of_ne (by simp [hj])]

theorem blocks_give (h : (i, p) ∈ L.live) : (L.give i p).blocks = L.blocks := by
  -- A block that was given back can be taken again.
  have hmem : p ∈ (L.give i p).free i := by
    simp only [give, Function.update_self, Multiset.mem_cons_self]
  have hfree : ((L.give i p).take i p).free = L.free := by
    simp only [take, give, Function.update_self, Multiset.erase_cons_head, Function.update_idem,
      Function.update_eq_self]
  have hlive : ((L.give i p).take i p).live = L.live := Multiset.cons_erase h
  rw [← blocks_take hmem]
  funext j q
  simp only [blocks, hfree, hlive]

theorem blocks_forget_le (j : ι) (q : π) : (L.forget i).blocks j q ≤ L.blocks j q := by
  simp only [blocks, forget]
  by_cases hj : j = i
  · rw [hj, Function.update_self]
    simp
  · rw [Function.update_of_ne hj]

theorem blocks_release_le (j : ι) (q : π) : (L.release perPage i p).blocks j q ≤ L.blocks j q := by
  simp only [blocks, release]
  by_cases hj : j = i
  · rw [hj, Function.update_self]
    exact Nat.add_le_add_right (Multiset.count_le_of_le _ (Multiset.filter_le _ _)) _
  · rw [Function.update_of_ne hj]

theorem blocks_discard_le (j : ι) (q : π) : (L.discard i p).blocks j q ≤ L.blocks j q :=
  Nat.add_le_add_left (Multiset.count_le_of_le _ (Multiset.erase_le _ _)) _

/-! ## The operations keep a ledger sound -/

theorem Sound.shrink (hs : L.Sound perPage) (hle : ∀ j q, M.blocks j q ≤ L.blocks j q)
    (hheld : ∀ j q, 0 < M.blocks j q → q ∈ M.held)
    (hcnt : ∀ j, (∀ q, M.blocks j q = 0) ∨ M.cnt j = (M.free j).card % 2 ^ 32) : M.Sound perPage where
  fits j q := (hle j q).trans (hs.fits j q)
  owner j k q hj hk := hs.owner j k q (hj.trans_le (hle j q)) (hk.trans_le (hle k q))
  held := hheld
  counted := hcnt

theorem Sound.counted_update (hs : L.Sound perPage) (hle : ∀ j q, M.blocks j q ≤ L.blocks j q)
    (hfree : ∀ j ≠ i, M.free j = L.free j) (hcnt : ∀ j ≠ i, M.cnt j = L.cnt j)
    (hi : M.cnt i = (M.free i).card % 2 ^ 32) (j : ι) :
    (∀ q, M.blocks j q = 0) ∨ M.cnt j = (M.free j).card % 2 ^ 32 := by
  by_cases hj : j = i
  · exact .inr (hj ▸ hi)
  · rw [hfree j hj, hcnt j hj]
    rcases hs.counted j with hzero | hcount
    · exact .inl fun q => Nat.le_zero.mp ((hle j q).trans (hzero q).le)
    · exact .inr hcount

theorem Sound.cnt_eq (hs : L.Sound perPage) (h : 0 < L.blocks i p) : L.cnt i = (L.free i).card % 2 ^ 32 :=
  (hs.counted i).resolve_left fun hzero => h.ne' (hzero p)

theorem Sound.count_le (hs : L.Sound perPage) (i : ι) (p : π) : (L.free i).count p ≤ perPage i :=
  (Nat.le_add_right _ _).trans (hs.fits i p)

theorem Sound.take (hs : L.Sound perPage) (h : p ∈ L.free i) : (L.take i p).Sound perPage := by
  have hblocks := blocks_take h
  have hpos := blocks_pos_of_free h
  refine hs.shrink (fun j q => (congrFun (congrFun hblocks j) q).le) (fun j q hq => ?_) ?_
  · rw [hblocks] at hq
    exact hs.held j q hq
  · refine hs.counted_update (i := i) (fun j q => (congrFun (congrFun hblocks j) q).le)
      (fun j hj => Function.update_of_ne hj _ _) (fun j hj => Function.update_of_ne hj _ _) ?_
    have hcard := Multiset.card_erase_of_mem h
    have hne := Multiset.card_pos_iff_exists_mem.mpr ⟨p, h⟩
    simp only [Ledger.take, Function.update_self]
    rw [hs.cnt_eq hpos, hcard, Nat.pred_eq_sub_one]
    omega

theorem Sound.give (hs : L.Sound perPage) (h : (i, p) ∈ L.live) : (L.give i p).Sound perPage := by
  have hblocks := blocks_give h
  have hpos := blocks_pos_of_live h
  refine hs.shrink (fun j q => (congrFun (congrFun hblocks j) q).le) (fun j q hq => ?_) ?_
  · rw [hblocks] at hq
    exact hs.held j q hq
  · refine hs.counted_update (i := i) (fun j q => (congrFun (congrFun hblocks j) q).le)
      (fun j hj => Function.update_of_ne hj _ _) (fun j hj => Function.update_of_ne hj _ _) ?_
    simp only [Ledger.give, Function.update_self, Multiset.card_cons]
    rw [hs.cnt_eq hpos]
    omega

theorem Sound.forget (hs : L.Sound perPage) (i : ι) : (L.forget i).Sound perPage := by
  refine hs.shrink blocks_forget_le (fun j q hq => hs.held j q (hq.trans_le (blocks_forget_le j q))) ?_
  refine hs.counted_update (i := i) blocks_forget_le
    (fun j hj => Function.update_of_ne hj _ _) (fun j hj => Function.update_of_ne hj _ _) ?_
  simp [Ledger.forget]

/-- A page that is free as a whole has no live block, and no other slot uses it. -/
theorem Sound.release (hs : L.Sound perPage) (hpos : 0 < perPage i) (hlt : perPage i < 2 ^ 32)
    (hfull : (L.free i).count p = perPage i) : (L.release perPage i p).Sound perPage := by
  have hfits := hs.fits i p
  have hused : 0 < L.blocks i p := by
    unfold blocks
    omega
  have hle : ∀ j q, (L.release perPage i p).blocks j q ≤ L.blocks j q := blocks_release_le
  refine hs.shrink hle (fun j q hq => ⟨hs.held j q (hq.trans_le (hle j q)), ?_⟩) ?_
  · rintro rfl
    obtain rfl := hs.owner i j q hused (hq.trans_le (hle j q))
    simp only [blocks, Ledger.release, Function.update_self] at hq hfits
    rw [Multiset.count_filter, if_neg (not_not.mpr rfl)] at hq
    omega
  · refine hs.counted_update (i := i) hle
      (fun j hj => Function.update_of_ne hj _ _) (fun j hj => Function.update_of_ne hj _ _) ?_
    have hcard : (L.free i).card = perPage i + ((L.free i).filter (· ≠ p)).card := by
      have hsplit := congrArg Multiset.card (Multiset.filter_add_not (· = p) (L.free i))
      rw [Multiset.card_add, Multiset.filter_eq', Multiset.card_replicate, hfull] at hsplit
      exact hsplit.symm
    simp only [Ledger.release, Function.update_self]
    rw [hs.cnt_eq hused, hcard]
    omega

theorem Sound.discard (hs : L.Sound perPage) (hone : perPage i = 1) (h : (i, p) ∈ L.live) :
    (L.discard i p).Sound perPage := by
  have hfits := hs.fits i p
  have hused := blocks_pos_of_live h
  have hle : ∀ j q, (L.discard i p).blocks j q ≤ L.blocks j q := blocks_discard_le
  refine hs.shrink hle (fun j q hq => ⟨hs.held j q (hq.trans_le (hle j q)), ?_⟩) fun j => ?_
  · rintro rfl
    obtain rfl := hs.owner i j q hused (hq.trans_le (hle j q))
    have := Multiset.count_pos.mpr h
    simp only [blocks, Ledger.discard, Multiset.count_erase_self] at hq hfits
    omega
  · rcases hs.counted j with hzero | hcount
    · exact .inl fun q => Nat.le_zero.mp ((hle j q).trans (hzero q).le)
    · exact .inr hcount

theorem Sound.grow (hs : L.Sound perPage) (hlt : perPage i < 2 ^ 32) (hp : p ∉ L.held) :
    (L.grow perPage i p).Sound perPage := by
  have hunused : ∀ j, L.blocks j p = 0 := fun j => by
    by_contra hne
    exact hp (hs.held j p (Nat.pos_of_ne_zero hne))
  -- the page is new, and on the other pages nothing is gained
  have hnew : ∀ j, 0 < (L.grow perPage i p).blocks j p → j = i ∧ (L.grow perPage i p).blocks j p = perPage i := by
    intro j hpos
    have hzero := hunused j
    by_cases hj : j = i
    · subst hj
      refine ⟨rfl, ?_⟩
      simp only [blocks, Ledger.grow, Function.update_self, Multiset.count_replicate_self] at hzero ⊢
      omega
    · simp only [blocks, Ledger.grow, Function.update_of_ne hj] at hzero hpos
      omega
  have hold : ∀ j q, q ≠ p → (L.grow perPage i p).blocks j q ≤ L.blocks j q := by
    intro j q hq
    by_cases hj : j = i
    · subst hj
      simp only [blocks, Ledger.grow, Function.update_self, Multiset.count_replicate, if_neg hq.symm]
      omega
    · simp only [blocks, Ledger.grow, Function.update_of_ne hj, le_refl]
  refine ⟨fun j q => ?_, fun j k q hj hk => ?_, fun j q hq => ?_, fun j => ?_⟩
  · by_cases hq : q = p
    · subst hq
      by_cases hpos : 0 < (L.grow perPage i q).blocks j q
      · obtain ⟨rfl, heq⟩ := hnew j hpos
        exact heq.le
      · omega
    · exact (hold j q hq).trans (hs.fits j q)
  · by_cases hq : q = p
    · subst hq
      exact (hnew j hj).1.trans (hnew k hk).1.symm
    · exact hs.owner j k q (hj.trans_le (hold j q hq)) (hk.trans_le (hold k q hq))
  · by_cases hqp : q = p
    · exact .inl hqp
    · exact .inr (hs.held j q (hq.trans_le (hold j q hqp)))
  · by_cases hj : j = i
    · subst hj
      right
      simp only [Ledger.grow, Function.update_self, Multiset.card_replicate]
      exact (Nat.mod_eq_of_lt hlt).symm
    · simp only [blocks, Ledger.grow, Function.update_of_ne hj]
      exact hs.counted j

/-! ## The operations keep a ledger trimmed -/

omit [DecidableEq ι] in
theorem Trimmed.of_eq {j : ι} (h : L.Trimmed perPage resident j) (hfree : M.free j = L.free j)
    (hcnt : M.cnt j = L.cnt j) : M.Trimmed perPage resident j := by
  unfold Trimmed
  rw [hfree, hcnt]
  exact h

theorem trimmed_update (h : ∀ j, L.Trimmed perPage resident j) (hfree : ∀ j ≠ i, M.free j = L.free j)
    (hcnt : ∀ j ≠ i, M.cnt j = L.cnt j) (hi : M.Trimmed perPage resident i) (j : ι) :
    M.Trimmed perPage resident j := by
  by_cases hj : j = i
  · exact hj ▸ hi
  · exact (h j).of_eq (hfree j hj) (hcnt j hj)

theorem trimmed_grow (h : ∀ j, L.Trimmed perPage resident j) (hres : 0 < resident i) :
    ∀ j, (L.grow perPage i p).Trimmed perPage resident j := by
  refine trimmed_update (i := i) h (fun j hj => Function.update_of_ne hj _ _)
    (fun j hj => Function.update_of_ne hj _ _) fun hmany => ?_
  simp only [grow, Function.update_self] at hmany
  omega

theorem trimmed_take (h : ∀ j, L.Trimmed perPage resident j) (hcnt : L.cnt i ≠ 0) :
    ∀ j, (L.take i p).Trimmed perPage resident j := by
  refine trimmed_update (i := i) h (fun j hj => Function.update_of_ne hj _ _)
    (fun j hj => Function.update_of_ne hj _ _) fun hmany q => ?_
  simp only [take, Function.update_self] at hmany ⊢
  exact (Multiset.count_le_of_le q (Multiset.erase_le p _)).trans_lt (h i (by omega) q)

theorem trimmed_forget (h : ∀ j, L.Trimmed perPage resident j) (hres : 0 < resident i) :
    ∀ j, (L.forget i).Trimmed perPage resident j := by
  refine trimmed_update (i := i) h (fun j hj => Function.update_of_ne hj _ _)
    (fun j hj => Function.update_of_ne hj _ _) fun hmany => ?_
  simp only [forget, Function.update_self] at hmany
  omega

/-- A page of one block is free as a whole once the block is back. -/
theorem trimmed_give_iff (hone : perPage i = 1) :
    (L.give i p).Trimmed perPage resident i ↔ (L.cnt i + 1) % 2 ^ 32 ≤ resident i := by
  simp only [Trimmed, give, Function.update_self, hone]
  constructor
  · intro h
    by_contra hmany
    have hlt := h (not_le.mp hmany) p
    rw [Multiset.count_cons_self] at hlt
    omega
  · intro hfew hmany
    omega

/-- A block is given back; when there are too many then, a page that is free as a whole is
released, if there is one. -/
inductive Puts (L : Ledger ι π) (perPage resident : ι → ℕ) (i : ι) (p : π) : Ledger ι π → Prop
  | kept (h : (L.give i p).Trimmed perPage resident i) : Puts L perPage resident i p (L.give i p)
  | released {q : π} (hmany : resident i + perPage i ≤ (L.give i p).cnt i)
      (hfull : ((L.give i p).free i).count q = perPage i) :
      Puts L perPage resident i p ((L.give i p).release perPage i q)

theorem Puts.trimmed (hpos : 0 < perPage i) (hL : ∀ j, L.Trimmed perPage resident j)
    (h : Puts L perPage resident i p M) : ∀ j, M.Trimmed perPage resident j := by
  cases h with
  | kept h =>
    exact trimmed_update hL (fun j hj => Function.update_of_ne hj _ _) (fun j hj => Function.update_of_ne hj _ _) h
  | @released q hmany hfull =>
    refine trimmed_update (i := i) hL (fun j hj => ?_) (fun j hj => ?_) fun hstill r => ?_
    · simp only [release, give, Function.update_of_ne hj]
    · simp only [release, give, Function.update_of_ne hj]
    · simp only [release, give, Function.update_self] at hmany hfull hstill ⊢
      -- there were too many before as well, so only the page of the block can have become free
      have hbefore := hL i (by omega)
      obtain rfl : q = p := by
        by_contra hq
        rw [Multiset.count_cons_of_ne hq] at hfull
        exact (hbefore q).ne hfull
      by_cases hr : r = q
      · rw [Multiset.count_filter, if_neg (not_not.mpr hr)]
        exact hpos
      · rw [Multiset.count_filter, if_pos hr, Multiset.count_cons_of_ne hr]
        exact hbefore r

end

end Ledger

end

/-! ## Tables -/

/-- The pages of the free blocks of a table. -/
def pagesOf (t : FreeTable) : Multiset ℕ := ↑(t.entries.flatMap fun e => List.replicate e.2.length e.1)

theorem card_pagesOf (t : FreeTable) : (pagesOf t).card = (allFree t).length := by
  simp [pagesOf, allFree, List.length_flatMap]

theorem count_pagesOf (t : FreeTable) (p : ℕ) : (pagesOf t).count p = (freeOf t p).length := by
  have hnot : ∀ l : List (Sigma fun _ : ℕ => List ℕ), p ∉ l.keys →
      (l.flatMap fun e => List.replicate e.2.length e.1).count p = 0 := by
    intro l hp
    rw [List.count_eq_zero]
    intro hmem
    obtain ⟨e, he, hpe⟩ := List.mem_flatMap.mp hmem
    rw [(List.mem_replicate.mp hpe).2] at hp
    exact hp (List.mem_keys_of_mem he)
  rw [pagesOf, Multiset.coe_count]
  by_cases hp : p ∈ t
  · obtain ⟨l, l₁, l₂, -, hsplit, -⟩ := List.exists_of_kerase hp
    have hnodup := t.nodupKeys
    rw [hsplit, List.nodupKeys_middle, List.nodupKeys_cons] at hnodup
    have hrest := hnot _ hnodup.1
    rw [List.flatMap_append, List.count_append] at hrest
    have hlookup : t.lookup p = some l := by
      rw [← Option.mem_def, AList.mem_lookup_iff, hsplit]
      simp
    rw [freeOf_of_lookup hlookup, hsplit, List.flatMap_append, List.flatMap_cons, List.count_append,
      List.count_append, List.count_replicate_self]
    dsimp only
    omega
  · rw [hnot t.entries hp, freeOf, AList.lookup_eq_none.mpr hp]
    rfl

theorem pagesOf_page (p : ℕ) (l : List ℕ) : pagesOf ((∅ : FreeTable).insert p l) = .replicate l.length p := by
  ext q
  rw [count_pagesOf, Multiset.count_replicate]
  by_cases hq : q = p
  · rw [hq, freeOf_insert, if_pos rfl]
  · rw [freeOf_insert_ne l hq, if_neg (Ne.symm hq)]
    rfl

theorem pagesOf_take {t : FreeTable} {p a : ℕ} {rest : List ℕ} (h : t.lookup p = some (a :: rest)) :
    pagesOf (takeFree t p rest) = (pagesOf t).erase p := by
  ext q
  by_cases hq : q = p
  · rw [hq, Multiset.count_erase_self, count_pagesOf, count_pagesOf, freeOf_takeFree, freeOf_of_lookup h]
    rfl
  · rw [Multiset.count_erase_of_ne hq, count_pagesOf, count_pagesOf, freeOf_takeFree_ne rest hq]

theorem pagesOf_give (t : FreeTable) (p a : ℕ) :
    pagesOf (t.insert p (freeOf t p ++ [a])) = p ::ₘ pagesOf t := by
  ext q
  by_cases hq : q = p
  · rw [hq, Multiset.count_cons_self, count_pagesOf, count_pagesOf, freeOf_insert, List.length_append]
    rfl
  · rw [Multiset.count_cons_of_ne hq, count_pagesOf, count_pagesOf, freeOf_insert_ne _ hq]

theorem pagesOf_erase (t : FreeTable) (p : ℕ) : pagesOf (t.erase p) = (pagesOf t).filter (· ≠ p) := by
  ext q
  by_cases hq : q = p
  · rw [hq, Multiset.count_filter, if_neg (not_not.mpr rfl), count_pagesOf, freeOf_erase]
    rfl
  · rw [Multiset.count_filter, if_pos hq, count_pagesOf, count_pagesOf, freeOf_erase_ne hq]

theorem mem_pagesOf {t : FreeTable} {p a : ℕ} {rest : List ℕ} (h : t.lookup p = some (a :: rest)) :
    p ∈ pagesOf t := by
  rw [← Multiset.count_pos, count_pagesOf, freeOf_of_lookup h]
  exact Nat.succ_pos _

end FlyingKV.PageLedger
