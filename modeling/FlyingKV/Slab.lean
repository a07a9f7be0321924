import Mathlib.Data.List.AList
import Mathlib.Data.List.Rotate
import Mathlib.Data.Finset.Basic
import Mathlib.Tactic

set_option autoImplicit false

/-!
# Slabs

A slot owns pages and cuts them into blocks of one size. For every page it keeps the list of the
blocks that are free; the other blocks are live. Pages lie in a heap of disjoint regions.
-/
namespace FlyingKV.Slab

structure Region where
  base : ℕ
  size : ℕ
deriving DecidableEq, Repr

namespace Region

def Apart (r q : Region) : Prop := r.base + r.size ≤ q.base ∨ q.base + q.size ≤ r.base

instance (r q : Region) : Decidable (r.Apart q) := inferInstanceAs (Decidable (_ ∨ _))

def Within (r q : Region) : Prop := q.base ≤ r.base ∧ r.base + r.size ≤ q.base + q.size

theorem Apart.symm {r q : Region} (h : r.Apart q) : q.Apart r := Or.symm h

instance : Std.Symm Apart := ⟨fun _ _ => Apart.symm⟩

theorem Apart.within {r q r' q' : Region} (h : r.Apart q) (hr : r'.Within r) (hq : q'.Within q) :
    r'.Apart q' := by
  unfold Apart Within at *
  omega

theorem Apart.base_ne {r q : Region} (h : r.Apart q) (hr : 0 < r.size) (hq : 0 < q.size) :
    r.base ≠ q.base := by
  unfold Apart at h
  omega

end Region

/-! ## Blocks of a page -/

structure Shape where
  size : ℕ
  count : ℕ
  bytes : ℕ

structure Shape.Ok (sh : Shape) : Prop where
  size_pos : 0 < sh.size
  count_pos : 0 < sh.count
  fits : sh.size * sh.count ≤ sh.bytes

theorem Shape.Ok.bytes_pos {sh : Shape} (hok : sh.Ok) : 0 < sh.bytes :=
  (Nat.mul_pos hok.size_pos hok.count_pos).trans_le hok.fits

def blocks (sh : Shape) (page : ℕ) : List ℕ := (List.range sh.count).map fun i => page + sh.size * i

theorem length_blocks (sh : Shape) (page : ℕ) : (blocks sh page).length = sh.count := by
  simp [blocks]

theorem mem_blocks {sh : Shape} {page a : ℕ} : a ∈ blocks sh page ↔ ∃ i < sh.count, page + sh.size * i = a := by
  simp [blocks]

theorem nodup_blocks {sh : Shape} (hok : sh.Ok) (page : ℕ) : (blocks sh page).Nodup := by
  apply List.Nodup.map _ List.nodup_range
  intro i j hij
  exact Nat.eq_of_mul_eq_mul_left hok.size_pos (Nat.add_left_cancel hij)

theorem within_of_mem_blocks {sh : Shape} (hok : sh.Ok) {page a : ℕ} (ha : a ∈ blocks sh page) :
    Region.Within ⟨a, sh.size⟩ ⟨page, sh.bytes⟩ := by
  obtain ⟨i, hi, rfl⟩ := mem_blocks.mp ha
  have hend : sh.size * i + sh.size ≤ sh.size * sh.count := by
    rw [← Nat.mul_succ]
    exact Nat.mul_le_mul_left _ hi
  have hfits := hok.fits
  constructor
  · exact Nat.le_add_right _ _
  · dsimp only
    omega

theorem apart_of_mem_blocks {sh : Shape} {page a b : ℕ} (ha : a ∈ blocks sh page) (hb : b ∈ blocks sh page)
    (hne : a ≠ b) : Region.Apart ⟨a, sh.size⟩ ⟨b, sh.size⟩ := by
  obtain ⟨i, -, rfl⟩ := mem_blocks.mp ha
  obtain ⟨j, -, rfl⟩ := mem_blocks.mp hb
  have hij : i ≠ j := fun h => hne (by rw [h])
  rcases Nat.lt_or_gt_of_ne hij with hlt | hlt
  · have hmul : sh.size * i + sh.size ≤ sh.size * j := by
      rw [← Nat.mul_succ]
      exact Nat.mul_le_mul_left _ hlt
    left
    dsimp only
    omega
  · have hmul : sh.size * j + sh.size ≤ sh.size * i := by
      rw [← Nat.mul_succ]
      exact Nat.mul_le_mul_left _ hlt
    right
    dsimp only
    omega

/-! ## Free lists -/

section
variable {β : Type} {t : AList fun _ : ℕ => β} {j k : ℕ} {v w : β}

theorem lookup_insert_apply : (t.insert k v).lookup j = if j = k then some v else t.lookup j := by
  split_ifs with h
  · rw [h, AList.lookup_insert]
  · rw [AList.lookup_insert_ne h]

theorem lookup_erase_apply : (t.erase k).lookup j = if j = k then none else t.lookup j := by
  split_ifs with h
  · rw [h, AList.lookup_erase]
  · rw [AList.lookup_erase_ne h]

theorem lookup_insert_cases (h : (t.insert k v).lookup j = some w) :
    (j = k ∧ w = v) ∨ (j ≠ k ∧ t.lookup j = some w) := by
  rw [lookup_insert_apply] at h
  split_ifs at h with hjk
  · exact .inl ⟨hjk, (Option.some.inj h).symm⟩
  · exact .inr ⟨hjk, h⟩

theorem lookup_erase_cases (h : (t.erase k).lookup j = some w) : j ≠ k ∧ t.lookup j = some w := by
  rw [lookup_erase_apply] at h
  split_ifs at h with hjk
  exact ⟨hjk, h⟩

end

abbrev FreeTable := AList fun _ : ℕ => List ℕ

def freeOf (t : FreeTable) (p : ℕ) : List ℕ := (t.lookup p).getD []

/-- All free blocks of a slot. -/
def allFree (t : FreeTable) : List ℕ := t.entries.flatMap Sigma.snd

/-- The free blocks of a page without the first one; a page without free blocks has no entry. -/
def takeFree (t : FreeTable) (p : ℕ) (rest : List ℕ) : FreeTable :=
  if rest = [] then t.erase p else t.insert p rest

theorem freeOf_of_lookup {t : FreeTable} {p : ℕ} {l : List ℕ} (h : t.lookup p = some l) : freeOf t p = l := by
  rw [freeOf, h]
  rfl

theorem lookup_of_mem_freeOf {t : FreeTable} {p a : ℕ} (h : a ∈ freeOf t p) :
    ∃ l, t.lookup p = some l ∧ a ∈ l := by
  unfold freeOf at h
  cases hl : t.lookup p with
  | none =>
    rw [hl] at h
    cases h
  | some l =>
    rw [hl] at h
    exact ⟨l, rfl, h⟩

@[simp] theorem freeOf_insert (t : FreeTable) (p : ℕ) (l : List ℕ) : freeOf (t.insert p l) p = l := by
  simp [freeOf]

theorem freeOf_insert_ne {t : FreeTable} {p q : ℕ} (l : List ℕ) (h : q ≠ p) :
    freeOf (t.insert p l) q = freeOf t q := by
  rw [freeOf, AList.lookup_insert_ne h, freeOf]

@[simp] theorem freeOf_erase (t : FreeTable) (p : ℕ) : freeOf (t.erase p) p = [] := by
  simp [freeOf]

theorem freeOf_erase_ne {t : FreeTable} {p q : ℕ} (h : q ≠ p) : freeOf (t.erase p) q = freeOf t q := by
  rw [freeOf, AList.lookup_erase_ne h, freeOf]

theorem freeOf_takeFree (t : FreeTable) (p : ℕ) (rest : List ℕ) : freeOf (takeFree t p rest) p = rest := by
  unfold takeFree
  split_ifs with h
  · rw [h, freeOf_erase]
  · exact freeOf_insert t p rest

theorem freeOf_takeFree_ne {t : FreeTable} {p q : ℕ} (rest : List ℕ) (h : q ≠ p) :
    freeOf (takeFree t p rest) q = freeOf t q := by
  unfold takeFree
  split_ifs
  · exact freeOf_erase_ne h
  · exact freeOf_insert_ne rest h

theorem allFree_insert (t : FreeTable) (p : ℕ) (l : List ℕ) :
    allFree (t.insert p l) = l ++ allFree (t.erase p) := rfl

theorem allFree_perm (t : FreeTable) (p : ℕ) : (allFree t).Perm (freeOf t p ++ allFree (t.erase p)) := by
  by_cases hp : p ∈ t
  · obtain ⟨l, l₁, l₂, hnot, hsplit, herase⟩ := List.exists_of_kerase hp
    have hlookup : t.lookup p = some l := by
      rw [← Option.mem_def, AList.mem_lookup_iff, hsplit]
      simp
    have hrest : allFree (t.erase p) = l₁.flatMap Sigma.snd ++ l₂.flatMap Sigma.snd := by
      have hentries : (t.erase p).entries = l₁ ++ l₂ := herase
      rw [allFree, hentries, List.flatMap_append]
    rw [freeOf_of_lookup hlookup, hrest, allFree, hsplit, List.flatMap_append, List.flatMap_cons]
    exact List.perm_append_comm_assoc _ _ _
  · have hnone : t.lookup p = none := AList.lookup_eq_none.mpr hp
    have herase : (t.erase p).entries = t.entries := List.kerase_of_notMem_keys hp
    rw [freeOf, hnone, allFree, allFree, herase]
    rfl

theorem length_allFree (t : FreeTable) (p : ℕ) :
    (allFree t).length = (freeOf t p).length + (allFree (t.erase p)).length := by
  rw [(allFree_perm t p).length_eq, List.length_append]

theorem length_allFree_takeFree (t : FreeTable) (p : ℕ) (rest : List ℕ) :
    (allFree (takeFree t p rest)).length = rest.length + (allFree (t.erase p)).length := by
  unfold takeFree
  split_ifs with h
  · rw [h]
    simp
  · rw [allFree_insert, List.length_append]

theorem length_allFree_take {t : FreeTable} {p a : ℕ} {rest : List ℕ} (h : t.lookup p = some (a :: rest)) :
    (allFree t).length = (allFree (takeFree t p rest)).length + 1 := by
  rw [length_allFree t p, freeOf_of_lookup h, length_allFree_takeFree, List.length_cons]
  omega

theorem length_allFree_give (t : FreeTable) (p a : ℕ) :
    (allFree (t.insert p (freeOf t p ++ [a]))).length = (allFree t).length + 1 := by
  rw [length_allFree t p, allFree_insert, List.length_append, List.length_append, List.length_singleton]
  omega

/-! ## A slot -/

/-- The live blocks of a page. -/
def liveOf (live : List (ℕ × ℕ)) (p : ℕ) : List ℕ := (live.filter fun b => b.1 = p).map Prod.snd

theorem liveOf_cons_self (live : List (ℕ × ℕ)) (p a : ℕ) : liveOf ((p, a) :: live) p = a :: liveOf live p := by
  simp [liveOf]

theorem liveOf_cons_ne (live : List (ℕ × ℕ)) {p q : ℕ} (a : ℕ) (h : q ≠ p) :
    liveOf ((p, a) :: live) q = liveOf live q := by
  simp [liveOf, Ne.symm h]

theorem liveOf_perm {live live' : List (ℕ × ℕ)} (h : live.Perm live') (p : ℕ) :
    (liveOf live p).Perm (liveOf live' p) := (h.filter _).map _

theorem mem_liveOf {live : List (ℕ × ℕ)} {p a : ℕ} : a ∈ liveOf live p ↔ (p, a) ∈ live := by
  simp [liveOf]

/-- Every page of the slot falls into free and live blocks. -/
structure Cut (sh : Shape) (pages : Finset ℕ) (free : FreeTable) (live : List (ℕ × ℕ)) : Prop where
  keys : ∀ p l, free.lookup p = some l → p ∈ pages ∧ l ≠ []
  used : ∀ b ∈ live, b.1 ∈ pages
  whole : ∀ p ∈ pages, (freeOf free p ++ liveOf live p).Perm (blocks sh p)

theorem cut_empty (sh : Shape) : Cut sh ∅ ∅ [] := ⟨nofun, nofun, nofun⟩

namespace Cut

variable {sh : Shape} {pages : Finset ℕ} {free : FreeTable} {live live' : List (ℕ × ℕ)} {p a : ℕ}

theorem free_mem (hc : Cut sh pages free live) (ha : a ∈ freeOf free p) : p ∈ pages ∧ a ∈ blocks sh p := by
  obtain ⟨l, hl, -⟩ := lookup_of_mem_freeOf ha
  have hp := (hc.keys p l hl).1
  exact ⟨hp, (hc.whole p hp).subset (List.mem_append_left _ ha)⟩

theorem live_mem (hc : Cut sh pages free live) (ha : (p, a) ∈ live) : p ∈ pages ∧ a ∈ blocks sh p := by
  have hp := hc.used _ ha
  exact ⟨hp, (hc.whole p hp).subset (List.mem_append_right _ (mem_liveOf.mpr ha))⟩

/-- No block of a page is in two places. -/
theorem nodup_page (hc : Cut sh pages free live) (hok : sh.Ok) (hp : p ∈ pages) :
    (freeOf free p ++ liveOf live p).Nodup :=
  (hc.whole p hp).nodup_iff.mpr (nodup_blocks hok p)

theorem perm (hc : Cut sh pages free live) (h : live.Perm live') : Cut sh pages free live' where
  keys := hc.keys
  used b hb := hc.used b (h.symm.subset hb)
  whole p hp := ((liveOf_perm h p).symm.append_left _).trans (hc.whole p hp)

theorem add (hc : Cut sh pages free live) (hok : sh.Ok) (hp : p ∉ pages) :
    Cut sh (insert p pages) (free.insert p (blocks sh p)) live where
  keys q l hl := by
    rcases lookup_insert_cases hl with ⟨rfl, rfl⟩ | ⟨-, hl⟩
    · refine ⟨Finset.mem_insert_self _ _, fun hnil => ?_⟩
      have hlen := length_blocks sh q
      rw [hnil] at hlen
      exact hok.count_pos.ne hlen
    · exact ⟨Finset.mem_insert_of_mem (hc.keys q l hl).1, (hc.keys q l hl).2⟩
  used b hb := Finset.mem_insert_of_mem (hc.used b hb)
  whole q hq := by
    by_cases heq : q = p
    · subst heq
      have hnone : liveOf live q = [] := by
        rw [List.eq_nil_iff_forall_not_mem]
        intro a ha
        exact hp (hc.used _ (mem_liveOf.mp ha))
      rw [freeOf_insert, hnone, List.append_nil]
    · rw [freeOf_insert_ne _ heq]
      exact hc.whole q (Finset.mem_of_mem_insert_of_ne hq heq)

theorem take (hc : Cut sh pages free live) {rest : List ℕ} (hl : free.lookup p = some (a :: rest)) :
    Cut sh pages (takeFree free p rest) ((p, a) :: live) where
  keys q l hq := by
    unfold takeFree at hq
    split_ifs at hq with hrest
    · exact hc.keys q l (lookup_erase_cases hq).2
    · rcases lookup_insert_cases hq with ⟨rfl, rfl⟩ | ⟨-, hq⟩
      · exact ⟨(hc.keys q _ hl).1, hrest⟩
      · exact hc.keys q l hq
  used b hb := by
    rcases List.mem_cons.mp hb with rfl | hb
    · exact (hc.keys p _ hl).1
    · exact hc.used b hb
  whole q hq := by
    by_cases heq : q = p
    · subst heq
      have hwhole := hc.whole q hq
      rw [freeOf_of_lookup hl] at hwhole
      rw [freeOf_takeFree, liveOf_cons_self]
      exact List.perm_middle.trans hwhole
    · rw [freeOf_takeFree_ne _ heq, liveOf_cons_ne _ _ heq]
      exact hc.whole q hq

theorem give (hc : Cut sh pages free ((p, a) :: live)) :
    Cut sh pages (free.insert p (freeOf free p ++ [a])) live where
  keys q l hq := by
    rcases lookup_insert_cases hq with ⟨rfl, rfl⟩ | ⟨-, hq⟩
    · exact ⟨hc.used _ List.mem_cons_self, by simp⟩
    · exact hc.keys q l hq
  used b hb := hc.used b (List.mem_cons_of_mem _ hb)
  whole q hq := by
    have hwhole := hc.whole q hq
    by_cases heq : q = p
    · subst heq
      rw [liveOf_cons_self] at hwhole
      rw [freeOf_insert, List.append_assoc]
      exact hwhole
    · rw [liveOf_cons_ne _ _ heq] at hwhole
      rw [freeOf_insert_ne _ heq]
      exact hwhole

theorem liveOf_eq_nil (hc : Cut sh pages free live) (hp : p ∈ pages) (hfull : (freeOf free p).length = sh.count) :
    liveOf live p = [] := by
  have hlen := (hc.whole p hp).length_eq
  rw [List.length_append, length_blocks, hfull] at hlen
  exact List.length_eq_zero_iff.mp (Nat.add_eq_left.mp hlen)

theorem drop (hc : Cut sh pages free live) (hnone : liveOf live p = []) :
    Cut sh (pages.erase p) (free.erase p) live where
  keys q l hq := by
    obtain ⟨hne, hq⟩ := lookup_erase_cases hq
    exact ⟨Finset.mem_erase.mpr ⟨hne, (hc.keys q l hq).1⟩, (hc.keys q l hq).2⟩
  used b hb := by
    refine Finset.mem_erase.mpr ⟨fun heq => ?_, hc.used b hb⟩
    have hmem : b.2 ∈ liveOf live p := mem_liveOf.mpr (heq ▸ hb)
    rw [hnone] at hmem
    cases hmem
  whole q hq := by
    obtain ⟨hne, hq⟩ := Finset.mem_erase.mp hq
    rw [freeOf_erase_ne hne]
    exact hc.whole q hq

theorem discard (hc : Cut sh pages free ((p, a) :: live)) (hcount : sh.count = 1) :
    Cut sh (pages.erase p) free live := by
  have hp := hc.used _ List.mem_cons_self
  have hlen := (hc.whole p hp).length_eq
  rw [List.length_append, liveOf_cons_self, List.length_cons, length_blocks, hcount] at hlen
  have hfree : freeOf free p = [] := List.length_eq_zero_iff.mp (by omega)
  have hlive : liveOf live p = [] := List.length_eq_zero_iff.mp (by omega)
  refine ⟨fun q l hq => ?_, fun b hb => ?_, fun q hq => ?_⟩
  · have hne : q ≠ p := by
      rintro rfl
      rw [freeOf_of_lookup hq] at hfree
      exact (hc.keys q l hq).2 hfree
    exact ⟨Finset.mem_erase.mpr ⟨hne, (hc.keys q l hq).1⟩, (hc.keys q l hq).2⟩
  · refine Finset.mem_erase.mpr ⟨fun heq => ?_, hc.used b (List.mem_cons_of_mem _ hb)⟩
    have hmem : b.2 ∈ liveOf live p := mem_liveOf.mpr (heq ▸ hb)
    rw [hlive] at hmem
    cases hmem
  · obtain ⟨hne, hq⟩ := Finset.mem_erase.mp hq
    have hwhole := hc.whole q hq
    rwa [liveOf_cons_ne _ _ hne] at hwhole

end Cut

/-! ## All slots -/

section
variable {ι : Type} {shape : ι → Shape} {pages : ι → Finset ℕ} {heap : List Region}

/-- The pages are different regions of the heap. -/
structure Carved (shape : ι → Shape) (pages : ι → Finset ℕ) (heap : List Region) : Prop where
  ok : ∀ i, ∀ p ∈ pages i, (shape i).Ok
  held : ∀ i, ∀ p ∈ pages i, ⟨p, (shape i).bytes⟩ ∈ heap
  owner : ∀ i j, ∀ p ∈ pages i, p ∈ pages j → i = j
  regions : heap.Pairwise Region.Apart

theorem carved_empty (shape : ι → Shape) : Carved shape (fun _ => ∅) [] := ⟨nofun, nofun, nofun, .nil⟩

/-- Different blocks of any pages do not overlap. -/
theorem Carved.apart (hc : Carved shape pages heap) {i j : ι} {p q a b : ℕ} (hp : p ∈ pages i) (hq : q ∈ pages j)
    (ha : a ∈ blocks (shape i) p) (hb : b ∈ blocks (shape j) q) (hne : (p, a) ≠ (q, b)) :
    Region.Apart ⟨a, (shape i).size⟩ ⟨b, (shape j).size⟩ := by
  by_cases hpq : p = q
  · subst hpq
    obtain rfl := hc.owner i j p hp hq
    exact apart_of_mem_blocks ha hb fun hab => hne (by rw [hab])
  · have hregions := hc.regions.forall (hc.held i p hp) (hc.held j q hq)
      (fun h => hpq (congrArg Region.base h))
    exact hregions.within (within_of_mem_blocks (hc.ok i p hp) ha) (within_of_mem_blocks (hc.ok j q hq) hb)

theorem Carved.ne (hc : Carved shape pages heap) {i j : ι} {p q a b : ℕ} (hp : p ∈ pages i) (hq : q ∈ pages j)
    (ha : a ∈ blocks (shape i) p) (hb : b ∈ blocks (shape j) q) (hne : (p, a) ≠ (q, b)) : a ≠ b :=
  (hc.apart hp hq ha hb hne).base_ne (hc.ok i p hp).size_pos (hc.ok j q hq).size_pos

/-- A region that is apart from the heap begins at no page. -/
theorem Carved.notMem (hc : Carved shape pages heap) {i : ι} {p bytes : ℕ} (hpos : 0 < bytes)
    (hfresh : ∀ r ∈ heap, Region.Apart ⟨p, bytes⟩ r) : p ∉ pages i := by
  intro hp
  exact (hfresh _ (hc.held i p hp)).base_ne hpos (hc.ok i p hp).bytes_pos rfl

variable [DecidableEq ι]

theorem Carved.add (hc : Carved shape pages heap) {i : ι} {p : ℕ} (hok : (shape i).Ok)
    (hfresh : ∀ r ∈ heap, Region.Apart ⟨p, (shape i).bytes⟩ r) :
    Carved shape (Function.update pages i (insert p (pages i))) (heap ++ [⟨p, (shape i).bytes⟩]) := by
  have hnot : ∀ j, p ∉ pages j := fun j => hc.notMem hok.bytes_pos hfresh
  -- a page is the new one of slot `i`, or an old one
  have hcases : ∀ j, ∀ q ∈ Function.update pages i (insert p (pages i)) j, j = i ∧ q = p ∨ q ∈ pages j := by
    intro j q hq
    by_cases hj : j = i
    · subst hj
      rw [Function.update_self] at hq
      exact (Finset.mem_insert.mp hq).imp_left fun h => ⟨rfl, h⟩
    · rw [Function.update_of_ne hj] at hq
      exact .inr hq
  refine ⟨fun j q hq => ?_, fun j q hq => ?_, fun j k q hq hk => ?_, ?_⟩
  · rcases hcases j q hq with ⟨rfl, -⟩ | hq
    · exact hok
    · exact hc.ok j q hq
  · rcases hcases j q hq with ⟨rfl, rfl⟩ | hq
    · simp
    · exact List.mem_append_left _ (hc.held j q hq)
  · rcases hcases j q hq with ⟨hj, hqp⟩ | holdj
    · rcases hcases k q hk with ⟨hk, -⟩ | holdk
      · rw [hj, hk]
      · exact absurd (hqp ▸ holdk) (hnot k)
    · rcases hcases k q hk with ⟨-, hqp⟩ | holdk
      · exact absurd (hqp ▸ holdj) (hnot j)
      · exact hc.owner j k q holdj holdk
  · refine List.pairwise_append.mpr ⟨hc.regions, List.pairwise_singleton _ _, fun r hr q hq => ?_⟩
    rw [List.mem_singleton.mp hq]
    exact (hfresh r hr).symm

theorem Carved.drop (hc : Carved shape pages heap) {i : ι} {p : ℕ} (hp : p ∈ pages i) :
    Carved shape (Function.update pages i ((pages i).erase p)) (heap.filter fun r => r.base ≠ p) := by
  have hcases : ∀ j, ∀ q ∈ Function.update pages i ((pages i).erase p) j, q ∈ pages j ∧ q ≠ p := by
    intro j q hq
    by_cases hj : j = i
    · subst hj
      rw [Function.update_self] at hq
      exact (Finset.mem_erase.mp hq).symm
    · rw [Function.update_of_ne hj] at hq
      exact ⟨hq, fun h => hj (hc.owner j i q hq (h ▸ hp))⟩
  refine ⟨fun j q hq => hc.ok j q (hcases j q hq).1, fun j q hq => ?_,
    fun j k q hq hk => hc.owner j k q (hcases j q hq).1 (hcases k q hk).1, hc.regions.filter _⟩
  rw [List.mem_filter]
  exact ⟨hc.held j q (hcases j q hq).1, by simpa using (hcases j q hq).2⟩

end

section
variable {ι : Type} {shape : ι → Shape} {pages : ι → Finset ℕ} {heap : List Region}

theorem Carved.nodup_allFree (hc : Carved shape pages heap) {i : ι} {free : FreeTable} {live : List (ℕ × ℕ)}
    (hcut : Cut (shape i) (pages i) free live) : (allFree free).Nodup := by
  have hlookup : ∀ e ∈ free.entries, freeOf free e.1 = e.2 := fun e he =>
    freeOf_of_lookup (AList.mem_lookup_iff.mpr he)
  refine List.nodup_flatMap.mpr ⟨fun e he => ?_, ?_⟩
  · have hp := (hcut.keys e.1 e.2 (AList.mem_lookup_iff.mpr he)).1
    have hnodup := hcut.nodup_page (hc.ok i _ hp) hp
    rw [hlookup e he] at hnodup
    exact hnodup.of_append_left
  · have hkeys : free.entries.Pairwise fun e f => e.1 ≠ f.1 := List.pairwise_map.mp free.keys_nodup
    refine hkeys.imp_of_mem fun {e f} he hf hne => ?_
    intro a hae haf
    obtain ⟨hp, ha⟩ := hcut.free_mem (p := e.1) (a := a) (by rwa [hlookup e he])
    obtain ⟨hq, hb⟩ := hcut.free_mem (p := f.1) (a := a) (by rwa [hlookup f hf])
    exact hc.ne hp hq ha hb (fun h => hne (congrArg Prod.fst h)) rfl

/-- No free block of any slot is live in the same or in another slot. -/
theorem Carved.live_notMem (hc : Carved shape pages heap) {i j : ι} {free free' : FreeTable}
    {live live' : List (ℕ × ℕ)} (hcut : Cut (shape i) (pages i) free live)
    (hcut' : Cut (shape j) (pages j) free' live') (hsame : i = j → live = live') {q b : ℕ}
    (hb : (q, b) ∈ live') : b ∉ allFree free := by
  intro hmem
  obtain ⟨e, he, hbe⟩ := List.mem_flatMap.mp hmem
  have hfree : b ∈ freeOf free e.1 := by rwa [freeOf_of_lookup (AList.mem_lookup_iff.mpr he)]
  obtain ⟨hp, ha⟩ := hcut.free_mem hfree
  obtain ⟨hq, hb'⟩ := hcut'.live_mem hb
  by_cases hpq : e.1 = q
  · have hij := hc.owner i j e.1 hp (hpq ▸ hq)
    rw [← hsame hij, ← hpq] at hb
    have hnodup := hcut.nodup_page (hc.ok i _ hp) hp
    exact (List.disjoint_of_nodup_append hnodup) hfree (mem_liveOf.mpr hb)
  · exact hc.ne hp hq ha hb' (fun h => hpq (congrArg Prod.fst h)) rfl

end

end FlyingKV.Slab
