import FlyingKV.MemPoolObjects

set_option autoImplicit false

/-!
# Objects cut out of pages

What holds of tiny, small and big objects and of bulk objects alike, whatever maps keep them: the
pages are different regions, every page falls into free and live objects, and every live object
has a `MemObject` of its own.
-/
namespace FlyingKV.MemPool
open Slab

def MemObject.region (obj : MemObject) : Region := ⟨obj.objPv, obj.slotSize⟩

section
variable {ι : Type} [DecidableEq ι]

structure Slabs (slot : MemObject → Option ι) (shape : ι → Shape) (pages : ι → Finset ℕ) (free : ι → FreeTable)
    (heap : List Region) (live : List Taken) (memObjs : List MemObject) (freeMemObjs : List ℕ) : Prop where
  carved : Carved shape pages heap
  cut : ∀ i, Cut (shape i) (pages i) (free i) (liveIn slot live i)
  nonnull : ∀ i, 0 ∉ pages i
  records : Records memObjs freeMemObjs live
  placed : ∀ t ∈ live, ∃ i, slot t.obj = some i ∧ t.obj.slotSize = (shape i).size
  asked : ∀ t ∈ live, t.size ≤ t.obj.slotSize
  distinct : (live.map fun t => (t.obj.objPagePv, t.obj.objPv)).Nodup

theorem slabs_empty (slot : MemObject → Option ι) (shape : ι → Shape) :
    Slabs slot shape (fun _ => ∅) (fun _ => ∅) [] [] [] [] where
  carved := carved_empty shape
  cut _ := cut_empty _
  nonnull _ := Finset.notMem_empty 0
  records := .empty _
  placed := nofun
  asked := nofun
  distinct := List.nodup_nil

namespace Slabs

variable {slot : MemObject → Option ι} {shape : ι → Shape} {pages : ι → Finset ℕ} {free : ι → FreeTable}
  {heap : List Region} {live : List Taken} {memObjs : List MemObject} {freeMemObjs : List ℕ}
  {i : ι} {p a : ℕ}

theorem live_mem (hs : Slabs slot shape pages free heap live memObjs freeMemObjs) {t : Taken} (ht : t ∈ live) :
    ∃ i, slot t.obj = some i ∧ t.obj.slotSize = (shape i).size ∧ t.obj.objPagePv ∈ pages i ∧
      t.obj.objPv ∈ blocks (shape i) t.obj.objPagePv ∧
      (t.obj.objPagePv, t.obj.objPv) ∈ liveIn slot live i := by
  obtain ⟨i, hslot, hsize⟩ := hs.placed t ht
  have hmem : (t.obj.objPagePv, t.obj.objPv) ∈ liveIn slot live i := mem_liveIn.mpr ⟨t, ht, hslot, rfl, rfl⟩
  obtain ⟨hp, ha⟩ := (hs.cut i).live_mem hmem
  exact ⟨i, hslot, hsize, hp, ha, hmem⟩

/-! ### What the invariant means -/

theorem inside (hs : Slabs slot shape pages free heap live memObjs freeMemObjs) {t : Taken} (ht : t ∈ live) :
    ∃ r ∈ heap, t.obj.region.Within r := by
  obtain ⟨i, -, hsize, hp, ha, -⟩ := hs.live_mem ht
  refine ⟨_, hs.carved.held i _ hp, ?_⟩
  rw [MemObject.region, hsize]
  exact within_of_mem_blocks (hs.carved.ok i _ hp) ha

theorem apart (hs : Slabs slot shape pages free heap live memObjs freeMemObjs) :
    live.Pairwise fun t u => t.obj.region.Apart u.obj.region := by
  refine (List.pairwise_map.mp hs.distinct).imp_of_mem fun {t u} ht hu hne => ?_
  obtain ⟨i, -, hsizei, hp, ha, -⟩ := hs.live_mem ht
  obtain ⟨j, -, hsizej, hq, hb, -⟩ := hs.live_mem hu
  rw [MemObject.region, MemObject.region, hsizei, hsizej]
  exact hs.carved.apart hp hq ha hb hne

theorem live_notMem_free (hs : Slabs slot shape pages free heap live memObjs freeMemObjs) (i : ι) {t : Taken}
    (ht : t ∈ live) : t.obj.objPv ∉ allFree (free i) := by
  obtain ⟨j, -, -, -, -, hlive⟩ := hs.live_mem ht
  exact hs.carved.live_notMem (hs.cut i) (hs.cut j) (fun h => by rw [h]) hlive

theorem free_notMem_live (hs : Slabs slot shape pages free heap live memObjs freeMemObjs)
    (ha : a ∈ freeOf (free i) p) : (p, a) ∉ live.map fun t => (t.obj.objPagePv, t.obj.objPv) := by
  intro hmem
  obtain ⟨t, ht, heq⟩ := List.mem_map.mp hmem
  obtain ⟨j, -, -, hq, -, hlive⟩ := hs.live_mem ht
  obtain ⟨hp, -⟩ := (hs.cut i).free_mem ha
  rw [(Prod.mk.inj heq).1] at hq
  rw [heq] at hlive
  obtain rfl := hs.carved.owner i j p hp hq
  have hnodup := (hs.cut i).nodup_page (hs.carved.ok i p hp) hp
  exact List.disjoint_of_nodup_append hnodup ha (mem_liveOf.mpr hlive)

theorem free_ne_zero (hs : Slabs slot shape pages free heap live memObjs freeMemObjs)
    (ha : a ∈ freeOf (free i) p) : a ≠ 0 := by
  obtain ⟨hp, ha⟩ := (hs.cut i).free_mem ha
  obtain ⟨j, -, rfl⟩ := mem_blocks.mp ha
  have hpos : p ≠ 0 := fun h => hs.nonnull i (h ▸ hp)
  omega

theorem pages_eq_empty (hs : Slabs slot shape pages free heap live memObjs freeMemObjs) (hfree : free i = ∅)
    (hlive : ∀ t ∈ live, slot t.obj ≠ some i) : pages i = ∅ := by
  rw [Finset.eq_empty_iff_forall_notMem]
  intro p hp
  have hnone : liveIn slot live i = [] := by
    rw [List.eq_nil_iff_forall_not_mem]
    rintro ⟨q, a⟩ hmem
    obtain ⟨t, ht, hslot, -⟩ := mem_liveIn.mp hmem
    exact hlive t ht hslot
  have hlen := ((hs.cut i).whole p hp).length_eq
  have hpos := (hs.carved.ok i p hp).count_pos
  rw [hfree, hnone, length_blocks] at hlen
  change 0 = _ at hlen
  omega

/-! ### What keeps it -/

theorem nonnull_update (hs : Slabs slot shape pages free heap live memObjs freeMemObjs) {s : Finset ℕ} (h : 0 ∉ s) :
    ∀ j, 0 ∉ Function.update pages i s j :=
  (Function.forall_update_iff pages fun _ t => 0 ∉ t).mpr ⟨h, fun j _ => hs.nonnull j⟩

theorem addPage (hs : Slabs slot shape pages free heap live memObjs freeMemObjs) (hok : (shape i).Ok) (hp : p ≠ 0)
    (hfresh : ∀ r ∈ heap, Region.Apart ⟨p, (shape i).bytes⟩ r) :
    Slabs slot shape (Function.update pages i (insert p (pages i)))
      (Function.update free i ((free i).insert p (blocks (shape i) p)))
      (heap ++ [⟨p, (shape i).bytes⟩]) live memObjs freeMemObjs := by
  have hnot : p ∉ pages i := hs.carved.notMem hok.bytes_pos hfresh
  have hnonnull : 0 ∉ insert p (pages i) := by
    rw [Finset.mem_insert, not_or]
    exact ⟨hp.symm, hs.nonnull i⟩
  refine ⟨hs.carved.add hok hfresh, fun j => ?_, hs.nonnull_update hnonnull, hs.records, hs.placed, hs.asked,
    hs.distinct⟩
  by_cases hji : j = i
  · subst hji
    rw [Function.update_self, Function.update_self]
    exact (hs.cut j).add hok hnot
  · rw [Function.update_of_ne hji, Function.update_of_ne hji]
    exact hs.cut j

theorem take (hs : Slabs slot shape pages free heap live memObjs freeMemObjs) {rest : List ℕ}
    (hl : (free i).lookup p = some (a :: rest)) {obj : MemObject} (hslot : slot obj = some i)
    (hobj : obj.objPv = a ∧ obj.objPagePv = p ∧ obj.slotSize = (shape i).size) {h size : ℕ}
    (hsize : size ≤ obj.slotSize) {memObjs' : List MemObject} {freeMemObjs' : List ℕ}
    (hrecords : Records memObjs' freeMemObjs' (live ++ [⟨h, size, obj⟩])) :
    Slabs slot shape pages (Function.update free i (takeFree (free i) p rest)) heap
      (live ++ [⟨h, size, obj⟩]) memObjs' freeMemObjs' := by
  obtain ⟨hpv, hpage, hshape⟩ := hobj
  have hperm := List.perm_append_singleton (⟨h, size, obj⟩ : Taken) live
  have hfree : a ∈ freeOf (free i) p := by
    rw [freeOf_of_lookup hl]
    exact List.mem_cons_self
  refine ⟨hs.carved, fun j => ?_, hs.nonnull, hrecords, fun t ht => ?_, fun t ht => ?_, ?_⟩
  · refine Cut.perm ?_ (liveIn_perm hperm.symm j)
    by_cases hj : j = i
    · subst hj
      rw [Function.update_self, liveIn_cons_self hslot, hpv, hpage]
      exact (hs.cut j).take hl
    · rw [Function.update_of_ne hj, liveIn_cons_ne]
      · exact hs.cut j
      · rw [hslot]
        exact fun heq => hj (Option.some.inj heq).symm
  · rcases List.mem_append.mp ht with ht | ht
    · exact hs.placed t ht
    · rw [List.mem_singleton.mp ht]
      exact ⟨i, hslot, hshape⟩
  · rcases List.mem_append.mp ht with ht | ht
    · exact hs.asked t ht
    · rw [List.mem_singleton.mp ht]
      exact hsize
  · rw [List.map_append, List.map_singleton]
    refine List.nodup_append.mpr ⟨hs.distinct, List.nodup_singleton _, fun x hx y hy hxy => ?_⟩
    rw [List.mem_singleton.mp hy, hpv, hpage] at hxy
    exact hs.free_notMem_live hfree (hxy ▸ hx)

/-- The live objects of the slots once an object is back. -/
theorem cut_put (hs : Slabs slot shape pages free heap live memObjs freeMemObjs) {t : Taken} (ht : t ∈ live)
    (hslot : slot t.obj = some i) :
    Cut (shape i) (pages i) (free i) ((t.obj.objPagePv, t.obj.objPv) ::
        liveIn slot (live.filter fun x => x.handle ≠ t.handle) i) ∧
      ∀ j, j ≠ i → Cut (shape j) (pages j) (free j)
        (liveIn slot (live.filter fun x => x.handle ≠ t.handle) j) := by
  have hperm := perm_filter_handle hs.records.nodup.of_append_left ht
  constructor
  · rw [← liveIn_cons_self hslot]
    exact (hs.cut i).perm (liveIn_perm hperm i)
  · intro j hj
    have hcut := (hs.cut j).perm (liveIn_perm hperm j)
    rwa [liveIn_cons_ne] at hcut
    rw [hslot]
    exact fun heq => hj (Option.some.inj heq).symm

theorem give (hs : Slabs slot shape pages free heap live memObjs freeMemObjs) {t : Taken} (ht : t ∈ live)
    (hslot : slot t.obj = some i) :
    Slabs slot shape pages
      (Function.update free i
        ((free i).insert t.obj.objPagePv (freeOf (free i) t.obj.objPagePv ++ [t.obj.objPv])))
      heap (live.filter fun x => x.handle ≠ t.handle) memObjs (freeMemObjs ++ [t.handle]) := by
  obtain ⟨hcut, hother⟩ := hs.cut_put ht hslot
  refine ⟨hs.carved, fun j => ?_, hs.nonnull, hs.records.put ht,
    fun x hx => hs.placed x (List.mem_of_mem_filter hx), fun x hx => hs.asked x (List.mem_of_mem_filter hx),
    hs.distinct.sublist (List.filter_sublist.map _)⟩
  by_cases hj : j = i
  · subst hj
    rw [Function.update_self]
    exact hcut.give
  · rw [Function.update_of_ne hj]
    exact hother j hj

theorem drop (hs : Slabs slot shape pages free heap live memObjs freeMemObjs) {l : List ℕ}
    (hl : (free i).lookup p = some l) (hfull : l.length = (shape i).count) :
    Slabs slot shape (Function.update pages i ((pages i).erase p)) (Function.update free i ((free i).erase p))
      (heap.filter fun r => r.base ≠ p) live memObjs freeMemObjs := by
  have hp : p ∈ pages i := ((hs.cut i).keys p l hl).1
  have hnone := (hs.cut i).liveOf_eq_nil hp (by rw [freeOf_of_lookup hl, hfull])
  have hnonnull : 0 ∉ (pages i).erase p := fun h => hs.nonnull i (Finset.mem_of_mem_erase h)
  refine ⟨hs.carved.drop hp, fun j => ?_, hs.nonnull_update hnonnull, hs.records, hs.placed, hs.asked, hs.distinct⟩
  by_cases hji : j = i
  · subst hji
    rw [Function.update_self, Function.update_self]
    exact (hs.cut j).drop hnone
  · rw [Function.update_of_ne hji, Function.update_of_ne hji]
    exact hs.cut j

theorem discard (hs : Slabs slot shape pages free heap live memObjs freeMemObjs) {t : Taken} (ht : t ∈ live)
    (hslot : slot t.obj = some i) (hcount : (shape i).count = 1) :
    Slabs slot shape (Function.update pages i ((pages i).erase t.obj.objPagePv)) free
      (heap.filter fun r => r.base ≠ t.obj.objPagePv) (live.filter fun x => x.handle ≠ t.handle) memObjs
      (freeMemObjs ++ [t.handle]) := by
  obtain ⟨hcut, hother⟩ := hs.cut_put ht hslot
  have hp := hcut.used _ List.mem_cons_self
  have hnonnull : 0 ∉ (pages i).erase t.obj.objPagePv := fun h => hs.nonnull i (Finset.mem_of_mem_erase h)
  refine ⟨hs.carved.drop hp, fun j => ?_, hs.nonnull_update hnonnull, hs.records.put ht,
    fun x hx => hs.placed x (List.mem_of_mem_filter hx), fun x hx => hs.asked x (List.mem_of_mem_filter hx),
    hs.distinct.sublist (List.filter_sublist.map _)⟩
  by_cases hji : j = i
  · subst hji
    rw [Function.update_self]
    exact hcut.discard hcount
  · rw [Function.update_of_ne hji]
    exact hother j hji

end Slabs

end

end FlyingKV.MemPool
