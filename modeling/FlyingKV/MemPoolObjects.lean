import FlyingKV.MemPool

set_option autoImplicit false

/-!
# What the size classes share

The sizes of pages, the first free object of a table, the counters modulo 2^32, and the
`MemObject`s, which are used again once their objects are back.
-/
namespace FlyingKV.MemPool
open Slab

/-! ## Pages -/

theorem genExpand_bounds {objSize factor pageSize : ℕ} (hpage : 0 < pageSize)
    (h : objSize * factor + pageSize ≤ 2 ^ 32) :
    objSize * factor ≤ genExpandSlotPageSize objSize factor pageSize ∧
      genExpandSlotPageSize objSize factor pageSize < objSize * factor + pageSize := by
  unfold genExpandSlotPageSize
  generalize objSize * factor = x at h ⊢
  have hx : x % 2 ^ 32 = x := Nat.mod_eq_of_lt (by omega)
  have hdiv := Nat.div_add_mod x pageSize
  have hlt := Nat.mod_lt x hpage
  rw [Nat.mul_comm] at hdiv
  dsimp only
  rw [hx]
  split_ifs with hrem
  · have hle : x / pageSize * pageSize < 2 ^ 32 := by omega
    rw [Nat.mod_eq_of_lt hle]
    omega
  · have hle : (x / pageSize + 1) * pageSize < 2 ^ 32 := by
      rw [Nat.add_mul]
      omega
    rw [Nat.mod_eq_of_lt hle, Nat.add_mul]
    omega

def shapeOf (slotSize bytes : ℕ) : Shape := ⟨slotSize, bytes / slotSize, bytes⟩

section
variable {slotSize bytes n : ℕ} {objs : FreeTable} {live : List Taken} {t : Taken}

theorem shapeOf_ok (hpos : 0 < slotSize) (hle : slotSize ≤ bytes) :
    (shapeOf slotSize bytes).Ok :=
  ⟨hpos, Nat.div_pos hle hpos, Nat.mul_div_le bytes slotSize⟩

theorem splitMemPage_eq (hpos : 0 < slotSize) (hbytes : bytes ≤ 2 ^ 32) (ptr : ℕ) :
    splitMemPage slotSize ptr bytes = some (blocks (shapeOf slotSize bytes) ptr) := by
  rw [splitMemPage, quotient, if_neg hpos.ne', Option.map_some, blocks, shapeOf]
  congr 1
  apply List.map_congr_left
  intro i hi
  have hend : slotSize * i + slotSize ≤ slotSize * (bytes / slotSize) := by
    rw [← Nat.mul_succ]
    exact Nat.mul_le_mul_left _ (List.mem_range.mp hi)
  have hle := Nat.mul_div_le bytes slotSize
  rw [Nat.mod_eq_of_lt (by omega)]

theorem allocPageObjs_eq {ptr : ℕ} (hpos : 0 < slotSize) (hbytes : bytes ≤ 2 ^ 32) (hptr : ptr ≠ 0) (pages : Finset ℕ)
    (objs : FreeTable) (heap : List Region) :
    allocPageObjs ptr bytes slotSize pages objs heap =
      some (true, insert ptr pages, objs.insert ptr (blocks (shapeOf slotSize bytes) ptr),
        heap ++ [⟨ptr, bytes⟩]) := by
  rw [allocPageObjs, if_neg hptr, splitMemPage_eq hpos hbytes]
  rfl

theorem freeRegion_eq {heap : List Region} {ptr : ℕ} (h : ⟨ptr, bytes⟩ ∈ heap) :
    freeRegion heap ptr = some (heap.filter fun r => r.base ≠ ptr) :=
  if_pos ⟨_, h, rfl⟩

/-! ## Tables -/

theorem begin_objs (hne : objs.entries ≠ []) (hlist : ∀ p l, objs.lookup p = some l → l ≠ []) (first : ℕ) :
    ∃ p a rest, objs.lookup p = some (a :: rest) ∧
      (objs.entries.rotate first).head? = some ⟨p, a :: rest⟩ := by
  have hrotate : objs.entries.rotate first ≠ [] := by simpa using hne
  obtain ⟨e, es, he⟩ := List.exists_cons_of_ne_nil hrotate
  obtain ⟨p, l⟩ := e
  have hlookup : objs.lookup p = some l := by
    rw [← Option.mem_def, AList.mem_lookup_iff, ← List.mem_rotate (n := first), he]
    exact List.mem_cons_self
  cases l with
  | nil => exact absurd rfl (hlist p [] hlookup)
  | cons a rest => exact ⟨p, a, rest, hlookup, by rw [he]; rfl⟩

theorem getFreeObj_eq (hne : objs.entries ≠ []) (hlist : ∀ p l, objs.lookup p = some l → l ≠ []) (first : ℕ) :
    ∃ p a rest, objs.lookup p = some (a :: rest) ∧
      getFreeObjFromSlotPage first objs = some (takeFree objs p rest, p, a) := by
  obtain ⟨p, a, rest, hlookup, hhead⟩ := begin_objs hne hlist first
  refine ⟨p, a, rest, hlookup, ?_⟩
  simp only [getFreeObjFromSlotPage, hhead]

theorem lookup_fullPage {first p : ℕ} (h : fullPage first n objs = some p) :
    ∃ l, objs.lookup p = some l ∧ l.length = n := by
  obtain ⟨e, he, rfl⟩ := Option.map_eq_some_iff.mp h
  have hmem := List.mem_rotate.mp (List.mem_of_find?_eq_some he)
  exact ⟨e.2, AList.mem_lookup_iff.mpr hmem, by simpa using List.find?_some he⟩

theorem entries_eq_nil {pages : Finset ℕ} {sh : Shape} {live : List (ℕ × ℕ)} (hcut : Cut sh pages objs live)
    (hpages : pages = ∅) : objs.entries = [] := by
  rw [List.eq_nil_iff_forall_not_mem]
  intro e he
  have hp := (hcut.keys e.1 e.2 (AList.mem_lookup_iff.mpr he)).1
  rw [hpages] at hp
  exact absurd hp (Finset.notMem_empty _)

theorem entries_ne_nil {p : ℕ} {l : List ℕ} (h : objs.lookup p = some l) : objs.entries ≠ [] := by
  intro hnil
  have hmem := AList.mem_lookup_iff.mp (Option.mem_def.mpr h)
  rw [hnil] at hmem
  cases hmem

/-! ## Counters -/

theorem cnt_pred (hn : 0 < n) : (n % 2 ^ 32 + 2 ^ 32 - 1) % 2 ^ 32 = (n - 1) % 2 ^ 32 := by omega

theorem cnt_succ (n : ℕ) : (n % 2 ^ 32 + 1) % 2 ^ 32 = (n + 1) % 2 ^ 32 := by omega

theorem cnt_sub {k : ℕ} (hk : k ≤ n) (hlt : k < 2 ^ 32) :
    (n % 2 ^ 32 + 2 ^ 32 - k) % 2 ^ 32 = (n - k) % 2 ^ 32 := by omega

/-! ## The objects in the hands of users -/

/-- Every live object has a `MemObject` of its own. -/
structure Records (memObjs : List MemObject) (freeMemObjs : List ℕ) (live : List Taken) : Prop where
  kept : ∀ t ∈ live, memObjs[t.handle]? = some t.obj
  nodup : (live.map Taken.handle ++ freeMemObjs).Nodup
  known : ∀ h ∈ freeMemObjs, h < memObjs.length

theorem Records.empty (memObjs : List MemObject) : Records memObjs [] [] := ⟨nofun, List.nodup_nil, nofun⟩

theorem Records.handle_lt {memObjs : List MemObject} {freeMemObjs : List ℕ} (hr : Records memObjs freeMemObjs live)
    (ht : t ∈ live) : t.handle < memObjs.length :=
  (List.getElem?_eq_some_iff.mp (hr.kept t ht)).1

theorem Records.get {s : Pool} (hr : Records s.memObjs s.freeMemObjs s.live) (size : ℕ) (obj : MemObject) :
    ∃ h memObjs freeMemObjs, s.getMemObject size obj =
        ({ s with memObjs := memObjs, freeMemObjs := freeMemObjs, live := s.live ++ [⟨h, size, obj⟩] }, some h) ∧
      Records memObjs freeMemObjs (s.live ++ [⟨h, size, obj⟩]) := by
  unfold Pool.getMemObject
  have hnodup := hr.nodup
  cases hfree : s.freeMemObjs with
  | nil =>
    refine ⟨_, _, [], rfl, fun t ht => ?_, ?_, nofun⟩
    · rcases List.mem_append.mp ht with ht | ht
      · rw [List.getElem?_append_left (hr.handle_lt ht)]
        exact hr.kept t ht
      · rw [List.mem_singleton.mp ht]
        simp
    · rw [hfree, List.append_nil] at hnodup
      rw [List.append_nil, List.map_append, List.map_singleton]
      refine List.nodup_append.mpr ⟨hnodup, List.nodup_singleton _, fun h hh k hk => ?_⟩
      obtain ⟨t, ht, rfl⟩ := List.mem_map.mp hh
      rw [List.mem_singleton.mp hk]
      exact (hr.handle_lt ht).ne
  | cons h rest =>
    rw [hfree] at hnodup
    have hlt : h < s.memObjs.length := hr.known h (by simp [hfree])
    have hmiddle := List.nodup_middle.mp hnodup
    obtain ⟨hnot, hrest⟩ := List.nodup_cons.mp hmiddle
    refine ⟨h, _, rest, rfl, fun t ht => ?_, ?_, fun k hk => ?_⟩
    · rcases List.mem_append.mp ht with ht | ht
      · have hne : h ≠ t.handle := fun heq =>
          hnot (List.mem_append_left _ (List.mem_map.mpr ⟨t, ht, heq.symm⟩))
        rw [List.getElem?_set_ne hne]
        exact hr.kept t ht
      · rw [List.mem_singleton.mp ht]
        exact List.getElem?_set_self hlt
    · rw [List.map_append, List.map_singleton, List.append_assoc, List.singleton_append]
      exact hnodup
    · rw [List.length_set]
      exact hr.known k (by simp [hfree, hk])

theorem perm_filter_handle (hnodup : (live.map Taken.handle).Nodup) (ht : t ∈ live) :
    live.Perm (t :: live.filter fun x => x.handle ≠ t.handle) := by
  have hfilter : live.erase t = live.filter fun x => x.handle ≠ t.handle := by
    rw [hnodup.of_map.erase_eq_filter]
    apply List.filter_congr
    intro x hx
    have hiff : x.handle = t.handle ↔ x = t := ⟨List.inj_on_of_nodup_map hnodup hx ht, congrArg _⟩
    simp [bne, hiff, beq_eq_decide]
  rw [← hfilter]
  exact List.perm_cons_erase ht

theorem Records.put {memObjs : List MemObject} {freeMemObjs : List ℕ} (hr : Records memObjs freeMemObjs live)
    (ht : t ∈ live) :
    Records memObjs (freeMemObjs ++ [t.handle]) (live.filter fun x => x.handle ≠ t.handle) where
  kept x hx := hr.kept x (List.mem_of_mem_filter hx)
  nodup := by
    have hperm := (perm_filter_handle hr.nodup.of_append_left ht).map Taken.handle
    have hnodup := (hperm.append_right freeMemObjs).nodup_iff.mp hr.nodup
    rw [← List.append_assoc]
    exact (List.perm_append_singleton _ _).nodup_iff.mpr hnodup
  known h hh := by
    rcases List.mem_append.mp hh with hh | hh
    · exact hr.known h hh
    · rw [List.mem_singleton.mp hh]
      exact hr.handle_lt ht

end

section
variable {ι : Type} [DecidableEq ι] (slot : MemObject → Option ι)

/-- The live blocks of a slot, with their pages. -/
def liveIn (live : List Taken) (i : ι) : List (ℕ × ℕ) :=
  (live.filter fun t => slot t.obj = some i).map fun t => (t.obj.objPagePv, t.obj.objPv)

variable {slot}

theorem mem_liveIn {live : List Taken} {i : ι} {p a : ℕ} :
    (p, a) ∈ liveIn slot live i ↔
      ∃ t ∈ live, slot t.obj = some i ∧ t.obj.objPagePv = p ∧ t.obj.objPv = a := by
  simp [liveIn, and_assoc]

theorem liveIn_perm {live live' : List Taken} (h : live.Perm live') (i : ι) :
    (liveIn slot live i).Perm (liveIn slot live' i) := (h.filter _).map _

theorem liveIn_cons_self {t : Taken} {i : ι} (h : slot t.obj = some i) (live : List Taken) :
    liveIn slot (t :: live) i = (t.obj.objPagePv, t.obj.objPv) :: liveIn slot live i := by
  simp [liveIn, h]

theorem liveIn_cons_ne {t : Taken} {i : ι} (h : slot t.obj ≠ some i) (live : List Taken) :
    liveIn slot (t :: live) i = liveIn slot live i := by
  simp [liveIn, h]

end

end FlyingKV.MemPool
