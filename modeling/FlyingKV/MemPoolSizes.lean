import FlyingKV.MemPoolBulk

set_option autoImplicit false

/-!
# The sizes `Get` computes

From the size of a request `Get` computes a slot size, a slot and, when it needs memory, the size of
a page, all in 32 bits. What is handed out depends on the pool as well: a bulk request may be served
from a larger slot.
-/
namespace FlyingKV.MemPool
open Slab EventRun OrderedMap

def classOf (size : ℕ) : MemObjectType :=
  if size ≤ tinyObjThreshold then .Tiny
  else if size ≤ bulkObjThreshold then
    if bigObjThreshold < size then .Big else .Small
  else .Bulk

namespace MemObjectType

/-- The slot sizes of a class are multiples of this. -/
def footstepSize : MemObjectType → ℕ
  | .Tiny => tinyObjThreshold
  | .Small => smallObjSlotFootstepSize
  | .Big => sysPageSize
  | .Bulk => sysPageSize

def slotSizeFor (size : ℕ) : MemObjectType → ℕ
  | .Tiny => tinyObjThreshold
  | .Small => roundupToTheNextHighestMultipleOfExponent2 size smallObjSlotFootstepExponent
  | .Big => roundupToTheNextHighestMultipleOfExponent2 size bigObjSlotFootstepExponent
  | .Bulk => roundupToTheNextHighestMultipleOfExponent2 size bulkObjSlotFootstepExponent

def slotIdOf (slotSize : ℕ) : MemObjectType → SlotId
  | .Tiny => .tiny
  | .Small => .small (slotSize / smallObjSlotFootstepSize)
  | _ => .big (slotSize / sysPageSize)

/-- The factor `gen_expand_slot_page_size` is called with, if it is called. -/
def expandFactor (slotSize : ℕ) : MemObjectType → Option ℕ
  | .Tiny => none
  | .Small => some expandObjCntFactor
  | .Big => some expandObjCntFactor
  | .Bulk => if slotSize < availableReserveBulkObjMaxSize then some expandBulkObjCntFactor else none

def pageSizeFor (slotSize : ℕ) : MemObjectType → ℕ
  | .Tiny => sysPageSize
  | .Small => genExpandSlotPageSize slotSize expandObjCntFactor sysPageSize
  | .Big => genExpandSlotPageSize slotSize expandObjCntFactor sysPageSize
  | .Bulk =>
    if slotSize < availableReserveBulkObjMaxSize then
      genExpandSlotPageSize slotSize expandBulkObjCntFactor sysPageSize
    else slotSize

end MemObjectType

theorem get_eq_class {size : ℕ} (hsize : size ≠ 0) (s : Pool) (ptr first : ℕ) :
    s.get size ptr first =
      if classOf size = .Bulk then s.getBulkObj size ptr first
      else
        s.getSlotObj ((classOf size).slotIdOf ((classOf size).slotSizeFor size)) (classOf size)
          ((classOf size).slotSizeFor size) ((classOf size).pageSizeFor ((classOf size).slotSizeFor size))
          size ptr first := by
  unfold Pool.get classOf
  rw [if_neg hsize]
  split_ifs <;> first | rfl | contradiction

theorem roundup_lt {x e : ℕ} (hx : x < 2 ^ 32) : roundupToTheNextHighestMultipleOfExponent2 x e < 2 ^ 32 := by
  unfold roundupToTheNextHighestMultipleOfExponent2
  dsimp only
  split_ifs
  · exact hx
  · exact Nat.mod_lt _ (by norm_num)

theorem isLeast_multiple {a d v : ℕ} (hle : a ≤ v) (hlt : v < a + d) (hd : d ∣ v) :
    IsLeast {m | a ≤ m ∧ d ∣ m} v := by
  refine ⟨⟨hle, hd⟩, fun m hm => ?_⟩
  by_contra hgt
  have hgap := Nat.le_of_dvd (by omega) (Nat.dvd_sub hd hm.2)
  have := hm.1
  omega

/-- Up to the last multiple of its step a size is rounded up to the next one. -/
theorem roundup_isLeast {x e : ℕ} (h1 : 1 ≤ e) (he : e ≤ 31) (hx : x ≤ 2 ^ 32 - 2 ^ e) :
    IsLeast {m | x ≤ m ∧ 2 ^ e ∣ m} (roundupToTheNextHighestMultipleOfExponent2 x e) := by
  have hpos : 0 < 2 ^ e := Nat.two_pow_pos e
  have hpow : (2 : ℕ) ^ e ∣ 2 ^ 32 := Nat.pow_dvd_pow 2 (by omega)
  have hle : (2 : ℕ) ^ e ≤ 2 ^ 32 := Nat.le_of_dvd (by norm_num) hpow
  rw [roundup_eq x e (by omega) h1 he]
  split_ifs with hmod
  · exact isLeast_multiple le_rfl (by omega) (Nat.dvd_of_mod_eq_zero hmod)
  · have hdiv := Nat.div_add_mod x (2 ^ e)
    have hlt := Nat.mod_lt x hpos
    have hne : x ≠ 2 ^ 32 - 2 ^ e := by
      rintro rfl
      exact hmod (Nat.mod_eq_zero_of_dvd (Nat.dvd_sub hpow dvd_rfl))
    rw [Nat.mul_comm] at hdiv
    rw [Nat.mod_eq_of_lt (by omega)]
    exact isLeast_multiple (by omega) (by omega) (dvd_add (Nat.dvd_mul_left _ _) dvd_rfl)

theorem genExpand_isLeast {objSize factor : ℕ} (h : objSize * factor + sysPageSize ≤ 2 ^ 32) :
    IsLeast {m | objSize * factor ≤ m ∧ sysPageSize ∣ m} (genExpandSlotPageSize objSize factor sysPageSize) := by
  obtain ⟨hle, hlt⟩ := genExpand_bounds (by decide) h
  refine isLeast_multiple hle hlt ?_
  unfold genExpandSlotPageSize
  exact (Nat.dvd_mod_iff (by decide)).mpr (Nat.dvd_mul_left _ _)

theorem classOf_bulk_iff {size : ℕ} : classOf size = .Bulk ↔ bulkObjThreshold < size := by
  unfold classOf tinyObjThreshold bulkObjThreshold
  split_ifs <;> simp <;> omega

/-- The least multiple of the footstep of its class, up to the last page below 2^32. -/
theorem slotSizeFor_isLeast {size : ℕ} (h1 : 1 ≤ size) (h2 : size ≤ 2 ^ 32 - sysPageSize) :
    IsLeast {m | size ≤ m ∧ (classOf size).footstepSize ∣ m} ((classOf size).slotSizeFor size) := by
  unfold sysPageSize at h2
  have h5 := @roundup_isLeast size 5 (by norm_num) (by norm_num) (by omega)
  have h12 := @roundup_isLeast size 12 (by norm_num) (by norm_num) (by omega)
  norm_num at h5 h12
  unfold classOf
  split_ifs with htiny hbulk
  · unfold tinyObjThreshold at htiny
    simp only [MemObjectType.footstepSize, MemObjectType.slotSizeFor, tinyObjThreshold]
    exact isLeast_multiple htiny (by omega) dvd_rfl
  · simp only [MemObjectType.footstepSize, MemObjectType.slotSizeFor, sysPageSize, bigObjSlotFootstepExponent]
    exact h12
  · simp only [MemObjectType.footstepSize, MemObjectType.slotSizeFor, smallObjSlotFootstepSize,
      smallObjSlotFootstepExponent]
    exact h5
  · simp only [MemObjectType.footstepSize, MemObjectType.slotSizeFor, sysPageSize, bulkObjSlotFootstepExponent]
    exact h12

theorem slotSizeFor_lt {size : ℕ} (h : size < 2 ^ 32) (c : MemObjectType) : c.slotSizeFor size < 2 ^ 32 := by
  unfold MemObjectType.slotSizeFor
  split
  · decide
  all_goals exact roundup_lt h

/-- Close to 2^32 a size is rounded to zero. -/
theorem slotSizeFor_eq_zero {size : ℕ} (h1 : 2 ^ 32 - sysPageSize < size) (h2 : size < 2 ^ 32) :
    (classOf size).slotSizeFor size = 0 := by
  have hround := roundup_eq size 12 h2 (by norm_num) (by norm_num)
  norm_num at hround
  unfold sysPageSize at h1
  rw [classOf_bulk_iff.mpr (by unfold bulkObjThreshold; omega)]
  change roundupToTheNextHighestMultipleOfExponent2 size 12 = 0
  split_ifs at hround <;> omega

/-! ## What is handed out -/

/-- What the search for a free bulk object can find. A pointer of the ordered map may lead to the
element of some slot `k`. -/
inductive Search (s : Pool) (need : ℕ) : Pool × Pool.Suitable → Prop
  | nothing (hk : s.freeHashBulkObjs.lookup need = none) : Search s need (s, Pool.unsuitable)
  | own {n : BulkNode} {p a : ℕ} {rest : List ℕ} (hk : s.freeHashBulkObjs.lookup need = some n)
      (hl : n.objs.lookup p = some (a :: rest)) :
      Search s need (if (takeFree n.objs p rest).entries = [] then s.eraseBulk need
        else s.setBulk need { n with objs := takeFree n.objs p rest }, ⟨need, a, p⟩)
  | larger {x : Node ℕ ℕ} {k : ℕ} {n : BulkNode} {p a : ℕ} {rest : List ℕ} (hx : x ∈ s.freeBulkObjs.nodes)
      (hlt : need < x.key) (hd : s.derefBulk x.val = some (k, n)) (hl : n.objs.lookup p = some (a :: rest)) :
      Search s need (s.setBulk k { n with objs := takeFree n.objs p rest }, ⟨x.key, a, p⟩)
  | drained {x : Node ℕ ℕ} {k : ℕ} {n : BulkNode} {p a : ℕ} {rest : List ℕ} (hx : x ∈ s.freeBulkObjs.nodes)
      (hlt : need < x.key) (hd : s.derefBulk x.val = some (k, n)) (hl : n.objs.lookup p = some (a :: rest))
      (hempty : (takeFree n.objs p rest).entries = []) (y : ℕ) :
      Search s need
        ({ s with
          freeBulkObjs := s.freeBulkObjs.erase x.key
          freeHashBulkObjs := (s.freeHashBulkObjs.insert k { n with objs := takeFree n.objs p rest }).erase y },
          ⟨x.key, a, p⟩)

theorem beginObj_eq_some {first : ℕ} {objs : FreeTable} {g : FreeTable × ℕ × ℕ}
    (h : Pool.beginObj first objs = some g) :
    ∃ p a rest, objs.lookup p = some (a :: rest) ∧ g = (takeFree objs p rest, p, a) := by
  unfold Pool.beginObj at h
  cases hhead : (objs.entries.rotate first).head? with
  | none =>
    rw [hhead] at h
    cases h
  | some e =>
    obtain ⟨p, l⟩ := e
    have hmem := List.mem_rotate.mp (List.mem_of_mem_head? hhead)
    cases l with
    | nil =>
      rw [hhead] at h
      cases h
    | cons a rest =>
      rw [hhead] at h
      exact ⟨p, a, rest, AList.mem_lookup_iff.mpr hmem, (Option.some.inj h).symm⟩

theorem search_of_takeLarger {s : Pool} {need first : ℕ} {x : Node ℕ ℕ} {it : NodeMap slotOrder ℕ → Option ℕ}
    {o : Pool × Pool.Suitable} (hx : x ∈ s.freeBulkObjs.nodes) (hlt : need < x.key)
    (h : s.takeLarger first x it = some o) : Search s need o := by
  obtain ⟨⟨k, n⟩, hd, h⟩ := Option.bind_eq_some_iff.mp h
  obtain ⟨g, hbegin, h⟩ := Option.bind_eq_some_iff.mp h
  obtain ⟨p, a, rest, hl, rfl⟩ := beginObj_eq_some hbegin
  dsimp only at h
  split_ifs at h with hempty
  · obtain ⟨addr, -, h⟩ := Option.bind_eq_some_iff.mp h
    obtain ⟨y, -, rfl⟩ := Option.map_eq_some_iff.mp h
    exact .drained hx hlt hd hl hempty y.1.key
  · cases h
    exact .larger hx hlt hd hl

theorem search_of_eq {s : Pool} {need first : ℕ} {o : Pool × Pool.Suitable}
    (h : s.getSuitableBulkPage first need = some o) : Search s need o := by
  unfold Pool.getSuitableBulkPage at h
  cases hk : s.freeHashBulkObjs.lookup need with
  | some n =>
    rw [hk] at h
    obtain ⟨g, hbegin, rfl⟩ := Option.map_eq_some_iff.mp h
    obtain ⟨p, a, rest, hl, rfl⟩ := beginObj_eq_some hbegin
    exact .own hk hl
  | none =>
    rw [hk] at h
    dsimp only at h
    split at h
    · rename_i slotBegin last hhead hlast
      split_ifs at h with h1 h2 h3
      · cases h
        exact .nothing hk
      · cases h
        exact .nothing hk
      · exact search_of_takeLarger (List.mem_of_mem_head? hhead) h2 h
      · cases hfind : s.freeBulkObjs.nodes.reverse.find? fun x => need < x.key ∧ x.key ≤ need * 2 with
        | none =>
          rw [hfind] at h
          cases h
          exact .nothing hk
        | some x =>
          rw [hfind] at h
          have hx := List.mem_reverse.mp (List.mem_of_find?_eq_some hfind)
          have hrange : need < x.key ∧ x.key ≤ need * 2 := by simpa using List.find?_some hfind
          exact search_of_takeLarger hx hrange.1 h
    · cases h
      exact .nothing hk

/-- Nothing changes but the tables of objects, and in the ordered map at most one slot joins. -/
structure Touches (k : ℕ) (s u : Pool) : Prop where
  memObjs : u.memObjs = s.memObjs
  freeMemObjs : u.freeMemObjs = s.freeMemObjs
  nodes : ∀ x ∈ u.freeBulkObjs.nodes, x.key = k ∨ ∃ y ∈ s.freeBulkObjs.nodes, y.key = x.key

namespace Touches
variable {k : ℕ} {s u v : Pool}

theorem trans (h : Touches k s u) (h' : Touches k u v) : Touches k s v where
  memObjs := h'.memObjs.trans h.memObjs
  freeMemObjs := h'.freeMemObjs.trans h.freeMemObjs
  nodes x hx := by
    rcases h'.nodes x hx with hk | ⟨y, hy, hyx⟩
    · exact .inl hk
    · rw [← hyx]
      exact h.nodes y hy

theorem of_erase (j : ℕ) (hmem : u.memObjs = s.memObjs) (hfree : u.freeMemObjs = s.freeMemObjs)
    (hnodes : u.freeBulkObjs = s.freeBulkObjs ∨ u.freeBulkObjs = s.freeBulkObjs.erase j) : Touches k s u where
  memObjs := hmem
  freeMemObjs := hfree
  nodes x hx := by
    rcases hnodes with h | h
    · exact .inr ⟨x, h ▸ hx, rfl⟩
    · rw [h] at hx
      exact .inr ⟨x, List.mem_of_mem_filter hx, rfl⟩

theorem of_assign {addr : ℕ} (hmem : u.memObjs = s.memObjs) (hfree : u.freeMemObjs = s.freeMemObjs)
    (hnodes : u.freeBulkObjs = s.freeBulkObjs.assign k addr) : Touches k s u where
  memObjs := hmem
  freeMemObjs := hfree
  nodes x hx := by
    rw [hnodes] at hx
    rcases mem_assignNode _ hx with ⟨hk, -⟩ | hx
    · exact .inl hk
    · exact .inr ⟨x, hx, rfl⟩

theorem linked {objs : FreeTable} (h : (s.assignBulk k objs).linkBulk k = some u) : Touches k s u := by
  obtain ⟨n, -, rfl⟩ := Option.map_eq_some_iff.mp h
  unfold Pool.assignBulk
  cases s.freeHashBulkObjs.lookup k with
  | none => exact of_assign rfl rfl rfl
  | some m => exact of_assign rfl rfl rfl

theorem expandBulk {needPageSize ptr : ℕ} (h : s.expandBulk needPageSize k ptr = some u) : Touches k s u := by
  obtain ⟨v, hv, h⟩ := Option.bind_eq_some_iff.mp h
  obtain ⟨n, -, h⟩ := Option.bind_eq_some_iff.mp h
  obtain ⟨r, -, rfl⟩ := Option.map_eq_some_iff.mp h
  refine (linked hv).trans ?_
  by_cases hr : r.1 = true
  · simp only [if_pos hr]
    exact of_erase k rfl rfl (.inl rfl)
  · simp only [if_neg hr]
    exact of_erase k rfl rfl (.inr rfl)

theorem keepBulkObj {slotSize objPv objPagePv first : ℕ}
    (h : s.keepBulkObj k slotSize objPv objPagePv first = some u) : Touches k s u := by
  obtain ⟨v, hv, h⟩ := Option.bind_eq_some_iff.mp h
  obtain ⟨n, -, h⟩ := Option.bind_eq_some_iff.mp h
  obtain ⟨cnt, -, h⟩ := Option.bind_eq_some_iff.mp h
  have hstart : Touches k s v := by
    cases hk : s.freeHashBulkObjs.lookup k with
    | none =>
      rw [hk] at hv
      exact linked hv
    | some m =>
      rw [hk] at hv
      cases hv
      exact of_erase k rfl rfl (.inl rfl)
  refine hstart.trans ?_
  dsimp only at h
  by_cases hmany : v.oneSlotBulkObjResidentCnts + cnt ≤ (n.cnt + 1) % 2 ^ 32
  · rw [if_pos hmany] at h
    split at h
    · cases h
      exact of_erase k rfl rfl (.inl rfl)
    · obtain ⟨heap, -, rfl⟩ := Option.map_eq_some_iff.mp h
      split_ifs
      · exact of_erase k rfl rfl (.inr rfl)
      · exact of_erase k rfl rfl (.inl rfl)
  · rw [if_neg hmany] at h
    cases h
    exact of_erase k rfl rfl (.inl rfl)

theorem putObj {obj : MemObject} {first : ℕ} (h : s.putObj obj first = some u) :
    Touches (obj.slotSize / sysPageSize) s u := by
  have hslot : ∀ id slotSize onePageSize residentCnts, s.putSlotObj id slotSize onePageSize residentCnts
      obj.objPv obj.objPagePv first = some u → Touches (obj.slotSize / sysPageSize) s u := by
    intro id slotSize onePageSize residentCnts h
    unfold Pool.putSlotObj at h
    split_ifs at h
    obtain ⟨r, -, rfl⟩ := Option.map_eq_some_iff.mp h
    exact of_erase 0 rfl rfl (.inl rfl)
  unfold Pool.putObj at h
  split at h
  · exact hslot _ _ _ _ h
  · exact hslot _ _ _ _ h
  · exact hslot _ _ _ _ h
  · dsimp only at h
    split_ifs at h
    · obtain ⟨pages, -, h⟩ := Option.bind_eq_some_iff.mp h
      obtain ⟨heap, -, rfl⟩ := Option.map_eq_some_iff.mp h
      exact of_erase 0 rfl rfl (.inl rfl)
    · exact keepBulkObj h

theorem search {need : ℕ} {found : Pool.Suitable} (h : Search s need (u, found)) : Touches k s u := by
  cases h with
  | nothing => exact of_erase 0 rfl rfl (.inl rfl)
  | own =>
    split_ifs
    · exact of_erase need rfl rfl (.inr rfl)
    · exact of_erase need rfl rfl (.inl rfl)
  | larger => exact of_erase 0 rfl rfl (.inl rfl)
  | drained => exact of_erase _ rfl rfl (.inr rfl)

end Touches

/-- What a pool keeps whatever the requests are. -/
structure Bounded (s : Pool) : Prop where
  known : ∀ h ∈ s.freeMemObjs, h < s.memObjs.length
  sized : ∀ obj ∈ s.memObjs, obj.slotSize < 2 ^ 32
  keys : ∀ x ∈ s.freeBulkObjs.nodes, x.key < 2 ^ 20

theorem bounded_start (freeTinyObjsCnt nprocs : ℕ) : Bounded (start freeTinyObjsCnt nprocs) :=
  ⟨nofun, nofun, nofun⟩

namespace Bounded
variable {s u : Pool}
variable {size ptr first : ℕ} {r : Option ℕ}

theorem touches {k : ℕ} (hs : Bounded s) (hk : k < 2 ^ 20) (h : Touches k s u) : Bounded u where
  known := by
    rw [h.memObjs, h.freeMemObjs]
    exact hs.known
  sized := by
    rw [h.memObjs]
    exact hs.sized
  keys x hx := by
    rcases h.nodes x hx with hxk | ⟨y, hy, hyx⟩
    · exact hxk ▸ hk
    · exact hyx ▸ hs.keys y hy

theorem getMemObject {obj : MemObject} (h : s.getMemObject size obj = (u, r)) (hs : Bounded s)
    (hobj : obj.slotSize < 2 ^ 32) : Bounded u ∧ ∃ i, r = some i ∧ u.memObjs[i]? = some obj := by
  unfold Pool.getMemObject at h
  cases hfree : s.freeMemObjs with
  | nil =>
    rw [hfree] at h
    cases h
    refine ⟨⟨by simp, fun o ho => ?_, hs.keys⟩, _, rfl, by simp⟩
    rcases List.mem_append.mp ho with ho | ho
    · exact hs.sized o ho
    · rw [List.mem_singleton.mp ho]
      exact hobj
  | cons i rest =>
    rw [hfree] at h
    cases h
    have hi : i < s.memObjs.length := hs.known i (by simp [hfree])
    refine ⟨⟨fun j hj => ?_, fun o ho => ?_, hs.keys⟩, i, rfl, List.getElem?_set_self hi⟩
    · rw [List.length_set]
      exact hs.known j (by simp [hfree, hj])
    · rcases List.mem_or_eq_of_mem_set ho with ho | rfl
      · exact hs.sized o ho
      · exact hobj

theorem getSlotObj (hs : Bounded s) {id : SlotId} {type : MemObjectType} {slotSize onePageSize : ℕ}
    (hsize : slotSize < 2 ^ 32) (h : s.getSlotObj id type slotSize onePageSize size ptr first = some (u, r)) :
    Bounded u ∧ ∀ i, r = some i → ∃ obj, u.memObjs[i]? = some obj ∧ obj.slotSize = slotSize := by
  unfold Pool.getSlotObj at h
  split_ifs at h
  obtain ⟨e, -, h⟩ := Option.bind_eq_some_iff.mp h
  obtain ⟨g, -, h⟩ := Option.map_eq_some_iff.mp h
  dsimp only at h
  split_ifs at h
  · cases h
    exact ⟨⟨hs.known, hs.sized, hs.keys⟩, nofun⟩
  · obtain ⟨hu, i, rfl, hi⟩ := getMemObject h ⟨hs.known, hs.sized, hs.keys⟩ hsize
    refine ⟨hu, fun j hj => ?_⟩
    cases hj
    exact ⟨_, hi, rfl⟩

theorem search (hs : Bounded s) {need : ℕ} (hneed : need < 2 ^ 20) {found : Pool.Suitable}
    (h : Search s need (u, found)) :
    Bounded u ∧ (found.objPv ≠ 0 → need ≤ found.slotIdx ∧ found.slotIdx < 2 ^ 20) := by
  refine ⟨hs.touches hneed (.search h), fun hpv => ?_⟩
  cases h with
  | nothing => exact absurd rfl hpv
  | own => exact ⟨le_rfl, hneed⟩
  | larger hx hlt => exact ⟨hlt.le, hs.keys _ hx⟩
  | drained hx hlt => exact ⟨hlt.le, hs.keys _ hx⟩

theorem slotIdxFor_lt (h : size < 2 ^ 32) : slotIdxFor size < 2 ^ 20 := by
  have hround : roundupToTheNextHighestMultipleOfExponent2 size bulkObjSlotFootstepExponent < 2 ^ 32 := roundup_lt h
  unfold slotIdxFor sysPageSize
  omega

/-- The search ends with an object, of its own slot or a larger one, or without one. -/
theorem handOut (hs : Bounded s) (hsize : size < 2 ^ 32) {found : Pool.Suitable}
    (h : Search s (slotIdxFor size) (u, found)) {v : Pool} (hr : Pool.handOut size (u, found) = (v, r)) :
    Bounded v ∧ ∀ i, r = some i →
      ∃ obj, v.memObjs[i]? = some obj ∧ sysPageSize * slotIdxFor size ≤ obj.slotSize := by
  obtain ⟨hu, hslot⟩ := hs.search (slotIdxFor_lt hsize) h
  unfold Pool.handOut at hr
  split_ifs at hr with hpv
  · cases hr
    exact ⟨hu, nofun⟩
  · obtain ⟨hle, hlt⟩ := hslot hpv
    have huncount : Bounded (u.uncount found.slotIdx) := by
      unfold Pool.uncount
      split
      · exact ⟨hu.known, hu.sized, hu.keys⟩
      · exact hu
    obtain ⟨hv, i, rfl, hi⟩ := getMemObject hr huncount (Nat.mod_lt _ (by norm_num))
    refine ⟨hv, fun j hj => ?_⟩
    cases hj
    refine ⟨_, hi, ?_⟩
    dsimp only
    unfold sysPageSize at *
    omega

theorem getBulkObj (hs : Bounded s) (hsize : size < 2 ^ 32) (h : s.getBulkObj size ptr first = some (u, r)) :
    Bounded u ∧ ∀ i, r = some i →
      ∃ obj, u.memObjs[i]? = some obj ∧ sysPageSize * slotIdxFor size ≤ obj.slotSize := by
  obtain ⟨⟨v, found⟩, hfound, h⟩ := Option.bind_eq_some_iff.mp h
  have hsearch := search_of_eq hfound
  obtain ⟨⟨w, last⟩, hlast, h⟩ := Option.map_eq_some_iff.mp h
  split_ifs at hlast
  · obtain ⟨x, hx, hlast⟩ := Option.bind_eq_some_iff.mp hlast
    have hv := (hs.search (slotIdxFor_lt hsize) hsearch).1
    exact (hv.touches (slotIdxFor_lt hsize) (.expandBulk hx)).handOut hsize (search_of_eq hlast) h
  · cases hlast
    exact hs.handOut hsize hsearch h

theorem get (hs : Bounded s) (hsize : size < 2 ^ 32) (h : s.get size ptr first = some (u, r)) :
    Bounded u ∧ (size ≤ 2 ^ 32 - sysPageSize → ∀ i, r = some i →
      ∃ obj, u.memObjs[i]? = some obj ∧ size ≤ obj.slotSize) := by
  have hne : size ≠ 0 := by
    rintro rfl
    cases h
  rw [get_eq_class hne] at h
  split_ifs at h with hbulk
  · obtain ⟨hu, hserved⟩ := hs.getBulkObj hsize h
    refine ⟨hu, fun hle i hi => ?_⟩
    obtain ⟨obj, hobj, hslot⟩ := hserved i hi
    exact ⟨obj, hobj, (slotIdxFor_eq (classOf_bulk_iff.mp hbulk) hle).2.1.trans hslot⟩
  · obtain ⟨hu, hserved⟩ := hs.getSlotObj (slotSizeFor_lt hsize _) h
    refine ⟨hu, fun hle i hi => ?_⟩
    obtain ⟨obj, hobj, hslot⟩ := hserved i hi
    exact ⟨obj, hobj, hslot ▸ (slotSizeFor_isLeast (Nat.pos_of_ne_zero hne) hle).1.1⟩

theorem put (hs : Bounded s) {handle : ℕ} (h : s.put handle first = some u) : Bounded u := by
  obtain ⟨obj, hobj, h⟩ := Option.bind_eq_some_iff.mp h
  obtain ⟨v, hv, rfl⟩ := Option.map_eq_some_iff.mp h
  have hsized := hs.sized obj (List.mem_of_getElem? hobj)
  have hkey : obj.slotSize / sysPageSize < 2 ^ 20 := by
    unfold sysPageSize
    omega
  have hlt : handle < v.memObjs.length := by
    rw [(Touches.putObj hv).memObjs]
    exact (List.getElem?_eq_some_iff.mp hobj).1
  have hb := hs.touches hkey (.putObj hv)
  refine ⟨fun i hi => ?_, hb.sized, hb.keys⟩
  rcases List.mem_append.mp hi with hi | hi
  · exact hb.known i hi
  · rw [List.mem_singleton.mp hi]
    exact hlt

end Bounded

/-- The size of a request is a `uint32_t`. -/
def Event.Sized : Event → Prop
  | .get size _ _ => size < 2 ^ 32
  | .put _ _ => True

instance : DecidablePred Event.Sized
  | .get _ _ _ => inferInstanceAs (Decidable (_ < _))
  | .put _ _ => isTrue trivial

theorem Bounded.step {s u : Pool} (hs : Bounded s) {e : Event} (he : e.Sized) {r : Option ℕ}
    (h : s.step e = some (u, r)) : Bounded u := by
  cases e with
  | get size ptr first => exact (hs.get he h).1
  | put handle first =>
    obtain ⟨v, hv, h⟩ := Option.map_eq_some_iff.mp h
    cases h
    exact hs.put hv

/-- What a request for `size` bytes computes does not wrap. -/
structure Pool.NoWrap (s : Pool) (size ptr first : ℕ) : Prop where
  rounded : IsLeast {m | size ≤ m ∧ (classOf size).footstepSize ∣ m} ((classOf size).slotSizeFor size)
  indexed : 0 < (classOf size).slotSizeFor size / (classOf size).footstepSize
  expanded : ∀ f ∈ (classOf size).expandFactor ((classOf size).slotSizeFor size),
    IsLeast {m | (classOf size).slotSizeFor size * f ≤ m ∧ sysPageSize ∣ m}
      (genExpandSlotPageSize ((classOf size).slotSizeFor size) f sysPageSize)
  split : splitMemPage ((classOf size).slotSizeFor size) ptr
    ((classOf size).pageSizeFor ((classOf size).slotSizeFor size)) ≠ none
  served : ∀ u i, s.get size ptr first = some (u, some i) → ∃ obj, u.memObjs[i]? = some obj ∧ size ≤ obj.slotSize

/-- The slots whose pages are expanded are small. -/
theorem expandFactor_bound {size f : ℕ} (h1 : 1 ≤ size) (h2 : size ≤ 2 ^ 32 - sysPageSize)
    (hf : f ∈ (classOf size).expandFactor ((classOf size).slotSizeFor size)) :
    (classOf size).slotSizeFor size * f + sysPageSize ≤ 2 ^ 32 := by
  have hstep : (classOf size).footstepSize ∣ bulkObjThreshold := by
    cases classOf size <;> decide
  have hsmall : classOf size ≠ .Bulk → (classOf size).slotSizeFor size ≤ bulkObjThreshold := fun h =>
    (slotSizeFor_isLeast h1 h2).2 ⟨not_lt.mp fun hlt => h (classOf_bulk_iff.mpr hlt), hstep⟩
  generalize (classOf size).slotSizeFor size = slotSize at *
  unfold bulkObjThreshold at hsmall
  unfold sysPageSize
  cases hc : classOf size with
  | Tiny =>
    rw [hc] at hf
    cases hf
  | Small =>
    rw [hc] at hf hsmall
    cases hf
    have := hsmall nofun
    unfold expandObjCntFactor
    omega
  | Big =>
    rw [hc] at hf hsmall
    cases hf
    have := hsmall nofun
    unfold expandObjCntFactor
    omega
  | Bulk =>
    rw [hc, MemObjectType.expandFactor] at hf
    split_ifs at hf with hreserve
    · cases hf
      unfold availableReserveBulkObjMaxSize at hreserve
      unfold expandBulkObjCntFactor
      omega
    · cases hf

theorem Bounded.noWrap_iff {s : Pool} (hs : Bounded s) {size : ℕ} (h1 : 1 ≤ size) (h2 : size < 2 ^ 32)
    (ptr first : ℕ) : s.NoWrap size ptr first ↔ size ≤ 2 ^ 32 - sysPageSize := by
  constructor
  · intro h
    by_contra hgt
    have hzero := slotSizeFor_eq_zero (not_le.mp hgt) h2
    have hle := h.rounded.1.1
    omega
  · intro hle
    have hleast := slotSizeFor_isLeast h1 hle
    have hpos : 0 < (classOf size).slotSizeFor size := h1.trans hleast.1.1
    have hfootstep : 0 < (classOf size).footstepSize := by
      cases classOf size <;> decide
    refine ⟨hleast, Nat.div_pos (Nat.le_of_dvd hpos hleast.1.2) hfootstep, fun f hf => ?_, ?_, fun u i h => ?_⟩
    · exact genExpand_isLeast (expandFactor_bound h1 hle hf)
    · rw [splitMemPage, quotient, if_neg hpos.ne']
      exact Option.some_ne_none _
    · exact (hs.get h2 h).2 hle i rfl

/-- In every pool the sizes of a request fit exactly up to one page below 2^32. -/
theorem get_noWrap_iff (freeTinyObjsCnt nprocs : ℕ) {es : List Event} (hes : ∀ e ∈ es, e.Sized) {s : Pool}
    {rs : List (Option ℕ)} (hrun : run Pool.step (start freeTinyObjsCnt nprocs) es = some (s, rs)) {size : ℕ}
    (h1 : 1 ≤ size) (h2 : size < 2 ^ 32) (ptr first : ℕ) :
    s.NoWrap size ptr first ↔ size ≤ 2 ^ 32 - sysPageSize := by
  have hs : Bounded s := run_invariant (P := fun _ e => e.Sized) (I := fun s _ => Bounded s)
    (fun _ _ _ _ _ hs he h => hs.step he h) [] (bounded_start freeTinyObjsCnt nprocs)
    (along_of_forall (fun e he _ => hes e he) _) hrun
  exact hs.noWrap_iff h1 h2 ptr first

theorem get_noWrap_largest : ∃ s rs, run Pool.step (start 0 4) [.get 200000 4194304 0] = some (s, rs) ∧
    s.NoWrap (2 ^ 32 - 4096) 8388608 0 := by
  have hsome : (run Pool.step (start 0 4) [.get 200000 4194304 0]).isSome = true := by decide +kernel
  obtain ⟨⟨s, rs⟩, hrun⟩ := Option.isSome_iff_exists.mp hsome
  exact ⟨s, rs, hrun, (get_noWrap_iff 0 4 (by decide) hrun (by decide) (by decide) 8388608 0).mpr (by decide)⟩

/-- The largest size is rounded to zero, and its page is divided by zero. -/
theorem get_wraps :
    (classOf (2 ^ 32 - 1)).slotSizeFor (2 ^ 32 - 1) = 0 ∧
      splitMemPage 0 4194304 (MemObjectType.Bulk.pageSizeFor 0) = none ∧
      ((start 0 4).get (2 ^ 32 - 1) 4194304 0).isNone = true ∧
      ¬ (start 0 4).NoWrap (2 ^ 32 - 1) 4194304 0 := by
  refine ⟨by decide, by decide, by decide +kernel, fun h => ?_⟩
  exact absurd h.rounded.1.1 (by decide)

end FlyingKV.MemPool
