import FlyingKV.MemPoolSlabs

set_option autoImplicit false

/-!
# Tiny, small and big objects

Every slot cuts its pages into objects of its size. A `Get` may first add a page to the slot and
then takes a free object; a `Put` gives the object back and may then drop a page.
-/
namespace FlyingKV.MemPool
open Slab EventRun

namespace SlotId

def slotSize : SlotId → ℕ
  | .tiny => tinyObjThreshold
  | .small idx => smallObjSlotFootstepSize * idx
  | .big idx => sysPageSize * idx

def onePageSize : SlotId → ℕ
  | .tiny => sysPageSize
  | .small idx => genExpandSlotPageSize (smallObjSlotFootstepSize * idx) expandObjCntFactor sysPageSize
  | .big idx => genExpandSlotPageSize (sysPageSize * idx) expandObjCntFactor sysPageSize

def residentCnts : SlotId → ℕ
  | .tiny => oneSlotTinyObjResidentCnts
  | .small _ => oneSlotSmallObjResidentCnts
  | .big _ => oneSlotBigObjResidentCnts

def type : SlotId → MemObjectType
  | .tiny => .Tiny
  | .small _ => .Small
  | .big _ => .Big

def shape (id : SlotId) : Shape := shapeOf id.slotSize id.onePageSize

end SlotId

/-- The slot an object goes back to. -/
def MemObject.slot (obj : MemObject) : Option SlotId :=
  match obj.type with
  | .Tiny => some .tiny
  | .Small => some (.small (obj.slotSize / smallObjSlotFootstepSize))
  | .Big => some (.big (obj.slotSize / sysPageSize))
  | .Bulk => none

theorem slotSize_bounds {id : SlotId} (h : Pool.hasSlot id) : 0 < id.slotSize ∧ id.slotSize ≤ bulkObjThreshold := by
  cases id with
  | tiny => decide
  | small idx =>
    simp only [Pool.hasSlot, bigObjThreshold, sysPageSize, smallObjSlotFootstepSize] at h
    simp only [SlotId.slotSize, smallObjSlotFootstepSize, bulkObjThreshold]
    omega
  | big idx =>
    simp only [Pool.hasSlot, bulkObjThreshold, sysPageSize] at h
    simp only [SlotId.slotSize, sysPageSize, bulkObjThreshold]
    omega

theorem onePageSize_bounds {id : SlotId} (h : Pool.hasSlot id) :
    id.slotSize ≤ id.onePageSize ∧ id.onePageSize < 2 ^ 32 := by
  obtain ⟨-, hle⟩ := slotSize_bounds h
  unfold bulkObjThreshold at hle
  cases id with
  | tiny => decide
  | small idx =>
    simp only [SlotId.slotSize] at hle
    have hbounds := @genExpand_bounds (smallObjSlotFootstepSize * idx) expandObjCntFactor sysPageSize (by decide)
      (by unfold expandObjCntFactor sysPageSize; omega)
    simp only [SlotId.slotSize, SlotId.onePageSize]
    unfold expandObjCntFactor at hbounds ⊢
    unfold sysPageSize at hbounds ⊢
    omega
  | big idx =>
    simp only [SlotId.slotSize] at hle
    have hbounds := @genExpand_bounds (sysPageSize * idx) expandObjCntFactor sysPageSize (by decide)
      (by unfold expandObjCntFactor; unfold sysPageSize at hle ⊢; omega)
    simp only [SlotId.slotSize, SlotId.onePageSize]
    unfold expandObjCntFactor at hbounds ⊢
    unfold sysPageSize at hbounds hle ⊢
    omega

theorem shape_ok {id : SlotId} (h : Pool.hasSlot id) : id.shape.Ok :=
  shapeOf_ok (slotSize_bounds h).1 (onePageSize_bounds h).1

theorem slot_of_type {id : SlotId} (obj : MemObject) (htype : obj.type = id.type)
    (hsize : obj.slotSize = id.slotSize) : obj.slot = some id := by
  unfold MemObject.slot
  rw [htype, hsize]
  cases id with
  | tiny => rfl
  | small idx =>
    simp only [SlotId.type, SlotId.slotSize]
    rw [Nat.mul_div_cancel_left _ (by decide)]
  | big idx =>
    simp only [SlotId.type, SlotId.slotSize]
    rw [Nat.mul_div_cancel_left _ (by decide)]

/-! ## The invariant -/

/-- `used` says whether there was a `Get` of a tiny object: the counter of tiny objects is not
initialized before. -/
structure SlotsOk (used : Prop) (s : Pool) : Prop where
  slabs : Slabs MemObject.slot SlotId.shape (fun id => (s.slots id).pages) (fun id => (s.slots id).objs)
    s.heap s.live s.memObjs s.freeMemObjs
  counted : ∀ id, (id = .tiny ∧ ¬used ∧ (s.slots id).pages = ∅) ∨
    (s.slots id).cnt = (allFree (s.slots id).objs).length % 2 ^ 32
  typed : ∀ t ∈ s.live, ∃ id, Pool.hasSlot id ∧ t.obj.type = id.type ∧ t.obj.slotSize = id.slotSize

theorem slotsOk_start (freeTinyObjsCnt nprocs : ℕ) : SlotsOk False (start freeTinyObjsCnt nprocs) where
  slabs := by
    have hpages : (fun id => ((start freeTinyObjsCnt nprocs).slots id).pages) = fun _ => ∅ := by
      funext id
      cases id <;> rfl
    have hobjs : (fun id => ((start freeTinyObjsCnt nprocs).slots id).objs) = fun _ => ∅ := by
      funext id
      cases id <;> rfl
    rw [hpages, hobjs]
    exact slabs_empty _ _
  counted id := by
    cases id with
    | tiny => exact .inl ⟨rfl, not_false, rfl⟩
    | small idx => exact .inr rfl
    | big idx => exact .inr rfl
  typed := nofun

theorem pages_update (slots : SlotId → ObjSlot) (id : SlotId) (slot : ObjSlot) :
    (fun j => (Function.update slots id slot j).pages) =
      Function.update (fun j => (slots j).pages) id slot.pages := by
  funext j
  exact Function.apply_update (fun _ => ObjSlot.pages) slots id slot j

theorem objs_update (slots : SlotId → ObjSlot) (id : SlotId) (slot : ObjSlot) :
    (fun j => (Function.update slots id slot j).objs) =
      Function.update (fun j => (slots j).objs) id slot.objs := by
  funext j
  exact Function.apply_update (fun _ => ObjSlot.objs) slots id slot j

section
variable {used : Prop} {s : Pool} {id : SlotId}

/-- Every region the pool has is apart from the one at `ptr`. -/
structure Fresh (s : Pool) (ptr bytes : ℕ) : Prop where
  nonnull : ptr ≠ 0
  aligned : ptr % sysPageSize = 0
  apart : ∀ r ∈ s.heap, Region.Apart ⟨ptr, bytes⟩ r

def Pool.withPage (s : Pool) (id : SlotId) (ptr : ℕ) : Pool :=
  { s with
    slots := Function.update s.slots id
      ⟨insert ptr (s.slots id).pages, (s.slots id).objs.insert ptr (blocks id.shape ptr), id.shape.count⟩
    heap := s.heap ++ [⟨ptr, id.onePageSize⟩] }

theorem SlotsOk.withPage (hs : SlotsOk used s) (hid : Pool.hasSlot id) {ptr : ℕ}
    (hfresh : Fresh s ptr id.onePageSize) (hempty : (s.slots id).objs.entries = []) :
    SlotsOk (used ∨ id = .tiny) (s.withPage id ptr) := by
  refine ⟨?_, fun j => ?_, hs.typed⟩
  · have hadded := hs.slabs.addPage (shape_ok hid) hfresh.nonnull hfresh.apart
    simp only [Pool.withPage, pages_update, objs_update]
    exact hadded
  · by_cases hj : j = id
    · subst hj
      right
      have hobjs : (s.slots j).objs = ∅ := AList.ext hempty
      have hlt : j.shape.count < 2 ^ 32 := (Nat.div_le_self _ _).trans_lt (onePageSize_bounds hid).2
      simp only [Pool.withPage, Function.update_self]
      rw [hobjs, allFree_insert, List.length_append, length_blocks]
      exact (Nat.mod_eq_of_lt hlt).symm
    · rw [Pool.withPage]
      simp only [Function.update_of_ne hj]
      refine (hs.counted j).imp_left fun ⟨htiny, hused, hpages⟩ => ⟨htiny, ?_, hpages⟩
      rintro (h | h)
      · exact hused h
      · exact hj (htiny.trans h.symm)

theorem SlotsOk.cnt_eq (hs : SlotsOk used s) {p : ℕ} (hp : p ∈ (s.slots id).pages) :
    (s.slots id).cnt = (allFree (s.slots id).objs).length % 2 ^ 32 := by
  rcases hs.counted id with ⟨-, -, hempty⟩ | hcnt
  · rw [hempty] at hp
    exact absurd hp (Finset.notMem_empty p)
  · exact hcnt

def Pool.withoutObj (s : Pool) (id : SlotId) (p : ℕ) (rest : List ℕ) : Pool :=
  { s with
    slots := Function.update s.slots id
      ⟨(s.slots id).pages, takeFree (s.slots id).objs p rest, ((s.slots id).cnt + 2 ^ 32 - 1) % 2 ^ 32⟩ }

theorem SlotsOk.take (hs : SlotsOk used s) (hid : Pool.hasSlot id) {p a size : ℕ} {rest : List ℕ}
    (hl : (s.slots id).objs.lookup p = some (a :: rest)) (hsize : size ≤ id.slotSize) :
    ∃ u h, (s.withoutObj id p rest).getMemObject size ⟨id.type, id.slotSize, a, p⟩ = (u, some h) ∧
      SlotsOk used u := by
  have hrecords : Records (s.withoutObj id p rest).memObjs (s.withoutObj id p rest).freeMemObjs
      (s.withoutObj id p rest).live := hs.slabs.records
  obtain ⟨h, memObjs, freeMemObjs, heq, hrecords⟩ := hrecords.get size ⟨id.type, id.slotSize, a, p⟩
  have hslot : MemObject.slot ⟨id.type, id.slotSize, a, p⟩ = some id := slot_of_type _ rfl rfl
  have htaken := hs.slabs.take hl hslot ⟨rfl, rfl, rfl⟩ hsize hrecords
  have hp : p ∈ (s.slots id).pages := ((hs.slabs.cut id).keys p _ hl).1
  refine ⟨_, h, heq, ?_, fun j => ?_, fun t ht => ?_⟩
  · simp only [Pool.withoutObj, pages_update, objs_update, Function.update_eq_self]
    exact htaken
  · by_cases hj : j = id
    · subst hj
      right
      simp only [Pool.withoutObj, Function.update_self]
      rw [hs.cnt_eq hp, length_allFree_take hl, cnt_pred (Nat.add_one_pos _), Nat.add_sub_cancel]
    · simp only [Pool.withoutObj, Function.update_of_ne hj]
      exact hs.counted j
  · rcases List.mem_append.mp ht with ht | ht
    · exact hs.typed t ht
    · rw [List.mem_singleton.mp ht]
      exact ⟨id, hid, rfl, rfl⟩

def Pool.withObj (s : Pool) (id : SlotId) (t : Taken) : Pool :=
  { s with
    slots := Function.update s.slots id
      ⟨(s.slots id).pages,
        (s.slots id).objs.insert t.obj.objPagePv (freeOf (s.slots id).objs t.obj.objPagePv ++ [t.obj.objPv]),
        ((s.slots id).cnt + 1) % 2 ^ 32⟩
    freeMemObjs := s.freeMemObjs ++ [t.handle]
    live := s.live.filter fun x => x.handle ≠ t.handle }

theorem SlotsOk.give (hs : SlotsOk used s) {t : Taken} (ht : t ∈ s.live) (hslot : t.obj.slot = some id) :
    SlotsOk used (s.withObj id t) := by
  have hp : t.obj.objPagePv ∈ (s.slots id).pages :=
    (hs.slabs.cut id).used _ (mem_liveIn.mpr ⟨t, ht, hslot, rfl, rfl⟩)
  have hgiven := hs.slabs.give ht hslot
  refine ⟨?_, fun j => ?_, fun x hx => hs.typed x (List.mem_of_mem_filter hx)⟩
  · simp only [Pool.withObj, pages_update, objs_update, Function.update_eq_self]
    exact hgiven
  · by_cases hj : j = id
    · subst hj
      right
      simp only [Pool.withObj, Function.update_self]
      rw [hs.cnt_eq hp, cnt_succ, length_allFree_give]
    · simp only [Pool.withObj, Function.update_of_ne hj]
      exact hs.counted j

def Pool.withoutPage (s : Pool) (id : SlotId) (p : ℕ) : Pool :=
  { s with
    slots := Function.update s.slots id
      ⟨(s.slots id).pages.erase p, (s.slots id).objs.erase p,
        ((s.slots id).cnt + 2 ^ 32 - id.shape.count) % 2 ^ 32⟩
    heap := s.heap.filter fun r => r.base ≠ p }

theorem SlotsOk.drop (hs : SlotsOk used s) (hid : Pool.hasSlot id) {p : ℕ} {l : List ℕ}
    (hl : (s.slots id).objs.lookup p = some l) (hfull : l.length = id.shape.count) :
    SlotsOk used (s.withoutPage id p) := by
  have hp : p ∈ (s.slots id).pages := ((hs.slabs.cut id).keys p l hl).1
  have hdropped := hs.slabs.drop hl hfull
  refine ⟨?_, fun j => ?_, hs.typed⟩
  · simp only [Pool.withoutPage, pages_update, objs_update]
    exact hdropped
  · by_cases hj : j = id
    · subst hj
      right
      have hlen := length_allFree (s.slots j).objs p
      have hlt : j.shape.count < 2 ^ 32 := (Nat.div_le_self _ _).trans_lt (onePageSize_bounds hid).2
      rw [freeOf_of_lookup hl, hfull] at hlen
      simp only [Pool.withoutPage, Function.update_self]
      rw [hs.cnt_eq hp, cnt_sub (by omega) hlt]
      congr 1
      omega
    · simp only [Pool.withoutPage, Function.update_of_ne hj]
      exact hs.counted j

/-! ## `Get` and `Put` -/

theorem expand_eq (slot : ObjSlot) (heap : List Region) (hid : Pool.hasSlot id) {ptr : ℕ}
    (hptr : slot.objs.entries = [] → ptr ≠ 0) :
    slot.expand heap id.slotSize id.onePageSize ptr =
      if slot.objs.entries = [] then
        some (⟨insert ptr slot.pages, slot.objs.insert ptr (blocks id.shape ptr), id.shape.count⟩,
          heap ++ [⟨ptr, id.onePageSize⟩])
      else some (slot, heap) := by
  unfold ObjSlot.expand
  by_cases hempty : slot.objs.entries = []
  · rw [if_pos hempty, if_pos hempty,
      allocPageObjs_eq (slotSize_bounds hid).1 (onePageSize_bounds hid).2.le (hptr hempty)]
    rfl
  · rw [if_neg hempty, if_neg hempty]

/-- The first object of some page is found once there is a free object. -/
theorem SlotsOk.getFree (hs : SlotsOk used s) (hne : (s.slots id).objs.entries ≠ []) (first : ℕ) :
    ∃ p a rest, (s.slots id).objs.lookup p = some (a :: rest) ∧
      getFreeObjFromSlotPage first (s.slots id).objs = some (takeFree (s.slots id).objs p rest, p, a) ∧ a ≠ 0 := by
  obtain ⟨p, a, rest, hl, hget⟩ := getFreeObj_eq hne (fun p l h => ((hs.slabs.cut id).keys p l h).2) first
  refine ⟨p, a, rest, hl, hget, hs.slabs.free_ne_zero (i := id) (p := p) ?_⟩
  rw [freeOf_of_lookup hl]
  exact List.mem_cons_self

/-- Free tiny objects come from a `Get` of a tiny object. -/
theorem SlotsOk.used_of_free (hs : SlotsOk used s) (hne : (s.slots id).objs.entries ≠ []) :
    SlotsOk (used ∨ id = .tiny) s := by
  refine { hs with counted := fun j => (hs.counted j).imp_left fun ⟨htiny, hused, hpages⟩ => ⟨htiny, ?_, hpages⟩ }
  rintro (h | h)
  · exact hused h
  · rw [htiny, ← h] at hpages
    exact hne (entries_eq_nil (hs.slabs.cut id) hpages)

/-- What `Get` does in a slot: it may add a page, and takes the first object of some page. -/
theorem SlotsOk.getSlotObj_eq (hs : SlotsOk used s) (hid : Pool.hasSlot id) {ptr : ℕ} (size first : ℕ)
    (hfresh : (s.slots id).objs.entries = [] → Fresh s ptr id.onePageSize) :
    ∃ v p a rest, (v = s ∧ (s.slots id).objs.entries ≠ [] ∨
        v = s.withPage id ptr ∧ (s.slots id).objs.entries = []) ∧
      (v.slots id).objs.lookup p = some (a :: rest) ∧ SlotsOk (used ∨ id = .tiny) v ∧
      s.getSlotObj id id.type id.slotSize id.onePageSize size ptr first =
        some ((v.withoutObj id p rest).getMemObject size ⟨id.type, id.slotSize, a, p⟩) := by
  unfold Pool.getSlotObj
  rw [if_pos hid, expand_eq (s.slots id) s.heap hid fun h => (hfresh h).nonnull]
  by_cases hempty : (s.slots id).objs.entries = []
  · have hpage := hs.withPage hid (hfresh hempty) hempty
    have hslot : (s.withPage id ptr).slots id =
        ⟨insert ptr (s.slots id).pages, (s.slots id).objs.insert ptr (blocks id.shape ptr), id.shape.count⟩ := by
      simp [Pool.withPage]
    have hne : ((s.withPage id ptr).slots id).objs.entries ≠ [] := by
      rw [hslot]
      exact entries_ne_nil (AList.lookup_insert _)
    obtain ⟨p, a, rest, hl, hget, ha⟩ := hpage.getFree hne first
    refine ⟨_, p, a, rest, .inr ⟨rfl, hempty⟩, hl, hpage, ?_⟩
    rw [hslot] at hget
    rw [if_pos hempty, Option.bind_some, hget, Option.map_some]
    dsimp only
    rw [if_neg ha]
    simp only [Pool.withoutObj, Pool.withPage, Function.update_self, Function.update_idem]
  · have hused := hs.used_of_free hempty
    obtain ⟨p, a, rest, hl, hget, ha⟩ := hused.getFree hempty first
    refine ⟨s, p, a, rest, .inl ⟨rfl, hempty⟩, hl, hused, ?_⟩
    rw [if_neg hempty, Option.bind_some, hget, Option.map_some]
    dsimp only
    rw [if_neg ha, Pool.withoutObj]

theorem SlotsOk.getSlotObj (hs : SlotsOk used s) (hid : Pool.hasSlot id) {size ptr : ℕ} (first : ℕ)
    (hfresh : (s.slots id).objs.entries = [] → Fresh s ptr id.onePageSize) (hsize : size ≤ id.slotSize) :
    ∃ u h, s.getSlotObj id id.type id.slotSize id.onePageSize size ptr first = some (u, some h) ∧
      SlotsOk (used ∨ id = .tiny) u := by
  obtain ⟨v, p, a, rest, -, hl, hv, heq⟩ := hs.getSlotObj_eq hid size first hfresh
  obtain ⟨u, h, hu, hok⟩ := hv.take hid hl hsize
  exact ⟨u, h, by rw [heq, hu], hok⟩

theorem putObj_of_slot {obj : MemObject} (htype : obj.type = id.type) (hsize : obj.slotSize = id.slotSize)
    (s : Pool) (first : ℕ) : s.putObj obj first =
      s.putSlotObj id id.slotSize id.onePageSize id.residentCnts obj.objPv obj.objPagePv first := by
  unfold Pool.putObj
  rw [htype, hsize]
  cases id with
  | tiny => rfl
  | small idx =>
    simp only [SlotId.type, SlotId.slotSize, SlotId.onePageSize, SlotId.residentCnts]
    rw [Nat.mul_div_cancel_left _ (by decide)]
  | big idx =>
    simp only [SlotId.type, SlotId.slotSize, SlotId.onePageSize, SlotId.residentCnts]
    rw [Nat.mul_div_cancel_left _ (by decide)]

theorem SlotsOk.hasSlot_of_slot (hs : SlotsOk used s) {t : Taken} (ht : t ∈ s.live) :
    ∃ id, Pool.hasSlot id ∧ t.obj.slot = some id ∧ ∀ first, s.putObj t.obj first =
      s.putSlotObj id id.slotSize id.onePageSize id.residentCnts t.obj.objPv t.obj.objPagePv first := by
  obtain ⟨id, hid, htype, hsize⟩ := hs.typed t ht
  exact ⟨id, hid, slot_of_type t.obj htype hsize, putObj_of_slot htype hsize s⟩

/-- What `Put` does: it gives the object back, and may drop a page that is free as a whole. -/
theorem SlotsOk.put_eq (hs : SlotsOk used s) {t : Taken} (ht : t ∈ s.live) (first : ℕ) :
    ∃ id, Pool.hasSlot id ∧ t.obj.slot = some id ∧
      (s.put t.handle first = some (s.withObj id t) ∨
        ∃ p l, ((s.withObj id t).slots id).objs.lookup p = some l ∧ l.length = id.shape.count ∧
          s.put t.handle first = some ((s.withObj id t).withoutPage id p)) := by
  obtain ⟨id, hid, hslot, hput⟩ := hs.hasSlot_of_slot ht
  have hgiven := hs.give ht hslot
  refine ⟨id, hid, hslot, ?_⟩
  unfold Pool.put
  rw [hs.slabs.records.kept t ht, Option.bind_some, hput, Pool.putSlotObj, if_pos hid, ObjSlot.put, quotient,
    if_neg (slotSize_bounds hid).1.ne', Option.bind_some]
  split_ifs with hmany
  · cases hfull : fullPage first (id.onePageSize / id.slotSize)
        ((s.slots id).objs.insert t.obj.objPagePv
          (freeOf (s.slots id).objs t.obj.objPagePv ++ [t.obj.objPv])) with
    | none => exact .inl rfl
    | some p =>
      obtain ⟨l, hl, hlen⟩ := lookup_fullPage hfull
      have hl' : ((s.withObj id t).slots id).objs.lookup p = some l := by
        simp only [Pool.withObj, Function.update_self]
        exact hl
      have hheap : ⟨p, id.shape.bytes⟩ ∈ s.heap := hgiven.slabs.carved.held id p ((hgiven.slabs.cut id).keys p l hl').1
      refine .inr ⟨p, l, hl', hlen, ?_⟩
      dsimp only
      rw [freeRegion_eq hheap]
      simp only [Pool.withoutPage, Pool.withObj, Function.update_self, Function.update_idem, Option.map_some]
      rfl
  · exact .inl rfl

theorem SlotsOk.put (hs : SlotsOk used s) {t : Taken} (ht : t ∈ s.live) (first : ℕ) :
    ∃ u, s.put t.handle first = some u ∧ SlotsOk used u := by
  obtain ⟨id, hid, hslot, hput | ⟨p, l, hl, hlen, hput⟩⟩ := hs.put_eq ht first
  · exact ⟨_, hput, hs.give ht hslot⟩
  · exact ⟨_, hput, (hs.give ht hslot).drop hid hl hlen⟩

end

/-- The slot that serves a request. -/
def slotFor (size : ℕ) : SlotId :=
  if size ≤ tinyObjThreshold then .tiny
  else if bigObjThreshold < size then
    .big (roundupToTheNextHighestMultipleOfExponent2 size bigObjSlotFootstepExponent / sysPageSize)
  else .small (roundupToTheNextHighestMultipleOfExponent2 size smallObjSlotFootstepExponent / smallObjSlotFootstepSize)

theorem get_eq {size : ℕ} (h1 : 1 ≤ size) (h2 : size ≤ bulkObjThreshold) :
    Pool.hasSlot (slotFor size) ∧ size ≤ (slotFor size).slotSize ∧
      ∀ (s : Pool) (ptr first : ℕ), s.get size ptr first =
        s.getSlotObj (slotFor size) (slotFor size).type (slotFor size).slotSize (slotFor size).onePageSize
          size ptr first := by
  have hlt : size < 2 ^ 32 := h2.trans_lt (by decide)
  have h5 := roundup_eq size 5 hlt (by norm_num) (by norm_num)
  have h12 := roundup_eq size 12 hlt (by norm_num) (by norm_num)
  have hzero : size ≠ 0 := by omega
  unfold slotFor Pool.get
  simp only [if_neg hzero]
  by_cases htiny : size ≤ tinyObjThreshold
  · simp only [if_pos htiny]
    exact ⟨trivial, htiny, fun _ _ _ => rfl⟩
  · simp only [if_neg htiny, if_pos h2]
    by_cases hbig : bigObjThreshold < size
    · simp only [if_pos hbig, bigObjSlotFootstepExponent]
      unfold bulkObjThreshold at h2
      unfold bigObjThreshold sysPageSize at hbig
      norm_num at h12
      have hexact : sysPageSize * (roundupToTheNextHighestMultipleOfExponent2 size 12 / sysPageSize) =
          roundupToTheNextHighestMultipleOfExponent2 size 12 := by
        unfold sysPageSize
        split_ifs at h12 <;> omega
      refine ⟨?_, ?_, fun _ _ _ => ?_⟩
      · unfold Pool.hasSlot bulkObjThreshold sysPageSize
        split_ifs at h12 <;> omega
      · rw [SlotId.slotSize, hexact]
        split_ifs at h12 <;> omega
      · simp only [SlotId.type, SlotId.slotSize, SlotId.onePageSize, hexact]
    · simp only [if_neg hbig, smallObjSlotFootstepExponent]
      unfold bigObjThreshold sysPageSize at hbig
      unfold tinyObjThreshold at htiny
      norm_num at h5
      have hexact : smallObjSlotFootstepSize *
          (roundupToTheNextHighestMultipleOfExponent2 size 5 / smallObjSlotFootstepSize) =
          roundupToTheNextHighestMultipleOfExponent2 size 5 := by
        unfold smallObjSlotFootstepSize
        split_ifs at h5 <;> omega
      refine ⟨?_, ?_, fun _ _ _ => ?_⟩
      · unfold Pool.hasSlot bigObjThreshold sysPageSize smallObjSlotFootstepSize
        split_ifs at h5 <;> omega
      · rw [SlotId.slotSize, hexact]
        split_ifs at h5 <;> omega
      · simp only [SlotId.type, SlotId.slotSize, SlotId.onePageSize, hexact]

/-- Requests up to the bulk threshold, with a fresh region whenever `posix_memalign` is called;
a live object is put back. -/
def Allowed (s : Pool) : Event → Prop
  | .get size ptr _ => (1 ≤ size ∧ size ≤ bulkObjThreshold) ∧
      ((s.slots (slotFor size)).objs.entries = [] → Fresh s ptr (slotFor size).onePageSize)
  | .put handle _ => ∃ t ∈ s.live, t.handle = handle

instance (s : Pool) (ptr bytes : ℕ) : Decidable (Fresh s ptr bytes) :=
  decidable_of_iff (ptr ≠ 0 ∧ ptr % sysPageSize = 0 ∧ ∀ r ∈ s.heap, Region.Apart ⟨ptr, bytes⟩ r)
    ⟨fun h => ⟨h.1, h.2.1, h.2.2⟩, fun h => ⟨h.nonnull, h.aligned, h.apart⟩⟩

instance decidableAllowed (s : Pool) : DecidablePred (Allowed s)
  | .get _ _ _ => inferInstanceAs (Decidable (_ ∧ (_ → _)))
  | .put handle _ => inferInstanceAs (Decidable (∃ t ∈ s.live, t.handle = handle))

def Event.isGet : Event → Bool
  | .get _ _ _ => true
  | .put _ _ => false

def Event.getsTiny : Event → Bool
  | .get size _ _ => size ≤ tinyObjThreshold
  | .put _ _ => false

/-- A step that is allowed goes through; a `Get` returns an object. -/
theorem SlotsOk.step {used : Prop} {s : Pool} (hs : SlotsOk used s) {e : Event} (he : Allowed s e) :
    ∃ u r, s.step e = some (u, r) ∧ SlotsOk (used ∨ e.getsTiny = true) u ∧ (e.isGet = true → r.isSome = true) := by
  cases e with
  | get size ptr first =>
    obtain ⟨⟨h1, h2⟩, hfresh⟩ := he
    obtain ⟨hid, hsize, hget⟩ := get_eq h1 h2
    obtain ⟨u, h, hu, hok⟩ := hs.getSlotObj hid first hfresh hsize
    have htiny : (Event.get size ptr first).getsTiny = true ↔ slotFor size = .tiny := by
      unfold Event.getsTiny slotFor
      split_ifs with hle
      · simp [hle]
      · simp [hle]
      · simp [hle]
    rw [← htiny] at hok
    exact ⟨u, some h, (hget s ptr first).trans hu, hok, fun _ => rfl⟩
  | put handle first =>
    obtain ⟨t, ht, rfl⟩ := he
    obtain ⟨u, hu, hok⟩ := hs.put ht first
    refine ⟨u, none, by rw [Pool.step, hu]; rfl, ?_, nofun⟩
    simpa [Event.getsTiny] using hok

/-! ## Safety -/

structure SlabSafe (s : Pool) : Prop where
  sized : ∀ t ∈ s.live, s.memObjs[t.handle]? = some t.obj ∧ t.size ≤ t.obj.slotSize
  inside : ∀ t ∈ s.live, ∃ r ∈ s.heap, t.obj.region.Within r
  apart : s.live.Pairwise fun t u => t.obj.region.Apart u.obj.region
  nodup : ∀ id, (allFree (s.slots id).objs).Nodup
  free : ∀ id, ∀ t ∈ s.live, t.obj.objPv ∉ allFree (s.slots id).objs
  nonempty : ∀ id p l, (s.slots id).objs.lookup p = some l → l ≠ []

theorem SlotsOk.safe {used : Prop} {s : Pool} (hs : SlotsOk used s) : SlabSafe s where
  sized t ht := ⟨hs.slabs.records.kept t ht, hs.slabs.asked t ht⟩
  inside _ ht := hs.slabs.inside ht
  apart := hs.slabs.apart
  nodup id := hs.slabs.carved.nodup_allFree (hs.slabs.cut id)
  free id _ ht := hs.slabs.live_notMem_free id ht
  nonempty id p l hl := ((hs.slabs.cut id).keys p l hl).2

theorem SlotsOk.counted_iff {used : Prop} {s : Pool} (hs : SlotsOk used s) {id : SlotId} (hused : id = .tiny → used) :
    (s.slots id).cnt = (allFree (s.slots id).objs).length ↔ (allFree (s.slots id).objs).length < 2 ^ 32 := by
  rcases hs.counted id with ⟨htiny, hnot, -⟩ | hcnt
  · exact absurd (hused htiny) hnot
  · rw [hcnt]
    exact Nat.mod_eq_iff_lt (by norm_num)

/-- Every allowed sequence of requests runs, and leaves the slots of tiny, small and big objects
safe. The counter of a slot is right exactly as long as it has less than 2^32 free objects. -/
theorem slab_safe (freeTinyObjsCnt nprocs : ℕ) {es : List Event}
    (hallowed : Along Pool.step Allowed (start freeTinyObjsCnt nprocs) es) :
    ∃ s rs, run Pool.step (start freeTinyObjsCnt nprocs) es = some (s, rs) ∧ SlabSafe s ∧
      (∀ x ∈ es.zip rs, x.1.isGet = true → x.2.isSome = true) ∧
      ∀ id, (id = .tiny → ∃ e ∈ es, e.getsTiny = true) →
        ((s.slots id).cnt = (allFree (s.slots id).objs).length ↔
          (allFree (s.slots id).objs).length < 2 ^ 32) := by
  obtain ⟨s, rs, hrun, hok, hreturned⟩ := run_along (P := Allowed)
    (I := fun s tr => SlotsOk (∃ x ∈ tr, x.1.getsTiny = true) s ∧
      ∀ x ∈ tr, x.1.isGet = true → x.2.isSome = true)
    (fun s tr e hI he => by
      obtain ⟨u, r, hu, hok, hr⟩ := hI.1.step he
      refine ⟨u, r, hu, ?_, fun x hx => ?_⟩
      · have hused : (∃ x ∈ tr ++ [(e, r)], x.1.getsTiny = true) ↔
            (∃ x ∈ tr, x.1.getsTiny = true) ∨ e.getsTiny = true := by simp [or_and_right, exists_or]
        rw [hused]
        exact hok
      · rcases List.mem_append.mp hx with hx | hx
        · exact hI.2 x hx
        · rw [List.mem_singleton.mp hx]
          exact hr)
    [] ⟨by simpa using slotsOk_start freeTinyObjsCnt nprocs, nofun⟩ hallowed
  refine ⟨s, rs, hrun, hok.safe, hreturned, fun id htiny => hok.counted_iff fun hid => ?_⟩
  obtain ⟨e, he, hget⟩ := htiny hid
  have hfst : (es.zip rs).map Prod.fst = es := List.map_fst_zip (length_run hrun).ge
  rw [← hfst] at he
  obtain ⟨x, hx, rfl⟩ := List.mem_map.mp he
  exact ⟨x, hx, hget⟩

def threeClasses : List Event :=
  [.get 16 4096 0, .get 100 8192 0, .get 5000 65536 0, .put 1 0, .get 120 0 0]

theorem slab_safe_three : Along Pool.step Allowed (start 99 4) threeClasses ∧
    ∃ s rs, run Pool.step (start 99 4) threeClasses = some (s, rs) ∧ SlabSafe s ∧
      ((s.slots .tiny).cnt = (allFree (s.slots .tiny).objs).length ↔
        (allFree (s.slots .tiny).objs).length < 2 ^ 32) := by
  have hallowed : Along Pool.step Allowed (start 99 4) threeClasses := by decide +kernel
  obtain ⟨s, rs, hrun, hsafe, -, hcounted⟩ := slab_safe 99 4 hallowed
  exact ⟨hallowed, s, rs, hrun, hsafe, hcounted .tiny fun _ => ⟨_, List.mem_cons_self, rfl⟩⟩

end FlyingKV.MemPool
