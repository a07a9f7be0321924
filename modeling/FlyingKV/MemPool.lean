import FlyingKV.EventRun
import FlyingKV.MemPoolSize
import FlyingKV.OrderedMap
import FlyingKV.Slab

set_option autoImplicit false

/-!
# `MemPool`

A default-constructed pool on a system with pages of 4096 bytes. Pointers are numbers and 0 is the
null pointer. A hash map is iterated from an arbitrary element on; nothing depends on the rest of
the order, since every loop over one ends at its first match. What `posix_memalign` returns is a
part of the event. Dereferencing a missing element, a failed assertion and a division by zero end
the process.
-/
namespace FlyingKV.MemPool
open Slab OrderedMap

def smallObjSlotFootstepSize : ℕ := 32
def bigObjThreshold : ℕ := sysPageSize
def oneSlotTinyObjResidentCnts : ℕ := 512
def oneSlotSmallObjResidentCnts : ℕ := 256
def oneSlotBigObjResidentCnts : ℕ := 128
def availableReserveBulkObjMaxSize : ℕ := 1048576
def expandObjCntFactor : ℕ := 32
def expandBulkObjCntFactor : ℕ := 4

inductive MemObjectType where
  | Tiny
  | Small
  | Big
  | Bulk
deriving DecidableEq, Repr

structure MemObject where
  type : MemObjectType
  slotSize : ℕ
  objPv : ℕ
  objPagePv : ℕ
deriving DecidableEq, Repr

/-- The slots of tiny, small and big objects. -/
inductive SlotId where
  | tiny
  | small (idx : ℕ)
  | big (idx : ℕ)
deriving DecidableEq, Repr

/-- The pages of a slot and its `SlotObjPage`. -/
structure ObjSlot where
  pages : Finset ℕ
  objs : FreeTable
  cnt : ℕ
deriving DecidableEq

/-- A `SlotObjPage` in `m_free_hash_bulk_objs`, with the address of its node. -/
structure BulkNode where
  node : ℕ
  objs : FreeTable
  cnt : ℕ
deriving DecidableEq

def slotOrder : Comparator ℕ where
  less a b := decide (a < b)
  irrefl a := by simp
  trans a b c hab hbc := by simp only [decide_eq_true_eq] at *; omega
  total a b hab hba := by simp only [decide_eq_false_iff_not] at *; omega

/-- A `MemObject` in the hands of a user, with the size that was asked for. -/
structure Taken where
  handle : ℕ
  size : ℕ
  obj : MemObject
deriving DecidableEq, Repr

/-- `memObjs` are all `MemObject`s there are and `heap` all regions from `posix_memalign` that are
not freed; `live` is kept for reference. -/
structure Pool where
  slots : SlotId → ObjSlot
  bulkObjPages : AList fun _ : ℕ => Finset ℕ
  freeHashBulkObjs : AList fun _ : ℕ => BulkNode
  freeBulkObjs : NodeMap slotOrder ℕ
  nextNode : ℕ
  oneSlotBulkObjResidentCnts : ℕ
  memObjs : List MemObject
  freeMemObjs : List ℕ
  heap : List Region
  live : List Taken

/-- The constructor leaves `m_free_tiny_objs_cnt` as it is. -/
def start (freeTinyObjsCnt nprocs : ℕ) : Pool where
  slots
    | .tiny => ⟨∅, ∅, freeTinyObjsCnt⟩
    | _ => ⟨∅, ∅, 0⟩
  bulkObjPages := ∅
  freeHashBulkObjs := ∅
  freeBulkObjs := .empty
  nextNode := 0
  oneSlotBulkObjResidentCnts := nprocs
  memObjs := []
  freeMemObjs := []
  heap := []
  live := []

def genExpandSlotPageSize (objSize expandObjCntFactor pageSize : ℕ) : ℕ :=
  let expandCalSize := (objSize * expandObjCntFactor) % 2 ^ 32
  let pageCnt := expandCalSize / pageSize
  let pageCnt := if expandCalSize % pageSize = 0 then pageCnt else pageCnt + 1
  (pageCnt * pageSize) % 2 ^ 32

/-- Division in the source; none when it traps. -/
def quotient (a b : ℕ) : Option ℕ := if b = 0 then none else some (a / b)

def splitMemPage (slotSize pagePv pageSize : ℕ) : Option (List ℕ) :=
  (quotient pageSize slotSize).map fun cnt =>
    (List.range cnt).map fun i => pagePv + (slotSize * i) % 2 ^ 32

/-- `alloc_page_objs`; the first component is its result. -/
def allocPageObjs (ptr size slotSize : ℕ) (pages : Finset ℕ) (freeObjs : FreeTable) (heap : List Region) :
    Option (Bool × Finset ℕ × FreeTable × List Region) :=
  if ptr = 0 then some (false, pages, freeObjs, heap)
  else
    (splitMemPage slotSize ptr size).map fun splitObjs =>
      (true, insert ptr pages, freeObjs.insert ptr splitObjs, heap ++ [⟨ptr, size⟩])

/-- `get_free_obj_from_slot_page`: the rest, the page and the object. -/
def getFreeObjFromSlotPage (first : ℕ) (pages : FreeTable) : Option (FreeTable × ℕ × ℕ) :=
  match (pages.entries.rotate first).head? with
  | none => some (pages, 0, 0)
  | some ⟨_, []⟩ => none
  | some ⟨page, obj :: rest⟩ => some (takeFree pages page rest, page, obj)

/-- `free`. -/
def freeRegion (heap : List Region) (ptr : ℕ) : Option (List Region) :=
  if ∃ r ∈ heap, r.base = ptr then some (heap.filter fun r => r.base ≠ ptr) else none

/-- The first page with so many free objects. -/
def fullPage (first onePageObjsCnt : ℕ) (objs : FreeTable) : Option ℕ :=
  ((objs.entries.rotate first).find? fun e => e.2.length = onePageObjsCnt).map Sigma.fst

/-! ## Tiny, small and big objects -/

/-- A slot without free objects gets a page. -/
def ObjSlot.expand (slot : ObjSlot) (heap : List Region) (slotSize onePageSize ptr : ℕ) :
    Option (ObjSlot × List Region) :=
  if slot.objs.entries = [] then
    (allocPageObjs ptr onePageSize slotSize slot.pages slot.objs heap).map fun r =>
      (⟨r.2.1, r.2.2.1, if r.1 then onePageSize / slotSize else slot.cnt⟩, r.2.2.2)
  else some (slot, heap)

/-- `put` of an object of the slot. -/
def ObjSlot.put (slot : ObjSlot) (heap : List Region) (slotSize onePageSize residentCnts objPv objPagePv first : ℕ) :
    Option (ObjSlot × List Region) :=
  let objs := slot.objs.insert objPagePv (freeOf slot.objs objPagePv ++ [objPv])
  let cnt := (slot.cnt + 1) % 2 ^ 32
  (quotient onePageSize slotSize).bind fun onePageObjsCnt =>
    if residentCnts + onePageObjsCnt ≤ cnt then
      match fullPage first onePageObjsCnt objs with
      | some freePtr =>
        (freeRegion heap freePtr).map fun heap =>
          (⟨slot.pages.erase freePtr, objs.erase freePtr, (cnt + 2 ^ 32 - onePageObjsCnt) % 2 ^ 32⟩, heap)
      | none => some (⟨slot.pages, objs, cnt⟩, heap)
    else some (⟨slot.pages, objs, cnt⟩, heap)

namespace Pool

def getMemObject (s : Pool) (size : ℕ) (obj : MemObject) : Pool × Option ℕ :=
  match s.freeMemObjs with
  | [] =>
    ({ s with memObjs := s.memObjs ++ [obj], live := s.live ++ [⟨s.memObjs.length, size, obj⟩] },
      some s.memObjs.length)
  | handle :: rest =>
    ({ s with
      memObjs := s.memObjs.set handle obj
      freeMemObjs := rest
      live := s.live ++ [⟨handle, size, obj⟩] }, some handle)

/-- The slots the constructor makes. -/
def hasSlot : SlotId → Prop
  | .tiny => True
  | .small idx => 1 ≤ idx ∧ idx ≤ bigObjThreshold / smallObjSlotFootstepSize
  | .big idx => 1 ≤ idx ∧ idx ≤ bulkObjThreshold / sysPageSize

instance : DecidablePred hasSlot
  | .tiny => isTrue trivial
  | .small _ => inferInstanceAs (Decidable (_ ∧ _))
  | .big _ => inferInstanceAs (Decidable (_ ∧ _))

/-- `Get` in a slot of its own. -/
def getSlotObj (s : Pool) (id : SlotId) (type : MemObjectType) (slotSize onePageSize size ptr first : ℕ) :
    Option (Pool × Option ℕ) :=
  if hasSlot id then
    ((s.slots id).expand s.heap slotSize onePageSize ptr).bind fun e =>
      (getFreeObjFromSlotPage first e.1.objs).map fun g =>
        let s := { s with heap := e.2 }
        if g.2.2 = 0 then
          ({ s with slots := Function.update s.slots id { e.1 with objs := g.1 } }, none)
        else
          let cnt := (e.1.cnt + 2 ^ 32 - 1) % 2 ^ 32
          let s := { s with slots := Function.update s.slots id { e.1 with objs := g.1, cnt := cnt } }
          s.getMemObject size ⟨type, slotSize, g.2.2, g.2.1⟩
  else none

def putSlotObj (s : Pool) (id : SlotId) (slotSize onePageSize residentCnts objPv objPagePv first : ℕ) :
    Option Pool :=
  if hasSlot id then
    ((s.slots id).put s.heap slotSize onePageSize residentCnts objPv objPagePv first).map fun r =>
      { s with slots := Function.update s.slots id r.1, heap := r.2 }
  else none

/-! ## Bulk objects -/

/-- Where a pointer in `m_free_bulk_objs` leads. -/
def derefBulk (s : Pool) (node : ℕ) : Option (ℕ × BulkNode) :=
  (s.freeHashBulkObjs.entries.find? fun e => e.2.node = node).map fun e => (e.1, e.2)

/-- The object at the begin of a table and the table without it. -/
def beginObj (first : ℕ) (objs : FreeTable) : Option (FreeTable × ℕ × ℕ) :=
  match (objs.entries.rotate first).head? with
  | some ⟨page, obj :: rest⟩ => some (takeFree objs page rest, page, obj)
  | _ => none

def setBulk (s : Pool) (idx : ℕ) (n : BulkNode) : Pool :=
  { s with freeHashBulkObjs := s.freeHashBulkObjs.insert idx n }

def eraseBulk (s : Pool) (idx : ℕ) : Pool :=
  { s with freeHashBulkObjs := s.freeHashBulkObjs.erase idx, freeBulkObjs := s.freeBulkObjs.erase idx }

/-- What `get_suitable_bulk_page` finds. -/
structure Suitable where
  slotIdx : ℕ
  objPv : ℕ
  pagePv : ℕ
deriving DecidableEq, Repr

def unsuitable : Suitable := ⟨0, 0, 0⟩

/-- The object is taken out of a larger slot at element `x` of `m_free_bulk_objs`. The slot that it
drains is erased from both maps, from the second one under the key of the iterator `it`, which is
dereferenced again. -/
def takeLarger (s : Pool) (first : ℕ) (x : Node ℕ ℕ) (it : NodeMap slotOrder ℕ → Option ℕ) :
    Option (Pool × Suitable) :=
  (s.derefBulk x.val).bind fun d =>
    (beginObj first d.2.objs).bind fun g =>
      let s := s.setBulk d.1 { d.2 with objs := g.1 }
      if g.1.entries = [] then
        let freeBulkObjs := s.freeBulkObjs.erase x.key
        (it freeBulkObjs).bind fun addr =>
          (NodeMap.nodeAt addr freeBulkObjs.nodes).map fun y =>
            ({ s with
              freeBulkObjs := freeBulkObjs
              freeHashBulkObjs := s.freeHashBulkObjs.erase y.1.key }, ⟨x.key, g.2.2, g.2.1⟩)
      else some (s, ⟨x.key, g.2.2, g.2.1⟩)

/-- The float product is exact for all slots there are. -/
def getSuitableBulkPage (s : Pool) (first needSlotIdx : ℕ) : Option (Pool × Suitable) :=
  match s.freeHashBulkObjs.lookup needSlotIdx with
  | some n =>
    (beginObj first n.objs).map fun g =>
      (if g.1.entries = [] then s.eraseBulk needSlotIdx else s.setBulk needSlotIdx { n with objs := g.1 },
        ⟨needSlotIdx, g.2.2, g.2.1⟩)
  | none =>
    match s.freeBulkObjs.nodes.head?, s.freeBulkObjs.nodes.getLast? with
    | some slotBegin, some last =>
      let maxPageSize := needSlotIdx * 2
      if last.key < needSlotIdx then some (s, unsuitable)
      else if needSlotIdx < slotBegin.key then
        if maxPageSize < slotBegin.key then some (s, unsuitable)
        else s.takeLarger first slotBegin fun _ => some slotBegin.addr
      else
        match s.freeBulkObjs.nodes.reverse.find? fun x => needSlotIdx < x.key ∧ x.key ≤ maxPageSize with
        | none => some (s, unsuitable)
        | some x =>
          -- a reverse iterator holds the element behind the one it refers to
          s.takeLarger first x fun m => m.prev ((NodeMap.nodeAt x.addr s.freeBulkObjs.nodes).bind Prod.snd)
    | _, _ => some (s, unsuitable)

/-- `operator[]` of `m_free_hash_bulk_objs`, then an assignment to the element. -/
def assignBulk (s : Pool) (idx : ℕ) (objs : FreeTable) : Pool :=
  match s.freeHashBulkObjs.lookup idx with
  | some n => s.setBulk idx ⟨n.node, objs, 0⟩
  | none => { s.setBulk idx ⟨s.nextNode, objs, 0⟩ with nextNode := s.nextNode + 1 }

/-- The address of the element goes to `m_free_bulk_objs`. -/
def linkBulk (s : Pool) (idx : ℕ) : Option Pool :=
  (s.freeHashBulkObjs.lookup idx).map fun n => { s with freeBulkObjs := s.freeBulkObjs.assign idx n.node }

def expandBulk (s : Pool) (needPageSize needSlotIdx ptr : ℕ) : Option Pool :=
  let expandPageSize :=
    if needPageSize < availableReserveBulkObjMaxSize then
      genExpandSlotPageSize needPageSize expandBulkObjCntFactor sysPageSize
    else needPageSize
  ((s.assignBulk needSlotIdx ∅).linkBulk needSlotIdx).bind fun s =>
    (s.freeHashBulkObjs.lookup needSlotIdx).bind fun n =>
      (allocPageObjs ptr expandPageSize needPageSize ∅ n.objs s.heap).map fun r =>
        let s := { s with bulkObjPages := s.bulkObjPages.insert needSlotIdx r.2.1, heap := r.2.2.2 }
        if r.1 then s.setBulk needSlotIdx ⟨n.node, r.2.2.1, expandPageSize / needPageSize⟩
        else s.eraseBulk needSlotIdx

def getBulkObj (s : Pool) (size ptr first : ℕ) : Option (Pool × Option ℕ) :=
  let needPageSize := roundupToTheNextHighestMultipleOfExponent2 size bulkObjSlotFootstepExponent
  let needSlotIdx := needPageSize / sysPageSize
  (s.getSuitableBulkPage first needSlotIdx).bind fun found =>
    (if found.2.objPv = 0 then
      (found.1.expandBulk needPageSize needSlotIdx ptr).bind fun s => s.getSuitableBulkPage first needSlotIdx
    else some found).map fun found =>
      if found.2.objPv = 0 then (found.1, none)
      else
        let s := match found.1.freeHashBulkObjs.lookup found.2.slotIdx with
          | some n => found.1.setBulk found.2.slotIdx { n with cnt := (n.cnt + 2 ^ 32 - 1) % 2 ^ 32 }
          | none => found.1
        s.getMemObject size
          ⟨.Bulk, (found.2.slotIdx * sysPageSize) % 2 ^ 32, found.2.objPv, found.2.pagePv⟩

/-- An object that is too large to be kept goes with its page. -/
def dropBulkObj (s : Pool) (slotIdx objPagePv : ℕ) : Option Pool :=
  (s.bulkObjPages.lookup slotIdx).bind fun pages =>
    (freeRegion s.heap objPagePv).map fun heap =>
      let pages := pages.erase objPagePv
      { s with
        heap := heap
        bulkObjPages := if pages = ∅ then s.bulkObjPages.erase slotIdx else s.bulkObjPages.insert slotIdx pages }

def keepBulkObj (s : Pool) (slotIdx slotSize objPv objPagePv first : ℕ) : Option Pool :=
  (match s.freeHashBulkObjs.lookup slotIdx with
    | some _ => some s
    | none => (s.assignBulk slotIdx ((∅ : FreeTable).insert objPagePv [])).linkBulk slotIdx).bind fun s =>
  (s.freeHashBulkObjs.lookup slotIdx).bind fun n =>
  (quotient (genExpandSlotPageSize slotSize expandBulkObjCntFactor sysPageSize) slotSize).bind fun onePageObjsCnt =>
    let objs := n.objs.insert objPagePv (freeOf n.objs objPagePv ++ [objPv])
    let cnt := (n.cnt + 1) % 2 ^ 32
    let kept := s.setBulk slotIdx ⟨n.node, objs, cnt⟩
    if s.oneSlotBulkObjResidentCnts + onePageObjsCnt ≤ cnt then
      match fullPage first onePageObjsCnt objs with
      | none => some kept
      | some freePtr =>
        (freeRegion s.heap freePtr).map fun heap =>
          let cnt := (cnt + 2 ^ 32 - onePageObjsCnt) % 2 ^ 32
          let pages := ((s.bulkObjPages.lookup slotIdx).getD ∅).erase freePtr
          let s := { s.setBulk slotIdx ⟨n.node, objs.erase freePtr, cnt⟩ with
            heap := heap
            bulkObjPages := s.bulkObjPages.insert slotIdx pages }
          if cnt = 0 then s.eraseBulk slotIdx else s
    else some kept

/-! ## `Get` and `Put` -/

def get (s : Pool) (size ptr first : ℕ) : Option (Pool × Option ℕ) :=
  if size = 0 then none
  else if size ≤ tinyObjThreshold then
    s.getSlotObj .tiny .Tiny tinyObjThreshold sysPageSize size ptr first
  else if size ≤ bulkObjThreshold then
    if bigObjThreshold < size then
      let slotSize := roundupToTheNextHighestMultipleOfExponent2 size bigObjSlotFootstepExponent
      s.getSlotObj (.big (slotSize / sysPageSize)) .Big slotSize
        (genExpandSlotPageSize slotSize expandObjCntFactor sysPageSize) size ptr first
    else
      let slotSize := roundupToTheNextHighestMultipleOfExponent2 size smallObjSlotFootstepExponent
      s.getSlotObj (.small (slotSize / smallObjSlotFootstepSize)) .Small slotSize
        (genExpandSlotPageSize slotSize expandObjCntFactor sysPageSize) size ptr first
  else s.getBulkObj size ptr first

/-- The private `put`. -/
def putObj (s : Pool) (obj : MemObject) (first : ℕ) : Option Pool :=
  match obj.type with
  | .Tiny =>
    s.putSlotObj .tiny tinyObjThreshold sysPageSize oneSlotTinyObjResidentCnts obj.objPv obj.objPagePv first
  | .Small =>
    s.putSlotObj (.small (obj.slotSize / smallObjSlotFootstepSize)) obj.slotSize
      (genExpandSlotPageSize obj.slotSize expandObjCntFactor sysPageSize) oneSlotSmallObjResidentCnts
      obj.objPv obj.objPagePv first
  | .Big =>
    s.putSlotObj (.big (obj.slotSize / sysPageSize)) obj.slotSize
      (genExpandSlotPageSize obj.slotSize expandObjCntFactor sysPageSize) oneSlotBigObjResidentCnts
      obj.objPv obj.objPagePv first
  | .Bulk =>
    let slotIdx := obj.slotSize / sysPageSize
    if availableReserveBulkObjMaxSize < obj.slotSize then s.dropBulkObj slotIdx obj.objPagePv
    else s.keepBulkObj slotIdx obj.slotSize obj.objPv obj.objPagePv first

def put (s : Pool) (handle first : ℕ) : Option Pool :=
  (s.memObjs[handle]?).bind fun obj =>
    (s.putObj obj first).map fun s =>
      { s with
        freeMemObjs := s.freeMemObjs ++ [handle]
        live := s.live.filter fun t => t.handle ≠ handle }

end Pool

/-- `first` says where the iteration of a hash map begins, `ptr` is what `posix_memalign` returns. -/
inductive Event where
  | get (size ptr first : ℕ)
  | put (handle first : ℕ)
deriving DecidableEq, Repr

/-- A reply is the object, or null. -/
def Pool.step (s : Pool) : Event → Option (Pool × Option ℕ)
  | .get size ptr first => s.get size ptr first
  | .put handle first => (s.put handle first).map (·, none)

end FlyingKV.MemPool
