import FlyingKV.MemPoolSizes
import FlyingKV.PageLedger

set_option autoImplicit false

/-!
# The pool as a ledger of pages

The slots of all classes side by side: their free objects, their counters and the users' objects make
a ledger. Unlike the invariants of the single classes it says nothing of the sets of pages, which a
refilled bulk slot forgets, and it allows for free objects that are lost with the element of a slot.
-/
namespace FlyingKV.MemPool
open Slab OrderedMap PageLedger

inductive Slot where
  | own (id : SlotId)
  | bulk (k : ℕ)
deriving DecidableEq, Repr

namespace Slot

def shape : Slot → Shape
  | .own id => id.shape
  | .bulk k => bulkShape k

def perPage (i : Slot) : ℕ := i.shape.count

def type : Slot → MemObjectType
  | .own id => id.type
  | .bulk _ => .Bulk

def slotSize : Slot → ℕ
  | .own id => id.slotSize
  | .bulk k => sysPageSize * k

def Valid : Slot → Prop
  | .own id => Pool.hasSlot id
  | .bulk k => InRange k

theorem perPage_pos {i : Slot} (h : i.Valid) : 0 < i.perPage := by
  cases i with
  | own id => exact (shape_ok h).count_pos
  | bulk k => exact (bulkShape_ok h).count_pos

theorem perPage_lt {i : Slot} (h : i.Valid) : i.perPage < 2 ^ 32 := by
  cases i with
  | own id => exact (Nat.div_le_self _ _).trans_lt (onePageSize_bounds h).2
  | bulk k => exact (Nat.div_le_self _ _).trans_lt (bulkBytes_bounds h).2

end Slot

namespace MemObject

/-- The slot `put` finds for an object. -/
def slotOf (obj : MemObject) : Slot :=
  match obj.type with
  | .Tiny => .own .tiny
  | .Small => .own (.small (obj.slotSize / smallObjSlotFootstepSize))
  | .Big => .own (.big (obj.slotSize / sysPageSize))
  | .Bulk => .bulk (obj.slotSize / sysPageSize)

structure Of (obj : MemObject) (i : Slot) : Prop where
  valid : i.Valid
  type : obj.type = i.type
  size : obj.slotSize = i.slotSize

theorem Of.slotOf_eq {obj : MemObject} {i : Slot} (h : obj.Of i) : obj.slotOf = i := by
  unfold slotOf
  rw [h.type, h.size]
  cases i with
  | own id =>
    cases id with
    | tiny => rfl
    | small idx => exact congrArg (fun j => Slot.own (.small j)) (Nat.mul_div_cancel_left _ (by decide))
    | big idx => exact congrArg (fun j => Slot.own (.big j)) (Nat.mul_div_cancel_left _ (by decide))
  | bulk k => exact congrArg Slot.bulk (Nat.mul_div_cancel_left _ (by decide))

end MemObject

namespace Pool

def bulkCnt (s : Pool) (k : ℕ) : ℕ := ((s.freeHashBulkObjs.lookup k).map BulkNode.cnt).getD 0

/-- The free objects of a slot and their counter. -/
def table (s : Pool) : Slot → FreeTable × ℕ
  | .own id => ((s.slots id).objs, (s.slots id).cnt)
  | .bulk k => (s.bulkFree k, s.bulkCnt k)

def resident (s : Pool) : Slot → ℕ
  | .own id => id.residentCnts
  | .bulk _ => s.oneSlotBulkObjResidentCnts

def ledger (s : Pool) : Ledger Slot ℕ where
  free i := pagesOf (s.table i).1
  live := ↑(s.live.map fun t => (t.obj.slotOf, t.obj.objPagePv))
  held := {p | ∃ r ∈ s.heap, r.base = p}
  cnt i := (s.table i).2

end Pool

/-! ## Changes of one slot -/

section
variable {s u : Pool}

theorem bulkCnt_of_lookup {k : ℕ} {n : BulkNode} (h : s.freeHashBulkObjs.lookup k = some n) : s.bulkCnt k = n.cnt := by
  rw [Pool.bulkCnt, h]
  rfl

theorem bulkCnt_of_none {k : ℕ} (h : s.freeHashBulkObjs.lookup k = none) : s.bulkCnt k = 0 := by
  rw [Pool.bulkCnt, h]
  rfl

theorem table_own {id : SlotId} {slot : ObjSlot} (hslots : u.slots = Function.update s.slots id slot)
    (hbulk : u.freeHashBulkObjs = s.freeHashBulkObjs) :
    u.table = Function.update s.table (.own id) (slot.objs, slot.cnt) := by
  funext i
  cases i with
  | own j =>
    by_cases hj : j = id
    · subst hj
      simp only [Pool.table, hslots, Function.update_self]
    · have hne : Slot.own j ≠ .own id := fun h => hj (Slot.own.inj h)
      simp only [Function.update_of_ne hne, Pool.table, hslots, Function.update_of_ne hj]
  | bulk k => simp [Pool.table, Pool.bulkFree, Pool.bulkCnt, hbulk]

theorem table_bulk {k : ℕ} (hslots : u.slots = s.slots)
    (hothers : ∀ j ≠ k, u.freeHashBulkObjs.lookup j = s.freeHashBulkObjs.lookup j) :
    u.table = Function.update s.table (.bulk k) (u.bulkFree k, u.bulkCnt k) := by
  funext i
  cases i with
  | own j => simp [Pool.table, hslots]
  | bulk j =>
    by_cases hj : j = k
    · rw [hj, Function.update_self, Pool.table]
    · have hne : Slot.bulk j ≠ .bulk k := fun h => hj (Slot.bulk.inj h)
      simp only [Function.update_of_ne hne, Pool.table, Pool.bulkFree, Pool.bulkCnt, hothers j hj]

theorem ledger_free_update {i : Slot} {t : FreeTable} {c : ℕ} (h : u.table = Function.update s.table i (t, c)) :
    u.ledger.free = Function.update s.ledger.free i (pagesOf t) := by
  funext j
  simp only [Pool.ledger, h]
  exact Function.apply_update (fun _ x => pagesOf x.1) s.table i (t, c) j

theorem ledger_cnt_update {i : Slot} {t : FreeTable} {c : ℕ} (h : u.table = Function.update s.table i (t, c)) :
    u.ledger.cnt = Function.update s.ledger.cnt i c := by
  funext j
  simp only [Pool.ledger, h]
  exact Function.apply_update (fun _ => Prod.snd) s.table i (t, c) j

end

/-! ## Pointers between the two maps of bulk objects -/

/-- A pointer of the ordered map that leads to an element of the hash map leads to the one of its
own slot. -/
structure Hooked (hash : AList fun _ : ℕ => BulkNode) (ordered : NodeMap slotOrder ℕ) (next : ℕ) : Prop where
  nodes : ∀ k n, hash.lookup k = some n → n.node < next
  hooks : ∀ x ∈ ordered.nodes, x.val < next
  meets : ∀ x ∈ ordered.nodes, ∀ k n, hash.lookup k = some n → n.node = x.val → k = x.key

namespace Hooked
variable {hash : AList fun _ : ℕ => BulkNode} {ordered : NodeMap slotOrder ℕ} {next k : ℕ} {n n' : BulkNode}

theorem empty (next : ℕ) : Hooked ∅ .empty next := ⟨nofun, nofun, nofun⟩

/-- Every element has the address of one that was there. -/
theorem of_nodes {hash' : AList fun _ : ℕ => BulkNode} (hh : Hooked hash ordered next)
    (h : ∀ j m, hash'.lookup j = some m → ∃ m', hash.lookup j = some m' ∧ m'.node = m.node) :
    Hooked hash' ordered next where
  nodes j m hj := by
    obtain ⟨m', hm', hnode⟩ := h j m hj
    exact hnode ▸ hh.nodes j m' hm'
  hooks := hh.hooks
  meets x hx j m hj heq := by
    obtain ⟨m', hm', hnode⟩ := h j m hj
    exact hh.meets x hx j m' hm' (hnode.trans heq)

theorem set (hh : Hooked hash ordered next) (hk : hash.lookup k = some n) (hnode : n'.node = n.node) :
    Hooked (hash.insert k n') ordered next := by
  refine hh.of_nodes fun j m hj => ?_
  rcases lookup_insert_cases hj with ⟨rfl, rfl⟩ | ⟨-, hj⟩
  · exact ⟨n, hk, hnode.symm⟩
  · exact ⟨m, hj, rfl⟩

theorem erase_hash (hh : Hooked hash ordered next) (k : ℕ) : Hooked (hash.erase k) ordered next :=
  hh.of_nodes fun _ m hj => ⟨m, (lookup_erase_cases hj).2, rfl⟩

theorem erase_ordered (hh : Hooked hash ordered next) (k : ℕ) : Hooked hash (ordered.erase k) next where
  nodes := hh.nodes
  hooks x hx := hh.hooks x (List.mem_of_mem_filter hx)
  meets x hx := hh.meets x (List.mem_of_mem_filter hx)

theorem new (hh : Hooked hash ordered next) (k : ℕ) (objs : FreeTable) (cnt : ℕ) :
    Hooked (hash.insert k ⟨next, objs, cnt⟩) (ordered.assign k next) (next + 1) := by
  have hnew : ∀ x ∈ (ordered.assign k next).nodes, x.key = k ∧ x.val = next ∨ x ∈ ordered.nodes := by
    intro x hx
    rcases mem_assignNode _ hx with ⟨hkey, hval, -⟩ | hx
    · exact .inl ⟨hkey, hval⟩
    · exact .inr hx
  refine ⟨fun j m hj => ?_, fun x hx => ?_, fun x hx j m hj heq => ?_⟩
  · rcases lookup_insert_cases hj with ⟨-, rfl⟩ | ⟨-, hj⟩
    · exact Nat.lt_succ_self _
    · exact (hh.nodes j m hj).trans (Nat.lt_succ_self _)
  · rcases hnew x hx with ⟨-, hval⟩ | hx
    · omega
    · exact (hh.hooks x hx).trans (Nat.lt_succ_self _)
  · -- an address from before is below the new one
    rcases lookup_insert_cases hj with ⟨rfl, rfl⟩ | ⟨-, hj⟩
    · rcases hnew x hx with ⟨hkey, -⟩ | hx
      · exact hkey.symm
      · exact absurd heq (hh.hooks x hx).ne'
    · rcases hnew x hx with ⟨-, hval⟩ | hx
      · have := hh.nodes j m hj
        omega
      · exact hh.meets x hx j m hj heq

end Hooked

/-- Where the search follows a pointer it finds the element of the pointer's slot. -/
theorem lookup_of_deref {s : Pool} (hh : Hooked s.freeHashBulkObjs s.freeBulkObjs s.nextNode) {x : Node ℕ ℕ}
    (hx : x ∈ s.freeBulkObjs.nodes) {k : ℕ} {n : BulkNode} (hd : s.derefBulk x.val = some (k, n)) :
    k = x.key ∧ s.freeHashBulkObjs.lookup k = some n := by
  obtain ⟨e, he, heq⟩ := Option.map_eq_some_iff.mp hd
  obtain ⟨rfl, rfl⟩ := Prod.mk.inj heq
  have hlookup : s.freeHashBulkObjs.lookup e.1 = some e.2 := AList.mem_lookup_iff.mpr (List.mem_of_find?_eq_some he)
  have hnode : e.2.node = x.val := by simpa using List.find?_some he
  exact ⟨hh.meets x hx e.1 e.2 hlookup hnode, hlookup⟩

/-! ## Operations on the tables -/

structure SameUsers (s u : Pool) : Prop where
  memObjs : u.memObjs = s.memObjs
  freeMemObjs : u.freeMemObjs = s.freeMemObjs
  live : u.live = s.live
  procs : u.oneSlotBulkObjResidentCnts = s.oneSlotBulkObjResidentCnts

structure Orderly (s : Pool) : Prop where
  sound : s.ledger.Sound Slot.perPage
  records : Records s.memObjs s.freeMemObjs s.live
  cells : ∀ i p, ∀ a ∈ freeOf (s.table i).1 p, a ≠ 0 ∧ i.Valid
  users : ∀ t ∈ s.live, t.obj.objPv ≠ 0 ∧ ∃ i, t.obj.Of i
  hooked : Hooked s.freeHashBulkObjs s.freeBulkObjs s.nextNode
  procs : 0 < s.oneSlotBulkObjResidentCnts

def Pool.Trimmed (s : Pool) (i : Slot) : Prop :=
  s.resident i + i.perPage ≤ (s.table i).2 → ∀ p, (freeOf (s.table i).1 p).length < i.perPage

theorem trimmed_iff {s : Pool} {i : Slot} : s.Trimmed i ↔ s.ledger.Trimmed Slot.perPage s.resident i := by
  unfold Pool.Trimmed Ledger.Trimmed
  simp only [Pool.ledger, count_pagesOf]

section
variable {s u w : Pool} {i : Slot} {p a : ℕ} {rest : List ℕ}

theorem resident_eq (h : u.oneSlotBulkObjResidentCnts = s.oneSlotBulkObjResidentCnts) : u.resident = s.resident := by
  funext i
  cases i with
  | own id => rfl
  | bulk k => exact h

theorem resident_pos (h : 0 < s.oneSlotBulkObjResidentCnts) (i : Slot) : 0 < s.resident i := by
  cases i with
  | own id => cases id <;> simp only [Pool.resident, SlotId.residentCnts] <;> decide
  | bulk k => exact h

namespace Orderly

theorem valid_of_lookup (hs : Orderly s) (hl : (s.table i).1.lookup p = some (a :: rest)) : a ≠ 0 ∧ i.Valid := by
  apply hs.cells i p
  rw [freeOf_of_lookup hl]
  exact List.mem_cons_self

theorem cells_update (hs : Orderly s) {t : FreeTable} {c : ℕ} (htable : u.table = Function.update s.table i (t, c))
    (ht : ∀ q, ∀ b ∈ freeOf t q, b ≠ 0 ∧ i.Valid) : ∀ j q, ∀ b ∈ freeOf (u.table j).1 q, b ≠ 0 ∧ j.Valid := by
  intro j q b hb
  rw [htable] at hb
  by_cases hj : j = i
  · subst hj
    rw [Function.update_self] at hb
    exact ht q b hb
  · rw [Function.update_of_ne hj] at hb
    exact hs.cells j q b hb

theorem grow (hs : Orderly s) (hi : i.Valid) (hp : p ∉ s.ledger.held) (hne : p ≠ 0) (hsame : SameUsers s u) {b : ℕ}
    (hheap : u.heap = s.heap ++ [⟨p, b⟩])
    (htable : u.table = Function.update s.table i ((∅ : FreeTable).insert p (blocks i.shape p), i.perPage))
    (hhooked : Hooked u.freeHashBulkObjs u.freeBulkObjs u.nextNode) :
    u.ledger = s.ledger.grow Slot.perPage i p ∧ Orderly u := by
  have hledger : u.ledger = s.ledger.grow Slot.perPage i p := by
    refine Ledger.ext ?_ ?_ ?_ (ledger_cnt_update htable)
    · rw [ledger_free_update htable, pagesOf_page, length_blocks]
      rfl
    · simp only [Pool.ledger, Ledger.grow, hsame.live]
    · ext q
      simp only [Pool.ledger, Ledger.grow, hheap, Set.mem_ofPred_eq, Set.mem_insert_iff, List.mem_append,
        List.mem_singleton]
      constructor
      · rintro ⟨r, hr | rfl, rfl⟩
        · exact .inr ⟨r, hr, rfl⟩
        · exact .inl rfl
      · rintro (rfl | ⟨r, hr, rfl⟩)
        · exact ⟨_, .inr rfl, rfl⟩
        · exact ⟨r, .inl hr, rfl⟩
  refine ⟨hledger, ?_, ?_, hs.cells_update htable fun q b hb => ⟨?_, hi⟩, ?_, hhooked, hsame.procs ▸ hs.procs⟩
  · rw [hledger]
    exact hs.sound.grow (Slot.perPage_lt hi) hp
  · rw [hsame.memObjs, hsame.freeMemObjs, hsame.live]
    exact hs.records
  · by_cases hq : q = p
    · rw [hq, freeOf_insert] at hb
      obtain ⟨j, -, rfl⟩ := mem_blocks.mp hb
      omega
    · rw [freeOf_insert_ne _ hq] at hb
      cases hb
  · rw [hsame.live]
    exact hs.users

theorem take (hs : Orderly s) (hl : (s.table i).1.lookup p = some (a :: rest)) (hsame : SameUsers s w)
    (hheap : w.heap = s.heap)
    (htable : w.table = Function.update s.table i
      (takeFree (s.table i).1 p rest, ((s.table i).2 + 2 ^ 32 - 1) % 2 ^ 32))
    (hhooked : Hooked w.freeHashBulkObjs w.freeBulkObjs w.nextNode) {obj : MemObject} (hobj : obj.Of i)
    (hpv : obj.objPv = a) (hpage : obj.objPagePv = p) {size : ℕ} {r : Option ℕ}
    (h : w.getMemObject size obj = (u, r)) :
    u.ledger = s.ledger.take i p ∧ Orderly u ∧ u.oneSlotBulkObjResidentCnts = s.oneSlotBulkObjResidentCnts := by
  have hrecords := hs.records
  rw [← hsame.memObjs, ← hsame.freeMemObjs, ← hsame.live] at hrecords
  obtain ⟨k, memObjs, freeMemObjs, heq, hrecords⟩ := hrecords.get size obj
  obtain ⟨hu, -⟩ := Prod.mk.inj (h.symm.trans heq)
  have hmem : p ∈ s.ledger.free i := mem_pagesOf hl
  have hlive : u.live = s.live ++ [⟨k, size, obj⟩] := by rw [hu, ← hsame.live]
  have htable : u.table = Function.update s.table i
      (takeFree (s.table i).1 p rest, ((s.table i).2 + 2 ^ 32 - 1) % 2 ^ 32) := by
    rw [← htable, hu]
    funext j
    cases j <;> rfl
  have hledger : u.ledger = s.ledger.take i p := by
    refine Ledger.ext ?_ ?_ ?_ (ledger_cnt_update htable)
    · rw [ledger_free_update htable, pagesOf_take hl]
      rfl
    · simp only [Pool.ledger, Ledger.take, hlive, List.map_append, List.map_singleton, hobj.slotOf_eq, hpage]
      rw [← Multiset.coe_add, add_comm]
      rfl
    · simp only [Pool.ledger, Ledger.take, hu, hheap]
  have hprocs : u.oneSlotBulkObjResidentCnts = s.oneSlotBulkObjResidentCnts := by rw [hu, ← hsame.procs]
  refine ⟨hledger, ⟨?_, ?_, hs.cells_update htable fun q b hb => ?_, fun t ht => ?_, ?_, hprocs ▸ hs.procs⟩, hprocs⟩
  · rw [hledger]
    exact hs.sound.take hmem
  · rw [hu]
    exact hrecords
  · by_cases hq : q = p
    · rw [hq, freeOf_takeFree] at hb
      apply hs.cells i p
      rw [freeOf_of_lookup hl]
      exact List.mem_cons_of_mem _ hb
    · rw [freeOf_takeFree_ne _ hq] at hb
      exact hs.cells i q b hb
  · rw [hlive] at ht
    rcases List.mem_append.mp ht with ht | ht
    · exact hs.users t ht
    · rw [List.mem_singleton.mp ht]
      exact ⟨hpv ▸ (hs.valid_of_lookup hl).1, i, hobj⟩
  · rw [hu]
    exact hhooked

theorem live_putBack (hs : Orderly s) {t : Taken} (ht : t ∈ s.live) (hof : t.obj.Of i) (hlive : w.live = s.live) :
    (w.putBack t).ledger.live = s.ledger.live.erase (i, t.obj.objPagePv) := by
  have hperm := (perm_filter_handle hs.records.nodup.of_append_left ht).map
    fun t => (t.obj.slotOf, t.obj.objPagePv)
  rw [List.map_cons, hof.slotOf_eq] at hperm
  have heq := Multiset.coe_eq_coe.mpr hperm
  simp only [Pool.ledger, Pool.putBack, hlive]
  rw [heq, ← Multiset.cons_coe, Multiset.erase_cons_head]

theorem mem_live {t : Taken} (ht : t ∈ s.live) (hof : t.obj.Of i) :
    (i, t.obj.objPagePv) ∈ s.ledger.live := by
  simp only [Pool.ledger, Multiset.mem_coe, List.mem_map]
  exact ⟨t, ht, by rw [hof.slotOf_eq]⟩

theorem records_putBack (hs : Orderly s) {t : Taken} (ht : t ∈ s.live) (hsame : SameUsers s w) :
    Records (w.putBack t).memObjs (w.putBack t).freeMemObjs (w.putBack t).live := by
  simp only [Pool.putBack, hsame.memObjs, hsame.freeMemObjs, hsame.live]
  exact hs.records.put ht

theorem users_putBack (hs : Orderly s) {t : Taken} (hlive : w.live = s.live) :
    ∀ x ∈ (w.putBack t).live, x.obj.objPv ≠ 0 ∧ ∃ i, x.obj.Of i := fun x hx =>
  hs.users x (hlive ▸ List.mem_of_mem_filter hx)

theorem give (hs : Orderly s) {t : Taken} (ht : t ∈ s.live) (hof : t.obj.Of i) (hsame : SameUsers s w)
    (hheap : w.heap = s.heap)
    (htable : w.table = Function.update s.table i
      ((s.table i).1.insert t.obj.objPagePv (freeOf (s.table i).1 t.obj.objPagePv ++ [t.obj.objPv]),
        ((s.table i).2 + 1) % 2 ^ 32))
    (hhooked : Hooked w.freeHashBulkObjs w.freeBulkObjs w.nextNode) :
    (w.putBack t).ledger = s.ledger.give i t.obj.objPagePv ∧ Orderly (w.putBack t) := by
  have htables : (w.putBack t).table = w.table := by
    funext j
    cases j <;> rfl
  have hledger : (w.putBack t).ledger = s.ledger.give i t.obj.objPagePv := by
    refine Ledger.ext ?_ (hs.live_putBack ht hof hsame.live) ?_ (ledger_cnt_update (htables.trans htable))
    · rw [ledger_free_update (htables.trans htable), pagesOf_give]
      rfl
    · simp only [Pool.ledger, Pool.putBack, Ledger.give, hheap]
  refine ⟨hledger, ?_, hs.records_putBack ht hsame, hs.cells_update (htables.trans htable) fun q b hb => ?_,
    hs.users_putBack hsame.live, hhooked, hsame.procs ▸ hs.procs⟩
  · rw [hledger]
    exact hs.sound.give (mem_live ht hof)
  · by_cases hq : q = t.obj.objPagePv
    · rw [hq, freeOf_insert] at hb
      rcases List.mem_append.mp hb with hb | hb
      · exact hs.cells i _ b hb
      · rw [List.mem_singleton.mp hb]
        exact ⟨(hs.users t ht).1, hof.valid⟩
    · rw [freeOf_insert_ne _ hq] at hb
      exact hs.cells i q b hb

theorem held_filter {q : ℕ} (hheap : u.heap = s.heap.filter fun r => r.base ≠ q) :
    u.ledger.held = s.ledger.held \ {q} := by
  ext x
  simp only [Pool.ledger, hheap, Set.mem_ofPred_eq, Set.mem_sdiff, Set.mem_singleton_iff, List.mem_filter,
    decide_eq_true_eq]
  constructor
  · rintro ⟨r, ⟨hr, hne⟩, rfl⟩
    exact ⟨⟨r, hr, rfl⟩, hne⟩
  · rintro ⟨⟨r, hr, rfl⟩, hne⟩
    exact ⟨r, ⟨hr, hne⟩, rfl⟩

theorem release (hs : Orderly s) (hi : i.Valid) {q : ℕ} (hfull : (freeOf (s.table i).1 q).length = i.perPage)
    (htable : u.table = Function.update s.table i
      ((s.table i).1.erase q, ((s.table i).2 + 2 ^ 32 - i.perPage) % 2 ^ 32))
    (hsame : SameUsers s u) (hheap : u.heap = s.heap.filter fun r => r.base ≠ q)
    (hhooked : Hooked u.freeHashBulkObjs u.freeBulkObjs u.nextNode) :
    u.ledger = s.ledger.release Slot.perPage i q ∧ Orderly u := by
  have hledger : u.ledger = s.ledger.release Slot.perPage i q := by
    refine Ledger.ext ?_ ?_ (held_filter hheap) (ledger_cnt_update htable)
    · rw [ledger_free_update htable, pagesOf_erase]
      rfl
    · simp only [Pool.ledger, Ledger.release, hsame.live]
  have hcount : (s.ledger.free i).count q = i.perPage := (count_pagesOf _ q).trans hfull
  refine ⟨hledger, ?_, ?_, hs.cells_update htable fun x b hb => ?_, ?_, hhooked, hsame.procs ▸ hs.procs⟩
  · rw [hledger]
    exact hs.sound.release (Slot.perPage_pos hi) (Slot.perPage_lt hi) hcount
  · rw [hsame.memObjs, hsame.freeMemObjs, hsame.live]
    exact hs.records
  · by_cases hx : x = q
    · rw [hx, freeOf_erase] at hb
      cases hb
    · rw [freeOf_erase_ne hx] at hb
      exact hs.cells i x b hb
  · rw [hsame.live]
    exact hs.users

theorem discard (hs : Orderly s) {t : Taken} (ht : t ∈ s.live) (hof : t.obj.Of i) (hone : i.perPage = 1)
    (hsame : SameUsers s w) (hheap : w.heap = s.heap.filter fun r => r.base ≠ t.obj.objPagePv)
    (htable : w.table = s.table) (hhooked : Hooked w.freeHashBulkObjs w.freeBulkObjs w.nextNode) :
    (w.putBack t).ledger = s.ledger.discard i t.obj.objPagePv ∧ Orderly (w.putBack t) := by
  have htables : (w.putBack t).table = s.table := by
    rw [← htable]
    funext j
    cases j <;> rfl
  have hledger : (w.putBack t).ledger = s.ledger.discard i t.obj.objPagePv := by
    refine Ledger.ext ?_ (hs.live_putBack ht hof hsame.live) (held_filter hheap) ?_
    · simp only [Pool.ledger, Ledger.discard, htables]
    · simp only [Pool.ledger, Ledger.discard, htables]
  refine ⟨hledger, ?_, hs.records_putBack ht hsame, ?_, hs.users_putBack hsame.live, hhooked,
    hsame.procs ▸ hs.procs⟩
  · rw [hledger]
    exact hs.sound.discard hone (mem_live ht hof)
  · rw [htables]
    exact hs.cells

theorem forget (hs : Orderly s) (k : ℕ) :
    ({ s with freeHashBulkObjs := s.freeHashBulkObjs.erase k } : Pool).ledger = s.ledger.forget (.bulk k) ∧
      Orderly { s with freeHashBulkObjs := s.freeHashBulkObjs.erase k } := by
  have htable : ({ s with freeHashBulkObjs := s.freeHashBulkObjs.erase k } : Pool).table =
      Function.update s.table (.bulk k) (∅, 0) := by
    have hnone : ({ s with freeHashBulkObjs := s.freeHashBulkObjs.erase k } : Pool).freeHashBulkObjs.lookup k = none :=
      AList.lookup_erase _ _
    have htable := @table_bulk s { s with freeHashBulkObjs := s.freeHashBulkObjs.erase k } k rfl
      fun j hj => AList.lookup_erase_ne hj
    rwa [bulkFree_of_none hnone, bulkCnt_of_none hnone] at htable
  have hledger : ({ s with freeHashBulkObjs := s.freeHashBulkObjs.erase k } : Pool).ledger =
      s.ledger.forget (.bulk k) := by
    refine Ledger.ext ?_ rfl rfl (ledger_cnt_update htable)
    rw [ledger_free_update htable]
    rfl
  refine ⟨hledger, ?_, hs.records, hs.cells_update htable fun q b hb => ?_, hs.users, hs.hooked.erase_hash k, hs.procs⟩
  · rw [hledger]
    exact hs.sound.forget _
  · cases hb

end Orderly

end

end FlyingKV.MemPool
