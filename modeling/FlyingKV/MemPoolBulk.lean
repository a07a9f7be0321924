import FlyingKV.MemPoolSlots

set_option autoImplicit false

/-!
# Bulk objects

The free bulk objects are in a hash map from slots to their objects and in an ordered map from
slots to the elements of the first. `Get` serves a request from its own slot, from a larger one
that is at most twice as large, or from a new page.
-/
namespace FlyingKV.MemPool
open Slab EventRun OrderedMap

/-! ## The two maps -/

/-- The ordered map leads to every element of the hash map and to nothing else. -/
structure Linked (hash : AList fun _ : ℕ => BulkNode) (ordered : NodeMap slotOrder ℕ) (next : ℕ) : Prop where
  known : ∀ k n, hash.lookup k = some n → n.node < next ∧ ordered.find k = some n.node
  absent : ∀ k, hash.lookup k = none → ordered.find k = none
  distinct : ∀ j k m n, hash.lookup j = some m → hash.lookup k = some n → m.node = n.node → j = k

namespace Linked
variable {hash : AList fun _ : ℕ => BulkNode} {ordered : NodeMap slotOrder ℕ} {next k : ℕ} {n : BulkNode}

theorem set (hl : Linked hash ordered next) (hk : hash.lookup k = some n) {n' : BulkNode}
    (hnode : n'.node = n.node) : Linked (hash.insert k n') ordered next := by
  -- under every key the same address as before
  have hold : ∀ j m, (hash.insert k n').lookup j = some m →
      ∃ m', hash.lookup j = some m' ∧ m.node = m'.node := by
    intro j m hj
    rcases lookup_insert_cases hj with ⟨rfl, rfl⟩ | ⟨-, hj⟩
    · exact ⟨n, hk, hnode⟩
    · exact ⟨m, hj, rfl⟩
  refine ⟨fun j m hj => ?_, fun j hj => ?_, fun i j m m₂ hi hj heq => ?_⟩
  · obtain ⟨m', hj', hm⟩ := hold j m hj
    rw [hm]
    exact hl.known j m' hj'
  · by_cases hjk : j = k
    · subst hjk
      rw [AList.lookup_insert] at hj
      cases hj
    · rw [AList.lookup_insert_ne hjk] at hj
      exact hl.absent j hj
  · obtain ⟨m', hi', hm⟩ := hold i m hi
    obtain ⟨m₂', hj', hm₂⟩ := hold j m₂ hj
    exact hl.distinct i j m' m₂' hi' hj' (by rw [← hm, ← hm₂, heq])

theorem erase (hl : Linked hash ordered next) (k : ℕ) : Linked (hash.erase k) (ordered.erase k) next := by
  refine ⟨fun j m hj => ?_, fun j hj => ?_, fun i j m m₂ hi hj heq => ?_⟩
  · obtain ⟨hjk, hj⟩ := lookup_erase_cases hj
    rw [NodeMap.find_erase, Function.update_of_ne hjk]
    exact hl.known j m hj
  · rw [NodeMap.find_erase]
    by_cases hjk : j = k
    · rw [hjk, Function.update_self]
    · rw [Function.update_of_ne hjk]
      rw [AList.lookup_erase_ne hjk] at hj
      exact hl.absent j hj
  · exact hl.distinct i j m m₂ (lookup_erase_cases hi).2 (lookup_erase_cases hj).2 heq

theorem new (hl : Linked hash ordered next) (hk : hash.lookup k = none) (objs : FreeTable) (cnt : ℕ) :
    Linked (hash.insert k ⟨next, objs, cnt⟩) (ordered.assign k next) (next + 1) := by
  have hold : ∀ j m, (hash.insert k ⟨next, objs, cnt⟩).lookup j = some m →
      j = k ∧ m.node = next ∨ j ≠ k ∧ hash.lookup j = some m ∧ m.node < next := by
    intro j m hj
    rcases lookup_insert_cases hj with ⟨hjk, rfl⟩ | ⟨hjk, hj⟩
    · exact .inl ⟨hjk, rfl⟩
    · exact .inr ⟨hjk, hj, (hl.known j m hj).1⟩
  refine ⟨fun j m hj => ?_, fun j hj => ?_, fun i j m m₂ hi hj heq => ?_⟩
  · rw [NodeMap.find_assign]
    rcases hold j m hj with ⟨rfl, hm⟩ | ⟨hjk, hj, hm⟩
    · rw [Function.update_self, hm]
      exact ⟨Nat.lt_succ_self _, rfl⟩
    · rw [Function.update_of_ne hjk]
      exact ⟨Nat.lt_succ_of_lt hm, (hl.known j m hj).2⟩
  · have hjk : j ≠ k := by
      rintro rfl
      rw [AList.lookup_insert] at hj
      cases hj
    rw [AList.lookup_insert_ne hjk] at hj
    rw [NodeMap.find_assign, Function.update_of_ne hjk]
    exact hl.absent j hj
  · rcases hold i m hi with ⟨hik, hm⟩ | ⟨-, hi, hm⟩
    · rcases hold j m₂ hj with ⟨hjk, -⟩ | ⟨-, -, hm₂⟩
      · rw [hik, hjk]
      · omega
    · rcases hold j m₂ hj with ⟨-, hm₂⟩ | ⟨-, hj, -⟩
      · omega
      · exact hl.distinct i j m m₂ hi hj heq

/-- Every element of the ordered map leads to the hash map's element of its slot. -/
theorem mem_nodes (hl : Linked hash ordered next) {x : Node ℕ ℕ} (hx : x ∈ ordered.nodes) :
    ∃ n, hash.lookup x.key = some n ∧ n.node = x.val := by
  have hfind := ordered.find_of_mem hx
  cases hlookup : hash.lookup x.key with
  | none =>
    rw [hl.absent x.key hlookup] at hfind
    cases hfind
  | some n =>
    rw [(hl.known x.key n hlookup).2] at hfind
    exact ⟨n, rfl, Option.some.inj hfind⟩

end Linked

section
variable {s u : Pool} {k : ℕ} {n : BulkNode}

theorem derefBulk_eq (hl : Linked s.freeHashBulkObjs s.freeBulkObjs s.nextNode)
    (hk : s.freeHashBulkObjs.lookup k = some n) : s.derefBulk n.node = some (k, n) := by
  unfold Pool.derefBulk
  cases hfind : s.freeHashBulkObjs.entries.find? fun e => e.2.node = n.node with
  | none =>
    have hmem := AList.mem_lookup_iff.mp (Option.mem_def.mpr hk)
    exact absurd (decide_eq_true rfl) (List.find?_eq_none.mp hfind _ hmem)
  | some e =>
    have he : s.freeHashBulkObjs.lookup e.1 = some e.2 :=
      AList.mem_lookup_iff.mpr (List.mem_of_find?_eq_some hfind)
    have hnode : e.2.node = n.node := by simpa using List.find?_some hfind
    have hkey := hl.distinct _ _ _ _ he hk hnode
    rw [hkey, hk] at he
    rw [Option.map_some, hkey, Option.some.inj he]

/-! ## Slots -/

def bulkBytes (k : ℕ) : ℕ :=
  if sysPageSize * k < availableReserveBulkObjMaxSize then
    genExpandSlotPageSize (sysPageSize * k) expandBulkObjCntFactor sysPageSize
  else sysPageSize * k

def bulkShape (k : ℕ) : Shape := shapeOf (sysPageSize * k) (bulkBytes k)

def MemObject.bulkSlot (obj : MemObject) : Option ℕ :=
  match obj.type with
  | .Bulk => some (obj.slotSize / sysPageSize)
  | _ => none

/-- The slots a 32-bit size can ask for. -/
def InRange (k : ℕ) : Prop := 0 < k ∧ k < 2 ^ 20

theorem genExpand_bulk (h : k ≤ 256) :
    genExpandSlotPageSize (sysPageSize * k) expandBulkObjCntFactor sysPageSize = 4 * (sysPageSize * k) := by
  unfold genExpandSlotPageSize expandBulkObjCntFactor sysPageSize
  dsimp only
  rw [if_pos (by omega)]
  omega

theorem bulkBytes_eq (k : ℕ) : bulkBytes k = if k < 256 then 4 * (sysPageSize * k) else sysPageSize * k := by
  unfold bulkBytes availableReserveBulkObjMaxSize
  by_cases hk : k < 256
  · rw [if_pos (by unfold sysPageSize; omega), if_pos hk, genExpand_bulk hk.le]
  · rw [if_neg (by unfold sysPageSize; omega), if_neg hk]

theorem bulkBytes_bounds (h : InRange k) : sysPageSize * k ≤ bulkBytes k ∧ bulkBytes k < 2 ^ 32 := by
  obtain ⟨hpos, hlt⟩ := h
  rw [bulkBytes_eq]
  unfold sysPageSize
  split_ifs <;> omega

theorem bulkShape_ok (h : InRange k) : (bulkShape k).Ok :=
  shapeOf_ok (Nat.mul_pos (by decide) h.1) (bulkBytes_bounds h).1

theorem bulkShape_count (h : 0 < k) : (bulkShape k).count = if k < 256 then 4 else 1 := by
  have hpos : 0 < sysPageSize * k := Nat.mul_pos (by decide) h
  change bulkBytes k / (sysPageSize * k) = _
  rw [bulkBytes_eq]
  split_ifs
  · exact Nat.mul_div_cancel _ hpos
  · exact Nat.div_self hpos

theorem bulkSlot_eq {obj : MemObject} (htype : obj.type = .Bulk) (hsize : obj.slotSize = sysPageSize * k) :
    obj.bulkSlot = some k := by
  unfold MemObject.bulkSlot
  rw [htype, hsize]
  exact congrArg some (Nat.mul_div_cancel_left _ (by decide))

def Pool.bulkPages (s : Pool) (k : ℕ) : Finset ℕ := (s.bulkObjPages.lookup k).getD ∅

def Pool.bulkFree (s : Pool) (k : ℕ) : FreeTable := ((s.freeHashBulkObjs.lookup k).map BulkNode.objs).getD ∅

theorem bulkFree_of_lookup (h : s.freeHashBulkObjs.lookup k = some n) : s.bulkFree k = n.objs := by
  rw [Pool.bulkFree, h]
  rfl

theorem bulkFree_of_none (h : s.freeHashBulkObjs.lookup k = none) : s.bulkFree k = ∅ := by
  rw [Pool.bulkFree, h]
  rfl

theorem bulkFree_insert (h : u.freeHashBulkObjs = s.freeHashBulkObjs.insert k n) :
    u.bulkFree = Function.update s.bulkFree k n.objs := by
  funext j
  simp only [Pool.bulkFree, h, lookup_insert_apply, Function.update_apply]
  split_ifs <;> rfl

theorem bulkFree_erase (h : u.freeHashBulkObjs = s.freeHashBulkObjs.erase k) :
    u.bulkFree = Function.update s.bulkFree k ∅ := by
  funext j
  simp only [Pool.bulkFree, h, lookup_erase_apply, Function.update_apply]
  split_ifs <;> rfl

theorem bulkPages_insert {pages : Finset ℕ} (h : u.bulkObjPages = s.bulkObjPages.insert k pages) :
    u.bulkPages = Function.update s.bulkPages k pages := by
  funext j
  simp only [Pool.bulkPages, h, lookup_insert_apply, Function.update_apply]
  split_ifs <;> rfl

theorem bulkPages_erase (h : u.bulkObjPages = s.bulkObjPages.erase k) :
    u.bulkPages = Function.update s.bulkPages k ∅ := by
  funext j
  simp only [Pool.bulkPages, h, lookup_erase_apply, Function.update_apply]
  split_ifs <;> rfl

/-! ## The invariant -/

/-- A slot that is there has free objects, and counts them. -/
structure Stocked (k : ℕ) (n : BulkNode) : Prop where
  range : InRange k
  nonempty : n.objs.entries ≠ []
  counted : n.cnt = (allFree n.objs).length % 2 ^ 32

structure BulkOk (s : Pool) : Prop where
  slabs : Slabs MemObject.bulkSlot bulkShape s.bulkPages s.bulkFree s.heap s.live s.memObjs s.freeMemObjs
  linked : Linked s.freeHashBulkObjs s.freeBulkObjs s.nextNode
  stocked : ∀ k n, s.freeHashBulkObjs.lookup k = some n → Stocked k n
  typed : ∀ t ∈ s.live, ∃ k, InRange k ∧ t.obj.type = .Bulk ∧ t.obj.slotSize = sysPageSize * k
  procs : 0 < s.oneSlotBulkObjResidentCnts

theorem bulkOk_start (freeTinyObjsCnt : ℕ) {nprocs : ℕ} (h : 0 < nprocs) : BulkOk (start freeTinyObjsCnt nprocs) where
  slabs := slabs_empty _ _
  linked := ⟨nofun, fun _ _ => rfl, nofun⟩
  stocked := nofun
  typed := nofun
  procs := h

theorem stocked_insert {hash : AList fun _ : ℕ => BulkNode} (h : ∀ k n, hash.lookup k = some n → Stocked k n)
    (hn : Stocked k n) : ∀ j m, (hash.insert k n).lookup j = some m → Stocked j m := by
  intro j m hj
  rcases lookup_insert_cases hj with ⟨rfl, rfl⟩ | ⟨-, hj⟩
  · exact hn
  · exact h j m hj

theorem stocked_erase {hash : AList fun _ : ℕ => BulkNode} (h : ∀ k n, hash.lookup k = some n → Stocked k n)
    (k : ℕ) : ∀ j m, (hash.erase k).lookup j = some m → Stocked j m :=
  fun j m hj => h j m (lookup_erase_cases hj).2

end

section
variable {s : Pool} {k : ℕ} {n : BulkNode}

/-! ## Objects taken -/

/-- The first object of a page is taken; the slot is erased with its last object. -/
def Pool.withoutBulk (s : Pool) (k : ℕ) (n : BulkNode) (p : ℕ) (rest : List ℕ) : Pool :=
  if (takeFree n.objs p rest).entries = [] then s.eraseBulk k
  else s.setBulk k ⟨n.node, takeFree n.objs p rest, (n.cnt + 2 ^ 32 - 1) % 2 ^ 32⟩

theorem withoutBulk_users (s : Pool) (k : ℕ) (n : BulkNode) (p : ℕ) (rest : List ℕ) :
    (s.withoutBulk k n p rest).memObjs = s.memObjs ∧ (s.withoutBulk k n p rest).freeMemObjs = s.freeMemObjs ∧
      (s.withoutBulk k n p rest).live = s.live ∧ (s.withoutBulk k n p rest).heap = s.heap ∧
      (s.withoutBulk k n p rest).bulkPages = s.bulkPages ∧
      (s.withoutBulk k n p rest).oneSlotBulkObjResidentCnts = s.oneSlotBulkObjResidentCnts := by
  unfold Pool.withoutBulk
  split_ifs
  · exact ⟨rfl, rfl, rfl, rfl, rfl, rfl⟩
  · exact ⟨rfl, rfl, rfl, rfl, rfl, rfl⟩

theorem bulkFree_withoutBulk (s : Pool) (k : ℕ) (n : BulkNode) (p : ℕ) (rest : List ℕ) :
    (s.withoutBulk k n p rest).bulkFree = Function.update s.bulkFree k (takeFree n.objs p rest) := by
  unfold Pool.withoutBulk
  split_ifs with hempty
  · have hobjs : takeFree n.objs p rest = ∅ := AList.ext hempty
    rw [hobjs]
    exact bulkFree_erase (s := s) (u := s.eraseBulk k) (k := k) rfl
  · exact bulkFree_insert (s := s) (u := s.setBulk k _) (k := k) rfl

variable {p size need ptr : ℕ} {t : Taken}

theorem BulkOk.maps_withoutBulk (hs : BulkOk s) (hk : s.freeHashBulkObjs.lookup k = some n) {a : ℕ} {rest : List ℕ}
    (hl : n.objs.lookup p = some (a :: rest)) :
    Linked (s.withoutBulk k n p rest).freeHashBulkObjs (s.withoutBulk k n p rest).freeBulkObjs
        (s.withoutBulk k n p rest).nextNode ∧
      ∀ j m, (s.withoutBulk k n p rest).freeHashBulkObjs.lookup j = some m → Stocked j m := by
  have hn := hs.stocked k n hk
  unfold Pool.withoutBulk
  split_ifs with hempty
  · exact ⟨hs.linked.erase k, stocked_erase hs.stocked k⟩
  · refine ⟨hs.linked.set hk rfl, stocked_insert hs.stocked ⟨hn.range, hempty, ?_⟩⟩
    dsimp only
    rw [hn.counted, length_allFree_take hl, cnt_pred (Nat.add_one_pos _), Nat.add_sub_cancel]

theorem BulkOk.take (hs : BulkOk s) (hk : s.freeHashBulkObjs.lookup k = some n) {a : ℕ} {rest : List ℕ}
    (hl : n.objs.lookup p = some (a :: rest)) (hsize : size ≤ sysPageSize * k) :
    ∃ u h, (s.withoutBulk k n p rest).getMemObject size ⟨.Bulk, sysPageSize * k, a, p⟩ = (u, some h) ∧
      BulkOk u := by
  obtain ⟨hmem, hfree, hlive, hheap, hpages, hprocs⟩ := withoutBulk_users s k n p rest
  obtain ⟨hlinked, hstocked⟩ := hs.maps_withoutBulk hk hl
  have hrecords := hs.slabs.records
  rw [← hmem, ← hfree, ← hlive] at hrecords
  obtain ⟨h, memObjs, freeMemObjs, heq, hrecords⟩ := hrecords.get size ⟨.Bulk, sysPageSize * k, a, p⟩
  rw [hlive] at hrecords
  have hslot : MemObject.bulkSlot ⟨.Bulk, sysPageSize * k, a, p⟩ = some k := bulkSlot_eq rfl rfl
  rw [← bulkFree_of_lookup hk] at hl
  have htaken := hs.slabs.take hl hslot ⟨rfl, rfl, rfl⟩ hsize hrecords
  rw [bulkFree_of_lookup hk, ← bulkFree_withoutBulk, ← hpages, ← hheap, ← hlive] at htaken
  refine ⟨_, h, heq, htaken, hlinked, hstocked, fun t ht => ?_, hprocs ▸ hs.procs⟩
  rcases List.mem_append.mp ht with ht | ht
  · exact hs.typed t (hlive ▸ ht)
  · rw [List.mem_singleton.mp ht]
    exact ⟨k, (hs.stocked k n hk).range, rfl, rfl⟩

/-! ## Where a request is served -/

/-- The slot `get_suitable_bulk_page` takes an object from. -/
def Pool.servedBy (s : Pool) (need : ℕ) : Option ℕ :=
  match s.freeHashBulkObjs.lookup need with
  | some _ => some need
  | none =>
    match s.freeBulkObjs.nodes.head?, s.freeBulkObjs.nodes.getLast? with
    | some slotBegin, some last =>
      if last.key < need then none
      else if need < slotBegin.key then
        if need * 2 < slotBegin.key then none else some slotBegin.key
      else (s.freeBulkObjs.nodes.reverse.find? fun x => need < x.key ∧ x.key ≤ need * 2).map Node.key
    | _, _ => none

/-- The counter of the slot goes down, if the slot is still there. -/
def Pool.uncount (s : Pool) (k : ℕ) : Pool :=
  match s.freeHashBulkObjs.lookup k with
  | some n => s.setBulk k { n with cnt := (n.cnt + 2 ^ 32 - 1) % 2 ^ 32 }
  | none => s

theorem uncount_setBulk (s : Pool) (k : ℕ) (n : BulkNode) :
    (s.setBulk k n).uncount k = s.setBulk k { n with cnt := (n.cnt + 2 ^ 32 - 1) % 2 ^ 32 } := by
  simp only [Pool.uncount, Pool.setBulk, AList.lookup_insert, AList.insert_insert]

theorem uncount_eraseBulk (s : Pool) (k : ℕ) : (s.eraseBulk k).uncount k = s.eraseBulk k := by
  simp only [Pool.uncount, Pool.eraseBulk, AList.lookup_erase]

/-- The search found object `a` of page `p` in slot `k`. -/
def Found (s : Pool) (k : ℕ) (r : Option (Pool × Pool.Suitable)) : Prop :=
  ∃ n p a rest found, s.freeHashBulkObjs.lookup k = some n ∧ n.objs.lookup p = some (a :: rest) ∧ a ≠ 0 ∧
    r = some (found, ⟨k, a, p⟩) ∧ found.uncount k = s.withoutBulk k n p rest

theorem BulkOk.beginObj (hs : BulkOk s) (hk : s.freeHashBulkObjs.lookup k = some n) (first : ℕ) :
    ∃ p a rest, n.objs.lookup p = some (a :: rest) ∧ a ≠ 0 ∧
      Pool.beginObj first n.objs = some (takeFree n.objs p rest, p, a) := by
  have hcut := hs.slabs.cut k
  rw [bulkFree_of_lookup hk] at hcut
  obtain ⟨p, a, rest, hl, hhead⟩ :=
    begin_objs (hs.stocked k n hk).nonempty (fun p l h => (hcut.keys p l h).2) first
  refine ⟨p, a, rest, hl, hs.slabs.free_ne_zero (i := k) (p := p) ?_, ?_⟩
  · rw [bulkFree_of_lookup hk, freeOf_of_lookup hl]
    exact List.mem_cons_self
  · simp only [Pool.beginObj, hhead]

theorem BulkOk.found_own (hs : BulkOk s) (hk : s.freeHashBulkObjs.lookup k = some n) (first : ℕ) :
    Found s k (s.getSuitableBulkPage first k) := by
  obtain ⟨p, a, rest, hl, ha, hbegin⟩ := hs.beginObj hk first
  refine ⟨n, p, a, rest, if (takeFree n.objs p rest).entries = [] then s.eraseBulk k
    else s.setBulk k { n with objs := takeFree n.objs p rest }, hk, hl, ha, ?_, ?_⟩
  · simp only [Pool.getSuitableBulkPage, hk, hbegin, Option.map_some]
  · unfold Pool.withoutBulk
    split_ifs with hempty
    · exact uncount_eraseBulk s k
    · exact uncount_setBulk s k _

/-- A larger slot that keeps a free object is served from. -/
theorem BulkOk.found_larger (hs : BulkOk s) {x : Node ℕ ℕ} (hx : x ∈ s.freeBulkObjs.nodes)
    (hmany : 2 ≤ (allFree (s.bulkFree x.key)).length) (first : ℕ) (it : NodeMap slotOrder ℕ → Option ℕ) :
    Found s x.key (s.takeLarger first x it) := by
  obtain ⟨n, hk, hnode⟩ := hs.linked.mem_nodes hx
  obtain ⟨p, a, rest, hl, ha, hbegin⟩ := hs.beginObj hk first
  have hkept : (takeFree n.objs p rest).entries ≠ [] := by
    intro hempty
    have hlen := length_allFree_take hl
    rw [bulkFree_of_lookup hk, hlen, allFree, hempty] at hmany
    simp at hmany
  refine ⟨n, p, a, rest, s.setBulk x.key { n with objs := takeFree n.objs p rest }, hk, hl, ha, ?_, ?_⟩
  · unfold Pool.takeLarger
    rw [← hnode, derefBulk_eq hs.linked hk, Option.bind_some]
    dsimp only
    rw [hbegin, Option.bind_some]
    dsimp only
    rw [if_neg hkept]
  · rw [Pool.withoutBulk, if_neg hkept]
    exact uncount_setBulk s x.key _

theorem BulkOk.found_served (hs : BulkOk s) (hserved : s.servedBy need = some k)
    (hmany : k ≠ need → 2 ≤ (allFree (s.bulkFree k)).length) (first : ℕ) :
    need ≤ k ∧ Found s k (s.getSuitableBulkPage first need) := by
  unfold Pool.servedBy at hserved
  unfold Pool.getSuitableBulkPage
  cases hlookup : s.freeHashBulkObjs.lookup need with
  | some n =>
    rw [hlookup] at hserved
    cases hserved
    have hfound := hs.found_own hlookup first
    rw [Pool.getSuitableBulkPage, hlookup] at hfound
    exact ⟨le_rfl, hfound⟩
  | none =>
    rw [hlookup] at hserved
    dsimp only at hserved ⊢
    cases hhead : s.freeBulkObjs.nodes.head? with
    | none =>
      rw [hhead] at hserved
      cases hserved
    | some slotBegin =>
      cases hlast : s.freeBulkObjs.nodes.getLast? with
      | none =>
        rw [hhead, hlast] at hserved
        cases hserved
      | some last =>
        rw [hhead, hlast] at hserved
        dsimp only at hserved ⊢
        split_ifs at hserved ⊢ with h1 h2 h3
        · cases hserved
          exact ⟨h2.le, hs.found_larger (List.mem_of_mem_head? hhead) (hmany h2.ne') first _⟩
        · obtain ⟨x, hfind, rfl⟩ := Option.map_eq_some_iff.mp hserved
          have hx := List.mem_reverse.mp (List.mem_of_find?_eq_some hfind)
          have hrange : need < x.key ∧ x.key ≤ need * 2 := by simpa using List.find?_some hfind
          rw [hfind]
          exact ⟨hrange.1.le, hs.found_larger hx (hmany hrange.1.ne') first _⟩

theorem unserved (hserved : s.servedBy need = none) (first : ℕ) :
    s.getSuitableBulkPage first need = some (s, Pool.unsuitable) := by
  unfold Pool.servedBy at hserved
  unfold Pool.getSuitableBulkPage
  cases hlookup : s.freeHashBulkObjs.lookup need with
  | some n =>
    rw [hlookup] at hserved
    cases hserved
  | none =>
    rw [hlookup] at hserved
    dsimp only at hserved ⊢
    cases hhead : s.freeBulkObjs.nodes.head? with
    | none => rfl
    | some slotBegin =>
      cases hlast : s.freeBulkObjs.nodes.getLast? with
      | none => rfl
      | some last =>
        rw [hhead, hlast] at hserved
        dsimp only at hserved ⊢
        split_ifs at hserved ⊢ with h1 h2 h3
        · rfl
        · rfl
        · rw [Option.map_eq_none_iff.mp hserved]

theorem lookup_of_unserved (hserved : s.servedBy need = none) : s.freeHashBulkObjs.lookup need = none := by
  unfold Pool.servedBy at hserved
  cases hlookup : s.freeHashBulkObjs.lookup need with
  | none => rfl
  | some n =>
    rw [hlookup] at hserved
    cases hserved

/-! ## A new page -/

def Pool.withBulkPage (s : Pool) (k ptr : ℕ) : Pool :=
  { s with
    freeHashBulkObjs := s.freeHashBulkObjs.insert k
      ⟨s.nextNode, (∅ : FreeTable).insert ptr (blocks (bulkShape k) ptr), (bulkShape k).count⟩
    freeBulkObjs := s.freeBulkObjs.assign k s.nextNode
    nextNode := s.nextNode + 1
    bulkObjPages := s.bulkObjPages.insert k {ptr}
    heap := s.heap ++ [⟨ptr, bulkBytes k⟩] }

/-- The entries are made and erased again when there is no memory. -/
def Pool.withNoPage (s : Pool) (k : ℕ) : Pool :=
  { s with
    freeHashBulkObjs := (s.freeHashBulkObjs.insert k ⟨s.nextNode, ∅, 0⟩).erase k
    freeBulkObjs := (s.freeBulkObjs.assign k s.nextNode).erase k
    nextNode := s.nextNode + 1
    bulkObjPages := s.bulkObjPages.insert k ∅ }

theorem expandBulk_page (hk : s.freeHashBulkObjs.lookup k = none) (hrange : InRange k) (hptr : ptr ≠ 0) :
    s.expandBulk (sysPageSize * k) k ptr = some (s.withBulkPage k ptr) := by
  have hpos : 0 < sysPageSize * k := Nat.mul_pos (by decide) hrange.1
  have halloc := allocPageObjs_eq hpos (bulkBytes_bounds hrange).2.le hptr ∅ ∅ s.heap
  unfold Pool.expandBulk Pool.assignBulk
  simp only [hk, Pool.linkBulk, Pool.setBulk, AList.lookup_insert, Option.map_some, Option.bind_some]
  change ((allocPageObjs ptr (bulkBytes k) (sysPageSize * k) ∅ ∅ s.heap).map fun r => _) = _
  rw [halloc, Option.map_some]
  simp only [if_true, AList.insert_insert, Pool.withBulkPage, Finset.insert_empty]
  rfl

theorem expandBulk_null (hk : s.freeHashBulkObjs.lookup k = none) :
    s.expandBulk (sysPageSize * k) k 0 = some (s.withNoPage k) := by
  unfold Pool.expandBulk Pool.assignBulk
  simp only [hk, Pool.linkBulk, Pool.setBulk, AList.lookup_insert, Option.map_some, Option.bind_some,
    allocPageObjs, if_true, Bool.false_eq_true, if_false, Pool.eraseBulk, Pool.withNoPage]

theorem BulkOk.withBulkPage (hs : BulkOk s) (hk : s.freeHashBulkObjs.lookup k = none) (hrange : InRange k)
    (hlive : ∀ t ∈ s.live, t.obj.bulkSlot ≠ some k) (hfresh : Fresh s ptr (bulkBytes k)) :
    BulkOk (s.withBulkPage k ptr) := by
  have hfree := bulkFree_of_none hk
  have hpages := hs.slabs.pages_eq_empty hfree hlive
  have hadded := hs.slabs.addPage (bulkShape_ok hrange) hfresh.nonnull hfresh.apart
  rw [hpages, hfree, Finset.insert_empty] at hadded
  refine ⟨?_, hs.linked.new hk _ _, stocked_insert hs.stocked ⟨hrange, ?_, ?_⟩, hs.typed, hs.procs⟩
  · rw [bulkPages_insert (s := s) (u := s.withBulkPage k ptr) (k := k) rfl,
      bulkFree_insert (s := s) (u := s.withBulkPage k ptr) (k := k) rfl]
    exact hadded
  · exact entries_ne_nil (AList.lookup_insert _)
  · have hlt : (bulkShape k).count < 2 ^ 32 := (Nat.div_le_self _ _).trans_lt (bulkBytes_bounds hrange).2
    dsimp only
    rw [allFree_insert, List.length_append, length_blocks]
    exact (Nat.mod_eq_of_lt hlt).symm

theorem withNoPage_lookup (hk : s.freeHashBulkObjs.lookup k = none) (j : ℕ) :
    (s.withNoPage k).freeHashBulkObjs.lookup j = s.freeHashBulkObjs.lookup j := by
  simp only [Pool.withNoPage]
  by_cases hj : j = k
  · rw [hj, AList.lookup_erase, hk]
  · rw [AList.lookup_erase_ne hj, AList.lookup_insert_ne hj]

theorem BulkOk.withNoPage (hs : BulkOk s) (hk : s.freeHashBulkObjs.lookup k = none)
    (hlive : ∀ t ∈ s.live, t.obj.bulkSlot ≠ some k) : BulkOk (s.withNoPage k) := by
  have hlookup := withNoPage_lookup hk
  have hfree : (s.withNoPage k).bulkFree = s.bulkFree := by
    funext j
    unfold Pool.bulkFree
    rw [hlookup]
  have hpages : (s.withNoPage k).bulkPages = s.bulkPages := by
    rw [bulkPages_insert (s := s) (u := s.withNoPage k) (k := k) rfl,
      ← hs.slabs.pages_eq_empty (bulkFree_of_none hk) hlive, Function.update_eq_self]
  refine ⟨?_, (hs.linked.new hk _ _).erase k, fun j m hj => ?_, hs.typed, hs.procs⟩
  · rw [hfree, hpages]
    exact hs.slabs
  · rw [hlookup] at hj
    exact hs.stocked j m hj

theorem BulkOk.servedBy_withNoPage (hs : BulkOk s) (hserved : s.servedBy k = none) :
    (s.withNoPage k).servedBy k = none := by
  have hk := lookup_of_unserved hserved
  have hnodes : (s.withNoPage k).freeBulkObjs.nodes = s.freeBulkObjs.nodes :=
    s.freeBulkObjs.erase_assign_nodes s.nextNode (hs.linked.absent k hk)
  unfold Pool.servedBy at hserved ⊢
  rw [withNoPage_lookup hk, hnodes]
  exact hserved

/-! ## `Get` -/

/-- The end of a bulk `Get`. -/
def Pool.handOut (size : ℕ) (found : Pool × Pool.Suitable) : Pool × Option ℕ :=
  if found.2.objPv = 0 then (found.1, none)
  else
    (found.1.uncount found.2.slotIdx).getMemObject size
      ⟨.Bulk, (found.2.slotIdx * sysPageSize) % 2 ^ 32, found.2.objPv, found.2.pagePv⟩

theorem getBulkObj_eq
    (hround : roundupToTheNextHighestMultipleOfExponent2 size bulkObjSlotFootstepExponent = sysPageSize * k)
    (s : Pool) (ptr first : ℕ) : s.getBulkObj size ptr first =
      (s.getSuitableBulkPage first k).bind fun found =>
        (if found.2.objPv = 0 then
          (found.1.expandBulk (sysPageSize * k) k ptr).bind fun s => s.getSuitableBulkPage first k
        else some found).map (Pool.handOut size) := by
  have hidx : sysPageSize * k / sysPageSize = k := Nat.mul_div_cancel_left _ (by decide)
  unfold Pool.getBulkObj
  rw [hround]
  dsimp only
  rw [hidx]
  rfl

theorem BulkOk.handOut (hs : BulkOk s) {r : Option (Pool × Pool.Suitable)} (hfound : Found s k r)
    (hsize : size ≤ sysPageSize * k) :
    ∃ found, r = some found ∧ found.2.objPv ≠ 0 ∧ ∃ u h, Pool.handOut size found = (u, some h) ∧ BulkOk u := by
  obtain ⟨n, p, a, rest, found, hk, hl, ha, hr, hcount⟩ := hfound
  obtain ⟨u, h, hu, hok⟩ := hs.take hk hl hsize
  refine ⟨_, hr, ha, u, h, ?_, hok⟩
  have hrange := (hs.stocked k n hk).range.2
  have hslot : k * sysPageSize % 2 ^ 32 = sysPageSize * k := by
    unfold sysPageSize
    omega
  unfold Pool.handOut
  dsimp only
  rw [if_neg ha, hcount, hslot]
  exact hu

/-- A request for slot `k` that no slot can serve finds no live object of it, and the memory it gets
is fresh; a larger slot that serves it keeps a free object. -/
structure Servable (s : Pool) (k ptr : ℕ) : Prop where
  larger : ∀ j, s.servedBy k = some j → j ≠ k → 2 ≤ (allFree (s.bulkFree j)).length
  unused : s.servedBy k = none → ∀ t ∈ s.live, t.obj.bulkSlot ≠ some k
  fresh : s.servedBy k = none → ptr ≠ 0 → Fresh s ptr (bulkBytes k)

theorem BulkOk.getBulkObj (hs : BulkOk s) (first : ℕ) (hrange : InRange k)
    (hround : roundupToTheNextHighestMultipleOfExponent2 size bulkObjSlotFootstepExponent = sysPageSize * k)
    (hsize : size ≤ sysPageSize * k) (hserve : Servable s k ptr) :
    ∃ u r, s.getBulkObj size ptr first = some (u, r) ∧ BulkOk u := by
  rw [getBulkObj_eq hround]
  cases hserved : s.servedBy k with
  | some j =>
    obtain ⟨hle, hfound⟩ := hs.found_served hserved (hserve.larger j hserved) first
    obtain ⟨found, hr, hpv, u, h, hu, hok⟩ := hs.handOut hfound (hsize.trans (Nat.mul_le_mul_left _ hle))
    refine ⟨u, some h, ?_, hok⟩
    rw [hr, Option.bind_some, if_neg hpv, Option.map_some, hu]
  | none =>
    have hk := lookup_of_unserved hserved
    have hlive := hserve.unused hserved
    have hnull : Pool.unsuitable.objPv = 0 := rfl
    rw [unserved hserved, Option.bind_some]
    simp only [if_pos hnull]
    by_cases hptr : ptr = 0
    · refine ⟨s.withNoPage k, none, ?_, hs.withNoPage hk hlive⟩
      rw [hptr, expandBulk_null hk, Option.bind_some, unserved (hs.servedBy_withNoPage hserved)]
      rfl
    · have hpage := hs.withBulkPage hk hrange hlive (hserve.fresh hserved hptr)
      obtain ⟨found, hr, -, u, h, hu, hok⟩ :=
        hpage.handOut (hpage.found_own (AList.lookup_insert _) first) hsize
      refine ⟨u, some h, ?_, hok⟩
      rw [expandBulk_page hk hrange hptr, Option.bind_some, hr, Option.map_some, hu]

/-! ## `Put` -/

def Pool.putBack (s : Pool) (t : Taken) : Pool :=
  { s with
    freeMemObjs := s.freeMemObjs ++ [t.handle]
    live := s.live.filter fun x => x.handle ≠ t.handle }

theorem put_of_kept (h : s.memObjs[t.handle]? = some t.obj) (first : ℕ) :
    s.put t.handle first = (s.putObj t.obj first).map fun u => u.putBack t := by
  unfold Pool.put
  rw [h]
  rfl

theorem BulkOk.page_mem (hs : BulkOk s) (ht : t ∈ s.live) (hslot : t.obj.bulkSlot = some k) :
    t.obj.objPagePv ∈ s.bulkPages k :=
  (hs.slabs.cut k).used _ (mem_liveIn.mpr ⟨t, ht, hslot, rfl, rfl⟩)

/-- An object that is too large to be kept goes with its page. -/
theorem BulkOk.dropBulkObj (hs : BulkOk s) (ht : t ∈ s.live) (hslot : t.obj.bulkSlot = some k) (hlarge : 256 < k) :
    ∃ u, s.dropBulkObj k t.obj.objPagePv = some u ∧ BulkOk (u.putBack t) := by
  have hp := hs.page_mem ht hslot
  have hcount : (bulkShape k).count = 1 := by
    rw [bulkShape_count (by omega), if_neg (by omega)]
  have hdiscard := hs.slabs.discard ht hslot hcount
  cases hlookup : s.bulkObjPages.lookup k with
  | none =>
    rw [Pool.bulkPages, hlookup] at hp
    cases hp
  | some pages =>
    have hpages : s.bulkPages k = pages := by rw [Pool.bulkPages, hlookup]; rfl
    unfold Pool.dropBulkObj
    rw [hlookup, Option.bind_some, freeRegion_eq (hs.slabs.carved.held k _ hp), Option.map_some]
    refine ⟨_, rfl, ?_, hs.linked, hs.stocked, fun x hx => hs.typed x (List.mem_of_mem_filter hx), hs.procs⟩
    rw [hpages] at hdiscard
    by_cases hempty : pages.erase t.obj.objPagePv = ∅
    · have hbulk := bulkPages_erase (s := s) (k := k)
        (u := { s with bulkObjPages := s.bulkObjPages.erase k }) rfl
      rw [hempty, ← hbulk] at hdiscard
      dsimp only [Pool.putBack]
      rw [if_pos hempty]
      exact hdiscard
    · have hbulk := bulkPages_insert (s := s) (k := k)
        (u := { s with bulkObjPages := s.bulkObjPages.insert k (pages.erase t.obj.objPagePv) }) rfl
      rw [← hbulk] at hdiscard
      dsimp only [Pool.putBack]
      rw [if_neg hempty]
      exact hdiscard

/-- An object joins the free objects of its slot, which is made again if it was drained. -/
def Pool.withBulk (s : Pool) (k : ℕ) (t : Taken) : Pool :=
  match s.freeHashBulkObjs.lookup k with
  | some n =>
    s.setBulk k ⟨n.node, n.objs.insert t.obj.objPagePv (freeOf n.objs t.obj.objPagePv ++ [t.obj.objPv]),
      (n.cnt + 1) % 2 ^ 32⟩
  | none =>
    { s.setBulk k ⟨s.nextNode, (∅ : FreeTable).insert t.obj.objPagePv [t.obj.objPv], 1⟩ with
      freeBulkObjs := s.freeBulkObjs.assign k s.nextNode
      nextNode := s.nextNode + 1 }

theorem withBulk_users (s : Pool) (k : ℕ) (t : Taken) :
    (s.withBulk k t).memObjs = s.memObjs ∧ (s.withBulk k t).freeMemObjs = s.freeMemObjs ∧
      (s.withBulk k t).live = s.live ∧ (s.withBulk k t).heap = s.heap ∧
      (s.withBulk k t).bulkObjPages = s.bulkObjPages ∧
      (s.withBulk k t).oneSlotBulkObjResidentCnts = s.oneSlotBulkObjResidentCnts := by
  unfold Pool.withBulk
  cases s.freeHashBulkObjs.lookup k with
  | none => exact ⟨rfl, rfl, rfl, rfl, rfl, rfl⟩
  | some n => exact ⟨rfl, rfl, rfl, rfl, rfl, rfl⟩

theorem bulkFree_withBulk (s : Pool) (k : ℕ) (t : Taken) :
    (s.withBulk k t).bulkFree = Function.update s.bulkFree k
      ((s.bulkFree k).insert t.obj.objPagePv (freeOf (s.bulkFree k) t.obj.objPagePv ++ [t.obj.objPv])) := by
  unfold Pool.withBulk
  cases hlookup : s.freeHashBulkObjs.lookup k with
  | none =>
    rw [bulkFree_of_none hlookup]
    exact bulkFree_insert (s := s) (k := k)
      (n := ⟨s.nextNode, (∅ : FreeTable).insert t.obj.objPagePv [t.obj.objPv], 1⟩) rfl
  | some n =>
    rw [bulkFree_of_lookup hlookup]
    exact bulkFree_insert (s := s) (k := k) (u := s.setBulk k _) rfl

theorem BulkOk.maps_withBulk (hs : BulkOk s) (hrange : InRange k) (t : Taken) :
    Linked (s.withBulk k t).freeHashBulkObjs (s.withBulk k t).freeBulkObjs (s.withBulk k t).nextNode ∧
      ∀ j m, (s.withBulk k t).freeHashBulkObjs.lookup j = some m → Stocked j m := by
  unfold Pool.withBulk
  cases hlookup : s.freeHashBulkObjs.lookup k with
  | none =>
    refine ⟨hs.linked.new hlookup _ _, stocked_insert hs.stocked ⟨hrange, ?_, ?_⟩⟩
    · exact entries_ne_nil (AList.lookup_insert _)
    · dsimp only
      rw [allFree_insert, List.length_append]
      rfl
  | some n =>
    refine ⟨hs.linked.set hlookup rfl, stocked_insert hs.stocked ⟨hrange, ?_, ?_⟩⟩
    · exact entries_ne_nil (AList.lookup_insert _)
    · dsimp only
      rw [(hs.stocked k n hlookup).counted, cnt_succ, length_allFree_give]

theorem BulkOk.give (hs : BulkOk s) (hrange : InRange k) (ht : t ∈ s.live) (hslot : t.obj.bulkSlot = some k) :
    BulkOk ((s.withBulk k t).putBack t) := by
  obtain ⟨hmem, hfree, hlive, hheap, hpages, hprocs⟩ := withBulk_users s k t
  obtain ⟨hlinked, hstocked⟩ := hs.maps_withBulk hrange t
  have hgiven := hs.slabs.give ht hslot
  have hbulk : (s.withBulk k t).bulkPages = s.bulkPages := by
    funext j
    rw [Pool.bulkPages, hpages, Pool.bulkPages]
  rw [← bulkFree_withBulk, ← hbulk, ← hmem, ← hfree, ← hlive, ← hheap] at hgiven
  refine ⟨hgiven, hlinked, hstocked, fun x hx => ?_, hprocs ▸ hs.procs⟩
  exact hs.typed x (hlive ▸ List.mem_of_mem_filter hx)

def Pool.withoutBulkPage (s : Pool) (k : ℕ) (n : BulkNode) (p : ℕ) : Pool :=
  { s.setBulk k ⟨n.node, n.objs.erase p, (n.cnt + 2 ^ 32 - expandBulkObjCntFactor) % 2 ^ 32⟩ with
    heap := s.heap.filter fun r => r.base ≠ p
    bulkObjPages := s.bulkObjPages.insert k ((s.bulkPages k).erase p) }

theorem BulkOk.dropPage (hs : BulkOk s) (hk : s.freeHashBulkObjs.lookup k = some n) {l : List ℕ}
    (hl : n.objs.lookup p = some l) (hlen : l.length = expandBulkObjCntFactor)
    (hmany : s.oneSlotBulkObjResidentCnts + expandBulkObjCntFactor ≤ n.cnt) :
    BulkOk (s.withoutBulkPage k n p) := by
  have hn := hs.stocked k n hk
  have hprocs := hs.procs
  have hall := length_allFree n.objs p
  have hfree := bulkFree_of_lookup hk
  rw [freeOf_of_lookup hl, hlen] at hall
  rw [hn.counted] at hmany
  -- a slot of 1 MiB objects has no page with four of them
  have hcount : (bulkShape k).count = expandBulkObjCntFactor := by
    have hcut := hs.slabs.cut k
    rw [hfree] at hcut
    have hwhole := (hcut.whole p (hcut.keys p l hl).1).length_eq
    rw [List.length_append, freeOf_of_lookup hl, hlen, length_blocks] at hwhole
    rw [bulkShape_count hn.range.1] at hwhole ⊢
    unfold expandBulkObjCntFactor at hwhole ⊢
    split_ifs at hwhole ⊢ <;> omega
  have hdropped := hs.slabs.drop (i := k) (p := p) (hfree ▸ hl) (hlen.trans hcount.symm)
  unfold expandBulkObjCntFactor at hall hmany
  refine ⟨?_, hs.linked.set hk rfl, stocked_insert hs.stocked ⟨hn.range, fun hempty => ?_, ?_⟩, hs.typed, hs.procs⟩
  · rw [bulkPages_insert (s := s) (u := s.withoutBulkPage k n p) (k := k) rfl,
      bulkFree_insert (s := s) (u := s.withoutBulkPage k n p) (k := k) rfl]
    rw [hfree] at hdropped
    exact hdropped
  · have hnone : (allFree (n.objs.erase p)).length = 0 := by
      rw [allFree, hempty]
      rfl
    omega
  · unfold expandBulkObjCntFactor
    dsimp only
    rw [hn.counted, cnt_sub (by omega) (by norm_num)]
    congr 1
    omega

theorem lookup_withBulk (s : Pool) (k : ℕ) (t : Taken) :
    ∃ n, (s.withBulk k t).freeHashBulkObjs.lookup k = some n := by
  unfold Pool.withBulk
  cases s.freeHashBulkObjs.lookup k with
  | none => exact ⟨_, AList.lookup_insert _⟩
  | some n => exact ⟨_, AList.lookup_insert _⟩

/-- What `put` does to a slot that keeps its objects, once the object is there. -/
def Pool.trimBulk (s : Pool) (k : ℕ) (n : BulkNode) (first : ℕ) : Option Pool :=
  if s.oneSlotBulkObjResidentCnts + expandBulkObjCntFactor ≤ n.cnt then
    match fullPage first expandBulkObjCntFactor n.objs with
    | none => some s
    | some p =>
      (freeRegion s.heap p).map fun heap =>
        let u := { s.withoutBulkPage k n p with heap := heap }
        if (n.cnt + 2 ^ 32 - expandBulkObjCntFactor) % 2 ^ 32 = 0 then u.eraseBulk k else u
  else some s

theorem keepBulkObj_eq (hrange : InRange k) (hsmall : k ≤ 256) (hsize : t.obj.slotSize = sysPageSize * k)
    (hk : (s.withBulk k t).freeHashBulkObjs.lookup k = some n) (first : ℕ) :
    s.keepBulkObj k t.obj.slotSize t.obj.objPv t.obj.objPagePv first = (s.withBulk k t).trimBulk k n first := by
  have hpos : 0 < sysPageSize * k := Nat.mul_pos (by decide) hrange.1
  have hcnt : quotient (genExpandSlotPageSize t.obj.slotSize expandBulkObjCntFactor sysPageSize) t.obj.slotSize =
      some expandBulkObjCntFactor := by
    rw [hsize, genExpand_bulk hsmall, quotient, if_neg hpos.ne', Nat.mul_div_cancel _ hpos]
    rfl
  unfold Pool.keepBulkObj
  rw [hcnt]
  unfold Pool.withBulk at hk ⊢
  cases hlookup : s.freeHashBulkObjs.lookup k with
  | some m =>
    rw [hlookup] at hk
    simp only [Pool.setBulk, AList.lookup_insert, Option.some.injEq] at hk
    subst hk
    cases hfull : fullPage first expandBulkObjCntFactor (m.objs.insert t.obj.objPagePv
        (freeOf m.objs t.obj.objPagePv ++ [t.obj.objPv])) with
    | none => simp only [Option.bind_some, hlookup, Pool.trimBulk, Pool.setBulk, hfull]
    | some p =>
      simp only [Option.bind_some, hlookup, Pool.trimBulk, Pool.withoutBulkPage, Pool.setBulk, AList.insert_insert,
        Pool.bulkPages, hfull]
  | none =>
    rw [hlookup] at hk
    simp only [Pool.setBulk, AList.lookup_insert, Option.some.injEq] at hk
    subst hk
    have hobjs : ((∅ : FreeTable).insert t.obj.objPagePv []).insert t.obj.objPagePv
        (freeOf ((∅ : FreeTable).insert t.obj.objPagePv []) t.obj.objPagePv ++ [t.obj.objPv]) =
        (∅ : FreeTable).insert t.obj.objPagePv [t.obj.objPv] := by
      rw [AList.insert_insert, freeOf_of_lookup (AList.lookup_insert _), List.nil_append]
    rw [AList.insert_insert] at hobjs
    have hone : (0 + 1) % 2 ^ 32 = 1 := rfl
    cases hfull : fullPage first expandBulkObjCntFactor ((∅ : FreeTable).insert t.obj.objPagePv [t.obj.objPv]) with
    | none =>
      simp only [Pool.assignBulk, Pool.linkBulk, hlookup, Pool.setBulk, AList.lookup_insert, Option.map_some,
        Option.bind_some, Pool.trimBulk, AList.insert_insert, hobjs, hone, hfull]
    | some p =>
      simp only [Pool.assignBulk, Pool.linkBulk, hlookup, Pool.setBulk, AList.lookup_insert, Option.map_some,
        Option.bind_some, Pool.trimBulk, Pool.withoutBulkPage, AList.insert_insert, Pool.bulkPages, hobjs, hone, hfull]

theorem BulkOk.trimBulk (hs : BulkOk s) (hk : s.freeHashBulkObjs.lookup k = some n) (first : ℕ) :
    ∃ u, s.trimBulk k n first = some u ∧ BulkOk u := by
  unfold Pool.trimBulk
  by_cases hmany : s.oneSlotBulkObjResidentCnts + expandBulkObjCntFactor ≤ n.cnt
  · rw [if_pos hmany]
    cases hfull : fullPage first expandBulkObjCntFactor n.objs with
    | none => exact ⟨s, rfl, hs⟩
    | some p =>
      obtain ⟨l, hl, hlen⟩ := lookup_fullPage hfull
      have hcut := hs.slabs.cut k
      rw [bulkFree_of_lookup hk] at hcut
      have hheap := hs.slabs.carved.held k p (hcut.keys p l hl).1
      have hcounted := (hs.stocked k n hk).counted
      have hprocs := hs.procs
      have hkept : (n.cnt + 2 ^ 32 - expandBulkObjCntFactor) % 2 ^ 32 ≠ 0 := by
        unfold expandBulkObjCntFactor at hmany ⊢
        omega
      refine ⟨s.withoutBulkPage k n p, ?_, hs.dropPage hk hl hlen hmany⟩
      dsimp only
      rw [freeRegion_eq hheap, Option.map_some, if_neg hkept]
      rfl
  · rw [if_neg hmany]
    exact ⟨s, rfl, hs⟩

/-- Trimming does not look at what the users have. -/
theorem trimBulk_putBack (s : Pool) (k : ℕ) (n : BulkNode) (first : ℕ) (t : Taken) :
    (s.putBack t).trimBulk k n first = (s.trimBulk k n first).map fun u => u.putBack t := by
  unfold Pool.trimBulk
  have hsame : (s.putBack t).oneSlotBulkObjResidentCnts + expandBulkObjCntFactor ≤ n.cnt ↔
      s.oneSlotBulkObjResidentCnts + expandBulkObjCntFactor ≤ n.cnt := Iff.rfl
  by_cases hmany : s.oneSlotBulkObjResidentCnts + expandBulkObjCntFactor ≤ n.cnt
  · rw [if_pos (hsame.mpr hmany), if_pos hmany]
    cases fullPage first expandBulkObjCntFactor n.objs with
    | none => rfl
    | some p =>
      change ((freeRegion s.heap p).map fun heap => _) = ((freeRegion s.heap p).map fun heap => _).map _
      cases freeRegion s.heap p with
      | none => rfl
      | some heap =>
        simp only [Option.map_some]
        split_ifs
        · rfl
        · rfl
  · rw [if_neg (hsame.not.mpr hmany), if_neg hmany, Option.map_some]

theorem BulkOk.put (hs : BulkOk s) (ht : t ∈ s.live) (first : ℕ) :
    ∃ u, s.put t.handle first = some u ∧ BulkOk u := by
  obtain ⟨k, hrange, htype, hsize⟩ := hs.typed t ht
  have hslot := bulkSlot_eq htype hsize
  have hidx : sysPageSize * k / sysPageSize = k := Nat.mul_div_cancel_left _ (by decide)
  rw [put_of_kept (hs.slabs.records.kept t ht), Pool.putObj, htype]
  dsimp only
  rw [hsize, hidx]
  split_ifs with hlarge
  · unfold availableReserveBulkObjMaxSize sysPageSize at hlarge
    obtain ⟨u, hu, hok⟩ := hs.dropBulkObj ht hslot (by omega)
    exact ⟨_, by rw [hu]; rfl, hok⟩
  · unfold availableReserveBulkObjMaxSize sysPageSize at hlarge
    obtain ⟨n, hk⟩ := lookup_withBulk s k t
    obtain ⟨u, hu, hok⟩ := (hs.give hrange ht hslot).trimBulk hk first
    refine ⟨u, ?_, hok⟩
    rw [← hsize, keepBulkObj_eq hrange (by omega) hsize hk, ← trimBulk_putBack]
    exact hu

end

/-! ## Runs -/

def slotIdxFor (size : ℕ) : ℕ :=
  roundupToTheNextHighestMultipleOfExponent2 size bulkObjSlotFootstepExponent / sysPageSize

theorem slotIdxFor_eq {size : ℕ} (h1 : bulkObjThreshold < size) (h2 : size ≤ 2 ^ 32 - sysPageSize) :
    InRange (slotIdxFor size) ∧ size ≤ sysPageSize * slotIdxFor size ∧
      roundupToTheNextHighestMultipleOfExponent2 size bulkObjSlotFootstepExponent = sysPageSize * slotIdxFor size := by
  have hlt : size < 2 ^ 32 := h2.trans_lt (by decide)
  have h12 := roundup_eq size 12 hlt (by norm_num) (by norm_num)
  norm_num at h12
  unfold InRange slotIdxFor bulkObjSlotFootstepExponent
  unfold bulkObjThreshold at h1
  unfold sysPageSize at h2 ⊢
  split_ifs at h12 <;> omega

/-- Requests above the bulk threshold, with a fresh region or none whenever `posix_memalign` is
called; a live object is put back. -/
def BulkAllowed (s : Pool) : Event → Prop
  | .get size ptr _ => (bulkObjThreshold < size ∧ size < 2 ^ 32) ∧
      (s.servedBy (slotIdxFor size) = none → ptr ≠ 0 → Fresh s ptr (bulkBytes (slotIdxFor size)))
  | .put handle _ => ∃ t ∈ s.live, t.handle = handle

/-- The rounded size fits, a slot is refilled only while it has no live object, and a larger slot
that serves a request keeps a free object. -/
def BulkCareful (s : Pool) : Event → Prop
  | .get size _ _ => size ≤ 2 ^ 32 - sysPageSize ∧
      (s.servedBy (slotIdxFor size) = none → ∀ t ∈ s.live, t.obj.bulkSlot ≠ some (slotIdxFor size)) ∧
      ∀ j ∈ s.servedBy (slotIdxFor size), j ≠ slotIdxFor size → 2 ≤ (allFree (s.bulkFree j)).length
  | .put _ _ => True

instance decidableBulkAllowed (s : Pool) : DecidablePred (BulkAllowed s)
  | .get _ _ _ => inferInstanceAs (Decidable (_ ∧ (_ → _ → _)))
  | .put handle _ => inferInstanceAs (Decidable (∃ t ∈ s.live, t.handle = handle))

instance decidableBulkCareful (s : Pool) : DecidablePred (BulkCareful s)
  | .get _ _ _ => inferInstanceAs (Decidable (_ ∧ (_ → _) ∧ _))
  | .put _ _ => isTrue trivial

theorem BulkOk.step {s : Pool} (hs : BulkOk s) {e : Event} (hallowed : BulkAllowed s e) (hcareful : BulkCareful s e) :
    ∃ u r, s.step e = some (u, r) ∧ BulkOk u := by
  cases e with
  | get size ptr first =>
    obtain ⟨⟨h1, -⟩, hfresh⟩ := hallowed
    obtain ⟨h2, hunused, hlarger⟩ := hcareful
    obtain ⟨hrange, hsize, hround⟩ := slotIdxFor_eq h1 h2
    obtain ⟨u, r, hu, hok⟩ := hs.getBulkObj first hrange hround hsize ⟨hlarger, hunused, hfresh⟩
    refine ⟨u, r, ?_, hok⟩
    have hget : s.get size ptr first = s.getBulkObj size ptr first := by
      unfold bulkObjThreshold at h1
      unfold Pool.get tinyObjThreshold bulkObjThreshold
      rw [if_neg (by omega), if_neg (by omega), if_neg (by omega)]
    exact hget.trans hu
  | put handle first =>
    obtain ⟨t, ht, rfl⟩ := hallowed
    obtain ⟨u, hu, hok⟩ := hs.put ht first
    exact ⟨u, none, by rw [Pool.step, hu]; rfl, hok⟩

structure BulkSafe (s : Pool) : Prop where
  slots : ∀ k, (s.freeHashBulkObjs.lookup k).isSome = (s.freeBulkObjs.find k).isSome
  points : ∀ k ptr, s.freeBulkObjs.find k = some ptr →
    ∃ n, s.derefBulk ptr = some (k, n) ∧ s.freeHashBulkObjs.lookup k = some n
  stocked : ∀ k n, s.freeHashBulkObjs.lookup k = some n → ∃ p a, a ∈ freeOf n.objs p
  free : ∀ k p a, a ∈ freeOf (s.bulkFree k) p → p ∈ s.bulkPages k
  live : ∀ t ∈ s.live, t.obj.objPagePv ∈ s.bulkPages (t.obj.slotSize / sysPageSize)
  apart : s.live.Pairwise fun t u => t.obj.region.Apart u.obj.region

theorem BulkOk.safe {s : Pool} (hs : BulkOk s) : BulkSafe s where
  slots k := by
    cases hk : s.freeHashBulkObjs.lookup k with
    | none => rw [hs.linked.absent k hk]; rfl
    | some n => rw [(hs.linked.known k n hk).2]; rfl
  points k ptr hfind := by
    cases hk : s.freeHashBulkObjs.lookup k with
    | none =>
      rw [hs.linked.absent k hk] at hfind
      cases hfind
    | some n =>
      rw [(hs.linked.known k n hk).2] at hfind
      cases hfind
      exact ⟨n, derefBulk_eq hs.linked hk, rfl⟩
  stocked k n hk := by
    obtain ⟨p, a, rest, hl, -, -⟩ := hs.beginObj hk 0
    refine ⟨p, a, ?_⟩
    rw [freeOf_of_lookup hl]
    exact List.mem_cons_self
  free k _ _ ha := ((hs.slabs.cut k).free_mem ha).1
  live t ht := by
    obtain ⟨k, -, htype, hsize⟩ := hs.typed t ht
    rw [hsize, Nat.mul_div_cancel_left _ (by decide)]
    exact hs.page_mem ht (bulkSlot_eq htype hsize)
  apart := hs.slabs.apart

/-- Every allowed and careful sequence of requests runs, and leaves the maps of bulk objects safe. -/
theorem bulk_safe (freeTinyObjsCnt : ℕ) {nprocs : ℕ} (hprocs : 0 < nprocs) {es : List Event}
    (hes : Along Pool.step (fun s e => BulkAllowed s e ∧ BulkCareful s e) (start freeTinyObjsCnt nprocs) es) :
    ∃ s rs, run Pool.step (start freeTinyObjsCnt nprocs) es = some (s, rs) ∧ BulkSafe s := by
  obtain ⟨s, rs, hrun, hok⟩ := run_along (I := fun s _ => BulkOk s)
    (fun _ _ _ hok he => hok.step he.1 he.2) [] (bulkOk_start freeTinyObjsCnt hprocs) hes
  exact ⟨s, rs, hrun, hok.safe⟩

def bulkRequests : List Event :=
  [.get 200000 4194304 0, .get 200000 0 0, .put 0 0, .get 140000 0 0, .get 2097152 8388608 0, .put 1 0, .put 2 0]

theorem bulk_safe_requests :
    Along Pool.step (fun s e => BulkAllowed s e ∧ BulkCareful s e) (start 0 4) bulkRequests ∧
      ∃ s rs, run Pool.step (start 0 4) bulkRequests = some (s, rs) ∧ BulkSafe s := by
  have hes : Along Pool.step (fun s e => BulkAllowed s e ∧ BulkCareful s e) (start 0 4) bulkRequests := by
    decide +kernel
  exact ⟨hes, bulk_safe 0 (by decide) hes⟩

/-- A refill forgets the page of a live object; a larger slot is drained through an iterator that is
gone; a size close to 2^32 is rounded to zero. -/
theorem bulk_crashes :
    (Along Pool.step BulkAllowed (start 0 4)
        [.get 2097152 4194304 0, .get 2097152 8388608 0, .put 1 0, .put 0 0] ∧
      run Pool.step (start 0 4)
        [.get 2097152 4194304 0, .get 2097152 8388608 0, .put 1 0, .put 0 0] = none) ∧
    (Along Pool.step BulkAllowed (start 0 4)
        [.get 163840 4194304 0, .get 139264 0 0, .get 139264 0 0, .get 139264 0 0] ∧
      run Pool.step (start 0 4)
        [.get 163840 4194304 0, .get 139264 0 0, .get 139264 0 0, .get 139264 0 0] = none) ∧
    (Along Pool.step BulkAllowed (start 0 4) [.get (2 ^ 32 - 1) 4194304 0] ∧
      run Pool.step (start 0 4) [.get (2 ^ 32 - 1) 4194304 0] = none) := by
  simp only [← Option.isNone_iff_eq_none]
  decide +kernel

end FlyingKV.MemPool
