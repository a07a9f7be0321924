import FlyingKV.MemPoolLedger

set_option autoImplicit false

/-!
# Surplus pages

A `Put` that finds more free objects in its slot than the slot is to keep releases a page that is
free as a whole.
-/
namespace FlyingKV.MemPool
open Slab EventRun PageLedger

structure Kept (s : Pool) : Prop where
  orderly : Orderly s
  trimmed : ∀ i, s.Trimmed i

section
variable {s u w : Pool} {i : Slot} {p a : ℕ} {rest : List ℕ}

namespace Kept

theorem ledger_trimmed (hs : Kept s) (i : Slot) : s.ledger.Trimmed Slot.perPage s.resident i :=
  trimmed_iff.mp (hs.trimmed i)

theorem of_ledger (hu : Orderly u) (hprocs : u.oneSlotBulkObjResidentCnts = s.oneSlotBulkObjResidentCnts)
    (htrimmed : ∀ i, u.ledger.Trimmed Slot.perPage s.resident i) : Kept u :=
  ⟨hu, fun i => trimmed_iff.mpr (resident_eq hprocs ▸ htrimmed i)⟩

theorem grow (hs : Kept s) (hprocs : u.oneSlotBulkObjResidentCnts = s.oneSlotBulkObjResidentCnts)
    (hu : u.ledger = s.ledger.grow Slot.perPage i p ∧ Orderly u) : Kept u := by
  refine of_ledger hu.2 hprocs ?_
  rw [hu.1]
  exact Ledger.trimmed_grow hs.ledger_trimmed (resident_pos hs.orderly.procs i)

theorem cnt_ne_zero (hs : Kept s) (hl : (s.table i).1.lookup p = some (a :: rest))
    (hfew : (allFree (s.table i).1).length < 2 ^ 32) : s.ledger.cnt i ≠ 0 := by
  have hmem : p ∈ s.ledger.free i := mem_pagesOf hl
  have hcnt := hs.orderly.sound.cnt_eq (Ledger.blocks_pos_of_free hmem)
  have hcard : (s.ledger.free i).card = (allFree (s.table i).1).length := card_pagesOf _
  have hpos := Multiset.card_pos_iff_exists_mem.mpr ⟨p, hmem⟩
  rw [hcnt, Nat.mod_eq_of_lt (hcard ▸ hfew)]
  exact hpos.ne'

theorem take (hs : Kept s) (hl : (s.table i).1.lookup p = some (a :: rest))
    (hfew : (allFree (s.table i).1).length < 2 ^ 32)
    (hu : u.ledger = s.ledger.take i p ∧ Orderly u ∧
      u.oneSlotBulkObjResidentCnts = s.oneSlotBulkObjResidentCnts) : Kept u := by
  refine of_ledger hu.2.1 hu.2.2 ?_
  rw [hu.1]
  exact Ledger.trimmed_take hs.ledger_trimmed (hs.cnt_ne_zero hl hfew)

theorem forget (hs : Kept s) (k : ℕ) : Kept { s with freeHashBulkObjs := s.freeHashBulkObjs.erase k } := by
  obtain ⟨hledger, ho⟩ := hs.orderly.forget k
  refine of_ledger (s := s) ho rfl ?_
  rw [hledger]
  exact Ledger.trimmed_forget hs.ledger_trimmed (resident_pos hs.orderly.procs _)

end Kept

section
variable {first size ptr k : ℕ} {id : SlotId} {r : Option ℕ} {n : BulkNode} {v : Pool} {t : Taken}

/-! ## `Get` of tiny, small and big objects -/

theorem getFree_cases {objs : FreeTable} {g : FreeTable × ℕ × ℕ} (h : getFreeObjFromSlotPage first objs = some g) :
    g = (objs, 0, 0) ∨ ∃ p a rest, objs.lookup p = some (a :: rest) ∧ g = (takeFree objs p rest, p, a) := by
  unfold getFreeObjFromSlotPage at h
  cases hhead : (objs.entries.rotate first).head? with
  | none =>
    rw [hhead] at h
    exact .inl (Option.some.inj h).symm
  | some e =>
    obtain ⟨p, l⟩ := e
    have hmem := List.mem_rotate.mp (List.mem_of_mem_head? hhead)
    cases l with
    | nil =>
      rw [hhead] at h
      cases h
    | cons a rest =>
      rw [hhead] at h
      exact .inr ⟨p, a, rest, AList.mem_lookup_iff.mpr hmem, (Option.some.inj h).symm⟩

/-- The end of a `Get` in a slot of its own. -/
def Pool.draw (s : Pool) (id : SlotId) (size first : ℕ) : Option (Pool × Option ℕ) :=
  (getFreeObjFromSlotPage first (s.slots id).objs).map fun g =>
    let slot := s.slots id
    if g.2.2 = 0 then ({ s with slots := Function.update s.slots id { slot with objs := g.1 } }, none)
    else
      let cnt := (slot.cnt + 2 ^ 32 - 1) % 2 ^ 32
      let s := { s with slots := Function.update s.slots id { slot with objs := g.1, cnt := cnt } }
      s.getMemObject size ⟨id.type, id.slotSize, g.2.2, g.2.1⟩

theorem getSlotObj_draw (hid : Pool.hasSlot id) (s : Pool) (size ptr first : ℕ) :
    s.getSlotObj id id.type id.slotSize id.onePageSize size ptr first =
      if (s.slots id).objs.entries = [] ∧ ptr ≠ 0 then (s.withPage id ptr).draw id size first
      else s.draw id size first := by
  unfold Pool.getSlotObj
  rw [if_pos hid]
  by_cases hempty : (s.slots id).objs.entries = []
  · by_cases hptr : ptr = 0
    · rw [if_neg fun h => h.2 hptr, ObjSlot.expand, if_pos hempty, allocPageObjs, if_pos hptr]
      rfl
    · rw [if_pos ⟨hempty, hptr⟩, expand_eq (s.slots id) s.heap hid fun _ => hptr, if_pos hempty, Option.bind_some]
      simp only [Pool.draw, Pool.withPage, Function.update_self, Function.update_idem]
  · rw [if_neg fun h => hempty h.1, ObjSlot.expand, if_neg hempty]
    rfl

theorem Kept.draw (hs : Kept s) (hid : Pool.hasSlot id) (hfew : (allFree (s.slots id).objs).length < 2 ^ 32)
    (h : s.draw id size first = some (u, r)) : Kept u := by
  obtain ⟨g, hg, h⟩ := Option.map_eq_some_iff.mp h
  rcases getFree_cases hg with rfl | ⟨p, a, rest, hl, rfl⟩
  · rw [if_pos rfl] at h
    cases h
    rw [Function.update_eq_self]
    exact hs
  · rw [if_neg (hs.orderly.valid_of_lookup (i := .own id) hl).1] at h
    have htable := @table_own s (s.withoutObj id p rest) id _ rfl rfl
    exact hs.take (i := .own id) hl hfew (hs.orderly.take (i := .own id) (w := s.withoutObj id p rest) hl
      ⟨rfl, rfl, rfl, rfl⟩ rfl htable hs.orderly.hooked ⟨hid, rfl, rfl⟩ rfl rfl h)

theorem Kept.getSlotObj (hs : Kept s) (hid : Pool.hasSlot id) (hfew : (allFree (s.slots id).objs).length < 2 ^ 32)
    (hptr : ptr ≠ 0 → ptr ∉ s.ledger.held)
    (h : s.getSlotObj id id.type id.slotSize id.onePageSize size ptr first = some (u, r)) : Kept u := by
  rw [getSlotObj_draw hid] at h
  split_ifs at h with hpage
  · have hobjs : (s.slots id).objs = ∅ := AList.ext hpage.1
    have htable : (s.withPage id ptr).table = Function.update s.table (.own id)
        ((∅ : FreeTable).insert ptr (blocks (Slot.own id).shape ptr), (Slot.own id).perPage) := by
      rw [← hobjs]
      exact @table_own s (s.withPage id ptr) id _ rfl rfl
    have hgrown := hs.grow (u := s.withPage id ptr) rfl (hs.orderly.grow (i := .own id) hid (hptr hpage.2) hpage.2
      ⟨rfl, rfl, rfl, rfl⟩ rfl htable hs.orderly.hooked)
    refine hgrown.draw hid ?_ h
    have hlt : id.shape.count < 2 ^ 32 := @Slot.perPage_lt (.own id) hid
    simp only [Pool.withPage, Function.update_self, hobjs, allFree_insert, List.length_append, length_blocks]
    exact hlt
  · exact hs.draw hid hfew h

/-! ## `Get` of bulk objects -/

theorem table_of_lookup (h : s.freeHashBulkObjs.lookup k = some n) : s.table (.bulk k) = (n.objs, n.cnt) := by
  rw [Pool.table, bulkFree_of_lookup h, bulkCnt_of_lookup h]

theorem table_of_none (h : s.freeHashBulkObjs.lookup k = none) : s.table (.bulk k) = (∅, 0) := by
  rw [Pool.table, bulkFree_of_none h, bulkCnt_of_none h]

/-- The slot keeps its element with one object less, or loses it with its last object. -/
def Drawn (w : Pool) (k : ℕ) (n : BulkNode) (p : ℕ) (rest : List ℕ) : Prop :=
  w.freeHashBulkObjs.lookup k = some ⟨n.node, takeFree n.objs p rest, (n.cnt + 2 ^ 32 - 1) % 2 ^ 32⟩ ∨
    w.freeHashBulkObjs.lookup k = none ∧ (takeFree n.objs p rest).entries = []

theorem Kept.table_drawn (hs : Kept s) (hk : s.freeHashBulkObjs.lookup k = some n)
    (hl : n.objs.lookup p = some (a :: rest)) (hslots : w.slots = s.slots)
    (hothers : ∀ j ≠ k, w.freeHashBulkObjs.lookup j = s.freeHashBulkObjs.lookup j) (hdrawn : Drawn w k n p rest) :
    w.table = Function.update s.table (.bulk k)
      (takeFree (s.table (.bulk k)).1 p rest, ((s.table (.bulk k)).2 + 2 ^ 32 - 1) % 2 ^ 32) := by
  have htable := table_of_lookup hk
  rw [table_bulk hslots hothers, htable]
  rcases hdrawn with hown | ⟨hnone, hempty⟩
  · rw [bulkFree_of_lookup hown, bulkCnt_of_lookup hown]
  · -- the last object was the only one, and it was counted
    have hmem : p ∈ s.ledger.free (.bulk k) := mem_pagesOf (by rw [htable]; exact hl)
    have hcnt : n.cnt = (allFree n.objs).length % 2 ^ 32 := by
      have hcounted := hs.orderly.sound.cnt_eq (Ledger.blocks_pos_of_free hmem)
      simp only [Pool.ledger, htable, card_pagesOf] at hcounted
      exact hcounted
    have hone : (allFree n.objs).length = 1 := by
      rw [length_allFree_take hl, allFree, hempty]
      rfl
    have hobjs : takeFree n.objs p rest = ∅ := AList.ext hempty
    have hzero : (n.cnt + 2 ^ 32 - 1) % 2 ^ 32 = 0 := by
      rw [hcnt, hone]
      rfl
    dsimp only
    rw [bulkFree_of_none hnone, bulkCnt_of_none hnone, hobjs, hzero]

theorem Kept.takeBulk (hs : Kept s) (hk : s.freeHashBulkObjs.lookup k = some n)
    (hl : n.objs.lookup p = some (a :: rest)) (hfew : (allFree n.objs).length < 2 ^ 32)
    (h : w.getMemObject size ⟨.Bulk, (k * sysPageSize) % 2 ^ 32, a, p⟩ = (u, r)) (hsame : SameUsers s w)
    (hslots : w.slots = s.slots) (hheap : w.heap = s.heap)
    (hothers : ∀ j ≠ k, w.freeHashBulkObjs.lookup j = s.freeHashBulkObjs.lookup j) (hdrawn : Drawn w k n p rest)
    (hhooked : Hooked w.freeHashBulkObjs w.freeBulkObjs w.nextNode) : Kept u := by
  have htable := table_of_lookup hk
  have hlookup : (s.table (.bulk k)).1.lookup p = some (a :: rest) := by
    rw [htable]
    exact hl
  have hvalid : InRange k := (hs.orderly.valid_of_lookup hlookup).2
  have hsize : (k * sysPageSize) % 2 ^ 32 = sysPageSize * k := by
    unfold sysPageSize
    have := hvalid.2
    omega
  refine hs.take hlookup (by rw [htable]; exact hfew) (hs.orderly.take hlookup hsame hheap
    (hs.table_drawn hk hl hslots hothers hdrawn) hhooked ⟨hvalid, rfl, hsize⟩ rfl rfl h)

theorem Orderly.ne_zero (hs : Orderly s) (hk : s.freeHashBulkObjs.lookup k = some n)
    (hl : n.objs.lookup p = some (a :: rest)) : a ≠ 0 :=
  (hs.valid_of_lookup (i := .bulk k) (p := p) (by rw [table_of_lookup hk]; exact hl)).1

theorem uncount_of_lookup (h : s.freeHashBulkObjs.lookup k = some n) :
    s.uncount k = s.setBulk k { n with cnt := (n.cnt + 2 ^ 32 - 1) % 2 ^ 32 } := by
  simp only [Pool.uncount, h]

theorem uncount_of_none (h : s.freeHashBulkObjs.lookup k = none) : s.uncount k = s := by
  simp only [Pool.uncount, h]

/-- The objects of the slots in the hash map are few. -/
def FewBulk (s : Pool) : Prop := ∀ e ∈ s.freeHashBulkObjs.entries, (allFree e.2.objs).length < 2 ^ 32

theorem FewBulk.lookup (hfew : FewBulk s) (hk : s.freeHashBulkObjs.lookup k = some n) :
    (allFree n.objs).length < 2 ^ 32 :=
  hfew ⟨k, n⟩ (AList.mem_lookup_iff.mp hk)

theorem Kept.handOut (hs : Kept s) (hfew : FewBulk s) {need : ℕ} {found : Pool.Suitable}
    (hsearch : Search s need (v, found)) (h : Pool.handOut size (v, found) = (u, r)) : Kept u := by
  have hh := hs.orderly.hooked
  unfold Pool.handOut at h
  cases hsearch with
  | nothing =>
    cases h
    exact hs
  | @own n p a rest hk hl =>
    rw [if_neg (hs.orderly.ne_zero hk hl)] at h
    dsimp only at h
    split_ifs at h with hempty
    · rw [uncount_eraseBulk] at h
      exact hs.takeBulk hk hl (hfew.lookup hk) h ⟨rfl, rfl, rfl, rfl⟩ rfl rfl (fun j hj => AList.lookup_erase_ne hj)
        (.inr ⟨AList.lookup_erase _ _, hempty⟩) ((hh.erase_hash need).erase_ordered need)
    · rw [uncount_setBulk] at h
      exact hs.takeBulk hk hl (hfew.lookup hk) h ⟨rfl, rfl, rfl, rfl⟩ rfl rfl (fun j hj => AList.lookup_insert_ne hj)
        (.inl (AList.lookup_insert _)) (hh.set hk rfl)
  | @larger x k n p a rest hx hlt hd hl =>
    obtain ⟨rfl, hk⟩ := lookup_of_deref hh hx hd
    rw [if_neg (hs.orderly.ne_zero hk hl), uncount_setBulk] at h
    exact hs.takeBulk hk hl (hfew.lookup hk) h ⟨rfl, rfl, rfl, rfl⟩ rfl rfl (fun j hj => AList.lookup_insert_ne hj)
      (.inl (AList.lookup_insert _)) (hh.set hk rfl)
  | @drained x k n p a rest hx hlt hd hl hempty y =>
    obtain ⟨rfl, hk⟩ := lookup_of_deref hh hx hd
    rw [if_neg (hs.orderly.ne_zero hk hl)] at h
    have hinsert : Hooked (s.freeHashBulkObjs.insert x.key { n with objs := takeFree n.objs p rest })
        s.freeBulkObjs s.nextNode := hh.set hk rfl
    by_cases hy : y = x.key
    · subst hy
      rw [uncount_of_none (AList.lookup_erase _ _)] at h
      refine hs.takeBulk hk hl (hfew.lookup hk) h ⟨rfl, rfl, rfl, rfl⟩ rfl rfl (fun j hj => ?_)
        (.inr ⟨AList.lookup_erase _ _, hempty⟩) ((hinsert.erase_hash x.key).erase_ordered x.key)
      exact (AList.lookup_erase_ne hj).trans (AList.lookup_insert_ne hj)
    · -- another slot's element is erased: its objects are lost first
      have hkept : ((s.freeHashBulkObjs.insert x.key { n with objs := takeFree n.objs p rest }).erase y).lookup x.key =
          some { n with objs := takeFree n.objs p rest } :=
        (AList.lookup_erase_ne (Ne.symm hy)).trans (AList.lookup_insert _)
      rw [uncount_of_lookup hkept] at h
      have hk' : (s.freeHashBulkObjs.erase y).lookup x.key = some n := (AList.lookup_erase_ne (Ne.symm hy)).trans hk
      refine (hs.forget y).takeBulk hk' hl (hfew.lookup hk) h ⟨rfl, rfl, rfl, rfl⟩ rfl rfl (fun j hj => ?_)
        (.inl (AList.lookup_insert _)) (((hinsert.erase_hash y).erase_ordered x.key).set hkept rfl)
      refine (AList.lookup_insert_ne hj).trans ?_
      by_cases hjy : j = y
      · rw [hjy, AList.lookup_erase, AList.lookup_erase]
      · rw [AList.lookup_erase_ne hjy, AList.lookup_insert_ne hj, AList.lookup_erase_ne hjy]

/-- A search that comes back without an object has changed nothing. -/
theorem Orderly.search_null (hs : Orderly s) {need : ℕ} {found : Pool.Suitable} (hsearch : Search s need (v, found))
    (hnull : found.objPv = 0) : v = s ∧ s.freeHashBulkObjs.lookup need = none := by
  cases hsearch with
  | nothing hk => exact ⟨rfl, hk⟩
  | own hk hl => exact absurd hnull (hs.ne_zero hk hl)
  | larger hx hlt hd hl => exact absurd hnull (hs.ne_zero (lookup_of_deref hs.hooked hx hd).2 hl)
  | drained hx hlt hd hl => exact absurd hnull (hs.ne_zero (lookup_of_deref hs.hooked hx hd).2 hl)

theorem Kept.withBulkPage (hs : Kept s) (hrange : InRange k) (hptr : ptr ≠ 0) (hheld : ptr ∉ s.ledger.held) :
    Kept (s.withBulkPage k ptr) := by
  have hlookup : (s.withBulkPage k ptr).freeHashBulkObjs.lookup k =
      some ⟨s.nextNode, (∅ : FreeTable).insert ptr (blocks (bulkShape k) ptr), (bulkShape k).count⟩ :=
    AList.lookup_insert _
  have htable := @table_bulk s (s.withBulkPage k ptr) k rfl fun j hj => AList.lookup_insert_ne hj
  rw [bulkFree_of_lookup hlookup, bulkCnt_of_lookup hlookup] at htable
  exact hs.grow (u := s.withBulkPage k ptr) rfl (hs.orderly.grow (i := .bulk k) hrange hheld hptr
    ⟨rfl, rfl, rfl, rfl⟩ rfl htable (hs.orderly.hooked.new k _ _))

theorem Kept.withNoPage (hs : Kept s) (hk : s.freeHashBulkObjs.lookup k = none) : Kept (s.withNoPage k) := by
  have hlookup := withNoPage_lookup hk
  have htable : (s.withNoPage k).table = s.table := by
    rw [@table_bulk s (s.withNoPage k) k rfl fun j _ => hlookup j,
      bulkFree_of_none ((hlookup k).trans hk), bulkCnt_of_none ((hlookup k).trans hk), ← table_of_none hk,
      Function.update_eq_self]
  have hledger : (s.withNoPage k).ledger = s.ledger := by
    simp only [Pool.ledger, htable]
    rfl
  have hhooked := ((hs.orderly.hooked.new k ∅ 0).erase_hash k).erase_ordered k
  refine Kept.of_ledger (s := s) ⟨?_, hs.orderly.records, ?_, hs.orderly.users, hhooked, hs.orderly.procs⟩ rfl ?_
  · rw [hledger]
    exact hs.orderly.sound
  · rw [htable]
    exact hs.orderly.cells
  · rw [hledger]
    exact hs.ledger_trimmed

theorem fewBulk_insert (hfew : FewBulk s) (hn : (allFree n.objs).length < 2 ^ 32)
    (hu : u.freeHashBulkObjs = s.freeHashBulkObjs.insert k n) : FewBulk u := by
  intro e he
  rw [hu] at he
  rcases List.mem_cons.mp he with rfl | he
  · exact hn
  · exact hfew e ((List.kerase_sublist _ _).subset he)

theorem roundup_bulk (h1 : bulkObjThreshold < size) (h2 : size < 2 ^ 32) :
    roundupToTheNextHighestMultipleOfExponent2 size bulkObjSlotFootstepExponent = sysPageSize * slotIdxFor size ∧
      (slotIdxFor size = 0 ∨ InRange (slotIdxFor size)) := by
  by_cases hle : size ≤ 2 ^ 32 - sysPageSize
  · obtain ⟨hrange, -, hround⟩ := slotIdxFor_eq h1 hle
    exact ⟨hround, .inr hrange⟩
  · have hzero := slotSizeFor_eq_zero (not_le.mp hle) h2
    rw [classOf_bulk_iff.mpr h1] at hzero
    have hround : roundupToTheNextHighestMultipleOfExponent2 size bulkObjSlotFootstepExponent = 0 := hzero
    have hidx : slotIdxFor size = 0 := by rw [slotIdxFor, hround, Nat.zero_div]
    rw [hround, hidx]
    exact ⟨rfl, .inl rfl⟩

/-- The slot gets a page, or none when there is no memory; a page for slot 0 is divided by zero. -/
theorem Kept.expandBulk (hs : Kept s) (hfew : FewBulk s) (hk : s.freeHashBulkObjs.lookup k = none)
    (hrange : k = 0 ∨ InRange k) (hheld : ptr ≠ 0 → ptr ∉ s.ledger.held)
    (h : s.expandBulk (sysPageSize * k) k ptr = some u) : Kept u ∧ FewBulk u := by
  by_cases hptr : ptr = 0
  · rw [hptr, expandBulk_null hk] at h
    cases h
    refine ⟨hs.withNoPage hk, fun e he => ?_⟩
    have he := (List.kerase_sublist _ _).subset he
    rcases List.mem_cons.mp he with rfl | he
    · exact Nat.two_pow_pos 32
    · exact hfew e ((List.kerase_sublist _ _).subset he)
  · rcases hrange with rfl | hrange
    · have hnone : s.expandBulk (sysPageSize * 0) 0 ptr = none := by
        unfold Pool.expandBulk Pool.assignBulk
        simp only [hk, Pool.linkBulk, Pool.setBulk, AList.lookup_insert, Option.map_some, Option.bind_some,
          allocPageObjs, if_neg hptr, splitMemPage, quotient, Nat.mul_zero, if_true, Option.map_none]
      rw [hnone] at h
      cases h
    · rw [expandBulk_page hk hrange hptr] at h
      cases h
      refine ⟨hs.withBulkPage hrange hptr (hheld hptr), fewBulk_insert hfew ?_ rfl⟩
      rw [allFree_insert, List.length_append, length_blocks]
      exact @Slot.perPage_lt (.bulk k) hrange

theorem Kept.getBulkObj (hs : Kept s) (hfew : FewBulk s) (h1 : bulkObjThreshold < size) (h2 : size < 2 ^ 32)
    (hheld : ptr ≠ 0 → ptr ∉ s.ledger.held) (h : s.getBulkObj size ptr first = some (u, r)) : Kept u := by
  obtain ⟨hround, hrange⟩ := roundup_bulk h1 h2
  rw [getBulkObj_eq hround] at h
  obtain ⟨⟨v, found⟩, hfound, h⟩ := Option.bind_eq_some_iff.mp h
  obtain ⟨⟨w, last⟩, hlast, hout⟩ := Option.map_eq_some_iff.mp h
  split_ifs at hlast with hnull
  · obtain ⟨hv, hk⟩ := hs.orderly.search_null (search_of_eq hfound) hnull
    rw [hv] at hlast
    obtain ⟨x, hx, hlast⟩ := Option.bind_eq_some_iff.mp hlast
    obtain ⟨hkept, hfew⟩ := hs.expandBulk hfew hk hrange hheld hx
    exact hkept.handOut hfew (search_of_eq hlast) hout
  · cases hlast
    exact hs.handOut hfew (search_of_eq hfound) hout

/-! ## `Put` -/

theorem fullPage_eq_none {n : ℕ} {objs : FreeTable} (h : fullPage first n objs = none) (hn : 0 < n) (q : ℕ) :
    (freeOf objs q).length ≠ n := by
  intro hlen
  obtain ⟨b, hb⟩ := List.exists_mem_of_length_pos (hlen ▸ hn)
  obtain ⟨l, hl, -⟩ := lookup_of_mem_freeOf hb
  rw [freeOf_of_lookup hl] at hlen
  have hmem : ⟨q, l⟩ ∈ objs.entries.rotate first := List.mem_rotate.mpr (AList.mem_lookup_iff.mp hl)
  exact List.find?_eq_none.mp (Option.map_eq_none_iff.mp h) _ hmem (decide_eq_true hlen)

/-- Nothing has to be released, or nothing can be. -/
theorem Orderly.trimmed_of (hu : Orderly u) (hi : i.Valid) (first : ℕ)
    (h : u.resident i + i.perPage ≤ (u.table i).2 → fullPage first i.perPage (u.table i).1 = none) : u.Trimmed i := by
  intro hmany q
  have hle := hu.sound.count_le i q
  rw [show (u.ledger.free i).count q = (freeOf (u.table i).1 q).length from count_pagesOf _ q] at hle
  exact lt_of_le_of_ne hle (fullPage_eq_none (h hmany) (Slot.perPage_pos hi) q)

theorem Orderly.puts_kept (hu : Orderly u) (hledger : u.ledger = s.ledger.give i p) (hres : u.resident = s.resident)
    (hi : i.Valid) (first : ℕ)
    (h : u.resident i + i.perPage ≤ (u.table i).2 → fullPage first i.perPage (u.table i).1 = none) :
    Ledger.Puts s.ledger Slot.perPage s.resident i p u.ledger := by
  have htrimmed := trimmed_iff.mp (hu.trimmed_of hi first h)
  rw [hledger, hres] at htrimmed
  rw [hledger]
  exact .kept htrimmed

theorem Orderly.puts_released (hv : Orderly v) (hledger : v.ledger = s.ledger.give i p)
    (hres : v.resident = s.resident) (hi : i.Valid) {q : ℕ} (hmany : v.resident i + i.perPage ≤ (v.table i).2)
    (hfull : fullPage first i.perPage (v.table i).1 = some q) (htable : u.table = Function.update v.table i
      ((v.table i).1.erase q, ((v.table i).2 + 2 ^ 32 - i.perPage) % 2 ^ 32)) (hsame : SameUsers v u)
    (hheap : u.heap = v.heap.filter fun r => r.base ≠ q)
    (hhooked : Hooked u.freeHashBulkObjs u.freeBulkObjs u.nextNode) :
    Ledger.Puts s.ledger Slot.perPage s.resident i p u.ledger ∧ Orderly u := by
  obtain ⟨l, hl, hlen⟩ := lookup_fullPage hfull
  have hfree : (freeOf (v.table i).1 q).length = i.perPage := (congrArg List.length (freeOf_of_lookup hl)).trans hlen
  obtain ⟨hreleased, hu⟩ := hv.release hi hfree htable hsame hheap hhooked
  have hcount : (v.ledger.free i).count q = i.perPage := (count_pagesOf _ q).trans hfree
  have hcnt : s.resident i + i.perPage ≤ v.ledger.cnt i := hres ▸ hmany
  refine ⟨?_, hu⟩
  rw [hledger] at hreleased hcount hcnt
  rw [hreleased]
  exact .released hcnt hcount

/-- `Put` in a slot of its own gives the object back, and then drops a page or does not. -/
theorem put_own_cases (hmem : s.memObjs[t.handle]? = some t.obj) (hof : t.obj.Of (.own id))
    (h : s.put t.handle first = some u) :
    (u = s.withObj id t ∧ (id.residentCnts + id.shape.count ≤ ((s.withObj id t).slots id).cnt →
        fullPage first id.shape.count ((s.withObj id t).slots id).objs = none)) ∨
      ∃ q, u = (s.withObj id t).withoutPage id q ∧
        id.residentCnts + id.shape.count ≤ ((s.withObj id t).slots id).cnt ∧
        fullPage first id.shape.count ((s.withObj id t).slots id).objs = some q := by
  have hid : Pool.hasSlot id := hof.valid
  rw [put_of_kept hmem, putObj_of_slot hof.type hof.size, Pool.putSlotObj, if_pos hid] at h
  obtain ⟨w, hw, rfl⟩ := Option.map_eq_some_iff.mp h
  obtain ⟨r, hr, rfl⟩ := Option.map_eq_some_iff.mp hw
  rw [ObjSlot.put, quotient, if_neg (slotSize_bounds hid).1.ne', Option.bind_some] at hr
  have hslot : (s.withObj id t).slots id = ⟨(s.slots id).pages,
      (s.slots id).objs.insert t.obj.objPagePv (freeOf (s.slots id).objs t.obj.objPagePv ++ [t.obj.objPv]),
      ((s.slots id).cnt + 1) % 2 ^ 32⟩ := Function.update_self _ _ _
  rw [hslot]
  split_ifs at hr with hmany
  · cases hfull : fullPage first (id.onePageSize / id.slotSize)
        ((s.slots id).objs.insert t.obj.objPagePv
          (freeOf (s.slots id).objs t.obj.objPagePv ++ [t.obj.objPv])) with
    | none =>
      rw [hfull] at hr
      cases hr
      exact .inl ⟨rfl, fun _ => hfull⟩
    | some q =>
      rw [hfull] at hr
      obtain ⟨heap, hheap, rfl⟩ := Option.map_eq_some_iff.mp hr
      unfold freeRegion at hheap
      split_ifs at hheap
      cases hheap
      refine .inr ⟨q, ?_, hmany, hfull⟩
      simp only [Pool.withoutPage, hslot]
      simp only [Pool.withObj, Pool.putBack, Function.update_idem]
      rfl
  · cases hr
    exact .inl ⟨rfl, fun hstill => absurd hstill hmany⟩

theorem Orderly.putOwn (hs : Orderly s) (ht : t ∈ s.live) (hof : t.obj.Of (.own id))
    (h : s.put t.handle first = some u) :
    Ledger.Puts s.ledger Slot.perPage s.resident (.own id) t.obj.objPagePv u.ledger ∧ Orderly u ∧
      u.oneSlotBulkObjResidentCnts = s.oneSlotBulkObjResidentCnts := by
  have hslots : (s.withObj id t).slots = Function.update s.slots id _ := rfl
  obtain ⟨hledger, ho⟩ : (s.withObj id t).ledger = s.ledger.give (.own id) t.obj.objPagePv ∧
      Orderly (s.withObj id t) :=
    hs.give (i := .own id) (w := { s with slots := (s.withObj id t).slots }) ht hof ⟨rfl, rfl, rfl, rfl⟩ rfl
      (table_own hslots rfl) hs.hooked
  rcases put_own_cases (hs.records.kept t ht) hof h with ⟨rfl, hnone⟩ | ⟨q, rfl, hmany, hfull⟩
  · exact ⟨ho.puts_kept hledger rfl hof.valid first hnone, ho, rfl⟩
  · have htable := @table_own (s.withObj id t) ((s.withObj id t).withoutPage id q) id _ rfl rfl
    obtain ⟨hputs, hu⟩ := ho.puts_released (i := .own id) hledger rfl hof.valid hmany hfull htable
      ⟨rfl, rfl, rfl, rfl⟩ rfl ho.hooked
    exact ⟨hputs, hu, rfl⟩

/-! A bulk object that is kept -/

theorem table_withBulk (s : Pool) (k : ℕ) (t : Taken) :
    (s.withBulk k t).table = Function.update s.table (.bulk k)
      ((s.table (.bulk k)).1.insert t.obj.objPagePv
        (freeOf (s.table (.bulk k)).1 t.obj.objPagePv ++ [t.obj.objPv]), ((s.table (.bulk k)).2 + 1) % 2 ^ 32) := by
  unfold Pool.withBulk
  cases hk : s.freeHashBulkObjs.lookup k with
  | some n =>
    have htable := @table_bulk s (s.setBulk k ⟨n.node, n.objs.insert t.obj.objPagePv
      (freeOf n.objs t.obj.objPagePv ++ [t.obj.objPv]), (n.cnt + 1) % 2 ^ 32⟩) k rfl fun j hj => AList.lookup_insert_ne hj
    rw [bulkFree_of_lookup (AList.lookup_insert _), bulkCnt_of_lookup (AList.lookup_insert _)] at htable
    rw [table_of_lookup hk]
    exact htable
  | none =>
    have htable := @table_bulk s { s.setBulk k ⟨s.nextNode, (∅ : FreeTable).insert t.obj.objPagePv [t.obj.objPv], 1⟩ with
      freeBulkObjs := s.freeBulkObjs.assign k s.nextNode
      nextNode := s.nextNode + 1 } k rfl fun j hj => AList.lookup_insert_ne hj
    rw [bulkFree_of_lookup (AList.lookup_insert _), bulkCnt_of_lookup (AList.lookup_insert _)] at htable
    rw [table_of_none hk]
    exact htable

theorem hooked_withBulk (hh : Hooked s.freeHashBulkObjs s.freeBulkObjs s.nextNode) (k : ℕ) (t : Taken) :
    Hooked (s.withBulk k t).freeHashBulkObjs (s.withBulk k t).freeBulkObjs (s.withBulk k t).nextNode := by
  unfold Pool.withBulk
  cases hk : s.freeHashBulkObjs.lookup k with
  | some n => exact hh.set hk rfl
  | none => exact hh.new k _ _

theorem Orderly.giveBulk (hs : Orderly s) (ht : t ∈ s.live) (hof : t.obj.Of (.bulk k)) :
    ((s.withBulk k t).putBack t).ledger = s.ledger.give (.bulk k) t.obj.objPagePv ∧
      Orderly ((s.withBulk k t).putBack t) := by
  obtain ⟨hmem, hfree, hlive, hheap, -, hprocs⟩ := withBulk_users s k t
  exact hs.give ht hof ⟨hmem, hfree, hlive, hprocs⟩ hheap (table_withBulk s k t) (hooked_withBulk hs.hooked k t)

theorem put_bulk_eq (hmem : s.memObjs[t.handle]? = some t.obj) (hof : t.obj.Of (.bulk k)) (hk : k ≤ 256)
    (hn : (s.withBulk k t).freeHashBulkObjs.lookup k = some n) (first : ℕ) :
    s.put t.handle first = ((s.withBulk k t).putBack t).trimBulk k n first := by
  have hsize : t.obj.slotSize = sysPageSize * k := hof.size
  have hidx : t.obj.slotSize / sysPageSize = k := by rw [hsize, Nat.mul_div_cancel_left _ (by decide)]
  have hkept : ¬ availableReserveBulkObjMaxSize < t.obj.slotSize := by
    rw [hsize]
    unfold availableReserveBulkObjMaxSize sysPageSize
    omega
  have htype : t.obj.type = .Bulk := hof.type
  rw [put_of_kept hmem, Pool.putObj, htype]
  dsimp only
  rw [if_neg hkept, hidx, keepBulkObj_eq hof.valid hk hsize hn, trimBulk_putBack]

/-- What trimming does: nothing, or it drops a page; the slot keeps objects then. -/
theorem trimBulk_cases (hprocs : 0 < s.oneSlotBulkObjResidentCnts) (hcnt : n.cnt < 2 ^ 32)
    (h : s.trimBulk k n first = some u) :
    (u = s ∧ (s.oneSlotBulkObjResidentCnts + expandBulkObjCntFactor ≤ n.cnt →
        fullPage first expandBulkObjCntFactor n.objs = none)) ∨
      ∃ q, u = s.withoutBulkPage k n q ∧ s.oneSlotBulkObjResidentCnts + expandBulkObjCntFactor ≤ n.cnt ∧
        fullPage first expandBulkObjCntFactor n.objs = some q := by
  unfold Pool.trimBulk at h
  by_cases hmany : s.oneSlotBulkObjResidentCnts + expandBulkObjCntFactor ≤ n.cnt
  · rw [if_pos hmany] at h
    cases hfull : fullPage first expandBulkObjCntFactor n.objs with
    | none =>
      rw [hfull] at h
      cases h
      exact .inl ⟨rfl, fun _ => rfl⟩
    | some q =>
      have hkept : (n.cnt + 2 ^ 32 - expandBulkObjCntFactor) % 2 ^ 32 ≠ 0 := by
        unfold expandBulkObjCntFactor at hmany ⊢
        omega
      rw [hfull] at h
      obtain ⟨heap, hheap, rfl⟩ := Option.map_eq_some_iff.mp h
      unfold freeRegion at hheap
      split_ifs at hheap
      cases hheap
      refine .inr ⟨q, ?_, hmany, rfl⟩
      dsimp only
      rw [if_neg hkept]
      rfl
  · rw [if_neg hmany] at h
    cases h
    exact .inl ⟨rfl, fun hstill => absurd hstill hmany⟩

theorem lookup_putBack (s : Pool) (k : ℕ) (t : Taken) :
    ∃ n, (s.withBulk k t).freeHashBulkObjs.lookup k = some n ∧ n.cnt < 2 ^ 32 ∧
      ((s.withBulk k t).putBack t).table (.bulk k) = (n.objs, n.cnt) := by
  obtain ⟨n, hn⟩ := lookup_withBulk s k t
  have htable := table_of_lookup hn
  have hcnt := congrArg Prod.snd ((congrFun (table_withBulk s k t) (.bulk k)).symm.trans htable)
  rw [Function.update_self] at hcnt
  dsimp only at hcnt
  exact ⟨n, hn, hcnt ▸ Nat.mod_lt _ (by norm_num), htable⟩

theorem Orderly.putBulk (hs : Orderly s) (ht : t ∈ s.live) (hof : t.obj.Of (.bulk k)) (hk : k < 256)
    (h : s.put t.handle first = some u) :
    Ledger.Puts s.ledger Slot.perPage s.resident (.bulk k) t.obj.objPagePv u.ledger ∧ Orderly u ∧
      u.oneSlotBulkObjResidentCnts = s.oneSlotBulkObjResidentCnts := by
  obtain ⟨hledger, ho⟩ := hs.giveBulk ht hof
  obtain ⟨n, hn, hlt, htable⟩ := lookup_putBack s k t
  have hprocs : ((s.withBulk k t).putBack t).oneSlotBulkObjResidentCnts = s.oneSlotBulkObjResidentCnts :=
    (withBulk_users s k t).2.2.2.2.2
  have hper : (Slot.bulk k).perPage = expandBulkObjCntFactor := by
    have hrange : InRange k := hof.valid
    exact (bulkShape_count hrange.1).trans (if_pos hk)
  rw [put_bulk_eq (hs.records.kept t ht) hof hk.le hn] at h
  rcases trimBulk_cases ho.procs hlt h with ⟨rfl, hnone⟩ | ⟨q, rfl, hmany, hfull⟩
  · refine ⟨ho.puts_kept hledger (resident_eq hprocs) hof.valid first ?_, ho, hprocs⟩
    rw [htable, hper]
    exact hnone
  · have hlookup : (((s.withBulk k t).putBack t).withoutBulkPage k n q).freeHashBulkObjs.lookup k =
        some ⟨n.node, n.objs.erase q, (n.cnt + 2 ^ 32 - expandBulkObjCntFactor) % 2 ^ 32⟩ := AList.lookup_insert _
    have htable' := @table_bulk ((s.withBulk k t).putBack t) (((s.withBulk k t).putBack t).withoutBulkPage k n q) k rfl
      fun j hj => AList.lookup_insert_ne hj
    rw [bulkFree_of_lookup hlookup, bulkCnt_of_lookup hlookup] at htable'
    obtain ⟨hputs, hu⟩ := ho.puts_released (u := ((s.withBulk k t).putBack t).withoutBulkPage k n q) (q := q) hledger
      (resident_eq hprocs) hof.valid (by rw [htable, hper]; exact hmany) (by rw [htable, hper]; exact hfull)
      (by rw [htable, hper]; exact htable') ⟨rfl, rfl, rfl, rfl⟩ rfl (ho.hooked.set hn rfl)
    exact ⟨hputs, hu, hprocs⟩

/-- An object of 1 MiB is kept, and no page goes: the page it is looked for has four objects. -/
theorem Orderly.putMiB (hs : Orderly s) (ht : t ∈ s.live) (hof : t.obj.Of (.bulk 256)) (first : ℕ) :
    ∃ u, s.put t.handle first = some u ∧ u.ledger = s.ledger.give (.bulk 256) t.obj.objPagePv ∧ Orderly u ∧
      u.oneSlotBulkObjResidentCnts = s.oneSlotBulkObjResidentCnts := by
  obtain ⟨hledger, ho⟩ := hs.giveBulk ht hof
  obtain ⟨n, hn, -, htable⟩ := lookup_putBack s 256 t
  have hnone : fullPage first expandBulkObjCntFactor n.objs = none := by
    by_contra hsome
    obtain ⟨q, hq⟩ := Option.ne_none_iff_exists'.mp hsome
    obtain ⟨l, hl, hlen⟩ := lookup_fullPage hq
    have hle := ho.sound.count_le (.bulk 256) q
    simp only [Pool.ledger, htable, count_pagesOf, freeOf_of_lookup hl, hlen] at hle
    exact absurd hle (by decide)
  refine ⟨_, ?_, hledger, ho, (withBulk_users s 256 t).2.2.2.2.2⟩
  rw [put_bulk_eq (hs.records.kept t ht) hof le_rfl hn, Pool.trimBulk, hnone]
  split_ifs <;> rfl

theorem Orderly.putLarge (hs : Orderly s) (ht : t ∈ s.live) (hof : t.obj.Of (.bulk k)) (hk : 256 < k)
    (h : s.put t.handle first = some u) :
    u.ledger = s.ledger.discard (.bulk k) t.obj.objPagePv ∧ Orderly u ∧
      u.oneSlotBulkObjResidentCnts = s.oneSlotBulkObjResidentCnts := by
  have hsize : t.obj.slotSize = sysPageSize * k := hof.size
  have hlarge : availableReserveBulkObjMaxSize < t.obj.slotSize := by
    rw [hsize]
    unfold availableReserveBulkObjMaxSize sysPageSize
    omega
  have htype : t.obj.type = .Bulk := hof.type
  have hone : (Slot.bulk k).perPage = 1 := (bulkShape_count (by omega)).trans (if_neg (by omega))
  rw [put_of_kept (hs.records.kept t ht), Pool.putObj, htype] at h
  dsimp only at h
  rw [if_pos hlarge, Pool.dropBulkObj] at h
  obtain ⟨w, hw, rfl⟩ := Option.map_eq_some_iff.mp h
  obtain ⟨pages, -, hw⟩ := Option.bind_eq_some_iff.mp hw
  obtain ⟨heap, hheap, rfl⟩ := Option.map_eq_some_iff.mp hw
  unfold freeRegion at hheap
  split_ifs at hheap
  cases hheap
  obtain ⟨hledger, ho⟩ := hs.discard (w := { s with
    heap := s.heap.filter fun r => r.base ≠ t.obj.objPagePv
    bulkObjPages := _ }) ht hof hone ⟨rfl, rfl, rfl, rfl⟩ rfl (by funext j; cases j <;> rfl) hs.hooked
  exact ⟨hledger, ho, rfl⟩

/-- Only the slot of 1 MiB objects can be left with more than it is to keep. -/
theorem Kept.put (hs : Kept s) (ht : t ∈ s.live) (h : s.put t.handle first = some u) :
    Orderly u ∧ ∀ i, i ≠ .bulk 256 ∨ ¬ t.obj.Of (.bulk 256) → u.Trimmed i := by
  obtain ⟨-, i, hof⟩ := hs.orderly.users t ht
  have hlive := Orderly.mem_live ht hof
  have hputs : Ledger.Puts s.ledger Slot.perPage s.resident i t.obj.objPagePv u.ledger ∧ Orderly u ∧
      u.oneSlotBulkObjResidentCnts = s.oneSlotBulkObjResidentCnts → Orderly u ∧ ∀ j, u.Trimmed j := by
    rintro ⟨hputs, ho, hprocs⟩
    refine ⟨ho, (Kept.of_ledger ho hprocs ?_).trimmed⟩
    exact hputs.trimmed (Slot.perPage_pos hof.valid) hs.ledger_trimmed
  cases i with
  | own id =>
    obtain ⟨ho, htrimmed⟩ := hputs (hs.orderly.putOwn ht hof h)
    exact ⟨ho, fun j _ => htrimmed j⟩
  | bulk k =>
    rcases lt_trichotomy k 256 with hk | rfl | hk
    · obtain ⟨ho, htrimmed⟩ := hputs (hs.orderly.putBulk ht hof hk h)
      exact ⟨ho, fun j _ => htrimmed j⟩
    · obtain ⟨v, hv, hledger, ho, hprocs⟩ := hs.orderly.putMiB ht hof first
      obtain rfl := Option.some.inj (h.symm.trans hv)
      refine ⟨ho, fun j hj => ?_⟩
      have hne : j ≠ .bulk 256 := hj.resolve_right (not_not.mpr hof)
      rw [trimmed_iff, resident_eq hprocs]
      refine (hs.ledger_trimmed j).of_eq ?_ ?_
      · rw [hledger]
        exact Function.update_of_ne hne _ _
      · rw [hledger]
        exact Function.update_of_ne hne _ _
    · obtain ⟨hledger, ho, hprocs⟩ := hs.orderly.putLarge ht hof hk h
      refine ⟨ho, fun j _ => ?_⟩
      rw [trimmed_iff, resident_eq hprocs, hledger]
      exact (hs.ledger_trimmed j).of_eq rfl rfl

/-- An object of 1 MiB leaves its slot trimmed exactly if the counter does not pass the limit. -/
theorem Kept.putMiB_iff (hs : Kept s) (ht : t ∈ s.live) (hof : t.obj.Of (.bulk 256)) (first : ℕ) :
    ∃ u, s.put t.handle first = some u ∧
      (u.Trimmed (.bulk 256) ↔ (s.bulkCnt 256 + 1) % 2 ^ 32 ≤ s.oneSlotBulkObjResidentCnts) := by
  obtain ⟨u, hu, hledger, -, hprocs⟩ := hs.orderly.putMiB ht hof first
  refine ⟨u, hu, ?_⟩
  rw [trimmed_iff, resident_eq hprocs, hledger]
  exact Ledger.trimmed_give_iff (by decide)

end

end

/-! ## Runs -/

/-- Any size is asked for; `posix_memalign` returns null or memory the pool does not have; a live
object is put back. -/
def Callable (s : Pool) : Event → Prop
  | .get size ptr _ => size < 2 ^ 32 ∧ (ptr ≠ 0 → ∀ r ∈ s.heap, r.base ≠ ptr)
  | .put handle _ => ∃ t ∈ s.live, t.handle = handle

/-- The slots a request may be served from have less than 2^32 free objects. -/
def Few (s : Pool) : Event → Prop
  | .get size _ _ =>
    if size ≤ bulkObjThreshold then (allFree (s.slots (slotFor size)).objs).length < 2 ^ 32 else FewBulk s
  | .put _ _ => True

/-- An object of 1 MiB is put back only while its slot has fewer of them than it is to keep. -/
def Frugal (s : Pool) : Event → Prop
  | .get _ _ _ => True
  | .put handle _ => ∀ obj ∈ s.memObjs[handle]?, obj.type = .Bulk → obj.slotSize = availableReserveBulkObjMaxSize →
      (s.bulkCnt 256 + 1) % 2 ^ 32 ≤ s.oneSlotBulkObjResidentCnts

/-- After the `Put` of an object that is kept its slot has no surplus page. -/
def Releases (s : Pool) : Event → Prop
  | .get _ _ _ => True
  | .put handle first => ∀ u ∈ s.put handle first, ∀ obj ∈ s.memObjs[handle]?,
      obj.slotSize ≤ availableReserveBulkObjMaxSize → u.Trimmed obj.slotOf

instance decidableTrimmed (s : Pool) (i : Slot) : Decidable (s.Trimmed i) :=
  decidable_of_iff (s.resident i + i.perPage ≤ (s.table i).2 →
      0 < i.perPage ∧ ∀ e ∈ (s.table i).1.entries, e.2.length < i.perPage) <| by
    refine imp_congr_right fun _ => ⟨fun h p => ?_, fun h => ⟨(Nat.zero_le _).trans_lt (h 0), fun e he => ?_⟩⟩
    · cases hl : (s.table i).1.lookup p with
      | none =>
        rw [freeOf, hl]
        exact h.1
      | some l =>
        rw [freeOf_of_lookup hl]
        exact h.2 ⟨p, l⟩ (AList.mem_lookup_iff.mp hl)
    · have hlt := h e.1
      rwa [freeOf_of_lookup (AList.mem_lookup_iff.mpr he)] at hlt

instance decidableCallable (s : Pool) : DecidablePred (Callable s)
  | .get _ _ _ => inferInstanceAs (Decidable (_ ∧ (_ → _)))
  | .put handle _ => inferInstanceAs (Decidable (∃ t ∈ s.live, t.handle = handle))

instance decidableFew (s : Pool) : DecidablePred (Few s)
  | .get _ _ _ => inferInstanceAs (Decidable (if _ ≤ _ then _ < _ else ∀ e ∈ s.freeHashBulkObjs.entries, _ < _))
  | .put _ _ => isTrue trivial

instance decidableFrugal (s : Pool) : DecidablePred (Frugal s)
  | .get _ _ _ => isTrue trivial
  | .put handle _ => inferInstanceAs (Decidable (∀ obj ∈ s.memObjs[handle]?, _ → _ → _))

instance decidableReleases (s : Pool) : DecidablePred (Releases s)
  | .get _ _ _ => isTrue trivial
  | .put handle first =>
    inferInstanceAs (Decidable (∀ u ∈ s.put handle first, ∀ obj ∈ s.memObjs[handle]?, _ → u.Trimmed obj.slotOf))

theorem kept_start (freeTinyObjsCnt : ℕ) {nprocs : ℕ} (h : 0 < nprocs) : Kept (start freeTinyObjsCnt nprocs) := by
  have hfree : ∀ i, ((start freeTinyObjsCnt nprocs).table i).1 = ∅ := by
    intro i
    rcases i with (_ | _ | _) | _ <;> rfl
  have hblocks : ∀ i p, (start freeTinyObjsCnt nprocs).ledger.blocks i p = 0 := by
    intro i p
    simp only [Ledger.blocks, Pool.ledger, hfree]
    rfl
  refine ⟨⟨⟨fun i p => ?_, fun i j p hi => ?_, fun i p hi => ?_, fun i => .inl (hblocks i)⟩,
    .empty _, fun i p a ha => ?_, fun t ht => ?_, .empty _, h⟩, fun i hmany p => ?_⟩
  · rw [hblocks]
    exact Nat.zero_le _
  · rw [hblocks] at hi
    cases hi
  · rw [hblocks] at hi
    cases hi
  · rw [hfree] at ha
    cases ha
  · cases ht
  · -- only the counter of tiny objects may hold anything
    rw [hfree]
    have hcnt : i = .own .tiny ∨ ((start freeTinyObjsCnt nprocs).table i).2 = 0 := by
      rcases i with (_ | _ | _) | _
      · exact .inl rfl
      · exact .inr rfl
      · exact .inr rfl
      · exact .inr rfl
    rcases hcnt with rfl | hzero
    · exact Slot.perPage_pos (i := .own .tiny) trivial
    · have hpos := @resident_pos (start freeTinyObjsCnt nprocs) h i
      omega

theorem Kept.step_get {s u : Pool} (hs : Kept s) {size ptr first : ℕ} (hcall : Callable s (.get size ptr first))
    (hfew : Few s (.get size ptr first)) {r : Option ℕ} (h : s.get size ptr first = some (u, r)) : Kept u := by
  obtain ⟨hsize, hptr⟩ := hcall
  have hheld : ptr ≠ 0 → ptr ∉ s.ledger.held := by
    rintro hne ⟨r, hr, hbase⟩
    exact hptr hne r hr hbase
  have hne : size ≠ 0 := by
    rintro rfl
    cases h
  by_cases hbulk : size ≤ bulkObjThreshold
  · obtain ⟨hid, -, hget⟩ := get_eq (Nat.pos_of_ne_zero hne) hbulk
    rw [hget] at h
    exact hs.getSlotObj hid (by rwa [Few, if_pos hbulk] at hfew) hheld h
  · rw [get_eq_class hne, if_pos (classOf_bulk_iff.mpr (not_le.mp hbulk))] at h
    exact hs.getBulkObj (by rwa [Few, if_neg hbulk] at hfew) (not_le.mp hbulk) hsize hheld h

theorem of_mib_iff {obj : MemObject} :
    obj.Of (.bulk 256) ↔ obj.type = .Bulk ∧ obj.slotSize = availableReserveBulkObjMaxSize := by
  constructor
  · intro hof
    exact ⟨hof.type, hof.size⟩
  · rintro ⟨htype, hsize⟩
    exact ⟨⟨by decide, by decide⟩, htype, hsize⟩

/-- What a `Put` leaves and what it needs. -/
theorem Kept.releases_iff {s : Pool} (hs : Kept s) {e : Event} (hcall : Callable s e) : Releases s e ↔ Frugal s e := by
  cases e with
  | get size ptr first => exact Iff.rfl
  | put handle first =>
    obtain ⟨t, ht, rfl⟩ := hcall
    have hobj := hs.orderly.records.kept t ht
    have hmib := @of_mib_iff t.obj
    simp only [Releases, Frugal, hobj, Option.mem_def, Option.some.injEq, forall_eq']
    by_cases hof : t.obj.Of (.bulk 256)
    · obtain ⟨u, hu, hiff⟩ := hs.putMiB_iff ht hof first
      obtain ⟨htype, hsize⟩ := hmib.mp hof
      rw [hof.slotOf_eq]
      constructor
      · intro h _ _
        exact hiff.mp (h u hu hsize.le)
      · intro h v hv _
        obtain rfl := Option.some.inj (hu.symm.trans hv)
        exact hiff.mpr (h htype hsize)
    · refine iff_of_true (fun u hu _ => (hs.put ht hu).2 _ (.inr hof)) fun htype hsize => ?_
      exact absurd (hmib.mpr ⟨htype, hsize⟩) hof

theorem Kept.step {s u : Pool} (hs : Kept s) {e : Event} (hcall : Callable s e) (hfew : Few s e)
    (hreleases : Releases s e) {r : Option ℕ} (h : s.step e = some (u, r)) : Kept u := by
  cases e with
  | get size ptr first => exact hs.step_get hcall hfew h
  | put handle first =>
    obtain ⟨t, ht, rfl⟩ := hcall
    obtain ⟨v, hv, h⟩ := Option.map_eq_some_iff.mp h
    cases h
    obtain ⟨ho, htrimmed⟩ := hs.put ht hv
    refine ⟨ho, fun i => ?_⟩
    by_cases hi : i = .bulk 256 ∧ t.obj.Of (.bulk 256)
    · obtain ⟨rfl, hof⟩ := hi
      have hreleased := hreleases u hv t.obj (hs.orderly.records.kept t ht) (of_mib_iff.mp hof).2.le
      rwa [hof.slotOf_eq] at hreleased
    · exact htrimmed i (by rwa [← not_and_or])

/-- Over all size classes, with slots of less than 2^32 free objects: surplus pages are released by
every `Put` exactly if objects of 1 MiB come back only while few of them are free. -/
theorem surplus_released_iff (freeTinyObjsCnt : ℕ) {nprocs : ℕ} (hprocs : 0 < nprocs) {es : List Event}
    (hes : Along Pool.step (fun s e => Callable s e ∧ Few s e) (start freeTinyObjsCnt nprocs) es) :
    Along Pool.step Releases (start freeTinyObjsCnt nprocs) es ↔
      Along Pool.step Frugal (start freeTinyObjsCnt nprocs) es :=
  along_congr (I := Kept) (fun _ _ hs he => hs.releases_iff he.1)
    (fun _ _ _ hs he hreleases ho => hs.step he.1 he.2 hreleases ho) (kept_start freeTinyObjsCnt hprocs) hes

/-- Five objects of 255 system pages, four of them in one page of the pool, and all of them put back. -/
def surplusRequests : List Event :=
  [.get 1044480 4194304 0, .get 1044480 8388608 0, .get 1044480 8388608 0, .get 1044480 8388608 0,
    .get 1044480 8388608 0, .put 0 0, .put 1 0, .put 2 0, .put 3 0, .put 4 0]

/-- With one processor the slot is to keep one object; at the fourth `Put` seven are free, and the page of four
is released. -/
theorem surplus_released_bulk :
    Along Pool.step (fun s e => Callable s e ∧ Few s e) (start 99 1) surplusRequests ∧
      Along Pool.step Releases (start 99 1) surplusRequests ∧
      (run Pool.step (start 99 1) (surplusRequests.take 8)).map
          (fun o => (o.1.bulkCnt 255, o.1.heap.map Region.base)) = some (6, [4194304, 8388608]) ∧
      (run Pool.step (start 99 1) (surplusRequests.take 9)).map
          (fun o => (o.1.bulkCnt 255, o.1.heap.map Region.base)) = some (3, [8388608]) := by
  have hes : Along Pool.step (fun s e => Callable s e ∧ Few s e) (start 99 1) surplusRequests := by decide +kernel
  exact ⟨hes, (surplus_released_iff 99 (by decide) hes).mpr (by decide +kernel), by decide +kernel, by decide +kernel⟩

/-- With one processor two objects of 1 MiB are free after they are put back, each a page of its own. -/
theorem surplus_stays :
    Along Pool.step (fun s e => Callable s e ∧ Few s e) (start 0 1)
        [.get 1048576 4194304 0, .get 1048576 8388608 0, .put 0 0, .put 1 0] ∧
      (run Pool.step (start 0 1) [.get 1048576 4194304 0, .get 1048576 8388608 0, .put 0 0, .put 1 0]).map
          (fun o => (o.1.bulkCnt 256, freeOf (o.1.bulkFree 256) 4194304, freeOf (o.1.bulkFree 256) 8388608)) =
        some (2, [4194304], [8388608]) ∧
      ¬ Along Pool.step Releases (start 0 1)
        [.get 1048576 4194304 0, .get 1048576 8388608 0, .put 0 0, .put 1 0] := by
  decide +kernel

end FlyingKV.MemPool
