import FlyingKV.MemPoolSlots

set_option autoImplicit false

/-!
# The counter of a slot overflows

Tiny objects fill page after page; then all of them but the first one of each page are put back.
No page is ever free as a whole, so none is dropped, and a slot comes to have 2^32 free objects.
-/
namespace FlyingKV.MemPool
open Slab EventRun

def pageAt (j : ℕ) : ℕ := sysPageSize * (j + 1)

/-- So many `Get`s, with a new page for every 256 objects. -/
def fill : ℕ → List Event
  | 0 => []
  | k + 1 => fill k ++ [.get tinyObjThreshold (pageAt (k / 256)) 0]

/-- A `Put` for every object below `k` that is not the first of its page. -/
def drain : ℕ → List Event
  | 0 => []
  | k + 1 => if k % 256 = 0 then drain k else drain k ++ [.put k 0]

/-- The live objects are in the pages of their handles, and every page has its first object. -/
structure Paged (s : Pool) : Prop where
  place : ∀ t ∈ s.live, t.obj.slot = some .tiny ∧ t.obj.objPagePv = pageAt (t.handle / 256)
  heap : ∀ r ∈ s.heap, ∃ j, r = ⟨pageAt j, sysPageSize⟩ ∧ ∃ t ∈ s.live, t.handle = 256 * j

structure Filled (k : ℕ) (s : Pool) : Prop where
  ok : SlotsOk (0 < k) s
  paged : Paged s
  handles : s.live.map Taken.handle = List.range k
  objects : s.freeMemObjs = [] ∧ s.memObjs.length = k
  table : ∀ p l, (s.slots .tiny).objs.lookup p = some l →
    p = pageAt (k / 256) ∧ l.length + k % 256 = 256 ∧ k % 256 ≠ 0
  more : k % 256 ≠ 0 → (s.slots .tiny).objs.entries ≠ []

theorem filled_start : Filled 0 (start 0 1) where
  ok := by simpa using slotsOk_start 0 1
  paged := ⟨nofun, nofun⟩
  handles := rfl
  objects := ⟨rfl, rfl⟩
  table := nofun
  more h := absurd rfl h

section
variable {k : ℕ} {s : Pool}

theorem Filled.entries_eq_nil (hf : Filled k s) : (s.slots .tiny).objs.entries = [] ↔ k % 256 = 0 := by
  constructor
  · intro hnil
    by_contra hne
    exact hf.more hne hnil
  · intro h0
    rw [List.eq_nil_iff_forall_not_mem]
    intro e he
    exact (hf.table e.1 e.2 (AList.mem_lookup_iff.mpr he)).2.2 h0

theorem Filled.handle_lt (hf : Filled k s) {t : Taken} (ht : t ∈ s.live) : t.handle < k := by
  have hmem : t.handle ∈ s.live.map Taken.handle := List.mem_map_of_mem ht
  rw [hf.handles] at hmem
  exact List.mem_range.mp hmem

theorem Filled.fresh (hf : Filled k s) (h0 : k % 256 = 0) : Fresh s (pageAt (k / 256)) sysPageSize := by
  refine ⟨?_, ?_, fun r hr => ?_⟩
  · unfold pageAt sysPageSize
    omega
  · unfold pageAt
    exact Nat.mul_mod_right _ _
  · obtain ⟨j, rfl, t, ht, hj⟩ := hf.paged.heap r hr
    have hlt := hf.handle_lt ht
    right
    unfold pageAt sysPageSize
    dsimp only
    omega

theorem Filled.allowed (hf : Filled k s) : Allowed s (.get tinyObjThreshold (pageAt (k / 256)) 0) := by
  refine ⟨by decide, fun hnil => ?_⟩
  exact hf.fresh (hf.entries_eq_nil.mp hnil)

theorem getMemObject_nil {s : Pool} (h : s.freeMemObjs = []) (size : ℕ) (obj : MemObject) :
    s.getMemObject size obj =
      ({ s with memObjs := s.memObjs ++ [obj], live := s.live ++ [⟨s.memObjs.length, size, obj⟩] },
        some s.memObjs.length) := by
  unfold Pool.getMemObject
  rw [h]

/-- The one page that has free objects before the next of them is taken. -/
structure Open (k : ℕ) (v : Pool) (p : ℕ) (rest : List ℕ) : Prop where
  page : p = pageAt (k / 256)
  left : rest.length + 1 + k % 256 = 256
  only : ∀ q l, (v.slots .tiny).objs.lookup q = some l → q = p

theorem Filled.opened (hf : Filled k s) {v : Pool} {p a : ℕ} {rest : List ℕ}
    (hv : v = s ∧ (s.slots .tiny).objs.entries ≠ [] ∨
      v = s.withPage .tiny (pageAt (k / 256)) ∧ (s.slots .tiny).objs.entries = [])
    (hl : (v.slots .tiny).objs.lookup p = some (a :: rest)) : Open k v p rest := by
  rcases hv with ⟨rfl, -⟩ | ⟨rfl, hnil⟩
  · obtain ⟨hpage, hlen, -⟩ := hf.table p _ hl
    exact ⟨hpage, hlen, fun q l hq => (hf.table q l hq).1.trans hpage.symm⟩
  · have hempty : (s.slots .tiny).objs = ∅ := AList.ext hnil
    have honly : ∀ q l, ((s.withPage .tiny (pageAt (k / 256))).slots .tiny).objs.lookup q = some l →
        q = pageAt (k / 256) ∧ l = blocks SlotId.tiny.shape (pageAt (k / 256)) := by
      intro q l hq
      simp only [Pool.withPage, Function.update_self, hempty] at hq
      rcases lookup_insert_cases hq with hpage | ⟨-, hq⟩
      · exact hpage
      · cases hq
    obtain ⟨hpage, hlist⟩ := honly p _ hl
    have hlen : (a :: rest).length = 256 := by
      rw [hlist, length_blocks]
      decide
    have h0 := hf.entries_eq_nil.mp hnil
    exact ⟨hpage, by rw [List.length_cons] at hlen; omega, fun q l hq => (honly q l hq).1.trans hpage.symm⟩

theorem Open.table {v : Pool} {p : ℕ} {rest : List ℕ} (ho : Open k v p rest) :
    (∀ q l, (takeFree (v.slots .tiny).objs p rest).lookup q = some l →
      q = pageAt ((k + 1) / 256) ∧ l.length + (k + 1) % 256 = 256 ∧ (k + 1) % 256 ≠ 0) ∧
    ((k + 1) % 256 ≠ 0 → (takeFree (v.slots .tiny).objs p rest).entries ≠ []) := by
  have hleft := ho.left
  unfold takeFree
  by_cases hrest : rest = []
  · rw [if_pos hrest]
    rw [hrest, List.length_nil] at hleft
    refine ⟨fun q l hq => ?_, fun hne => absurd hne (by omega)⟩
    obtain ⟨hqp, hq⟩ := lookup_erase_cases hq
    exact absurd (ho.only q l hq) hqp
  · have hpos : 0 < rest.length := List.length_pos_of_ne_nil hrest
    have hdiv : (k + 1) / 256 = k / 256 := by omega
    rw [if_neg hrest, hdiv]
    refine ⟨fun q l hq => ?_, fun _ => entries_ne_nil (AList.lookup_insert _)⟩
    rcases lookup_insert_cases hq with ⟨hqp, rfl⟩ | ⟨hqp, hq⟩
    · exact ⟨hqp.trans ho.page, by omega, by omega⟩
    · exact absurd (ho.only q l hq) hqp

theorem taken_fields {v u : Pool} {p a size : ℕ} {rest : List ℕ} {r : Option ℕ} (hnil : v.freeMemObjs = [])
    (hu : (v.withoutObj .tiny p rest).getMemObject size ⟨.Tiny, tinyObjThreshold, a, p⟩ = (u, r)) :
    u.live = v.live ++ [⟨v.memObjs.length, size, ⟨.Tiny, tinyObjThreshold, a, p⟩⟩] ∧ u.heap = v.heap ∧
      (u.slots .tiny).objs = takeFree (v.slots .tiny).objs p rest ∧ u.freeMemObjs = [] ∧
      u.memObjs.length = v.memObjs.length + 1 := by
  have hnone : (v.withoutObj .tiny p rest).freeMemObjs = [] := by
    simp only [Pool.withoutObj]
    exact hnil
  rw [getMemObject_nil hnone] at hu
  rw [← (Prod.mk.inj hu).1]
  simp only [Pool.withoutObj, Function.update_self, List.length_append, List.length_singleton, hnil, and_self]

theorem Filled.get (hf : Filled k s) :
    ∃ u r, s.step (.get tinyObjThreshold (pageAt (k / 256)) 0) = some (u, r) ∧ Filled (k + 1) u := by
  have hslot : slotFor tinyObjThreshold = .tiny := rfl
  obtain ⟨hid, hsize, hget⟩ := @get_eq tinyObjThreshold (by decide) (by decide)
  rw [hslot] at hid hsize hget
  obtain ⟨v, p, a, rest, hv, hl, hok, heq⟩ := hf.ok.getSlotObj_eq hid tinyObjThreshold 0 hf.allowed.2
  have hopen := hf.opened hv hl
  obtain ⟨u, h, hu, huok⟩ := hok.take hid hl hsize
  have hsame : v.live = s.live ∧ v.freeMemObjs = [] ∧ v.memObjs = s.memObjs := by
    rcases hv with ⟨rfl, -⟩ | ⟨rfl, -⟩
    · exact ⟨rfl, hf.objects.1, rfl⟩
    · exact ⟨rfl, hf.objects.1, rfl⟩
  obtain ⟨hlive, hnil, hmem⟩ := hsame
  obtain ⟨hulive, huheap, hutable, hufree, humem⟩ := taken_fields hnil hu
  rw [hmem, hf.objects.2] at hulive humem
  rw [hlive] at hulive
  refine ⟨u, some h, by rw [Pool.step, hget, heq, hu], ?_⟩
  constructor
  case ok =>
    have hused : (0 < k ∨ SlotId.tiny = SlotId.tiny) = (0 < k + 1) := by simp
    rw [← hused]
    exact huok
  case paged =>
    refine ⟨fun t ht => ?_, fun r hr => ?_⟩
    · rw [hulive] at ht
      rcases List.mem_append.mp ht with ht | ht
      · exact hf.paged.place t ht
      · rw [List.mem_singleton.mp ht]
        exact ⟨rfl, hopen.page⟩
    · rw [huheap] at hr
      rw [hulive]
      have hold : r ∈ s.heap → ∃ j, r = ⟨pageAt j, sysPageSize⟩ ∧ ∃ t ∈ s.live ++
          [⟨k, tinyObjThreshold, ⟨.Tiny, tinyObjThreshold, a, p⟩⟩], t.handle = 256 * j := by
        intro hr
        obtain ⟨j, hj, t, ht, hhandle⟩ := hf.paged.heap r hr
        exact ⟨j, hj, t, List.mem_append_left _ ht, hhandle⟩
      rcases hv with ⟨rfl, -⟩ | ⟨rfl, hempty⟩
      · exact hold hr
      · rcases List.mem_append.mp hr with hr | hr
        · exact hold hr
        · have h0 := hf.entries_eq_nil.mp hempty
          refine ⟨k / 256, List.mem_singleton.mp hr, _, List.mem_append_right _ List.mem_cons_self, ?_⟩
          dsimp only
          omega
  case handles => rw [hulive, List.map_append, hf.handles, List.map_singleton, List.range_succ]
  case objects => exact ⟨hufree, humem⟩
  case table =>
    rw [hutable]
    exact hopen.table.1
  case more =>
    rw [hutable]
    exact hopen.table.2

end

theorem filled_run (k : ℕ) : ∃ s rs, run Pool.step (start 0 1) (fill k) = some (s, rs) ∧
    Along Pool.step Allowed (start 0 1) (fill k) ∧ Filled k s := by
  induction k with
  | zero => exact ⟨_, [], rfl, trivial, filled_start⟩
  | succ k ih =>
    obtain ⟨s, rs, hrun, halong, hf⟩ := ih
    obtain ⟨u, r, hstep, hu⟩ := hf.get
    have hone : run Pool.step s [_] = some (u, [r]) := run_cons.mpr ⟨u, r, [], hstep, rfl, rfl⟩
    exact ⟨u, rs ++ [r], run_append_of hrun hone,
      halong.append hrun ⟨hf.allowed, fun _ _ => trivial⟩, hu⟩

/-! ## Putting objects back -/

/-- The objects below `k` are back, but for the first ones of the pages. -/
structure Drained (n k : ℕ) (s : Pool) : Prop where
  ok : SlotsOk True s
  paged : Paged s
  handles : ∀ h, (∃ t ∈ s.live, t.handle = h) ↔ h < n ∧ (k ≤ h ∨ h % 256 = 0)
  free : (allFree (s.slots .tiny).objs).length + (k + 255) / 256 = k

section
variable {n k : ℕ} {s : Pool}

theorem Filled.drained (hf : Filled n s) (hpos : 0 < n) (hn : n % 256 = 0) : Drained n 0 s where
  ok := by
    have htrue : (0 < n) = True := eq_true hpos
    exact htrue ▸ hf.ok
  paged := hf.paged
  handles h := by
    have hmem : h ∈ s.live.map Taken.handle ↔ h < n := by rw [hf.handles, List.mem_range]
    rw [List.mem_map] at hmem
    simpa using hmem
  free := by
    rw [allFree, hf.entries_eq_nil.mpr hn]
    rfl

/-- Every page keeps its first object, so none is free as a whole. -/
theorem Drained.put_eq (hd : Drained n k s) {t : Taken} (ht : t ∈ s.live) (hfirst : t.handle % 256 ≠ 0) :
    s.put t.handle 0 = some (s.withObj .tiny t) := by
  obtain ⟨id, -, hslot, hput⟩ := hd.ok.put_eq ht 0
  obtain rfl : SlotId.tiny = id := Option.some.inj ((hd.paged.place t ht).1.symm.trans hslot)
  rcases hput with hput | ⟨p, l, hl, hlen, -⟩
  · exact hput
  · exfalso
    have hgiven := hd.ok.give ht hslot
    have hp := ((hgiven.slabs.cut .tiny).keys p l hl).1
    have hnone := (hgiven.slabs.cut .tiny).liveOf_eq_nil hp (by rw [freeOf_of_lookup hl, hlen])
    obtain ⟨j, hj, x, hx, hhandle⟩ := hd.paged.heap _ (hgiven.slabs.carved.held .tiny p hp)
    obtain ⟨hxslot, hxpage⟩ := hd.paged.place x hx
    have hpage : x.obj.objPagePv = p := by
      rw [hxpage, hhandle, Nat.mul_div_cancel_left _ (by norm_num)]
      exact (congrArg Region.base hj).symm
    have hne : x.handle ≠ t.handle := by omega
    have hxlive : x ∈ (s.withObj .tiny t).live := List.mem_filter.mpr ⟨hx, by simpa using hne⟩
    have hmem := mem_liveOf.mpr (mem_liveIn.mpr ⟨x, hxlive, hxslot, hpage, rfl⟩)
    rw [hnone] at hmem
    cases hmem

theorem Drained.put (hd : Drained n k s) (hlt : k < n) (hfirst : k % 256 ≠ 0) :
    ∃ u, s.step (.put k 0) = some (u, none) ∧ Allowed s (.put k 0) ∧ Drained n (k + 1) u := by
  obtain ⟨t, ht, hhandle⟩ := (hd.handles k).mpr ⟨hlt, .inl le_rfl⟩
  have hput := hd.put_eq ht (by rwa [hhandle])
  obtain ⟨hslot, -⟩ := hd.paged.place t ht
  have hlive : (s.withObj .tiny t).live = s.live.filter fun x => x.handle ≠ t.handle := by
    simp only [Pool.withObj]
  refine ⟨s.withObj .tiny t, ?_, ⟨t, ht, hhandle⟩, ?_⟩
  · rw [Pool.step, ← hhandle, hput]
    rfl
  constructor
  case ok => exact hd.ok.give ht hslot
  case paged =>
    refine ⟨fun x hx => ?_, fun r hr => ?_⟩
    · rw [hlive] at hx
      exact hd.paged.place x (List.mem_of_mem_filter hx)
    · obtain ⟨j, hj, x, hx, hxhandle⟩ := hd.paged.heap r hr
      have hne : x.handle ≠ t.handle := by omega
      refine ⟨j, hj, x, ?_, hxhandle⟩
      rw [hlive]
      exact List.mem_filter.mpr ⟨hx, by simpa using hne⟩
  case handles =>
    intro h
    have hold := hd.handles h
    rw [hlive]
    constructor
    · rintro ⟨x, hx, rfl⟩
      obtain ⟨hx, hne⟩ := List.mem_filter.mp hx
      have hne : x.handle ≠ t.handle := by simpa using hne
      obtain ⟨hxn, hxk⟩ := hold.mp ⟨x, hx, rfl⟩
      exact ⟨hxn, by omega⟩
    · rintro ⟨hn, hk⟩
      obtain ⟨x, hx, rfl⟩ := hold.mpr ⟨hn, by omega⟩
      have hne : x.handle ≠ t.handle := by omega
      exact ⟨x, List.mem_filter.mpr ⟨hx, by simpa using hne⟩, rfl⟩
  case free =>
    have hfree := hd.free
    simp only [Pool.withObj, Function.update_self, length_allFree_give]
    omega

theorem Drained.skip (hd : Drained n k s) (hfirst : k % 256 = 0) : Drained n (k + 1) s where
  ok := hd.ok
  paged := hd.paged
  handles h := by
    rw [hd.handles h]
    omega
  free := by
    have hfree := hd.free
    omega

end

theorem drained_run {n : ℕ} {s : Pool} (hd : Drained n 0 s) : ∀ k ≤ n, ∃ u rs,
    run Pool.step s (drain k) = some (u, rs) ∧ Along Pool.step Allowed s (drain k) ∧ Drained n k u := by
  intro k
  induction k with
  | zero => exact fun _ => ⟨s, [], rfl, trivial, hd⟩
  | succ k ih =>
    intro hk
    obtain ⟨u, rs, hrun, halong, hu⟩ := ih (by omega)
    rw [drain]
    split_ifs with hfirst
    · exact ⟨u, rs, hrun, halong, hu.skip hfirst⟩
    · obtain ⟨w, hstep, hallowed, hw⟩ := hu.put (by omega) hfirst
      have hone : run Pool.step u [_] = some (w, [none]) := run_cons.mpr ⟨w, none, [], hstep, rfl, rfl⟩
      exact ⟨w, rs ++ [none], run_append_of hrun hone,
        halong.append hrun ⟨hallowed, fun _ _ => trivial⟩, hw⟩

theorem getsTiny_mem_fill {k : ℕ} (hk : 0 < k) : ∃ e ∈ fill k, e.getsTiny = true := by
  obtain ⟨j, rfl⟩ := Nat.exists_eq_succ_of_ne_zero hk.ne'
  exact ⟨_, List.mem_append_right _ List.mem_cons_self, rfl⟩

theorem cnt_ne_of_many {n : ℕ} (hn : n % 256 = 0) (hmany : 2 ^ 32 + n / 256 ≤ n) : ∃ s rs,
    run Pool.step (start 0 1) (fill n ++ drain n) = some (s, rs) ∧
      Along Pool.step Allowed (start 0 1) (fill n ++ drain n) ∧
      (∃ e ∈ fill n ++ drain n, e.getsTiny = true) ∧
      (s.slots .tiny).cnt ≠ (allFree (s.slots .tiny).objs).length := by
  have hpos : 0 < n := by omega
  obtain ⟨s, rs, hrun, halong, hf⟩ := filled_run n
  obtain ⟨u, rs', hrun', halong', hu⟩ := drained_run (hf.drained hpos hn) n le_rfl
  obtain ⟨e, he, htiny⟩ := getsTiny_mem_fill hpos
  refine ⟨u, rs ++ rs', run_append_of hrun hrun', halong.append hrun halong',
    ⟨e, List.mem_append_left _ he, htiny⟩, fun hcnt => ?_⟩
  have hlt := (hu.ok.counted_iff fun _ => trivial).mp hcnt
  have hfree := hu.free
  omega

/-- So many objects that 255 of 256 are 2^32 and more. -/
def manyObjs : ℕ := 256 * (2 ^ 24 + 2 ^ 17)

/-- An allowed sequence after which the counter of tiny objects is wrong. -/
theorem counter_overflows : ∃ s rs,
    run Pool.step (start 0 1) (fill manyObjs ++ drain manyObjs) = some (s, rs) ∧
      Along Pool.step Allowed (start 0 1) (fill manyObjs ++ drain manyObjs) ∧
      (∃ e ∈ fill manyObjs ++ drain manyObjs, e.getsTiny = true) ∧
      (s.slots .tiny).cnt ≠ (allFree (s.slots .tiny).objs).length := by
  apply cnt_ne_of_many
  · norm_num [manyObjs]
  · norm_num [manyObjs]

end FlyingKV.MemPool
