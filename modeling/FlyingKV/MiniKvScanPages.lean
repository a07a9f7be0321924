import FlyingKV.MiniKvScan

set_option autoImplicit false

/-!
# Page after page

A reader goes through the map with one `Scan` after the other, each from the last key of the page before, while
the map changes between the calls.
-/
namespace FlyingKV.MiniKv
open ByteOrder OrderedMap NodeMap

/-- The request for the page behind this one. -/
def ScanRequest.resume (req : ScanRequest) (page : List Entry) : ScanRequest :=
  match page.getLast? with
  | none => req
  | some e => { req with startKey := e.key, containStartKey := false }

/-- One `Scan` after the other, each on the map of its time. -/
def scanPages (req : ScanRequest) : List Kvs → Option (List (List Entry))
  | [] => some []
  | kvs :: later => do
    let page ← scan false kvs req
    let rest ← scanPages (req.resume page.entries) later
    return page.entries :: rest

/-- The start key of every call is to be contained, or is still in the map. -/
def Anchored (req : ScanRequest) : List Kvs → Prop
  | [] => True
  | kvs :: later => (req.containStartKey = true ∨ ∃ n ∈ kvs.nodes, n.key = req.startKey) ∧
      Anchored (req.resume (ascending kvs req)) later

instance decidableAnchored (req : ScanRequest) : (kvss : List Kvs) → Decidable (Anchored req kvss)
  | [] => isTrue trivial
  | kvs :: later =>
    have := decidableAnchored (req.resume (ascending kvs req)) later
    inferInstanceAs (Decidable (_ ∧ _))

section
variable {kvs : Kvs} {req : ScanRequest}

theorem scan_anchored (hasc : req.order = .Asc) (hlimit : req.limit ≠ 0)
    (h : req.containStartKey = true ∨ ∃ n ∈ kvs.nodes, n.key = req.startKey) :
    scan false kvs req = some (scanned (ascending kvs req)) := by
  obtain ⟨pre, suf, hnodes, hfound, hpre, hsuf⟩ := kvs.lowerBound_split req.startKey
  have hsorted := nodes_ascending kvs
  have hbelow : ∀ n ∈ pre, n.key < req.startKey := fun n hn => (keyLess_iff_lt _ _).mp (hpre n hn)
  cases suf with
  | nil =>
    have hempty : kvs.nodes.filter (fun n => Wanted req n.key) = [] := by
      refine List.filter_eq_nil_iff.mpr fun n hn => ?_
      rw [hnodes, List.append_nil] at hn
      rw [decide_eq_true_eq, Wanted]
      rintro (hlt | ⟨-, heq⟩)
      · exact key_ne_of_lt (key_lt_trans hlt (hbelow n hn)) rfl
      · exact key_ne_of_lt (hbelow n hn) heq
    simp [scan, ascending, hempty, hfound, hlimit]
  | cons n rest =>
    rw [scan_asc hasc hnodes hlimit hfound, ascending, hnodes,
      wanted_cut (hnodes ▸ hsorted) hpre (hsuf n List.mem_cons_self)]
    by_cases hcontain : req.containStartKey = true
    · simp [hcontain]
    · have hkey : n.key = req.startKey := by
        by_contra hne
        have hgt := ((not_less_iff _ _).mp (hsuf n List.mem_cons_self)).resolve_right hne
        exact absent_of_cut (hnodes ▸ hsorted) hbelow hgt (hnodes ▸ h.resolve_left hcontain)
      simp [hcontain, hkey]

/-! ## One page -/

theorem mem_ascending (hfiled : Filed kvs) {e : Entry} (he : e ∈ ascending kvs req) :
    kvs.find e.key = some e ∧ Wanted req e.key := by
  obtain ⟨n, hn, rfl⟩ := List.mem_map.mp he
  obtain ⟨hmem, hwanted⟩ := List.mem_filter.mp (List.mem_of_mem_take hn)
  rw [← hfiled n hmem]
  exact ⟨kvs.find_of_mem hmem, of_decide_eq_true hwanted⟩

theorem ascending_sorted (hfiled : Filed kvs) : (ascending kvs req).Pairwise (fun a b => a.key < b.key) := by
  have hsorted := ((nodes_ascending kvs).sublist List.filter_sublist).sublist
    (List.take_sublist req.limit.toNat (kvs.nodes.filter fun n => Wanted req n.key))
  refine List.pairwise_map.mpr (hsorted.imp_of_mem fun {a b} ha hb hlt => ?_)
  have hstored := fun {n} (hn : n ∈ (kvs.nodes.filter fun n => Wanted req n.key).take req.limit.toNat) =>
    hfiled n (List.mem_filter.mp (List.mem_of_mem_take hn)).1
  rwa [← hstored ha, ← hstored hb]

theorem behind_take {l : List (Node Bytes Entry)} (hsorted : l.Pairwise (fun a b => a.key < b.key))
    {n : Node Bytes Entry} (hn : n ∈ l) {k : ℕ} (hout : n ∉ l.take k) :
    (l.take k).length = k ∧ ∀ m ∈ l.take k, m.key < n.key := by
  rw [← List.take_append_drop k l] at hsorted hn
  have hdrop := (List.mem_append.mp hn).resolve_left hout
  have hlen := List.length_pos_of_mem hdrop
  rw [List.length_drop] at hlen
  exact ⟨List.length_take_of_le (by omega), fun m hm => (List.pairwise_append.mp hsorted).2.2 m hm n hdrop⟩

/-- What is wanted and not in the page is behind it, and the page is full. -/
theorem behind_page (hfiled : Filed kvs) {n : Node Bytes Entry} (hn : n ∈ kvs.nodes) (hwanted : Wanted req n.key)
    (hout : n.key ∉ (ascending kvs req).map Entry.key) :
    (ascending kvs req).length = req.limit.toNat ∧ ∀ e ∈ ascending kvs req, e.key < n.key := by
  obtain ⟨hfull, hbehind⟩ := behind_take ((nodes_ascending kvs).sublist List.filter_sublist)
    (List.mem_filter.mpr ⟨hn, decide_eq_true hwanted⟩) fun htake =>
      hout (List.mem_map.mpr ⟨n.val, List.mem_map_of_mem htake, (hfiled n hn).symm⟩)
  refine ⟨(List.length_map _).trans hfull, fun e he => ?_⟩
  obtain ⟨m, hm, rfl⟩ := List.mem_map.mp he
  rw [← hfiled m (List.mem_filter.mp (List.mem_of_mem_take hm)).1]
  exact hbehind m hm

/-! ## All pages -/

theorem resume_same (page : List Entry) : (req.resume page).order = req.order ∧ (req.resume page).limit = req.limit := by
  unfold ScanRequest.resume
  split <;> exact ⟨rfl, rfl⟩

/-- Behind a page come the keys behind each of its own. -/
theorem wanted_resume {page : List Entry} (hsorted : page.Pairwise (fun a b => a.key < b.key))
    (hpage : ∀ e ∈ page, Wanted req e.key) (k : Bytes) :
    Wanted (req.resume page) k ↔ Wanted req k ∧ ∀ e ∈ page, e.key < k := by
  rcases page.eq_nil_or_concat' with rfl | ⟨front, last, rfl⟩
  · simp [ScanRequest.resume]
  have hlast : Wanted (req.resume (front ++ [last])) k ↔ last.key < k := by
    simp [ScanRequest.resume, Wanted]
  rw [hlast]
  constructor
  · intro hlt
    have hkey : Wanted req k := .inl <| (hpage last (by simp)).elim (fun h => key_lt_trans h hlt) (fun h => h.2 ▸ hlt)
    refine ⟨hkey, fun e he => ?_⟩
    rcases List.mem_append.mp he with he | he
    · exact key_lt_trans ((List.pairwise_append.mp hsorted).2.2 e he last (by simp)) hlt
    · rwa [List.mem_singleton.mp he]
  · exact fun h => h.2 last (by simp)

/-- Pages of an ascending scan while the map changes, as long as the last key of a page is still there for the
next: nothing comes twice or out of order, each page has only entries that were stored at its own time, and once a
page was not full, every key that was there all the time has been returned. -/
theorem scan_pages_cover {kvss : List Kvs} (hasc : req.order = .Asc) (hlimit : req.limit ≠ 0)
    (hfiled : ∀ kvs ∈ kvss, Filed kvs) (hanchored : Anchored req kvss) :
    ∃ pages, scanPages req kvss = some pages ∧ pages.flatten.Pairwise (fun a b => a.key < b.key) ∧
      List.Forall₂ (fun page kvs => ∀ e ∈ page, Wanted req e.key ∧ kvs.find e.key = some e) pages kvss ∧
      (pages.flatten.length < req.limit.toNat * kvss.length →
        ∀ k, Wanted req k → (∀ kvs ∈ kvss, kvs.find k ≠ none) → k ∈ pages.flatten.map Entry.key) := by
  induction kvss generalizing req with
  | nil => exact ⟨[], rfl, .nil, .nil, by simp⟩
  | cons kvs later ih =>
    have hkvs := hfiled kvs List.mem_cons_self
    obtain ⟨page, hpage⟩ : ∃ page, page = ascending kvs req := ⟨_, rfl⟩
    have hsorted : page.Pairwise (fun a b => a.key < b.key) := hpage ▸ ascending_sorted hkvs
    have hmem : ∀ e ∈ page, kvs.find e.key = some e ∧ Wanted req e.key := fun e he => mem_ascending hkvs (hpage ▸ he)
    have hresume := wanted_resume hsorted fun e he => (hmem e he).2
    have hscan := scan_anchored hasc hlimit hanchored.1
    rw [← hpage] at hscan
    obtain ⟨horder, hsame⟩ := @resume_same req page
    obtain ⟨rest, hrest, hascending, hsound, hcover⟩ := @ih (req.resume page) (horder.trans hasc)
      (hsame.trans_ne hlimit) (fun m hm => hfiled m (List.mem_cons_of_mem _ hm)) (hpage ▸ hanchored.2)
    rw [hsame] at hcover
    refine ⟨page :: rest, by simp [scanPages, hscan, scanned, hrest], ?_, .cons (fun e he => (hmem e he).symm) ?_,
      fun hfew k hk hall => ?_⟩
    · refine List.pairwise_append.mpr ⟨hsorted, hascending, fun a ha b hb => ?_⟩
      obtain ⟨_, hlater, hb⟩ := List.mem_flatten.mp hb
      obtain ⟨i, hi, rfl⟩ := List.getElem_of_mem hlater
      have hfrom := hsound.get hi (hsound.length_eq ▸ hi)
      exact ((hresume b.key).mp (hfrom b hb).1).2 a ha
    · exact hsound.imp fun later m hfrom e he => ⟨((hresume e.key).mp (hfrom e he).1).1, (hfrom e he).2⟩
    · rw [List.flatten_cons, List.map_append, List.mem_append]
      by_cases hin : k ∈ page.map Entry.key
      · exact .inl hin
      · -- the page is full, and the key is behind it
        obtain ⟨v, hv⟩ := Option.ne_none_iff_exists'.mp (hall kvs List.mem_cons_self)
        obtain ⟨n, hn, rfl, -⟩ := mem_of_findNode hv
        obtain ⟨hfull, hbehind⟩ := behind_page hkvs hn hk (hpage ▸ hin)
        rw [← hpage] at hfull hbehind
        rw [List.flatten_cons, List.length_append, List.length_cons, Nat.mul_succ] at hfew
        exact .inr (hcover (by omega) n.key ((hresume n.key).mpr ⟨hk, hbehind⟩)
          fun m hm => hall m (List.mem_cons_of_mem _ hm))

end

/-- A key comes in behind the first page. -/
def growing : List Kvs :=
  let m := (NodeMap.empty.assign [97] ⟨[97], [1]⟩ : Kvs).assign [99] ⟨[99], [3]⟩
  m :: List.replicate 3 (m.assign [98] ⟨[98], [2]⟩)

/-- The second page has the key that came in, and the third one the key behind it. -/
theorem scan_pages_cover_growing :
    ∃ pages, scanPages ⟨[], true, .Asc, 1⟩ growing = some pages ∧
      pages = [[⟨[97], [1]⟩], [⟨[98], [2]⟩], [⟨[99], [3]⟩], []] ∧
      List.Forall₂ (fun page kvs => ∀ e ∈ page, kvs.find e.key = some e) pages growing ∧
      [99] ∈ pages.flatten.map Entry.key := by
  obtain ⟨pages, hpages, -, hfrom, hcover⟩ := @scan_pages_cover ⟨[], true, .Asc, 1⟩ growing rfl (by decide)
    (by unfold Filed; decide) (by decide)
  have hrun : scanPages ⟨[], true, .Asc, 1⟩ growing = some [[⟨[97], [1]⟩], [⟨[98], [2]⟩], [⟨[99], [3]⟩], []] := by decide
  obtain rfl := Option.some.inj (hpages.symm.trans hrun)
  exact ⟨_, hrun, rfl, hfrom.imp fun _ _ h e he => (h e he).2, hcover (by decide) [99] (by decide) (by decide)⟩

-- with the last key of the first page gone, the key next to it is left out
example : scanPages ⟨[], true, .Asc, 1⟩ (growing.take 1 ++ [(growing.headD .empty).erase [97]]) =
    some [[⟨[97], [1]⟩], []] := by decide

end FlyingKV.MiniKv
