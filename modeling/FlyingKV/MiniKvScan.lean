import FlyingKV.MiniKvServer

set_option autoImplicit false

/-!
# `MiniKV::Scan`

The scan reads the map under the read lock, so it is one step on a map. It has no answer
where an iterator would step before the first element.
-/
namespace FlyingKV.MiniKv
open ByteOrder OrderedMap NodeMap

inductive SortOrder where
  | Asc
  | Desc
deriving DecidableEq, Repr

structure ScanRequest where
  startKey : Bytes
  containStartKey : Bool
  order : SortOrder
  limit : UInt32
deriving DecidableEq, Repr

structure ScanResponse where
  rc : RespCode
  errmsg : String
  entries : List Entry
deriving DecidableEq, Repr

def scanned (entries : List Entry) : ScanResponse := ⟨.OK, "", entries⟩

/-- The loops of `Scan` behind the element at `a`, which is taken first when asked for. -/
def scanFrom (kvs : Kvs) (req : ScanRequest) (a : ℕ) : Option (List Entry) :=
  match nodeAt a kvs.nodes with
  | none => none
  | some (n, next) =>
    let first := if req.containStartKey then [n.val] else []
    let left := req.limit.toNat - first.length
    match req.order with
    | .Asc => (kvs.forward left next).map (first ++ ·)
    | .Desc =>
      match kvs.prev (some a) with
      | none => none
      | some a' => (kvs.backward left (some a')).map (first ++ ·)

def scan (stopped : Bool) (kvs : Kvs) (req : ScanRequest) : Option ScanResponse :=
  if stopped then some ⟨.InternalErr, serviceIsStoppedError, []⟩
  else if req.limit = 0 then some (scanned [])
  else
    match kvs.lowerBound req.startKey with
    | none => some (scanned [])
    | some a => (scanFrom kvs req a).map scanned

/-! ## Ascending -/

/-- The stored entries above the start key, or from it on. -/
def Wanted (req : ScanRequest) (key : Bytes) : Prop :=
  req.startKey < key ∨ (req.containStartKey = true ∧ key = req.startKey)

instance (req : ScanRequest) (key : Bytes) : Decidable (Wanted req key) :=
  inferInstanceAs (Decidable (_ ∨ _))

def ascending (kvs : Kvs) (req : ScanRequest) : List Entry :=
  ((kvs.nodes.filter (fun n => Wanted req n.key)).take req.limit.toNat).map Node.val

theorem nodes_ascending (kvs : Kvs) : kvs.nodes.Pairwise (fun a b => a.key < b.key) :=
  kvs.sorted.imp fun {a b} h => (keyLess_iff_lt a.key b.key).mp h

theorem not_less_iff (a b : Bytes) : keyOrder.less a b = false ↔ b < a ∨ a = b := by
  constructor
  · intro h
    cases hb : keyLess b a with
    | true => exact .inl ((keyLess_iff_lt b a).mp hb)
    | false => exact .inr (keyLess_total a b h hb)
  · rintro (h | rfl)
    · rw [← Bool.not_eq_true]
      intro hless
      exact key_ne_of_lt (key_lt_trans h ((keyLess_iff_lt a b).mp hless)) rfl
    · exact keyLess_irrefl a

section
variable {pre rest : List (Node Bytes Entry)} {n : Node Bytes Entry}

theorem lt_of_mem_behind (hsorted : (pre ++ n :: rest).Pairwise (fun a b => a.key < b.key)) :
    ∀ r ∈ rest, n.key < r.key :=
  (List.pairwise_cons.mp (List.pairwise_append.mp hsorted).2.1).1

/-- What is wanted of a map cut at the start key: all behind the first element that is not
below the key, and that element unless it is the start key itself and not asked for. -/
theorem wanted_cut {req : ScanRequest} {pre rest : List (Node Bytes Entry)} {n : Node Bytes Entry}
    (hsorted : (pre ++ n :: rest).Pairwise (fun a b => a.key < b.key))
    (hpre : ∀ p ∈ pre, keyOrder.less p.key req.startKey = true)
    (hn : keyOrder.less n.key req.startKey = false) :
    (pre ++ n :: rest).filter (fun n => Wanted req n.key) =
      (if req.containStartKey = true ∨ n.key ≠ req.startKey then [n] else []) ++ rest := by
  have hbelow : pre.filter (fun n => Wanted req n.key) = [] := by
    refine List.filter_eq_nil_iff.mpr fun p hp => ?_
    have hless := hpre p hp
    rw [decide_eq_true_eq, Wanted]
    rintro (h | ⟨-, h⟩)
    · rw [(not_less_iff _ _).mpr (.inl h)] at hless
      cases hless
    · rw [(not_less_iff _ _).mpr (.inr h)] at hless
      cases hless
  have hstart : req.startKey < n.key ∨ n.key = req.startKey := (not_less_iff _ _).mp hn
  have habove : rest.filter (fun n => Wanted req n.key) = rest := by
    refine List.filter_eq_self.mpr fun r hr => ?_
    have hnr := lt_of_mem_behind hsorted r hr
    rw [decide_eq_true_eq]
    rcases hstart with h | h
    · exact .inl (key_lt_trans h hnr)
    · exact .inl (h ▸ hnr)
  have hfirst : Wanted req n.key ↔ req.containStartKey = true ∨ n.key ≠ req.startKey := by
    unfold Wanted
    constructor
    · rintro (h | ⟨h, -⟩)
      · exact .inr (key_ne_of_lt h).symm
      · exact .inl h
    · rintro (h | h)
      · exact hstart.imp id fun he => ⟨h, he⟩
      · exact .inl (hstart.resolve_right h)
  rw [List.filter_append, hbelow, List.nil_append, List.filter_cons, habove]
  simp only [decide_eq_true_eq, hfirst]
  split_ifs <;> rfl

theorem absent_of_cut {startKey : Bytes} (hsorted : (pre ++ n :: rest).Pairwise (fun a b => a.key < b.key))
    (hbelow : ∀ p ∈ pre, p.key < startKey) (hgt : startKey < n.key) : ¬ ∃ m ∈ pre ++ n :: rest, m.key = startKey := by
  rintro ⟨m, hm, hkey⟩
  rcases List.mem_append.mp hm with hm | hm
  · exact key_ne_of_lt (hbelow m hm) hkey
  rcases List.mem_cons.mp hm with rfl | hm
  · exact key_ne_of_lt hgt hkey.symm
  · have hnm := lt_of_mem_behind hsorted m hm
    exact key_ne_of_lt (key_lt_trans hgt hnm) hkey.symm

/-- What an ascending scan returns: it always skips the first element it finds, unless the
start key is to be contained. -/
theorem scan_asc {kvs : Kvs} {req : ScanRequest} (hasc : req.order = .Asc)
    {pre rest : List (Node Bytes Entry)} {n : Node Bytes Entry} (hnodes : kvs.nodes = pre ++ n :: rest)
    (hlimit : req.limit ≠ 0) (hfound : kvs.lowerBound req.startKey = some n.addr) :
    scan false kvs req = some (scanned
      ((((if req.containStartKey = true then [n] else []) ++ rest).take req.limit.toNat).map Node.val)) := by
  have hpos : 0 < req.limit.toNat :=
    Nat.pos_of_ne_zero fun h => hlimit (UInt32.toNat_inj.mp h)
  have hsplit : kvs.nodes = (pre ++ [n]) ++ rest := by rw [hnodes, List.append_assoc]; rfl
  have hloop := fun left => kvs.forward_suffix hsplit left
  have hstopped : (false = true) = False := by simp
  simp only [scan, hstopped, if_false, if_neg hlimit, hfound, scanFrom, kvs.nodeAt_suffix hnodes, hasc, hloop,
    Option.map_some]
  congr 2
  split_ifs with hcontain
  · obtain ⟨left, hleft⟩ : ∃ left, req.limit.toNat = left + 1 := ⟨_, (Nat.succ_pred_eq_of_pos hpos).symm⟩
    simp [hleft]
  · simp

/-- Every entry is filed under its own key, as `Put` and both loads file it. -/
def Filed (kvs : Kvs) : Prop := ∀ n ∈ kvs.nodes, n.key = n.val.key

/-- Leaving out the first of two entries shows, whatever follows. -/
theorem skip_shows {kvs : Kvs} (hfiled : Filed kvs) (hnodes : kvs.nodes = pre ++ n :: rest) {left : ℕ}
    (hleft : 0 < left) : (rest.take left).map Node.val ≠ ((n :: rest).take left).map Node.val := by
  obtain ⟨left, rfl⟩ : ∃ l, left = l + 1 := ⟨_, (Nat.succ_pred_eq_of_pos hleft).symm⟩
  cases rest with
  | nil => simp
  | cons r rest =>
    intro h
    have hval : r.val = n.val := by simpa using congrArg List.head? h
    have hlt := lt_of_mem_behind (hnodes ▸ nodes_ascending kvs) r List.mem_cons_self
    refine key_ne_of_lt hlt ?_
    rw [hfiled n (by simp [hnodes]), hfiled r (by simp [hnodes]), hval]

/-- Where an ascending scan returns what it should. -/
theorem scan_asc_iff (kvs : { kvs : Kvs // Filed kvs }) (startKey : Bytes) (containStartKey : Bool)
    (limit : UInt32) :
    kvs.1.nodes.Pairwise (fun a b => a.key < b.key) ∧
      (scan false kvs.1 ⟨startKey, containStartKey, .Asc, limit⟩ =
          some (scanned (ascending kvs.1 ⟨startKey, containStartKey, .Asc, limit⟩)) ↔
        limit = 0 ∨ containStartKey = true ∨ (∃ n ∈ kvs.1.nodes, n.key = startKey) ∨
          ∀ n ∈ kvs.1.nodes, ¬ startKey < n.key) := by
  obtain ⟨kvs, hfiled⟩ := kvs
  have hsorted := nodes_ascending kvs
  refine ⟨hsorted, ?_⟩
  obtain ⟨pre, suf, hnodes, hfound, hpre, hsuf⟩ := kvs.lowerBound_split startKey
  have hbelow : ∀ n ∈ pre, n.key < startKey := fun n hn => (keyLess_iff_lt _ _).mp (hpre n hn)
  by_cases hlimit : limit = 0
  · simp [scan, ascending, hlimit]
  cases suf with
  | nil =>
    have hnone : ∀ n ∈ kvs.nodes, ¬ startKey < n.key := by
      intro n hn hlt
      rw [hnodes, List.append_nil] at hn
      exact key_ne_of_lt (key_lt_trans hlt (hbelow n hn)) rfl
    have hempty : kvs.nodes.filter (fun n => Wanted ⟨startKey, containStartKey, .Asc, limit⟩ n.key) = [] := by
      refine List.filter_eq_nil_iff.mpr fun n hn => ?_
      rw [decide_eq_true_eq, Wanted]
      rintro (h | ⟨-, h⟩)
      · exact hnone n hn h
      · rw [hnodes, List.append_nil] at hn
        exact key_ne_of_lt (hbelow n hn) h
    refine iff_of_true ?_ (.inr (.inr (.inr hnone)))
    simp only [scan, ascending, hempty, hfound]
    simp [hlimit]
  | cons n rest =>
    have hcut := @wanted_cut ⟨startKey, containStartKey, .Asc, limit⟩ pre rest n (hnodes ▸ hsorted) hpre
      (hsuf n List.mem_cons_self)
    have hpos : 0 < limit.toNat := Nat.pos_of_ne_zero fun h => hlimit (UInt32.toNat_inj.mp h)
    rw [@scan_asc kvs ⟨startKey, containStartKey, .Asc, limit⟩ rfl pre rest n hnodes hlimit hfound, ascending, hnodes, hcut]
    cases containStartKey with
    | true => simp
    | false =>
      by_cases hstart : n.key = startKey
      · exact iff_of_true (by simp [hstart]) (.inr (.inr (.inl ⟨n, by simp, hstart⟩)))
      · have hgt : startKey < n.key :=
          ((not_less_iff _ _).mp (hsuf n List.mem_cons_self)).resolve_right hstart
        have habsent := absent_of_cut (hnodes ▸ hsorted) hbelow hgt
        have habove : ¬ ∀ m ∈ pre ++ n :: rest, ¬ startKey < m.key := fun h => h n (by simp) hgt
        have hskip := skip_shows hfiled hnodes hpos
        simp only [hlimit, habsent, habove, or_self, iff_false, Bool.false_eq_true, if_false, false_or,
          ne_eq, hstart, not_false_eq_true, if_true, List.nil_append, List.singleton_append,
          Option.some.injEq]
        exact fun h => hskip (ScanResponse.mk.injEq _ _ _ _ _ _ ▸ h).2.2

/-- The start key is absent and not asked for: the entry next to it is left out. -/
theorem scan_asc_skips_first :
    scan false (NodeMap.empty.assign [98] ⟨[98], []⟩) ⟨[97], false, .Asc, 1⟩ = some (scanned []) ∧
      ascending (NodeMap.empty.assign [98] ⟨[98], []⟩) ⟨[97], false, .Asc, 1⟩ = [⟨[98], []⟩] := by
  decide

/-! ## Descending -/

/-- The stored entries below the start key, or up to it. -/
def WantedBelow (req : ScanRequest) (key : Bytes) : Prop :=
  key < req.startKey ∨ (req.containStartKey = true ∧ key = req.startKey)

instance (req : ScanRequest) (key : Bytes) : Decidable (WantedBelow req key) :=
  inferInstanceAs (Decidable (_ ∨ _))

def descending (kvs : Kvs) (req : ScanRequest) : List Entry :=
  ((kvs.nodes.filter (fun n => WantedBelow req n.key)).reverse.take req.limit.toNat).map Node.val

/-- What is wanted of a map cut at the start key: all below it, and its element when asked for. -/
theorem wantedBelow_cut {req : ScanRequest} {pre rest : List (Node Bytes Entry)} {n : Node Bytes Entry}
    (hsorted : (pre ++ n :: rest).Pairwise (fun a b => a.key < b.key)) (hpre : ∀ p ∈ pre, p.key < req.startKey)
    (hn : req.startKey < n.key ∨ n.key = req.startKey) :
    (pre ++ n :: rest).filter (fun n => WantedBelow req n.key) =
      pre ++ if req.containStartKey = true ∧ n.key = req.startKey then [n] else [] := by
  have hbelow : pre.filter (fun n => WantedBelow req n.key) = pre :=
    List.filter_eq_self.mpr fun p hp => decide_eq_true (.inl (hpre p hp))
  have hnone : ∀ {key : Bytes}, req.startKey < key → ¬ WantedBelow req key := by
    rintro key hlt (h | ⟨-, h⟩)
    · exact key_ne_of_lt (key_lt_trans hlt h) rfl
    · exact key_ne_of_lt hlt h.symm
  have habove : rest.filter (fun n => WantedBelow req n.key) = [] := by
    refine List.filter_eq_nil_iff.mpr fun r hr => ?_
    have hnr := lt_of_mem_behind hsorted r hr
    rw [decide_eq_true_eq]
    rcases hn with h | h
    · exact hnone (key_lt_trans h hnr)
    · exact hnone (h ▸ hnr)
  have hfirst : WantedBelow req n.key ↔ req.containStartKey = true ∧ n.key = req.startKey := by
    rcases hn with h | h
    · exact iff_of_false (hnone h) fun hboth => key_ne_of_lt h hboth.2.symm
    · simp only [WantedBelow, h, and_true]
      exact ⟨fun hor => hor.resolve_left fun hlt => key_ne_of_lt hlt rfl, .inr⟩
  rw [List.filter_append, hbelow, List.filter_cons, habove]
  simp only [decide_eq_true_eq, hfirst]

/-- What a descending scan returns: the element at the start key or behind it when the start key is
to be contained, then the elements before it, as long as it does not come to the first one. -/
theorem scan_desc {kvs : Kvs} {req : ScanRequest} (hdesc : req.order = .Desc)
    {pre rest : List (Node Bytes Entry)} {n : Node Bytes Entry} (hnodes : kvs.nodes = pre ++ n :: rest)
    (hlimit : req.limit ≠ 0) (hfound : kvs.lowerBound req.startKey = some n.addr) :
    scan false kvs req =
      if req.limit.toNat < (pre ++ if req.containStartKey = true then [n] else []).length then
        some (scanned (((pre ++ if req.containStartKey = true then [n] else []).reverse.take
          req.limit.toNat).map Node.val))
      else none := by
  have hpos : 0 < req.limit.toNat :=
    Nat.pos_of_ne_zero fun h => hlimit (UInt32.toNat_inj.mp h)
  obtain ⟨left, hleft⟩ : ∃ left, req.limit.toNat = left + 1 := ⟨_, (Nat.succ_pred_eq_of_pos hpos).symm⟩
  have hstopped : (false = true) = False := by simp
  have hnodup := kvs.addr_nodup
  simp only [scan, hstopped, if_false, if_neg hlimit, hfound, scanFrom, kvs.nodeAt_suffix hnodes, hdesc]
  rcases List.eq_nil_or_concat pre with rfl | ⟨init, w, rfl⟩
  · have hprev : kvs.prev (some n.addr) = none := by
      rw [hnodes, List.nil_append, List.map_cons, List.nodup_cons] at hnodup
      rw [prev, hnodes]
      exact addrBefore_first hnodup.1
    cases req.containStartKey with
    | true => simp [hprev, hleft]
    | false => simp [hprev]
  · rw [List.concat_eq_append, List.append_assoc, List.singleton_append] at hnodes
    have hprev : kvs.prev (some n.addr) = some w.addr := by
      rw [hnodes] at hnodup
      rw [prev, hnodes]
      exact addrBefore_append init rest w n hnodup
    simp only [hprev, kvs.backward_eq hnodes]
    cases req.containStartKey with
    | true =>
      by_cases hshort : left ≤ init.length
      · simp [hleft, hshort, Nat.lt_succ_of_le hshort]
      · simp [hleft, hshort]
    | false =>
      by_cases hshort : left + 1 ≤ init.length
      · simp [hleft, hshort, Nat.lt_succ_of_le hshort]
      · simp [hleft, hshort]

/-- Where a descending scan returns what it should. -/
theorem scan_desc_iff (kvs : { kvs : Kvs // Filed kvs }) (startKey : Bytes) (containStartKey : Bool)
    (limit : UInt32) :
    kvs.1.nodes.Pairwise (fun a b => a.key < b.key) ∧
      (scan false kvs.1 ⟨startKey, containStartKey, .Desc, limit⟩ =
          some (scanned (descending kvs.1 ⟨startKey, containStartKey, .Desc, limit⟩)) ↔
        limit = 0 ∨ kvs.1.nodes = [] ∨ ((∃ n ∈ kvs.1.nodes, ¬ n.key < startKey) ∧
          (containStartKey = true → ∃ n ∈ kvs.1.nodes, n.key = startKey) ∧
          limit.toNat <
            (kvs.1.nodes.filter fun n => WantedBelow ⟨startKey, containStartKey, .Desc, limit⟩ n.key).length)) := by
  obtain ⟨kvs, hfiled⟩ := kvs
  have hsorted := nodes_ascending kvs
  refine ⟨hsorted, ?_⟩
  obtain ⟨pre, suf, hnodes, hfound, hpre, hsuf⟩ := kvs.lowerBound_split startKey
  have hbelow : ∀ n ∈ pre, n.key < startKey := fun n hn => (keyLess_iff_lt _ _).mp (hpre n hn)
  by_cases hlimit : limit = 0
  · simp [scan, descending, hlimit]
  have hpos : 0 < limit.toNat := Nat.pos_of_ne_zero fun h => hlimit (UInt32.toNat_inj.mp h)
  cases suf with
  | nil =>
    -- everything stored is below the start key, and nothing of it is returned
    rw [List.append_nil] at hnodes
    have hall : kvs.nodes.filter (fun n => WantedBelow ⟨startKey, containStartKey, .Desc, limit⟩ n.key) = pre := by
      rw [hnodes]
      exact List.filter_eq_self.mpr fun p hp => decide_eq_true (.inl (hbelow p hp))
    have hnone : ¬ ∃ n ∈ pre, ¬ n.key < startKey := by
      rintro ⟨n, hn, hlt⟩
      exact hlt (hbelow n hn)
    have hscan : scan false kvs ⟨startKey, containStartKey, .Desc, limit⟩ = some (scanned []) := by
      simp [scan, hlimit, hfound]
    rw [hscan, descending, hall, hnodes]
    simp only [hlimit, hnone, false_and, or_false, false_or]
    constructor
    · intro h
      have hentries := congrArg ScanResponse.entries (Option.some.inj h)
      have hlen := congrArg List.length hentries
      rw [scanned, scanned, List.length_map, List.length_take, List.length_reverse, List.length_nil] at hlen
      exact List.length_eq_zero_iff.mp (by omega)
    · rintro rfl
      simp
  | cons n rest =>
    have hstart := (not_less_iff _ _).mp (hsuf n List.mem_cons_self)
    have hcut := @wantedBelow_cut ⟨startKey, containStartKey, .Desc, limit⟩ pre rest n (hnodes ▸ hsorted) hbelow hstart
    have hnot : ∃ m ∈ kvs.nodes, ¬ m.key < startKey := by
      refine ⟨n, by simp [hnodes], fun hlt => ?_⟩
      rcases hstart with h | h
      · exact key_ne_of_lt (key_lt_trans h hlt) rfl
      · exact key_ne_of_lt hlt h
    have hne : kvs.nodes ≠ [] := by simp [hnodes]
    rw [@scan_desc kvs ⟨startKey, containStartKey, .Desc, limit⟩ rfl pre rest n hnodes hlimit hfound, descending, hnodes, hcut, ← hnodes]
    simp only [hlimit, hnot, hne, true_and, false_or]
    cases containStartKey with
    | false => simp
    | true =>
      by_cases hkey : n.key = startKey
      · have hpresent : ∃ m ∈ kvs.nodes, m.key = startKey := ⟨n, by simp [hnodes], hkey⟩
        simp [hkey, hpresent]
      · have hgt := hstart.resolve_right hkey
        have habsent : ¬ ∃ m ∈ kvs.nodes, m.key = startKey := by
          rw [hnodes]
          exact absent_of_cut (hnodes ▸ hsorted) hbelow hgt
        simp only [hkey, habsent, and_false, if_true, if_false, List.append_nil, forall_const, false_and, iff_false]
        intro h
        split_ifs at h with hshort
        -- the first entry returned is the one behind the start key
        have hentries := congrArg ScanResponse.entries (Option.some.inj h)
        have hhead := congrArg List.head? hentries
        rcases List.eq_nil_or_concat pre with rfl | ⟨init, w, rfl⟩
        · simp only [List.nil_append, List.length_singleton] at hshort
          omega
        · obtain ⟨left, hleft⟩ : ∃ left, limit.toNat = left + 1 := ⟨_, (Nat.succ_pred_eq_of_pos hpos).symm⟩
          have hval : n.val = w.val := by simpa [scanned, hleft] using hhead
          have hlt := key_lt_trans (hbelow w (by simp)) hgt
          refine key_ne_of_lt hlt ?_
          rw [hfiled w (by simp [hnodes]), hfiled n (by simp [hnodes]), hval]

/-- A start key beyond the largest one returns nothing, one between two keys is answered with the
larger one, and the end of the map is run over. -/
theorem scan_desc_fails :
    scan false (NodeMap.empty.assign [98] ⟨[98], []⟩) ⟨[99], false, .Desc, 1⟩ = some (scanned []) ∧
      descending (NodeMap.empty.assign [98] ⟨[98], []⟩) ⟨[99], false, .Desc, 1⟩ = [⟨[98], []⟩] ∧
    scan false (((NodeMap.empty.assign [98] ⟨[98], []⟩).assign [97] ⟨[97], []⟩).assign [100] ⟨[100], []⟩)
        ⟨[99], true, .Desc, 1⟩ = some (scanned [⟨[100], []⟩]) ∧
      descending (((NodeMap.empty.assign [98] ⟨[98], []⟩).assign [97] ⟨[97], []⟩).assign [100] ⟨[100], []⟩)
        ⟨[99], true, .Desc, 1⟩ = [⟨[98], []⟩] ∧
    scan false (NodeMap.empty.assign [98] ⟨[98], []⟩) ⟨[98], true, .Desc, 1⟩ = none := by
  decide

end

end FlyingKV.MiniKv
