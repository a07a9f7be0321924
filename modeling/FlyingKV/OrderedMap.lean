import FlyingKV.LastWriter

set_option autoImplicit false

/-!
# An ordered map whose elements have addresses

The map keeps its elements sorted under a comparator. An element keeps its address
while its value is overwritten, and an address is never used again once its element
is erased, so an iterator is an address, or the end, and stays meaningful exactly as
long as its element is there.
-/
namespace FlyingKV.OrderedMap
open LastWriter

/-- A strict total order given by its comparison. -/
structure Comparator (K : Type) where
  less : K → K → Bool
  irrefl : ∀ a, less a a = false
  trans : ∀ a b c, less a b = true → less b c = true → less a c = true
  total : ∀ a b, less a b = false → less b a = false → a = b

structure Node (K V : Type) where
  key : K
  val : V
  addr : ℕ
deriving DecidableEq, Repr

section
variable {K V : Type} (c : Comparator K)

/-- Equivalence under the comparator is equality. -/
def Comparator.same (a b : K) : Bool := !c.less a b && !c.less b a

theorem Comparator.same_iff {a b : K} : c.same a b = true ↔ a = b := by
  simp only [Comparator.same, Bool.and_eq_true, Bool.not_eq_true']
  constructor
  · rintro ⟨h₁, h₂⟩
    exact c.total a b h₁ h₂
  · rintro rfl
    exact ⟨c.irrefl a, c.irrefl a⟩

theorem Comparator.ne_of_less {a b : K} (h : c.less a b = true) : a ≠ b := by
  rintro rfl
  rw [c.irrefl] at h
  cases h

def findNode (k : K) : List (Node K V) → Option V
  | [] => none
  | n :: rest => if c.same n.key k then some n.val else findNode k rest

/-- Overwrite the value at a key, or insert an element with a new address. -/
def assignNode (k : K) (v : V) (addr : ℕ) : List (Node K V) → List (Node K V)
  | [] => [⟨k, v, addr⟩]
  | n :: rest =>
    if c.less k n.key then ⟨k, v, addr⟩ :: n :: rest
    else if c.less n.key k then n :: assignNode k v addr rest
    else { n with val := v } :: rest

def eraseNode (k : K) (ns : List (Node K V)) : List (Node K V) :=
  ns.filter (fun n => !c.same n.key k)

variable {k : K} {v : V} {addr : ℕ} {ns : List (Node K V)}

theorem mem_assignNode {n : Node K V} (h : n ∈ assignNode c k v addr ns) :
    (n.key = k ∧ n.val = v ∧ (n.addr = addr ∨ n.addr ∈ ns.map Node.addr)) ∨ n ∈ ns := by
  induction ns with
  | nil =>
    rw [assignNode, List.mem_singleton] at h
    exact .inl ⟨by rw [h], by rw [h], .inl (by rw [h])⟩
  | cons a rest ih =>
    rw [assignNode] at h
    split_ifs at h with h₁ h₂
    · rcases List.mem_cons.mp h with rfl | h
      · exact .inl ⟨rfl, rfl, .inl rfl⟩
      · exact .inr h
    · rcases List.mem_cons.mp h with rfl | h
      · exact .inr (List.mem_cons_self ..)
      · rcases ih h with ⟨hk, hv, ha⟩ | hn
        · exact .inl ⟨hk, hv, ha.imp_right fun ha => by simp [ha]⟩
        · exact .inr (List.mem_cons_of_mem _ hn)
    · rcases List.mem_cons.mp h with rfl | h
      · exact .inl ⟨c.total _ _ (by simpa using h₂) (by simpa using h₁), rfl, .inr (by simp)⟩
      · exact .inr (List.mem_cons_of_mem _ h)

theorem sorted_assignNode (h : ns.Pairwise (fun a b => c.less a.key b.key = true)) :
    (assignNode c k v addr ns).Pairwise (fun a b => c.less a.key b.key = true) := by
  induction ns with
  | nil => simp [assignNode]
  | cons a rest ih =>
    obtain ⟨ha, hrest⟩ := List.pairwise_cons.mp h
    rw [assignNode]
    split_ifs with h₁ h₂
    · refine List.pairwise_cons.mpr ⟨fun n hn => ?_, h⟩
      rcases List.mem_cons.mp hn with rfl | hn
      · exact h₁
      · exact c.trans _ _ _ h₁ (ha n hn)
    · refine List.pairwise_cons.mpr ⟨fun n hn => ?_, ih hrest⟩
      rcases mem_assignNode c hn with ⟨hk, -⟩ | hn
      · rw [hk]
        exact h₂
      · exact ha n hn
    · exact List.pairwise_cons.mpr ⟨ha, hrest⟩

theorem addrs_assignNode (hlt : ∀ n ∈ ns, n.addr < addr) (h : (ns.map Node.addr).Nodup) :
    ((assignNode c k v addr ns).map Node.addr).Nodup := by
  induction ns with
  | nil => simp [assignNode]
  | cons a rest ih =>
    have hnew : addr ∉ (a :: rest).map Node.addr := fun hm => by
      obtain ⟨n, hn, he⟩ := List.mem_map.mp hm
      have := hlt n hn
      omega
    rw [assignNode]
    split_ifs with h₁ h₂
    · exact List.nodup_cons.mpr ⟨hnew, h⟩
    · obtain ⟨ha, hrest⟩ := List.nodup_cons.mp h
      refine List.nodup_cons.mpr ⟨fun hm => ?_, ih (fun n hn => hlt n (by simp [hn])) hrest⟩
      obtain ⟨n, hn, he⟩ := List.mem_map.mp hm
      rcases mem_assignNode c hn with ⟨-, -, hn | hn⟩ | hn
      · have := hlt a (by simp)
        omega
      · exact ha (he ▸ hn)
      · exact ha (List.mem_map.mpr ⟨n, hn, he⟩)
    · exact h

end

structure NodeMap {K : Type} (c : Comparator K) (V : Type) where
  nodes : List (Node K V)
  next : ℕ
  sorted : nodes.Pairwise (fun a b => c.less a.key b.key = true)
  addr_lt : ∀ n ∈ nodes, n.addr < next
  addr_nodup : (nodes.map Node.addr).Nodup

/-- The address of an element, or the end. -/
abbrev Iter := Option ℕ

namespace NodeMap
variable {K V : Type} {c : Comparator K}

def empty : NodeMap c V := ⟨[], 0, List.Pairwise.nil, by simp, List.nodup_nil⟩

def find (m : NodeMap c V) (k : K) : Option V := findNode c k m.nodes

def assign (m : NodeMap c V) (k : K) (v : V) : NodeMap c V where
  nodes := assignNode c k v m.next m.nodes
  next := m.next + 1
  sorted := sorted_assignNode c m.sorted
  addr_lt n hn := by
    rcases mem_assignNode c hn with ⟨-, -, h | h⟩ | h
    · omega
    · obtain ⟨n', hn', he⟩ := List.mem_map.mp h
      have := m.addr_lt n' hn'
      omega
    · have := m.addr_lt n h
      omega
  addr_nodup := addrs_assignNode c m.addr_lt m.addr_nodup

def erase (m : NodeMap c V) (k : K) : NodeMap c V where
  nodes := eraseNode c k m.nodes
  next := m.next
  sorted := m.sorted.sublist List.filter_sublist
  addr_lt n hn := m.addr_lt n (List.mem_of_mem_filter hn)
  addr_nodup := m.addr_nodup.sublist (List.filter_sublist.map _)

/-- The values in key order. -/
def values (m : NodeMap c V) : List V := m.nodes.map Node.val

def begin (m : NodeMap c V) : Iter := m.nodes.head?.map Node.addr

/-- The element at an address and the iterator behind it; none when the element is gone. -/
def nodeAt (a : ℕ) : List (Node K V) → Option (Node K V × Iter)
  | [] => none
  | n :: rest => if n.addr = a then some (n, rest.head?.map Node.addr) else nodeAt a rest

/-- The values met by advancing an iterator to the end; none when it is advanced from an
element that is gone. -/
def travel (m : NodeMap c V) : ℕ → Iter → Option (List V)
  | _, none => some []
  | 0, some _ => none
  | fuel + 1, some a =>
    match nodeAt a m.nodes with
    | none => none
    | some (n, next) => (travel m fuel next).map (n.val :: ·)

/-- The first element that is not less than the key, or the end. -/
def lowerBound (m : NodeMap c V) (k : K) : Iter :=
  (m.nodes.find? (fun n => !c.less n.key k)).map Node.addr

/-- The values met by advancing an iterator at most so often. -/
def forward (m : NodeMap c V) : ℕ → Iter → Option (List V)
  | 0, _ => some []
  | _ + 1, none => some []
  | left + 1, some a =>
    match nodeAt a m.nodes with
    | none => none
    | some (n, next) => (forward m left next).map (n.val :: ·)

def addrBefore (a : ℕ) : List (Node K V) → Option ℕ
  | x :: y :: rest => if y.addr = a then some x.addr else addrBefore a (y :: rest)
  | _ => none

/-- One step back; there is none from the first element. -/
def prev (m : NodeMap c V) : Iter → Option ℕ
  | none => m.nodes.getLast?.map Node.addr
  | some a => addrBefore a m.nodes

/-- The values met on the way back. The iterator steps back behind every element met, the
last one included. -/
def backward (m : NodeMap c V) : ℕ → Iter → Option (List V)
  | 0, _ => some []
  | _ + 1, none => some []
  | left + 1, some a =>
    match nodeAt a m.nodes, m.prev (some a) with
    | some (n, _), some a' => (backward m left (some a')).map (n.val :: ·)
    | _, _ => none

/-! ## Iteration -/

theorem nodeAt_append (pre rest : List (Node K V)) (n : Node K V)
    (h : ((pre ++ n :: rest).map Node.addr).Nodup) :
    nodeAt n.addr (pre ++ n :: rest) = some (n, rest.head?.map Node.addr) := by
  induction pre with
  | nil => simp [nodeAt]
  | cons a pre ih =>
    rw [List.cons_append, List.map_cons, List.nodup_cons] at h
    have hne : a.addr ≠ n.addr := fun he => h.1 (by simp [he])
    rw [List.cons_append, nodeAt, if_neg hne, ih h.2]

variable {a : ℕ} {ns pre : List (Node K V)} {k : K}

theorem nodeAt_eq_none (h : a ∉ ns.map Node.addr) : nodeAt a ns = none := by
  induction ns with
  | nil => rfl
  | cons n rest ih =>
    simp only [List.map_cons, List.mem_cons, not_or] at h
    rw [nodeAt, if_neg (Ne.symm h.1), ih h.2]

theorem nodeAt_suffix (m : NodeMap c V) {pre rest : List (Node K V)} {n : Node K V}
    (h : m.nodes = pre ++ n :: rest) : nodeAt n.addr m.nodes = some (n, rest.head?.map Node.addr) := by
  have hnd := m.addr_nodup
  rw [h] at hnd ⊢
  exact nodeAt_append pre rest n hnd

theorem travel_suffix (m : NodeMap c V) {suf : List (Node K V)} (h : m.nodes = pre ++ suf) (fuel : ℕ)
    (hf : suf.length ≤ fuel) : m.travel fuel (suf.head?.map Node.addr) = some (suf.map Node.val) := by
  induction suf generalizing pre fuel with
  | nil =>
    cases fuel <;> rfl
  | cons n rest ih =>
    cases fuel with
    | zero => simp at hf
    | succ fuel =>
      have hat := m.nodeAt_suffix h
      have hrest := @ih (pre ++ [n]) (by rw [h]; simp) fuel (by simpa using hf)
      simp only [List.head?_cons, Option.map_some, travel, hat, hrest, List.map_cons]

theorem forward_suffix (m : NodeMap c V) {suf : List (Node K V)} (h : m.nodes = pre ++ suf) (left : ℕ) :
    m.forward left (suf.head?.map Node.addr) = some ((suf.take left).map Node.val) := by
  induction left generalizing pre suf with
  | zero => simp [forward]
  | succ left ih =>
    cases suf with
    | nil => rfl
    | cons n rest =>
      have hrest := @ih (pre ++ [n]) rest (by rw [h]; simp)
      simp only [List.head?_cons, Option.map_some, forward, m.nodeAt_suffix h, hrest, List.take_succ_cons,
        List.map_cons]

theorem addrBefore_first {z : Node K V} {l : List (Node K V)} (h : a ∉ l.map Node.addr) :
    addrBefore a (z :: l) = none := by
  induction l generalizing z with
  | nil => rfl
  | cons w l ih =>
    simp only [List.map_cons, List.mem_cons, not_or] at h
    rw [addrBefore, if_neg (Ne.symm h.1)]
    exact ih h.2

theorem addrBefore_append (pre rest : List (Node K V)) (x y : Node K V)
    (h : ((pre ++ x :: y :: rest).map Node.addr).Nodup) :
    addrBefore y.addr (pre ++ x :: y :: rest) = some x.addr := by
  induction pre with
  | nil => simp [addrBefore]
  | cons a pre ih =>
    rw [List.cons_append, List.map_cons, List.nodup_cons] at h
    have hrest := ih h.2
    cases pre with
    | nil =>
      have hne : x.addr ≠ y.addr := fun he => (List.nodup_cons.mp h.2).1 (by simp [he])
      rw [List.cons_append, List.nil_append, addrBefore, if_neg hne]
      exact hrest
    | cons b pre =>
      have hne : b.addr ≠ y.addr := fun he => (List.nodup_cons.mp h.2).1 (by simp [he])
      rw [List.cons_append, List.cons_append, addrBefore, if_neg hne]
      exact hrest

/-- The way back from an element goes wrong once it has to leave the first one. -/
theorem backward_eq (m : NodeMap c V) {rest : List (Node K V)} {x : Node K V} (h : m.nodes = pre ++ x :: rest)
    (left : ℕ) :
    m.backward left (some x.addr) =
      if left ≤ pre.length then some (((x :: pre.reverse).take left).map Node.val) else none := by
  induction left generalizing pre rest x with
  | zero => simp [backward]
  | succ left ih =>
    have hnodup := m.addr_nodup
    rcases List.eq_nil_or_concat pre with rfl | ⟨init, w, rfl⟩
    · have hprev : m.prev (some x.addr) = none := by
        rw [h, List.nil_append, List.map_cons, List.nodup_cons] at hnodup
        rw [prev, h]
        exact addrBefore_first hnodup.1
      simp [backward, hprev]
    · rw [List.concat_eq_append, List.append_assoc, List.singleton_append] at h
      have hprev : m.prev (some x.addr) = some w.addr := by
        rw [h] at hnodup
        rw [prev, h]
        exact addrBefore_append init rest w x hnodup
      have hat : nodeAt x.addr m.nodes = some (x, rest.head?.map Node.addr) :=
        @nodeAt_suffix _ _ _ m (init ++ [w]) rest x (by rw [h]; simp)
      simp only [backward, hat, hprev, ih h]
      by_cases hleft : left ≤ init.length
      · simp [hleft]
      · simp [hleft]

theorem lowerBound_split (m : NodeMap c V) (k : K) : ∃ pre suf, m.nodes = pre ++ suf ∧
    m.lowerBound k = suf.head?.map Node.addr ∧ (∀ n ∈ pre, c.less n.key k = true) ∧
      ∀ n ∈ suf, c.less n.key k = false := by
  have hsorted := m.sorted
  unfold lowerBound
  generalize m.nodes = ns at hsorted ⊢
  induction ns with
  | nil => exact ⟨[], [], rfl, rfl, by simp, by simp⟩
  | cons a rest ih =>
    obtain ⟨ha, hrest⟩ := List.pairwise_cons.mp hsorted
    cases hk : c.less a.key k with
    | true =>
      obtain ⟨pre, suf, rfl, hfind, hpre, hsuf⟩ := ih hrest
      refine ⟨a :: pre, suf, rfl, ?_, ?_, hsuf⟩
      · rw [List.find?_cons_of_neg (by simp [hk]), hfind]
      · simpa [hk] using hpre
    | false =>
      refine ⟨[], a :: rest, rfl, by simp [hk], by simp, ?_⟩
      intro n hn
      rcases List.mem_cons.mp hn with rfl | hn
      · exact hk
      · -- an element behind `a` that is below the key would put `a` below it
        rw [← Bool.not_eq_true] at hk ⊢
        exact fun hlt => hk (c.trans _ _ _ (ha n hn) hlt)

theorem travel_begin (m : NodeMap c V) : m.travel m.nodes.length m.begin = some m.values :=
  m.travel_suffix (List.nil_append _).symm _ le_rfl

/-- The whole map is met, each element once and in order, exactly from its first element. -/
theorem travel_eq_values_iff (m : NodeMap c V) (it : Iter) :
    m.travel m.nodes.length it = some m.values ↔ it = m.begin := by
  constructor
  · intro h
    cases it with
    | none =>
      have hv : m.nodes = [] := by
        have : some ([] : List V) = some m.values := by
          cases hn : m.nodes.length <;> rw [hn] at h <;> exact h
        simpa [values] using this
      simp [begin, hv]
    | some a =>
      by_cases ha : a ∈ m.nodes.map Node.addr
      · obtain ⟨n, hn, rfl⟩ := List.mem_map.mp ha
        obtain ⟨pre, rest, hsplit⟩ := List.append_of_mem hn
        have ht := m.travel_suffix hsplit m.nodes.length (by rw [hsplit]; simp)
        rw [List.head?_cons, Option.map_some, h, Option.some.injEq] at ht
        have hlen := congrArg List.length ht
        rw [values, hsplit] at hlen
        simp only [List.map_append, List.length_append, List.length_map] at hlen
        have hpre : pre = [] := List.length_eq_zero_iff.mp (by omega)
        rw [begin, hsplit, hpre]
        rfl
      · cases hl : m.nodes.length with
        | zero => rw [hl] at h; cases h
        | succ n =>
          rw [hl, travel, nodeAt_eq_none ha] at h
          cases h
  · rintro rfl
    exact m.travel_begin

theorem mem_of_nodeAt {n : Node K V} {next : Iter} (h : nodeAt a ns = some (n, next)) : n ∈ ns := by
  induction ns with
  | nil => cases h
  | cons m rest ih =>
    rw [nodeAt] at h
    split_ifs at h
    · cases h
      exact List.mem_cons_self
    · exact List.mem_cons_of_mem _ (ih h)

theorem mem_of_travel (m : NodeMap c V) {fuel : ℕ} {it : Iter} {vs : List V}
    (h : m.travel fuel it = some vs) : ∀ v ∈ vs, v ∈ m.values := by
  induction fuel generalizing it vs with
  | zero =>
    cases it with
    | none => cases h; simp
    | some a => cases h
  | succ fuel ih =>
    cases it with
    | none => cases h; simp
    | some a =>
      rw [travel] at h
      cases hn : nodeAt a m.nodes with
      | none => rw [hn] at h; cases h
      | some o =>
        obtain ⟨n, next⟩ := o
        rw [hn] at h
        obtain ⟨vs', hvs, rfl⟩ := Option.map_eq_some_iff.mp h
        intro v hv
        rcases List.mem_cons.mp hv with rfl | hv
        · exact List.mem_map_of_mem (mem_of_nodeAt hn)
        · exact ih hvs v hv

/-! ## Lookups -/

@[simp] theorem find_empty : (empty : NodeMap c V).find = fun _ => none := rfl

theorem mem_of_findNode {v : V} (h : findNode c k ns = some v) : ∃ n ∈ ns, n.key = k ∧ n.val = v := by
  induction ns with
  | nil => cases h
  | cons n rest ih =>
    rw [findNode] at h
    split_ifs at h with hsame
    · exact ⟨n, List.mem_cons_self, c.same_iff.mp hsame, Option.some.inj h⟩
    · obtain ⟨n', hn', hkey, hval⟩ := ih h
      exact ⟨n', List.mem_cons_of_mem _ hn', hkey, hval⟩

theorem find_of_mem (m : NodeMap c V) {n : Node K V} (h : n ∈ m.nodes) : m.find n.key = some n.val := by
  have hsorted := m.sorted
  unfold find
  generalize m.nodes = ns at h hsorted
  induction ns with
  | nil => cases h
  | cons a rest ih =>
    obtain ⟨ha, hrest⟩ := List.pairwise_cons.mp hsorted
    rw [findNode]
    rcases List.mem_cons.mp h with rfl | h
    · rw [if_pos (c.same_iff.mpr rfl)]
    · have hne := c.ne_of_less (ha n h)
      rw [if_neg (by rwa [c.same_iff]), ih h hrest]

theorem eraseNode_of_none (h : findNode c k ns = none) : eraseNode c k ns = ns := by
  induction ns with
  | nil => rfl
  | cons a rest ih =>
    rw [findNode] at h
    split_ifs at h with hk
    rw [eraseNode, List.filter_cons_of_pos (by simpa using hk)]
    exact congrArg (a :: ·) (ih h)

theorem erase_assign_nodes (m : NodeMap c V) (v : V) (h : m.find k = none) :
    ((m.assign k v).erase k).nodes = m.nodes := by
  change eraseNode c k (assignNode c k v m.next m.nodes) = m.nodes
  change findNode c k m.nodes = none at h
  generalize m.nodes = ns at h
  induction ns with
  | nil => simp [assignNode, eraseNode, c.same_iff.mpr]
  | cons a rest ih =>
    have hall := eraseNode_of_none h
    rw [findNode] at h
    split_ifs at h with hk
    rw [assignNode]
    split_ifs with h₁ h₂
    · rw [eraseNode, List.filter_cons_of_neg (by simp [c.same_iff.mpr])]
      exact hall
    · rw [eraseNode, List.filter_cons_of_pos (by simpa using hk)]
      exact congrArg (a :: ·) (ih h)
    · exact absurd (c.same_iff.mpr (c.total _ _ (by simpa using h₂) (by simpa using h₁))) hk

variable [DecidableEq K]

/-- The map holds what writing its elements in order stores. -/
theorem find_eq_storeAll (m : NodeMap c V) :
    m.find = storeAll (fun _ => none) (m.nodes.map (fun n => (n.key, some n.val))) := by
  funext k
  have hne : m.nodes.Pairwise (fun a b => a.key ≠ b.key) := m.sorted.imp c.ne_of_less
  rw [storeAll_apply]
  change findNode c k m.nodes = _
  generalize m.nodes = ns at hne ⊢
  induction ns with
  | nil => rfl
  | cons n rest ih =>
    obtain ⟨hn, hrest⟩ := List.pairwise_cons.mp hne
    rw [List.map_cons, lastWrite_cons, findNode]
    by_cases hk : n.key = k
    · have hnone : lastWrite k (rest.map (fun n => (n.key, some n.val))) = none := by
        rw [lastWrite, List.filter_eq_nil_iff.mpr]
        · rfl
        · intro w hw
          obtain ⟨a, ha, rfl⟩ := List.mem_map.mp hw
          simpa using fun h : a.key = k => hn a ha (hk.trans h.symm)
      rw [hnone, if_pos (c.same_iff.mpr hk)]
      simp [lastWrite, hk]
    · have hnone : lastWrite k [(n.key, some n.val)] = none := by simp [lastWrite, hk]
      rw [hnone, Option.or_none, if_neg (by rwa [c.same_iff]), ih hrest]

theorem find_assign (m : NodeMap c V) (k : K) (v : V) :
    (m.assign k v).find = Function.update m.find k (some v) := by
  funext k'
  rw [Function.update_apply]
  change findNode c k' (assignNode c k v m.next m.nodes) = if k' = k then some v else findNode c k' m.nodes
  induction m.nodes with
  | nil =>
    simp only [assignNode, findNode, c.same_iff]
    split_ifs with h₁ h₂ h₂
    · rfl
    · exact absurd h₁.symm h₂
    · exact absurd h₂.symm h₁
    · rfl
  | cons n rest ih =>
    rw [assignNode]
    by_cases h₁ : c.less k n.key = true
    · rw [if_pos h₁]
      by_cases hk : k' = k
      · simp [findNode, c.same_iff, hk]
      · simp [findNode, c.same_iff, hk, Ne.symm hk]
    · rw [if_neg h₁]
      by_cases h₂ : c.less n.key k = true
      · rw [if_pos h₂]
        by_cases hk : k' = k
        · have hne : ¬ n.key = k' := fun h => c.ne_of_less h₂ (h.trans hk)
          simp only [findNode, c.same_iff, if_neg hne, ih, if_pos hk]
        · simp only [findNode, ih, if_neg hk]
      · have hn : n.key = k := c.total _ _ (by simpa using h₂) (by simpa using h₁)
        rw [if_neg h₂]
        by_cases hk : k' = k
        · simp [findNode, c.same_iff, hn, hk]
        · simp [findNode, c.same_iff, hn, hk, Ne.symm hk]

theorem find_erase (m : NodeMap c V) (k : K) :
    (m.erase k).find = Function.update m.find k none := by
  funext k'
  rw [Function.update_apply]
  change findNode c k' (eraseNode c k m.nodes) = if k' = k then none else findNode c k' m.nodes
  unfold eraseNode
  induction m.nodes with
  | nil => simp [findNode]
  | cons n rest ih =>
    by_cases hn : n.key = k
    · have hs : c.same n.key k = true := c.same_iff.mpr hn
      rw [List.filter_cons_of_neg (by simp [hs]), ih, findNode]
      split_ifs with h₁ h₂
      · rfl
      · exact absurd ((c.same_iff.mp h₂).symm.trans hn) h₁
      · rfl
    · have hs : c.same n.key k = false := by rw [← Bool.not_eq_true, c.same_iff]; exact hn
      rw [List.filter_cons_of_pos (by simp [hs]), findNode, findNode, ih]
      split_ifs with h₁ h₂ h₂
      · exact absurd ((c.same_iff.mp h₁).trans h₂) hn
      · rfl
      · rfl
      · rfl

end NodeMap

end FlyingKV.OrderedMap
