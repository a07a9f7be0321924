import FlyingKV.MiniKvEntries
import FlyingKV.SearchTree

set_option autoImplicit false

/-!
# `MiniKV::Key`

A key as the requests hand it to `m_kvs`: a pointer to its bytes and a 32-bit
length. For keys of less than 2^32 bytes the comparison is the one of the whole
byte strings.
-/
namespace FlyingKV.MiniKv
open ByteOrder OrderedMap SearchTree

/-- `data` has the bytes from the pointer on. -/
structure Key where
  data : Bytes
  len : ℕ
deriving DecidableEq, Repr

/-- `{.Data = key().c_str(), .Len = uint32_t(key().length())}`. -/
def Key.ofRequest (key : Bytes) : Key := ⟨key, key.length % 2 ^ 32⟩

/-- `Key::operator<`. -/
def Key.less (a b : Key) : Bool :=
  let minLen := if a.len < b.len then a.len else b.len
  let lessThanB := decide (a.len < b.len)
  match memcmp minLen a.data b.data with
  | .lt => true
  | .eq => lessThanB
  | .gt => false

/-- A byte string shorter than 2^32 bytes. -/
@[ext]
structure KeyText where
  bytes : Bytes
  length_lt : bytes.length < 2 ^ 32
deriving DecidableEq, Repr

namespace KeyText

def less (a b : KeyText) : Bool := (Key.ofRequest a.bytes).less (Key.ofRequest b.bytes)

theorem less_eq (a b : KeyText) : a.less b = keyLess a.bytes b.bytes := by
  unfold less Key.less Key.ofRequest
  rw [Nat.mod_eq_of_lt a.length_lt, Nat.mod_eq_of_lt b.length_lt]
  rfl

theorem less_irrefl (a : KeyText) : a.less a = false := by
  rw [less_eq]
  exact keyLess_irrefl _

theorem less_trans {a b c : KeyText} (hab : a.less b = true) (hbc : b.less c = true) : a.less c = true := by
  rw [less_eq] at hab hbc ⊢
  exact keyLess_trans _ _ _ hab hbc

theorem less_asymm {a b : KeyText} (h : a.less b = true) : b.less a = false := by
  refine Bool.eq_false_iff.mpr fun hba => ?_
  have haa := less_trans h hba
  rw [less_irrefl] at haa
  cases haa

theorem less_total {a b : KeyText} (hab : a.less b = false) (hba : b.less a = false) : a = b := by
  rw [less_eq] at hab hba
  exact KeyText.ext (keyLess_total _ _ hab hba)

theorem less_iff_lex (a b : KeyText) :
    a.less b = true ↔ List.Lex (fun x y : UInt8 => x.toNat < y.toNat) a.bytes b.bytes := by
  rw [less_eq, keyLess_iff_lt]
  exact Iff.rfl

instance : PartialOrder KeyText where
  le a b := b.less a = false
  lt a b := a.less b = true
  le_refl a := less_irrefl a
  le_trans a b c hba hcb := by
    refine Bool.eq_false_iff.mpr fun hca => ?_
    cases hab : a.less b with
    | true =>
      rw [less_trans hca hab] at hcb
      cases hcb
    | false =>
      obtain rfl := less_total hab hba
      rw [hca] at hcb
      cases hcb
  le_antisymm a b hba hab := less_total hab hba
  lt_iff_le_not_ge a b := by
    refine ⟨fun h => ⟨less_asymm h, ?_⟩, fun h => Bool.not_eq_false _ ▸ h.2⟩
    rw [h]
    exact Bool.noConfusion

theorem agrees_less : Agrees KeyText.less := fun _ _ _ => Iff.rfl

/-- A lookup in `m_kvs` finds the element with the bytes of the key, whatever the shape of the tree. -/
theorem find_iff {t : BinTree (KeyText × Entry)} (ht : Ascending t) (k : KeyText) (x : KeyText × Entry) :
    (∃ i, SearchTree.find KeyText.less k t = some (i, x)) ↔ x ∈ t.toList ∧ x.1.bytes = k.bytes := by
  constructor
  · rintro ⟨i, hfind⟩
    obtain ⟨hget, hxk, hkx⟩ := find_eq_some hfind
    exact ⟨List.mem_of_getElem? hget, congrArg bytes (less_total hxk hkx)⟩
  · rintro ⟨hx, hbytes⟩
    obtain rfl : x.1 = k := KeyText.ext hbytes
    exact ht.find_of_mem agrees_less hx

/-- The tree has the elements of the map, in their order. -/
def TreeOf (m : Kvs) (t : BinTree (KeyText × Entry)) : Prop :=
  t.toList.map (fun x => (x.1.bytes, x.2)) = m.nodes.map fun n => (n.key, n.val)

theorem TreeOf.ascending {m : Kvs} {t : BinTree (KeyText × Entry)} (h : TreeOf m t) : Ascending t := by
  have hkeys : (t.toList.map fun x => x.1.bytes) = m.nodes.map Node.key := by
    have hfst := congrArg (List.map Prod.fst) h
    rwa [List.map_map, List.map_map] at hfst
  have hsorted : (m.nodes.map Node.key).Pairwise fun a b => keyLess a b = true := List.pairwise_map.mpr m.sorted
  rw [← hkeys, List.pairwise_map] at hsorted
  exact hsorted.imp fun {x y} hxy => (less_eq x.1 y.1).trans hxy

/-- `m_kvs.find` on the tree is `find` on the ordered list of its elements. -/
theorem TreeOf.find {m : Kvs} {t : BinTree (KeyText × Entry)} (h : TreeOf m t) (k : KeyText) :
    (SearchTree.find KeyText.less k t).map (fun r => r.2.2) = m.find k.bytes := by
  cases hfind : SearchTree.find KeyText.less k t with
  | some r =>
    obtain ⟨hx, hbytes⟩ := (find_iff h.ascending k r.2).mp ⟨r.1, hfind⟩
    have hmem : (r.2.1.bytes, r.2.2) ∈ m.nodes.map fun n => (n.key, n.val) :=
      h ▸ List.mem_map.mpr ⟨r.2, hx, rfl⟩
    obtain ⟨n, hn, heq⟩ := List.mem_map.mp hmem
    obtain ⟨hkey, hval⟩ := Prod.mk.inj heq
    rw [← hbytes, ← hkey, m.find_of_mem hn, hval, Option.map_some]
  | none =>
    refine (Option.eq_none_iff_forall_ne_some.mpr fun v hv => ?_).symm
    obtain ⟨n, hn, hkey, hval⟩ := NodeMap.mem_of_findNode hv
    have hmem : (n.key, n.val) ∈ t.toList.map fun x => (x.1.bytes, x.2) :=
      h ▸ List.mem_map.mpr ⟨n, hn, rfl⟩
    obtain ⟨x, hx, heq⟩ := List.mem_map.mp hmem
    obtain ⟨i, hi⟩ := (find_iff h.ascending k x).mpr ⟨hx, (Prod.mk.inj heq).1.trans hkey⟩
    rw [hi] at hfind
    cases hfind

theorem trichotomy (a b : KeyText) :
    (a.less b = true ∧ b.less a = false ∧ a.bytes ≠ b.bytes) ∨
      (a.less b = false ∧ b.less a = true ∧ a.bytes ≠ b.bytes) ∨
      (a.less b = false ∧ b.less a = false ∧ a.bytes = b.bytes) := by
  have hne {a b : KeyText} (h : a.less b = true) : a.bytes ≠ b.bytes := by
    intro hbytes
    rw [KeyText.ext hbytes, less_irrefl] at h
    cases h
  cases hab : a.less b with
  | true => exact .inl ⟨rfl, less_asymm hab, hne hab⟩
  | false =>
    cases hba : b.less a with
    | true => exact .inr (.inl ⟨rfl, rfl, (hne hba).symm⟩)
    | false => exact .inr (.inr ⟨rfl, rfl, congrArg bytes (less_total hab hba)⟩)

end KeyText

theorem key_order_lexicographic (a b c : KeyText) :
    a.less a = false ∧
      (a.less b = true → b.less a = false) ∧
      (a.less b = true → b.less c = true → a.less c = true) ∧
      ((a.less b = true ∧ b.less a = false ∧ a.bytes ≠ b.bytes) ∨
        (a.less b = false ∧ b.less a = true ∧ a.bytes ≠ b.bytes) ∨
        (a.less b = false ∧ b.less a = false ∧ a.bytes = b.bytes)) ∧
      (a.less b = true ↔ List.Lex (fun x y : UInt8 => x.toNat < y.toNat) a.bytes b.bytes) ∧
      (a.less b = false ∧ b.less a = false ↔ a.bytes = b.bytes) ∧
      ∀ (t : BinTree (KeyText × Entry)) (x : KeyText × Entry), Ascending t →
        ((∃ i, SearchTree.find KeyText.less a t = some (i, x)) ↔ x ∈ t.toList ∧ x.1.bytes = a.bytes) := by
  refine ⟨a.less_irrefl, KeyText.less_asymm, KeyText.less_trans, a.trichotomy b, a.less_iff_lex b, ?_,
    fun t x ht => KeyText.find_iff ht a x⟩
  constructor
  · rintro ⟨hab, hba⟩
    exact congrArg KeyText.bytes (KeyText.less_total hab hba)
  · intro hbytes
    obtain rfl := KeyText.ext hbytes
    exact ⟨a.less_irrefl, a.less_irrefl⟩

end FlyingKV.MiniKv
