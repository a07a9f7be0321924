import FlyingKV.FramedStream
import FlyingKV.OrderedMap
import FlyingKV.WireFields

set_option autoImplicit false

/-!
# Entries and keys of `MiniKV`

What the log and the checkpoint hold are encoded entries. The serialisation of
`protocol::Entry` is generated code; what is used of it are the laws of `EntryCodec`.
-/
namespace FlyingKV.MiniKv
open ByteOrder FramedStream OrderedMap LastWriter WireFields

/-- `protocol::Entry`. -/
structure Entry where
  key : Bytes
  value : Bytes
deriving DecidableEq, Repr

structure EntryCodec where
  serialize : Entry → Bytes
  parse : Bytes → Option Entry
  parse_serialize : ∀ e, parse (serialize e) = some e
  serialize_ne_nil : ∀ e, e.key ≠ [] → serialize e ≠ []

/-! ## The order of keys -/

def memcmp : ℕ → Bytes → Bytes → Ordering
  | n + 1, x :: xs, y :: ys => if x < y then .lt else if y < x then .gt else memcmp n xs ys
  | _, _, _ => .eq

/-- `Key::operator<`. -/
def keyLess (a b : Bytes) : Bool :=
  let minLen := if a.length < b.length then a.length else b.length
  let lessThanB := decide (a.length < b.length)
  match memcmp minLen a b with
  | .lt => true
  | .eq => lessThanB
  | .gt => false

theorem keyLess_nil_left (b : Bytes) : keyLess [] b = decide (b ≠ []) := by
  cases b <;> simp [keyLess, memcmp]

theorem keyLess_nil_right (a : Bytes) : keyLess a [] = false := by
  cases a <;> simp [keyLess, memcmp]

theorem keyLess_cons (x y : UInt8) (xs ys : Bytes) :
    keyLess (x :: xs) (y :: ys) = if x < y then true else if y < x then false else keyLess xs ys := by
  have hmin : (if (x :: xs).length < (y :: ys).length then (x :: xs).length else (y :: ys).length) =
      (if xs.length < ys.length then xs.length else ys.length) + 1 := by
    simp only [List.length_cons]
    split_ifs <;> omega
  simp only [keyLess, hmin, memcmp]
  split_ifs <;> simp

theorem keyLess_irrefl (a : Bytes) : keyLess a a = false := by
  induction a with
  | nil => rfl
  | cons x xs ih => simp [keyLess_cons, ih]

theorem keyLess_trans (a b c : Bytes) (h₁ : keyLess a b = true) (h₂ : keyLess b c = true) :
    keyLess a c = true := by
  induction a generalizing b c with
  | nil =>
    cases c with
    | nil => simp [keyLess_nil_right] at h₂
    | cons z zs => simp [keyLess_nil_left]
  | cons x xs ih =>
    cases b with
    | nil => simp [keyLess_nil_right] at h₁
    | cons y ys =>
      cases c with
      | nil => simp [keyLess_nil_right] at h₂
      | cons z zs =>
        simp only [keyLess_cons, UInt8.lt_iff_toNat_lt] at h₁ h₂ ⊢
        have hrec := ih ys zs
        split_ifs at h₁ h₂ ⊢ <;> first | rfl | omega | exact hrec h₁ h₂

theorem keyLess_total (a b : Bytes) (h₁ : keyLess a b = false) (h₂ : keyLess b a = false) : a = b := by
  induction a generalizing b with
  | nil =>
    cases b with
    | nil => rfl
    | cons y ys => simp [keyLess_nil_left] at h₁
  | cons x xs ih =>
    cases b with
    | nil => simp [keyLess_nil_left] at h₂
    | cons y ys =>
      simp only [keyLess_cons, UInt8.lt_iff_toNat_lt] at h₁ h₂
      by_cases hlt : x.toNat < y.toNat
      · simp [hlt] at h₁
      by_cases hgt : y.toNat < x.toNat
      · simp [hgt] at h₂
      have hxy : x = y := UInt8.toNat_inj.mp (by omega)
      rw [if_neg hlt, if_neg hgt] at h₁
      rw [if_neg hgt, if_neg hlt] at h₂
      rw [hxy, ih ys h₁ h₂]

/-- The order is that of byte strings, with a shorter string before those it begins. -/
theorem keyLess_iff_lt (a b : Bytes) : keyLess a b = true ↔ a < b := by
  induction a generalizing b with
  | nil => cases b <;> simp [keyLess_nil_left]
  | cons x xs ih =>
    cases b with
    | nil => simp [keyLess_nil_right]
    | cons y ys =>
      rw [keyLess_cons, List.cons_lt_cons_iff, ← ih]
      by_cases hlt : x < y
      · simp [hlt]
      by_cases hgt : y < x
      · have hne : x ≠ y := fun h => absurd hgt (by simp [h])
        simp [hlt, hgt, hne]
      · have hxy : x = y := by
          rw [UInt8.lt_iff_toNat_lt] at hlt hgt
          exact UInt8.toNat_inj.mp (by omega)
        simp [hxy]

theorem key_lt_trans {a b c : Bytes} (h₁ : a < b) (h₂ : b < c) : a < c :=
  (keyLess_iff_lt a c).mp
    (keyLess_trans a b c ((keyLess_iff_lt a b).mpr h₁) ((keyLess_iff_lt b c).mpr h₂))

theorem key_ne_of_lt {a b : Bytes} (h : a < b) : a ≠ b := by
  rintro rfl
  have hless := (keyLess_iff_lt a a).mpr h
  rw [keyLess_irrefl] at hless
  cases hless

def keyOrder : Comparator Bytes := ⟨keyLess, keyLess_irrefl, keyLess_trans, keyLess_total⟩

/-- `m_kvs`. -/
abbrev Kvs := NodeMap keyOrder Entry

/-! ## Logged operations -/

/-- What a `WalPutEntry` or a `WalDeleteEntry` holds. -/
inductive Op where
  | put (entry : Entry)
  | delete (key : Bytes)
deriving DecidableEq, Repr

namespace Op

def key : Op → Bytes
  | .put entry => entry.key
  | .delete key => key

/-- What a `Get` of the key gives after the operation. -/
def effect : Op → Option Entry
  | .put entry => some entry
  | .delete _ => none

def write (op : Op) : Write Bytes Entry := (op.key, op.effect)

end Op

def walPut : UInt8 := 2
def walDelete : UInt8 := 3

section
variable (codec : EntryCodec)

/-- `Encode` of `WalPutEntry` and `WalDeleteEntry`: the type byte and the body. -/
def Op.encode : Op → Bytes
  | .put entry => walPut :: codec.serialize entry
  | .delete key => walDelete :: key

/-- `Decode`, after `create_wal_new_entry` has looked at the type byte. The length of the body goes through the
`int32_t` of `AvailableLength`, so a body of `2 ^ 31` bytes or more is outside the model. -/
def walDecode (content : Bytes) : Option Op :=
  match content with
  | [] => none
  | type :: body =>
    if body = [] then none
    else if type = walPut then (codec.parse body).map .put
    else if type = walDelete then some (.delete body)
    else none

/-- What `create_wal_new_entry` and `Decode` make of a type byte. No object is created for a
byte other than the two. -/
def judgeType (type : UInt8) (decoded : Bool) : Judgement :=
  if type = walPut ∨ type = walDelete then if decoded then .accepted else .rejected else .missing

/-- The type byte of an entry without content is the first byte of the position behind it,
and `Decode` refuses an empty buffer. -/
def walJudge : Judge where
  content content :=
    match content with
    | [] => .missing
    | type :: _ => judgeType type (walDecode codec content).isSome
  empty pos := judgeType (UInt8.ofNat (pos / 2 ^ 24)) false
  empty_accepted := nofun

/-- `RawPbEntryEntry::Decode`. -/
def cpDecode (content : Bytes) : Option Entry :=
  if content = [] then none else codec.parse content

def cpJudge : Judge where
  content content := if (cpDecode codec content).isSome then .accepted else .rejected
  empty _ := .rejected
  empty_accepted := nofun

theorem walDecode_encode {op : Op} (h : op.key ≠ []) : walDecode codec (op.encode codec) = some op := by
  cases op with
  | put entry =>
    have hne := codec.serialize_ne_nil entry h
    simp [Op.encode, walDecode, hne, codec.parse_serialize]
  | delete key =>
    have hne : key ≠ [] := h
    simp [Op.encode, walDecode, hne, walPut, walDelete]

theorem walJudge_encode {op : Op} (h : op.key ≠ []) : walJudge codec (op.encode codec) = .accepted := by
  have hd := walDecode_encode codec h
  cases op <;> simp only [Op.encode] at hd ⊢ <;> simp [walJudge, judgeType, hd]

theorem cpDecode_serialize {e : Entry} (h : e.key ≠ []) : cpDecode codec (codec.serialize e) = some e := by
  rw [cpDecode, if_neg (codec.serialize_ne_nil e h), codec.parse_serialize]

theorem cpJudge_serialize {e : Entry} (h : e.key ≠ []) : cpJudge codec (codec.serialize e) = .accepted := by
  simp [cpJudge, cpDecode_serialize codec h]

end

/-! ## The wire format of the two fields -/

def keyTag : UInt8 := 0x0A
def valueTag : UInt8 := 0x12

def serializeEntry (e : Entry) : Bytes := writeField keyTag e.key ++ writeField valueTag e.value

def parseEntry (bs : Bytes) : Option Entry :=
  match readField keyTag bs with
  | none => none
  | some (key, rest) =>
    match readField valueTag rest with
    | some (value, []) => some ⟨key, value⟩
    | _ => none

/-- Both fields present and in order, as the generated code writes them. -/
def wireCodec : EntryCodec where
  serialize := serializeEntry
  parse := parseEntry
  parse_serialize e := by
    have hkey := readField_writeField keyTag e.key (writeField valueTag e.value)
      (head?_writeField (by decide) e.value)
    have hvalue := readField_writeField valueTag e.value [] (by simp)
    rw [List.append_nil] at hvalue
    simp only [parseEntry, serializeEntry, hkey, hvalue]
  serialize_ne_nil e h := by simp [serializeEntry, writeField, h]

end FlyingKV.MiniKv
