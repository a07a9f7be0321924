import FlyingKV.ByteOrder

set_option autoImplicit false

/-!
# Base-128 numbers and length-delimited fields

A number is written seven bits at a time, low bits first, with the top bit set on
every byte but the last. A field is a tag byte, the length of its bytes and the bytes;
an empty field is left out.
-/
namespace FlyingKV.WireFields
open ByteOrder

/-- The fuel bounds the number of bytes. -/
def writeVarintFuel : ℕ → ℕ → Bytes
  | 0, _ => []
  | fuel + 1, n =>
    if n < 128 then [UInt8.ofNat n]
    else UInt8.ofNat (n % 128 + 128) :: writeVarintFuel fuel (n / 128)

def writeVarint (n : ℕ) : Bytes := writeVarintFuel (n + 1) n

def readVarint : Bytes → Option (ℕ × Bytes)
  | [] => none
  | b :: bs =>
    if b.toNat < 128 then some (b.toNat, bs)
    else (readVarint bs).map (fun r => (b.toNat - 128 + 128 * r.1, r.2))

theorem readVarint_writeVarintFuel (fuel n : ℕ) (h : n < fuel) (rest : Bytes) :
    readVarint (writeVarintFuel fuel n ++ rest) = some (n, rest) := by
  induction fuel generalizing n with
  | zero => omega
  | succ fuel ih =>
    rw [writeVarintFuel]
    split_ifs with hn
    · have hb : (UInt8.ofNat n).toNat = n := by simp; omega
      simp [readVarint, hb, hn]
    · have hb : (UInt8.ofNat (n % 128 + 128)).toNat = n % 128 + 128 := by simp; omega
      have hlt : ¬ n % 128 + 128 < 128 := by omega
      simp only [List.cons_append, readVarint, hb, if_neg hlt, ih (n / 128) (by omega), Option.map_some]
      congr 2
      omega

theorem readVarint_writeVarint (n : ℕ) (rest : Bytes) :
    readVarint (writeVarint n ++ rest) = some (n, rest) :=
  readVarint_writeVarintFuel (n + 1) n (Nat.lt_succ_self n) rest

def writeField (tag : UInt8) (bs : Bytes) : Bytes :=
  if bs = [] then [] else tag :: (writeVarint bs.length ++ bs)

/-- The bytes of the field, empty when the input does not start with its tag. -/
def readField (tag : UInt8) (input : Bytes) : Option (Bytes × Bytes) :=
  match input with
  | [] => some ([], [])
  | b :: rest =>
    if b = tag then
      match readVarint rest with
      | none => none
      | some (n, rest) => if rest.length < n then none else some (rest.take n, rest.drop n)
    else some ([], input)

theorem readField_writeField (tag : UInt8) (bs rest : Bytes)
    (h : rest.head? ≠ some tag) : readField tag (writeField tag bs ++ rest) = some (bs, rest) := by
  unfold writeField
  split_ifs with hb
  · subst hb
    cases rest with
    | nil => rfl
    | cons b rest =>
      have hne : b ≠ tag := fun he => h (by simp [he])
      simp [readField, hne]
  · have hlt : ¬ (bs ++ rest).length < bs.length := by simp
    simp only [List.cons_append, readField, if_true, List.append_assoc, readVarint_writeVarint,
      if_neg hlt, List.take_left', List.drop_left']

theorem head?_writeField {tag tag' : UInt8} (h : tag ≠ tag') (bs : Bytes) :
    (writeField tag bs).head? ≠ some tag' := by
  unfold writeField
  split_ifs <;> simp [h]

end FlyingKV.WireFields
