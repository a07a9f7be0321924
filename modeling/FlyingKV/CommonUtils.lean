import FlyingKV.DecimalText

set_option autoImplicit false

/-!
# `ByteOrderUtils` and `CommonUtils`

On a little-endian host `ByteOrderUtils` is `LittleEndianCodecUtils`, which puts
the most significant byte first.
-/
namespace FlyingKV.CommonUtils
open ByteOrder DecimalText

abbrev writeUInt32 (n : ℕ) : Bytes := writeBE 4 n
abbrev writeUInt64 (n : ℕ) : Bytes := writeBE 8 n
abbrev readUInt32 (buf : Bytes) : ℕ := fieldBE 4 buf
abbrev readUInt64 (buf : Bytes) : ℕ := fieldBE 8 buf

theorem readUInt32_append {n : ℕ} (h : n < 2 ^ 32) (rest : Bytes) :
    readUInt32 (writeUInt32 n ++ rest) = n :=
  (fieldBE_writeBE_append 4 n rest).trans (Nat.mod_eq_of_lt h)

theorem readUInt64_append {n : ℕ} (h : n < 2 ^ 64) (rest : Bytes) :
    readUInt64 (writeUInt64 n ++ rest) = n :=
  (fieldBE_writeBE_append 8 n rest).trans (Nat.mod_eq_of_lt h)

/-- Decrement of an unsigned 64-bit counter. -/
def pred64 (n : ℕ) : ℕ := (n + 2 ^ 64 - 1) % 2 ^ 64

def ERANGE : ℕ := 34

/-- `ToUint46_t`. It never clears `errno`, so the value `errno` that an earlier call left
in the thread takes part in the test. -/
def toUint46 (errno : ℕ) (s : Bytes) : Option ℕ :=
  let text := s.takeWhile (· ≠ 0)
  let c := strtoul text
  let errno' := if c.clipped then ERANGE else errno
  if (errno' = ERANGE ∧ (c.value = ulongMax ∨ c.value = 0)) ∨ (errno' ≠ 0 ∧ c.value = 0) then none
  else if c.endptr.length = text.length then none
  else if c.endptr = [] then some c.value
  else none

abbrev toString (n : ℕ) : Bytes := decimal n

/-- A positive number below `ULONG_MAX` survives the round trip whatever `errno` holds. -/
theorem toUint46_toString (errno : ℕ) {n : ℕ} (h0 : 0 < n) (h : n < ulongMax) :
    toUint46 errno (toString n) = some n := by
  have hlen : 0 < (decimal n).length := List.length_pos_iff.mpr (decimal_ne_nil n)
  simp only [toUint46, decimal_takeWhile, strtoul_decimal n h.le, Bool.false_eq_true, if_false,
    List.length_nil, if_true]
  rw [if_neg (by omega), if_neg (by omega)]

theorem toUint46_toString_eq {errno n m : ℕ} (h : n < 2 ^ 64) (hm : toUint46 errno (toString n) = some m) :
    m = n := by
  have hle : n ≤ ulongMax := Nat.le_sub_one_of_lt h
  simp only [toUint46, decimal_takeWhile, strtoul_decimal n hle] at hm
  split_ifs at hm <;> exact (Option.some.inj hm).symm

theorem pred64_of_pos {n : ℕ} (h0 : 0 < n) (h : n < 2 ^ 64) : pred64 n = n - 1 := by
  unfold pred64
  omega

end FlyingKV.CommonUtils
