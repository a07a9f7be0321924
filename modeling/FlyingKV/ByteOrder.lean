import Mathlib.Tactic

set_option autoImplicit false

/-!
# Fixed-width big-endian numerals over byte strings

The most significant byte comes first. Writing truncates to the width, as a
cast to `uchar` does, so reading back gives the value modulo `256 ^ w`.
-/
namespace FlyingKV.ByteOrder

abbrev Bytes := List UInt8

def writeBE : ℕ → ℕ → Bytes
  | 0, _ => []
  | w + 1, n => writeBE w (n / 256) ++ [UInt8.ofNat n]

def readBE (bs : Bytes) : ℕ := bs.foldl (fun n b => n * 256 + b.toNat) 0

@[simp] theorem length_writeBE (w n : ℕ) : (writeBE w n).length = w := by
  induction w generalizing n with
  | zero => rfl
  | succ w ih => simp [writeBE, ih]

theorem readBE_append_singleton (bs : Bytes) (b : UInt8) :
    readBE (bs ++ [b]) = readBE bs * 256 + b.toNat := by
  simp [readBE, List.foldl_append]

theorem readBE_writeBE (w n : ℕ) : readBE (writeBE w n) = n % 256 ^ w := by
  induction w generalizing n with
  | zero => simp [writeBE, readBE, Nat.mod_one]
  | succ w ih =>
    rw [writeBE, readBE_append_singleton, ih, pow_succ']
    have hb : (UInt8.ofNat n).toNat = n % 256 := by simp
    rw [hb, Nat.mod_mul]
    omega

/-- Only the value modulo `256 ^ w` reaches the bytes. -/
theorem writeBE_mod (w n : ℕ) : writeBE w (n % 256 ^ w) = writeBE w n := by
  induction w generalizing n with
  | zero => rfl
  | succ w ih =>
    have hlow : UInt8.ofNat (n % 256 ^ (w + 1)) = UInt8.ofNat n := by
      apply UInt8.toNat_inj.mp
      have hdvd : 256 ∣ 256 ^ (w + 1) := dvd_pow_self 256 (Nat.succ_ne_zero w)
      simp only [UInt8.toNat_ofNat']
      exact Nat.mod_mod_of_dvd n hdvd
    have hhigh : n % 256 ^ (w + 1) / 256 = n / 256 % 256 ^ w := by
      rw [pow_succ', Nat.mod_mul_right_div_self]
    rw [writeBE, writeBE, hlow, hhigh, ih]

/-- A field of `w` bytes at the front of a buffer. -/
def fieldBE (w : ℕ) (bs : Bytes) : ℕ := readBE (bs.take w)

@[simp] theorem fieldBE_writeBE_append (w n : ℕ) (rest : Bytes) :
    fieldBE w (writeBE w n ++ rest) = n % 256 ^ w := by
  rw [fieldBE, List.take_left' (length_writeBE w n), readBE_writeBE]

theorem fieldBE_append {w : ℕ} {bs : Bytes} (rest : Bytes) (h : w ≤ bs.length) :
    fieldBE w (bs ++ rest) = fieldBE w bs := by
  rw [fieldBE, fieldBE, List.take_append_of_le_length h]

theorem readBE_lt (bs : Bytes) : readBE bs < 256 ^ bs.length := by
  induction bs using List.reverseRecOn with
  | nil => simp [readBE]
  | append_singleton bs b ih =>
    have hb := b.toNat_lt
    rw [readBE_append_singleton, List.length_append, List.length_singleton, pow_succ]
    omega

theorem fieldBE_lt (w : ℕ) (bs : Bytes) : fieldBE w bs < 256 ^ w := by
  refine (readBE_lt _).trans_le (Nat.pow_le_pow_right (by norm_num) ?_)
  rw [List.length_take]
  omega

theorem writeBE_readBE (bs : Bytes) : writeBE bs.length (readBE bs) = bs := by
  induction bs using List.reverseRecOn with
  | nil => rfl
  | append_singleton bs b ih =>
    have hb := b.toNat_lt
    have hhigh : (readBE bs * 256 + b.toNat) / 256 = readBE bs := by omega
    have hlow : UInt8.ofNat (readBE bs * 256 + b.toNat) = b := by
      apply UInt8.toNat_inj.mp
      rw [UInt8.toNat_ofNat']
      omega
    rw [readBE_append_singleton, List.length_append, List.length_singleton, writeBE, hhigh, hlow, ih]

theorem writeBE_fieldBE {w : ℕ} {bs : Bytes} (h : w ≤ bs.length) : writeBE w (fieldBE w bs) = bs.take w := by
  have hlen : (bs.take w).length = w := by
    rw [List.length_take]
    omega
  have hread := writeBE_readBE (bs.take w)
  rwa [hlen] at hread

end FlyingKV.ByteOrder
