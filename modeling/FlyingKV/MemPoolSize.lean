import FlyingKV.FramedStream

set_option autoImplicit false

/-!
# The size of the block `MemPool::Get` hands out

Only the sizes are modelled here: which class a request falls in, and the slot
size its class rounds it up to in 32-bit arithmetic. A system page has 4096 bytes.
-/
namespace FlyingKV.MemPool
open FramedStream

def tinyObjThreshold : ℕ := 16
def bulkObjThreshold : ℕ := 131072
def sysPageSize : ℕ := 4096
def smallObjSlotFootstepExponent : ℕ := 5
def bigObjSlotFootstepExponent : ℕ := 12
def bulkObjSlotFootstepExponent : ℕ := 12

def roundupToTheNextHighestMultipleOfExponent2 (x exponent : ℕ) : ℕ :=
  let lowTrue := (x <<< (32 - exponent)) % 2 ^ 32
  if lowTrue = 0 then x
  else
    let multipleBase := (2 <<< (exponent - 1)) % 2 ^ 32
    let mask := ((0xFFFFFFFF >>> exponent) <<< exponent) % 2 ^ 32
    ((x &&& mask) + multipleBase) % 2 ^ 32

/-- The slot size behind `Get(size)`. A request for no bytes fails the assertion, and
one whose rounded size wraps to zero makes `split_mem_page` divide by it. -/
def slotSize (size : ℕ) : Option ℕ :=
  if size = 0 then none
  else if size ≤ tinyObjThreshold then some tinyObjThreshold
  else if size ≤ bulkObjThreshold then
    if sysPageSize < size then
      some (roundupToTheNextHighestMultipleOfExponent2 size bigObjSlotFootstepExponent)
    else some (roundupToTheNextHighestMultipleOfExponent2 size smallObjSlotFootstepExponent)
  else
    let needPageSize := roundupToTheNextHighestMultipleOfExponent2 size bulkObjSlotFootstepExponent
    if needPageSize = 0 then none else some needPageSize

theorem and_mask (x e : ℕ) (hx : x < 2 ^ 32) :
    x &&& (((0xFFFFFFFF >>> e) <<< e) % 2 ^ 32) = x / 2 ^ e * 2 ^ e := by
  have hf : (0xFFFFFFFF : ℕ) = 2 ^ 32 - 1 := by norm_num
  rw [← Nat.shiftRight_eq_div_pow, ← Nat.shiftLeft_eq, hf]
  apply Nat.eq_of_testBit_eq
  intro i
  simp only [Nat.testBit_and, Nat.testBit_mod_two_pow, Nat.testBit_shiftLeft,
    Nat.testBit_shiftRight, Nat.testBit_two_pow_sub_one]
  by_cases hi : i < 32
  · by_cases hei : e ≤ i
    · have h1 : e + (i - e) = i := by omega
      simp [hi, hei, h1]
    · simp [hei]
  · have hz : x.testBit i = false :=
      Nat.testBit_lt_two_pow (hx.trans_le (Nat.pow_le_pow_right (by norm_num) (by omega)))
    by_cases hei : e ≤ i
    · have h1 : e + (i - e) = i := by omega
      simp [hz, h1]
    · simp [hei, hz]

theorem roundup_eq (x e : ℕ) (hx : x < 2 ^ 32) (h1 : 1 ≤ e) (he : e ≤ 31) :
    roundupToTheNextHighestMultipleOfExponent2 x e =
      if x % 2 ^ e = 0 then x else (x / 2 ^ e * 2 ^ e + 2 ^ e) % 2 ^ 32 := by
  have hpow : (2 : ℕ) ^ 32 = 2 ^ e * 2 ^ (32 - e) := by
    rw [← pow_add]
    congr 1
    omega
  have hlow : (x <<< (32 - e)) % 2 ^ 32 = x % 2 ^ e * 2 ^ (32 - e) := by
    rw [Nat.shiftLeft_eq, hpow, Nat.mul_mod_mul_right]
  have hzero : (x <<< (32 - e)) % 2 ^ 32 = 0 ↔ x % 2 ^ e = 0 := by
    rw [hlow, Nat.mul_eq_zero]
    simp
  have hbase : (2 <<< (e - 1)) % 2 ^ 32 = 2 ^ e := by
    rw [Nat.shiftLeft_eq, ← pow_succ', show e - 1 + 1 = e by omega]
    exact Nat.mod_eq_of_lt (Nat.pow_lt_pow_right (by norm_num) (by omega))
  simp only [roundupToTheNextHighestMultipleOfExponent2, hzero, hbase, and_mask x e hx]

/-- Up to one page below the 32-bit limit a block of at least the size is found. -/
theorem slotSize_of_le {size : ℕ} (h0 : 0 < size) (h : size ≤ 2 ^ 32 - 4096) :
    ∃ cap, slotSize size = some cap ∧ size ≤ cap := by
  have hx : size < 2 ^ 32 := by omega
  have h5 := roundup_eq size 5 hx (by norm_num) (by norm_num)
  have h12 := roundup_eq size 12 hx (by norm_num) (by norm_num)
  norm_num at h5 h12
  unfold slotSize tinyObjThreshold bulkObjThreshold sysPageSize bigObjSlotFootstepExponent
    smallObjSlotFootstepExponent bulkObjSlotFootstepExponent
  simp only [h5, h12]
  split_ifs <;> simp <;> omega

theorem slotSize_of_lt {size : ℕ} (h : 2 ^ 32 - 4096 < size) (hx : size < 2 ^ 32) :
    slotSize size = none := by
  have h12 := roundup_eq size 12 hx (by norm_num) (by norm_num)
  norm_num at h12
  unfold slotSize tinyObjThreshold bulkObjThreshold sysPageSize bigObjSlotFootstepExponent
    smallObjSlotFootstepExponent bulkObjSlotFootstepExponent
  simp only [h12]
  split_ifs <;> first | rfl | omega

theorem slotSize_lt {size cap : ℕ} (hx : size < 2 ^ 32) (h : slotSize size = some cap) :
    cap < 2 ^ 32 := by
  have h5 := roundup_eq size 5 hx (by norm_num) (by norm_num)
  have h12 := roundup_eq size 12 hx (by norm_num) (by norm_num)
  norm_num at h5 h12
  unfold slotSize tinyObjThreshold bulkObjThreshold sysPageSize bigObjSlotFootstepExponent
    smallObjSlotFootstepExponent bulkObjSlotFootstepExponent at h
  simp only [h5, h12] at h
  split_ifs at h <;> simp at h <;> omega

/-- The reader's block is big enough exactly when batch and carried bytes together
stay a page below the 32-bit limit; past it the size wraps or cannot be served. -/
theorem allocFits_iff {batch carried : ℕ} (hb : 0 < batch) :
    allocFits slotSize batch carried = true ↔ batch + carried ≤ 2 ^ 32 - 4096 := by
  unfold allocFits
  by_cases hle : batch + carried ≤ 2 ^ 32 - 4096
  · obtain ⟨cap, hc, hcap⟩ := slotSize_of_le (show 0 < batch + carried by omega) hle
    have hm : (batch + carried) % 2 ^ 32 = batch + carried := Nat.mod_eq_of_lt (by omega)
    simp only [hm, hc, decide_eq_true_eq, hle, iff_true]
    omega
  · simp only [hle, iff_false, Bool.not_eq_true]
    by_cases hlt : batch + carried < 2 ^ 32
    · rw [Nat.mod_eq_of_lt hlt, slotSize_of_lt (by omega) hlt]
    · cases hs : slotSize ((batch + carried) % 2 ^ 32) with
      | none => rfl
      | some cap =>
        have := slotSize_lt (Nat.mod_lt _ (by norm_num)) hs
        simp only [decide_eq_false_iff_not]
        omega

example : slotSize 100 = some 128 := by decide
example : slotSize 0xFFFFFFFF = none := by decide

end FlyingKV.MemPool
