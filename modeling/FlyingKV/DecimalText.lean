import FlyingKV.ByteOrder
import Mathlib.Data.List.TakeWhile

set_option autoImplicit false

/-!
# Decimal text of a natural number, and reading it back as `strtoul` does

Text is a byte string. Only base ten is modelled.
-/
namespace FlyingKV.DecimalText
open ByteOrder

/-- Digits from the most significant one on; the fuel bounds their number. -/
def digitsFrom : ℕ → ℕ → Bytes
  | 0, _ => []
  | fuel + 1, n => (if n < 10 then [] else digitsFrom fuel (n / 10)) ++ [UInt8.ofNat (48 + n % 10)]

def decimal (n : ℕ) : Bytes := digitsFrom (n + 1) n

def isDigit (b : UInt8) : Bool := 48 ≤ b.toNat && b.toNat ≤ 57

def isSpace (b : UInt8) : Bool := b.toNat == 32 || (9 ≤ b.toNat && b.toNat ≤ 13)

def digitsValue (bs : Bytes) : ℕ := bs.foldl (fun n b => n * 10 + (b.toNat - 48)) 0

/-- The value, whether it was clipped (`ERANGE`), and the text from `endptr` on.
Without a digit nothing is converted and `endptr` is the start of the text. -/
structure Conversion where
  value : ℕ
  clipped : Bool
  endptr : Bytes
deriving DecidableEq, Repr

def ulongMax : ℕ := 2 ^ 64 - 1

def unsignedOf (negative : Bool) (n : ℕ) : ℕ × Bool :=
  if ulongMax < n then (ulongMax, true)
  else if negative then ((2 ^ 64 - n) % 2 ^ 64, false)
  else (n, false)

def strtoul (text : Bytes) : Conversion :=
  let body := text.dropWhile isSpace
  let negative := body.head? == some 45
  let rest := if body.head? == some 45 || body.head? == some 43 then body.tail else body
  let digits := rest.takeWhile isDigit
  if digits = [] then ⟨0, false, text⟩
  else
    let v := unsignedOf negative (digitsValue digits)
    ⟨v.1, v.2, rest.dropWhile isDigit⟩

theorem digit_isDigit (d : ℕ) : isDigit (UInt8.ofNat (48 + d % 10)) = true := by
  have h : (UInt8.ofNat (48 + d % 10)).toNat = 48 + d % 10 := by
    rw [UInt8.toNat_ofNat']
    omega
  simp only [isDigit, h, Bool.and_eq_true, decide_eq_true_eq]
  omega

theorem digitsFrom_all (fuel n : ℕ) : ∀ b ∈ digitsFrom fuel n, isDigit b = true := by
  induction fuel generalizing n with
  | zero => simp [digitsFrom]
  | succ fuel ih =>
    intro b hb
    rw [digitsFrom, List.mem_append, List.mem_singleton] at hb
    rcases hb with hb | rfl
    · split_ifs at hb with h10
      · simp at hb
      · exact ih _ b hb
    · exact digit_isDigit n

theorem digitsFrom_ne_nil (fuel n : ℕ) (h : 0 < fuel) : digitsFrom fuel n ≠ [] := by
  cases fuel with
  | zero => omega
  | succ fuel => simp [digitsFrom]

theorem digitsValue_append_singleton (bs : Bytes) (b : UInt8) :
    digitsValue (bs ++ [b]) = digitsValue bs * 10 + (b.toNat - 48) := by
  simp [digitsValue, List.foldl_append]

theorem digitsValue_digitsFrom (fuel n : ℕ) (h : n < fuel) :
    digitsValue (digitsFrom fuel n) = n := by
  induction fuel generalizing n with
  | zero => omega
  | succ fuel ih =>
    have hd : (UInt8.ofNat (48 + n % 10)).toNat - 48 = n % 10 := by
      rw [UInt8.toNat_ofNat']
      omega
    rw [digitsFrom, digitsValue_append_singleton, hd]
    split_ifs with h10
    · simp only [digitsValue, List.foldl_nil]
      omega
    · rw [ih (n / 10) (by omega)]
      omega

theorem decimal_all (n : ℕ) : ∀ b ∈ decimal n, isDigit b = true := digitsFrom_all _ n

theorem decimal_ne_nil (n : ℕ) : decimal n ≠ [] := digitsFrom_ne_nil _ n (by omega)

theorem digit_not_sign {b : UInt8} (h : isDigit b = true) :
    isSpace b = false ∧ b ≠ 45 ∧ b ≠ 43 ∧ b ≠ 0 := by
  simp only [isDigit, Bool.and_eq_true, decide_eq_true_eq] at h
  refine ⟨?_, ?_, ?_, ?_⟩
  · simp only [isSpace, Bool.or_eq_false_iff, Bool.and_eq_false_iff, beq_eq_false_iff_ne,
      decide_eq_false_iff_not]
    omega
  all_goals
    rintro rfl
    simp at h

theorem digitsValue_decimal (n : ℕ) : digitsValue (decimal n) = n := digitsValue_digitsFrom _ n (by omega)

theorem decimal_injective : Function.Injective decimal :=
  Function.LeftInverse.injective digitsValue_decimal

/-- The text has no terminator inside. -/
theorem decimal_takeWhile (n : ℕ) : (decimal n).takeWhile (· ≠ 0) = decimal n := by
  refine List.takeWhile_eq_self_iff.mpr fun b hb => ?_
  simpa using (digit_not_sign (decimal_all n b hb)).2.2.2

theorem strtoul_decimal (n : ℕ) (h : n ≤ ulongMax) : strtoul (decimal n) = ⟨n, false, []⟩ := by
  have hall := decimal_all n
  obtain ⟨b, bs, hb⟩ := List.exists_cons_of_ne_nil (decimal_ne_nil n)
  have hd : isDigit b = true := hall b (by rw [hb]; exact List.mem_cons_self)
  obtain ⟨hs, hm, hp, -⟩ := digit_not_sign hd
  have hbody : (decimal n).dropWhile isSpace = decimal n := by
    rw [hb, List.dropWhile_cons_of_neg (by simp [hs])]
  have hm' : ((decimal n).head? == some 45) = false := by simp [hb, hm]
  have hp' : ((decimal n).head? == some 43) = false := by simp [hb, hp]
  have htake : (decimal n).takeWhile isDigit = decimal n := List.takeWhile_eq_self_iff.mpr hall
  have hdrop : (decimal n).dropWhile isDigit = [] := List.dropWhile_eq_nil_iff.mpr hall
  simp only [strtoul, hbody, hm', hp', Bool.or_self, Bool.false_eq_true, if_false, htake,
    if_neg (decimal_ne_nil n), hdrop, digitsValue_decimal, unsignedOf, if_neg (Nat.not_lt.mpr h)]

end FlyingKV.DecimalText
