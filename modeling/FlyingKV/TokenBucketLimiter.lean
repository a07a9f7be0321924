import FlyingKV.EventRun

set_option autoImplicit false

/-!
# `TokenBucketLimiter`

Every `int64_t` operation that would overflow, and every division by zero, has no result.
-/
namespace FlyingKV.Acc
open EventRun

def Range (x : ℤ) : Prop := -2 ^ 63 ≤ x ∧ x < 2 ^ 63

instance (x : ℤ) : Decidable (Range x) := inferInstanceAs (Decidable (_ ∧ _))

def int64 (x : ℤ) : Option ℤ := if -2 ^ 63 ≤ x ∧ x < 2 ^ 63 then some x else none

def quot (x y : ℤ) : Option ℤ := if y = 0 then none else int64 (x.tdiv y)

def rem (x y : ℤ) : Option ℤ := if y = 0 then none else int64 (x.tmod y)

def nanosec : ℤ := 1000000000

structure TokenBucketLimiter where
  lastUpdateTs : ℤ
  tokenPerTimeUnit : ℤ
  timeRemainder : ℤ
  timeAccumulated : ℤ
  maxResCnt : ℤ
  currentResCount : ℤ
  speed : ℤ
  timeUnit : ℤ
deriving DecidableEq, Repr

namespace TokenBucketLimiter

def isFull (l : TokenBucketLimiter) : Bool := l.maxResCnt ≤ l.currentResCount

/-- `initialize()`; `now` is what `now_timestamps()` returns. -/
def initializeAt (l : TokenBucketLimiter) (now : ℤ) : Option TokenBucketLimiter := do
  let tokenPerTimeUnit ← quot l.speed l.timeUnit
  let timeRemainder ← rem l.speed l.timeUnit
  some { l with
    lastUpdateTs := now
    tokenPerTimeUnit := tokenPerTimeUnit
    timeRemainder := timeRemainder
    timeAccumulated := 0
    currentResCount := 0 }

def calcTokensToAdd (l : TokenBucketLimiter) (passedTime : ℤ) : Option (TokenBucketLimiter × ℤ) := do
  let tokensToAdd ← int64 (l.tokenPerTimeUnit * passedTime)
  let accrued ← int64 (l.timeRemainder * passedTime)
  let timeAccumulated ← int64 (l.timeAccumulated + accrued)
  if l.timeUnit ≤ timeAccumulated then
    let whole ← quot timeAccumulated l.timeUnit
    let tokensToAdd ← int64 (tokensToAdd + whole)
    let timeAccumulated ← rem timeAccumulated l.timeUnit
    some ({ l with timeAccumulated := timeAccumulated }, tokensToAdd)
  else some ({ l with timeAccumulated := timeAccumulated }, tokensToAdd)

def putTokens (l : TokenBucketLimiter) (tokens : ℤ) : Option TokenBucketLimiter := do
  let count ← int64 (l.currentResCount + tokens)
  some { l with currentResCount := if l.maxResCnt ≤ count then l.maxResCnt else count }

def update (l : TokenBucketLimiter) (currentTs : ℤ) : Option TokenBucketLimiter := do
  let passedTime ← int64 (currentTs - l.lastUpdateTs)
  if passedTime = 0 then some l
  else if l.isFull then some { l with lastUpdateTs := currentTs }
  else
    let (l, tokens) ← l.calcTokensToAdd passedTime
    let l ← l.putTokens tokens
    some { l with lastUpdateTs := currentTs }

def consumeTokens (l : TokenBucketLimiter) (requiredTokenCnt : ℤ) : Option (TokenBucketLimiter × Bool) :=
  if requiredTokenCnt ≤ l.currentResCount then do
    let count ← int64 (l.currentResCount - requiredTokenCnt)
    some ({ l with currentResCount := count }, true)
  else some (l, false)

end TokenBucketLimiter

structure Call where
  currentTs : ℤ
  requiredTokenCnt : ℤ
deriving DecidableEq, Repr

namespace TokenBucketLimiter

def updateAndConsumeTokens (l : TokenBucketLimiter) (c : Call) : Option (TokenBucketLimiter × Bool) := do
  let l ← l.update c.currentTs
  l.consumeTokens c.requiredTokenCnt

/-! ## One call -/

theorem int64_eq_some_iff {x y : ℤ} : int64 x = some y ↔ y = x ∧ Range x := by
  unfold int64
  split_ifs with h
  · constructor
    · intro heq
      exact ⟨(Option.some.inj heq).symm, h⟩
    · rintro ⟨rfl, -⟩
      rfl
  · exact iff_of_false (by simp) fun hx => h hx.2

theorem int64_eq_some {x y : ℤ} (h : int64 x = some y) : x = y := (int64_eq_some_iff.mp h).1.symm

/-- Between two calls: the derived speeds are those of `speed`, the carry is a fraction of a
token, and the bucket is neither overdrawn nor overfull. -/
structure Ok (l : TokenBucketLimiter) : Prop where
  unit_pos : 0 < l.timeUnit
  speed_nonneg : 0 ≤ l.speed
  rate : l.tokenPerTimeUnit * l.timeUnit + l.timeRemainder = l.speed
  rate_nonneg : 0 ≤ l.tokenPerTimeUnit
  rem_nonneg : 0 ≤ l.timeRemainder
  carry_nonneg : 0 ≤ l.timeAccumulated
  carry_lt : l.timeAccumulated < l.timeUnit
  count_nonneg : 0 ≤ l.currentResCount
  count_le : l.currentResCount ≤ l.maxResCnt

/-- What two states of one limiter share. -/
def SameConfig (l u : TokenBucketLimiter) : Prop :=
  u.maxResCnt = l.maxResCnt ∧ u.speed = l.speed ∧ u.timeUnit = l.timeUnit

/-- Tokens and carry, in parts of a token. -/
def level (l : TokenBucketLimiter) : ℤ := l.currentResCount * l.timeUnit + l.timeAccumulated

section
variable {l u : TokenBucketLimiter} {passedTime tokens currentTs : ℤ} {granted : Bool}

theorem initializeAt_eq {now : ℤ} (hunit : l.timeUnit ≠ 0) (h : l.initializeAt now = some u) :
    u = { l with
      lastUpdateTs := now
      tokenPerTimeUnit := l.speed.tdiv l.timeUnit
      timeRemainder := l.speed.tmod l.timeUnit
      timeAccumulated := 0
      currentResCount := 0 } := by
  simp only [initializeAt, quot, rem, if_neg hunit, Option.bind_eq_bind, Option.bind_eq_some_iff,
    Option.some.injEq] at h
  obtain ⟨q, hq, r, hr, rfl⟩ := h
  rw [int64_eq_some hq, int64_eq_some hr]

theorem initializeAt_ok {now : ℤ} (hunit : 0 < l.timeUnit) (hspeed : 0 ≤ l.speed) (hmax : 0 ≤ l.maxResCnt)
    (h : l.initializeAt now = some u) : u.Ok ∧ SameConfig l u ∧ u.lastUpdateTs = now := by
  obtain rfl := initializeAt_eq hunit.ne' h
  exact ⟨⟨hunit, hspeed, Int.tdiv_mul_add_tmod _ _, Int.tdiv_nonneg hspeed hunit.le, Int.tmod_nonneg _ hspeed, le_rfl,
    hunit, le_rfl, hmax⟩, ⟨rfl, rfl, rfl⟩, rfl⟩

theorem putTokens_eq_some_iff : l.putTokens tokens = some u ↔
    Range (l.currentResCount + tokens) ∧
      u = { l with currentResCount := min l.maxResCnt (l.currentResCount + tokens) } := by
  simp only [putTokens, Option.bind_eq_bind, Option.bind_eq_some_iff, int64_eq_some_iff, Option.some.injEq, and_assoc,
    exists_eq_left]
  exact and_congr_right fun _ => eq_comm

/-- The tokens of an elapsed time at the stored rates. -/
def accrued (l : TokenBucketLimiter) (passedTime : ℤ) : ℤ :=
  l.tokenPerTimeUnit * passedTime + max 0 (l.timeAccumulated + l.timeRemainder * passedTime) / l.timeUnit

/-- The carry behind it: whole tokens have moved to the result, unless it has become negative. -/
def carried (l : TokenBucketLimiter) (passedTime : ℤ) : ℤ :=
  if 0 ≤ l.timeAccumulated + l.timeRemainder * passedTime then
    (l.timeAccumulated + l.timeRemainder * passedTime) % l.timeUnit
  else l.timeAccumulated + l.timeRemainder * passedTime

theorem calcTokensToAdd_eq_some_iff (hunit : 0 < l.timeUnit) : l.calcTokensToAdd passedTime = some (u, tokens) ↔
    (u = { l with timeAccumulated := l.carried passedTime } ∧ tokens = l.accrued passedTime) ∧
      Range (l.tokenPerTimeUnit * passedTime) ∧ Range (l.timeRemainder * passedTime) ∧
      Range (l.timeAccumulated + l.timeRemainder * passedTime) ∧ Range (l.accrued passedTime) := by
  simp only [calcTokensToAdd, accrued, carried, Option.bind_eq_bind, Option.bind_eq_some_iff, int64_eq_some_iff,
    and_assoc, exists_eq_left]
  generalize l.tokenPerTimeUnit * passedTime = base
  generalize l.timeRemainder * passedTime = gain
  generalize l.timeAccumulated + gain = carry
  by_cases hfull : l.timeUnit ≤ carry
  · have hnonneg : 0 ≤ carry := hunit.le.trans hfull
    simp only [if_pos hfull, if_pos hnonneg, max_eq_right hnonneg, quot, rem, if_neg hunit.ne',
      Int.tdiv_eq_ediv_of_nonneg hnonneg, Int.tmod_eq_emod_of_nonneg hnonneg, Option.bind_eq_some_iff,
      int64_eq_some_iff, Option.some.injEq, Prod.mk.injEq, and_assoc, exists_eq_left]
    constructor
    · rintro ⟨hbase, hgain, hcarry, -, htotal, -, rfl, rfl⟩
      exact ⟨rfl, rfl, hbase, hgain, hcarry, htotal⟩
    · rintro ⟨rfl, rfl, hbase, hgain, hcarry, htotal⟩
      have := Int.ediv_nonneg hnonneg hunit.le
      have := Int.ediv_le_self l.timeUnit hnonneg
      have := Int.emod_nonneg carry hunit.ne'
      have := Int.emod_lt_of_pos carry hunit
      have hlt := hcarry.2
      exact ⟨hbase, hgain, hcarry, ⟨by omega, by omega⟩, htotal, ⟨by omega, by omega⟩, rfl, rfl⟩
  · have hlt := not_le.mp hfull
    have hleft : (if 0 ≤ carry then carry % l.timeUnit else carry) = carry := by
      split_ifs with hnonneg
      · exact Int.emod_eq_of_lt hnonneg hlt
      · rfl
    rw [if_neg hfull, hleft, Int.ediv_eq_zero_of_lt (le_max_left _ _) (max_lt hunit hlt), add_zero]
    constructor
    · rintro ⟨hbase, hgain, hcarry, ⟨⟩⟩
      exact ⟨rfl, rfl, hbase, hgain, hcarry, hbase⟩
    · rintro ⟨rfl, rfl, hbase, hgain, hcarry, -⟩
      exact ⟨hbase, hgain, hcarry, rfl⟩

theorem update_cases (h : l.update currentTs = some u) :
    (currentTs = l.lastUpdateTs ∧ u = l) ∨
      (l.maxResCnt ≤ l.currentResCount ∧ u = { l with lastUpdateTs := currentTs }) ∨
      (currentTs ≠ l.lastUpdateTs ∧ l.currentResCount < l.maxResCnt ∧ ∃ v tokens w,
        l.calcTokensToAdd (currentTs - l.lastUpdateTs) = some (v, tokens) ∧ v.putTokens tokens = some w ∧
          u = { w with lastUpdateTs := currentTs }) := by
  simp only [update, Option.bind_eq_bind, Option.bind_eq_some_iff] at h
  obtain ⟨passed, hp, h⟩ := h
  obtain rfl := int64_eq_some hp
  split_ifs at h with hzero hfull
  · exact .inl ⟨by omega, (Option.some.inj h).symm⟩
  · exact .inr (.inl ⟨of_decide_eq_true hfull, (Option.some.inj h).symm⟩)
  · simp only [Option.bind_eq_some_iff, Prod.exists, Option.some.injEq] at h
    obtain ⟨v, tokens, hcalc, w, hput, rfl⟩ := h
    exact .inr (.inr ⟨by omega, not_le.mp fun hle => hfull (decide_eq_true hle), v, tokens, w, hcalc, hput, rfl⟩)

/-- The derived speeds are those of `speed`, and the carry is a fraction of a token. -/
structure Paced (l : TokenBucketLimiter) : Prop where
  unit_pos : 0 < l.timeUnit
  rate : l.tokenPerTimeUnit * l.timeUnit + l.timeRemainder = l.speed
  rem_nonneg : 0 ≤ l.timeRemainder
  carry_nonneg : 0 ≤ l.timeAccumulated
  carry_lt : l.timeAccumulated < l.timeUnit

theorem Ok.paced (h : l.Ok) : l.Paced :=
  ⟨h.unit_pos, h.rate, h.rem_nonneg, h.carry_nonneg, h.carry_lt⟩

/-- Accrual moves whole tokens from the carry to the result and loses nothing. -/
theorem Paced.calcTokensToAdd (hl : l.Paced) (hpassed : 0 ≤ passedTime)
    (h : l.calcTokensToAdd passedTime = some (u, tokens)) :
    u = { l with timeAccumulated := u.timeAccumulated } ∧ u.Paced ∧
      tokens * l.timeUnit + u.timeAccumulated = l.timeAccumulated + l.speed * passedTime := by
  have hcarry : 0 ≤ l.timeAccumulated + l.timeRemainder * passedTime :=
    add_nonneg hl.carry_nonneg (mul_nonneg hl.rem_nonneg hpassed)
  have hrate : l.tokenPerTimeUnit * passedTime * l.timeUnit + l.timeRemainder * passedTime =
      l.speed * passedTime := by
    rw [← hl.rate]
    ring
  obtain ⟨⟨rfl, rfl⟩, -⟩ := (calcTokensToAdd_eq_some_iff hl.unit_pos).mp h
  have hleft : l.carried passedTime = (l.timeAccumulated + l.timeRemainder * passedTime) % l.timeUnit := if_pos hcarry
  have hdiv := Int.ediv_mul_add_emod (l.timeAccumulated + l.timeRemainder * passedTime) l.timeUnit
  dsimp only
  rw [hleft, accrued, max_eq_right hcarry, add_mul]
  exact ⟨rfl, ⟨hl.unit_pos, hl.rate, hl.rem_nonneg, Int.emod_nonneg _ hl.unit_pos.ne', Int.emod_lt_of_pos _ hl.unit_pos⟩,
    by linarith⟩

theorem calcTokensToAdd_spec (hl : l.Ok) (hpassed : 0 ≤ passedTime)
    (h : l.calcTokensToAdd passedTime = some (u, tokens)) :
    u = { l with timeAccumulated := u.timeAccumulated } ∧
      tokens * l.timeUnit + u.timeAccumulated = l.timeAccumulated + l.speed * passedTime ∧
      0 ≤ u.timeAccumulated ∧ u.timeAccumulated < l.timeUnit ∧ 0 ≤ tokens := by
  obtain ⟨hu, hpaced, hsum⟩ := hl.paced.calcTokensToAdd hpassed h
  have hunit : u.timeUnit = l.timeUnit := by rw [hu]
  have hlt := hpaced.carry_lt
  rw [hunit] at hlt
  refine ⟨hu, hsum, hpaced.carry_nonneg, hlt, ?_⟩
  -- less than one token short of a sum that is not negative
  have hcarry := hl.carry_nonneg
  have hgain := mul_nonneg hl.speed_nonneg hpassed
  have hmul : (-1) * l.timeUnit < tokens * l.timeUnit := by linarith
  have := lt_of_mul_lt_mul_right hmul hl.unit_pos.le
  omega

/-- An update adds at most what the speed allows for the time that has passed. -/
theorem update_spec (hl : l.Ok) (hts : l.lastUpdateTs ≤ currentTs) (h : l.update currentTs = some u) :
    u.Ok ∧ SameConfig l u ∧ u.lastUpdateTs = currentTs ∧
      u.level ≤ l.level + l.speed * (currentTs - l.lastUpdateTs) := by
  have hpassed : 0 ≤ currentTs - l.lastUpdateTs := sub_nonneg.mpr hts
  have hgain : 0 ≤ l.speed * (currentTs - l.lastUpdateTs) := mul_nonneg hl.speed_nonneg hpassed
  rcases update_cases h with ⟨heq, rfl⟩ | ⟨-, rfl⟩ | ⟨-, -, v, tokens, w, hcalc, hput, rfl⟩
  · exact ⟨hl, ⟨rfl, rfl, rfl⟩, heq.symm, by linarith⟩
  · exact ⟨⟨hl.1, hl.2, hl.3, hl.4, hl.5, hl.6, hl.7, hl.8, hl.9⟩, ⟨rfl, rfl, rfl⟩, rfl,
      by unfold level; linarith⟩
  · obtain ⟨-, rfl⟩ := putTokens_eq_some_iff.mp hput
    obtain ⟨hv, hsum, hcarry, hlt, htokens⟩ := calcTokensToAdd_spec hl hpassed hcalc
    rw [hv]
    have hcount : 0 ≤ l.currentResCount + tokens := add_nonneg hl.count_nonneg htokens
    have hmax : 0 ≤ l.maxResCnt := hl.count_nonneg.trans hl.count_le
    refine ⟨⟨hl.1, hl.2, hl.3, hl.4, hl.5, hcarry, hlt, le_min hmax hcount, min_le_left _ _⟩, ⟨rfl, rfl, rfl⟩, rfl, ?_⟩
    have := mul_le_mul_of_nonneg_right (min_le_right l.maxResCnt (l.currentResCount + tokens)) hl.unit_pos.le
    unfold level
    dsimp only
    linarith

theorem consumeTokens_spec {requiredTokenCnt : ℤ} (h : l.consumeTokens requiredTokenCnt = some (u, granted)) :
    u = { l with currentResCount := u.currentResCount } ∧
      u.currentResCount + (if granted then requiredTokenCnt else 0) = l.currentResCount ∧
      (granted = true → requiredTokenCnt ≤ l.currentResCount) := by
  unfold consumeTokens at h
  split_ifs at h with hle
  · simp only [Option.bind_eq_bind, Option.bind_eq_some_iff, Option.some.injEq, Prod.mk.injEq] at h
    obtain ⟨count, hcount, rfl, rfl⟩ := h
    obtain rfl := int64_eq_some hcount
    exact ⟨rfl, by simp, fun _ => hle⟩
  · cases h
    exact ⟨rfl, by simp, nofun⟩

/-- The weight a call has been granted. -/
def weight (p : Call × Bool) : ℤ := if p.2 then p.1.requiredTokenCnt else 0

theorem call_spec {c : Call} (hl : l.Ok) (hts : l.lastUpdateTs ≤ c.currentTs) (hw : 0 ≤ c.requiredTokenCnt)
    (h : l.updateAndConsumeTokens c = some (u, granted)) :
    u.Ok ∧ SameConfig l u ∧ u.lastUpdateTs = c.currentTs ∧
      u.currentResCount + weight (c, granted) ≤ l.maxResCnt ∧
      u.level + weight (c, granted) * l.timeUnit ≤ l.level + l.speed * (c.currentTs - l.lastUpdateTs) := by
  simp only [updateAndConsumeTokens, Option.bind_eq_bind, Option.bind_eq_some_iff] at h
  obtain ⟨v, hv, hconsume⟩ := h
  obtain ⟨hok, ⟨hmax, hspeed, hunit⟩, hlast, hlevel⟩ := update_spec hl hts hv
  obtain ⟨hu, hcount, henough⟩ := consumeTokens_spec hconsume
  have hnonneg : 0 ≤ weight (c, granted) := by
    unfold weight
    split_ifs
    · exact hw
    · exact le_rfl
  change u.currentResCount + weight (c, granted) = v.currentResCount at hcount
  have hkept : 0 ≤ u.currentResCount := by
    cases granted with
    | false =>
      rw [← add_zero u.currentResCount, show (0 : ℤ) = weight (c, false) from rfl, hcount]
      exact hok.count_nonneg
    | true =>
      have hle := henough rfl
      change u.currentResCount + c.requiredTokenCnt = v.currentResCount at hcount
      linarith
  have hle := hok.count_le
  have hlevel' : u.level = v.level - weight (c, granted) * l.timeUnit := by
    rw [hu]
    unfold level
    dsimp only
    rw [← hcount, hunit]
    ring
  rw [hu] at *
  exact ⟨⟨hok.1, hok.2, hok.3, hok.4, hok.5, hok.6, hok.7, hkept, by dsimp only; linarith⟩,
    ⟨hmax, hspeed, hunit⟩, hlast, by dsimp only; linarith, by linarith⟩

/-! ## Runs of calls -/

def grantedWeight (trace : List (Call × Bool)) : ℤ := (trace.map weight).sum

theorem grantedWeight_append (tr tr' : List (Call × Bool)) :
    grantedWeight (tr ++ tr') = grantedWeight tr + grantedWeight tr' := by
  simp [grantedWeight]

/-- What the calls from some call on have been granted, and what is left in the bucket, comes
from one full bucket, one carry and the time since that call. -/
def Spent (max speed unit : ℤ) (s : TokenBucketLimiter) (tr : List (Call × Bool)) : Prop :=
  ∀ before c mid, tr = before ++ c :: mid →
    grantedWeight (c :: mid) * unit + s.level <
      (max + 1) * unit + speed * (s.lastUpdateTs - c.1.currentTs)

/-- The bound for every stretch of calls. -/
def Bounded (max speed unit : ℤ) (tr : List (Call × Bool)) : Prop :=
  ∀ before window after, tr = before ++ window ++ after → ∀ h : window ≠ [],
    grantedWeight window ≤
      max + speed * ((window.getLast h).1.currentTs - (window.head h).1.currentTs) / unit + 1

theorem Spent.step {tr : List (Call × Bool)} {c : Call} {max speed unit : ℤ} (h : Spent max speed unit l tr)
    (hu : u.Ok) (hmax : l.maxResCnt = max) (hspeed : l.speed = speed) (hunit : l.timeUnit = unit)
    (hconf : SameConfig l u) (hlast : u.lastUpdateTs = c.currentTs)
    (hcount : u.currentResCount + weight (c, granted) ≤ l.maxResCnt)
    (hlevel : u.level + weight (c, granted) * l.timeUnit ≤
      l.level + l.speed * (c.currentTs - l.lastUpdateTs)) : Spent max speed unit u (tr ++ [(c, granted)]) := by
  subst hmax hspeed hunit
  intro before d mid hsplit
  rcases List.eq_nil_or_concat mid with rfl | ⟨mid, x, rfl⟩
  · -- the window is the new call alone: the bucket held at most its capacity
    obtain ⟨-, hd⟩ := List.append_inj' hsplit rfl
    cases hd
    have hcarry := hu.carry_lt
    rw [hconf.2.2] at hcarry
    have hprod := mul_le_mul_of_nonneg_right hcount (hconf.2.2 ▸ hu.unit_pos.le)
    simp only [grantedWeight, List.map_cons, List.map_nil, List.sum_cons, List.sum_nil, level, hlast,
      hconf.2.2, sub_self, mul_zero, add_zero]
    linarith
  · rw [List.concat_eq_append, ← List.cons_append, ← List.append_assoc] at hsplit
    obtain ⟨htr, hx⟩ := List.append_inj' hsplit rfl
    cases hx
    have hbefore := h before d mid htr
    rw [List.concat_eq_append, ← List.cons_append, grantedWeight_append, hlast]
    have hone : grantedWeight [(c, granted)] = weight (c, granted) := by simp [grantedWeight]
    rw [hone, add_mul]
    linarith

theorem Bounded.step {tr : List (Call × Bool)} {p : Call × Bool} {max speed unit : ℤ} (hunit : 0 < unit)
    (h : Bounded max speed unit tr) (hspent : Spent max speed unit u (tr ++ [p])) (hu : 0 ≤ u.level)
    (hlast : u.lastUpdateTs = p.1.currentTs) : Bounded max speed unit (tr ++ [p]) := by
  intro before window after hsplit hne
  rcases List.eq_nil_or_concat after with rfl | ⟨after, x, rfl⟩
  · rw [List.append_nil] at hsplit
    obtain ⟨c, mid, rfl⟩ := List.exists_cons_of_ne_nil hne
    have hend : (c :: mid).getLast hne = p := by
      have := congrArg List.getLast? hsplit
      rw [List.getLast?_append_of_ne_nil _ hne, List.getLast?_eq_some_getLast hne] at this
      simpa using this.symm
    have hlt := hspent before c mid hsplit
    rw [hend, List.head_cons, ← hlast]
    have hdiv : speed * (u.lastUpdateTs - c.1.currentTs) <
        (speed * (u.lastUpdateTs - c.1.currentTs) / unit + 1) * unit :=
      Int.lt_ediv_add_one_mul_self _ hunit
    have hmul : grantedWeight (c :: mid) * unit <
        (max + speed * (u.lastUpdateTs - c.1.currentTs) / unit + 1 + 1) * unit := by
      linarith
    exact Int.lt_add_one_iff.mp (lt_of_mul_lt_mul_right hmul hunit.le)
  · rw [List.concat_eq_append, ← List.append_assoc] at hsplit
    exact h before window after (List.append_inj' hsplit rfl).1 hne

/-- The call comes at or after the one before it and asks for no negative weight. -/
def InOrder (s : TokenBucketLimiter) (c : Call) : Prop :=
  s.lastUpdateTs ≤ c.currentTs ∧ 0 ≤ c.requiredTokenCnt

theorem lastUpdateTs_update (h : l.update currentTs = some u) : u.lastUpdateTs = currentTs := by
  rcases update_cases h with ⟨heq, rfl⟩ | ⟨-, rfl⟩ | ⟨-, -, v, tokens, w, -, -, rfl⟩
  · exact heq.symm
  · rfl
  · rfl

theorem along_inOrder {calls : List Call} (hts : (l.lastUpdateTs :: calls.map Call.currentTs).Pairwise (· ≤ ·))
    (hweight : ∀ c ∈ calls, 0 ≤ c.requiredTokenCnt) : Along updateAndConsumeTokens InOrder l calls := by
  induction calls generalizing l with
  | nil => trivial
  | cons c calls ih =>
    obtain ⟨hle, hrest⟩ := List.pairwise_cons.mp hts
    refine ⟨⟨hle _ (by simp), hweight c List.mem_cons_self⟩, ?_⟩
    rintro ⟨u, granted⟩ hcall
    simp only [updateAndConsumeTokens, Option.bind_eq_bind, Option.mem_def, Option.bind_eq_some_iff] at hcall
    obtain ⟨v, hv, hconsume⟩ := hcall
    have hlast : u.lastUpdateTs = c.currentTs := by
      rw [(consumeTokens_spec hconsume).1]
      change v.lastUpdateTs = c.currentTs
      exact lastUpdateTs_update hv
    refine ih ?_ fun d hd => hweight d (List.mem_cons_of_mem _ hd)
    rw [hlast]
    exact hrest

/-- The bucket and every stretch of calls, from any sound state on. -/
theorem run_bounded {v : TokenBucketLimiter} {calls : List Call} {granted : List Bool} (hl : l.Ok)
    (hts : (l.lastUpdateTs :: calls.map Call.currentTs).Pairwise (· ≤ ·))
    (hweight : ∀ c ∈ calls, 0 ≤ c.requiredTokenCnt) (hrun : run updateAndConsumeTokens l calls = some (v, granted)) :
    v.Ok ∧ SameConfig l v ∧ Bounded l.maxResCnt l.speed l.timeUnit (calls.zip granted) := by
  have hstart : l.Ok ∧ SameConfig l l ∧ Spent l.maxResCnt l.speed l.timeUnit l [] ∧
      Bounded l.maxResCnt l.speed l.timeUnit [] := by
    refine ⟨hl, ⟨rfl, rfl, rfl⟩, fun before c mid h => ?_, fun before window after h hne => ?_⟩
    · simp at h
    · simp at h
      exact absurd h.2.1 hne
  have hend := run_invariant (I := fun s tr => s.Ok ∧ SameConfig l s ∧
      Spent l.maxResCnt l.speed l.timeUnit s tr ∧ Bounded l.maxResCnt l.speed l.timeUnit tr)
    (P := InOrder) ?_ [] hstart (along_inOrder hts hweight) hrun
  · exact ⟨hend.1, hend.2.1, hend.2.2.2⟩
  · rintro s tr c u g ⟨hs, hconf, hspent, hbounded⟩ ⟨hle, hw⟩ hcall
    obtain ⟨hu, hconf', hlast, hcount, hlevel⟩ := call_spec hs hle hw hcall
    have hspent' := hspent.step hu hconf.1 hconf.2.1 hconf.2.2 hconf' hlast hcount hlevel
    have hnonneg : 0 ≤ u.level :=
      add_nonneg (mul_nonneg hu.count_nonneg hu.unit_pos.le) hu.carry_nonneg
    exact ⟨hu, ⟨hconf'.1.trans hconf.1, hconf'.2.1.trans hconf.2.1, hconf'.2.2.trans hconf.2.2⟩, hspent',
      hbounded.step hl.unit_pos hspent' hnonneg hlast⟩

theorem rate_bound {l₀ l v : TokenBucketLimiter} {now : ℤ} {calls : List Call} {granted : List Bool}
    (hunit : l₀.timeUnit = nanosec) (hmax : 0 ≤ l₀.maxResCnt) (hspeed : 0 ≤ l₀.speed)
    (hinit : l₀.initializeAt now = some l)
    (hts : (now :: calls.map Call.currentTs).Pairwise (· ≤ ·))
    (hweight : ∀ c ∈ calls, 0 ≤ c.requiredTokenCnt)
    (hrun : run updateAndConsumeTokens l calls = some (v, granted)) :
    (0 ≤ v.currentResCount ∧ v.currentResCount ≤ v.maxResCnt ∧ v.maxResCnt = l₀.maxResCnt) ∧
      ∀ before window after, calls.zip granted = before ++ window ++ after → ∀ h : window ≠ [],
        grantedWeight window ≤ l₀.maxResCnt +
          l₀.speed * ((window.getLast h).1.currentTs - (window.head h).1.currentTs) / nanosec + 1 := by
  have hpos : 0 < l₀.timeUnit := by rw [hunit]; decide
  obtain ⟨hl, hconf, hlast⟩ := initializeAt_ok hpos hspeed hmax hinit
  rw [← hlast] at hts
  obtain ⟨hv, hconf', hbounded⟩ := run_bounded hl hts hweight hrun
  rw [hconf.1, hconf.2.1, hconf.2.2, hunit] at hbounded
  exact ⟨⟨hv.count_nonneg, hv.count_le, hconf'.1.trans hconf.1⟩, hbounded⟩

/-- Two tokens, half a token in each nanosecond: the first call finds the bucket full. -/
theorem rate_bound_three_calls :
    ∃ l ∈ (⟨0, 0, 0, 0, 2, 0, 500000000, nanosec⟩ : TokenBucketLimiter).initializeAt 10,
    ∃ o ∈ run updateAndConsumeTokens l [⟨20, 2⟩, ⟨21, 1⟩, ⟨22, 1⟩],
      o.2 = [true, false, true] ∧ (0 ≤ o.1.currentResCount ∧ o.1.currentResCount ≤ o.1.maxResCnt) ∧
        grantedWeight [(⟨20, 2⟩, true), (⟨21, 1⟩, false), (⟨22, 1⟩, true)] ≤
          2 + 500000000 * (22 - 20) / nanosec + 1 := by
  refine ⟨_, rfl, _, rfl, rfl, ?_⟩
  have h := @rate_bound ⟨0, 0, 0, 0, 2, 0, 500000000, nanosec⟩ _ _ 10 [⟨20, 2⟩, ⟨21, 1⟩, ⟨22, 1⟩] _
    rfl (by decide) (by decide) rfl (by decide) (by decide) rfl
  exact ⟨⟨h.1.1, h.1.2.1⟩, h.2 [] _ [] (by rfl) (by simp)⟩

end

end TokenBucketLimiter

end FlyingKV.Acc
