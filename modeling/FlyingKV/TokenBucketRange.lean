import FlyingKV.TokenBucketAccrual

set_option autoImplicit false

/-!
# Where the token arithmetic stays within `int64_t`

The limiter of any configuration that `Parse` admits, behind `initialize` and any calls.
-/
namespace FlyingKV.Acc
open EventRun

/-- `RwtConfig::Parse`: every item is assigned to `Put`. -/
def RwtConfig.parse (memory : RwtConfig) (put get delete scan : Int32) : RwtConfig :=
  let conf := { memory with put := put.toUInt32 }
  let conf := { conf with put := get.toUInt32 }
  let conf := { conf with put := delete.toUInt32 }
  { conf with put := scan.toUInt32 }

/-- `TokenBucketLimiterConfig::Parse`, from the `valueint`s of the items. -/
def TokenBucketLimiterConfig.parse (memory : RwtConfig) (skip ms speed put get delete scan : Int32) :
    TokenBucketLimiterConfig where
  skip := skip = 1
  maxSize := ms.toInt
  speed := speed.toInt
  rwt := memory.parse put get delete scan

namespace TokenBucketLimiter

/-! ## Which operations have a result -/

section
variable {l : TokenBucketLimiter}

theorem div_range {x y : ℤ} (hy : y ≠ 0) (hx : Range x) (hmin : x ≠ -2 ^ 63) :
    Range (x.tdiv y) ∧ Range (x.tmod y) ∧ (x.tmod y ≠ 0 → Range (x.tdiv y + 1)) := by
  have habs : x.natAbs < 2 ^ 63 := by
    unfold Range at hx
    omega
  have hq : (x.tdiv y).natAbs = x.natAbs / y.natAbs := Int.natAbs_tdiv x y
  have hr := Int.natAbs_tmod x y
  have hqle := Nat.div_le_self x.natAbs y.natAbs
  have hrle := Nat.mod_le x.natAbs y.natAbs
  unfold Range
  refine ⟨by omega, by omega, fun hne => ?_⟩
  -- there is a remainder, so the quotient is at most half of the number
  have hone : y.natAbs ≠ 1 := by
    intro hone
    rw [hone, Nat.mod_one] at hr
    exact hne (Int.natAbs_eq_zero.mp hr)
  have htwo : 2 ≤ y.natAbs := by omega
  have hhalf := Nat.div_le_div_left (a := x.natAbs) htwo (by norm_num)
  omega

theorem exists_calWaitTime_iff {tokens : ℤ} (hunit : l.timeUnit = nanosec) :
    (∃ t, l.calWaitTime tokens = some t) ↔ l.speed ≠ 0 ∧ Range (tokens * nanosec) := by
  have hscale : quot nanosec nanosec = some 1 := by decide
  simp only [calWaitTime, hunit, hscale, Option.bind_eq_bind, Option.bind_eq_some_iff, int64_eq_some_iff]
  constructor
  · rintro ⟨t, ticks, ⟨-, hticks⟩, q, hq, -⟩
    refine ⟨fun hzero => ?_, hticks⟩
    rw [quot, if_pos hzero] at hq
    cases hq
  · rintro ⟨hspeed, hticks⟩
    have hmin : tokens * nanosec ≠ -2 ^ 63 := by
      unfold nanosec
      omega
    obtain ⟨hq, hr, hnext⟩ := div_range hspeed hticks hmin
    simp only [quot, rem, if_neg hspeed, int64_eq_some_iff]
    by_cases hzero : (tokens * nanosec).tmod l.speed = 0
    · refine ⟨_, _, ⟨rfl, hticks⟩, _, ⟨rfl, hq⟩, _, ⟨rfl, hr⟩, _, if_pos hzero, 1, rfl, rfl, ?_⟩
      rwa [mul_one]
    · refine ⟨_, _, ⟨rfl, hticks⟩, _, ⟨rfl, hq⟩, _, ⟨rfl, hr⟩, _,
        (if_neg hzero).trans (int64_eq_some_iff.mpr ⟨rfl, hnext hzero⟩), 1, rfl, rfl, ?_⟩
      rw [mul_one]
      exact hnext hzero

end

/-! ## The states behind `initialize` -/

/-- The bucket of a parsed configuration. With a negative speed tokens drain and may be owed; with
another one the count is below zero only where the capacity is. -/
structure Tame (l : TokenBucketLimiter) : Prop where
  unit : l.timeUnit = nanosec
  max_ge : -2 ^ 31 ≤ l.maxResCnt
  max_lt : l.maxResCnt < 2 ^ 31
  rate : l.tokenPerTimeUnit = l.speed.tdiv nanosec
  remainder : l.timeRemainder = l.speed.tmod nanosec
  count_ge : -2 ^ 63 ≤ l.currentResCount
  count_lt : l.currentResCount < 2 ^ 31
  fills : 0 ≤ l.speed → 0 ≤ l.timeAccumulated ∧ l.timeAccumulated < nanosec ∧
    (0 ≤ l.currentResCount ∨ l.maxResCnt ≤ l.currentResCount)
  drains : l.speed < 0 → l.timeAccumulated ≤ 0

namespace Tame
variable {l u v : TokenBucketLimiter}

theorem unit_pos (hl : l.Tame) : 0 < l.timeUnit := by
  rw [hl.unit]
  decide

theorem paced (hl : l.Tame) (hspeed : 0 ≤ l.speed) : l.Paced := by
  obtain ⟨hcarry, hlt, -⟩ := hl.fills hspeed
  refine ⟨hl.unit_pos, ?_, ?_, hcarry, hl.unit ▸ hlt⟩
  · rw [hl.rate, hl.remainder, hl.unit]
    exact Int.tdiv_mul_add_tmod _ _
  · rw [hl.remainder]
    exact Int.tmod_nonneg _ hspeed

theorem rates_nonpos (hl : l.Tame) (hspeed : l.speed < 0) : l.tokenPerTimeUnit ≤ 0 ∧ l.timeRemainder ≤ 0 := by
  have hquot := Int.tdiv_nonneg (neg_nonneg.mpr hspeed.le) (show 0 ≤ nanosec by decide)
  have hrem := Int.tmod_nonneg nanosec (neg_nonneg.mpr hspeed.le)
  rw [Int.neg_tdiv] at hquot
  rw [Int.neg_tmod] at hrem
  rw [hl.rate, hl.remainder]
  exact ⟨neg_nonneg.mp hquot, neg_nonneg.mp hrem⟩

theorem putTokens (hl : l.Tame) {tokens : ℤ} (htokens : 0 ≤ tokens) (h : l.putTokens tokens = some u) : u.Tame := by
  obtain ⟨hrange, rfl⟩ := putTokens_eq_some_iff.mp h
  have hmax := hl.max_ge
  have hmax' := hl.max_lt
  have hcount := hl.count_ge
  refine ⟨hl.unit, hl.max_ge, hl.max_lt, hl.rate, hl.remainder, ?_, ?_, fun hspeed => ?_, hl.drains⟩
  · exact le_min (by omega) hrange.1
  · exact (min_le_left _ _).trans_lt hmax'
  · obtain ⟨hcarry, hlt, hfilled⟩ := hl.fills hspeed
    refine ⟨hcarry, hlt, ?_⟩
    dsimp only
    omega

theorem consumeTokens (hl : l.Tame) {weight : ℕ} {granted : Bool} (h : l.consumeTokens weight = some (u, granted)) :
    u.Tame := by
  obtain ⟨hu, hcount, henough⟩ := consumeTokens_spec h
  have hge := hl.count_ge
  have hlt := hl.count_lt
  have hbounds : -2 ^ 63 ≤ u.currentResCount ∧ u.currentResCount ≤ l.currentResCount ∧
      (u.currentResCount = l.currentResCount ∨ 0 ≤ u.currentResCount) := by
    cases granted with
    | false =>
      simp only [Bool.false_eq_true, if_false] at hcount
      omega
    | true =>
      have := henough rfl
      simp only [if_true] at hcount
      omega
  obtain ⟨hlow, hle, hkept⟩ := hbounds
  rw [hu]
  refine ⟨hl.unit, hl.max_ge, hl.max_lt, hl.rate, hl.remainder, hlow, by dsimp only; omega, fun hspeed => ?_,
    hl.drains⟩
  obtain ⟨hcarry, hfrac, hfilled⟩ := hl.fills hspeed
  refine ⟨hcarry, hfrac, ?_⟩
  rcases hkept with hsame | hpos
  · dsimp only
    rwa [hsame]
  · exact .inl hpos

theorem accrue (hl : l.Tame) {passed tokens : ℤ} (hpassed : 0 ≤ passed) (hroom : l.currentResCount < l.maxResCnt)
    (hcalc : l.calcTokensToAdd passed = some (u, tokens)) (hput : u.putTokens tokens = some v) : v.Tame := by
  obtain ⟨⟨rfl, rfl⟩, -⟩ := (calcTokensToAdd_eq_some_iff hl.unit_pos).mp hcalc
  obtain ⟨hrange, rfl⟩ := putTokens_eq_some_iff.mp hput
  have hmax := hl.max_ge
  have hmax' := hl.max_lt
  refine ⟨hl.unit, hl.max_ge, hl.max_lt, hl.rate, hl.remainder, ?_, ?_, fun hspeed => ?_, fun hspeed => ?_⟩
  · exact le_min (show -2 ^ 63 ≤ l.maxResCnt by omega) hrange.1
  · exact (min_le_left _ _).trans_lt hmax'
  · change 0 ≤ l.speed at hspeed
    obtain ⟨-, -, hfilled⟩ := hl.fills hspeed
    obtain ⟨-, hpaced, hsum⟩ := (hl.paced hspeed).calcTokensToAdd hpassed hcalc
    have hlt : l.carried passed < nanosec := hl.unit ▸ hpaced.carry_lt
    have htokens : 0 ≤ l.accrued passed := by
      have := (hl.paced hspeed).carry_nonneg
      have := mul_nonneg hspeed hpassed
      rw [hl.unit] at hsum
      unfold nanosec at *
      dsimp only at hsum
      omega
    refine ⟨hpaced.carry_nonneg, hlt, ?_⟩
    dsimp only
    omega
  · change l.speed < 0 at hspeed
    have hcarry : l.timeAccumulated + l.timeRemainder * passed ≤ 0 :=
      add_nonpos (hl.drains hspeed) (mul_nonpos_of_nonpos_of_nonneg (hl.rates_nonpos hspeed).2 hpassed)
    change l.carried passed ≤ 0
    unfold carried
    split_ifs with hnonneg
    · rw [le_antisymm hcarry hnonneg, Int.zero_emod]
    · exact hcarry

theorem update (hl : l.Tame) {currentTs : ℤ} (hts : l.lastUpdateTs ≤ currentTs) (h : l.update currentTs = some u) :
    u.Tame := by
  rcases update_cases h with ⟨-, rfl⟩ | ⟨-, rfl⟩ | ⟨-, hroom, v, tokens, w, hcalc, hput, rfl⟩
  · exact hl
  · exact ⟨hl.unit, hl.max_ge, hl.max_lt, hl.rate, hl.remainder, hl.count_ge, hl.count_lt, hl.fills, hl.drains⟩
  · have hw := hl.accrue (by omega) hroom hcalc hput
    exact ⟨hw.unit, hw.max_ge, hw.max_lt, hw.rate, hw.remainder, hw.count_ge, hw.count_lt, hw.fills, hw.drains⟩

end Tame

/-! ## The condition -/

/-- With a positive speed only upper limits can be met, with a negative one only lower limits. -/
def Fits (l : TokenBucketLimiter) (idle : ℤ) : Prop :=
  if 0 ≤ l.speed then
    l.timeAccumulated + l.timeRemainder * idle < 2 ^ 63 ∧
      l.currentResCount + (l.timeAccumulated + l.speed * idle) / nanosec < 2 ^ 63
  else
    -2 ^ 63 ≤ l.timeAccumulated + l.timeRemainder * idle ∧ -2 ^ 63 ≤ l.tokenPerTimeUnit * idle ∧
      -2 ^ 63 ≤ l.currentResCount + l.tokenPerTimeUnit * idle

instance (l : TokenBucketLimiter) (idle : ℤ) : Decidable (l.Fits idle) :=
  inferInstanceAs (Decidable (ite _ _ _))

theorem Tame.accrues_iff_fits {l : TokenBucketLimiter} {idle : ℤ} (hl : l.Tame) (hidle : 0 ≤ idle)
    (hroom : l.currentResCount < l.maxResCnt) : l.Accrues idle ↔ l.Fits idle := by
  rw [accrues_iff hl.unit_pos hroom]
  have hlt := hl.count_lt
  unfold Fits
  split_ifs with hspeed
  · have hpaced := hl.paced hspeed
    obtain ⟨hcarry, -, hfilled⟩ := hl.fills hspeed
    have hcount : 0 ≤ l.currentResCount := hfilled.resolve_right (not_le.mpr hroom)
    have hgain := mul_nonneg hpaced.rem_nonneg hidle
    have hbase : 0 ≤ l.tokenPerTimeUnit * idle := by
      rw [hl.rate]
      exact mul_nonneg (Int.tdiv_nonneg hspeed (by decide)) hidle
    have hmax : max 0 (l.timeAccumulated + l.timeRemainder * idle) =
        l.timeAccumulated + l.timeRemainder * idle := max_eq_right (add_nonneg hcarry hgain)
    have hwhole := Int.ediv_nonneg (add_nonneg hcarry hgain) hl.unit_pos.le
    have htotal : l.accrued idle = (l.timeAccumulated + l.speed * idle) / nanosec := by
      have hsplit : l.timeAccumulated + l.speed * idle =
          l.timeAccumulated + l.timeRemainder * idle + l.tokenPerTimeUnit * idle * l.timeUnit := by
        rw [← hpaced.rate]
        ring
      rw [accrued, hmax, ← hl.unit, hsplit, Int.add_mul_ediv_right _ _ hl.unit_pos.ne', add_comm]
    rw [← htotal]
    unfold accrued at htotal ⊢
    rw [hmax] at *
    unfold Range
    omega
  · have hneg : l.speed < 0 := not_le.mp hspeed
    have hcarry := hl.drains hneg
    obtain ⟨hrate, hrem⟩ := hl.rates_nonpos hneg
    have hbase := mul_nonpos_of_nonpos_of_nonneg hrate hidle
    have hgain := mul_nonpos_of_nonpos_of_nonneg hrem hidle
    have htotal : l.accrued idle = l.tokenPerTimeUnit * idle := by
      rw [accrued, max_eq_left (add_nonpos hcarry hgain), Int.zero_ediv, add_zero]
    rw [htotal]
    unfold Range
    omega

theorem Tame.exists_wait_iff {l : TokenBucketLimiter} (hl : l.Tame) {weight : ℤ} (hpos : 0 ≤ weight) :
    (∃ missing t, int64 (weight - l.currentResCount) = some missing ∧ l.calWaitTime missing = some t) ↔
      l.speed ≠ 0 ∧ (weight - l.currentResCount) * nanosec < 2 ^ 63 := by
  have hlt := hl.count_lt
  constructor
  · rintro ⟨missing, t, hmissing, ht⟩
    obtain ⟨rfl, -⟩ := int64_eq_some_iff.mp hmissing
    obtain ⟨hspeed, hticks⟩ := (exists_calWaitTime_iff hl.unit).mp ⟨t, ht⟩
    exact ⟨hspeed, hticks.2⟩
  · rintro ⟨hspeed, hticks⟩
    have hrange : Range (weight - l.currentResCount) ∧ Range ((weight - l.currentResCount) * nanosec) := by
      unfold Range nanosec at *
      omega
    obtain ⟨t, ht⟩ := (exists_calWaitTime_iff hl.unit).mpr ⟨hspeed, hrange.2⟩
    exact ⟨_, t, int64_eq_some_iff.mpr ⟨rfl, hrange.1⟩, ht⟩

end TokenBucketLimiter

namespace Limiter

/-- A limiter made in memory that holds `memory`, configured and initialised. -/
def initialized (memory : TokenBucketLimiter) (conf : TokenBucketLimiterConfig) (now : ℤ) : Option Limiter :=
  let l := memory.construct.init conf
  (l.bucket.initializeAt now).map fun bucket => { l with bucket := bucket }

theorem tame_initialized {memory : TokenBucketLimiter} {rwt : RwtConfig}
    {skip ms speed put get delete scan : Int32} {now : ℤ} {l : Limiter}
    (h : initialized memory (.parse rwt skip ms speed put get delete scan) now = some l) : l.bucket.Tame := by
  obtain ⟨bucket, hinit, rfl⟩ := Option.map_eq_some_iff.mp h
  have hms := ms.le_toInt
  have hms' := ms.toInt_lt
  obtain rfl := TokenBucketLimiter.initializeAt_eq (show nanosec ≠ 0 by decide) hinit
  exact ⟨rfl, hms, hms', rfl, rfl, show (-2 ^ 63 : ℤ) ≤ 0 by decide, show (0 : ℤ) < 2 ^ 31 by decide,
    fun _ => ⟨le_rfl, show 0 < nanosec by decide, .inl le_rfl⟩, fun _ => le_rfl⟩

/-- No operation overflows and none divides by zero: accrual over `idle`, giving back the weight of
a request, and the waiting time for what is missing to it. -/
def InRange (l : Limiter) (idle : ℤ) (rt : ReqRespType) : Prop :=
  l.bucket.Accrues idle ∧ (∃ u, l.bucket.putTokens (l.rwt.getWeight rt).toNat = some u) ∧
    ∃ missing t, int64 ((l.rwt.getWeight rt).toNat - l.bucket.currentResCount) = some missing ∧
      l.bucket.calWaitTime missing = some t

theorem inRange_iff {l : Limiter} {idle : ℤ} (hl : l.bucket.Tame) (hidle : 0 ≤ idle) (rt : ReqRespType) :
    l.InRange idle rt ↔ l.bucket.speed ≠ 0 ∧
      (l.bucket.currentResCount < l.bucket.maxResCnt → l.bucket.Fits idle) ∧
      (l.bucket.speed < 0 → ((l.rwt.getWeight rt).toNat - l.bucket.currentResCount) * nanosec < 2 ^ 63) := by
  have hweight : ((l.rwt.getWeight rt).toNat : ℤ) < 2 ^ 32 := by
    exact_mod_cast (l.rwt.getWeight rt).toNat_lt
  have hweight' : (0 : ℤ) ≤ (l.rwt.getWeight rt).toNat := Int.natCast_nonneg _
  have hge := hl.count_ge
  have hlt := hl.count_lt
  have hmax := hl.max_ge
  have hfull : l.bucket.Accrues idle ↔
      (l.bucket.currentResCount < l.bucket.maxResCnt → l.bucket.Fits idle) := by
    by_cases hroom : l.bucket.currentResCount < l.bucket.maxResCnt
    · rw [hl.accrues_iff_fits hidle hroom]
      exact ⟨fun h _ => h, fun h => h hroom⟩
    · refine iff_of_true (fun h => ?_) fun h => absurd h hroom
      exact absurd (decide_eq_true (not_lt.mp hroom)) (ne_of_eq_of_ne h (by decide))
  have hback : Range (l.bucket.currentResCount + (l.rwt.getWeight rt).toNat) := by
    unfold Range
    omega
  rw [InRange, hfull, TokenBucketLimiter.exists_putTokens_iff, hl.exists_wait_iff hweight']
  constructor
  · rintro ⟨hfits, -, hspeed, hticks⟩
    exact ⟨hspeed, hfits, fun _ => hticks⟩
  · rintro ⟨hspeed, hfits, hticks⟩
    refine ⟨hfits, hback, hspeed, ?_⟩
    by_cases hneg : l.bucket.speed < 0
    · exact hticks hneg
    · -- the count is at least the least capacity
      obtain ⟨-, -, hfilled⟩ := hl.fills (not_lt.mp hneg)
      unfold nanosec
      omega

/-- No call comes before the last update. -/
def InOrder (l : Limiter) : LimiterCall → Prop
  | .updateAndConsumeTokens currentTs _ => l.bucket.lastUpdateTs ≤ currentTs
  | .giveBack _ => True

instance decidableInOrder (l : Limiter) : ∀ c, Decidable (l.InOrder c)
  | .updateAndConsumeTokens _ _ => inferInstanceAs (Decidable (_ ≤ _))
  | .giveBack _ => isTrue trivial

theorem tame_step {l u : Limiter} {c : LimiterCall} {r : Bool} (hl : l.bucket.Tame) (hc : l.InOrder c)
    (h : l.step c = some (u, r)) : u.bucket.Tame := by
  cases c with
  | updateAndConsumeTokens currentTs weight =>
    obtain ⟨⟨bucket, granted⟩, hcall, heq⟩ := Option.map_eq_some_iff.mp h
    cases heq
    simp only [TokenBucketLimiter.updateAndConsumeTokens, Option.bind_eq_bind, Option.bind_eq_some_iff] at hcall
    obtain ⟨v, hv, hconsume⟩ := hcall
    exact (hl.update hc hv).consumeTokens hconsume
  | giveBack rt =>
    obtain ⟨v, hback, heq⟩ := Option.map_eq_some_iff.mp h
    cases heq
    rcases giveBack_cases hback with ⟨-, rfl⟩ | ⟨-, bucket, hput, rfl⟩
    · exact hl
    · exact hl.putTokens (Int.natCast_nonneg _) hput

theorem tame_run {l v : Limiter} {calls : List LimiterCall} {rs : List Bool} (hl : l.bucket.Tame)
    (hcalls : Along step InOrder l calls) (hrun : run step l calls = some (v, rs)) : v.bucket.Tame :=
  run_invariant (I := fun l _ => l.bucket.Tame) (fun _ _ _ _ _ hl hc h => tame_step hl hc h) [] hl hcalls hrun

end Limiter

theorem arithmetic_inRange_iff {memory : TokenBucketLimiter} {rwt : RwtConfig}
    {skip ms speed put get delete scan : Int32} {now : ℤ} {l₀ l : Limiter} {calls : List LimiterCall} {rs : List Bool}
    (hinit : Limiter.initialized memory (.parse rwt skip ms speed put get delete scan) now = some l₀)
    (hcalls : Along Limiter.step Limiter.InOrder l₀ calls) (hrun : run Limiter.step l₀ calls = some (l, rs))
    {idle : ℤ} (hidle : 0 ≤ idle) (rt : ReqRespType) :
    l.InRange idle rt ↔ l.bucket.speed ≠ 0 ∧
      (l.bucket.currentResCount < l.bucket.maxResCnt → l.bucket.Fits idle) ∧
      (l.bucket.speed < 0 → ((l.rwt.getWeight rt).toNat - l.bucket.currentResCount) * nanosec < 2 ^ 63) :=
  Limiter.inRange_iff (Limiter.tame_run (Limiter.tame_initialized hinit) hcalls hrun) hidle rt

/-- One token in a second and room for two, with all weights 1: after a grant and a token given
back, an idle hour. -/
theorem arithmetic_inRange_hour :
    (⟨⟨1500000000, 0, 1, 500000000, 2, 1, 1, nanosec⟩, false, ⟨1, 1, 1, 1⟩⟩ : Limiter).InRange 3600000000000 .Put :=
  (@arithmetic_inRange_iff ⟨0, 0, 0, 0, 0, 0, 0, 0⟩ ⟨1, 1, 1, 1⟩ 0 2 1 1 1 1 1 0
    ⟨⟨0, 0, 1, 0, 2, 0, 1, nanosec⟩, false, ⟨1, 1, 1, 1⟩⟩ _ [.updateAndConsumeTokens 1500000000 1, .giveBack .Put]
    [true, true] (by decide) (by decide) (by decide) 3600000000000 (by decide) .Put).mpr (by decide)

/-- A speed of 0; and 999999999 tokens in a second with an idle time of 10 seconds. -/
theorem arithmetic_outOfRange :
    (Limiter.initialized ⟨0, 0, 0, 0, 0, 0, 0, 0⟩ (.parse ⟨1, 1, 1, 1⟩ 0 2 0 1 1 1 1) 0).map
        (fun l => l.bucket.calWaitTime 1) = some none ∧
      (Limiter.initialized ⟨0, 0, 0, 0, 0, 0, 0, 0⟩ (.parse ⟨1, 1, 1, 1⟩ 0 2 999999999 1 1 1 1) 0).map
        (fun l => l.bucket.calcTokensToAdd 10000000000) = some none := by
  decide

end FlyingKV.Acc
