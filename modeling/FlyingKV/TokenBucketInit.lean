import FlyingKV.TokenBucketLimiter

set_option autoImplicit false

/-!
# A limiter as `SimpleRlc::Init` makes it

The default constructor and `Init` leave the time of the last update, the two rates, the carry and
the count as they were in memory. `GiveBack` returns tokens, and the clock may step back.
-/
namespace FlyingKV.Acc
open EventRun

inductive ReqRespType where
  | Put
  | Get
  | Delete
  | Scan
deriving DecidableEq, Repr

structure RwtConfig where
  put : UInt32
  get : UInt32
  delete : UInt32
  scan : UInt32
deriving DecidableEq, Repr

/-- `RWT::GetWeight` behind `RWT::Init`, which enters every type. -/
def RwtConfig.getWeight (conf : RwtConfig) : ReqRespType → UInt32
  | .Put => conf.put
  | .Get => conf.get
  | .Delete => conf.delete
  | .Scan => conf.scan

structure TokenBucketLimiterConfig where
  skip : Bool
  maxSize : ℤ
  speed : ℤ
  rwt : RwtConfig
deriving DecidableEq, Repr

/-- The whole object: the members that `update_and_consume_tokens` works on, and the others that
`Init` sets. -/
structure Limiter where
  bucket : TokenBucketLimiter
  bSkipped : Bool
  rwt : RwtConfig
deriving DecidableEq, Repr

namespace TokenBucketLimiter

/-- `TokenBucketLimiter()` in memory that holds `memory`. -/
def construct (memory : TokenBucketLimiter) : TokenBucketLimiter := { memory with timeUnit := nanosec }

def init (l : TokenBucketLimiter) (conf : TokenBucketLimiterConfig) : Limiter :=
  ⟨{ l with maxResCnt := conf.maxSize, speed := conf.speed }, conf.skip, conf.rwt⟩

end TokenBucketLimiter

inductive LimiterCall where
  | updateAndConsumeTokens (currentTs : ℤ) (weight : ℕ)
  | giveBack (rt : ReqRespType)
deriving DecidableEq, Repr

namespace Limiter

def giveBack (l : Limiter) (rt : ReqRespType) : Option Limiter :=
  if l.bSkipped then some l
  else
    let weight := l.rwt.getWeight rt
    if weight = 0 then some l
    else (l.bucket.putTokens weight.toNat).map fun bucket => { l with bucket := bucket }

/-- One call, with the result of `update_and_consume_tokens`. -/
def step (l : Limiter) : LimiterCall → Option (Limiter × Bool)
  | .updateAndConsumeTokens currentTs weight =>
    (l.bucket.updateAndConsumeTokens ⟨currentTs, weight⟩).map fun o => ({ l with bucket := o.1 }, o.2)
  | .giveBack rt => (l.giveBack rt).map fun u => (u, true)

end Limiter

namespace TokenBucketLimiter

structure WellFormed (l : TokenBucketLimiter) : Prop where
  count_nonneg : 0 ≤ l.currentResCount
  count_le : l.currentResCount ≤ l.maxResCnt
  carry_nonneg : 0 ≤ l.timeAccumulated
  carry_lt : l.timeAccumulated < l.timeUnit

/-- The time since the last update takes neither the carry nor the tokens below zero, at the rates
that are stored; or it does not count. -/
def Sustains (l : TokenBucketLimiter) (currentTs : ℤ) : Prop :=
  currentTs = l.lastUpdateTs ∨ l.maxResCnt ≤ l.currentResCount ∨
    (0 ≤ l.timeAccumulated + l.timeRemainder * (currentTs - l.lastUpdateTs) ∧
      0 ≤ (l.currentResCount + l.tokenPerTimeUnit * (currentTs - l.lastUpdateTs)) * l.timeUnit +
        (l.timeAccumulated + l.timeRemainder * (currentTs - l.lastUpdateTs)))

instance (l : TokenBucketLimiter) (currentTs : ℤ) : Decidable (l.Sustains currentTs) :=
  inferInstanceAs (Decidable (_ ∨ _))

/-! ## Which operations have a result -/

section
variable {l : TokenBucketLimiter}

theorem exists_putTokens_iff {tokens : ℤ} : (∃ u, l.putTokens tokens = some u) ↔ Range (l.currentResCount + tokens) := by
  simp only [putTokens_eq_some_iff, exists_and_left, exists_eq, and_true]

/-- Accrual over `idle` into a bucket that is not full, and putting the tokens in. -/
def Accrues (l : TokenBucketLimiter) (idle : ℤ) : Prop :=
  l.isFull = false → ∃ u tokens v, l.calcTokensToAdd idle = some (u, tokens) ∧ u.putTokens tokens = some v

theorem accrues_iff {l : TokenBucketLimiter} {idle : ℤ} (hunit : 0 < l.timeUnit)
    (hroom : l.currentResCount < l.maxResCnt) :
    l.Accrues idle ↔ Range (l.tokenPerTimeUnit * idle) ∧ Range (l.timeRemainder * idle) ∧
      Range (l.timeAccumulated + l.timeRemainder * idle) ∧ Range (l.accrued idle) ∧
      Range (l.currentResCount + l.accrued idle) := by
  have hfull : l.isFull = false := decide_eq_false (not_le.mpr hroom)
  constructor
  · intro h
    obtain ⟨u, tokens, v, hcalc, hput⟩ := h hfull
    obtain ⟨⟨rfl, rfl⟩, hbase, hgain, hcarry, htotal⟩ := (calcTokensToAdd_eq_some_iff hunit).mp hcalc
    exact ⟨hbase, hgain, hcarry, htotal, (putTokens_eq_some_iff.mp hput).1⟩
  · rintro ⟨hbase, hgain, hcarry, htotal, hsum⟩ -
    exact ⟨_, _, _, (calcTokensToAdd_eq_some_iff hunit).mpr ⟨⟨rfl, rfl⟩, hbase, hgain, hcarry, htotal⟩,
      putTokens_eq_some_iff.mpr ⟨hsum, rfl⟩⟩

end

/-- Every operation of `update_and_consume_tokens` stays in range: the elapsed time; if tokens are added, their
products with the rates and the sums; and otherwise what is left when the weight is taken. -/
structure CallInRange (l : TokenBucketLimiter) (currentTs : ℤ) (weight : ℕ) : Prop where
  passed : Range (currentTs - l.lastUpdateTs)
  accrual : currentTs ≠ l.lastUpdateTs → l.currentResCount < l.maxResCnt →
    Range (l.tokenPerTimeUnit * (currentTs - l.lastUpdateTs)) ∧
      Range (l.timeRemainder * (currentTs - l.lastUpdateTs)) ∧
      Range (l.timeAccumulated + l.timeRemainder * (currentTs - l.lastUpdateTs)) ∧
      Range (l.accrued (currentTs - l.lastUpdateTs)) ∧
      Range (l.currentResCount + l.accrued (currentTs - l.lastUpdateTs))
  taken : currentTs = l.lastUpdateTs ∨ l.maxResCnt ≤ l.currentResCount → weight ≤ l.currentResCount →
    Range (l.currentResCount - weight)

/-! ## One call -/

section
variable {l u : TokenBucketLimiter}
variable {tokens currentTs : ℤ} {weight : ℕ}

theorem WellFormed.unit_pos (h : l.WellFormed) : 0 < l.timeUnit := h.carry_nonneg.trans_lt h.carry_lt

theorem WellFormed.max_nonneg (h : l.WellFormed) : 0 ≤ l.maxResCnt := h.count_nonneg.trans h.count_le

theorem nonneg_add_ediv_iff {x carry unit : ℤ} (hunit : 0 < unit) :
    0 ≤ x + carry / unit ↔ 0 ≤ x * unit + carry := by
  have hiff := Int.le_ediv_iff_mul_le (a := -x) (b := carry) hunit
  constructor
  · intro h
    have := hiff.mp (by linarith)
    linarith
  · intro h
    have := hiff.mpr (by linarith)
    linarith

/-- Accrual for any elapsed time, also a negative one. -/
theorem accrue_wellFormed_iff {v w : TokenBucketLimiter} {passed : ℤ} (hl : l.WellFormed)
    (hcalc : l.calcTokensToAdd passed = some (v, tokens)) (hput : v.putTokens tokens = some w) :
    w.currentResCount ≤ w.maxResCnt ∧ (w.WellFormed ↔ 0 ≤ l.timeAccumulated + l.timeRemainder * passed ∧
      0 ≤ (l.currentResCount + l.tokenPerTimeUnit * passed) * l.timeUnit +
        (l.timeAccumulated + l.timeRemainder * passed)) := by
  obtain ⟨⟨rfl, rfl⟩, -⟩ := (calcTokensToAdd_eq_some_iff hl.unit_pos).mp hcalc
  obtain ⟨-, rfl⟩ := putTokens_eq_some_iff.mp hput
  refine ⟨min_le_left _ _, ?_⟩
  by_cases hcarry : 0 ≤ l.timeAccumulated + l.timeRemainder * passed
  · have hleft : l.carried passed = (l.timeAccumulated + l.timeRemainder * passed) % l.timeUnit := if_pos hcarry
    have hcount : 0 ≤ min l.maxResCnt (l.currentResCount + l.accrued passed) ↔
        0 ≤ (l.currentResCount + l.tokenPerTimeUnit * passed) * l.timeUnit +
          (l.timeAccumulated + l.timeRemainder * passed) := by
      rw [le_min_iff, and_iff_right hl.max_nonneg, accrued, max_eq_right hcarry, ← add_assoc,
        nonneg_add_ediv_iff hl.unit_pos]
    constructor
    · intro h
      exact ⟨hcarry, hcount.mp h.count_nonneg⟩
    · rintro ⟨-, hlevel⟩
      refine ⟨hcount.mpr hlevel, min_le_left _ _, ?_, ?_⟩
      · exact hleft ▸ Int.emod_nonneg _ hl.unit_pos.ne'
      · exact hleft ▸ Int.emod_lt_of_pos _ hl.unit_pos
  · have hleft : l.carried passed = l.timeAccumulated + l.timeRemainder * passed := if_neg hcarry
    exact iff_of_false (fun h => hcarry (hleft ▸ h.carry_nonneg)) fun h => hcarry h.1

theorem update_wellFormed_iff (hl : l.WellFormed) (h : l.update currentTs = some u) :
    u.currentResCount ≤ u.maxResCnt ∧ (u.WellFormed ↔ l.Sustains currentTs) := by
  unfold Sustains
  rcases update_cases h with ⟨heq, rfl⟩ | ⟨hfull, rfl⟩ | ⟨hts, hroom, v, tokens, w, hcalc, hput, rfl⟩
  · exact ⟨hl.count_le, iff_of_true hl (.inl heq)⟩
  · exact ⟨hl.count_le, iff_of_true ⟨hl.1, hl.2, hl.3, hl.4⟩ (.inr (.inl hfull))⟩
  · obtain ⟨hle, hiff⟩ := accrue_wellFormed_iff hl hcalc hput
    rw [or_iff_right hts, or_iff_right (not_le.mpr hroom), ← hiff]
    exact ⟨hle, fun h => ⟨h.1, h.2, h.3, h.4⟩, fun h => ⟨h.1, h.2, h.3, h.4⟩⟩

/-- Taking tokens out keeps a well-formed bucket, and does not mend another one. -/
theorem consume_wellFormed_iff {granted : Bool} (hle : l.currentResCount ≤ l.maxResCnt)
    (h : l.consumeTokens weight = some (u, granted)) : u.WellFormed ↔ l.WellFormed := by
  obtain ⟨hu, hcount, henough⟩ := consumeTokens_spec h
  have hmax : u.maxResCnt = l.maxResCnt := by rw [hu]
  have hacc : u.timeAccumulated = l.timeAccumulated := by rw [hu]
  have hunit : u.timeUnit = l.timeUnit := by rw [hu]
  cases granted with
  | false =>
    simp only [Bool.false_eq_true, if_false, add_zero] at hcount
    rw [hcount] at hu
    rw [hu]
  | true =>
    have hweight := henough rfl
    simp only [if_true] at hcount
    constructor
    · intro hwf
      exact ⟨by omega, hle, hacc ▸ hwf.carry_nonneg, by rw [← hacc, ← hunit]; exact hwf.carry_lt⟩
    · intro hwf
      exact ⟨by omega, by omega, hacc ▸ hwf.carry_nonneg, by rw [hacc, hunit]; exact hwf.carry_lt⟩

theorem updateAndConsume_wellFormed_iff {granted : Bool} (hl : l.WellFormed)
    (h : l.updateAndConsumeTokens ⟨currentTs, weight⟩ = some (u, granted)) :
    u.WellFormed ↔ l.Sustains currentTs := by
  simp only [updateAndConsumeTokens, Option.bind_eq_bind, Option.bind_eq_some_iff] at h
  obtain ⟨v, hv, hconsume⟩ := h
  obtain ⟨hle, hiff⟩ := update_wellFormed_iff hl hv
  rw [consume_wellFormed_iff hle hconsume, hiff]

theorem exists_update_iff :
    (∃ u, l.update currentTs = some u) ↔ Range (currentTs - l.lastUpdateTs) ∧
      (currentTs ≠ l.lastUpdateTs → l.currentResCount < l.maxResCnt → l.Accrues (currentTs - l.lastUpdateTs)) := by
  simp only [update, Option.bind_eq_bind, Option.bind_eq_some_iff, int64_eq_some_iff]
  constructor
  · rintro ⟨u, _, ⟨rfl, hrange⟩, h⟩
    refine ⟨hrange, fun hne hroom _ => ?_⟩
    rw [if_neg (by omega), if_neg (by simpa [isFull] using hroom)] at h
    simp only [Option.bind_eq_some_iff, Prod.exists] at h
    obtain ⟨v, tokens, hcalc, w, hput, -⟩ := h
    exact ⟨v, tokens, w, hcalc, hput⟩
  · rintro ⟨hrange, haccrues⟩
    by_cases hzero : currentTs - l.lastUpdateTs = 0
    · exact ⟨l, _, ⟨rfl, hrange⟩, if_pos hzero⟩
    by_cases hroom : l.currentResCount < l.maxResCnt
    · have hfull : l.isFull = false := decide_eq_false (not_le.mpr hroom)
      obtain ⟨v, tokens, w, hcalc, hput⟩ := haccrues (by omega) hroom hfull
      refine ⟨{ w with lastUpdateTs := currentTs }, _, ⟨rfl, hrange⟩, ?_⟩
      simp only [if_neg hzero, hfull, Bool.false_eq_true, if_false, hcalc, hput, Option.bind_some]
    · have hfull : l.isFull = true := decide_eq_true (not_lt.mp hroom)
      exact ⟨{ l with lastUpdateTs := currentTs }, _, ⟨rfl, hrange⟩, by rw [if_neg hzero, if_pos hfull]⟩

/-- What is in the bucket behind an update: less than `2 ^ 63` tokens if some were added, and otherwise what was
there. -/
theorem count_update (h : l.update currentTs = some u) :
    (currentTs ≠ l.lastUpdateTs ∧ l.currentResCount < l.maxResCnt ∧ u.currentResCount < 2 ^ 63) ∨
      ((currentTs = l.lastUpdateTs ∨ l.maxResCnt ≤ l.currentResCount) ∧ u.currentResCount = l.currentResCount) := by
  rcases update_cases h with ⟨heq, rfl⟩ | ⟨hfull, rfl⟩ | ⟨hts, hroom, v, tokens, w, -, hput, rfl⟩
  · exact .inr ⟨.inl heq, rfl⟩
  · exact .inr ⟨.inr hfull, rfl⟩
  · obtain ⟨hrange, rfl⟩ := putTokens_eq_some_iff.mp hput
    exact .inl ⟨hts, hroom, (min_le_right _ _).trans_lt hrange.2⟩

theorem exists_updateAndConsume_iff (hl : l.WellFormed) :
    (∃ o, l.updateAndConsumeTokens ⟨currentTs, weight⟩ = some o) ↔ l.CallInRange currentTs weight := by
  have hupdate := @exists_update_iff l currentTs
  simp only [updateAndConsumeTokens, Option.bind_eq_bind, Option.bind_eq_some_iff]
  constructor
  · rintro ⟨o, u, hu, hconsume⟩
    obtain ⟨hpassed, haccrues⟩ := hupdate.mp ⟨u, hu⟩
    refine ⟨hpassed, fun hne hroom => (accrues_iff hl.unit_pos hroom).mp (haccrues hne hroom), fun hsame hle => ?_⟩
    have hcount : u.currentResCount = l.currentResCount := by
      rcases count_update hu with ⟨hne, hroom, -⟩ | ⟨-, hcount⟩
      · exact (hsame.elim hne (not_le.mpr hroom)).elim
      · exact hcount
    rw [consumeTokens, if_pos (by rw [hcount]; exact hle), hcount] at hconsume
    simp only [Option.bind_eq_bind, Option.bind_eq_some_iff, int64_eq_some_iff] at hconsume
    obtain ⟨_, ⟨-, hrange⟩, -⟩ := hconsume
    exact hrange
  · rintro ⟨hpassed, haccrual, htaken⟩
    obtain ⟨u, hu⟩ := hupdate.mpr ⟨hpassed, fun hne hroom => (accrues_iff hl.unit_pos hroom).mpr (haccrual hne hroom)⟩
    by_cases hle : (weight : ℤ) ≤ u.currentResCount
    · have hrange : Range (u.currentResCount - weight) := by
        rcases count_update hu with ⟨-, -, hlt⟩ | ⟨hsame, hcount⟩
        · exact ⟨by omega, by omega⟩
        · rw [hcount] at hle ⊢
          exact htaken hsame hle
      exact ⟨_, u, hu, by rw [consumeTokens, if_pos hle, int64_eq_some_iff.mpr ⟨rfl, hrange⟩]; rfl⟩
    · exact ⟨_, u, hu, if_neg hle⟩

theorem putTokens_wellFormed (hl : l.WellFormed) (htokens : 0 ≤ tokens) (h : l.putTokens tokens = some u) :
    u.WellFormed := by
  obtain ⟨-, rfl⟩ := putTokens_eq_some_iff.mp h
  exact ⟨le_min hl.max_nonneg (add_nonneg hl.count_nonneg htokens), min_le_left _ _, hl.carry_nonneg, hl.carry_lt⟩

end

end TokenBucketLimiter

namespace Limiter

/-- The call has a result, and the limiter is well formed behind it. -/
def Sound (l : Limiter) (c : LimiterCall) : Prop := ∃ o, l.step c = some o ∧ o.1.bucket.WellFormed

/-- Every operation of the call is in the range of `int64_t`, and the elapsed time takes nothing below zero. -/
def Spared (l : Limiter) : LimiterCall → Prop
  | .updateAndConsumeTokens currentTs weight => l.bucket.CallInRange currentTs weight ∧ l.bucket.Sustains currentTs
  | .giveBack rt => l.bSkipped = false → l.rwt.getWeight rt ≠ 0 →
    Range (l.bucket.currentResCount + (l.rwt.getWeight rt).toNat)

theorem exists_giveBack_iff {l : Limiter} {rt : ReqRespType} :
    (∃ u, l.giveBack rt = some u) ↔ l.Spared (.giveBack rt) := by
  unfold giveBack Spared
  cases hskipped : l.bSkipped with
  | true => simp
  | false =>
    by_cases hweight : l.rwt.getWeight rt = 0
    · simp [hweight]
    · simp only [Bool.false_eq_true, if_false, Option.map_eq_some_iff, ne_eq, hweight,
        not_false_eq_true, forall_const, ← TokenBucketLimiter.exists_putTokens_iff]
      exact ⟨fun ⟨_, bucket, hput, _⟩ => ⟨bucket, hput⟩, fun ⟨bucket, hput⟩ => ⟨_, bucket, hput, rfl⟩⟩

theorem giveBack_cases {l u : Limiter} {rt : ReqRespType} (h : l.giveBack rt = some u) :
    ((l.bSkipped = true ∨ l.rwt.getWeight rt = 0) ∧ u = l) ∨
      (¬ (l.bSkipped = true ∨ l.rwt.getWeight rt = 0) ∧
        ∃ bucket, l.bucket.putTokens (l.rwt.getWeight rt).toNat = some bucket ∧ u = { l with bucket := bucket }) := by
  unfold giveBack at h
  dsimp only at h
  split_ifs at h with hskipped hweight
  · exact .inl ⟨.inl hskipped, (Option.some.inj h).symm⟩
  · exact .inl ⟨.inr hweight, (Option.some.inj h).symm⟩
  · obtain ⟨bucket, hput, rfl⟩ := Option.map_eq_some_iff.mp h
    exact .inr ⟨not_or.mpr ⟨hskipped, hweight⟩, bucket, hput, rfl⟩

theorem giveBack_wellFormed {l u : Limiter} {rt : ReqRespType} (hl : l.bucket.WellFormed)
    (h : l.giveBack rt = some u) : u.bucket.WellFormed := by
  rcases giveBack_cases h with ⟨-, rfl⟩ | ⟨-, bucket, hput, rfl⟩
  · exact hl
  · exact TokenBucketLimiter.putTokens_wellFormed hl (Int.natCast_nonneg _) hput

theorem sound_iff {l : Limiter} (hl : l.bucket.WellFormed) (c : LimiterCall) : l.Sound c ↔ l.Spared c := by
  cases c with
  | updateAndConsumeTokens currentTs weight =>
    have hrange := @TokenBucketLimiter.exists_updateAndConsume_iff _ currentTs weight hl
    constructor
    · rintro ⟨o, ho, hwf⟩
      obtain ⟨⟨bucket, granted⟩, hcall, rfl⟩ := Option.map_eq_some_iff.mp ho
      exact ⟨hrange.mp ⟨_, hcall⟩, (TokenBucketLimiter.updateAndConsume_wellFormed_iff hl hcall).mp hwf⟩
    · rintro ⟨hcalls, hsustains⟩
      obtain ⟨⟨bucket, granted⟩, hcall⟩ := hrange.mpr hcalls
      exact ⟨_, Option.map_eq_some_iff.mpr ⟨_, hcall, rfl⟩,
        (TokenBucketLimiter.updateAndConsume_wellFormed_iff hl hcall).mpr hsustains⟩
  | giveBack rt =>
    constructor
    · rintro ⟨o, ho, -⟩
      obtain ⟨u, hu, -⟩ := Option.map_eq_some_iff.mp ho
      exact exists_giveBack_iff.mp ⟨u, hu⟩
    · intro hspared
      obtain ⟨u, hu⟩ := exists_giveBack_iff.mpr hspared
      exact ⟨_, Option.map_eq_some_iff.mpr ⟨u, hu, rfl⟩, giveBack_wellFormed hl hu⟩

theorem along_sound_iff_spared {l : Limiter} (hl : l.bucket.WellFormed) (calls : List LimiterCall) :
    Along step Sound l calls ↔ Along step Spared l calls := by
  refine along_congr (L := fun _ _ => True) (I := fun l => l.bucket.WellFormed)
    (fun l c hl _ => sound_iff hl c) ?_ hl (along_of_forall (fun _ _ _ => trivial) l)
  rintro l c o - - ⟨o', ho', hwf⟩ ho
  rwa [Option.some.inj (ho.symm.trans ho')]

end Limiter

/-- The limiter of `SimpleRlc::Init` is well formed all along just when the memory happened to hold
a count within the capacity and a carry below the unit, and every call is spared. -/
theorem limiter_wellFormed_iff (memory : TokenBucketLimiter) (conf : TokenBucketLimiterConfig)
    (calls : List LimiterCall) :
    ((memory.construct.init conf).bucket.WellFormed ∧
        Along Limiter.step Limiter.Sound (memory.construct.init conf) calls) ↔
      (0 ≤ memory.currentResCount ∧ memory.currentResCount ≤ conf.maxSize ∧ 0 ≤ memory.timeAccumulated ∧
        memory.timeAccumulated < nanosec) ∧
      Along Limiter.step Limiter.Spared (memory.construct.init conf) calls := by
  constructor
  · rintro ⟨hwf, hcalls⟩
    exact ⟨⟨hwf.count_nonneg, hwf.count_le, hwf.carry_nonneg, hwf.carry_lt⟩,
      (Limiter.along_sound_iff_spared hwf calls).mp hcalls⟩
  · rintro ⟨⟨hcount, hle, hcarry, hlt⟩, hcalls⟩
    have hwf : (memory.construct.init conf).bucket.WellFormed := ⟨hcount, hle, hcarry, hlt⟩
    exact ⟨hwf, (Limiter.along_sound_iff_spared hwf calls).mpr hcalls⟩

/-- Half a token in each nanosecond, with room for two. -/
def halfRate : TokenBucketLimiterConfig := ⟨false, 2, 500000000, ⟨1, 1, 1, 1⟩⟩

/-- The memory holds a count of 5. Or it holds what `initialize` would have set at time 10, and the
clock steps back to 9. -/
theorem limiter_malformed :
    ¬ ((⟨0, 0, 0, 0, 0, 5, 0, 0⟩ : TokenBucketLimiter).construct.init halfRate).bucket.WellFormed ∧
    (((⟨10, 0, 500000000, 0, 0, 0, 0, 0⟩ : TokenBucketLimiter).construct.init halfRate).step
        (.updateAndConsumeTokens 9 1)).map (fun o => o.1.bucket.timeAccumulated) = some (-500000000) := by
  refine ⟨fun h => absurd h.count_le (by decide), by decide⟩

end FlyingKV.Acc
