import FlyingKV.TokenBucketInit

set_option autoImplicit false

/-!
# Accrual and waiting times

How the elapsed time is cut into pieces makes no difference to the tokens, and the time that
`cal_wait_time` asks for is enough.
-/
namespace FlyingKV.Acc
open EventRun

namespace TokenBucketLimiter

def calWaitTime (l : TokenBucketLimiter) (tokens : ℤ) : Option ℤ := do
  let ticks ← int64 (tokens * l.timeUnit)
  let t ← quot ticks l.speed
  let left ← rem ticks l.speed
  let t ← (if left = 0 then some t else int64 (t + 1))
  let scale ← quot nanosec l.timeUnit
  int64 (t * scale)

theorem initializeAt_paced {l u : TokenBucketLimiter} {now : ℤ} (hunit : 0 < l.timeUnit) (hspeed : 0 ≤ l.speed)
    (h : l.initializeAt now = some u) : u.Paced ∧ SameConfig l u := by
  obtain rfl := initializeAt_eq hunit.ne' h
  exact ⟨⟨hunit, Int.tdiv_mul_add_tmod _ _, Int.tmod_nonneg _ hspeed, le_rfl, hunit⟩, rfl, rfl, rfl⟩

/-- Whatever the pieces are, only their sum counts. -/
theorem Paced.run_calcTokensToAdd {l v : TokenBucketLimiter} {pieces tokens : List ℤ} (hl : l.Paced)
    (hpieces : ∀ p ∈ pieces, 0 ≤ p) (hrun : run TokenBucketLimiter.calcTokensToAdd l pieces = some (v, tokens)) :
    v.Paced ∧ v.timeUnit = l.timeUnit ∧
      tokens.sum * l.timeUnit + v.timeAccumulated = l.timeAccumulated + l.speed * pieces.sum := by
  induction pieces generalizing l tokens with
  | nil =>
    cases hrun
    exact ⟨hl, rfl, by simp⟩
  | cons p pieces ih =>
    obtain ⟨u, n, rest, hcalc, hrest, rfl⟩ := run_cons.mp hrun
    obtain ⟨hu, hpaced, hsum⟩ := hl.calcTokensToAdd (hpieces p List.mem_cons_self) hcalc
    obtain ⟨hv, hunit, htotal⟩ := ih hpaced (fun q hq => hpieces q (List.mem_cons_of_mem _ hq)) hrest
    have hunit' : u.timeUnit = l.timeUnit := by rw [hu]
    have hspeed' : u.speed = l.speed := by rw [hu]
    rw [hunit', hspeed'] at htotal
    refine ⟨hv, hunit.trans hunit', ?_⟩
    rw [List.sum_cons, List.sum_cons, add_mul, mul_add]
    linarith

/-- In ticks: the speed brings in what the tokens cost within the waiting time. -/
theorem calWaitTime_covers {l : TokenBucketLimiter} {tokens t : ℤ} (hunit : l.timeUnit = nanosec)
    (hspeed : 0 < l.speed) (h : l.calWaitTime tokens = some t) : tokens * l.timeUnit ≤ l.speed * t := by
  have hscale : quot nanosec l.timeUnit = some 1 := by
    rw [hunit]
    decide
  simp only [calWaitTime, quot, rem, if_neg hspeed.ne', Option.bind_eq_bind, Option.bind_eq_some_iff] at h
  obtain ⟨ticks, hticks, q, hq, r, hr, t', ht', scale, hs, h⟩ := h
  obtain rfl := int64_eq_some hticks
  obtain rfl := int64_eq_some hq
  obtain rfl := int64_eq_some hr
  obtain rfl : scale = 1 := Option.some.inj (hs.symm.trans hscale)
  obtain rfl := int64_eq_some h
  rw [mul_one]
  have hdiv := Int.mul_tdiv_add_tmod (tokens * l.timeUnit) l.speed
  have hlt := Int.tmod_lt_of_pos (tokens * l.timeUnit) hspeed
  split_ifs at ht' with hzero
  · obtain rfl := Option.some.inj ht'
    linarith
  · obtain rfl := int64_eq_some ht'
    rw [mul_add]
    linarith

theorem accrual_exact {l₀ l v : TokenBucketLimiter} {now a : ℤ} {pieces tokens : List ℤ}
    (hspeed : 0 ≤ l₀.speed) (hunit : 0 < l₀.timeUnit) (hinit : l₀.initializeAt now = some l)
    (hcarry : 0 ≤ a) (hlt : a < l₀.timeUnit) (hpieces : ∀ p ∈ pieces, 0 ≤ p)
    (hrun : run calcTokensToAdd { l with timeAccumulated := a } pieces = some (v, tokens)) :
    tokens.sum = (a + l₀.speed * pieces.sum) / l₀.timeUnit ∧
      v.timeAccumulated = (a + l₀.speed * pieces.sum) % l₀.timeUnit ∧
      (l₀.timeUnit = nanosec → 0 < l₀.speed →
        ∀ w, l.calWaitTime w = some pieces.sum → w ≤ tokens.sum) := by
  obtain ⟨hl, -, hspeed', hunit'⟩ := initializeAt_paced hunit hspeed hinit
  have hstart : ({ l with timeAccumulated := a } : TokenBucketLimiter).Paced :=
    ⟨hl.unit_pos, hl.rate, hl.rem_nonneg, hcarry, hunit' ▸ hlt⟩
  obtain ⟨hv, hvunit, htotal⟩ := hstart.run_calcTokensToAdd hpieces hrun
  change v.timeUnit = l.timeUnit at hvunit
  change _ * l.timeUnit + _ = a + l.speed * _ at htotal
  rw [hunit', hspeed'] at htotal
  have hleft : v.timeAccumulated < l₀.timeUnit := by
    rw [← hunit', ← hvunit]
    exact hv.carry_lt
  have hsum : v.timeAccumulated + l₀.timeUnit * tokens.sum = a + l₀.speed * pieces.sum := by
    rw [← htotal, mul_comm, add_comm]
  obtain ⟨hdiv, hmod⟩ := (Int.ediv_emod_unique hunit).mpr ⟨hsum, hv.carry_nonneg, hleft⟩
  refine ⟨hdiv.symm, hmod.symm, fun hnano hpos w hw => ?_⟩
  have hcovers := calWaitTime_covers (hunit'.trans hnano) (hspeed' ▸ hpos) hw
  rw [hunit', hspeed'] at hcovers
  rw [← hdiv, Int.le_ediv_iff_mul_le hunit]
  linarith

/-- Three tokens at 0.4 tokens in each nanosecond, from a carry of 0.3 tokens: 8 ns, in four pieces. -/
theorem accrual_exact_four_pieces :
    ∃ l ∈ (⟨0, 0, 0, 0, 5, 0, 400000000, nanosec⟩ : TokenBucketLimiter).initializeAt 10,
    ∃ o ∈ run calcTokensToAdd { l with timeAccumulated := 300000000 } [1, 0, 5, 2],
      l.calWaitTime 3 = some 8 ∧ o.2 = [0, 0, 2, 1] ∧
        o.2.sum = (300000000 + 400000000 * 8) / nanosec ∧
        o.1.timeAccumulated = (300000000 + 400000000 * 8) % nanosec ∧ 3 ≤ o.2.sum := by
  refine ⟨_, rfl, _, rfl, by decide, rfl, ?_⟩
  have h := @accrual_exact ⟨0, 0, 0, 0, 5, 0, 400000000, nanosec⟩ _ _ 10 300000000 [1, 0, 5, 2] _ (by decide)
    (by decide) rfl (by decide) (by decide) (by decide) rfl
  exact ⟨h.1, h.2.1, h.2.2 rfl (by decide) 3 (by decide)⟩

end TokenBucketLimiter

end FlyingKV.Acc
