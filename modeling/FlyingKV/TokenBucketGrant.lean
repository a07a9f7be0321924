import FlyingKV.TokenBucketRange

set_option autoImplicit false

/-!
# `TokenBucketLimiter::GrantUntil`

One call, on the readings that `now_timestamps()` returns to it one after the other. No other
thread changes the bucket in between.
-/
namespace FlyingKV.Acc

/-- How a call stands behind its readings; it is `aborted` by `LOG(FATAL)`, with the process. -/
inductive Verdict where
  | waits
  | returned (granted : Bool)
  | aborted
deriving DecidableEq, Repr

/-- The bucket behind a call, and the readings at which it has tried to take tokens. -/
structure Outcome where
  bucket : TokenBucketLimiter
  tried : List ℤ
  verdict : Verdict
deriving DecidableEq, Repr

namespace TokenBucketLimiter

/-- The checks at the head of the loop: whether the call sleeps and tries again. -/
def goesOn (l : TokenBucketLimiter) (deadlineTs weight nowTs : ℤ) : Option Bool :=
  if nowTs ≤ deadlineTs then some false
  else do
    let waitTokens ← int64 (weight - l.currentResCount)
    let waitTime ← l.calWaitTime waitTokens
    let wakeTs ← int64 (deadlineTs + waitTime)
    some (decide (wakeTs < nowTs))

/-- An attempt, and what follows if it fails. -/
def attempt (l : TokenBucketLimiter) (weight now : ℤ) (next : TokenBucketLimiter → Option Outcome) : Option Outcome :=
  (l.updateAndConsumeTokens ⟨now, weight⟩).bind fun o =>
    if o.2 then some ⟨o.1, [now], .returned true⟩
    else (next o.1).map fun r => { r with tried := now :: r.tried }

/-- The loop. -/
def retry (deadlineTs weight : ℤ) : TokenBucketLimiter → List ℤ → Option Outcome
  | l, [] => some ⟨l, [], .waits⟩
  | l, [nowTs] =>
    (l.goesOn deadlineTs weight nowTs).map fun on => ⟨l, [], if on then .waits else .returned false⟩
  | l, nowTs :: now :: readings =>
    (l.goesOn deadlineTs weight nowTs).bind fun on =>
      if on then l.attempt weight now fun u => retry deadlineTs weight u readings
      else some ⟨l, [], .returned false⟩

end TokenBucketLimiter

namespace Limiter

def grantUntil (l : Limiter) (deadlineTs : ℤ) (rt : ReqRespType) (readings : List ℤ) : Option Outcome :=
  if l.bSkipped then some ⟨l.bucket, [], .returned true⟩
  else
    match readings with
    | [] => some ⟨l.bucket, [], .waits⟩
    | first :: readings =>
      if first ≤ deadlineTs then some ⟨l.bucket, [], .returned false⟩
      else
        let weight := l.rwt.getWeight rt
        if weight = 0 then some ⟨l.bucket, [], .returned true⟩
        -- the message of this branch is written by `LOGFFUN`
        else if l.bucket.maxResCnt < weight.toNat then some ⟨l.bucket, [], .aborted⟩
        else
          match readings with
          | [] => some ⟨l.bucket, [], .waits⟩
          | now :: readings =>
            l.bucket.attempt weight.toNat now fun u => u.retry deadlineTs weight.toNat readings

end Limiter

namespace TokenBucketLimiter

/-! ## What a call does to the bucket -/

/-- The bucket, updated at one reading after the other. -/
def updateAll (l : TokenBucketLimiter) (ts : List ℤ) : Option TokenBucketLimiter := ts.foldlM update l

/-- At the last of its attempts the call has found the weight in the bucket and taken it. -/
def Takes (l : TokenBucketLimiter) (weight now : ℤ) (o : Outcome) : Prop :=
  o.tried.getLast? = some now ∧ ∃ u, l.updateAll o.tried = some u ∧ weight ≤ u.currentResCount ∧
    o.bucket = { u with currentResCount := u.currentResCount - weight }

/-- The weight has been taken for a grant, and otherwise the bucket has only been updated. -/
structure Charges (l : TokenBucketLimiter) (weight : ℤ) (readings : List ℤ) (o : Outcome) : Prop where
  tried : o.tried.Sublist readings
  granted : o.verdict = .returned true → ∃ now ∈ readings, l.Takes weight now o
  otherwise : o.verdict ≠ .returned true → l.updateAll o.tried = some o.bucket

section
variable {l u b : TokenBucketLimiter} {weight now t deadlineTs : ℤ} {ts readings : List ℤ} {o : Outcome}
  {next : TokenBucketLimiter → Option Outcome}

theorem updateAll_cons (h : l.update now = some u) : l.updateAll (now :: ts) = u.updateAll ts := by
  rw [updateAll, List.foldlM_cons, h]
  rfl

theorem updateAll_cons_eq_some (h : l.updateAll (now :: ts) = some b) :
    ∃ u, l.update now = some u ∧ u.updateAll ts = some b := by
  rw [updateAll, List.foldlM_cons] at h
  exact Option.bind_eq_some_iff.mp h

theorem Charges.after (hu : l.update t = some u) (h : u.Charges weight readings o) :
    l.Charges weight (t :: readings) { o with tried := t :: o.tried } where
  tried := h.tried.cons_cons t
  granted htrue := by
    obtain ⟨now, hnow, hlast, v, hv, hle⟩ := h.granted htrue
    refine ⟨now, List.mem_cons_of_mem _ hnow, ?_, v, (updateAll_cons hu).trans hv, hle⟩
    rw [List.getLast?_cons, hlast]
    rfl
  otherwise hne := (updateAll_cons hu).trans (h.otherwise hne)

theorem Charges.skip (h : l.Charges weight readings o) : l.Charges weight (t :: readings) o where
  tried := h.tried.cons t
  granted htrue := by
    obtain ⟨now, hnow, htakes⟩ := h.granted htrue
    exact ⟨now, List.mem_cons_of_mem _ hnow, htakes⟩
  otherwise := h.otherwise

theorem charges_refused {v : Verdict} (hv : v ≠ .returned true) : l.Charges weight readings ⟨l, [], v⟩ :=
  ⟨List.nil_sublist _, fun h => absurd h hv, fun _ => rfl⟩

theorem attempt_cases (h : l.attempt weight now next = some o) :
    ∃ u, l.update now = some u ∧
      ((weight ≤ u.currentResCount ∧
          o = ⟨{ u with currentResCount := u.currentResCount - weight }, [now], .returned true⟩) ∨
        ∃ r, next u = some r ∧ o = { r with tried := now :: r.tried }) := by
  obtain ⟨⟨v, granted⟩, hcall, h⟩ := Option.bind_eq_some_iff.mp h
  obtain ⟨u, hu, hconsume⟩ := Option.bind_eq_some_iff.mp hcall
  refine ⟨u, hu, ?_⟩
  unfold consumeTokens at hconsume
  split_ifs at hconsume with hle
  · obtain ⟨count, hcount, heq⟩ := Option.bind_eq_some_iff.mp hconsume
    obtain rfl := int64_eq_some hcount
    cases heq
    exact .inl ⟨hle, (Option.some.inj h).symm⟩
  · cases hconsume
    obtain ⟨r, hr, rfl⟩ := Option.map_eq_some_iff.mp h
    exact .inr ⟨r, hr, rfl⟩

theorem attempt_charges (hnext : ∀ u o, next u = some o → o.verdict ≠ .aborted ∧ u.Charges weight readings o)
    (h : l.attempt weight now next = some o) : o.verdict ≠ .aborted ∧ l.Charges weight (now :: readings) o := by
  obtain ⟨u, hu, ⟨hle, rfl⟩ | ⟨r, hr, rfl⟩⟩ := attempt_cases h
  · refine ⟨nofun, (List.nil_sublist readings).cons_cons now, fun _ => ⟨now, List.mem_cons_self, rfl, u, ?_, hle, rfl⟩,
      fun hne => absurd rfl hne⟩
    exact updateAll_cons hu
  · obtain ⟨halive, hcharges⟩ := hnext u r hr
    exact ⟨halive, hcharges.after hu⟩

theorem retry_charges (h : l.retry deadlineTs weight readings = some o) :
    o.verdict ≠ .aborted ∧ l.Charges weight readings o := by
  induction l, readings using retry.induct generalizing o with
  | case1 l =>
    cases h
    exact ⟨nofun, charges_refused nofun⟩
  | case2 l nowTs =>
    obtain ⟨on, -, rfl⟩ := Option.map_eq_some_iff.mp h
    cases on with
    | true => exact ⟨nofun, charges_refused nofun⟩
    | false => exact ⟨nofun, charges_refused nofun⟩
  | case3 l nowTs now readings ih =>
    obtain ⟨on, -, h⟩ := Option.bind_eq_some_iff.mp h
    split_ifs at h
    · exact (attempt_charges (fun u o => ih u) h).imp_right Charges.skip
    · cases h
      exact ⟨nofun, charges_refused nofun⟩

/-! ## When tokens are taken -/

/-- The two members are `int64_t`s. -/
def Held (l : TokenBucketLimiter) : Prop := Range l.currentResCount ∧ Range l.maxResCnt

instance (l : TokenBucketLimiter) : Decidable l.Held := inferInstanceAs (Decidable (_ ∧ _))

def Granted (o : Option Outcome) : Prop := ∃ r, o = some r ∧ r.verdict = .returned true

theorem maxResCnt_calcTokensToAdd {passed tokens : ℤ} (h : l.calcTokensToAdd passed = some (u, tokens)) :
    u.maxResCnt = l.maxResCnt := by
  simp only [calcTokensToAdd, Option.bind_eq_bind, Option.bind_eq_some_iff] at h
  obtain ⟨_, -, _, -, _, -, h⟩ := h
  split_ifs at h
  · simp only [Option.bind_eq_some_iff, Option.some.injEq, Prod.mk.injEq] at h
    obtain ⟨_, -, _, -, _, -, rfl, -⟩ := h
    rfl
  · cases h
    rfl

theorem held_update (hl : l.Held) (h : l.update now = some u) : u.Held := by
  rcases update_cases h with ⟨-, rfl⟩ | ⟨-, rfl⟩ | ⟨-, -, v, tokens, w, hcalc, hput, rfl⟩
  · exact hl
  · exact hl
  · obtain ⟨hrange, rfl⟩ := putTokens_eq_some_iff.mp hput
    have hrange' := hl.2
    rw [← maxResCnt_calcTokensToAdd hcalc] at hrange'
    refine ⟨?_, hrange'⟩
    unfold Range at *
    dsimp only
    omega

theorem granted_attempt_iff (hl : l.Held) (hweight : 0 ≤ weight) :
    Granted (l.attempt weight now next) ↔
      ∃ u, l.update now = some u ∧ (weight ≤ u.currentResCount ∨ Granted (next u)) := by
  constructor
  · rintro ⟨o, ho, htrue⟩
    obtain ⟨u, hu, ⟨hle, -⟩ | ⟨r, hr, rfl⟩⟩ := attempt_cases ho
    · exact ⟨u, hu, .inl hle⟩
    · exact ⟨u, hu, .inr ⟨r, hr, htrue⟩⟩
  · rintro ⟨u, hu, h⟩
    by_cases hle : weight ≤ u.currentResCount
    · have hrange : Range (u.currentResCount - weight) := by
        have := (held_update hl hu).1
        unfold Range at *
        omega
      have hcount := int64_eq_some_iff.mpr ⟨rfl, hrange⟩
      simp [Granted, attempt, updateAndConsumeTokens, consumeTokens, hu, hle, hcount]
    · obtain ⟨r, hr, htrue⟩ := h.resolve_left hle
      simp [Granted, attempt, updateAndConsumeTokens, consumeTokens, hu, hle, hr, htrue]

/-- The readings at which a call tries to take tokens: every second one. -/
def attempts : List ℤ → List ℤ
  | _ :: now :: readings => now :: attempts readings
  | _ => []

/-- If the bucket holds the weight at an attempt, then the call has given up before, at check `i`
or later. -/
def TooLate (deadlineTs weight : ℤ) (l : TokenBucketLimiter) (i : ℕ) (readings : List ℤ) : Prop :=
  ∀ k < (attempts readings).length, ∀ u, l.updateAll ((attempts readings).take (k + 1)) = some u →
    weight ≤ u.currentResCount →
      ∃ j v nowTs, i ≤ j ∧ j ≤ k ∧ l.updateAll ((attempts readings).take j) = some v ∧
        readings[2 * j]? = some nowTs ∧ v.goesOn deadlineTs weight nowTs ≠ some true

theorem tooLate_zero {nowTs : ℤ} : l.TooLate deadlineTs weight 0 (nowTs :: readings) ↔
    (l.goesOn deadlineTs weight nowTs = some true → l.TooLate deadlineTs weight 1 (nowTs :: readings)) := by
  constructor
  · intro h hon k hk u hu hle
    obtain ⟨j, v, t, -, hjk, hv, ht, hoff⟩ := h k hk u hu hle
    refine ⟨j, v, t, Nat.one_le_iff_ne_zero.mpr ?_, hjk, hv, ht, hoff⟩
    rintro rfl
    cases hv
    cases ht
    exact hoff hon
  · intro h k hk u hu hle
    by_cases hon : l.goesOn deadlineTs weight nowTs = some true
    · obtain ⟨j, v, t, -, hrest⟩ := h hon k hk u hu hle
      exact ⟨j, v, t, Nat.zero_le j, hrest⟩
    · exact ⟨0, l, nowTs, le_rfl, Nat.zero_le k, rfl, rfl, hon⟩

theorem tooLate_one {nowTs : ℤ} : l.TooLate deadlineTs weight 1 (nowTs :: now :: readings) ↔
    ∀ u, l.update now = some u → u.currentResCount < weight ∧ u.TooLate deadlineTs weight 0 readings := by
  constructor
  · intro h u hu
    constructor
    · by_contra hle
      obtain ⟨j, -, -, hj, hj', -⟩ := h 0 (Nat.succ_pos _) u (updateAll_cons hu) (not_lt.mp hle)
      omega
    · intro k hk w hw hle
      obtain ⟨j, v, t, hj, hjk, hv, ht, hoff⟩ :=
        h (k + 1) (Nat.succ_lt_succ hk) w ((updateAll_cons hu).trans hw) hle
      obtain ⟨j, rfl⟩ := Nat.exists_eq_add_of_le' hj
      exact ⟨j, v, t, Nat.zero_le j, Nat.le_of_succ_le_succ hjk, (updateAll_cons hu).symm.trans hv, ht, hoff⟩
  · intro h k hk w hw hle
    obtain ⟨u, hu, hw⟩ := updateAll_cons_eq_some hw
    obtain ⟨hshort, hrest⟩ := h u hu
    cases k with
    | zero =>
      cases hw
      exact absurd hle (not_le.mpr hshort)
    | succ k =>
      obtain ⟨j, v, t, -, hjk, hv, ht, hoff⟩ := hrest k (Nat.lt_of_succ_lt_succ hk) w hw hle
      exact ⟨j + 1, v, t, Nat.succ_pos j, Nat.succ_le_succ hjk, (updateAll_cons hu).trans hv, ht, hoff⟩

theorem granted_retry_iff (hl : l.Held) (hweight : 0 ≤ weight) :
    Granted (l.retry deadlineTs weight readings) ↔ ¬ l.TooLate deadlineTs weight 0 readings := by
  induction l, readings using retry.induct with
  | case1 l =>
    refine iff_of_false ?_ (not_not.mpr nofun)
    rintro ⟨o, ⟨⟩, ⟨⟩⟩
  | case2 l nowTs =>
    refine iff_of_false ?_ (not_not.mpr nofun)
    rintro ⟨o, ho, htrue⟩
    obtain ⟨on, -, rfl⟩ := Option.map_eq_some_iff.mp ho
    cases on with
    | true => cases htrue
    | false => cases htrue
  | case3 l nowTs now readings ih =>
    rw [tooLate_zero, tooLate_one, Classical.not_imp]
    by_cases hon : l.goesOn deadlineTs weight nowTs = some true
    · rw [retry, hon, Option.bind_some, if_pos rfl, granted_attempt_iff hl hweight]
      push Not
      simp only [true_and]
      refine exists_congr fun u => and_congr_right fun hu => ?_
      rw [ih u (held_update hl hu), ← not_lt, imp_iff_not_or]
    · refine iff_of_false ?_ fun h => hon h.1
      rintro ⟨o, ho, htrue⟩
      obtain ⟨on, hgo, ho⟩ := Option.bind_eq_some_iff.mp ho
      cases on with
      | true => exact hon hgo
      | false =>
        cases ho
        cases htrue

end

end TokenBucketLimiter
namespace Limiter

/-! ## The deadline -/

/-- The weight of a request. -/
def weight (l : Limiter) (rt : ReqRespType) : ℤ := (l.rwt.getWeight rt).toNat

/-- Tokens are taken for a grant only, once, all of them, and not behind the deadline; a request that
comes before it and finds its weight in the bucket is granted; and every request is answered. -/
structure HonoursDeadline (l : Limiter) (deadlineTs : ℤ) (rt : ReqRespType) (readings : List ℤ) : Prop where
  grants : ∀ o, l.grantUntil deadlineTs rt readings = some o → o.verdict = .returned true →
    ∃ now ∈ readings, now ≤ deadlineTs ∧ l.bucket.Takes (l.weight rt) now o
  prompt : ∀ first rest, readings = first :: rest → first < deadlineTs →
    ∀ u, l.bucket.update first = some u → l.weight rt ≤ u.currentResCount →
      ∃ o, l.grantUntil deadlineTs rt readings = some o ∧ o.verdict = .returned true
  refuses : ∀ o, l.grantUntil deadlineTs rt readings = some o → o.verdict = .returned false →
    l.bucket.updateAll o.tried = some o.bucket
  answers : ∀ o, l.grantUntil deadlineTs rt readings = some o → o.verdict ≠ .aborted

/-- A first reading up to the deadline, and no grant that would be due; or one behind it, room for
the weight, and never the weight in the bucket before the call gives up. -/
def OutOfReach (l : Limiter) (deadlineTs : ℤ) (rt : ReqRespType) (readings : List ℤ) : Prop :=
  ∀ first ∈ readings.head?,
    if first ≤ deadlineTs then
      ¬ (first < deadlineTs ∧ ∃ u, l.bucket.update first = some u ∧ l.weight rt ≤ u.currentResCount)
    else l.weight rt ≤ l.bucket.maxResCnt ∧ l.bucket.TooLate deadlineTs (l.weight rt) 1 readings

section
variable {l : Limiter} {deadlineTs first : ℤ} {rt : ReqRespType} {readings : List ℤ} {o : Outcome}

theorem grantUntil_early (hskip : l.bSkipped = false) (hfirst : first ≤ deadlineTs) :
    l.grantUntil deadlineTs rt (first :: readings) = some ⟨l.bucket, [], .returned false⟩ := by
  simp [grantUntil, hskip, hfirst]

theorem grantUntil_late (hskip : l.bSkipped = false) (hfirst : ¬ first ≤ deadlineTs)
    (hweight : l.rwt.getWeight rt ≠ 0) :
    l.grantUntil deadlineTs rt (first :: readings) =
      if l.bucket.maxResCnt < l.weight rt then some ⟨l.bucket, [], .aborted⟩
      else
        match readings with
        | [] => some ⟨l.bucket, [], .waits⟩
        | now :: rest => l.bucket.attempt (l.weight rt) now fun u => u.retry deadlineTs (l.weight rt) rest := by
  simp only [grantUntil, weight, hskip, hfirst, hweight, Bool.false_eq_true, if_false]
  rfl

/-- What a limiter that is not skipped does to its bucket, and when it ends the process. -/
theorem grantUntil_charges (hskip : l.bSkipped = false) (hweight : l.rwt.getWeight rt ≠ 0)
    (h : l.grantUntil deadlineTs rt readings = some o) :
    l.bucket.Charges (l.weight rt) readings o ∧
      (o.verdict = .aborted →
        ∃ first ∈ readings.head?, deadlineTs < first ∧ l.bucket.maxResCnt < l.weight rt) := by
  cases readings with
  | nil =>
    simp only [grantUntil, hskip, Bool.false_eq_true, if_false] at h
    cases h
    exact ⟨TokenBucketLimiter.charges_refused nofun, nofun⟩
  | cons first readings =>
    by_cases hfirst : first ≤ deadlineTs
    · rw [grantUntil_early hskip hfirst] at h
      cases h
      exact ⟨TokenBucketLimiter.charges_refused nofun, nofun⟩
    · rw [grantUntil_late hskip hfirst hweight] at h
      split_ifs at h with hheavy
      · cases h
        exact ⟨TokenBucketLimiter.charges_refused nofun, fun _ => ⟨first, rfl, not_le.mp hfirst, hheavy⟩⟩
      · cases readings with
        | nil =>
          cases h
          exact ⟨TokenBucketLimiter.charges_refused nofun, nofun⟩
        | cons now rest =>
          obtain ⟨halive, hcharges⟩ :=
            TokenBucketLimiter.attempt_charges (fun u o => TokenBucketLimiter.retry_charges) h
          exact ⟨hcharges.skip, fun habort => absurd habort halive⟩

/-- A call that begins behind the deadline takes tokens if it finds them. -/
theorem granted_late_iff (hskip : l.bSkipped = false) (hl : l.bucket.Held) (hweight : l.rwt.getWeight rt ≠ 0)
    (hfirst : ¬ first ≤ deadlineTs) (hroom : l.weight rt ≤ l.bucket.maxResCnt) :
    TokenBucketLimiter.Granted (l.grantUntil deadlineTs rt (first :: readings)) ↔
      ¬ l.bucket.TooLate deadlineTs (l.weight rt) 1 (first :: readings) := by
  rw [grantUntil_late hskip hfirst hweight, if_neg (not_lt.mpr hroom)]
  cases readings with
  | nil =>
    refine iff_of_false ?_ (not_not.mpr nofun)
    rintro ⟨o, ⟨⟩, ⟨⟩⟩
  | cons now rest =>
    have hnonneg : 0 ≤ l.weight rt := Int.natCast_nonneg _
    rw [TokenBucketLimiter.tooLate_one, TokenBucketLimiter.granted_attempt_iff hl hnonneg]
    push Not
    refine exists_congr fun u => and_congr_right fun hu => ?_
    rw [TokenBucketLimiter.granted_retry_iff (TokenBucketLimiter.held_update hl hu) hnonneg, ← not_lt, imp_iff_not_or]

theorem not_granted (hskip : l.bSkipped = false) (hl : l.bucket.Held) (hweight : l.rwt.getWeight rt ≠ 0)
    (h : l.OutOfReach deadlineTs rt readings) :
    ¬ TokenBucketLimiter.Granted (l.grantUntil deadlineTs rt readings) := by
  rintro ⟨o, ho, htrue⟩
  cases readings with
  | nil =>
    simp only [grantUntil, hskip, Bool.false_eq_true, if_false] at ho
    cases ho
    cases htrue
  | cons first rest =>
    have hreach := h first rfl
    split_ifs at hreach with hfirst
    · rw [grantUntil_early hskip hfirst] at ho
      cases ho
      cases htrue
    · exact (granted_late_iff hskip hl hweight hfirst hreach.1).mp ⟨o, ho, htrue⟩ hreach.2

theorem honoursDeadline_of_outOfReach (hskip : l.bSkipped = false) (hl : l.bucket.Held)
    (hweight : l.rwt.getWeight rt ≠ 0) (h : l.OutOfReach deadlineTs rt readings) :
    l.HonoursDeadline deadlineTs rt readings where
  grants o ho htrue := absurd ⟨o, ho, htrue⟩ (not_granted hskip hl hweight h)
  prompt := by
    rintro first rest rfl hlt u hu hle
    have hreach := h first rfl
    rw [if_pos hlt.le] at hreach
    exact absurd ⟨hlt, u, hu, hle⟩ hreach
  refuses o ho hfalse := (grantUntil_charges hskip hweight ho).1.otherwise (by simp [hfalse])
  answers o ho habort := by
    obtain ⟨first, hhead, hlt, hheavy⟩ := (grantUntil_charges hskip hweight ho).2 habort
    have hreach := h first hhead
    rw [if_neg (not_le.mpr hlt)] at hreach
    exact absurd hreach.1 (not_le.mpr hheavy)

theorem outOfReach_of_honoursDeadline (hskip : l.bSkipped = false) (hl : l.bucket.Held)
    (hweight : l.rwt.getWeight rt ≠ 0) (hreadings : readings.Pairwise (· ≤ ·))
    (h : l.HonoursDeadline deadlineTs rt readings) : l.OutOfReach deadlineTs rt readings := by
  intro first hhead
  obtain ⟨rest, rfl⟩ : ∃ rest, readings = first :: rest := List.head?_eq_some_iff.mp hhead
  split_ifs with hfirst
  · rintro ⟨hlt, u, hu, hle⟩
    obtain ⟨o, ho, htrue⟩ := h.prompt first rest rfl hlt u hu hle
    rw [grantUntil_early hskip hfirst] at ho
    cases ho
    cases htrue
  · have hroom : l.weight rt ≤ l.bucket.maxResCnt := by
      by_contra hheavy
      refine h.answers ⟨l.bucket, [], .aborted⟩ ?_ rfl
      rw [grantUntil_late hskip hfirst hweight, if_pos (not_le.mp hheavy)]
    refine ⟨hroom, ?_⟩
    -- a grant would be one behind the deadline, since no reading lies before the first
    by_contra hreach
    obtain ⟨o, ho, htrue⟩ := (granted_late_iff hskip hl hweight hfirst hroom).mpr hreach
    obtain ⟨now, hnow, hle, -⟩ := h.grants o ho htrue
    rcases List.mem_cons.mp hnow with rfl | hnow
    · exact hfirst hle
    · exact hfirst (((List.pairwise_cons.mp hreadings).1 now hnow).trans hle)

end

/-- When the deadline is honoured; and in any case a limiter that is not skipped takes the weight for
a grant, and nothing otherwise. -/
theorem honoursDeadline_iff {l : Limiter} {deadlineTs : ℤ} {rt : ReqRespType} {readings : List ℤ}
    (hl : l.bucket.Held) (hweight : l.rwt.getWeight rt ≠ 0) (hreadings : readings.Pairwise (· ≤ ·)) :
    (l.HonoursDeadline deadlineTs rt readings ↔ l.bSkipped = false ∧ l.OutOfReach deadlineTs rt readings) ∧
      (l.bSkipped = false → ∀ o, l.grantUntil deadlineTs rt readings = some o →
        l.bucket.Charges (l.weight rt) readings o) := by
  refine ⟨?_, fun hskip o ho => (grantUntil_charges hskip hweight ho).1⟩
  cases hskip : l.bSkipped with
  | true =>
    -- true is returned without a look at the clock or the bucket
    refine iff_of_false (fun h => ?_) fun h => Bool.noConfusion h.1
    obtain ⟨now, -, -, hlast, -⟩ := h.grants ⟨l.bucket, [], .returned true⟩ (by simp [grantUntil, hskip]) rfl
    cases hlast
  | false =>
    rw [eq_self_iff_true, true_and]
    exact ⟨outOfReach_of_honoursDeadline hskip hl hweight hreadings, honoursDeadline_of_outOfReach hskip hl hweight⟩

/-- Three tokens of ten, and a request for four of them. -/
def threeTokens : Limiter := ⟨⟨0, 0, 1, 0, 10, 3, 1, nanosec⟩, false, ⟨4, 4, 4, 4⟩⟩

/-- The request is refused at 10, with the deadline 20 ahead, and at 32, where the missing token would
take a second; the three tokens stay. -/
theorem honoursDeadline_short :
    (threeTokens.HonoursDeadline 20 .Put [10] ∧
        threeTokens.grantUntil 20 .Put [10] = some ⟨threeTokens.bucket, [], .returned false⟩) ∧
      threeTokens.HonoursDeadline 20 .Put [30, 31, 32] ∧
        threeTokens.grantUntil 20 .Put [30, 31, 32] =
          some ⟨⟨31, 0, 1, 31, 10, 3, 1, nanosec⟩, [31], .returned false⟩ := by
  have hfirst : threeTokens.bucket.update 10 = some ⟨10, 0, 1, 10, 10, 3, 1, nanosec⟩ := by decide
  have hlater : threeTokens.bucket.update 31 = some ⟨31, 0, 1, 31, 10, 3, 1, nanosec⟩ := by decide
  refine ⟨⟨(honoursDeadline_iff (by decide) (by decide) (by decide)).1.mpr ⟨rfl, ?_⟩, by decide⟩,
    (honoursDeadline_iff (by decide) (by decide) (by decide)).1.mpr ⟨rfl, ?_⟩, by decide⟩
  · rintro first ⟨⟩
    rw [if_pos (by decide)]
    rintro ⟨-, u, hu, hle⟩
    cases hfirst.symm.trans hu
    exact absurd hle (by decide)
  · rintro first ⟨⟩
    rw [if_neg (by decide)]
    refine ⟨by decide, TokenBucketLimiter.tooLate_one.mpr fun u hu => ?_⟩
    cases hlater.symm.trans hu
    exact ⟨by decide, nofun⟩

/-- One token, one token in a second, weight 1. -/
def oneToken : Limiter := ⟨⟨0, 0, 1, 0, 1, 1, 1, nanosec⟩, false, ⟨1, 1, 1, 1⟩⟩

/-- A full bucket refuses a request at 10 with the deadline 20, and grants it at 30. -/
theorem deadline_reversed :
    (oneToken.grantUntil 20 .Put [10, 11] = some ⟨oneToken.bucket, [], .returned false⟩ ∧
        ¬ oneToken.HonoursDeadline 20 .Put [10, 11]) ∧
      oneToken.grantUntil 20 .Put [30, 31] = some ⟨⟨31, 0, 1, 0, 1, 0, 1, nanosec⟩, [31], .returned true⟩ ∧
        ¬ oneToken.HonoursDeadline 20 .Put [30, 31] := by
  refine ⟨⟨rfl, fun h => ?_⟩, rfl, fun h => ?_⟩
  · obtain ⟨o, ho, htrue⟩ := h.prompt 10 [11] rfl (by decide) ⟨10, 0, 1, 0, 1, 1, 1, nanosec⟩ (by decide) (by decide)
    cases ho
    cases htrue
  · obtain ⟨now, hmem, hle, -⟩ := h.grants _ rfl rfl
    rcases List.mem_pair.mp hmem with rfl | rfl
    · exact absurd hle (by decide)
    · exact absurd hle (by decide)

end Limiter

end FlyingKV.Acc
