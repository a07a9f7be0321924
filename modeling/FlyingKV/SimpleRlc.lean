import FlyingKV.AllOrNothing
import FlyingKV.TokenBucketGrant

set_option autoImplicit false

/-!
# `SimpleRlc`

The limiters of a request, asked in the order of the configuration. How many there are is kept in
a `uint8_t`.
-/
namespace FlyingKV.Acc
open AllOrNothing

inductive LimiterType where
  | REF_COUNTER
  | TOKEN_BUCKET
deriving DecidableEq, Repr

structure LimiterConfig where
  type : LimiterType
  name : String
  tokenBucket : TokenBucketLimiterConfig
deriving DecidableEq, Repr

structure SimpleRlcConfig where
  skip : Bool
  limiters : List LimiterConfig
deriving DecidableEq, Repr

/-- A limiter and its name. -/
structure Granter where
  name : String
  limiter : Limiter
deriving DecidableEq, Repr

structure SimpleRlc where
  bSkipped : Bool
  granters : List Granter
  grantersCnt : UInt8
deriving DecidableEq, Repr

namespace Granter

/-- `GrantUntil` of a limiter; none if it does not return. -/
def grantUntil (deadline : ℤ) (rt : ReqRespType) (readings : List ℤ) (g : Granter) : Option (Granter × Bool) :=
  (g.limiter.grantUntil deadline rt readings).bind fun o =>
    match o.verdict with
    | .returned granted => some ({ g with limiter := { g.limiter with bucket := o.bucket } }, granted)
    | _ => none

def giveBack (rt : ReqRespType) (g : Granter) : Option Granter :=
  (g.limiter.giveBack rt).map fun l => { g with limiter := l }

end Granter

namespace SimpleRlc

def containsGranter (granters : List Granter) (granter : Granter) : Bool :=
  granters.any fun g => g.name = granter.name

/-- The loop of `Init`; `memory` is what the memory of the limiters holds. -/
def addGranters (memory : ℕ → TokenBucketLimiter) :
    List LimiterConfig → List Granter → Except String (List Granter × Bool)
  | [], granters => .ok (granters, true)
  | conf :: confs, granters =>
    match conf.type with
    | .REF_COUNTER => .ok (granters, false)
    | .TOKEN_BUCKET =>
      let pg : Granter := ⟨conf.name, (memory granters.length).construct.init conf.tokenBucket⟩
      if containsGranter granters pg then .error ("Cannot define repetitive limiter = " ++ pg.name)
      else addGranters memory confs (granters ++ [pg])

def init (memory : ℕ → TokenBucketLimiter) (conf : SimpleRlcConfig) : Except String (SimpleRlc × Bool) :=
  (addGranters memory conf.limiters []).map fun r =>
    (⟨conf.skip, r.1, if r.2 then UInt8.ofNat r.1.length else 0⟩, r.2)

/-- `readings i` is what the clock shows to limiter `i`. -/
def grantUntil (s : SimpleRlc) (deadline : ℤ) (rt : ReqRespType) (readings : ℕ → List ℤ) :
    Option (SimpleRlc × List Bool × Bool) :=
  if s.bSkipped then some (s, [], true)
  else if s.grantersCnt = 0 then some (s, [], true)
  else
    (askAll (fun i => Granter.grantUntil deadline rt (readings i)) s.grantersCnt.toNat 0 s.granters).bind fun r =>
      match r.2.2 with
      | none => some ({ s with granters := r.1 }, r.2.1, true)
      | some notOKIdx =>
        (undoAll (Granter.giveBack rt) notOKIdx r.1).map fun gs => ({ s with granters := gs }, r.2.1, false)

/-! ## `Init` -/

/-- The granter of the `i`-th configuration. -/
def granterOf (memory : ℕ → TokenBucketLimiter) (i : ℕ) (conf : LimiterConfig) : Granter :=
  ⟨conf.name, (memory i).construct.init conf.tokenBucket⟩

theorem addGranters_eq {memory : ℕ → TokenBucketLimiter} {confs : List LimiterConfig} {granters : List Granter}
    (htypes : ∀ c ∈ confs, c.type = .TOKEN_BUCKET)
    (hnames : (granters.map Granter.name ++ confs.map LimiterConfig.name).Nodup) :
    addGranters memory confs granters =
      .ok (granters ++ confs.mapIdx fun i => granterOf memory (granters.length + i), true) := by
  induction confs generalizing granters with
  | nil => simp [addGranters]
  | cons conf confs ih =>
    have hnew : containsGranter granters (granterOf memory granters.length conf) = false := by
      rw [List.map_cons] at hnames
      have hnot := (List.nodup_middle.mp hnames).notMem
      rw [containsGranter, List.any_eq_false]
      intro g hg heq
      refine hnot (List.mem_append_left _ (List.mem_map.mpr ⟨g, hg, ?_⟩))
      exact of_decide_eq_true heq
    have hstep : addGranters memory (conf :: confs) granters =
        addGranters memory confs (granters ++ [granterOf memory granters.length conf]) := by
      rw [addGranters, htypes conf List.mem_cons_self]
      change (if containsGranter granters (granterOf memory granters.length conf) then _ else _) = _
      rw [hnew]
      rfl
    rw [hstep, ih (fun c hc => htypes c (List.mem_cons_of_mem _ hc))]
    · simp [List.mapIdx_cons, Nat.add_assoc, Nat.add_comm 1]
    · simpa [granterOf] using hnames

theorem init_eq {memory : ℕ → TokenBucketLimiter} {conf : SimpleRlcConfig}
    (htypes : ∀ c ∈ conf.limiters, c.type = .TOKEN_BUCKET) (hnames : (conf.limiters.map LimiterConfig.name).Nodup) :
    init memory conf = .ok (⟨conf.skip, conf.limiters.mapIdx (granterOf memory),
      UInt8.ofNat conf.limiters.length⟩, true) := by
  rw [init, addGranters_eq htypes (by simpa using hnames)]
  simp [Except.map]

/-! ## `GrantUntil` -/

/-- The limiter with the weight back in its bucket, up to the capacity; one that is skipped or was
asked for nothing has nothing to get. -/
def repaid (rt : ReqRespType) (g : Granter) : Granter :=
  let b := g.limiter.bucket
  if g.limiter.bSkipped ∨ g.limiter.weight rt = 0 then g
  else { g with limiter := { g.limiter with bucket := { b with
    currentResCount := min b.maxResCnt (b.currentResCount + g.limiter.weight rt) } } }

/-- Limiter `k` has refused, those before it have granted and been repaid, and those behind it are
as they were. -/
structure RolledBack (s : SimpleRlc) (deadline : ℤ) (rt : ReqRespType) (readings : ℕ → List ℤ) (k : ℕ)
    (u : SimpleRlc) : Prop where
  refused : ∃ g v, s.granters[k]? = some g ∧ g.grantUntil deadline rt (readings k) = some (v, false) ∧
    u.granters[k]? = some v
  repaid : ∀ i < k, ∃ g v, s.granters[i]? = some g ∧ g.grantUntil deadline rt (readings i) = some (v, true) ∧
    u.granters[i]? = some (repaid rt v)
  unasked : ∀ i > k, u.granters[i]? = s.granters[i]?

/-- True is returned just when all limiters grant, which are then all asked; otherwise those that
had granted get the weight back, each of them once. -/
structure AllOrNone (s : SimpleRlc) (deadline : ℤ) (rt : ReqRespType) (readings : ℕ → List ℤ) : Prop where
  granted : (∃ u answers, s.grantUntil deadline rt readings = some (u, answers, true)) ↔
    AllGrant (fun i => Granter.grantUntil deadline rt (readings i)) s.granters.length 0 s.granters
  asked : ∀ u answers, s.grantUntil deadline rt readings = some (u, answers, true) →
    answers = List.replicate s.granters.length true
  undone : ∀ u answers, s.grantUntil deadline rt readings = some (u, answers, false) →
    ∃ k, answers = List.replicate k true ++ [false] ∧ s.RolledBack deadline rt readings k u

section
variable {s u : SimpleRlc} {deadline : ℤ} {rt : ReqRespType} {readings : ℕ → List ℤ} {log : List Bool}

theorem giveBack_eq {g w : Granter} (h : g.giveBack rt = some w) : w = repaid rt g := by
  obtain ⟨l, hl, rfl⟩ := Option.map_eq_some_iff.mp h
  have hzero : g.limiter.weight rt = 0 ↔ g.limiter.rwt.getWeight rt = 0 := by
    rw [Limiter.weight, Nat.cast_eq_zero, ← UInt32.toNat_inj]
    rfl
  simp only [repaid, hzero]
  rcases Limiter.giveBack_cases hl with ⟨hfree, rfl⟩ | ⟨hpaid, bucket, hput, rfl⟩
  · rw [if_pos hfree]
  · obtain ⟨-, rfl⟩ := TokenBucketLimiter.putTokens_eq_some_iff.mp hput
    rw [if_neg hpaid]
    rfl

/-- What `m_iGrantersCnt` limiters answer. -/
def answers (s : SimpleRlc) (deadline : ℤ) (rt : ReqRespType) (readings : ℕ → List ℤ) :
    Option (List Granter × List Bool × Option ℕ) :=
  askAll (fun i => Granter.grantUntil deadline rt (readings i)) s.grantersCnt.toNat 0 s.granters

theorem grantUntil_true (hskip : s.bSkipped = false) :
    s.grantUntil deadline rt readings = some (u, log, true) ↔
      ∃ us, s.answers deadline rt readings = some (us, log, none) ∧ u = { s with granters := us } := by
  rw [grantUntil, if_neg (by simp [hskip])]
  split_ifs with hcnt
  · have hask : s.answers deadline rt readings = some (s.granters, [], none) := by
      rw [answers, hcnt]
      rfl
    rw [hask]
    constructor
    · rintro ⟨⟩
      exact ⟨s.granters, rfl, rfl⟩
    · rintro ⟨us, h, rfl⟩
      cases h
      rfl
  · change (s.answers deadline rt readings).bind _ = _ ↔ _
    constructor
    · intro h
      obtain ⟨⟨us, log', r⟩, hask, h⟩ := Option.bind_eq_some_iff.mp h
      cases r with
      | none =>
        cases h
        exact ⟨us, hask, rfl⟩
      | some k =>
        obtain ⟨b, -, heq⟩ := Option.map_eq_some_iff.mp h
        cases heq
    · rintro ⟨us, hask, rfl⟩
      rw [hask]
      rfl

/-- The rollback is in order whatever the number of limiters is. -/
theorem rolledBack (hskip : s.bSkipped = false) (h : s.grantUntil deadline rt readings = some (u, log, false)) :
    ∃ k, log = List.replicate k true ++ [false] ∧ s.RolledBack deadline rt readings k u := by
  rw [grantUntil, if_neg (by simp [hskip])] at h
  split_ifs at h
  · cases h
  · obtain ⟨⟨us, answers, r⟩, hask, h⟩ := Option.bind_eq_some_iff.mp h
    cases r with
    | none => cases h
    | some m =>
      obtain ⟨vs, hundo, heq⟩ := Option.map_eq_some_iff.mp h
      cases heq
      obtain ⟨k, rfl, hlog, hk⟩ := askAll_refused hask
      rw [Nat.zero_add] at hundo
      obtain ⟨htold, huntold⟩ := undoAll_spec hundo
      refine ⟨k, hlog, ?_, fun i hi => ?_, fun i hi => (huntold i hi.le).trans (hk.unasked i hi)⟩
      · obtain ⟨g, v, hg, hv, hu⟩ := hk.refused
        rw [Nat.zero_add] at hv
        exact ⟨g, v, hg, hv, (huntold k le_rfl).trans hu⟩
      · obtain ⟨g, v, hg, hv, hu⟩ := hk.granted i hi
        obtain ⟨v', w, hv', hw, hu'⟩ := htold i hi
        cases hu.symm.trans hv'
        rw [Nat.zero_add] at hv
        exact ⟨g, v, hg, hv, giveBack_eq hw ▸ hu'⟩

theorem grantUntil_true_iff (hskip : s.bSkipped = false) (hcnt : s.grantersCnt.toNat ≤ s.granters.length) :
    (∃ u log, s.grantUntil deadline rt readings = some (u, log, true)) ↔
      AllGrant (fun i => Granter.grantUntil deadline rt (readings i)) s.grantersCnt.toNat 0 s.granters := by
  rw [← askAll_none_iff hcnt]
  constructor
  · rintro ⟨u, log, h⟩
    obtain ⟨us, hask, -⟩ := (grantUntil_true hskip).mp h
    exact ⟨us, log, hask⟩
  · rintro ⟨us, log, hask⟩
    exact ⟨_, log, (grantUntil_true hskip).mpr ⟨us, hask, rfl⟩⟩

theorem allOrNone_iff (hskip : s.bSkipped = false) (hcnt : s.grantersCnt.toNat = s.granters.length % 256) :
    s.AllOrNone deadline rt readings ↔ s.granters.length < 256 ∨
      ¬ AllGrant (fun i => Granter.grantUntil deadline rt (readings i)) (s.granters.length % 256) 0 s.granters := by
  have hle : s.grantersCnt.toNat ≤ s.granters.length := hcnt ▸ Nat.mod_le _ _
  have htrue : (∃ u log, s.grantUntil deadline rt readings = some (u, log, true)) ↔
      AllGrant (fun i => Granter.grantUntil deadline rt (readings i)) s.grantersCnt.toNat 0 s.granters :=
    grantUntil_true_iff hskip hle
  rw [hcnt] at htrue
  constructor
  · intro h
    by_contra hcon
    obtain ⟨hmany, hgrant⟩ := not_or.mp hcon
    obtain ⟨u, log, hu⟩ := htrue.mpr (not_not.mp hgrant)
    -- the limiter with number 256 has not been asked
    obtain ⟨us, hask, -⟩ := (grantUntil_true hskip).mp hu
    have hlen := congrArg List.length ((answers_of_none hask).symm.trans (h.asked u log hu))
    simp only [List.length_replicate] at hlen
    omega
  · intro h
    refine ⟨?_, fun u log hu => ?_, fun u log hu => rolledBack hskip hu⟩
    · rw [htrue]
      rcases h with hfew | hrefused
      · rw [Nat.mod_eq_of_lt hfew]
      · refine iff_of_false hrefused fun hall => hrefused fun j hj => hall j ?_
        exact hj.trans_le (Nat.mod_le _ _)
    · obtain ⟨us, hask, -⟩ := (grantUntil_true hskip).mp hu
      rw [answers_of_none hask, hcnt]
      rcases h with hfew | hrefused
      · rw [Nat.mod_eq_of_lt hfew]
      · exact absurd (htrue.mp ⟨u, log, hu⟩) hrefused

end

/-- The limiters of a configuration, whatever the memory holds in which they are made. -/
theorem rlc_allOrNone_iff {memory : ℕ → TokenBucketLimiter} {conf : SimpleRlcConfig} (hskip : conf.skip = false)
    (htypes : ∀ c ∈ conf.limiters, c.type = .TOKEN_BUCKET) (hnames : (conf.limiters.map LimiterConfig.name).Nodup)
    (deadline : ℤ) (rt : ReqRespType) (readings : ℕ → List ℤ) :
    ∃ s, init memory conf = .ok (s, true) ∧ s.granters.length = conf.limiters.length ∧
      (s.AllOrNone deadline rt readings ↔ conf.limiters.length < 256 ∨
        ∃ i < conf.limiters.length % 256, ∃ g, s.granters[i]? = some g ∧
          ∀ u, g.grantUntil deadline rt (readings i) ≠ some (u, true)) := by
  refine ⟨_, init_eq htypes hnames, List.length_mapIdx, ?_⟩
  rw [allOrNone_iff hskip (by simp), List.length_mapIdx]
  refine or_congr Iff.rfl ?_
  simp only [AllGrant, Grants, Nat.zero_add]
  push Not
  rfl

/-- Limiters whose names are runs of one letter. -/
def limitersNamed (n : ℕ) : SimpleRlcConfig :=
  ⟨false, (List.range n).map fun i => ⟨.TOKEN_BUCKET, String.ofList (List.replicate i 'x'), halfRate⟩⟩

theorem limitersNamed_ok (n : ℕ) : (∀ c ∈ (limitersNamed n).limiters, c.type = .TOKEN_BUCKET) ∧
    ((limitersNamed n).limiters.map LimiterConfig.name).Nodup := by
  constructor
  · intro c hc
    obtain ⟨i, -, rfl⟩ := List.mem_map.mp hc
    rfl
  · rw [limitersNamed, List.map_map]
    refine List.nodup_range.map fun i j hij => ?_
    have := congrArg String.length hij
    simpa using this

theorem limitersNamed_refuse {memory : ℕ → TokenBucketLimiter} {n : ℕ} {g : Granter}
    (hg : g ∈ (limitersNamed n).limiters.mapIdx (granterOf memory)) : g.grantUntil 5 .Put [1] = some (g, false) := by
  obtain ⟨i, hi, rfl⟩ := List.mem_mapIdx.mp hg
  have hconf : (limitersNamed n).limiters[i].tokenBucket = halfRate := by simp [limitersNamed]
  rw [granterOf, hconf]
  rfl

/-- The first limiter grants at 11 and the second refuses at 1: the token of the first is back. -/
theorem rlc_allOrNone_two :
    ∃ s, init (fun _ => ⟨0, 0, 0, 0, 0, 2, 0, 0⟩) (limitersNamed 2) = .ok (s, true) ∧ s.granters.length = 2 ∧
      (s.AllOrNone 5 .Put fun i => if i = 0 then [10, 11] else [1]) ∧
      (s.grantUntil 5 .Put fun i => if i = 0 then [10, 11] else [1]).map
          (fun r => (r.1.granters.map fun g => g.limiter.bucket.currentResCount, r.2)) =
        some ([2, 2], [true, false], false) := by
  obtain ⟨s, hs, hlen, hiff⟩ := @rlc_allOrNone_iff (fun _ => ⟨0, 0, 0, 0, 0, 2, 0, 0⟩) (limitersNamed 2)
    rfl (limitersNamed_ok 2).1 (limitersNamed_ok 2).2 5 .Put fun i => if i = 0 then [10, 11] else [1]
  refine ⟨s, hs, hlen, hiff.mpr (.inl (by decide)), ?_⟩
  cases hs
  rfl

/-- With 256 limiters, all of which refuse, a request is granted and none of them is asked. -/
theorem rlc_none_asked :
    ∃ s, init (fun _ => ⟨0, 0, 0, 0, 0, 0, 0, 0⟩) (limitersNamed 256) = .ok (s, true) ∧ s.granters.length = 256 ∧
      (∀ g ∈ s.granters, g.grantUntil 5 .Put [1] = some (g, false)) ∧
      s.grantUntil 5 .Put (fun _ => [1]) = some (s, [], true) ∧ ¬ s.AllOrNone 5 .Put fun _ => [1] := by
  have hcnt : UInt8.ofNat (limitersNamed 256).limiters.length = 0 := by
    simp [limitersNamed]
  have hinit := @init_eq (fun _ => ⟨0, 0, 0, 0, 0, 0, 0, 0⟩) (limitersNamed 256)
    (limitersNamed_ok 256).1 (limitersNamed_ok 256).2
  rw [hcnt, show (limitersNamed 256).skip = false from rfl] at hinit
  generalize hgs : (limitersNamed 256).limiters.mapIdx (granterOf fun _ => ⟨0, 0, 0, 0, 0, 0, 0, 0⟩) = gs at hinit
  have hlen : gs.length = 256 := by
    rw [← hgs]
    simp [limitersNamed]
  refine ⟨_, hinit, hlen, fun g hg => ?_, rfl, fun h => ?_⟩
  · exact limitersNamed_refuse (hgs ▸ hg)
  · have hpos : 0 < gs.length := by omega
    have := congrArg List.length (h.asked _ _ rfl)
    simp only [List.length_nil, List.length_replicate] at this
    omega

end SimpleRlc

end FlyingKV.Acc
