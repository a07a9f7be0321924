import FlyingKV.MiniKvSteps
import FlyingKV.CheckpointCrash
import FlyingKV.WalIds

set_option autoImplicit false

/-!
# What the child of a checkpoint sees

`check_wal` takes `begin()` when it builds the traveller, and writers are kept out only
from `Prepare` on. The child iterates from that element over the map of the fork.
-/
namespace FlyingKV.MiniKv
open Wal Checkpoint EventRun

/-- A step of a request, or the arrival of one. -/
def Action.isRequest : Action → Bool
  | .invoke _ => true
  | .advance _ => true
  | _ => false

section
variable {codec : EntryCodec}

theorem Moved.checker_of_request {s u : Server} {a : Action} {l : Label} (h : Moved codec s a u l)
    (ha : a.isRequest = true) : u.checker = s.checker := by
  cases h <;> first | rfl | cases ha

theorem checker_of_requests {s u : Server} {es : List Action} {ls : List Label}
    (h : run (step codec) s es = some (u, ls)) (hes : ∀ a ∈ es, a.isRequest = true) :
    u.checker = s.checker := by
  induction es generalizing s ls with
  | nil =>
    cases h
    rfl
  | cons a es ih =>
    obtain ⟨v, l, ls', hs, hr, -⟩ := run_cons.mp h
    rw [ih hr (fun b hb => hes b (List.mem_cons_of_mem _ hb)),
      (step_moved hs).checker_of_request (hes a List.mem_cons_self)]

/-- From the state `s₀` in which the traveller is built, over any steps of requests, `Prepare` and
any further steps of requests, to the state `s` of the fork: the child meets exactly the
elements of the map, each once and in key order and without leaving an erased one, if and only
if the first element is the one that was first when the traveller was built. -/
theorem child_sees_map_iff {s₀ s : Server} {maxId : ℕ} (h₀ : s₀.checker = .hasId maxId)
    (errno₀ errno₁ : ℕ) {es₁ es₂ : List Action} (h₁ : ∀ a ∈ es₁, a.isRequest = true)
    (h₂ : ∀ a ∈ es₂, a.isRequest = true) {ls : List Label}
    (hrun : run (step codec) s₀ (.check errno₀ :: es₁ ++ .check errno₁ :: es₂) = some (s, ls)) :
    ∃ cur, s.checker = .prepared maxId cur ∧
      (travelEntries s.kvs cur = some s.kvs.values ↔ s.kvs.begin = s₀.kvs.begin) := by
  obtain ⟨v, _, _, hr₁, hr₂, -⟩ := run_append hrun
  obtain ⟨v₀, _, _, hs₀, hr₁, -⟩ := run_cons.mp hr₁
  obtain ⟨v₁, _, _, hs₁, hr₂, -⟩ := run_cons.mp hr₂
  have hbuilt : v₀.checker = .built maxId s₀.kvs.begin := by
    have hm := step_moved hs₀
    cases hm <;> simp_all
  have hprep : v₁.checker = .prepared maxId s₀.kvs.begin := by
    have hv : v.checker = .built maxId s₀.kvs.begin := (checker_of_requests hr₁ h₁).trans hbuilt
    have hm := step_moved hs₁
    cases hm <;> simp_all
  refine ⟨s₀.kvs.begin, (checker_of_requests hr₂ h₂).trans hprep, ?_⟩
  rw [travelEntries, s.kvs.travel_eq_values_iff, eq_comm]

end

def smallKv : KVConfig := ⟨smallConf, smallCpConf, 0⟩

/-- All steps of an accepted write that is request number `r`. -/
def writeAll (r : ℕ) (req : Request) : List Action :=
  [.invoke req, .advance r, .advance r, .advance r, .advance r, .advance r]

/-- A second key, larger than the first, arrives while the traveller exists. -/
theorem child_sees_map_of_larger_key :
    ∃ o, kvHistory wireCodec smallKv 0 0
        (writeAll 0 (.put (some ⟨[97], [1]⟩)) ++ [.check 0, .check 0]) = some o ∧
      ∃ o', run (step wireCodec) o.1 (.check 0 :: writeAll 1 (.put (some ⟨[98], [2]⟩)) ++ .check 0 :: []) =
          some o' ∧
        ∃ cur, o'.1.checker = .prepared 2 cur ∧ travelEntries o'.1.kvs cur = some o'.1.kvs.values := by
  obtain ⟨o, ho⟩ := Option.isSome_iff_exists.mp (by decide +kernel : (kvHistory wireCodec smallKv 0 0
    (writeAll 0 (.put (some ⟨[97], [1]⟩)) ++ [.check 0, .check 0])).isSome = true)
  have hnext : ∀ o ∈ kvHistory wireCodec smallKv 0 0
      (writeAll 0 (.put (some ⟨[97], [1]⟩)) ++ [.check 0, .check 0]), o.1.checker = .hasId 2 ∧
      (run (step wireCodec) o.1 (.check 0 :: writeAll 1 (.put (some ⟨[98], [2]⟩)) ++ .check 0 :: [])).isSome =
        true ∧
      ∀ o' ∈ run (step wireCodec) o.1
          (.check 0 :: writeAll 1 (.put (some ⟨[98], [2]⟩)) ++ .check 0 :: []),
        o'.1.kvs.begin = o.1.kvs.begin := by decide +kernel
  obtain ⟨hpc, hsome, hbegin⟩ := hnext o ho
  obtain ⟨o', ho'⟩ := Option.isSome_iff_exists.mp hsome
  obtain ⟨cur, hcur, hiff⟩ := child_sees_map_iff hpc 0 0 (by decide) (by decide) ho'
  exact ⟨o, ho, o', ho', cur, hcur, hiff.mpr (hbegin o' ho')⟩

/-- A key before the first one is missed; and once the first element is erased there is nothing to
advance from. -/
theorem child_misses_smaller_key :
    (kvHistory wireCodec smallKv 0 0 (writeAll 0 (.put (some ⟨[98], [1]⟩)) ++
          [.check 0, .check 0, .check 0] ++ writeAll 1 (.put (some ⟨[97], [2]⟩)) ++ [.check 0])).map
        (fun o => (o.1.checker, o.1.kvs.values, travelEntries o.1.kvs (some 0))) =
      some (.prepared 2 (some 0), [⟨[97], [2]⟩, ⟨[98], [1]⟩], some [⟨[98], [1]⟩]) ∧
    (kvHistory wireCodec smallKv 0 0 (writeAll 0 (.put (some ⟨[98], [1]⟩)) ++
          [.check 0, .check 0, .check 0] ++ writeAll 1 (.delete [98]) ++ [.check 0])).map
        (fun o => (o.1.checker, o.1.kvs.values, travelEntries o.1.kvs (some 0))) =
      some (.prepared 2 (some 0), [], none) := by
  decide +kernel

end FlyingKV.MiniKv
