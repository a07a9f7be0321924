import FlyingKV.EventRun

set_option autoImplicit false

/-!
# References to an event handler

Any number of threads take and release references to one `AFileEventHandler`. Each macro of
`gcc-buildin.h` is one step, so another thread can come in between the decrement and the
`GetRef` of a `Release`, and before its `AddExternalEpDelEvent`.
-/
namespace FlyingKV.Net.ReferenceCounter
open EventRun

/-- The value a macro returns and the one it leaves behind. -/
structure Atomic where
  result : BitVec 32
  lock : BitVec 32

/-- `__sync_fetch_and_and(lock, 1)`. -/
def atomicFetch (lock : BitVec 32) : Atomic := ⟨lock, lock &&& 1⟩

/-- `__sync_add_and_fetch(lock, 1)`. -/
def atomicAddoneAndFetch (lock : BitVec 32) : Atomic := ⟨lock + 1, lock + 1⟩

/-- `__sync_sub_and_fetch(lock, 1)`. -/
def atomicSuboneAndFetch (lock : BitVec 32) : Atomic := ⟨lock - 1, lock - 1⟩

/-- `refs` names the holder of each reference. A thread in `reading` has decremented the
counter and not yet read it; one in `deleting` has read zero. The last three fields count
calls. -/
structure Handler where
  iRef : BitVec 32
  ownEvWorker : Bool
  refs : List ℕ
  reading : List ℕ
  deleting : List ℕ
  addRefs : ℕ
  releases : ℕ
  delEvents : ℕ
deriving DecidableEq, Repr

/-- A new handler; its creator holds the one reference. -/
def start (creator : ℕ) : Handler := ⟨1, false, [creator], [], [], 0, 0, 0⟩

inductive Event where
  | setOwnWorker
  | addRef (t : ℕ)
  | handOver (t t' : ℕ)
  | release (t : ℕ)
  | getRef (t : ℕ)
  | addExternalEpDelEvent (t : ℕ)
deriving DecidableEq, Repr

/-- Whether the thread is inside `Release`. -/
def Handler.inRelease (s : Handler) (t : ℕ) : Prop := t ∈ s.reading ∨ t ∈ s.deleting

instance (s : Handler) (t : ℕ) : Decidable (s.inRelease t) := inferInstanceAs (Decidable (_ ∨ _))

def Handler.step (s : Handler) : Event → Option (Handler × Unit)
  | .setOwnWorker => some ({ s with ownEvWorker := true }, ())
  | .addRef t =>
    if s.inRelease t then none
    else some ({ s with
      iRef := (atomicAddoneAndFetch s.iRef).lock
      refs := t :: s.refs
      addRefs := s.addRefs + 1 }, ())
  | .handOver t t' => if t ∈ s.refs then some ({ s with refs := t' :: s.refs.erase t }, ()) else none
  | .release t =>
    if s.inRelease t ∨ t ∉ s.refs then none
    else some ({ s with
      iRef := (atomicSuboneAndFetch s.iRef).lock
      refs := s.refs.erase t
      reading := t :: s.reading
      releases := s.releases + 1 }, ())
  | .getRef t =>
    if t ∈ s.reading then
      let got := atomicFetch s.iRef
      some ({ s with
        iRef := got.lock
        reading := s.reading.erase t
        deleting := if got.result = 0 ∧ s.ownEvWorker = true then t :: s.deleting else s.deleting }, ())
    else none
  | .addExternalEpDelEvent t =>
    if t ∈ s.deleting then
      some ({ s with deleting := s.deleting.erase t, delEvents := s.delEvents + 1 }, ())
    else none

/-- Counting is exact, and the handler is given up for deletion once, after the last release. -/
structure Exact (s : Handler) : Prop where
  counter : s.iRef.toInt = 1 + s.addRefs - s.releases
  at_most_once : s.delEvents ≤ 1
  only_after_last : 0 < s.delEvents → s.refs = []
  once_released : s.refs = [] → s.reading = [] → s.deleting = [] → s.delEvents = 1

/-- A reference is added only while there is one, `GetRef` runs only when at most one is
left, and the last one is released only when no other `Release` is about to read. -/
def Careful (s : Handler) : Event → Prop
  | .addRef _ => s.refs ≠ [] ∧ s.refs.length + 1 < 2 ^ 31
  | .release _ => s.refs.length = 1 → s.reading = []
  | .getRef _ => s.refs.length ≤ 1 ∧ (s.refs = [] → s.ownEvWorker = true)
  | _ => True

instance decidableCareful (s : Handler) : ∀ e, Decidable (Careful s e)
  | .setOwnWorker => isTrue trivial
  | .addRef _ => inferInstanceAs (Decidable (_ ∧ _))
  | .handOver _ _ => isTrue trivial
  | .release _ => inferInstanceAs (Decidable (_ → _))
  | .getRef _ => inferInstanceAs (Decidable (_ ∧ (_ → _)))
  | .addExternalEpDelEvent _ => isTrue trivial

/-- The counter is the number of references, and one `Release` at most is or was in charge of
the deletion once there are none. -/
structure Counted (s : Handler) : Prop where
  counter : s.iRef = BitVec.ofNat 32 s.refs.length
  small : s.refs.length < 2 ^ 31
  calls : s.refs.length + s.releases = 1 + s.addRefs
  live : s.refs ≠ [] → s.deleting = [] ∧ s.delEvents = 0
  gone : s.refs = [] → s.reading.length + s.deleting.length + s.delEvents = 1

theorem Counted.start (creator : ℕ) : Counted (start creator) where
  counter := rfl
  small := by simp [ReferenceCounter.start]
  calls := rfl
  live _ := ⟨rfl, rfl⟩
  gone h := by cases h

theorem Counted.exact {s : Handler} (h : Counted s) : Exact s where
  counter := by
    have hcalls := h.calls
    have hsmall := h.small
    rw [h.counter, BitVec.toInt_eq_toNat_of_lt]
    · rw [BitVec.toNat_ofNat, Nat.mod_eq_of_lt (by omega)]
      omega
    · rw [BitVec.toNat_ofNat, Nat.mod_eq_of_lt (by omega)]
      omega
  at_most_once := by
    by_cases hrefs : s.refs = []
    · have := h.gone hrefs
      omega
    · rw [(h.live hrefs).2]
      omega
  only_after_last hpos := by
    by_contra hrefs
    rw [(h.live hrefs).2] at hpos
    exact absurd hpos (lt_irrefl 0)
  once_released hrefs hreading hdeleting := by
    have := h.gone hrefs
    simpa [hreading, hdeleting] using this

/-- Reading the counter keeps a counter of at most one. -/
theorem atomicFetch_lock {n : ℕ} (h : n ≤ 1) : (atomicFetch (BitVec.ofNat 32 n)).lock = BitVec.ofNat 32 n := by
  interval_cases n <;> rfl

theorem Counted.add {s : Handler} (h : Counted s) (t : ℕ) (hne : s.refs ≠ [])
    (hroom : s.refs.length + 1 < 2 ^ 31) :
    Counted { s with
      iRef := (atomicAddoneAndFetch s.iRef).lock
      refs := t :: s.refs
      addRefs := s.addRefs + 1 } := by
  have hcalls := h.calls
  refine ⟨?_, hroom, ?_, fun _ => h.live hne, nofun⟩
  · simp only [atomicAddoneAndFetch, h.counter, List.length_cons, BitVec.ofNat_add]
    rfl
  · simp only [List.length_cons]
    omega

theorem Counted.handOver {s : Handler} (h : Counted s) {t : ℕ} (t' : ℕ) (ht : t ∈ s.refs) :
    Counted { s with refs := t' :: s.refs.erase t } := by
  have hlen : (t' :: s.refs.erase t).length = s.refs.length := by
    have hpos := List.length_pos_of_mem ht
    rw [List.length_cons, List.length_erase_of_mem ht]
    omega
  refine ⟨?_, ?_, ?_, fun _ => h.live (List.ne_nil_of_mem ht), nofun⟩
  · rw [hlen]
    exact h.counter
  · rw [hlen]
    exact h.small
  · rw [hlen]
    exact h.calls

/-- The release of the last reference puts its own thread, and no other, in charge. -/
theorem Counted.sub {s : Handler} (h : Counted s) {t : ℕ} (ht : t ∈ s.refs)
    (halone : s.refs.length = 1 → s.reading = []) :
    Counted { s with
      iRef := (atomicSuboneAndFetch s.iRef).lock
      refs := s.refs.erase t
      reading := t :: s.reading
      releases := s.releases + 1 } := by
  obtain ⟨n, hn⟩ : ∃ n, s.refs.length = n + 1 :=
    ⟨_, (Nat.succ_pred_eq_of_pos (List.length_pos_of_mem ht)).symm⟩
  have hlen : (s.refs.erase t).length = n := by
    rw [List.length_erase_of_mem ht, hn]
    rfl
  obtain ⟨hdeleting, hdel⟩ := h.live (List.ne_nil_of_mem ht)
  have hcalls := h.calls
  have hsmall := h.small
  refine ⟨?_, ?_, ?_, fun _ => ⟨hdeleting, hdel⟩, fun hnil => ?_⟩
  · simp only [atomicSuboneAndFetch, h.counter, hlen, hn, BitVec.ofNat_add]
    exact BitVec.add_sub_cancel _ _
  · dsimp only
    omega
  · dsimp only
    omega
  · have hzero : n = 0 := by
      rw [← hlen]
      exact congrArg List.length hnil
    simp [halone (by omega), hdeleting, hdel]

/-- With at most one reference left, `GetRef` keeps the counter and sees zero exactly when
there is none. -/
theorem Counted.get {s : Handler} (h : Counted s) {t : ℕ} (ht : t ∈ s.reading)
    (hle : s.refs.length ≤ 1) (hworker : s.refs = [] → s.ownEvWorker = true) :
    Counted { s with
      iRef := (atomicFetch s.iRef).lock
      reading := s.reading.erase t
      deleting := if (atomicFetch s.iRef).result = 0 ∧ s.ownEvWorker = true then t :: s.deleting
        else s.deleting } := by
  have hlock : (atomicFetch s.iRef).lock = s.iRef := by
    rw [h.counter]
    exact atomicFetch_lock hle
  have hcounter : (atomicFetch s.iRef).lock = BitVec.ofNat 32 s.refs.length := hlock.trans h.counter
  by_cases hrefs : s.refs = []
  · have hzero : (atomicFetch s.iRef).result = 0 := by
      rw [h.counter, hrefs]
      rfl
    have hpos := List.length_pos_of_mem ht
    have hlen := List.length_erase_of_mem ht
    have hgone := h.gone hrefs
    refine ⟨hcounter, h.small, h.calls, fun hne => absurd hrefs hne, fun _ => ?_⟩
    simp only [hzero, hworker hrefs, and_self, if_true, List.length_cons, hlen]
    omega
  · have hone : s.refs.length = 1 := by
      have := List.length_pos_of_ne_nil hrefs
      omega
    have hnonzero : (atomicFetch s.iRef).result ≠ 0 := by
      rw [h.counter, hone]
      decide
    refine ⟨hcounter, h.small, h.calls, fun hne => ?_, fun hnil => absurd hnil hrefs⟩
    simp only [hnonzero, false_and, if_false]
    exact h.live hne

theorem Counted.del {s : Handler} (h : Counted s) {t : ℕ} (ht : t ∈ s.deleting) :
    Counted { s with deleting := s.deleting.erase t, delEvents := s.delEvents + 1 } := by
  have hpos := List.length_pos_of_mem ht
  have hlen := List.length_erase_of_mem ht
  refine ⟨h.counter, h.small, h.calls, fun hne => ?_, fun hnil => ?_⟩
  · rw [(h.live hne).1] at ht
    cases ht
  · have hgone := h.gone hnil
    dsimp only
    omega

theorem Counted.step {s u : Handler} {e : Event} {r : Unit} (h : Counted s) (hcareful : Careful s e)
    (hs : s.step e = some (u, r)) : Counted u := by
  cases e with
  | setOwnWorker =>
    cases hs
    exact ⟨h.counter, h.small, h.calls, h.live, h.gone⟩
  | addRef t =>
    rw [Handler.step] at hs
    split_ifs at hs
    cases hs
    exact h.add t hcareful.1 hcareful.2
  | handOver t t' =>
    rw [Handler.step] at hs
    split_ifs at hs with ht
    cases hs
    exact h.handOver t' ht
  | release t =>
    rw [Handler.step] at hs
    split_ifs at hs with hguard
    cases hs
    exact h.sub (by_contra fun ht => hguard (.inr ht)) hcareful
  | getRef t =>
    by_cases ht : t ∈ s.reading
    · simp only [Handler.step, if_pos ht, Option.some.injEq, Prod.mk.injEq] at hs
      rw [← hs.1]
      exact h.get ht hcareful.1 hcareful.2
    · simp [Handler.step, ht] at hs
  | addExternalEpDelEvent t =>
    rw [Handler.step] at hs
    split_ifs at hs with ht
    cases hs
    exact h.del ht

theorem references_exact {creator : ℕ} {es : List Event} {s : Handler} {rs : List Unit}
    (hcareful : Along Handler.step Careful (start creator) es)
    (hrun : run Handler.step (start creator) es = some (s, rs)) : Exact s :=
  (run_invariant (I := fun s _ => Counted s) (fun _ _ _ _ _ h hP hs => h.step hP hs) []
    (Counted.start creator) hcareful hrun).exact

/-- A sender and the registry: the registry's reference is released last. -/
theorem references_exact_one_sender : ∃ o ∈ run Handler.step (start 0)
    [.setOwnWorker, .addRef 1, .release 1, .getRef 1, .handOver 0 2, .release 2, .getRef 2,
      .addExternalEpDelEvent 2], o.1.delEvents = 1 ∧ Exact o.1 := by
  refine ⟨_, rfl, rfl, ?_⟩
  exact @references_exact 0 [.setOwnWorker, .addRef 1, .release 1, .getRef 1, .handOver 0 2, .release 2,
    .getRef 2, .addExternalEpDelEvent 2] _ _ (by decide) rfl

/-- Two senders beside the registry. The first `GetRef` reads 2 and leaves 0, so that the
next reference taken and released gives up a handler to which two references are held. And
with one sender, two releases between which no `GetRef` comes give it up twice. -/
theorem references_miscounted :
    (∃ o ∈ run Handler.step (start 0) [.setOwnWorker, .addRef 1, .addRef 2, .release 1, .getRef 1],
      o.1.iRef = 0 ∧ o.1.refs = [2, 0]) ∧
    (∃ o ∈ run Handler.step (start 0) [.setOwnWorker, .addRef 1, .addRef 2, .release 1, .getRef 1,
        .addRef 3, .release 3, .getRef 3, .addExternalEpDelEvent 3],
      o.1.delEvents = 1 ∧ o.1.refs = [2, 0]) ∧
    (∃ o ∈ run Handler.step (start 0) [.setOwnWorker, .addRef 1, .release 1, .release 0, .getRef 1,
        .getRef 0, .addExternalEpDelEvent 1, .addExternalEpDelEvent 0], o.1.delEvents = 2) :=
  ⟨⟨_, rfl, rfl, rfl⟩, ⟨_, rfl, rfl, rfl⟩, ⟨_, rfl, rfl⟩⟩

end FlyingKV.Net.ReferenceCounter
