import Mathlib.Tactic

set_option autoImplicit false

/-!
# Programs over a disk that may crash or fail

A program is run on a disk against a schedule of faults, one entry for each
system call in program order; an exhausted schedule means that every further
call succeeds. Besides its value a run records the disk after each mutation,
which are the images a crash can leave behind.
-/
namespace FlyingKV.DiskProgram

/-- A failing call: how many bytes of a write still reached the disk, and the error text. -/
structure Fault where
  done : ℕ
  errmsg : String
deriving DecidableEq, Repr

abbrev Faults := List (Option Fault)

structure Outcome (σ α : Type) where
  images : List σ
  disk : σ
  faults : Faults
  value : α

def Program (σ α : Type) := σ → Faults → Outcome σ α

variable {σ α β : Type}

instance : Monad (Program σ) where
  pure a := fun d fs => ⟨[], d, fs, a⟩
  bind m k := fun d fs =>
    let o := m d fs
    let o' := k o.value o.disk o.faults
    ⟨o.images ++ o'.images, o'.disk, o'.faults, o'.value⟩

/-- One mutation: either it happens, or the disk is left as the failed call leaves it. -/
def mutate (ok : σ → σ) (bad : ℕ → σ → σ) : Program σ (Option String) := fun d fs =>
  match fs with
  | some f :: fs => ⟨[bad f.done d], bad f.done d, fs, some f.errmsg⟩
  | none :: fs => ⟨[ok d], ok d, fs, none⟩
  | [] => ⟨[ok d], ok d, [], none⟩

/-- A call that only reads the disk and may itself report an error. -/
def query (f : σ → Except String α) : Program σ (Except String α) := fun d fs =>
  match fs with
  | some ft :: fs => ⟨[], d, fs, .error ft.errmsg⟩
  | none :: fs => ⟨[], d, fs, f d⟩
  | [] => ⟨[], d, [], f d⟩

/-- Looking at the disk by a call whose failure is not distinguished from an answer. -/
def peek (f : σ → α) : Program σ α := fun d fs => ⟨[], d, fs, f d⟩

@[simp] theorem pure_run (a : α) (d : σ) (fs : Faults) :
    (pure a : Program σ α) d fs = ⟨[], d, fs, a⟩ := rfl

theorem bind_run (m : Program σ α) (k : α → Program σ β) (d : σ) (fs : Faults) :
    (m >>= k) d fs =
      ⟨(m d fs).images ++ (k (m d fs).value (m d fs).disk (m d fs).faults).images,
        (k (m d fs).value (m d fs).disk (m d fs).faults).disk,
        (k (m d fs).value (m d fs).disk (m d fs).faults).faults,
        (k (m d fs).value (m d fs).disk (m d fs).faults).value⟩ := rfl

instance : LawfulMonad (Program σ) := LawfulMonad.mk' _
  (fun m => funext fun d => funext fun fs =>
    congrArg (Outcome.mk · (m d fs).disk (m d fs).faults (m d fs).value) (List.append_nil _))
  (fun _ _ => funext fun _ => funext fun _ => by simp [bind_run])
  (fun _ _ _ => funext fun _ => funext fun _ => by simp [bind_run, List.append_assoc])

@[simp] theorem query_run (f : σ → Except String α) (d : σ) :
    query f d [] = ⟨[], d, [], f d⟩ := rfl

@[simp] theorem peek_run (f : σ → α) (d : σ) (fs : Faults) : peek f d fs = ⟨[], d, fs, f d⟩ := rfl

/-- The next call of the schedule succeeds. -/
def NextOk (fs : Faults) : Prop := ∀ f, fs.head? ≠ some (some f)

theorem nextOk_or_fault (fs : Faults) : NextOk fs ∨ ∃ f rest, fs = some f :: rest := by
  rcases fs with _ | ⟨_ | f, rest⟩
  · exact .inl (by simp [NextOk])
  · exact .inl (by simp [NextOk])
  · exact .inr ⟨f, rest, rfl⟩

theorem mutate_nextOk {fs : Faults} (h : NextOk fs) (ok : σ → σ) (bad : ℕ → σ → σ) (d : σ) :
    mutate ok bad d fs = ⟨[ok d], ok d, fs.tail, none⟩ := by
  rcases fs with _ | ⟨_ | f, rest⟩
  · rfl
  · rfl
  · exact absurd rfl (h f)

theorem query_nextOk {fs : Faults} (h : NextOk fs) (f : σ → Except String α) (d : σ) :
    query f d fs = ⟨[], d, fs.tail, f d⟩ := by
  rcases fs with _ | ⟨_ | e, rest⟩
  · rfl
  · rfl
  · exact absurd rfl (h e)

/-- The value satisfies `Q`, whatever the disk and the faults are. -/
def Returns (m : Program σ α) (Q : α → Prop) : Prop := ∀ d fs, Q (m d fs).value

theorem returns_true (m : Program σ α) : Returns m (fun _ => True) := fun _ _ => trivial

theorem returns_pure {Q : α → Prop} {a : α} (h : Q a) : Returns (pure a : Program σ α) Q := fun _ _ => h

theorem Returns.bind {m : Program σ α} {k : α → Program σ β} {Q : α → Prop} {R : β → Prop}
    (hm : Returns m Q) (hk : ∀ a, Q a → Returns (k a) R) : Returns (m >>= k) R :=
  fun d fs => hk _ (hm d fs) _ _

/-- The disk after the first `p` mutations; past the end it is the final disk. -/
def crashAt (m : Program σ α) (d : σ) (p : ℕ) : σ :=
  match p with
  | 0 => d
  | p + 1 => ((m d []).images[p]?).getD (m d []).disk

/-- The last image of the fault-free run is the disk it ends on. -/
def Recorded (m : Program σ α) (d : σ) : Prop := ((m d []).images.getLast?).getD d = (m d []).disk

theorem crashAt_bind {m : Program σ α} {d : σ} (h : Recorded m d) (k : α → Program σ β) :
    crashAt (m >>= k) d (m d []).images.length = (m d []).disk := by
  rw [Recorded] at h
  rw [← h]
  rcases List.eq_nil_or_concat (m d []).images with hnil | ⟨init, e, hlast⟩
  · rw [hnil]
    rfl
  · rw [hlast, List.concat_eq_append, List.length_append, List.length_singleton, crashAt, bind_run, hlast]
    simp

end FlyingKV.DiskProgram
