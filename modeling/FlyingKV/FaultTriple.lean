import FlyingKV.CrashTriple

set_option autoImplicit false

/-!
# Triples over every schedule of faults

`Always m d Q` says of every run of `m` on `d`, whichever of its calls fail, that
its value and final disk satisfy `Q`.
-/
namespace FlyingKV.FaultTriple
open ByteOrder FileDir DiskProgram FileUtils

def Always {σ α : Type} (m : Program σ α) (d : σ) (Q : α → σ → Prop) : Prop :=
  ∀ fs, Q (m d fs).value (m d fs).disk

section
variable {σ α β : Type} {d : σ}
variable {Q : α → σ → Prop} {m : Program σ α}

theorem Always.pure {a : α} (h : Q a d) : Always (pure a) d Q := fun _ => h

theorem Always.bind {k : α → Program σ β} {R : β → σ → Prop} (hm : Always m d Q)
    (hk : ∀ a e, Q a e → Always (k a) e R) : Always (m >>= k) d R :=
  fun fs => hk _ _ (hm fs) _

/-- A run whose first part is known, whatever fails in the second. -/
theorem Always.after {k : α → Program σ β} {fs : Faults} {R : β → σ → Prop} (hm : Q (m d fs).value (m d fs).disk)
    (hk : ∀ a e, Q a e → Always (k a) e R) :
    R ((m >>= k) d fs).value ((m >>= k) d fs).disk := hk _ _ hm _

theorem Always.imp {R : α → σ → Prop} (h : Always m d Q) (hQ : ∀ a e, Q a e → R a e) :
    Always m d R := fun fs => hQ _ _ (h fs)

theorem Always.peek_bind {f : σ → α} {k : α → Program σ β} {R : β → σ → Prop} {a : α} (ha : f d = a)
    (h : Always (k a) d R) : Always (peek f >>= k) d R := by
  subst ha
  exact h

theorem Always.mutate {Q : Option String → σ → Prop} {ok : σ → σ} {bad : ℕ → σ → σ}
    (hok : Q none (ok d)) (hbad : ∀ k e, Q (some e) (bad k d)) : Always (mutate ok bad) d Q := by
  intro fs
  rcases fs with _ | ⟨_ | f, fs⟩
  · exact hok
  · exact hok
  · exact hbad _ _

theorem Always.syscall {Q : Option String → σ → Prop} (h : ∀ r, Q r d) :
    Always (syscall : Program σ (Option String)) d Q := by
  intro fs
  rcases fs with _ | ⟨_ | f, fs⟩
  · exact h none
  · exact h none
  · exact h (some _)

theorem Always.syscall_bind {k : Option String → Program σ β} {R : β → σ → Prop}
    (h : ∀ r, Always (k r) d R) : Always (FileUtils.syscall >>= k) d R := by
  refine Always.bind (Q := fun _ e => e = d) (Always.syscall fun _ => rfl) ?_
  rintro r _ rfl
  exact h r

end

section
variable {N : Type} [DecidableEq N] {d : Dir N}
variable {Q : Option String → Dir N → Prop}

theorem Always.unlink (n : N) (h : ∀ e : Dir N, (∀ m, e.get m = if m = n then none else d.get m) → Q none e)
    (hbad : ∀ msg, Q (some msg) d) : Always (unlink n) d Q := by
  intro fs
  unfold FileUtils.unlink
  split_ifs with hn
  · exact Always.mutate (h _ fun m => d.get_unlink n m) (fun _ => hbad) fs
  · exact h d (get_missing hn)

theorem Always.openCreate (n : N)
    (h : ∀ e : Dir N, (∀ m, e.get m = if m = n then some ((d.get n).getD []) else d.get m) → Q none e)
    (hbad : ∀ msg, Q (some msg) d) : Always (openCreate n) d Q := by
  intro fs
  unfold FileUtils.openCreate
  split_ifs with hn
  · refine Always.syscall (fun r => ?_) fs
    cases r with
    | some msg => exact hbad msg
    | none => exact h d (get_present hn)
  · exact Always.mutate (h _ (get_created hn)) (fun _ => hbad) fs

theorem Always.openTrunc (n : N) (h : ∀ e : Dir N, (∀ m, e.get m = if m = n then some [] else d.get m) → Q none e)
    (hbad : ∀ msg, Q (some msg) d) : Always (openTrunc n) d Q :=
  Always.mutate (h _ fun m => d.get_put n m []) fun _ => hbad

/-- A write to a fresh file; when it fails, some of the bytes may be there. -/
theorem Always.writeFresh {Q : Fd N × Option String → Dir N → Prop} (n : N) (data : Bytes)
    (hn : d.get n = some [])
    (h : ∀ fd, ∀ e : Dir N, (∀ m, e.get m = if m = n then some data else d.get m) → Q (fd, none) e)
    (hbad : ∀ fd msg, ∀ e : Dir N, (∀ m, m ≠ n → e.get m = d.get m) → Q (fd, some msg) e) :
    Always (writeFully ⟨n, 0⟩ data) d Q := by
  have hok : ∀ m, (writeDir n 0 data d).get m = if m = n then some data else d.get m := fun m => by
    simp only [writeDir, hn, Dir.get_put, writeAt, List.take_nil, List.nil_append, List.drop_nil,
      List.append_nil, List.length_nil, Nat.sub_zero, List.replicate_zero]
  intro fs
  rcases fs with _ | ⟨_ | f, fs⟩
  · exact h _ _ hok
  · exact h _ _ hok
  · exact hbad _ _ _ fun m hm => CrashTriple.get_writeDir_ne hm _ _ d

theorem Always.renameFile (src dst : N) (h : ∀ e : Dir N, ∀ bs, d.get src = some bs →
      (∀ m, e.get m = if m = dst then some bs else if m = src then none else d.get m) → Q none e)
    (hbad : ∀ msg, Q (some msg) d) : Always (renameFile src dst) d Q := by
  intro fs
  unfold FileUtils.renameFile
  split_ifs with hs
  · obtain ⟨bs, hbs⟩ := Option.isSome_iff_exists.mp hs
    exact Always.mutate (h _ bs hbs fun m => d.get_rename hbs m) (fun _ => hbad) fs
  · exact hbad _

theorem Always.leaves {α : Type} {m : Program (Dir N) α} {Q : α → Dir N → Prop} (h : Always m d Q)
    {n : N} (hn : CrashTriple.Leaves m n) : Always m d (fun a e => Q a e ∧ e.get n = d.get n) :=
  fun fs => ⟨h fs, hn d fs⟩

end

end FlyingKV.FaultTriple
