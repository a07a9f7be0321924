import FlyingKV.FileUtils

set_option autoImplicit false

/-!
# Triples with a crash condition

`Safe m d P Q` says of the fault-free run of `m` on `d` that every disk a crash
can leave behind satisfies `P` and that its value and final disk satisfy `Q`.
-/
namespace FlyingKV.CrashTriple
open ByteOrder FileDir DiskProgram FileUtils

structure Safe {σ α : Type} (m : Program σ α) (d : σ) (P : σ → Prop) (Q : α → σ → Prop) : Prop where
  images : ∀ e ∈ (m d []).images, P e
  post : Q (m d []).value (m d []).disk
  faults : (m d []).faults = []

section
variable {σ α β : Type} {P P' : σ → Prop} {d : σ}
variable {Q : α → σ → Prop} {m : Program σ α}

theorem Safe.pure {a : α} (h : Q a d) : Safe (pure a) d P Q :=
  ⟨by simp, h, rfl⟩

theorem Safe.bind {k : α → Program σ β} {R : β → σ → Prop} (hm : Safe m d P Q) (hk : ∀ a e, Q a e → Safe (k a) e P R) :
    Safe (m >>= k) d P R := by
  have h := hk _ _ hm.post
  refine ⟨fun e he => ?_, ?_, ?_⟩
  · rw [bind_run, hm.faults] at he
    rcases List.mem_append.mp he with he | he
    · exact hm.images e he
    · exact h.images e he
  · rw [bind_run, hm.faults]
    exact h.post
  · rw [bind_run, hm.faults]
    exact h.faults

theorem Safe.imp {Q' : α → σ → Prop} (h : Safe m d P Q) (hP : ∀ e, P e → P' e) (hQ : ∀ a e, Q a e → Q' a e) :
    Safe m d P' Q' :=
  ⟨fun e he => hP e (h.images e he), hQ _ _ h.post, h.faults⟩

theorem Safe.of_run {images : List σ} {e : σ} {a : α} (hrun : m d [] = ⟨images, e, [], a⟩)
    (hP : ∀ e ∈ images, P e) (hQ : Q a e) : Safe m d P Q :=
  ⟨by rwa [hrun], by rwa [hrun], by rw [hrun]⟩

theorem Safe.syscall {Q : Option String → σ → Prop} (h : Q none d) :
    Safe (syscall : Program σ (Option String)) d P Q :=
  ⟨by simp, h, rfl⟩

theorem Safe.peek_bind {f : σ → α} {k : α → Program σ β} {R : β → σ → Prop} {a : α} (ha : f d = a)
    (h : Safe (k a) d P R) : Safe (peek f >>= k) d P R := by
  subst ha
  refine Safe.bind (Q := fun a e => a = f d ∧ e = d) ⟨by simp, ⟨rfl, rfl⟩, rfl⟩ ?_
  rintro _ _ ⟨rfl, rfl⟩
  exact h

theorem Safe.syscall_bind {k : Option String → Program σ β} {R : β → σ → Prop}
    (h : Safe (k none) d P R) : Safe (FileUtils.syscall >>= k) d P R := by
  refine Safe.bind (Q := fun r e => r = none ∧ e = d) (Safe.syscall ⟨rfl, rfl⟩) ?_
  rintro _ _ ⟨rfl, rfl⟩
  exact h

/-- What every disk of the run satisfies, a crash finds. -/
theorem Safe.crashAt (h : Safe m d P Q) (hd : P d) (hQ : ∀ a e, Q a e → P e) (p : ℕ) : P (crashAt m d p) := by
  cases p with
  | zero => exact hd
  | succ p =>
    rw [DiskProgram.crashAt]
    cases hg : (m d []).images[p]? with
    | none => exact hQ _ _ h.post
    | some e => exact h.images e (List.mem_of_getElem? hg)

end

section
variable {N : Type} [DecidableEq N] {d : Dir N} {P : Dir N → Prop}
variable {Q : Option String → Dir N → Prop}

/-- A removal, described by what it leaves of the directory. -/
theorem Safe.unlink (n : N) (h : ∀ e : Dir N, (∀ m, e.get m = if m = n then none else d.get m) → P e ∧ Q none e) :
    Safe (unlink n) d P Q := by
  by_cases hn : d.exist n = true
  · have he := h _ (d.get_unlink n)
    exact .of_run ((unlink_run n d).trans (if_pos hn)) (by simpa using he.1) he.2
  · exact .of_run ((unlink_run n d).trans (if_neg hn)) (by simp) (h d (get_missing hn)).2

theorem Safe.openCreate (n : N)
    (h : ∀ e : Dir N, (∀ m, e.get m = if m = n then some ((d.get n).getD []) else d.get m) →
      P e ∧ Q none e) : Safe (openCreate n) d P Q := by
  by_cases hn : d.exist n = true
  · exact .of_run ((openCreate_run n d).trans (if_pos hn)) (by simp) (h d (get_present hn)).2
  · have he := h _ (get_created hn)
    exact .of_run ((openCreate_run n d).trans (if_neg hn)) (by simpa using he.1) he.2

theorem Safe.openTrunc (n : N) (h : ∀ e : Dir N, (∀ m, e.get m = if m = n then some [] else d.get m) → P e ∧ Q none e) :
    Safe (openTrunc n) d P Q := by
  have he := h _ (fun m => d.get_put n m [])
  exact ⟨by simpa using he.1, he.2, rfl⟩

theorem Safe.append {Q : Fd N × Option String → Dir N → Prop} (n : N) (data : Bytes) {bs : Bytes}
    (hn : d.get n = some bs)
    (h : ∀ e : Dir N, (∀ m, e.get m = if m = n then some (bs ++ data) else d.get m) →
      P e ∧ Q (⟨n, bs.length + data.length⟩, none) e) :
    Safe (writeFully ⟨n, bs.length⟩ data) d P Q := by
  have he := h (writeDir n bs.length data d) (fun m => by
    simp only [writeDir, hn, Dir.get_put, writeAt_end])
  exact ⟨by simpa using he.1, he.2, rfl⟩

theorem Safe.renameFile (src dst : N) {bs : Bytes} (hs : d.get src = some bs)
    (h : ∀ e : Dir N, (∀ m, e.get m = if m = dst then some bs else if m = src then none else d.get m) →
      P e ∧ Q none e) : Safe (renameFile src dst) d P Q := by
  have he := h _ (fun m => d.get_rename hs m)
  exact .of_run ((renameFile_run src dst d).trans (if_pos (exist_of_get hs)))
    (by simpa using he.1) he.2

theorem Safe.rename_missing (src dst : N) (hs : d.get src = none) (h : Q (some ENOENT) d) :
    Safe (FileUtils.renameFile src dst) d P Q :=
  .of_run ((renameFile_run src dst d).trans (if_neg (by simp [Dir.exist, hs]))) (by simp) h

end

/-! ## Files that a program does not touch -/

section
variable {N α β : Type} [DecidableEq N]

/-- The file `n` is at the end what it was, whatever fails. -/
def Leaves (m : Program (Dir N) α) (n : N) : Prop := ∀ d fs, (m d fs).disk.get n = d.get n

theorem Leaves.pure (a : α) (n : N) : Leaves (pure a : Program (Dir N) α) n := fun _ _ => rfl

variable {n f : N}

theorem Leaves.bind {m : Program (Dir N) α} {k : α → Program (Dir N) β} (hm : Leaves m n) (hk : ∀ a, Leaves (k a) n) :
    Leaves (m >>= k) n :=
  fun d fs => (hk _ _ _).trans (hm d fs)

theorem Leaves.peek (f : Dir N → α) (n : N) : Leaves (peek f) n := fun _ _ => rfl

theorem Leaves.syscall (n : N) : Leaves (syscall : Program (Dir N) (Option String)) n := by
  intro d fs
  rcases fs with _ | ⟨_ | f, fs⟩ <;> rfl

theorem Leaves.mutate {ok : Dir N → Dir N} {bad : ℕ → Dir N → Dir N} (hok : ∀ d, (ok d).get n = d.get n)
    (hbad : ∀ k d, (bad k d).get n = d.get n) : Leaves (mutate ok bad) n := by
  intro d fs
  rcases fs with _ | ⟨_ | f, fs⟩
  · exact hok d
  · exact hok d
  · exact hbad _ d

theorem Leaves.unlink (h : n ≠ f) : Leaves (unlink f) n := by
  intro d fs
  unfold FileUtils.unlink
  split_ifs
  · exact Leaves.mutate (fun d => Dir.get_unlink_ne d h) (fun _ _ => rfl) d fs
  · rfl

theorem Leaves.openTrunc (h : n ≠ f) : Leaves (openTrunc f) n :=
  Leaves.mutate (fun d => Dir.get_put_ne d _ h) (fun _ _ => rfl)

theorem Leaves.openCreate (h : n ≠ f) : Leaves (openCreate f) n := by
  intro d fs
  unfold FileUtils.openCreate
  split_ifs
  · exact Leaves.syscall n d fs
  · exact Leaves.mutate (fun d => Dir.get_put_ne d _ h) (fun _ _ => rfl) d fs

theorem get_writeDir_ne (h : n ≠ f) (off : ℕ) (data : Bytes) (d : Dir N) :
    (writeDir f off data d).get n = d.get n := by
  unfold writeDir
  split
  · exact Dir.get_put_ne d _ h
  · rfl

theorem Leaves.writeFully {fd : Fd N} (h : n ≠ fd.file) (data : Bytes) :
    Leaves (writeFully fd data) n :=
  fun d fs => Leaves.mutate (get_writeDir_ne h fd.offset data)
    (fun k => get_writeDir_ne h fd.offset (data.take k)) d fs

theorem Leaves.renameFile {src dst : N} (hs : n ≠ src) (hd : n ≠ dst) : Leaves (renameFile src dst) n := by
  intro d fs
  unfold FileUtils.renameFile
  split_ifs with he
  · obtain ⟨bs, hbs⟩ := Option.ne_none_iff_exists'.mp ((exist_iff d src).mp he)
    rcases fs with _ | ⟨_ | f, fs⟩
    · exact (d.get_rename hbs n).trans (by rw [if_neg hd, if_neg hs])
    · exact (d.get_rename hbs n).trans (by rw [if_neg hd, if_neg hs])
    · rfl
  · rfl

theorem Safe.leaves {m : Program (Dir N) α} {d : Dir N} {P : Dir N → Prop} {Q : α → Dir N → Prop} (h : Safe m d P Q)
    (hn : Leaves m n) : Safe m d P (fun a e => Q a e ∧ e.get n = d.get n) :=
  ⟨h.images, ⟨h.post, hn d []⟩, h.faults⟩

end

end FlyingKV.CrashTriple
