import FlyingKV.FileDir
import FlyingKV.DiskProgram

set_option autoImplicit false

/-!
# `FileUtils` and `IOUtils` as disk programs

Each call that changes the directory is one mutation. The value is the error
text, `none` when the call succeeded.
-/
namespace FlyingKV.FileUtils
open ByteOrder FileDir DiskProgram

def ENOENT : String := "No such file or directory"
def EINVAL : String := "Invalid argument"

variable {N : Type} [DecidableEq N]

/-- `FileUtils::Unlink`: a missing file is no error and no call is made for it. -/
def unlink (n : N) : Program (Dir N) (Option String) := fun d fs =>
  if d.exist n then mutate (·.unlink n) (fun _ d => d) d fs else ⟨[], d, fs, none⟩

/-- A call without effect on the directory: `close`, `lseek`, `fstat`, `fdatasync`, `mkdir`
of an existing directory. -/
def syscall {σ : Type} : Program σ (Option String) := fun d fs =>
  let o := query (fun _ => .ok ()) d fs
  ⟨o.images, o.disk, o.faults, match o.value with | .ok () => none | .error e => some e⟩

/-- The text of `errno` where no call has been made: whatever stands next on the schedule. -/
def staleErrno {σ : Type} : Program σ String := fun d fs =>
  ⟨[], d, fs, ((fs.head?.bind id).map Fault.errmsg).getD ""⟩

/-- `open` with `O_CREAT`: an existing file keeps its bytes. -/
def openCreate (n : N) : Program (Dir N) (Option String) := fun d fs =>
  if d.exist n then syscall d fs else mutate (·.put n []) (fun _ d => d) d fs

/-- `open` with `O_CREAT|O_TRUNC`. -/
def openTrunc (n : N) : Program (Dir N) (Option String) :=
  mutate (·.put n []) (fun _ d => d)

def writeAt (bs : Bytes) (off : ℕ) (data : Bytes) : Bytes :=
  bs.take off ++ List.replicate (off - bs.length) 0 ++ data ++ bs.drop (off + data.length)

/-- Bytes written through a descriptor whose file has been removed are lost. -/
def writeDir (n : N) (off : ℕ) (data : Bytes) (d : Dir N) : Dir N :=
  match d.get n with
  | some bs => d.put n (writeAt bs off data)
  | none => d

/-- An open file and the offset of the next write. -/
structure Fd (N : Type) where
  file : N
  offset : ℕ
deriving DecidableEq, Repr

/-- `IOUtils::WriteFully`; a failing write may have stored a part of the bytes, and the
offset is past them. -/
def writeFully (fd : Fd N) (data : Bytes) : Program (Dir N) (Fd N × Option String) := fun d fs =>
  let o := mutate (writeDir fd.file fd.offset data)
    (fun k => writeDir fd.file fd.offset (data.take k)) d fs
  let written := match fs with | some f :: _ => data.take f.done | _ => data
  ⟨o.images, o.disk, o.faults, ⟨fd.file, fd.offset + written.length⟩, o.value⟩

/-- `rename(2)`; both names lie in the same directory. -/
def renameFile (src dst : N) : Program (Dir N) (Option String) := fun d fs =>
  if d.exist src then mutate (·.rename src dst) (fun _ d => d) d fs
  else ⟨[], d, fs.tail, some ENOENT⟩

theorem writeAt_end (bs data : Bytes) : writeAt bs bs.length data = bs ++ data := by
  simp [writeAt]

theorem unlink_run (n : N) (d : Dir N) :
    unlink n d [] = if d.exist n then ⟨[d.unlink n], d.unlink n, [], none⟩ else ⟨[], d, [], none⟩ := rfl

theorem openCreate_run (n : N) (d : Dir N) :
    openCreate n d [] =
      if d.exist n then ⟨[], d, [], none⟩ else ⟨[d.put n []], d.put n [], [], none⟩ := rfl

@[simp] theorem openTrunc_run (n : N) (d : Dir N) :
    openTrunc n d [] = ⟨[d.put n []], d.put n [], [], none⟩ := rfl

@[simp] theorem writeFully_run (fd : Fd N) (data : Bytes) (d : Dir N) :
    writeFully fd data d [] =
      ⟨[writeDir fd.file fd.offset data d], writeDir fd.file fd.offset data d, [],
        ⟨fd.file, fd.offset + data.length⟩, none⟩ := rfl

@[simp] theorem syscall_run {σ : Type} (d : σ) : syscall d [] = ⟨[], d, [], none⟩ := rfl

theorem renameFile_run (src dst : N) (d : Dir N) :
    renameFile src dst d [] =
      if d.exist src then ⟨[d.rename src dst], d.rename src dst, [], none⟩
      else ⟨[], d, [], some ENOENT⟩ := rfl

/-! ## Calls against a schedule -/

variable {fs : Faults} {n : N} {d : Dir N}

theorem syscall_nextOk {σ : Type} (h : NextOk fs) (d : σ) : syscall d fs = ⟨[], d, fs.tail, none⟩ := by
  simp only [syscall, query_nextOk h]

theorem openCreate_nextOk (h : NextOk fs) (hn : d.get n = none) :
    openCreate n d fs = ⟨[d.put n []], d.put n [], fs.tail, none⟩ := by
  simp only [openCreate, Dir.exist, hn, Option.isSome_none, Bool.false_eq_true, if_false,
    mutate_nextOk h]

theorem openCreate_fault (hn : d.get n = none) (f : Fault) (fs : Faults) :
    openCreate n d (some f :: fs) = ⟨[d], d, fs, some f.errmsg⟩ := by
  simp only [openCreate, Dir.exist, hn, Option.isSome_none, Bool.false_eq_true, if_false, mutate]

theorem writeFully_nextOk (h : NextOk fs) (fd : Fd N) (data : Bytes) (d : Dir N) :
    writeFully fd data d fs =
      ⟨[writeDir fd.file fd.offset data d], writeDir fd.file fd.offset data d, fs.tail,
        ⟨fd.file, fd.offset + data.length⟩, none⟩ := by
  rcases fs with _ | ⟨_ | f, rest⟩
  · rfl
  · rfl
  · exact absurd rfl (h f)

theorem exist_iff (d : Dir N) (n : N) : d.exist n = true ↔ d.get n ≠ none := by
  rw [Dir.exist, Option.isSome_iff_ne_none]

theorem exist_of_get {bs : Bytes} (h : d.get n = some bs) : d.exist n = true := by
  simp [Dir.exist, h]

theorem get_of_not_exist (h : d.exist n = false) : d.get n = none := by
  simpa [Dir.exist] using h

theorem not_exist_of_get (h : d.get n = none) : d.exist n = false := by
  simp [Dir.exist, h]

/-- A removal that has nothing to remove. -/
theorem get_missing (h : ¬ d.exist n = true) (m : N) : d.get m = if m = n then none else d.get m := by
  split_ifs with hm
  · rw [hm, Option.not_isSome_iff_eq_none.mp h]
  · rfl

/-- A creation that has nothing to create. -/
theorem get_present (h : d.exist n = true) (m : N) :
    d.get m = if m = n then some ((d.get n).getD []) else d.get m := by
  obtain ⟨bs, hbs⟩ := Option.isSome_iff_exists.mp h
  split_ifs with hm
  · rw [hm, hbs, Option.getD_some]
  · rfl

theorem get_created (h : ¬ d.exist n = true) (m : N) :
    (d.put n []).get m = if m = n then some ((d.get n).getD []) else d.get m := by
  rw [Dir.get_put, Option.not_isSome_iff_eq_none.mp h, Option.getD_none]

end FlyingKV.FileUtils
