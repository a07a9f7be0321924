import FlyingKV.EventRun
import FlyingKV.WalTruncateReady

set_option autoImplicit false

/-!
# Histories of a log directory

A directory goes through the calls of one object after the other. Every state of
a history stands for a log, as long as the counters and the 32-bit positions have
room for what is appended.
-/
namespace FlyingKV.Wal
open ByteOrder FileDir DiskProgram FramedStream EventRun

structure WalSystem where
  wal : LogCleanWal
  dir : WalDir

/-- `append` carries what `Encode` produced; `restart` constructs an object with a
configuration of its own, in a thread with the given `errno`. -/
inductive WalEvent where
  | append (eb : Option Bytes)
  | truncate (id : ℕ)
  | restart (errno : ℕ) (conf : LogCleanWalConfig)

inductive WalReply where
  | appended (r : AppendEntryResult)
  | truncated (r : WalResult)
  | restarted (r : WalResult) (batches : List (List WalEntry))
deriving DecidableEq

/-- One call without I/O failure; none when the call ends the process. -/
def walStep (judge : Judge) (s : WalSystem) : WalEvent → Option (WalSystem × WalReply)
  | .append eb =>
    let o := appendEntry s.wal eb s.dir []
    match o.value.2 with
    | .returned r => some (⟨o.value.1, o.disk⟩, .appended r)
    | .crashed _ => none
  | .truncate id =>
    let o := truncate s.wal id s.dir []
    match o.value.2 with
    | .returned r => some (⟨o.value.1, o.disk⟩, .truncated r)
    | .crashed _ => none
  | .restart errno conf =>
    let o := reopen judge errno conf s.dir []
    match o.value.result with
    | .returned r => some (⟨o.value.wal, o.disk⟩, .restarted r o.value.batches)
    | .crashed _ => none

/-- A history of a directory that is empty at first. -/
def walHistory (judge : Judge) (errno : ℕ) (conf : LogCleanWalConfig)
    (es : List WalEvent) : Option (WalSystem × List WalReply) :=
  run (walStep judge) ⟨create conf, Dir.empty⟩ (.restart errno conf :: es)

/-- Every appended entry can be decoded and finds room. -/
def Admits (judge : Judge) (s : WalSystem) : WalEvent → Prop
  | .append (some content) => judge content = .accepted ∧ Room s.wal content
  | _ => True

instance decidableAdmits (judge : Judge) (s : WalSystem) :
    ∀ e, Decidable (Admits judge s e)
  | .append (some _) => inferInstanceAs (Decidable (_ ∧ Room s.wal _))
  | .append none => isTrue trivial
  | .truncate _ => isTrue trivial
  | .restart _ _ => isTrue trivial

/-- `P` at every step of a history after the first start. -/
def AlongHistory (judge : Judge) (errno : ℕ) (conf : LogCleanWalConfig)
    (P : WalSystem → WalEvent → Prop) (es : List WalEvent) : Prop :=
  ∀ o ∈ walStep judge ⟨create conf, Dir.empty⟩ (.restart errno conf), Along (walStep judge) P o.1 es

instance decidableAlongHistory (judge : Judge) (errno : ℕ) (conf : LogCleanWalConfig)
    (P : WalSystem → WalEvent → Prop) [∀ s e, Decidable (P s e)] (es : List WalEvent) :
    Decidable (AlongHistory judge errno conf P es) :=
  inferInstanceAs (Decidable (∀ o ∈ _, Along (walStep judge) P (Prod.fst o) es))

section
variable {judge : Judge}

/-- The first start succeeds and delivers nothing. -/
theorem walStep_first (judge : Judge) (errno : ℕ) (conf : LogCleanWalConfig) :
    ∃ s bss, walStep judge ⟨create conf, Dir.empty⟩ (.restart errno conf) =
        some (s, .restarted .ok bss) ∧ bss.flatten = [] ∧
      Ready judge s.wal s.dir (SegmentedLog.start 1) 0 ∧ s.wal.conf = conf := by
  have h := reopen_empty judge errno conf (d := Dir.empty) (fun _ => rfl)
    (bound_of_no_info errno rfl)
  simp only [walStep, h.result]
  generalize reopen judge errno conf Dir.empty [] = o at h ⊢
  exact ⟨_, _, rfl, h.batches, h.ready, h.conf_eq⟩

/-- An invariant that the first start establishes and every step keeps holds at the end of a history. -/
theorem history_invariant {errno : ℕ} {conf : LogCleanWalConfig} {es : List WalEvent} {s : WalSystem}
    {rs : List WalReply} {P : WalSystem → WalEvent → Prop} {I : WalSystem → List (WalEvent × WalReply) → Prop}
    (hstart : ∀ s : WalSystem, Ready judge s.wal s.dir (SegmentedLog.start 1) 0 → I s [])
    (hstep : ∀ s tr e u r, I s tr → P s e → walStep judge s e = some (u, r) → I u (tr ++ [(e, r)]))
    (hP : AlongHistory judge errno conf P es) (hrun : walHistory judge errno conf es = some (s, rs)) :
    ∃ bss rs', rs = .restarted .ok bss :: rs' ∧ rs'.length = es.length ∧ I s (es.zip rs') := by
  obtain ⟨s₀, bss, hfirst, -, hready, -⟩ := walStep_first judge errno conf
  obtain ⟨u, r, rs', hs, hr, rfl⟩ := run_cons.mp hrun
  rw [hfirst] at hs
  cases hs
  exact ⟨bss, rs', rfl, length_run hr, run_invariant hstep [] (hstart s₀ hready) (hP _ hfirst) hr⟩

/-- What one step makes of a state that stands for a log. -/
inductive Stepped (judge : Judge) (s : WalSystem) (l : Log) (v : ℕ) :
    WalEvent → WalSystem → WalReply → Prop where
  | refused {eb : Option Bytes} {r : AppendEntryResult} (not_ok : r.rc ≠ .OK) :
      Stepped judge s l v (.append eb) s (.appended r)
  | appended {content : Bytes} {u : WalSystem}
      (ready : Ready judge u.wal u.dir (append s.wal.conf l (nextRec s.wal l content)) v)
      (conf : u.wal.conf = s.wal.conf) (min : u.wal.minSegmentId = s.wal.minSegmentId) :
      Stepped judge s l v (.append (some content)) u (.appended ⟨.OK, "", lastId l + 1⟩)
  | missing {id : ℕ} (absent : s.wal.mpEntriesIdSegId id = none) :
      Stepped judge s l v (.truncate id) s (.truncated ⟨.InvalidEntryId, invalidEntryIdError⟩)
  | pending {id i : ℕ} {u : WalSystem} {r : WalResult} (found : s.wal.mpEntriesIdSegId id = some i)
      (kept : keptFrom l i = l.first) (ready : Ready judge u.wal u.dir l id)
      (conf : u.wal.conf = s.wal.conf) (result : r = .ok ↔ l.first ≤ s.wal.minSegmentId) :
      Stepped judge s l v (.truncate id) u (.truncated r)
  | cut {id i : ℕ} {u : WalSystem} (found : s.wal.mpEntriesIdSegId id = some i)
      (kept : l.first < keptFrom l i) (last : keptFrom l i ≤ lastFilled l)
      (ready : Ready judge u.wal u.dir (l.dropThrough (keptFrom l i - 1)) 0)
      (conf : u.wal.conf = s.wal.conf) (min : u.wal.minSegmentId = keptFrom l i) :
      Stepped judge s l v (.truncate id) u (.truncated .ok)
  | restarted {errno : ℕ} {conf : LogCleanWalConfig} {u : WalSystem} {bss : List (List WalEntry)}
      (loads : Loads conf l v) (ready : Ready judge u.wal u.dir (recover l v) 0)
      (conf_eq : u.wal.conf = conf) (min : u.wal.minSegmentId = (recover l v).first)
      (batches : bss.flatten = (recover l v).entries.map Rec.entry) :
      Stepped judge s l v (.restart errno conf) u (.restarted .ok bss)

theorem walStep_spec {s u : WalSystem} {l : Log} {v : ℕ} {e : WalEvent} {r : WalReply}
    (h : Ready judge s.wal s.dir l v) (ha : Admits judge s e) (hs : walStep judge s e = some (u, r)) :
    Stepped judge s l v e u r := by
  cases e with
  | append eb =>
    cases eb with
    | none =>
      simp only [walStep, appendEntry, h.inited, h.loaded, Bool.not_true, Bool.false_eq_true, if_false,
        pure_run, appendError, Option.some.injEq, Prod.mk.injEq] at hs
      obtain ⟨rfl, rfl⟩ := hs
      exact .refused (by simp)
    | some content =>
      rcases appendEntry_spec h ha.2 ha.1 with ⟨hno, hw, hd⟩ | happ
      · simp only [walStep, hw, hd] at hs
        cases hr : (appendEntry s.wal (some content) s.dir []).value.2 with
        | crashed why => simp [hr] at hs
        | returned res =>
          simp only [hr, Option.some.injEq, Prod.mk.injEq] at hs
          obtain ⟨rfl, rfl⟩ := hs
          exact .refused fun hok => hno ⟨res, hr, hok⟩
      · simp only [walStep, happ.result, Option.some.injEq, Prod.mk.injEq] at hs
        obtain ⟨rfl, rfl⟩ := hs
        exact .appended happ.ready happ.conf_eq happ.min_eq
  | truncate id =>
    cases hid : s.wal.mpEntriesIdSegId id with
    | none =>
      rw [walStep, truncate_missing h hid] at hs
      cases hs
      exact .missing hid
    | some i =>
      obtain ⟨t, ht, a, hat, hae⟩ := (h.index id i).mp hid
      have hspec := truncate_spec h ht hat hae
      rw [walStep] at hs
      generalize truncate s.wal id s.dir [] = o at hs hspec
      cases hspec with
      | noop kept min result ready wal =>
        simp only [result, Option.some.injEq, Prod.mk.injEq] at hs
        obtain ⟨rfl, rfl⟩ := hs
        exact .pending hid kept ready (by rw [wal]) (by simp [min])
      | stuck kept min result ready wal =>
        simp only [result, Option.some.injEq, Prod.mk.injEq] at hs
        obtain ⟨rfl, rfl⟩ := hs
        refine .pending hid kept ready (by rw [wal]) ?_
        simp only [fileSystemError, WalResult.ok, WalResult.mk.injEq, reduceCtorEq, false_and, false_iff]
        omega
      | cut kept result ready min conf =>
        simp only [result, Option.some.injEq, Prod.mk.injEq] at hs
        obtain ⟨rfl, rfl⟩ := hs
        exact .cut hid kept (keptFrom_bounds ht hat).2.1 ready conf min
  | restart errno conf =>
    rcases h.reopen errno conf with ⟨hl, ho⟩ | ⟨-, hc⟩
    · simp only [walStep, ho.result, Option.some.injEq, Prod.mk.injEq] at hs
      obtain ⟨rfl, rfl⟩ := hs
      exact .restarted hl ho.ready ho.conf_eq ho.min_eq ho.batches
    · simp [walStep, hc] at hs

end

end FlyingKV.Wal
