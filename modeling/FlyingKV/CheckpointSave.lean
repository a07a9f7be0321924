import FlyingKV.CheckpointCrash

set_option autoImplicit false

/-!
# `Save` without a crash of the machine

The child may still end early, when the memory pool has no block for an entry. It then
leaves its lock file behind, so the parent reports an error and the old snapshot stays.
-/
namespace FlyingKV.Checkpoint
open CommonUtils DecimalText DiskProgram FileUtils CrashTriple

section
variable {d : CpDir} {p : Snapshot}

theorem loadMeta_settled (h : Settled d p) (hid : p.id < ulongMax) (errno : ℕ) :
    loadMeta errno d = .ok p.id := by
  rcases h.holds with ⟨h0, -, hmeta⟩ | ⟨hpos, hmeta, -⟩
  · simp only [loadMeta, hmeta, h0, invalidEntryId]
  · simp only [loadMeta, hmeta, toUint46_toString errno hpos hid]

/-- What `Save` makes of the snapshot. -/
def Snapshot.next (p : Snapshot) (version : UInt8) (t : Traveller) (rs : LoadCheckpointResult) : Snapshot :=
  if rs.rc = .OK ∧ p.id < t.maxId then t.snapshot version else p

theorem doSaveInChild_settled (h : Settled d p) (hid : p.id < ulongMax) (errno : ℕ) (version : UInt8)
    (t : Traveller) (hlen : ∀ c ∈ encoded t.entries, c.length < 2 ^ 32) :
    Safe (doSaveInChild errno version t) d (fun _ => True) (fun _ e =>
      (t.maxId ≤ p.id ∧ Settled e p) ∨ (p.id < t.maxId ∧ Settled e p ∧ isCompleted e = false) ∨
        (p.id < t.maxId ∧ Settled e (t.snapshot version) ∧ isCompleted e = true)) := by
  have hR : Ignores (Settled · p) [.lock] := (settled_ignores p).mono (by simp)
  refine Safe.bind ((lock_safe hR h).imp (fun _ _ => trivial) fun _ _ h => h) ?_
  rintro rs e₁ ⟨rfl, he, hlock⟩
  refine Safe.peek_bind (loadMeta_settled he hid errno) ?_
  simp only
  split_ifs with hle
  · exact Safe.bind ((unlock_safe hR he).imp (fun _ _ => trivial) fun _ _ h => h)
      fun _ e he => Safe.pure (.inl ⟨hle, he⟩)
  · refine (saveInChild_recoverable (.inl he) t hlen (by omega)).imp (fun _ _ => trivial) fun _ e hs => ?_
    have hlt : p.id < t.maxId := by omega
    rcases hs with ⟨hs, hl⟩ | ⟨hs, hc⟩
    · refine .inr (.inl ⟨hlt, hs, ?_⟩)
      have hex : e.exist .lock = true := (exist_iff e _).mpr (hl ▸ hlock)
      simp [isCompleted, hex]
    · exact .inr (.inr ⟨hlt, hs, hc⟩)

theorem doSaveInParent_settled (h : Settled d p) (hid : p.id < ulongMax) (errno : ℕ) :
    Safe (doSaveInParent errno) d (fun _ => True) (fun rs e => e = d ∧
      (isCompleted d = true → rs = ⟨.OK, "", p.id⟩) ∧ (isCompleted d = false → rs.rc ≠ .OK)) := by
  refine Safe.syscall_bind (Safe.peek_bind rfl ?_)
  cases isCompleted d with
  | false => exact Safe.pure ⟨rfl, nofun, fun _ => by decide⟩
  | true => exact Safe.peek_bind (loadMeta_settled h hid errno) (Safe.pure ⟨rfl, fun _ => rfl, nofun⟩)

/-- `Save` by the only user of the directory. -/
theorem save_settled (h : Settled d p) (hid : p.id < ulongMax) (errno : ℕ) (c : EntryOrderCheckpoint)
    (hc : c.bInited = true) (t : Traveller) (ht : t.maxId < ulongMax)
    (hlen : ∀ b ∈ encoded t.entries, b.length < 2 ^ 32) :
    Safe (save errno c ⟨false, false⟩ t) d (fun _ => True) (fun rs e =>
      Settled e (p.next c.conf.writeEntryVersion t rs) ∧
        (rs.rc = .OK → rs.maxId = (p.next c.conf.writeEntryVersion t rs).id)) := by
  have hfree : Safe (isLocking ⟨false, false⟩) d (fun _ => True) (fun r e => r = .ok false ∧ e = d) := by
    refine Safe.peek_bind rfl ?_
    cases d.exist .lock with
    | false => exact Safe.pure ⟨rfl, rfl⟩
    | true => exact ⟨by simp [bind_run], ⟨rfl, rfl⟩, rfl⟩
  simp only [save, hc, Bool.not_true, Bool.false_eq_true, if_false]
  refine Safe.bind hfree ?_
  rintro r e ⟨rfl, rfl⟩
  refine Safe.syscall_bind ?_
  refine Safe.bind (doSaveInChild_settled h hid errno c.conf.writeEntryVersion t hlen) fun _ e he => ?_
  rcases he with ⟨hle, hs⟩ | ⟨hlt, hs, hcomp⟩ | ⟨hlt, hs, hcomp⟩
  · refine (doSaveInParent_settled hs hid errno).imp (fun _ h => h) ?_
    rintro rs e' ⟨rfl, hok, hno⟩
    rw [Snapshot.next, if_neg (by omega)]
    refine ⟨hs, fun hrc => ?_⟩
    cases hcomp : isCompleted e' with
    | true => rw [hok hcomp]
    | false => exact absurd hrc (hno hcomp)
  · refine (doSaveInParent_settled hs hid errno).imp (fun _ h => h) ?_
    rintro rs _ ⟨rfl, -, hno⟩
    rw [Snapshot.next, if_neg fun h => hno hcomp h.1]
    exact ⟨hs, fun hrc => absurd hrc (hno hcomp)⟩
  · refine (doSaveInParent_settled hs ht errno).imp (fun _ h => h) ?_
    rintro rs _ ⟨rfl, hok, -⟩
    rw [hok hcomp, Snapshot.next, if_pos ⟨rfl, hlt⟩]
    exact ⟨hs, fun _ => rfl⟩

end

end FlyingKV.Checkpoint
