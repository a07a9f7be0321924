import FlyingKV.WalRuns

set_option autoImplicit false

/-!
# The id counter over single calls

Whatever the files hold, `AppendEntry` counts up by one when it accepts an entry and at
most by one otherwise, and `Truncate` leaves the counter alone.
-/
namespace FlyingKV.Wal
open ByteOrder DiskProgram FramedStream

/-- The counter of the object that a call leaves. -/
def CounterIs (n : ℕ) {α : Type} (r : LogCleanWal × α) : Prop := r.1.currentEntryIdx = n

theorem openNewSegment_counter (w : LogCleanWal) :
    Returns (openNewSegment w) (CounterIs w.currentEntryIdx) := by
  refine (returns_true _).bind fun e _ => ?_
  cases e with
  | some e => exact returns_pure rfl
  | none =>
    refine (returns_true _).bind fun r _ => ?_
    obtain ⟨fd, err⟩ := r
    cases err with
    | some e => exact returns_pure rfl
    | none => exact returns_pure rfl

theorem createNewSegmentFile_counter (w : LogCleanWal) :
    Returns (createNewSegmentFile w) (CounterIs w.currentEntryIdx) := by
  unfold createNewSegmentFile
  cases w.currentSegFd with
  | none => exact openNewSegment_counter w
  | some fd =>
    refine (returns_true _).bind fun e _ => ?_
    cases e with
    | some e => exact returns_pure rfl
    | none => exact openNewSegment_counter w

/-- The counter is `n`, and a success reports it. -/
def CountsTo (n : ℕ) (r : LogCleanWal × Ended AppendEntryResult) : Prop :=
  r.1.currentEntryIdx = n ∧ ∀ res, r.2 = .returned res → res.rc = .OK → res.entryId = n

theorem appendDone_counter (w : LogCleanWal) :
    Returns (appendDone w) (CountsTo w.currentEntryIdx) := by
  unfold appendDone
  split_ifs with hfull
  · refine (createNewSegmentFile_counter w).bind fun r hr => ?_
    obtain ⟨w', rs⟩ := r
    have hw : w'.currentEntryIdx = w.currentEntryIdx := hr
    dsimp only
    split_ifs with hrs
    · refine returns_pure ⟨hw, fun res he hok => ?_⟩
      cases he
      exact absurd hok hrs
    · refine returns_pure ⟨hw, fun res he _ => ?_⟩
      cases he
      exact hw
  · refine returns_pure ⟨rfl, fun res he _ => ?_⟩
    cases he
    rfl

theorem countsTo_error (w : LogCleanWal) {rc : Code} (hrc : rc ≠ .OK) (errmsg : String) :
    CountsTo w.currentEntryIdx (w, appendError rc errmsg) :=
  ⟨rfl, fun res he hok => by cases he; exact absurd hok hrc⟩

theorem appendRecord_counter (w : LogCleanWal) (record : Bytes) (walEntrySize : ℕ) :
    Returns (appendRecord w record walEntrySize) (CountsTo w.currentEntryIdx) := by
  unfold appendRecord
  cases w.currentSegFd with
  | none => exact (returns_true _).bind fun _ _ => returns_pure (countsTo_error w (by decide) _)
  | some fd =>
    refine (returns_true _).bind fun r _ => ?_
    obtain ⟨fd', err⟩ := r
    cases err with
    | some e => exact returns_pure (countsTo_error { w with currentSegFd := some fd' } (by decide) _)
    | none =>
      refine (returns_true _).bind fun e _ => ?_
      cases e with
      | some e => exact returns_pure (countsTo_error { w with currentSegFd := some fd' } (by decide) _)
      | none => exact appendDone_counter (noteAppended { w with currentSegFd := some fd' } walEntrySize)

/-- The counter after a call of `AppendEntry`. -/
def Counted (n : ℕ) (r : LogCleanWal × Ended AppendEntryResult) : Prop :=
  (r.1.currentEntryIdx = n ∧ ∀ res, r.2 = .returned res → res.rc ≠ .OK) ∨
    CountsTo ((n + 1) % 2 ^ 64) r

theorem appendEntry_counter (w : LogCleanWal) (eb : Option Bytes) :
    Returns (appendEntry w eb) (Counted w.currentEntryIdx) := by
  have herr {rc : Code} (hrc : rc ≠ .OK) (errmsg : String) :
      Returns (pure (w, appendError rc errmsg) : Program WalDir _) (Counted w.currentEntryIdx) :=
    returns_pure (.inl ⟨rfl, fun res he => by cases he; exact hrc⟩)
  unfold appendEntry
  split_ifs
  · exact herr (by decide) _
  · exact herr (by decide) _
  · cases eb with
    | none => exact herr (by decide) _
    | some content =>
      dsimp only
      split_ifs
      · exact herr (by decide) _
      · cases MemPool.slotSize ((content.length % 2 ^ 32 + entryExtraFieldsSize) % 2 ^ 32) with
        | none => exact returns_pure (.inl ⟨rfl, fun res he => by cases he⟩)
        | some capacity =>
          dsimp only
          split_ifs
          · exact returns_pure (.inl ⟨rfl, fun res he => by cases he⟩)
          · intro d fs
            exact .inr (appendRecord_counter
              { w with currentEntryIdx := (w.currentEntryIdx + 1) % 2 ^ 64 } _ _ d fs)

theorem truncateEnd_counter (w : LogCleanWal) (maxTruncateSegId : ℕ) (r : Except WalResult ℕ) :
    Returns (truncateEnd w maxTruncateSegId r) (CounterIs w.currentEntryIdx) := by
  cases r with
  | error rs => exact returns_pure rfl
  | ok maxCleanEntryId =>
    unfold truncateEnd
    dsimp only
    split_ifs
    · exact returns_pure rfl
    · unfold truncateCleaned
      split_ifs
      · exact returns_pure rfl
      · refine (returns_true _).bind fun rs _ => ?_
        split_ifs
        · exact returns_pure rfl
        · exact (returns_true _).bind fun rs _ => returns_pure rfl

theorem truncate_counter (w : LogCleanWal) (id : ℕ) :
    Returns (truncate w id) (CounterIs w.currentEntryIdx) := by
  unfold truncate
  split_ifs
  · exact returns_pure rfl
  · exact returns_pure rfl
  · cases w.mpEntriesIdSegId id with
    | none => exact returns_pure rfl
    | some segId =>
      refine (returns_true _).bind fun rs _ => ?_
      split_ifs
      · exact returns_pure rfl
      · refine (returns_true _).bind fun r _ => ?_
        cases r with
        | error e => exact returns_pure rfl
        | ok nextSeg => exact (returns_true _).bind fun r _ => truncateEnd_counter w _ r

end FlyingKV.Wal
