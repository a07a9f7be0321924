import FlyingKV.CheckpointRecovery

set_option autoImplicit false

/-!
# Crashes while a checkpoint is replaced

The child of `Save` and every later `Init` may stop after any of their mutations.
Whatever they leave is recoverable to the old or to the new snapshot, or stuck.
-/
namespace FlyingKV.Checkpoint
open ByteOrder CommonUtils DecimalText FileDir DiskProgram FileUtils FramedStream CrashTriple

/-- `Init` and `Load` of a fresh object: the id and the entries when both return OK. -/
def initLoad (judge : Judge) (errno : ℕ) (conf : EntryOrderCheckpointConfig) :
    Program CpDir (Option (ℕ × List Bytes)) := do
  let (c, rs) ← init (create conf)
  if rs.rc ≠ .OK then return none
  else
    let r ← load judge errno c
    match r.result with
    | .crashed _ => return none
    | .returned rs => return if rs.rc = .OK then some (rs.maxId, r.batches.flatten) else none

/-- The entries that reach the new file: all up to the first that `Encode` refuses. -/
def encoded : List (Option Bytes) → List Bytes
  | some content :: rest => content :: encoded rest
  | _ => []

/-- The snapshot that the child is writing. -/
def Traveller.snapshot (t : Traveller) (version : UInt8) : Snapshot :=
  ⟨t.maxId, version, encoded t.entries⟩

section Child
variable {d : CpDir} {p : Snapshot} {version : UInt8}
variable {P : CpDir → Prop} {n : CpFile}

theorem init_safe {R : CheckpointResult → CpDir → Prop} (c : EntryOrderCheckpoint) (h : Safe checkAndRecover d P R) :
    Safe (init c) d P (fun r e => r.1 = { c with bInited := true } ∧ R r.2 e) :=
  Safe.syscall_bind (Safe.bind h fun _ _ he => Safe.pure ⟨rfl, he⟩)

theorem cpRecord_eq (content : Bytes) (pos : ℕ) :
    cpRecord version content (pos % 2 ^ 32) = (Frame.mk [version] content).bytes pos := by
  rw [cpRecord, Frame.bytes, writeUInt32, writeUInt32, show (2 : ℕ) ^ 32 = 256 ^ 4 by norm_num,
    writeBE_mod]

/-- The predicate does not look at the files in `ns`. -/
def Ignores (P : CpDir → Prop) (ns : List CpFile) : Prop :=
  ∀ d e, (∀ m, m ∉ ns → e.get m = d.get m) → P d → P e

theorem Ignores.mono {ns ms : List CpFile} (h : Ignores P ns) (hm : ms ⊆ ns) :
    Ignores P ms := fun d e he => h d e fun m hn => he m fun hm' => hn (hm hm')

theorem settled_ignores (p : Snapshot) :
    Ignores (Settled · p) [.lock, .startFlag, .newCpMeta, .newCp] :=
  fun _ _ he h => h.frame ((he _ (by decide)).trans h.flag) (he _ (by decide)) (he _ (by decide))

theorem recoverable_ignores (p : Snapshot) : Ignores (Recoverable · p) [.lock] :=
  fun d e he h => h.imp ((settled_ignores p).mono (by simp) d e he)
    fun h => h.frame (he _ (by decide)) (he _ (by decide)) (he _ (by decide))

theorem stuck_ignores : Ignores Stuck [.lock] :=
  fun _ _ he h => h.frame (he _ (by decide)) (he _ (by decide))

theorem create_safe (data : Bytes) (hP : Ignores P [n]) (h : P d) :
    Safe (allOf [openTrunc n, do return (← writeFully ⟨n, 0⟩ data).2]) d P
      (fun rs e => rs = .ok ∧ P e ∧ ∀ m, e.get m = if m = n then some data else d.get m) := by
  have hk {d' e : CpDir} {bs : Bytes} (h' : P d')
      (he : ∀ m, e.get m = if m = n then some bs else d'.get m) : P e :=
    hP d' e (fun m hm => by rw [he, if_neg (by simpa using hm)]) h'
  refine allOf_cons (R := fun e => P e ∧ ∀ m, e.get m = if m = n then some [] else d.get m)
    (Safe.openTrunc n fun e he => ⟨hk h he, rfl, hk h he, he⟩) fun e he => ?_
  obtain ⟨hs, hget⟩ := he
  have hn : e.get n = some [] := by rw [hget, if_pos rfl]
  refine allOf_cons (R := fun e' => P e' ∧ ∀ m, e'.get m = if m = n then some data else d.get m)
    ?_ fun e he => allOf_nil ⟨rfl, he⟩
  refine Safe.bind (Q := fun r e' => r.2 = none ∧ P e' ∧
      ∀ m, e'.get m = if m = n then some data else d.get m)
    (Safe.append n data hn fun e' he' => ?_) ?_
  · refine ⟨hk hs he', rfl, hk hs he', fun m => ?_⟩
    rw [he', hget]
    split_ifs <;> rfl
  · rintro r e' ⟨hr, he'⟩
    exact Safe.pure ⟨hr, he'⟩

theorem initNewCheckpoint_safe (hP : Ignores P [.startFlag, .newCpMeta, .newCp]) (id : ℕ) (h : P d) :
    Safe (initNewCheckpoint id) d P (fun rs e => rs = .ok ∧ P e ∧
      e.get .newCpMeta = some (CommonUtils.toString id) ∧ e.get .newCp = some (writeUInt32 magicNo)) := by
  refine Safe.bind (Q := fun r e => r = none ∧ P e) (Safe.openCreate _ fun e he => ?_) ?_
  · have hs : P e := hP d e (fun m hm => by rw [he, if_neg fun h => hm (by simp [h])]) h
    exact ⟨hs, rfl, hs⟩
  rintro r e ⟨rfl, he⟩
  refine Safe.bind (create_safe _ (hP.mono (by simp)) he) ?_
  rintro rs e' ⟨rfl, he', hget'⟩
  refine (create_safe _ (hP.mono (by simp)) he').imp (fun _ h => h) ?_
  rintro rs e'' ⟨rfl, he'', hget''⟩
  exact ⟨rfl, he'', (hget'' _).trans (hget' _), hget'' _⟩

/-- The pool has no room only for an entry close to the 32-bit limit. -/
theorem lt_of_no_block {c : Bytes} (hno : ∀ cap,
      MemPool.slotSize ((c.length + entryExtraFieldsSize) % 2 ^ 32) = some cap → cap < c.length + entryExtraFieldsSize) :
    2 ^ 32 - 4096 < c.length + entryExtraFieldsSize := by
  refine lt_of_not_ge fun hle => ?_
  obtain ⟨cap, hslot, hcap⟩ := MemPool.slotSize_of_le (by simp [entryExtraFieldsSize]) hle
  rw [Nat.mod_eq_of_lt (by omega)] at hno
  exact absurd (hno cap hslot) (by omega)

/-- The loop extends the new file by one record for each entry and touches nothing else; only an
entry close to the 32-bit limit stops it. -/
theorem saveEntries_safe (hP : Ignores P [.newCp]) (entries : List (Option Bytes))
    (hlen : ∀ c ∈ encoded entries, c.length < 2 ^ 32) (content : Bytes) (h : P d) (hcp : d.get .newCp = some content) :
    Safe (saveEntries version ⟨.newCp, content.length⟩ (content.length % 2 ^ 32) entries) d P
      (fun r e => P e ∧ match r with
        | .crashed _ => ∃ c ∈ encoded entries, 2 ^ 32 - 4096 < c.length + entryExtraFieldsSize
        | .returned _ => e.get .newCp = some
          (content ++ streamBytes content.length ((encoded entries).map (Frame.mk [version])))) := by
  induction entries generalizing d content with
  | nil =>
    exact Safe.syscall_bind (Safe.pure ⟨h, by simpa [encoded, streamBytes] using hcp⟩)
  | cons entry rest ih =>
    cases entry with
    | none => exact Safe.pure ⟨h, by simpa [encoded, streamBytes] using hcp⟩
    | some c =>
      have hc : c.length < 2 ^ 32 := hlen c (by simp [encoded])
      simp only [saveEntries, Nat.mod_eq_of_lt hc, List.take_length]
      have hmem : c ∈ encoded (some c :: rest) := by simp [encoded]
      cases hslot : MemPool.slotSize ((c.length + entryExtraFieldsSize) % 2 ^ 32) with
      | none => exact Safe.pure ⟨h, c, hmem, lt_of_no_block fun cap hcap => by cases hslot.symm.trans hcap⟩
      | some capacity =>
        simp only
        split_ifs with hcap
        · refine Safe.pure ⟨h, c, hmem, lt_of_no_block fun cap hc' => ?_⟩
          rwa [← Option.some.inj (hslot.symm.trans hc')]
        rw [cpRecord_eq]
        refine Safe.bind (Q := fun r e => r = (⟨.newCp, content.length + (c.length + 9)⟩, none) ∧
            P e ∧ e.get .newCp = some (content ++ (Frame.mk [version] c).bytes content.length))
          (Safe.append _ _ hcp fun e he => ?_) ?_
        · have hs : P e := hP d e (fun m hm => by rw [he, if_neg (by simpa using hm)]) h
          refine ⟨hs, ?_, hs, he _⟩
          rw [Frame.length_bytes, size_frame]
          rfl
        · rintro r e ⟨rfl, he, hcp'⟩
          have hsize : (content ++ (Frame.mk [version] c).bytes content.length).length =
              content.length + (c.length + 9) := by
            rw [List.length_append, Frame.length_bytes, size_frame]
            rfl
          have hnext := ih (fun b hb => hlen b (by simp [encoded, hb])) _ he hcp'
          rw [hsize] at hnext
          have hoff : (content.length % 2 ^ 32 + (c.length + entryExtraFieldsSize) % 2 ^ 32) % 2 ^ 32 =
              (content.length + (c.length + 9)) % 2 ^ 32 := by
            rw [entryExtraFieldsSize, ← Nat.add_mod]
          simp only [hoff]
          refine hnext.imp (fun _ h => h) fun r e => ?_
          rintro ⟨he, hr⟩
          refine ⟨he, ?_⟩
          cases r with
          | crashed why =>
            obtain ⟨c', hc', hlt⟩ := hr
            exact ⟨c', by simp [encoded, hc'], hlt⟩
          | returned rs =>
            have hframe : (Frame.mk [version] c).size = c.length + 9 := size_frame version c
            simpa only [encoded, List.map_cons, streamBytes, hframe, List.append_assoc] using hr

theorem saveNewCheckpoint_safe (hP : Ignores P [.newCp]) (t : Traveller)
    (hlen : ∀ c ∈ encoded t.entries, c.length < 2 ^ 32) (h : P d) (hcp : d.get .newCp = some (writeUInt32 magicNo)) :
    Safe (saveNewCheckpoint version t.entries) d P (fun r e => P e ∧ match r with
      | .crashed _ => ∃ c ∈ encoded t.entries, 2 ^ 32 - 4096 < c.length + entryExtraFieldsSize
      | .returned _ => e.get .newCp = some (t.snapshot version).bytes) :=
  Safe.syscall_bind (saveEntries_safe hP t.entries hlen _ h hcp)

theorem leaves_allOf {ms : List (Program CpDir (Option String))} (h : ∀ m ∈ ms, Leaves m n) :
    Leaves (allOf ms) n := by
  induction ms with
  | nil => exact Leaves.pure _ n
  | cons m ms ih =>
    refine Leaves.bind (h m List.mem_cons_self) fun r => ?_
    cases r with
    | some e => exact Leaves.pure _ n
    | none => exact ih fun m' hm' => h m' (List.mem_cons_of_mem _ hm')

/-- The flags of a running `Save` are not among the files that are replaced. -/
theorem leaves_replaceOldCheckpoint (h : n = .lock ∨ n = .startFlag) : Leaves replaceOldCheckpoint n := by
  refine leaves_allOf fun m hm => ?_
  simp only [List.mem_cons, List.not_mem_nil, or_false] at hm
  rcases h with rfl | rfl <;> rcases hm with rfl | rfl | rfl | rfl <;>
    first | exact Leaves.unlink (by decide) | exact Leaves.renameFile (by decide) (by decide)

theorem commitInChild_safe {new : Snapshot} (h : new.At d .newCpMeta .newCp) (hpos : 0 < new.id) :
    Safe commitInChild d (fun e => Recoverable e new ∨ Stuck e)
      (fun _ e => Settled e new ∧ isCompleted e = true) := by
  have hflag : Safe createOkFlag d (Recoverable · new) (fun rs e => rs = .ok ∧ Committed e new) := by
    refine allOf_cons (R := (Committed · new)) (Safe.openTrunc _ fun e he => ?_) fun e he => ?_
    · have hc : Committed e new :=
        ⟨by rw [he]; simp, hpos, (he _).trans h.1, (he _).trans h.2⟩
      exact ⟨.inr hc, rfl, hc⟩
    · exact allOf_cons (R := (Committed · new)) (Safe.syscall ⟨rfl, he⟩)
        fun e he => allOf_nil ⟨rfl, he⟩
  refine Safe.bind (hflag.imp (fun _ => .inl) fun _ _ h => h) ?_
  rintro rs e ⟨rfl, he⟩
  have hunlock : Safe (allOf [syscall, unlink .lock, unlink .startFlag]) e (Recoverable · new)
      (fun rs e => rs = .ok ∧ Committed e new ∧ e.get .lock = none ∧ e.get .startFlag = none) := by
    refine allOf_cons (R := (Committed · new)) (Safe.syscall ⟨rfl, he⟩) fun d hd => ?_
    refine allOf_cons (R := fun e => Committed e new ∧ e.get .lock = none)
      (Safe.unlink _ fun e he => ?_) fun d hd => ?_
    · have hc : Committed e new := hd.frame (he _) (he _) (he _)
      exact ⟨.inr hc, rfl, hc, he _⟩
    refine allOf_cons (R := fun e => Committed e new ∧ e.get .lock = none ∧ e.get .startFlag = none)
      (Safe.unlink _ fun e he => ?_) fun d hd => allOf_nil ⟨rfl, hd⟩
    have hc : Committed e new := hd.1.frame (he _) (he _) (he _)
    exact ⟨.inr hc, rfl, hc, (he _).trans hd.2, he _⟩
  refine Safe.bind (hunlock.imp (fun _ => .inl) fun _ _ h => h) ?_
  rintro rs e ⟨rfl, he, hlock, hstart⟩
  refine Safe.bind ((((replaceOldCheckpoint_committed he).leaves
    (leaves_replaceOldCheckpoint (.inl rfl))).leaves (leaves_replaceOldCheckpoint (.inr rfl))).imp
    (fun e he => he.imp_left .inr) fun _ _ h => h) ?_
  rintro rs e ⟨⟨⟨rfl, -, hh⟩, hlock'⟩, hstart'⟩
  refine Safe.bind ((((unlink_saveOk hh).leaves (n := .lock) (Leaves.unlink (by decide))).leaves
    (n := .startFlag) (Leaves.unlink (by decide))).imp (fun e he => .inl (.inl he)) fun _ _ h => h) ?_
  rintro r e ⟨⟨⟨rfl, he⟩, hlock''⟩, hstart''⟩
  refine Safe.pure ⟨he, ?_⟩
  simp only [isCompleted, not_exist_of_get (hlock''.trans (hlock'.trans hlock)),
    not_exist_of_get (hstart''.trans (hstart'.trans hstart)), not_exist_of_get he.flag]
  rfl

/-- Every directory the child can leave behind. -/
def Between (old new : Snapshot) (e : CpDir) : Prop :=
  Recoverable e old ∨ Recoverable e new ∨ Stuck e

theorem checkAndRecover_recoverable (h : Recoverable d p) :
    Safe checkAndRecover d (fun e => Recoverable e p ∨ Stuck e)
      (fun rs e => rs = .ok ∧ Settled e p) := by
  rcases h with h | h
  · exact (checkAndRecover_settled h).imp (fun e he => .inl (.inl he)) fun _ _ h => h
  · exact checkAndRecover_committed h

theorem leaves_checkAndRecover : Leaves checkAndRecover .lock := by
  refine Leaves.bind (Leaves.peek _ _) fun b => ?_
  cases b with
  | true => exact Leaves.pure _ _
  | false =>
    refine Leaves.bind (Leaves.peek _ _) fun b => ?_
    cases b with
    | true =>
      refine Leaves.bind (leaves_replaceOldCheckpoint (.inl rfl)) fun rs => ?_
      split_ifs
      · exact Leaves.pure _ _
      · exact Leaves.bind (Leaves.unlink (by decide)) fun _ => Leaves.pure _ _
    | false =>
      refine leaves_allOf fun m hm => ?_
      simp only [List.mem_cons, List.not_mem_nil, or_false] at hm
      rcases hm with rfl | rfl | rfl | rfl <;> exact Leaves.unlink (by decide)

theorem leaves_create {k : CpFile} (data : Bytes) (hn : k ≠ n) :
    Leaves (allOf [openTrunc n, do return (← writeFully ⟨n, 0⟩ data).2]) k := by
  refine leaves_allOf fun m hm => ?_
  simp only [List.mem_cons, List.not_mem_nil, or_false] at hm
  rcases hm with rfl | rfl
  · exact Leaves.openTrunc hn
  · exact Leaves.bind (Leaves.writeFully hn data) fun _ => Leaves.pure _ _

theorem leaves_initNewCheckpoint (id : ℕ) (h₁ : n ≠ .startFlag) (h₂ : n ≠ .newCpMeta) (h₃ : n ≠ .newCp) :
    Leaves (initNewCheckpoint id) n := by
  refine Leaves.bind (Leaves.openCreate h₁) fun r => ?_
  cases r with
  | some e => exact Leaves.pure _ _
  | none =>
    refine Leaves.bind (leaves_create _ h₂) fun rs => ?_
    split_ifs
    · exact Leaves.pure _ _
    · exact leaves_create _ h₃

theorem leaves_saveEntries (version : UInt8) (entries : List (Option Bytes)) (fd : Fd CpFile) (hfd : fd.file = .newCp)
    (offset : ℕ) (hn : n ≠ .newCp) : Leaves (saveEntries version fd offset entries) n := by
  induction entries generalizing fd offset with
  | nil =>
    refine Leaves.bind (Leaves.syscall _) fun r => ?_
    cases r <;> exact Leaves.pure _ _
  | cons entry rest ih =>
    cases entry with
    | none => exact Leaves.pure _ _
    | some content =>
      simp only [saveEntries]
      split
      · exact Leaves.pure _ _
      · split_ifs
        · exact Leaves.pure _ _
        intro d fs
        -- the descriptor that comes back is still one of the new file
        have hne : n ≠ fd.file := by rwa [hfd]
        have hw := Leaves.writeFully hne
          (cpRecord version (content.take (content.length % 2 ^ 32)) offset) d fs
        have hfd' : ((writeFully fd
            (cpRecord version (content.take (content.length % 2 ^ 32)) offset)) d fs).value.1.file =
            .newCp := hfd
        rw [bind_run]
        generalize writeFully fd (cpRecord version (content.take (content.length % 2 ^ 32)) offset) d fs = o
          at hw hfd' ⊢
        obtain ⟨images, e, fs', fd', err⟩ := o
        cases err with
        | some msg => exact hw
        | none => exact (ih fd' hfd' _ e fs').trans hw

theorem leaves_saveNewCheckpoint (version : UInt8) (entries : List (Option Bytes)) (hn : n ≠ .newCp) :
    Leaves (saveNewCheckpoint version entries) n := by
  refine Leaves.bind (Leaves.syscall _) fun r => ?_
  cases r with
  | some e => exact Leaves.pure _ _
  | none => exact leaves_saveEntries version entries _ rfl _ hn

/-- The child keeps what its recovery gives until the new files are complete. -/
theorem saveInChild_safe {R : CpDir → Prop} (hR : Ignores R [.startFlag, .newCpMeta, .newCp])
    (hRP : ∀ e, R e → P e) (t : Traveller)
    (hnew : ∀ e, Recoverable e (t.snapshot version) ∨ Stuck e → P e)
    (hrec : Safe checkAndRecover d P (fun rs e => rs = .ok ∧ R e))
    (hlen : ∀ c ∈ encoded t.entries, c.length < 2 ^ 32) (hpos : 0 < t.maxId) :
    Safe (saveInChild version t) d P (fun _ e => (R e ∧ e.get .lock = d.get .lock) ∨
      (Settled e (t.snapshot version) ∧ isCompleted e = true)) := by
  refine Safe.bind (hrec.leaves leaves_checkAndRecover) ?_
  rintro rs e₁ ⟨⟨rfl, he⟩, hlock₁⟩
  refine Safe.bind (((initNewCheckpoint_safe hR t.maxId he).leaves
    (leaves_initNewCheckpoint (n := .lock) _ (by decide) (by decide) (by decide))).imp hRP
    fun _ _ h => h) ?_
  rintro rs e₂ ⟨⟨rfl, he, hmeta, hcp⟩, hlock₂⟩
  refine Safe.bind ((((saveNewCheckpoint_safe (hR.mono (by simp)) t hlen he hcp).leaves (n := .lock)
    (leaves_saveNewCheckpoint _ _ (by decide))).leaves (n := .newCpMeta)
    (leaves_saveNewCheckpoint _ _ (by decide))).imp hRP fun _ _ h => h) ?_
  rintro r e ⟨⟨⟨he, hr⟩, hlock₃⟩, hmeta₃⟩
  cases r with
  | crashed why => exact Safe.pure (.inl ⟨he, hlock₃.trans (hlock₂.trans hlock₁)⟩)
  | returned rs =>
    exact (commitInChild_safe ⟨hmeta₃.trans hmeta, hr⟩ hpos).imp hnew fun _ _ h => .inr h

theorem saveInChild_recoverable (h : Recoverable d p) (t : Traveller)
    (hlen : ∀ c ∈ encoded t.entries, c.length < 2 ^ 32) (hpos : 0 < t.maxId) :
    Safe (saveInChild version t) d (Between p (t.snapshot version))
      (fun _ e => (Settled e p ∧ e.get .lock = d.get .lock) ∨
        (Settled e (t.snapshot version) ∧ isCompleted e = true)) :=
  saveInChild_safe ((settled_ignores p).mono (by simp)) (fun _ he => .inl (.inl he)) t
    (fun _ he => .inr he)
    ((checkAndRecover_recoverable h).imp (fun _ he => he.imp_right .inr) fun _ _ h => h) hlen hpos

theorem lock_safe (hP : Ignores P [.lock]) (h : P d) :
    Safe (allOf [openCreate .lock, syscall]) d P
      (fun rs e => rs = .ok ∧ P e ∧ e.get .lock ≠ none) := by
  refine allOf_cons (R := fun e => P e ∧ e.get .lock ≠ none) (Safe.openCreate _ fun e he => ?_)
    fun e he => allOf_cons (R := fun e => P e ∧ e.get .lock ≠ none) (Safe.syscall ⟨rfl, he⟩)
      fun e he => allOf_nil ⟨rfl, he⟩
  have hs : P e := hP d e (fun m hm => by rw [he, if_neg (by simpa using hm)]) h
  exact ⟨hs, rfl, hs, by rw [he]; simp⟩

theorem unlock_safe (hP : Ignores P [.lock]) (h : P d) :
    Safe (allOf [syscall, unlink .lock]) d P (fun _ e => P e) := by
  refine allOf_cons (R := P) (Safe.syscall ⟨rfl, h⟩) fun d h => ?_
  refine allOf_cons (R := P) (unlink_keeps _ fun e he => ?_) fun d hd => allOf_nil hd
  exact hP d e (fun m hm => by rw [he, if_neg (by simpa using hm)]) h

/-- Before `saveInChild` only the lock file changes. -/
theorem doSaveInChild_safe {R : CpDir → Prop} {Q : Unit → CpDir → Prop} (hR : Ignores R [.lock])
    (hRP : ∀ e, R e → P e) (hRQ : ∀ e, R e → Q () e) (h : R d) (errno : ℕ) (t : Traveller)
    (hsave : ∀ e, R e → 0 < t.maxId → Safe (saveInChild version t) e P Q) :
    Safe (doSaveInChild errno version t) d P Q := by
  refine Safe.bind ((lock_safe hR h).imp hRP fun _ _ h => h) ?_
  rintro rs e ⟨rfl, he, -⟩
  refine Safe.peek_bind rfl ?_
  cases loadMeta errno e with
  | error rs => exact Safe.pure (hRQ _ he)
  | ok entryId =>
    simp only
    split_ifs with hid
    · exact Safe.bind ((unlock_safe hR he).imp hRP fun _ _ h => h)
        fun _ e he => Safe.pure (hRQ e he)
    · exact hsave e he (by omega)

theorem doSaveInChild_recoverable (h : Recoverable d p) (errno : ℕ) (t : Traveller)
    (hlen : ∀ c ∈ encoded t.entries, c.length < 2 ^ 32) :
    Safe (doSaveInChild errno version t) d (Between p (t.snapshot version))
      (fun _ e => Recoverable e p ∨ Recoverable e (t.snapshot version)) :=
  doSaveInChild_safe (recoverable_ignores p) (fun _ => .inl) (fun _ => .inl) h errno t
    fun _ he hpos => (saveInChild_recoverable he t hlen hpos).imp (fun _ h => h)
      fun _ _ h => h.imp (fun h => .inl h.1) fun h => .inl h.1

theorem doSaveInChild_stuck (h : Stuck d) (errno : ℕ) (t : Traveller) :
    Safe (doSaveInChild errno version t) d Stuck (fun _ e => Stuck e) := by
  refine doSaveInChild_safe stuck_ignores (fun _ h => h) (fun _ h => h) h errno t fun e he _ => ?_
  refine Safe.bind (checkAndRecover_stuck he) ?_
  rintro rs e ⟨rfl, he⟩
  exact Safe.pure he

end Child

/-! ## Init and Load after a crash -/

section Reload
variable {judge : Judge} {conf : EntryOrderCheckpointConfig} {d : CpDir} {p : Snapshot}

theorem initLoad_recoverable (h : Recoverable d p) (hp : Loadable judge conf p) (errno : ℕ) :
    (initLoad judge errno conf d []).value = some p.pair := by
  obtain ⟨-, ⟨hobj, hrs, hd⟩, hfaults⟩ := init_safe (create conf) (checkAndRecover_recoverable h)
  obtain ⟨batches, hflat, hload⟩ :=
    load_settled hd.holds hp errno { create conf with bInited := true } rfl rfl
  simp only [initLoad, bind_run, hfaults, hrs, CheckpointResult.ok, ne_eq, not_true_eq_false, if_false,
    hobj, hload, pure_run, if_true, hflat, Snapshot.pair]

theorem initLoad_stuck (h : Stuck d) (errno : ℕ) : (initLoad judge errno conf d []).value = none := by
  obtain ⟨-, ⟨-, hrs, -⟩, hfaults⟩ := init_safe (create conf) (checkAndRecover_stuck h)
  have hrc : (fileSystemError ENOENT).rc ≠ .OK := by decide
  simp only [initLoad, bind_run, hrs, if_pos hrc, pure_run]

theorem crash_init (conf : EntryOrderCheckpointConfig) {old new : Snapshot} (h : Between old new d)
    (q : ℕ) : Between old new (crashAt (init (create conf)) d q) := by
  have hrec (p : Snapshot) (hp : Recoverable d p) :
      Recoverable (crashAt (init (create conf)) d q) p ∨ Stuck (crashAt (init (create conf)) d q) :=
    (init_safe (create conf) (checkAndRecover_recoverable hp)).crashAt (.inl hp)
      (fun _ _ h => .inl (.inl h.2.2)) q
  rcases h with h | h | h
  · exact (hrec old h).imp_right .inr
  · exact .inr (hrec new h)
  · exact .inr (.inr ((init_safe (create conf) (checkAndRecover_stuck h)).crashAt h
      (fun _ _ h => h.2.2) q))

end Reload

/-! ## Histories -/

/-- A `Save`, or the `Init` of a new process, stopped after `q` mutations; a `q` past the last one
is a run to the end. -/
inductive CpEvent where
  | save (errno : ℕ) (version : UInt8) (traveller : Traveller) (q : ℕ)
  | init (conf : EntryOrderCheckpointConfig) (q : ℕ)

def cpStep (d : CpDir) : CpEvent → CpDir
  | .save errno version traveller q => crashAt (doSaveInChild errno version traveller) d q
  | .init conf q => crashAt (init (create conf)) d q

/-- The directory after a history that began with an empty one. -/
def cpHistory (es : List CpEvent) : CpDir := es.foldl cpStep Dir.empty

/-- Each snapshot that is saved can be read back under the configuration. -/
def CpEvent.Admits (judge : Judge) (conf : EntryOrderCheckpointConfig) : CpEvent → Prop
  | .save _ version traveller _ => Loadable judge conf (traveller.snapshot version)
  | .init _ _ => True

/-- The directory after any number of `Init`s that are stopped. -/
def crashedInits (conf : EntryOrderCheckpointConfig) (d : CpDir) (qs : List ℕ) : CpDir :=
  qs.foldl (fun d q => crashAt (init (create conf)) d q) d

section History
variable {judge : Judge} {conf : EntryOrderCheckpointConfig}

theorem Loadable.length_lt {p : Snapshot} (h : Loadable judge conf p) :
    ∀ c ∈ p.entries, c.length < 2 ^ 32 := fun c hc => by
  have := h.small c hc
  omega

/-- A directory with one loadable snapshot in it, or a stuck one. -/
def Sane (judge : Judge) (conf : EntryOrderCheckpointConfig) (d : CpDir) : Prop :=
  (∃ p, Recoverable d p ∧ Loadable judge conf p) ∨ Stuck d

theorem sane_of_between {old new : Snapshot} {d : CpDir} (h : Between old new d)
    (hold : Loadable judge conf old) (hnew : Loadable judge conf new) : Sane judge conf d := by
  rcases h with h | h | h
  · exact .inl ⟨old, h, hold⟩
  · exact .inl ⟨new, h, hnew⟩
  · exact .inr h

theorem crash_save {d : CpDir} {p : Snapshot} (h : Recoverable d p) (errno : ℕ) (version : UInt8)
    (t : Traveller) (ht : Loadable judge conf (t.snapshot version)) (q : ℕ) :
    Between p (t.snapshot version) (crashAt (doSaveInChild errno version t) d q) :=
  (doSaveInChild_recoverable h errno t ht.length_lt).crashAt (.inl h)
    (fun _ _ h => h.imp_right .inl) q

theorem sane_step {d : CpDir} (h : Sane judge conf d) (e : CpEvent) (he : e.Admits judge conf) :
    Sane judge conf (cpStep d e) := by
  rcases h with ⟨p, hp, hload⟩ | h
  · cases e with
    | save errno version t q => exact sane_of_between (crash_save hp errno version t he q) hload he
    | init conf' q => exact sane_of_between (crash_init conf' (.inl hp : Between p p d) q) hload hload
  · cases e with
    | save errno version t q =>
      exact .inr ((doSaveInChild_stuck h errno t).crashAt h (fun _ _ h => h) q)
    | init conf' q =>
      exact .inr ((init_safe (create conf') (checkAndRecover_stuck h)).crashAt h (fun _ _ h => h.2.2) q)

theorem sane_history (es : List CpEvent) (hes : ∀ e ∈ es, e.Admits judge conf) :
    Sane judge conf (cpHistory es) := by
  have hempty : Sane judge conf Dir.empty :=
    .inl ⟨⟨0, 0, []⟩, .inl ⟨rfl, .inl ⟨rfl, rfl, rfl⟩⟩, by decide, by simp, by simp, by simp, by simp⟩
  unfold cpHistory
  generalize (Dir.empty : CpDir) = d at hempty
  induction es generalizing d with
  | nil => exact hempty
  | cons e es ih =>
    exact ih (fun e' he' => hes e' (List.mem_cons_of_mem _ he')) _
      (sane_step hempty e (hes e List.mem_cons_self))

variable (conf) in
theorem crash_inits {old new : Snapshot} {d : CpDir} (h : Between old new d) (qs : List ℕ) :
    Between old new (crashedInits conf d qs) := by
  induction qs generalizing d with
  | nil => exact h
  | cons q qs ih => exact ih (crash_init conf h q)

/-- What a crash of `Save` and any number of crashes of later `Init`s leave. -/
def crashedSave (conf : EntryOrderCheckpointConfig) (errno : ℕ) (version : UInt8) (t : Traveller)
    (d : CpDir) (q : ℕ) (qs : List ℕ) : CpDir :=
  crashedInits conf (crashAt (doSaveInChild errno version t) d q) qs

/-- The next `Init` and `Load` work and give exactly what was there or exactly what was being
saved, if and only if the crashes did not leave `smcp.ok` without `.meta.new`. -/
theorem save_crash_atomic_iff (es : List CpEvent) (hes : ∀ e ∈ es, e.Admits judge conf)
    (errno : ℕ) {old : ℕ × List Bytes}
    (hold : (initLoad judge errno conf (cpHistory es) []).value = some old)
    (errnoSave : ℕ) (version : UInt8) (t : Traveller)
    (ht : Loadable judge conf (t.snapshot version)) (q : ℕ) (qs : List ℕ) (errnoLoad : ℕ) :
    (initLoad judge errnoLoad conf
        (crashedSave conf errnoSave version t (cpHistory es) q qs) []).value ∈
          [some old, some (t.maxId, encoded t.entries)] ↔
      ¬ ((crashedSave conf errnoSave version t (cpHistory es) q qs).exist .saveOk = true ∧
        (crashedSave conf errnoSave version t (cpHistory es) q qs).exist .newCpMeta = false) := by
  rcases sane_history es hes with ⟨p, hp, hload⟩ | hstuck
  · -- The snapshot of the directory is what `Init` and `Load` were seen to give.
    rw [initLoad_recoverable hp hload, Option.some.injEq] at hold
    have hb : Between p (t.snapshot version)
        (crashedSave conf errnoSave version t (cpHistory es) q qs) :=
      crash_inits conf (crash_save hp errnoSave version t ht q) qs
    generalize crashedSave conf errnoSave version t (cpHistory es) q qs = e at hb ⊢
    have hstuck : (e.exist .saveOk = true ∧ e.exist .newCpMeta = false) ↔ Stuck e := by
      rw [exist_iff, ← Bool.not_eq_true, exist_iff, not_not, Stuck]
    rw [hstuck, List.mem_pair]
    constructor
    · intro h hs
      rw [initLoad_stuck hs] at h
      simp at h
    · intro hs
      rcases hb with h | h | h
      · exact .inl ((initLoad_recoverable h hload errnoLoad).trans (congrArg some hold))
      · exact .inr (initLoad_recoverable h ht errnoLoad)
      · exact absurd h hs
  · rw [initLoad_stuck hstuck] at hold
    simp at hold

end History

theorem loadable_of_le {judge : Judge} {conf : EntryOrderCheckpointConfig} {p : Snapshot}
    (hid : p.id < ulongMax) (hacc : ∀ c ∈ p.entries, judge c = .accepted)
    (hb : 0 < conf.batchReadSize) (hb' : conf.batchReadSize ≤ 2 ^ 32 - 4096)
    (hsize : ∀ c ∈ p.entries,
      conf.batchReadSize + (c.length + entryExtraFieldsSize) ≤ 2 ^ 32 - 4096) :
    Loadable judge conf p where
  id_lt := hid
  accepted := hacc
  small c hc := by
    have := hsize c hc
    omega
  batch_pos _ := hb
  fits _ := by
    refine fits_of_size_le (2 ^ 32 - 4096 - conf.batchReadSize) ?_ ?_
    · intro f hf
      obtain ⟨c, hc, rfl⟩ := List.mem_map.mp hf
      have := hsize c hc
      rw [size_frame]
      omega
    · intro k hk
      rw [MemPool.allocFits_iff hb]
      omega

def smallCpConf : EntryOrderCheckpointConfig := ⟨1, 64, by decide⟩

/-- One entry under the given id. -/
def oneEntry (id : ℕ) (b : UInt8) : Traveller := ⟨id, [some [b]]⟩

theorem loadable_oneEntry {id : ℕ} (hid : id < ulongMax) (b : UInt8) :
    Loadable acceptAll smallCpConf ((oneEntry id b).snapshot 1) :=
  loadable_of_le hid (by simp) (by decide) (by decide) (by simp [oneEntry, Traveller.snapshot, encoded,
    smallCpConf, entryExtraFieldsSize])

/-- The second `Save` stops once the OK flag is set, and one `Init` after its first removal; then
the second snapshot is found. -/
theorem save_crash_atomic_twice :
    (initLoad acceptAll 0 smallCpConf (crashedSave smallCpConf 0 1 (oneEntry 5 8)
        (cpHistory [.save 0 1 (oneEntry 3 7) 20]) 8 [1, 0]) []).value ∈
      [some (3, [[7]]), some (5, [[8]])] :=
  (save_crash_atomic_iff [.save 0 1 (oneEntry 3 7) 20]
    (by simpa [CpEvent.Admits] using loadable_oneEntry (by decide) 7) 0 (by decide +kernel) 0 1
    (oneEntry 5 8) (loadable_oneEntry (by decide) 8) 8 [1, 0] 0).mpr (by decide +kernel)

/-- The first `Save` stops between the rename of the new meta file and that of the new content:
`Init` fails from then on. -/
theorem save_crash_not_atomic :
    (initLoad acceptAll 0 smallCpConf Dir.empty []).value = some (0, []) ∧
      (initLoad acceptAll 0 smallCpConf
        (crashedSave smallCpConf 0 1 (oneEntry 3 7) Dir.empty 11 []) []).value = none ∧
      (initLoad acceptAll 0 smallCpConf
        (crashedSave smallCpConf 0 1 (oneEntry 3 7) Dir.empty 11 [9, 9]) []).value = none := by
  decide +kernel

end FlyingKV.Checkpoint
