import FlyingKV.CheckpointRecovery
import FlyingKV.FramedStreamBatches
import FlyingKV.MiniKvEntries
import FlyingKV.WalTorn

set_option autoImplicit false

/-!
# `load_segment` and `Load` on any file

The two readers share the batched loop. Which files they survive, with the entry creators of
MiniKV, and that reading a segment in batches is reading it at once.
-/
namespace FlyingKV.ReadAnyFile
open ByteOrder CommonUtils FileDir DiskProgram FileUtils FramedStream

/-- A magic number and records. -/
def MagicFile (h magicNo : ℕ) (bs : Bytes) : Prop :=
  ∃ content, bs = writeUInt32 magicNo ++ content ∧ WholeRecords h 4 content

/-- What stands behind the magic number does no harm to a reader with batches of this size. The
byte behind a header, the type of an entry, is asked of every record that is all there. -/
structure Survivable (h : ℕ) (judge : Judge) (typed : Option UInt8 → Prop) (batch : ℕ) (content : Bytes) :
    Prop where
  room : ∀ j fs rest, j * batch ≤ content.length → content.take (j * batch) = streamBytes 4 fs ++ rest →
    Records h judge 4 fs → Short h rest → batch + rest.length ≤ 2 ^ 32 - 4096
  length : ∀ fs rest, content = streamBytes 4 fs ++ rest → Records h judge 4 fs →
    ¬ Overlong h (4 + streamSize fs) rest
  typed : ∀ fs rest, content = streamBytes 4 fs ++ rest → Records h judge 4 fs →
    Whole h (4 + streamSize fs) rest → typed (rest.drop h).head?
  near : ∀ fs, content = streamBytes 4 fs → Records h judge 4 fs → ∀ p ∈ starts 4 fs, p < 2 ^ 32

theorem room_iff {h : ℕ} {judge : Judge} {batch : ℕ} (hb : 0 < batch) {content : Bytes} :
    Room h judge MemPool.slotSize batch 4 content ↔
      ∀ j fs rest, j * batch ≤ content.length → content.take (j * batch) = streamBytes 4 fs ++ rest →
        Records h judge 4 fs → Short h rest → batch + rest.length ≤ 2 ^ 32 - 4096 := by
  simp only [Room, MemPool.allocFits_iff hb]

theorem magic_cases {magicNo : ℕ} (hm : magicNo < 2 ^ 32) (bs : Bytes) :
    ((bs.length < 4 ∨ readUInt32 bs ≠ magicNo) ∧ ∀ content, bs ≠ writeUInt32 magicNo ++ content) ∨
      ∃ content, bs = writeUInt32 magicNo ++ content := by
  by_cases hbad : bs.length < 4 ∨ readUInt32 bs ≠ magicNo
  · refine .inl ⟨hbad, fun content hbs => ?_⟩
    rcases hbad with hlen | hread
    · rw [hbs, List.length_append, length_writeBE] at hlen
      omega
    · rw [hbs] at hread
      exact hread (readUInt32_append hm content)
  · rw [not_or, not_not, not_lt] at hbad
    refine .inr ⟨bs.drop 4, ?_⟩
    rw [← hbad.2, writeUInt32, readUInt32, writeBE_fieldBE hbad.1, List.take_append_drop]

theorem eq_of_endsProcess {why : Stop} (h : why.endsProcess = false) :
    why = .corrupt ∨ why = .decodeError ∨ ∃ errmsg, why = .readError errmsg := by
  cases why with
  | corrupt => exact .inl rfl
  | decodeError => exact .inr (.inl rfl)
  | readError errmsg => exact .inr (.inr ⟨errmsg, rfl⟩)
  | nullEntry => cases h
  | outOfBounds => cases h
  | badAlloc => cases h
  | diverges => cases h

/-- How a call reports the end of its loop: some stops end the process, the others are errors. -/
structure Reports {α : Type} (result : Option Stop → Ended α) (ok : α → Prop) : Prop where
  done : ∃ r, result none = .returned r ∧ ok r
  crashed : ∀ why, why.endsProcess = true → result (some why) = .crashed why
  error : ∀ why, why.endsProcess = false → ∃ r, result (some why) = .returned r ∧ ¬ ok r

theorem Reports.returns_iff {α : Type} {result : Option Stop → Ended α} {ok : α → Prop}
    (hr : Reports result ok) (stop : Option Stop) (P : Prop) :
    (∃ r, result stop = .returned r ∧ (ok r → P)) ↔
      (∀ why ∈ stop, why.endsProcess = false) ∧ (stop = none → P) := by
  cases stop with
  | none =>
    obtain ⟨r, hresult, hok⟩ := hr.done
    rw [hresult]
    constructor
    · rintro ⟨r', heq, hP⟩
      cases heq
      exact ⟨nofun, fun _ => hP hok⟩
    · exact fun hP => ⟨r, rfl, fun _ => hP.2 rfl⟩
  | some why =>
    cases hw : why.endsProcess with
    | true =>
      rw [hr.crashed why hw]
      refine iff_of_false nofun fun hall => ?_
      exact absurd (hall.1 why rfl) (by simp [hw])
    | false =>
      obtain ⟨r, hresult, hok⟩ := hr.error why hw
      rw [hresult]
      refine iff_of_true ⟨r, rfl, fun h => absurd h hok⟩ ⟨fun why' heq => ?_, nofun⟩
      cases heq
      exact hw

section
variable {judge : Judge} {typed : Option UInt8 → Prop} {h magicNo batch : ℕ}

/-- Whether the type of a record that is all there is one the creator knows. -/
def Creates (h : ℕ) (judge : Judge) (typed : Option UInt8 → Prop) : Prop :=
  ∀ pos buf, Whole h pos buf → (typed (buf.drop h).head? ↔
    judge.at (pos % 2 ^ 32) ((buf.drop h).take (fieldBE 4 buf)) ≠ .missing)

theorem survivable_iff (hb : 0 < batch) (htyped : Creates h judge typed) (content : Bytes) :
    Survivable h judge typed batch content ↔ Harmless h judge MemPool.slotSize batch 4 content := by
  constructor
  · intro hs
    refine ⟨(room_iff hb).mpr hs.room, hs.length, fun fs rest hbytes hrecs htypeless => ?_, hs.near⟩
    exact (htyped _ _ htypeless.1).mp (hs.typed fs rest hbytes hrecs htypeless.1) htypeless.2
  · intro hs
    refine ⟨(room_iff hb).mp hs.room, hs.length, fun fs rest hbytes hrecs hwhole => ?_, hs.near⟩
    exact (htyped _ _ hwhole).mpr fun hmissing => hs.typed fs rest hbytes hrecs ⟨hwhole, hmissing⟩

theorem magicFile_iff (content : Bytes) :
    MagicFile h magicNo (writeUInt32 magicNo ++ content) ↔ WholeRecords h 4 content := by
  constructor
  · rintro ⟨content', heq, hwhole⟩
    rwa [List.append_cancel_left heq]
  · exact fun hwhole => ⟨content, rfl, hwhole⟩

theorem allocFits_lt (hb : 0 < batch) (k : ℕ) (hk : allocFits MemPool.slotSize batch k = true) :
    k + batch < 2 ^ 32 := by
  rw [MemPool.allocFits_iff hb] at hk
  omega

theorem loop_safe_iff {α : Type} {result : Option Stop → Ended α} {ok : α → Prop} (hr : Reports result ok)
    (hh : 4 ≤ h) (hh' : h + 4 ≤ 2 ^ 32) (hb : 0 < batch) (htyped : Creates h judge typed) (content : Bytes) :
    (∃ r, result (loadLoop h judge MemPool.slotSize batch (content.length + 1) 4 [] content []).stop =
          .returned r ∧ (ok r → MagicFile h magicNo (writeUInt32 magicNo ++ content))) ↔
      ∀ content', writeUInt32 magicNo ++ content = writeUInt32 magicNo ++ content' →
        Survivable h judge typed batch content' := by
  have hsame : (∀ content', writeUInt32 magicNo ++ content = writeUInt32 magicNo ++ content' →
      Survivable h judge typed batch content') ↔ Survivable h judge typed batch content := by
    refine ⟨fun hall => hall content rfl, fun hs content' heq => ?_⟩
    rwa [← List.append_cancel_left heq]
  rw [hsame, hr.returns_iff, magicFile_iff, survivable_iff hb htyped]
  exact harmless_iff hh hh' hb (allocFits_lt hb) 4 content

end

/-! ## A segment -/

section
variable {judge : Judge} {typed : Option UInt8 → Prop}

def segmentResult : Option Stop → Ended Wal.WalResult
  | none => .returned .ok
  | some why => Wal.stopResult why

theorem reports_segmentResult : Reports segmentResult (fun res => res.rc = .OK) where
  done := ⟨_, rfl, rfl⟩
  crashed why hw := by cases why <;> first | rfl | cases hw
  error why hw := by
    rcases eq_of_endsProcess hw with rfl | rfl | ⟨errmsg, rfl⟩
    · exact ⟨_, rfl, nofun⟩
    · exact ⟨_, rfl, nofun⟩
    · exact ⟨_, rfl, nofun⟩

/-- The records of a segment, read in batches. -/
def segmentLoop (judge : Judge) (w : Wal.LogCleanWal) (content : Bytes) : LoadResult :=
  loadLoop Wal.entryHeaderLen judge MemPool.slotSize w.conf.readBatchSize (content.length + 1) 4 [] content []

theorem loadSegment_magic {w : Wal.LogCleanWal} {segId : ℕ} {d : Wal.WalDir} {content : Bytes}
    (hd : d.get (.segment segId) = some (writeUInt32 Wal.magicNo ++ content)) :
    (Wal.loadSegment judge w segId d []).value.result = segmentResult (segmentLoop judge w content).stop ∧
      (Wal.loadSegment judge w segId d []).value.batches =
        (segmentLoop judge w content).batches.map (·.map Wal.WalEntry.ofFrame) := by
  have hlen : ¬ (writeUInt32 Wal.magicNo ++ content).length < Wal.magicNoLen := by simp [Wal.magicNoLen]
  have hmagic : readUInt32 (writeUInt32 Wal.magicNo ++ content) = Wal.magicNo := readUInt32_append (by decide) _
  have hdrop : (writeUInt32 Wal.magicNo ++ content).drop Wal.magicNoLen = content :=
    List.drop_left' (by simp [Wal.magicNoLen])
  rw [Wal.loadSegment_eq, hd]
  simp only [hlen, hmagic, ne_eq, not_true_eq_false, or_self, if_false, Wal.loadSegmentContent, hdrop]
  exact ⟨rfl, rfl⟩

theorem loadSegment_noMagic {w : Wal.LogCleanWal} {segId : ℕ} {d : Wal.WalDir} {bs : Bytes}
    (hd : d.get (.segment segId) = some bs) (hbad : bs.length < 4 ∨ readUInt32 bs ≠ Wal.magicNo) :
    Wal.loadSegment judge w segId d [] =
      ⟨[], d, [], ⟨w, [], .returned ⟨.FileCorrupt, Wal.fileCorruptError⟩, 0⟩⟩ := by
  rw [Wal.loadSegment_eq, hd]
  exact if_pos hbad

theorem segment_safe_iff {w : Wal.LogCleanWal} {segId : ℕ} {d : Wal.WalDir} {bs : Bytes}
    (htyped : Creates Wal.entryHeaderLen judge typed) (hd : d.get (.segment segId) = some bs) :
    (∃ res, (Wal.loadSegment judge w segId d []).value.result = .returned res ∧
        (res.rc = .OK → MagicFile Wal.entryHeaderLen Wal.magicNo bs)) ↔
      ∀ content, bs = writeUInt32 Wal.magicNo ++ content →
        Survivable Wal.entryHeaderLen judge typed w.conf.readBatchSize content := by
  have hb : 0 < w.conf.readBatchSize := lt_of_lt_of_le (by decide) w.conf.batchSize_ge
  rcases magic_cases (show Wal.magicNo < 2 ^ 32 by decide) bs with ⟨hbad, hno⟩ | ⟨content, rfl⟩
  · rw [loadSegment_noMagic hd hbad]
    exact iff_of_true ⟨_, rfl, nofun⟩ fun content hbs => absurd hbs (hno content)
  · rw [(loadSegment_magic hd).1]
    exact loop_safe_iff reports_segmentResult (by decide) (by decide) hb htyped content

end

/-! ## The checkpoint file -/

section
variable {judge : Judge} {typed : Option UInt8 → Prop}

theorem reports_stopResult (maxId : ℕ) : Reports (Checkpoint.stopResult maxId) (fun res => res.rc = .OK) where
  done := ⟨_, rfl, rfl⟩
  crashed why hw := by cases why <;> first | rfl | cases hw
  error why hw := by
    rcases eq_of_endsProcess hw with rfl | rfl | ⟨errmsg, rfl⟩
    · exact ⟨_, rfl, nofun⟩
    · exact ⟨_, rfl, nofun⟩
    · exact ⟨_, rfl, nofun⟩

theorem load_result {errno maxId : ℕ} {c : Checkpoint.EntryOrderCheckpoint} {d : Checkpoint.CpDir} {bs : Bytes}
    (hi : c.bInited = true) (hm : Checkpoint.loadMeta errno d = .ok maxId)
    (hid : maxId ≠ Checkpoint.invalidEntryId) (hd : d.get .cp = some bs) :
    Checkpoint.load judge errno c d [] =
      if bs.length < Checkpoint.magicNoLen ∨ readUInt32 bs ≠ Checkpoint.magicNo then
        ⟨[], d, [], Checkpoint.loadError .FileCorrupt Checkpoint.fileCorruptError⟩
      else Checkpoint.loadContent judge c bs maxId d [] := by
  have hfile : Checkpoint.loadFile judge c maxId d [] =
      if bs.length < Checkpoint.magicNoLen ∨ readUInt32 bs ≠ Checkpoint.magicNo then
        ⟨[], d, [], Checkpoint.loadError .FileCorrupt Checkpoint.fileCorruptError⟩
      else Checkpoint.loadContent judge c bs maxId d [] := by
    simp only [Checkpoint.loadFile, bind_run, query_run, hd, syscall_run]
    by_cases hlen : bs.length < Checkpoint.magicNoLen
    · rw [if_pos (Or.inl hlen : _ ∨ readUInt32 bs ≠ Checkpoint.magicNo)]
      simp only [if_pos hlen, pure_run, List.append_nil]
    · by_cases hmagic : readUInt32 bs ≠ Checkpoint.magicNo
      · rw [if_pos (Or.inr hmagic : bs.length < Checkpoint.magicNoLen ∨ _)]
        simp only [if_neg hlen, if_pos hmagic, pure_run, bind_run, syscall_run,
          List.append_nil]
      · rw [if_neg (not_or.mpr ⟨hlen, hmagic⟩)]
        simp only [if_neg hlen, if_neg hmagic, bind_run, syscall_run, List.nil_append]
  rw [← hfile]
  simp only [Checkpoint.load, hi, Bool.not_true, Bool.false_eq_true, if_false, bind_run, peek_run, hm, hid,
    exist_of_get hd, List.nil_append]

theorem checkpoint_safe_iff {errno maxId : ℕ} {c : Checkpoint.EntryOrderCheckpoint} {d : Checkpoint.CpDir}
    {bs : Bytes} (htyped : Creates Checkpoint.entryHeaderLen judge typed) (hb : 0 < c.conf.batchReadSize)
    (hi : c.bInited = true) (hm : Checkpoint.loadMeta errno d = .ok maxId)
    (hid : maxId ≠ Checkpoint.invalidEntryId) (hd : d.get .cp = some bs) :
    (∃ res, (Checkpoint.load judge errno c d []).value.result = .returned res ∧
        (res.rc = .OK → MagicFile Checkpoint.entryHeaderLen Checkpoint.magicNo bs)) ↔
      ∀ content, bs = writeUInt32 Checkpoint.magicNo ++ content →
        Survivable Checkpoint.entryHeaderLen judge typed c.conf.batchReadSize content := by
  rw [load_result hi hm hid hd]
  rcases magic_cases (show Checkpoint.magicNo < 2 ^ 32 by decide) bs with ⟨hbad, hno⟩ | ⟨content, rfl⟩
  · have hbad' : bs.length < Checkpoint.magicNoLen ∨ readUInt32 bs ≠ Checkpoint.magicNo := hbad
    rw [if_pos hbad']
    exact iff_of_true ⟨_, rfl, nofun⟩ fun content hbs => absurd hbs (hno content)
  · have hok : ¬ ((writeUInt32 Checkpoint.magicNo ++ content).length < Checkpoint.magicNoLen ∨
        readUInt32 (writeUInt32 Checkpoint.magicNo ++ content) ≠ Checkpoint.magicNo) := by
      rw [readUInt32_append (by decide)]
      simp [Checkpoint.magicNoLen]
    have hdrop : (writeUInt32 Checkpoint.magicNo ++ content).drop Checkpoint.magicNoLen = content :=
      List.drop_left' (by simp [Checkpoint.magicNoLen])
    rw [if_neg hok]
    simp only [Checkpoint.loadContent, hdrop]
    exact loop_safe_iff (reports_stopResult maxId) (by decide) (by decide) hb htyped content

end

/-! ## The entries of MiniKV -/

def walTyped (type : Option UInt8) : Prop := type = some MiniKv.walPut ∨ type = some MiniKv.walDelete

theorem judgeType_ne_missing (type : UInt8) (decoded : Bool) :
    MiniKv.judgeType type decoded ≠ .missing ↔ walTyped (some type) := by
  unfold MiniKv.judgeType walTyped
  rw [Option.some_inj, Option.some_inj]
  split_ifs with htype hdecoded
  · simp [htype]
  · simp [htype]
  · simp [htype]

theorem head?_of_fieldBE {buf : Bytes} (h : 4 ≤ buf.length) :
    buf.head? = some (UInt8.ofNat (fieldBE 4 buf / 2 ^ 24)) := by
  have hhead : (buf.take 4).head? = buf.head? := by
    rw [List.head?_take, if_neg (by norm_num)]
  rw [← hhead, ← writeBE_fieldBE h]
  simp [writeBE, Nat.div_div_eq_div_mul]

theorem creates_walJudge (codec : MiniKv.EntryCodec) :
    Creates Wal.entryHeaderLen (MiniKv.walJudge codec) walTyped := by
  intro pos buf hw
  have hcomplete := hw.complete
  by_cases hzero : fieldBE 4 buf = 0
  · -- the type byte is the first of the position
    have hpos := hw.position
    rw [hzero, Nat.add_zero] at hpos
    have hle : 4 ≤ (buf.drop Wal.entryHeaderLen).length := by
      rw [List.length_drop]
      omega
    rw [head?_of_fieldBE hle, hpos, hzero, List.take_zero, Judge.at, if_pos rfl]
    exact (judgeType_ne_missing _ false).symm
  · cases hbuf : buf.drop Wal.entryHeaderLen with
    | nil =>
      rw [List.drop_eq_nil_iff] at hbuf
      omega
    | cons type rest =>
      obtain ⟨n, hn⟩ := Nat.exists_eq_succ_of_ne_zero hzero
      rw [hn, Nat.succ_eq_add_one, List.take_succ_cons, List.head?_cons, Judge.at, if_neg (by simp)]
      exact (judgeType_ne_missing _ _).symm

theorem creates_cpJudge (codec : MiniKv.EntryCodec) :
    Creates Checkpoint.entryHeaderLen (MiniKv.cpJudge codec) (fun _ => True) := by
  intro pos buf _
  refine iff_of_true trivial ?_
  unfold Judge.at MiniKv.cpJudge
  dsimp only
  split_ifs <;> simp

/-- Both readers return, and with OK only for a magic number and whole records, exactly on the
files that are survivable behind their magic number. -/
theorem readers_safe_iff (codec : MiniKv.EntryCodec) (w : Wal.LogCleanWal) (segId : ℕ) (d : Wal.WalDir)
    (seg : Bytes) (hseg : d.get (.segment segId) = some seg) (errno maxId : ℕ)
    (c : Checkpoint.EntryOrderCheckpoint) (e : Checkpoint.CpDir) (cp : Bytes)
    (hb : 17 ≤ c.conf.batchReadSize) (hi : c.bInited = true)
    (hm : Checkpoint.loadMeta errno e = .ok maxId) (hid : maxId ≠ Checkpoint.invalidEntryId)
    (hcp : e.get .cp = some cp) :
    ((∃ res, (Wal.loadSegment (MiniKv.walJudge codec) w segId d []).value.result = .returned res ∧
          (res.rc = .OK → MagicFile Wal.entryHeaderLen Wal.magicNo seg)) ↔
        ∀ content, seg = writeUInt32 Wal.magicNo ++ content →
          Survivable Wal.entryHeaderLen (MiniKv.walJudge codec) walTyped w.conf.readBatchSize content) ∧
      ((∃ res, (Checkpoint.load (MiniKv.cpJudge codec) errno c e []).value.result = .returned res ∧
          (res.rc = .OK → MagicFile Checkpoint.entryHeaderLen Checkpoint.magicNo cp)) ↔
        ∀ content, cp = writeUInt32 Checkpoint.magicNo ++ content →
          Survivable Checkpoint.entryHeaderLen (MiniKv.cpJudge codec) (fun _ => True) c.conf.batchReadSize
            content) :=
  ⟨segment_safe_iff (creates_walJudge codec) hseg,
    checkpoint_safe_iff (creates_cpJudge codec) (by omega) hi hm hid hcp⟩

/-- A put of one key. -/
def onePut : Frame := ⟨[1, 0, 0, 0, 0, 0, 0, 0, 1], MiniKv.walPut :: MiniKv.serializeEntry ⟨[1], [2]⟩⟩

def oneEntry : Frame := ⟨[1], MiniKv.serializeEntry ⟨[1], [2]⟩⟩

def segmentDir (seg : Bytes) : Wal.WalDir := Dir.empty.put (.segment 1) seg

def checkpointDir (cp : Bytes) : Checkpoint.CpDir := (Dir.empty.put .cp cp).put .cpMeta [0x37]

theorem readers_safe_one_record :
    (∀ content, writeUInt32 Wal.magicNo ++ onePut.bytes 4 = writeUInt32 Wal.magicNo ++ content →
        Survivable Wal.entryHeaderLen (MiniKv.walJudge MiniKv.wireCodec) walTyped 100 content) ∧
      ∀ content, writeUInt32 Checkpoint.magicNo ++ oneEntry.bytes 4 =
          writeUInt32 Checkpoint.magicNo ++ content →
        Survivable Checkpoint.entryHeaderLen (MiniKv.cpJudge MiniKv.wireCodec) (fun _ => True) 64 content := by
  have hsafe := readers_safe_iff MiniKv.wireCodec (Wal.create Wal.smallConf) 1
    (segmentDir (writeUInt32 Wal.magicNo ++ onePut.bytes 4)) _ rfl 0 7 ⟨⟨1, 64, by decide⟩, true⟩
    (checkpointDir (writeUInt32 Checkpoint.magicNo ++ oneEntry.bytes 4)) _ (by decide) rfl (by decide +kernel)
    (by decide) rfl
  refine ⟨hsafe.1.mp ⟨.ok, by decide +kernel, fun _ => ?_⟩, hsafe.2.mp ⟨⟨.OK, "", 7⟩, by decide +kernel, fun _ => ?_⟩⟩
  · exact ⟨_, rfl, [onePut], by simp [streamBytes], by decide, by decide⟩
  · exact ⟨_, rfl, [oneEntry], by simp [streamBytes], by decide, by decide⟩

/-- An entry of a type that is not known, and in both files a length field that wraps. -/
theorem readers_crash :
    (Wal.loadSegment (MiniKv.walJudge MiniKv.wireCodec) (Wal.create Wal.smallConf) 1
        (segmentDir (writeUInt32 Wal.magicNo ++ (Frame.bytes 4 ⟨[1, 0, 0, 0, 0, 0, 0, 0, 1], [7]⟩))) []).value.result =
        .crashed .nullEntry ∧
      (Wal.loadSegment (MiniKv.walJudge MiniKv.wireCodec) (Wal.create Wal.smallConf) 1
        (segmentDir (writeUInt32 Wal.magicNo ++ ([0xFF, 0xFF, 0xFF, 0xEF] ++ List.replicate 9 0))) []).value.result =
        .crashed .outOfBounds ∧
      (Checkpoint.load (MiniKv.cpJudge MiniKv.wireCodec) 0 ⟨⟨1, 64, by decide⟩, true⟩
        (checkpointDir (writeUInt32 Checkpoint.magicNo ++ [0xFF, 0xFF, 0xFF, 0xF7, 1])) []).value.result =
        .crashed .outOfBounds := by
  decide +kernel

/-! ## In batches and at once -/

section
variable {judge : Judge}

/-- The reference: the whole file at once, one record after the other, in unbounded arithmetic. -/
def referenceLoad (judge : Judge) (bs : Bytes) : List Wal.WalEntry × Ended Wal.WalResult :=
  if bs.length < 4 ∨ readUInt32 bs ≠ Wal.magicNo then
    ([], .returned ⟨.FileCorrupt, Wal.fileCorruptError⟩)
  else
    let r := readWhole (plainFrame Wal.entryHeaderLen judge) 4 (bs.drop 4)
    (r.frames.map Wal.WalEntry.ofFrame, segmentResult r.ending.verdict)

/-- The length fields that are parsed. -/
def LengthFieldsLE (judge : Judge) (bound : ℕ) (bs : Bytes) : Prop :=
  ∀ content fs rest, bs = writeUInt32 Wal.magicNo ++ content → content = streamBytes 4 fs ++ rest →
    Records Wal.entryHeaderLen judge 4 fs → Wal.entryHeaderLen ≤ rest.length → readUInt32 rest ≤ bound

/-- The memory pool can serve each batch together with the beginning of a record before it. -/
def SegmentRoom (judge : Judge) (batch : ℕ) (bs : Bytes) : Prop :=
  ∀ content j fs rest, bs = writeUInt32 Wal.magicNo ++ content → j * batch ≤ content.length →
    content.take (j * batch) = streamBytes 4 fs ++ rest → Records Wal.entryHeaderLen judge 4 fs →
    Short Wal.entryHeaderLen rest → batch + rest.length ≤ 2 ^ 32 - 4096

theorem segmentRoom_iff {batch : ℕ} (hb : 0 < batch) (content : Bytes) :
    SegmentRoom judge batch (writeUInt32 Wal.magicNo ++ content) ↔
      Room Wal.entryHeaderLen judge MemPool.slotSize batch 4 content := by
  rw [room_iff hb]
  constructor
  · exact fun hroom j fs rest => hroom content j fs rest rfl
  · intro hroom content' j fs rest heq
    rw [← List.append_cancel_left heq]
    exact hroom j fs rest

/-- Where no length field wraps, the reading is the plain one. -/
theorem readWhole_plain {content : Bytes}
    (hlen : LengthFieldsLE judge (2 ^ 32 - 18) (writeUInt32 Wal.magicNo ++ content)) :
    readWhole (plainFrame Wal.entryHeaderLen judge) 4 content =
      readWhole (readFrame Wal.entryHeaderLen judge) 4 content := by
  have hs : Stable (readFrame Wal.entryHeaderLen judge) := stable_readFrame (by decide) (by decide)
  refine (stable_plainFrame (by decide)).readWhole_eq ((hs.reads (4 % 2 ^ 32) content).other_step (by decide)
    (fun _ _ rest hrec => plainFrame_bytes hrec rest) fun rest hcontent hrecs => ?_)
  have hw : ¬ Wraps Wal.entryHeaderLen rest := by
    rintro ⟨hhdr, hwrap⟩
    have hle : fieldBE 4 rest ≤ 2 ^ 32 - 18 := hlen content _ rest rfl hcontent hrecs hhdr
    simp only [Wal.entryHeaderLen] at hwrap
    omega
  rw [readFrame, if_neg hw]

/-- The records of a segment come as one reading says, or a block is refused. -/
theorem segmentLoop_loads (w : Wal.LogCleanWal) (content : Bytes) :
    LoadsAs (readWhole (readFrame Wal.entryHeaderLen judge) 4 content)
      (SegmentRoom judge w.conf.readBatchSize (writeUInt32 Wal.magicNo ++ content))
      (segmentLoop judge w content) := by
  have hb : 0 < w.conf.readBatchSize := lt_of_lt_of_le (by decide) w.conf.batchSize_ge
  have hl := @loadLoop_any Wal.entryHeaderLen judge MemPool.slotSize w.conf.readBatchSize (by decide) (by decide)
    hb (allocFits_lt hb) (content.length + 1) (4 % 2 ^ 32) [] content (.done _) (Nat.lt_succ_self _)
  rw [List.nil_append, List.length_nil, roomFrom_iff (by decide) (by decide), ← segmentRoom_iff hb] at hl
  exact hl

theorem segmentResult_eq_ok {stop : Option Stop} : segmentResult stop = .returned .ok ↔ stop = none := by
  cases stop with
  | none => exact iff_of_true rfl rfl
  | some why => cases why <;> simp [segmentResult, Wal.stopResult, Wal.WalResult.ok, Wal.fileSystemError]

variable {w : Wal.LogCleanWal} {segId : ℕ} {d : Wal.WalDir} {bs : Bytes}

theorem records_of_ok (hd : d.get (.segment segId) = some bs)
    (hok : (Wal.loadSegment judge w segId d []).value.result = .returned .ok) :
    ∃ fs, bs = writeUInt32 Wal.magicNo ++ streamBytes 4 fs := by
  rcases magic_cases (show Wal.magicNo < 2 ^ 32 by decide) bs with ⟨hbad, -⟩ | ⟨content, rfl⟩
  · rw [loadSegment_noMagic hd hbad] at hok
    cases hok
  · rw [(loadSegment_magic hd).1, segmentResult_eq_ok] at hok
    have hloads := @segmentLoop_loads judge w content
    have hroom : SegmentRoom judge w.conf.readBatchSize (writeUInt32 Wal.magicNo ++ content) := by
      by_contra hno
      cases hok.symm.trans (hloads.refused hno)
    have hverdict := (hloads.verdict hroom).symm.trans hok
    cases hend : (readWhole (readFrame Wal.entryHeaderLen judge) 4 content).ending with
    | consumed =>
      obtain ⟨fs, rest, rfl, -, hrest⟩ := (@readWhole_ending _ _ (by decide) (by decide) 4 _ _).mp hend
      rw [reads_consumed_iff.mp hrest, List.append_nil]
      exact ⟨fs, rfl⟩
    | leftover rest =>
      rw [hend] at hverdict
      cases hverdict
    | stop why =>
      rw [hend] at hverdict
      cases hverdict

theorem referenceLoad_magic (content : Bytes) :
    referenceLoad judge (writeUInt32 Wal.magicNo ++ content) =
      ((readWhole (plainFrame Wal.entryHeaderLen judge) 4 content).frames.map Wal.WalEntry.ofFrame,
        segmentResult (readWhole (plainFrame Wal.entryHeaderLen judge) 4 content).ending.verdict) := by
  have hok : ¬ ((writeUInt32 Wal.magicNo ++ content).length < 4 ∨
      readUInt32 (writeUInt32 Wal.magicNo ++ content) ≠ Wal.magicNo) := by
    rw [readUInt32_append (by decide)]
    simp
  have hdrop : (writeUInt32 Wal.magicNo ++ content).drop 4 = content := List.drop_left' (by simp)
  rw [referenceLoad, if_neg hok, hdrop]

theorem segmentResult_eq_badAlloc {stop : Option Stop} :
    segmentResult stop = .crashed .badAlloc ↔ stop = some .badAlloc := by
  cases stop with
  | none => exact iff_of_false nofun nofun
  | some why => cases why <;> simp [segmentResult, Wal.stopResult]

/-- A plain reading never asks for a block. -/
theorem verdict_ne_badAlloc (content : Bytes) :
    (readWhole (plainFrame Wal.entryHeaderLen judge) 4 content).ending.verdict ≠ some .badAlloc := by
  intro hverdict
  have hs : Stable (plainFrame Wal.entryHeaderLen judge) := stable_plainFrame (by decide)
  have hend : (readWhole (plainFrame Wal.entryHeaderLen judge) 4 content).ending = .stop .badAlloc := by
    cases hend : (readWhole (plainFrame Wal.entryHeaderLen judge) 4 content).ending <;>
      simp_all [BatchEnd.verdict]
  obtain ⟨p, b, hstop⟩ := (hs.reads 4 content).exists_stop hend
  unfold plainFrame at hstop
  dsimp only at hstop
  split_ifs at hstop
  · cases hstop
  · cases hj : judge.at p ((b.drop Wal.entryHeaderLen).take (fieldBE 4 b)) <;> rw [hj] at hstop <;> cases hstop

theorem reference_iff (hd : d.get (.segment segId) = some bs) (hlen : LengthFieldsLE judge (2 ^ 32 - 18) bs) :
    ((Wal.loadSegment judge w segId d []).value.result = (referenceLoad judge bs).2 ∧
        ((referenceLoad judge bs).2 = .returned .ok →
          (Wal.loadSegment judge w segId d []).value.batches.flatten = (referenceLoad judge bs).1) ∧
        (Wal.loadSegment judge w segId d []).value.batches.flatten <+: (referenceLoad judge bs).1) ↔
      SegmentRoom judge w.conf.readBatchSize bs := by
  rcases magic_cases (show Wal.magicNo < 2 ^ 32 by decide) bs with ⟨hbad, hno⟩ | ⟨content, rfl⟩
  · rw [loadSegment_noMagic hd hbad, referenceLoad, if_pos hbad]
    exact iff_of_true ⟨rfl, nofun, by simp⟩ fun content j fs rest hbs => absurd hbs (hno content)
  · have hl := @segmentLoop_loads judge w content
    rw [← readWhole_plain hlen] at hl
    obtain ⟨hresult, hbatches⟩ := @loadSegment_magic judge w segId d content hd
    rw [hresult, hbatches, referenceLoad_magic, ← List.map_flatten]
    by_cases hroom : SegmentRoom judge w.conf.readBatchSize (writeUInt32 Wal.magicNo ++ content)
    · have hverdict := hl.verdict hroom
      refine iff_of_true ⟨by rw [hverdict], fun hok => ?_, hl.handed.map _⟩ hroom
      rw [hl.all (hverdict.trans (segmentResult_eq_ok.mp hok))]
    · refine iff_of_false (fun hsame => ?_) hroom
      rw [hl.refused hroom] at hsame
      exact verdict_ne_badAlloc content (segmentResult_eq_badAlloc.mp hsame.1.symm)

/-- The records of a segment that is cut inside one of them. -/
theorem leftoverAt_ne_zero {s : List Wal.Rec} {m : ℕ}
    (hcut : ∀ k, Wal.magicNoLen + m ≠ (Wal.segmentBytes (s.take k)).length) :
    leftoverAt m (s.map Wal.Rec.frame) ≠ 0 := by
  intro hzero
  have hsize := cut_size m (s.map Wal.Rec.frame)
  have happ := cut_append m (s.map Wal.Rec.frame)
  have htake : (s.take (cut m (s.map Wal.Rec.frame)).1.length).map Wal.Rec.frame =
      (cut m (s.map Wal.Rec.frame)).1 := by
    have hfirst := congrArg (List.take (cut m (s.map Wal.Rec.frame)).1.length) happ
    rw [List.take_left' rfl] at hfirst
    rw [List.map_take]
    exact hfirst.symm
  apply hcut (cut m (s.map Wal.Rec.frame)).1.length
  rw [Wal.length_segmentBytes, htake]
  omega

theorem loadSegment_cut {n : ℕ} {s : List Wal.Rec} (hs : Wal.Readable judge s) (hn : n ≤ (Wal.segmentBytes s).length)
    (hcut : ∀ k, n ≠ (Wal.segmentBytes (s.take k)).length)
    (hd : d.get (.segment segId) = some ((Wal.segmentBytes s).take n))
    (hroom : SegmentRoom judge w.conf.readBatchSize ((Wal.segmentBytes s).take n)) :
    (Wal.loadSegment judge w segId d []).value.result = .returned ⟨.FileCorrupt, Wal.fileCorruptError⟩ := by
  by_cases hshort : n < Wal.magicNoLen
  · rw [Wal.loadSegment_short hd (by rw [List.length_take]; omega)]
  obtain ⟨m, rfl⟩ := Nat.exists_eq_add_of_le (not_lt.mp hshort)
  have hbytes : (Wal.segmentBytes s).take (Wal.magicNoLen + m) =
      writeUInt32 Wal.magicNo ++ (streamBytes Wal.magicNoLen (s.map Wal.Rec.frame)).take m := by
    rw [Wal.segmentBytes, show Wal.magicNoLen = (writeUInt32 Wal.magicNo).length by simp [Wal.magicNoLen],
      List.take_length_add_append]
  have hlt := hs.size_lt
  rw [Wal.length_segmentBytes] at hn hlt
  have hm : m ≤ streamSize (s.map Wal.Rec.frame) := by omega
  have hlen : ((streamBytes Wal.magicNoLen (s.map Wal.Rec.frame)).take m).length = m := by
    rw [List.length_take, length_streamBytes]
    omega
  rw [hbytes] at hd hroom
  have hreads := @reads_parseBatch Wal.entryHeaderLen judge (by decide) (by decide) _
    (show ((streamBytes Wal.magicNoLen (s.map Wal.Rec.frame)).take m).length < 2 ^ 32 by omega) (4 % 2 ^ 32)
  have hparse := parseBatch_take (s.map Wal.Rec.frame) hs.sound Wal.magicNoLen m m hm le_rfl
  rw [hlen] at hreads
  rw [show Wal.magicNoLen = 4 from rfl] at hparse hreads hd hroom
  rw [hparse, batchEnd, if_neg (leftoverAt_ne_zero hcut)] at hreads
  have hwhole := (stable_readFrame (by decide) (by decide)).readWhole_eq hreads
  have hverdict := (segmentLoop_loads w _).verdict hroom
  rw [(loadSegment_magic hd).1, hverdict]
  exact congrArg (fun r => segmentResult r.ending.verdict) hwhole

/-- Wherever the memory pool can serve the batches, and only there, reading a segment in batches
is reading it at once; then a segment cut inside a record is found to be corrupt. -/
theorem loadSegment_reference_iff (judge : Judge) (w : Wal.LogCleanWal) (segId : ℕ) (d : Wal.WalDir) (bs : Bytes)
    (hd : d.get (.segment segId) = some bs) :
    (LengthFieldsLE judge (2 ^ 32 - 18) bs →
      ((Wal.loadSegment judge w segId d []).value.result = (referenceLoad judge bs).2 ∧
          ((referenceLoad judge bs).2 = .returned .ok →
            (Wal.loadSegment judge w segId d []).value.batches.flatten = (referenceLoad judge bs).1) ∧
          (Wal.loadSegment judge w segId d []).value.batches.flatten <+: (referenceLoad judge bs).1 ↔
        SegmentRoom judge w.conf.readBatchSize bs)) ∧
      ∀ s n, Wal.Readable judge s → n < (Wal.segmentBytes s).length →
        (∀ k, n ≠ (Wal.segmentBytes (s.take k)).length) → bs = (Wal.segmentBytes s).take n →
        SegmentRoom judge w.conf.readBatchSize bs →
        (Wal.loadSegment judge w segId d []).value.result = .returned ⟨.FileCorrupt, Wal.fileCorruptError⟩ := by
  refine ⟨reference_iff hd, fun s n hs hn hcut hbs hroom => ?_⟩
  rw [hbs] at hd hroom
  exact loadSegment_cut hs hn.le hcut hd hroom

theorem lengthFieldsLE_of_all {bound : ℕ} (hbs : ∀ k < bs.length, readUInt32 (bs.drop k) ≤ bound) :
    LengthFieldsLE judge bound bs := by
  rintro content fs rest rfl rfl - hhdr
  have hsuffix : rest = (writeUInt32 Wal.magicNo ++ (streamBytes 4 fs ++ rest)).drop
      (writeUInt32 Wal.magicNo ++ streamBytes 4 fs).length := by
    rw [← List.append_assoc, List.drop_left' rfl]
  have hle := hbs (writeUInt32 Wal.magicNo ++ streamBytes 4 fs).length (by
    simp only [Wal.entryHeaderLen, List.length_append] at hhdr ⊢
    omega)
  rwa [← hsuffix] at hle

theorem segmentRoom_of_le {batch : ℕ} (hbs : batch + bs.length ≤ 2 ^ 32 - 4096) :
    SegmentRoom judge batch bs := by
  rintro content j fs rest rfl - htake - -
  have hlen := congrArg List.length htake
  rw [List.length_take, List.length_append] at hlen
  rw [List.length_append] at hbs
  omega

/-- Reads of 20 bytes. -/
def conf20 : Wal.LogCleanWalConfig := ⟨1, 200, 20, by decide, by decide, by decide, by decide⟩

/-- Records of 18, 19 and 17 bytes. -/
def threeRecords : List Wal.Rec := [⟨2, 1, [7]⟩, ⟨3, 1, [8, 9]⟩, ⟨4, 1, []⟩]

/-- The three records are read as at once; of a file that ends inside the third the first two come, one
with each batch. -/
theorem loadSegment_reference_three :
    (Wal.loadSegment acceptAll (Wal.create conf20) 1 (segmentDir (Wal.segmentBytes threeRecords)) []).value.batches.flatten =
        threeRecords.map Wal.Rec.entry ∧
      (Wal.loadSegment acceptAll (Wal.create conf20) 1
          (segmentDir ((Wal.segmentBytes threeRecords).take 50)) []).value.batches =
        [[⟨2, [7]⟩], [⟨3, [8, 9]⟩]] ∧
      (referenceLoad acceptAll ((Wal.segmentBytes threeRecords).take 50)).1 = [⟨2, [7]⟩, ⟨3, [8, 9]⟩] ∧
      (Wal.loadSegment acceptAll (Wal.create conf20) 1
          (segmentDir ((Wal.segmentBytes threeRecords).take 50)) []).value.result =
        .returned ⟨.FileCorrupt, Wal.fileCorruptError⟩ := by
  have hwhole := loadSegment_reference_iff acceptAll (Wal.create conf20) 1
    (segmentDir (Wal.segmentBytes threeRecords)) _ rfl
  have htorn := loadSegment_reference_iff acceptAll (Wal.create conf20) 1
    (segmentDir ((Wal.segmentBytes threeRecords).take 50)) _ rfl
  have hall := (hwhole.1 (lengthFieldsLE_of_all (by decide))).mpr (segmentRoom_of_le (by decide))
  refine ⟨(hall.2.1 (by decide)).trans (by decide), by decide, by decide,
    htorn.2 threeRecords 50 ⟨by decide, by decide, by decide⟩ (by decide) (fun k => ?_) rfl (segmentRoom_of_le (by decide))⟩
  match k with
  | 0 => decide
  | 1 => decide
  | 2 => decide
  | k + 3 =>
    rw [List.take_of_length_le (by simp [threeRecords])]
    decide

/-- The block for the first batch is refused. -/
theorem loadSegment_huge_batch :
    (Wal.loadSegment acceptAll (Wal.create ⟨1, 100, 2 ^ 32 - 100, by decide, by decide, by decide, by decide⟩) 1
        (segmentDir (writeUInt32 Wal.magicNo)) []).value.result = .crashed .badAlloc ∧
      referenceLoad acceptAll (writeUInt32 Wal.magicNo) = ([], .returned .ok) := by
  decide +kernel

end

end FlyingKV.ReadAnyFile
