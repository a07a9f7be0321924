import FlyingKV.FramedStreamAny

set_option autoImplicit false

/-!
# The batched reader on any bytes

A load in batches ends as one reading of all the bytes does, unless the allocator refuses a
block. From that follows which bytes it survives and which it takes for a whole stream.
-/
namespace FlyingKV.FramedStream
open ByteOrder

/-! ## In batches -/

section
variable {h : ℕ} {judge : Judge} (alloc : ℕ → Option ℕ) (batch : ℕ)

/-- The allocator has room for the bytes that are carried at each end of a batch. The first batch
ends behind the first `n` bytes. -/
def RoomFrom (step : Step) (pos n : ℕ) (bytes : Bytes) : Prop :=
  ∀ j, n + j * batch ≤ bytes.length →
    ∀ carry ∈ (readWhole step pos (bytes.take (n + j * batch))).ending.carried,
      allocFits alloc batch carry.length = true

/-- Why a load ends that has seen all bytes. -/
def BatchEnd.verdict : BatchEnd → Option Stop
  | .consumed => none
  | .leftover _ => some .corrupt
  | .stop why => some why

/-- A load that makes of the bytes what one reading makes of them, unless a block is refused. -/
structure LoadsAs (whole : BatchResult) (room : Prop) (r : LoadResult) : Prop where
  verdict : room → r.stop = whole.ending.verdict
  refused : ¬ room → r.stop = some .badAlloc
  handed : r.batches.flatten <+: whole.frames
  all : r.stop = none → r.batches.flatten = whole.frames

theorem LoadsAs.after {fs : List Frame} {whole : BatchResult} {room : Prop} {r : LoadResult}
    (hl : LoadsAs whole room r) :
    LoadsAs ⟨fs ++ whole.frames, whole.pos, whole.ending⟩ room (r.after fs) where
  verdict := hl.verdict
  refused := hl.refused
  handed := by
    rw [LoadResult.after, List.flatten_cons]
    exact (List.prefix_append_right_inj fs).mpr hl.handed
  all hstop := by
    rw [LoadResult.after, List.flatten_cons, hl.all hstop]

theorem readAll_eq_parseBatch (fuel pos : ℕ) (buf : Bytes) :
    parseBatch h judge fuel pos buf = readAll (parseFrame h judge) fuel pos buf := by
  induction fuel generalizing pos buf with
  | zero => rfl
  | succ fuel ih =>
    rw [parseBatch, readAll]
    cases parseFrame h judge pos buf with
    | needMore => rfl
    | stop why => rfl
    | frame f size => simp only [ih]

/-- A batch below 4 GiB is read without a difference. -/
theorem reads_parseBatch (hh : 4 ≤ h) (hh' : h + 4 ≤ 2 ^ 32) {buf : Bytes} (hbuf : buf.length < 2 ^ 32)
    (pos : ℕ) : Reads (readFrame h judge) pos buf (parseBatch h judge buf.length pos buf) := by
  have hsame : ∀ fuel pos b, b.length < 2 ^ 32 →
      readAll (parseFrame h judge) fuel pos b = readAll (readFrame h judge) fuel pos b := by
    intro fuel
    induction fuel with
    | zero => exact fun _ _ _ => rfl
    | succ fuel ih =>
      intro pos b hb
      rw [readAll, readAll, parseFrame_eq hh' hb]
      cases readFrame h judge pos b with
      | needMore => rfl
      | stop why => rfl
      | frame f size =>
        simp only
        rw [ih _ _ (by rw [List.length_drop]; omega)]
  rw [readAll_eq_parseBatch, hsame _ _ _ hbuf]
  exact (stable_readFrame hh hh').reads pos buf

variable {alloc batch}

theorem RoomFrom.here {step : Step} (hs : Stable step) {pos : ℕ} {carry more : Bytes}
    (hcarry : Reads step pos carry ⟨[], pos, .holding carry⟩)
    (hroom : RoomFrom alloc batch step pos carry.length (carry ++ more)) :
    allocFits alloc batch carry.length = true := by
  have hfirst := hroom 0 (by simp)
  rw [Nat.zero_mul, Nat.add_zero, List.take_left' rfl, hs.readWhole_eq hcarry] at hfirst
  exact hfirst carry (carried_holding carry)

/-- The batches after the first are those of a reading that starts with what it has carried. -/
theorem roomFrom_next {step : Step} (hs : Stable step) {pos : ℕ} {carry chunk more carry' : Bytes}
    {r : BatchResult} (hchunk : chunk.length = batch)
    (hcarry : Reads step pos carry ⟨[], pos, .holding carry⟩)
    (hr : Reads step pos (carry ++ chunk) r) (hcarry' : r.ending.carried = some carry') :
    RoomFrom alloc batch step pos carry.length (carry ++ (chunk ++ more)) ↔
      allocFits alloc batch carry.length = true ∧
        RoomFrom alloc batch step r.pos carry'.length (carry' ++ more) := by
  have hsame : ∀ j, (readWhole step r.pos ((carry' ++ more).take (carry'.length + j * batch))).ending =
      (readWhole step pos
        ((carry ++ (chunk ++ more)).take (carry.length + (j + 1) * batch))).ending := by
    intro j
    have htake : (carry ++ (chunk ++ more)).take (carry.length + (j + 1) * batch) =
        (carry ++ chunk) ++ more.take (j * batch) := by
      rw [← List.append_assoc, show carry.length + (j + 1) * batch = (carry ++ chunk).length + j * batch by
        rw [List.length_append, hchunk]; ring, List.take_length_add_append]
    rw [htake, List.take_length_add_append, hs.readWhole_eq (hr.append hs hcarry' (hs.reads _ _))]
  constructor
  · intro hroom
    refine ⟨hroom.here hs hcarry, fun j hj => ?_⟩
    rw [hsame]
    refine hroom (j + 1) ?_
    simp only [List.length_append] at hj ⊢
    rw [Nat.add_mul]
    omega
  · rintro ⟨hfit, hroom⟩ j hj
    cases j with
    | zero =>
      rw [Nat.zero_mul, Nat.add_zero, List.take_left' rfl, hs.readWhole_eq hcarry]
      simpa using hfit
    | succ j =>
      rw [← hsame]
      refine hroom j ?_
      simp only [List.length_append] at hj ⊢
      rw [Nat.add_mul] at hj
      omega

/-- No batch follows, or the reader stops in the first. -/
theorem roomFrom_last {step : Step} (hs : Stable step) {pos : ℕ} {carry unread : Bytes}
    (hcarry : Reads step pos carry ⟨[], pos, .holding carry⟩)
    (hlast : batch ≤ unread.length →
      (readWhole step pos (carry ++ unread.take batch)).ending.carried = none)
    (hfit : allocFits alloc batch carry.length = true) :
    RoomFrom alloc batch step pos carry.length (carry ++ unread) := by
  intro j hj
  rw [List.take_length_add_append]
  cases j with
  | zero =>
    rw [Nat.zero_mul, List.take_zero, List.append_nil, hs.readWhole_eq hcarry]
    simpa using hfit
  | succ j =>
    rw [List.length_append, Nat.add_mul] at hj
    have hstop := hlast (by omega)
    have htake : carry ++ unread.take ((j + 1) * batch) =
        carry ++ unread.take batch ++ (unread.drop batch).take (j * batch) := by
      rw [Nat.add_mul, Nat.one_mul, Nat.add_comm, List.take_add, List.append_assoc]
    rw [htake, hs.readWhole_eq ((hs.reads _ _).append_stop hs hstop), hstop]
    exact nofun

theorem loadLoop_any (hh : 4 ≤ h) (hh' : h + 4 ≤ 2 ^ 32) (hb : 0 < batch)
    (hfits : ∀ k, allocFits alloc batch k = true → k + batch < 2 ^ 32) (fuel pos : ℕ) (carry unread : Bytes)
    (hcarry : Reads (readFrame h judge) pos carry ⟨[], pos, .holding carry⟩) (hfuel : unread.length < fuel) :
    LoadsAs (readWhole (readFrame h judge) pos (carry ++ unread))
      (RoomFrom alloc batch (readFrame h judge) pos carry.length (carry ++ unread))
      (loadLoop h judge alloc batch fuel pos carry unread []) := by
  have hs : Stable (readFrame h judge) := stable_readFrame hh hh'
  induction fuel generalizing pos carry unread with
  | zero => omega
  | succ fuel ih =>
    rw [loadLoop]
    by_cases ha : allocFits alloc batch carry.length = true
    swap
    · rw [if_pos (by simpa using ha)]
      exact ⟨fun hroom => absurd (hroom.here hs hcarry) ha, fun _ => rfl, by simp, fun h => by cases h⟩
    rw [if_neg (by simp [ha])]
    simp only [List.head?_nil, List.tail_nil]
    by_cases hu : unread = []
    · -- the last read finds the end of the file
      subst hu
      have hroom := roomFrom_last hs hcarry (fun hle => by rw [List.length_nil] at hle; omega) ha
      rw [List.append_nil, hs.readWhole_eq hcarry, List.take_nil, if_pos rfl]
      rw [List.append_nil] at hroom
      refine ⟨fun _ => ?_, fun hno => absurd hroom hno, by simp, fun _ => rfl⟩
      unfold BatchEnd.holding
      split_ifs <;> rfl
    have hlen := List.length_pos_iff.mpr hu
    have hchunk : unread.take batch ≠ [] := by
      rw [← List.length_pos_iff, List.length_take]
      omega
    have hbuf : (carry ++ unread.take batch).length < 2 ^ 32 := by
      have := hfits _ ha
      rw [List.length_append, List.length_take]
      omega
    have hr := @reads_parseBatch h judge hh hh' _ hbuf pos
    have hwhole := hs.readWhole_eq hr
    rw [if_neg hchunk]
    generalize parseBatch h judge (carry ++ unread.take batch).length pos (carry ++ unread.take batch) = r
      at hr hwhole
    have hunread : unread.take batch ++ unread.drop batch = unread := List.take_append_drop batch unread
    by_cases hfull : batch ≤ unread.length
    · have hok : ((unread.take batch).length == batch) = true := by simp [List.length_take, hfull]
      simp only [hok, if_true]
      -- a full batch hands its frames over and is followed by another
      have hnext : ∀ carry', r.ending.carried = some carry' →
          LoadsAs (readWhole (readFrame h judge) pos (carry ++ unread))
            (RoomFrom alloc batch (readFrame h judge) pos carry.length (carry ++ unread))
            ((loadLoop h judge alloc batch fuel r.pos carry' (unread.drop batch) []).after r.frames) := by
        intro carry' hcarry'
        have hl := ih r.pos carry' (unread.drop batch) (hr.carried hcarry') (by rw [List.length_drop]; omega)
        have happ := hs.readWhole_eq (hr.append hs hcarry' (hs.reads r.pos (carry' ++ unread.drop batch)))
        have htake : (unread.take batch).length = batch := by rw [List.length_take, Nat.min_eq_left hfull]
        have hroom := @roomFrom_next alloc batch _ hs pos carry _ (unread.drop batch) carry' r htake hcarry hr hcarry'
        rw [hunread] at hroom
        rw [List.append_assoc, hunread] at happ
        rw [happ, hroom, and_iff_right ha]
        exact hl.after
      cases hend : r.ending with
      | stop why =>
        have hstop : r.ending.carried = none := by rw [hend]; rfl
        have hroom := roomFrom_last hs hcarry (fun _ => by rw [hwhole, hstop]) ha
        have happ : readWhole (readFrame h judge) pos (carry ++ unread.take batch ++ unread.drop batch) = r :=
          hs.readWhole_eq (hr.append_stop hs hstop)
        rw [List.append_assoc, hunread] at happ
        rw [happ]
        exact ⟨fun _ => by rw [hend]; rfl, fun hno => absurd hroom hno, by simp, fun h => by cases h⟩
      | leftover rest => exact hnext rest (by rw [hend]; rfl)
      | consumed => exact hnext [] (by rw [hend]; rfl)
    · have hok : ((unread.take batch).length == batch) = false := by
        rw [beq_eq_false_iff_ne, List.length_take]
        omega
      have hroom := roomFrom_last hs hcarry (fun hle => absurd hle hfull) ha
      have htake : unread.take batch = unread := List.take_of_length_le (by omega)
      rw [htake] at hwhole
      rw [hwhole]
      simp only [hok, Bool.false_eq_true, if_false]
      cases hend : r.ending with
      | stop why => exact ⟨fun _ => by rw [hend]; rfl, fun hno => absurd hroom hno, by simp, fun h => by cases h⟩
      | leftover rest => exact ⟨fun _ => by rw [hend]; rfl, fun hno => absurd hroom hno, by simp, fun h => by cases h⟩
      | consumed => exact ⟨fun _ => by rw [hend]; rfl, fun hno => absurd hroom hno, by simp, fun _ => by simp⟩

end

/-! ## When a load is harmless -/

section
variable (h : ℕ) (judge : Judge)

/-- Too few bytes for a record, by the length field in front of them. -/
def Short (buf : Bytes) : Prop := buf.length < h ∨ buf.length < (h + 4 + fieldBE 4 buf) % 2 ^ 32

/-- A length field that wraps, and nothing that keeps the reader from its content. -/
def Overlong (pos : ℕ) (buf : Bytes) : Prop :=
  Wraps h buf ∧ h + 4 + fieldBE 4 buf - 2 ^ 32 ≤ buf.length ∧
    (2 ^ 32 ≤ h + fieldBE 4 buf → fieldBE 4 (buf.drop (h + fieldBE 4 buf - 2 ^ 32)) = pos % 2 ^ 32)

/-- All of a record, with its position behind it. -/
structure Whole (pos : ℕ) (buf : Bytes) : Prop where
  header : h ≤ buf.length
  small : h + 4 + fieldBE 4 buf < 2 ^ 32
  complete : h + 4 + fieldBE 4 buf ≤ buf.length
  position : fieldBE 4 (buf.drop (h + fieldBE 4 buf)) = pos % 2 ^ 32

def Typeless (pos : ℕ) (buf : Bytes) : Prop :=
  Whole h pos buf ∧ judge.at (pos % 2 ^ 32) ((buf.drop h).take (fieldBE 4 buf)) = .missing

variable {h judge}
variable {pos : ℕ} {buf : Bytes}

theorem readFrame_needMore_iff (hh : h + 4 ≤ 2 ^ 32) : readFrame h judge pos buf = .needMore ↔ Short h buf := by
  have hlt := fieldBE_lt 4 buf
  norm_num at hlt
  unfold readFrame
  by_cases hw : Wraps h buf
  · have hwrap := hw.2
    have hsize : (h + 4 + fieldBE 4 buf) % 2 ^ 32 = h + 4 + fieldBE 4 buf - 2 ^ 32 := by
      rw [Nat.mod_eq_sub_mod hwrap, Nat.mod_eq_of_lt (by omega)]
    rw [if_pos hw, Short, hsize, wrappedFrame, or_iff_right (not_lt.mpr hw.1)]
    split_ifs with hneed <;> simp only [hneed]
  · rw [if_neg hw, plainFrame, Short]
    dsimp only
    by_cases hshort : buf.length < h
    · rw [if_pos hshort]
      exact iff_of_true rfl (.inl hshort)
    have hsmall : h + 4 + fieldBE 4 buf < 2 ^ 32 := by
      by_contra hlarge
      exact hw ⟨by omega, by omega⟩
    rw [if_neg hshort, Nat.mod_eq_of_lt hsmall, or_iff_right hshort]
    split_ifs with hneed hpos
    · simp only [hneed]
    · simp only [hneed]
    · cases judge.at pos ((buf.drop h).take (fieldBE 4 buf)) <;> simp only [hneed, reduceCtorEq]

theorem readFrame_stop {why : Stop} (hs : readFrame h judge (pos % 2 ^ 32) buf = .stop why) :
    why = .corrupt ∨ why = .decodeError ∨ (why = .outOfBounds ∧ Overlong h pos buf) ∨
      (why = .nullEntry ∧ Typeless h judge pos buf) := by
  unfold readFrame wrappedFrame plainFrame at hs
  dsimp only at hs
  split_ifs at hs with hw hneed hoff hpos hshort hneed hpos
  · cases hs
    exact .inr (.inr (.inl ⟨rfl, hw, by omega, fun hle => by omega⟩))
  · cases hs
    exact .inl rfl
  · cases hs
    exact .inr (.inr (.inl ⟨rfl, hw, by omega, fun _ => not_not.mp hpos⟩))
  · cases hs
    exact .inl rfl
  · cases hj : judge.at (pos % 2 ^ 32) ((buf.drop h).take (fieldBE 4 buf)) with
    | missing =>
      rw [hj] at hs
      cases hs
      have hsmall : h + 4 + fieldBE 4 buf < 2 ^ 32 := by
        by_contra hlarge
        exact hw ⟨by omega, by omega⟩
      exact .inr (.inr (.inr ⟨rfl, ⟨by omega, hsmall, by omega, not_not.mp hpos⟩, hj⟩))
    | rejected =>
      rw [hj] at hs
      cases hs
      exact .inr (.inl rfl)
    | accepted =>
      rw [hj] at hs
      cases hs

theorem readFrame_overlong (ho : Overlong h pos buf) :
    readFrame h judge (pos % 2 ^ 32) buf = .stop .outOfBounds := by
  obtain ⟨hw, hle, hpos⟩ := ho
  rw [readFrame, if_pos hw, wrappedFrame, if_neg (by omega)]
  by_cases hoff : h + fieldBE 4 buf < 2 ^ 32
  · rw [if_pos hoff]
  · rw [if_neg hoff, if_neg (not_not.mpr (hpos (by omega)))]

theorem readFrame_typeless (ht : Typeless h judge pos buf) :
    readFrame h judge (pos % 2 ^ 32) buf = .stop .nullEntry := by
  obtain ⟨⟨hhdr, hsmall, hle, hpos⟩, hj⟩ := ht
  have hw : ¬ Wraps h buf := fun hw => absurd hw.2 (by omega)
  rw [readFrame, if_neg hw, plainFrame, if_neg (by omega)]
  dsimp only
  rw [if_neg (by omega), if_neg (not_not.mpr hpos), hj]

/-- The offsets of the records of a stream. -/
def starts : ℕ → List Frame → List ℕ
  | _, [] => []
  | pos, f :: fs => pos :: starts (pos + f.size) fs

variable (h judge) (alloc : ℕ → Option ℕ) (batch : ℕ)

/-- The allocator has room for a batch and the beginning of a record before it. -/
def Room (pos : ℕ) (bytes : Bytes) : Prop :=
  ∀ j fs rest, j * batch ≤ bytes.length → bytes.take (j * batch) = streamBytes pos fs ++ rest →
    Records h judge pos fs → Short h rest → allocFits alloc batch rest.length = true

/-- What the reader meets after the records it accepts. -/
structure Harmless (pos : ℕ) (bytes : Bytes) : Prop where
  room : Room h judge alloc batch pos bytes
  length : ∀ fs rest, bytes = streamBytes pos fs ++ rest → Records h judge pos fs →
    ¬ Overlong h (pos + streamSize fs) rest
  typed : ∀ fs rest, bytes = streamBytes pos fs ++ rest → Records h judge pos fs →
    ¬ Typeless h judge (pos + streamSize fs) rest
  near : ∀ fs, bytes = streamBytes pos fs → Records h judge pos fs → ∀ p ∈ starts pos fs, p < 2 ^ 32

/-- The bytes are records, each with as many content bytes as its length field says and its own
offset behind them. -/
def WholeRecords (pos : ℕ) (bytes : Bytes) : Prop :=
  ∃ fs, bytes = streamBytes pos fs ∧ (∀ f ∈ fs, f.hdr.length + 4 = h ∧ f.content.length < 2 ^ 32) ∧
    ∀ p ∈ starts pos fs, p < 2 ^ 32

def Stop.endsProcess : Stop → Bool
  | .corrupt | .decodeError | .readError _ => false
  | .nullEntry | .outOfBounds | .badAlloc | .diverges => true

variable {h judge alloc batch}
variable {rest : Bytes} {pos : ℕ} {fs : List Frame}

theorem reads_short (hh : h + 4 ≤ 2 ^ 32) (h0 : 0 < h) (pos : ℕ) :
    Reads (readFrame h judge) pos rest ⟨[], pos, .holding rest⟩ ↔ Short h rest := by
  by_cases hnil : rest = []
  · rw [hnil]
    exact iff_of_true (.done pos) (.inl h0)
  rw [BatchEnd.holding, if_neg hnil]
  constructor
  · intro hr
    cases hr with
    | short ne verdict => exact (readFrame_needMore_iff hh).mp verdict
  · intro hshort
    exact .short hnil ((readFrame_needMore_iff hh).mpr hshort)

theorem reads_iff (hh : 4 ≤ h) {buf : Bytes} {ending : BatchEnd} :
    Reads (readFrame h judge) (pos % 2 ^ 32) buf ⟨fs, (pos + streamSize fs) % 2 ^ 32, ending⟩ ↔
      ∃ rest, buf = streamBytes pos fs ++ rest ∧ Records h judge pos fs ∧
        Reads (readFrame h judge) ((pos + streamSize fs) % 2 ^ 32) rest
          ⟨[], (pos + streamSize fs) % 2 ^ 32, ending⟩ := by
  constructor
  · intro hr
    obtain ⟨rest, hbuf, hrecs, -, hend⟩ := hr.split hh
    exact ⟨rest, hbuf, hrecs, hend⟩
  · rintro ⟨rest, rfl, hrecs, hend⟩
    have hr := reads_streamBytes (fun _ _ rest hrec => readFrame_bytes hrec rest) hrecs hend
    rwa [List.append_nil] at hr

/-- A step that takes the same records and says the same behind them reads the same. -/
theorem Reads.other_step {step : Step} (hh : 4 ≤ h)
    (hstep : ∀ pos f rest, RecordAt h judge pos f → step (pos % 2 ^ 32) (f.bytes pos ++ rest) = .frame f f.size)
    {buf : Bytes} {r : BatchResult} (hr : Reads (readFrame h judge) (pos % 2 ^ 32) buf r)
    (hsame : ∀ rest, buf = streamBytes pos r.frames ++ rest → Records h judge pos r.frames →
      step r.pos rest = readFrame h judge r.pos rest) : Reads step (pos % 2 ^ 32) buf r := by
  obtain ⟨rest, hbuf, hrecs, hpos, hend⟩ := hr.split hh
  have hverdict := hsame rest hbuf hrecs
  have hrest : Reads step r.pos rest ⟨[], r.pos, r.ending⟩ := by
    generalize r.ending = e at hend
    cases hend with
    | done => exact .done _
    | short ne verdict => exact .short ne (hverdict.trans verdict)
    | stop ne verdict => exact .stop ne (hverdict.trans verdict)
  rw [hbuf]
  rw [hpos] at hrest
  have hwhole := reads_streamBytes hstep hrecs hrest
  rwa [List.append_nil, ← hpos] at hwhole

theorem readWhole_ending (hh : 4 ≤ h) (hh' : h + 4 ≤ 2 ^ 32) {pos : ℕ} {bytes : Bytes} {ending : BatchEnd} :
    (readWhole (readFrame h judge) (pos % 2 ^ 32) bytes).ending = ending ↔
      ∃ fs rest, bytes = streamBytes pos fs ++ rest ∧ Records h judge pos fs ∧
        Reads (readFrame h judge) ((pos + streamSize fs) % 2 ^ 32) rest
          ⟨[], (pos + streamSize fs) % 2 ^ 32, ending⟩ := by
  have hr := (@stable_readFrame h judge hh hh').reads (pos % 2 ^ 32) bytes
  constructor
  · rintro rfl
    obtain ⟨rest, hbuf, hrecs, hpos, hend⟩ := hr.split hh
    rw [hpos] at hend
    exact ⟨_, rest, hbuf, hrecs, hend⟩
  · rintro ⟨fs, rest, hbuf, hrecs, hend⟩
    rw [hr.unique ((reads_iff hh).mpr ⟨rest, hbuf, hrecs, hend⟩)]

theorem roomFrom_iff (hh : 4 ≤ h) (hh' : h + 4 ≤ 2 ^ 32) {bytes : Bytes} :
    RoomFrom alloc batch (readFrame h judge) (pos % 2 ^ 32) 0 bytes ↔ Room h judge alloc batch pos bytes := by
  constructor
  · intro hroom j fs rest hj htake hrecs hshort
    refine hroom j (by omega) rest ?_
    rw [Nat.zero_add, (readWhole_ending hh hh').mpr
      ⟨fs, rest, htake, hrecs, (reads_short hh' (by omega) _).mpr hshort⟩]
    exact carried_holding rest
  · intro hroom j hj carry hcarry
    rw [Nat.zero_add] at hj hcarry
    have hr := (@stable_readFrame h judge hh hh').reads (pos % 2 ^ 32) (bytes.take (j * batch))
    obtain ⟨rest, hbuf, hrecs, -, hend⟩ := hr.split hh
    have hshort := hend.carried hcarry
    have hrest : rest = carry := by
      generalize (readWhole (readFrame h judge) (pos % 2 ^ 32) (bytes.take (j * batch))).ending = e
        at hend hcarry
      cases hend with
      | done => exact Option.some.inj hcarry
      | short => exact Option.some.inj hcarry
      | stop => cases hcarry
    rw [← hrest] at hshort ⊢
    exact hroom j _ rest hj hbuf hrecs ((reads_short hh' (by omega) _).mp hshort)

theorem reads_stop_iff {why : Stop} :
    Reads (readFrame h judge) pos rest ⟨[], pos, .stop why⟩ ↔
      rest ≠ [] ∧ readFrame h judge pos rest = .stop why := by
  constructor
  · intro hr
    cases hr with
    | stop ne verdict => exact ⟨ne, verdict⟩
  · rintro ⟨hne, hs⟩
    exact .stop hne hs

theorem reads_consumed_iff : Reads (readFrame h judge) pos rest ⟨[], pos, .consumed⟩ ↔ rest = [] := by
  constructor
  · intro hr
    cases hr with
    | done => rfl
  · rintro rfl
    exact .done pos

theorem streamBytes_inj {gs : List Frame} (hf : ∀ f ∈ fs, f.hdr.length + 4 = h ∧ f.content.length < 2 ^ 32)
    (hg : ∀ g ∈ gs, g.hdr.length + 4 = h ∧ g.content.length < 2 ^ 32) (heq : streamBytes pos fs = streamBytes pos gs) :
    fs = gs := by
  induction fs generalizing pos gs with
  | nil =>
    have hlen := congrArg List.length heq
    rw [length_streamBytes, length_streamBytes] at hlen
    exact (eq_nil_of_streamSize hlen.symm).symm
  | cons f fs ih =>
    cases gs with
    | nil =>
      have hlen := congrArg List.length heq
      rw [length_streamBytes, length_streamBytes] at hlen
      exact absurd (eq_nil_of_streamSize hlen) (by simp)
    | cons g gs =>
      obtain ⟨hfh, hfl⟩ := hf f (by simp)
      obtain ⟨hgh, hgl⟩ := hg g (by simp)
      have hfield : ∀ (e : Frame) (rest : Bytes), e.content.length < 2 ^ 32 →
          fieldBE 4 (e.bytes pos ++ rest) = e.content.length := by
        intro e rest he
        rw [Frame.bytes, List.append_assoc, List.append_assoc, List.append_assoc, fieldBE_writeBE_append,
          Nat.mod_eq_of_lt (by norm_num at he ⊢; exact he)]
      rw [streamBytes, streamBytes] at heq
      have hcontent : f.content.length = g.content.length := by
        rw [← hfield f (streamBytes (pos + f.size) fs) hfl, heq, hfield g _ hgl]
      have hsize : f.size = g.size := by
        unfold Frame.size
        omega
      obtain ⟨hbytes, hrest⟩ := List.append_inj heq (by rw [Frame.length_bytes, Frame.length_bytes, hsize])
      have hfg : f = g := by
        rw [Frame.bytes, Frame.bytes, List.append_assoc, List.append_assoc, List.append_assoc,
          List.append_assoc] at hbytes
        obtain ⟨-, htail⟩ := List.append_inj hbytes (by simp)
        obtain ⟨hhdr, htail⟩ := List.append_inj htail (by omega)
        obtain ⟨hcont, -⟩ := List.append_inj htail hcontent
        cases f
        cases g
        rw [Frame.mk.injEq]
        exact ⟨hhdr, hcont⟩
      rw [← hsize] at hrest
      rw [hfg, ih (fun e he => hf e (List.mem_cons_of_mem f he)) (fun e he => hg e (List.mem_cons_of_mem g he)) hrest]

theorem Records.lengths (hr : Records h judge pos fs) :
    ∀ f ∈ fs, f.hdr.length + 4 = h ∧ f.content.length < 2 ^ 32 := by
  induction fs generalizing pos with
  | nil => simp
  | cons f fs ih =>
    intro g hg
    rcases List.mem_cons.mp hg with rfl | hg
    · have hs := hr.1.small
      have he := hr.1.size_eq
      exact ⟨hr.1.header, by omega⟩
    · exact ih hr.2 g hg

/-- Records in any number are whole exactly when none starts beyond the reach of a position. -/
theorem wholeRecords_iff (hr : Records h judge pos fs) :
    WholeRecords h pos (streamBytes pos fs) ↔ ∀ p ∈ starts pos fs, p < 2 ^ 32 := by
  constructor
  · rintro ⟨gs, heq, hlengths, hnear⟩
    rw [streamBytes_inj hr.lengths hlengths heq]
    exact hnear
  · exact fun hnear => ⟨fs, rfl, hr.lengths, hnear⟩

theorem harmless_iff (hh : 4 ≤ h) (hh' : h + 4 ≤ 2 ^ 32) (hb : 0 < batch)
    (hfits : ∀ k, allocFits alloc batch k = true → k + batch < 2 ^ 32) (pos : ℕ) (bytes : Bytes) :
    ((∀ why ∈ (loadLoop h judge alloc batch (bytes.length + 1) (pos % 2 ^ 32) [] bytes []).stop,
        why.endsProcess = false) ∧
      ((loadLoop h judge alloc batch (bytes.length + 1) (pos % 2 ^ 32) [] bytes []).stop = none →
        WholeRecords h pos bytes)) ↔ Harmless h judge alloc batch pos bytes := by
  have hl := @loadLoop_any h judge alloc batch hh hh' hb hfits (bytes.length + 1) (pos % 2 ^ 32) [] bytes
    (.done _) (Nat.lt_succ_self _)
  rw [List.nil_append, List.length_nil, roomFrom_iff hh hh'] at hl
  generalize loadLoop h judge alloc batch (bytes.length + 1) (pos % 2 ^ 32) [] bytes [] = r at hl
  have hends := fun e => @readWhole_ending h judge hh hh' pos bytes e
  by_cases hroom : Room h judge alloc batch pos bytes
  swap
  · refine iff_of_false (fun hsafe => ?_) (fun hharm => hroom hharm.room)
    exact absurd (hsafe.1 .badAlloc (hl.refused hroom)) (by decide)
  rw [hl.verdict hroom]
  constructor
  · rintro ⟨hstop, hform⟩
    refine ⟨hroom, fun fs rest hbytes hrecs hover => ?_, fun fs rest hbytes hrecs htype => ?_,
      fun fs hbytes hrecs => ?_⟩
    · have hne : rest ≠ [] := by
        rintro rfl
        exact absurd hover.1.1 (by simp; omega)
      have hend := (hends (.stop .outOfBounds)).mpr
        ⟨fs, rest, hbytes, hrecs, reads_stop_iff.mpr ⟨hne, readFrame_overlong hover⟩⟩
      rw [hend] at hstop
      exact absurd (hstop _ rfl) (by decide)
    · have hne : rest ≠ [] := by
        rintro rfl
        exact absurd htype.1.header (by simp; omega)
      have hend := (hends (.stop .nullEntry)).mpr
        ⟨fs, rest, hbytes, hrecs, reads_stop_iff.mpr ⟨hne, readFrame_typeless htype⟩⟩
      rw [hend] at hstop
      exact absurd (hstop _ rfl) (by decide)
    · have hend := (hends .consumed).mpr
        ⟨fs, [], by rw [List.append_nil, hbytes], hrecs, reads_consumed_iff.mpr rfl⟩
      have hwhole := hform (by rw [hend]; rfl)
      rw [hbytes] at hwhole
      exact (wholeRecords_iff hrecs).mp hwhole
  · intro hharm
    have hsplit := (hends _).mp rfl
    obtain ⟨fs, rest, hbytes, hrecs, hend⟩ := hsplit
    generalize (readWhole (readFrame h judge) (pos % 2 ^ 32) bytes).ending = e at hend
    cases e with
    | consumed =>
      refine ⟨nofun, fun _ => ?_⟩
      rw [reads_consumed_iff.mp hend, List.append_nil] at hbytes
      rw [hbytes]
      exact (wholeRecords_iff hrecs).mpr (hharm.near fs hbytes hrecs)
    | leftover carry =>
      refine ⟨fun why hwhy => ?_, nofun⟩
      cases hwhy
      rfl
    | stop why =>
      refine ⟨fun why' hwhy => ?_, nofun⟩
      cases hwhy
      rcases readFrame_stop (reads_stop_iff.mp hend).2 with rfl | rfl | ⟨-, hover⟩ | ⟨-, htype⟩
      · rfl
      · rfl
      · exact absurd hover (hharm.length fs rest hbytes hrecs)
      · exact absurd htype (hharm.typed fs rest hbytes hrecs)

end

end FlyingKV.FramedStream
