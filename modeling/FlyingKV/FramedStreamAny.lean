import FlyingKV.FramedStreamRoundTrip

set_option autoImplicit false

/-!
# What the batched reader makes of any bytes

Reading is described by what a step says of the bytes in front of it. A step is stable when
its verdict does not change as more bytes arrive; then it makes no difference whether they
arrive at once or in batches.
-/
namespace FlyingKV.FramedStream
open ByteOrder

abbrev Step := ℕ → Bytes → ParseStep

/-- Taking frames off the front until the bytes are used up, do not suffice, or stop the reader. -/
inductive Reads (step : Step) : ℕ → Bytes → BatchResult → Prop where
  | done (pos : ℕ) : Reads step pos [] ⟨[], pos, .consumed⟩
  | short {pos : ℕ} {buf : Bytes} (ne : buf ≠ []) (verdict : step pos buf = .needMore) :
      Reads step pos buf ⟨[], pos, .leftover buf⟩
  | stop {pos : ℕ} {buf : Bytes} {why : Stop} (ne : buf ≠ []) (verdict : step pos buf = .stop why) :
      Reads step pos buf ⟨[], pos, .stop why⟩
  | frame {pos : ℕ} {buf : Bytes} {f : Frame} {size : ℕ} {r : BatchResult} (ne : buf ≠ [])
      (verdict : step pos buf = .frame f size) (rest : Reads step ((pos + size) % 2 ^ 32) (buf.drop size) r) :
      Reads step pos buf ⟨f :: r.frames, r.pos, r.ending⟩

def readAll (step : Step) : ℕ → ℕ → Bytes → BatchResult
  | 0, pos, buf => ⟨[], pos, if buf = [] then .consumed else .leftover buf⟩
  | fuel + 1, pos, buf =>
    if buf = [] then ⟨[], pos, .consumed⟩
    else match step pos buf with
      | .needMore => ⟨[], pos, .leftover buf⟩
      | .stop why => ⟨[], pos, .stop why⟩
      | .frame f size =>
        let r := readAll step fuel ((pos + size) % 2 ^ 32) (buf.drop size)
        ⟨f :: r.frames, r.pos, r.ending⟩

/-- All of the bytes at once. -/
def readWhole (step : Step) (pos : ℕ) (buf : Bytes) : BatchResult := readAll step buf.length pos buf

structure Stable (step : Step) : Prop where
  keeps : ∀ pos buf more, step pos buf ≠ .needMore → step pos (buf ++ more) = step pos buf
  size_pos : ∀ pos buf f size, step pos buf = .frame f size → 0 < size
  size_le : ∀ pos buf f size, step pos buf = .frame f size → size ≤ buf.length

section
variable {step : Step}
variable {pos : ℕ} {buf : Bytes} {r : BatchResult}

theorem Reads.unique {r' : BatchResult} (h : Reads step pos buf r) (h' : Reads step pos buf r') : r = r' := by
  induction h generalizing r' with
  | done pos =>
    cases h' with
    | done => rfl
    | short ne => exact absurd rfl ne
    | stop ne => exact absurd rfl ne
    | frame ne => exact absurd rfl ne
  | short ne verdict =>
    cases h' with
    | done => exact absurd rfl ne
    | short => rfl
    | stop _ verdict' => cases verdict.symm.trans verdict'
    | frame _ verdict' => cases verdict.symm.trans verdict'
  | stop ne verdict =>
    cases h' with
    | done => exact absurd rfl ne
    | short _ verdict' => cases verdict.symm.trans verdict'
    | stop _ verdict' =>
      cases verdict.symm.trans verdict'
      rfl
    | frame _ verdict' => cases verdict.symm.trans verdict'
  | frame ne verdict rest ih =>
    cases h' with
    | done => exact absurd rfl ne
    | short _ verdict' => cases verdict.symm.trans verdict'
    | stop _ verdict' => cases verdict.symm.trans verdict'
    | frame _ verdict' rest' =>
      cases verdict.symm.trans verdict'
      rw [ih rest']

theorem reads_readAll (hpos : ∀ pos buf f size, step pos buf = .frame f size → 0 < size) (fuel pos : ℕ)
    (buf : Bytes) (hfuel : buf.length ≤ fuel) : Reads step pos buf (readAll step fuel pos buf) := by
  induction fuel generalizing pos buf with
  | zero =>
    have hnil : buf = [] := List.length_eq_zero_iff.mp (by omega)
    rw [hnil]
    exact .done pos
  | succ fuel ih =>
    rw [readAll]
    by_cases hnil : buf = []
    · rw [if_pos hnil, hnil]
      exact .done pos
    rw [if_neg hnil]
    cases hs : step pos buf with
    | needMore => exact .short hnil hs
    | stop why => exact .stop hnil hs
    | frame f size =>
      refine .frame hnil hs (ih _ _ ?_)
      have hsize := hpos pos buf f size hs
      have hlen := List.length_pos_iff.mpr hnil
      rw [List.length_drop]
      omega

theorem Stable.reads (hs : Stable step) (pos : ℕ) (buf : Bytes) :
    Reads step pos buf (readWhole step pos buf) :=
  reads_readAll hs.size_pos buf.length pos buf le_rfl

theorem Stable.readWhole_eq (hs : Stable step) (h : Reads step pos buf r) : readWhole step pos buf = r :=
  (hs.reads pos buf).unique h

theorem Reads.exists_stop {why : Stop} (h : Reads step pos buf r) (hend : r.ending = .stop why) :
    ∃ p b, step p b = .stop why := by
  induction h with
  | done => cases hend
  | short => cases hend
  | stop ne verdict =>
    cases hend
    exact ⟨_, _, verdict⟩
  | frame ne verdict rest ih => exact ih hend

/-! ## In two parts -/

/-- What is carried on to the next bytes, unless the reader has stopped. -/
def BatchEnd.carried : BatchEnd → Option Bytes
  | .consumed => some []
  | .leftover rest => some rest
  | .stop _ => none

/-- The end at which `carry` is left. -/
def BatchEnd.holding (carry : Bytes) : BatchEnd := if carry = [] then .consumed else .leftover carry

@[simp] theorem carried_holding (carry : Bytes) : (BatchEnd.holding carry).carried = some carry := by
  unfold BatchEnd.holding
  split_ifs with hnil
  · rw [hnil]
    rfl
  · rfl

theorem Reads.append_stop (hs : Stable step) {more : Bytes} (h : Reads step pos buf r)
    (hstop : r.ending.carried = none) : Reads step pos (buf ++ more) r := by
  induction h with
  | done => cases hstop
  | short => cases hstop
  | stop ne verdict =>
    exact .stop (by simp [ne]) ((hs.keeps _ _ more (by simp [verdict])).trans verdict)
  | frame ne verdict rest ih =>
    refine .frame (by simp [ne]) ((hs.keeps _ _ more (by simp [verdict])).trans verdict) ?_
    rw [List.drop_append_of_le_length (hs.size_le _ _ _ _ verdict)]
    exact ih hstop

theorem Reads.append (hs : Stable step) {more carry : Bytes} {r' : BatchResult} (h : Reads step pos buf r)
    (hcarry : r.ending.carried = some carry) (h' : Reads step r.pos (carry ++ more) r') :
    Reads step pos (buf ++ more) ⟨r.frames ++ r'.frames, r'.pos, r'.ending⟩ := by
  induction h with
  | done =>
    cases hcarry
    exact h'
  | short =>
    cases hcarry
    exact h'
  | stop => cases hcarry
  | @frame pos buf f size s ne verdict rest ih =>
    refine .frame (r := ⟨s.frames ++ r'.frames, r'.pos, r'.ending⟩) (by simp [ne])
      ((hs.keeps _ _ more (by simp [verdict])).trans verdict) ?_
    rw [List.drop_append_of_le_length (hs.size_le _ _ _ _ verdict)]
    exact ih hcarry h'

/-- What is carried is nothing, or bytes that do not suffice. -/
theorem Reads.carried {carry : Bytes} (h : Reads step pos buf r) (hcarry : r.ending.carried = some carry) :
    Reads step r.pos carry ⟨[], r.pos, .holding carry⟩ := by
  induction h with
  | done pos =>
    cases hcarry
    exact .done pos
  | short ne verdict =>
    cases hcarry
    rw [BatchEnd.holding, if_neg ne]
    exact .short ne verdict
  | stop => cases hcarry
  | frame ne verdict rest ih => exact ih hcarry

end

/-! ## Frames in unbounded and in 32-bit arithmetic -/

section
variable (h : ℕ) (judge : Judge)

/-- A frame read in unbounded arithmetic. -/
def plainFrame (pos : ℕ) (buf : Bytes) : ParseStep :=
  if buf.length < h then .needMore
  else
    let len := fieldBE 4 buf
    if buf.length < h + 4 + len then .needMore
    else if fieldBE 4 (buf.drop (h + len)) ≠ pos then .stop .corrupt
    else
      let content := (buf.drop h).take len
      match judge.at pos content with
      | .missing => .stop .nullEntry
      | .rejected => .stop .decodeError
      | .accepted => .frame ⟨(buf.take h).drop 4, content⟩ (h + 4 + len)

/-- The length field is so large that the size of the frame wraps. -/
def Wraps (buf : Bytes) : Prop := h ≤ buf.length ∧ 2 ^ 32 ≤ h + 4 + fieldBE 4 buf

instance (buf : Bytes) : Decidable (Wraps h buf) := inferInstanceAs (Decidable (_ ∧ _))

/-- Such a frame is taken for one of a few bytes. Its position is looked for at an offset that
wraps as well or is out of reach, and its content is out of reach. -/
def wrappedFrame (pos : ℕ) (buf : Bytes) : ParseStep :=
  let len := fieldBE 4 buf
  if buf.length < h + 4 + len - 2 ^ 32 then .needMore
  else if h + len < 2 ^ 32 then .stop .outOfBounds
  else if fieldBE 4 (buf.drop (h + len - 2 ^ 32)) ≠ pos then .stop .corrupt
  else .stop .outOfBounds

/-- A frame as the reader sees it in any buffer below 4 GiB. -/
def readFrame (pos : ℕ) (buf : Bytes) : ParseStep :=
  if Wraps h buf then wrappedFrame h pos buf else plainFrame h judge pos buf

variable {h judge}
variable {buf : Bytes} {pos : ℕ} {f : Frame}

theorem parseFrame_eq (hh : h + 4 ≤ 2 ^ 32) (hbuf : buf.length < 2 ^ 32) (pos : ℕ) :
    parseFrame h judge pos buf = readFrame h judge pos buf := by
  have hlen := fieldBE_lt 4 buf
  norm_num at hlen
  unfold parseFrame readFrame
  by_cases hshort : buf.length < h
  · have hw : ¬ Wraps h buf := fun hw => absurd hw.1 (by omega)
    rw [if_pos hshort, if_neg hw, plainFrame, if_pos hshort]
  rw [if_neg hshort]
  dsimp only
  by_cases hwrap : 2 ^ 32 ≤ h + 4 + fieldBE 4 buf
  · have hw : Wraps h buf := ⟨by omega, hwrap⟩
    rw [if_pos hw, wrappedFrame]
    have hsize : (h + 4 + fieldBE 4 buf) % 2 ^ 32 = h + 4 + fieldBE 4 buf - 2 ^ 32 := by
      rw [Nat.mod_eq_sub_mod hwrap, Nat.mod_eq_of_lt (by omega)]
    rw [hsize]
    by_cases hneed : buf.length < h + 4 + fieldBE 4 buf - 2 ^ 32
    · rw [if_pos hneed, if_pos hneed]
    rw [if_neg hneed, if_neg hneed]
    by_cases hoff : h + fieldBE 4 buf < 2 ^ 32
    · rw [Nat.mod_eq_of_lt hoff, if_pos (by omega), if_pos hoff]
    · have hpos : (h + fieldBE 4 buf) % 2 ^ 32 = h + fieldBE 4 buf - 2 ^ 32 := by
        rw [Nat.mod_eq_sub_mod (by omega), Nat.mod_eq_of_lt (by omega)]
      rw [hpos, if_neg (by omega), if_neg hoff, if_pos (show buf.length < h + fieldBE 4 buf by omega)]
  · have hw : ¬ Wraps h buf := fun hw => hwrap hw.2
    rw [if_neg hw, plainFrame, if_neg hshort]
    dsimp only
    rw [Nat.mod_eq_of_lt (show h + 4 + fieldBE 4 buf < 2 ^ 32 by omega),
      Nat.mod_eq_of_lt (show h + fieldBE 4 buf < 2 ^ 32 by omega),
      Nat.mod_eq_of_lt (show fieldBE 4 buf + (h + 4) < 2 ^ 32 by omega),
      show fieldBE 4 buf + (h + 4) = h + 4 + fieldBE 4 buf by omega]
    by_cases hneed : buf.length < h + 4 + fieldBE 4 buf
    · rw [if_pos hneed, if_pos hneed]
    · rw [if_neg hneed, if_neg hneed, if_neg (show ¬ buf.length < h + fieldBE 4 buf + 4 by omega)]
      exact if_congr Iff.rfl rfl (if_neg (show ¬ buf.length < h + fieldBE 4 buf by omega))

theorem fieldBE_drop_append {k : ℕ} (more : Bytes) (hk : k + 4 ≤ buf.length) :
    fieldBE 4 ((buf ++ more).drop k) = fieldBE 4 (buf.drop k) := by
  rw [List.drop_append_of_le_length (by omega)]
  exact fieldBE_append more (by rw [List.length_drop]; omega)

theorem stable_plainFrame (hh : 4 ≤ h) : Stable (plainFrame h judge) where
  keeps pos buf more hne := by
    unfold plainFrame at hne ⊢
    by_cases hshort : buf.length < h
    · rw [if_pos hshort] at hne
      exact absurd rfl hne
    rw [if_neg hshort] at hne ⊢
    have hfield : fieldBE 4 (buf ++ more) = fieldBE 4 buf := fieldBE_append more (by omega)
    dsimp only at hne ⊢
    rw [hfield]
    by_cases hneed : buf.length < h + 4 + fieldBE 4 buf
    · rw [if_pos hneed] at hne
      exact absurd rfl hne
    have hlen : (buf ++ more).length = buf.length + more.length := List.length_append
    have hcontent : ((buf ++ more).drop h).take (fieldBE 4 buf) = (buf.drop h).take (fieldBE 4 buf) := by
      rw [List.drop_append_of_le_length (by omega),
        List.take_append_of_le_length (by rw [List.length_drop]; omega)]
    have hhdr : (buf ++ more).take h = buf.take h := List.take_append_of_le_length (by omega)
    rw [if_neg (show ¬ (buf ++ more).length < h by omega),
      if_neg (show ¬ (buf ++ more).length < h + 4 + fieldBE 4 buf by omega), if_neg hneed,
      fieldBE_drop_append more (by omega), hcontent, hhdr]
  size_pos pos buf f size hf := by
    unfold plainFrame at hf
    dsimp only at hf
    split_ifs at hf
    cases hj : judge.at pos ((buf.drop h).take (fieldBE 4 buf)) <;> rw [hj] at hf <;> cases hf
    omega
  size_le pos buf f size hf := by
    unfold plainFrame at hf
    dsimp only at hf
    split_ifs at hf
    cases hj : judge.at pos ((buf.drop h).take (fieldBE 4 buf)) <;> rw [hj] at hf <;> cases hf
    omega

theorem stable_readFrame (hh : 4 ≤ h) (hh' : h + 4 ≤ 2 ^ 32) : Stable (readFrame h judge) where
  keeps pos buf more hne := by
    unfold readFrame at hne ⊢
    have hlen : (buf ++ more).length = buf.length + more.length := List.length_append
    by_cases hshort : buf.length < h
    · have hw : ¬ Wraps h buf := fun hw => absurd hw.1 (by omega)
      rw [if_neg hw, plainFrame, if_pos hshort] at hne
      exact absurd rfl hne
    have hfield : fieldBE 4 (buf ++ more) = fieldBE 4 buf := fieldBE_append more (by omega)
    have hwraps : Wraps h (buf ++ more) ↔ Wraps h buf := by
      rw [Wraps, Wraps, hfield]
      exact and_congr_left fun _ => ⟨fun _ => by omega, fun _ => by omega⟩
    by_cases hw : Wraps h buf
    · rw [if_pos hw] at hne
      rw [if_pos hw, if_pos (hwraps.mpr hw)]
      have hlt := fieldBE_lt 4 buf
      norm_num at hlt
      unfold wrappedFrame at hne ⊢
      rw [hfield]
      dsimp only at hne ⊢
      by_cases hneed : buf.length < h + 4 + fieldBE 4 buf - 2 ^ 32
      · rw [if_pos hneed] at hne
        exact absurd rfl hne
      rw [if_neg (show ¬ (buf ++ more).length < _ by omega), if_neg hneed]
      by_cases hoff : h + fieldBE 4 buf < 2 ^ 32
      · rw [if_pos hoff, if_pos hoff]
      · rw [if_neg hoff, if_neg hoff, fieldBE_drop_append more (by omega)]
    · rw [if_neg hw] at hne
      rw [if_neg hw, if_neg (hwraps.not.mpr hw)]
      exact (stable_plainFrame hh).keeps pos buf more hne
  size_pos pos buf f size hf := by
    unfold readFrame wrappedFrame at hf
    dsimp only at hf
    split_ifs at hf
    exact (stable_plainFrame hh).size_pos pos buf f size hf
  size_le pos buf f size hf := by
    unfold readFrame wrappedFrame at hf
    dsimp only at hf
    split_ifs at hf
    exact (stable_plainFrame hh).size_le pos buf f size hf

/-! ## What the reader has behind it -/

/-- A record that starts at `pos`. -/
structure RecordAt (h : ℕ) (judge : Judge) (pos : ℕ) (f : Frame) : Prop where
  header : f.hdr.length + 4 = h
  small : f.size < 2 ^ 32
  accepted : judge.at (pos % 2 ^ 32) f.content = .accepted

def Records (h : ℕ) (judge : Judge) : ℕ → List Frame → Prop
  | _, [] => True
  | pos, f :: fs => RecordAt h judge pos f ∧ Records h judge (pos + f.size) fs

theorem RecordAt.size_eq (r : RecordAt h judge pos f) : f.size = h + 4 + f.content.length := by
  have hh := r.header
  unfold Frame.size
  omega

theorem RecordAt.sound (r : RecordAt h judge pos f) : Sound h acceptAll f :=
  ⟨r.header, r.small, rfl⟩

theorem plainFrame_bytes (r : RecordAt h judge pos f) (rest : Bytes) :
    plainFrame h judge (pos % 2 ^ 32) (f.bytes pos ++ rest) = .frame f f.size := by
  have hs := r.small
  have he := r.size_eq
  have hh := r.header
  have hlen : (f.bytes pos ++ rest).length = f.size + rest.length := by simp
  have hfield := fieldBE_bytes r.sound pos rest
  have hdrop := drop_bytes hh pos rest
  have htake := header_bytes hh pos rest
  have hpos := offset_bytes hh pos rest
  unfold plainFrame
  simp only [hfield, hlen]
  rw [if_neg (by omega), if_neg (by omega), hpos, if_neg (by simp), hdrop, List.take_left' rfl,
    r.accepted, htake, he]

theorem readFrame_bytes (r : RecordAt h judge pos f) (rest : Bytes) :
    readFrame h judge (pos % 2 ^ 32) (f.bytes pos ++ rest) = .frame f f.size := by
  have hs := r.small
  have he := r.size_eq
  have hw : ¬ Wraps h (f.bytes pos ++ rest) := by
    rintro ⟨-, hw⟩
    rw [fieldBE_bytes r.sound pos rest] at hw
    omega
  rw [readFrame, if_neg hw]
  exact plainFrame_bytes r rest

/-- What a step takes off the front is the record with the fields it has read. -/
theorem eq_bytes_of_readFrame (hh : 4 ≤ h) {size : ℕ} (hf : readFrame h judge (pos % 2 ^ 32) buf = .frame f size) :
    buf = f.bytes pos ++ buf.drop size ∧ size = f.size ∧ RecordAt h judge pos f := by
  unfold readFrame wrappedFrame plainFrame at hf
  dsimp only at hf
  split_ifs at hf with hw _ _ _ hshort hneed hpos
  cases hj : judge.at (pos % 2 ^ 32) ((buf.drop h).take (fieldBE 4 buf)) with
  | missing => rw [hj] at hf; cases hf
  | rejected => rw [hj] at hf; cases hf
  | accepted =>
    rw [hj] at hf
    cases hf
    have hlen : ((buf.drop h).take (fieldBE 4 buf)).length = fieldBE 4 buf := by
      rw [List.length_take, List.length_drop]
      omega
    have hhdr : ((buf.take h).drop 4).length + 4 = h := by
      rw [List.length_drop, List.length_take]
      omega
    have hsmall : h + 4 + fieldBE 4 buf < 2 ^ 32 := by
      by_contra hlarge
      exact hw ⟨by omega, by omega⟩
    have hlast : writeBE 4 pos = (buf.drop (h + fieldBE 4 buf)).take 4 := by
      have hle : 4 ≤ (buf.drop (h + fieldBE 4 buf)).length := by
        rw [List.length_drop]
        omega
      rw [← writeBE_fieldBE hle, not_not.mp hpos]
      exact (writeBE_mod 4 pos).symm
    refine ⟨?_, ?_, hhdr, ?_, hj⟩
    · have hfirst : buf.take 4 ++ (buf.take h).drop 4 = buf.take h := by
        rw [← Nat.min_eq_left hh, ← List.take_take, Nat.min_eq_left hh, List.take_append_drop]
      rw [Frame.bytes, hlen, writeBE_fieldBE (by omega), hfirst, ← List.take_add, hlast, ← List.take_add,
        show h + fieldBE 4 buf + 4 = h + 4 + fieldBE 4 buf by omega, List.take_append_drop]
    · simp only [Frame.size, hlen]
      omega
    · simp only [Frame.size, hlen]
      omega

theorem reads_streamBytes {step : Step}
    (hstep : ∀ pos f rest, RecordAt h judge pos f → step (pos % 2 ^ 32) (f.bytes pos ++ rest) = .frame f f.size)
    {fs : List Frame} (hr : Records h judge pos fs) {rest : Bytes} {r : BatchResult}
    (hrest : Reads step ((pos + streamSize fs) % 2 ^ 32) rest r) :
    Reads step (pos % 2 ^ 32) (streamBytes pos fs ++ rest) ⟨fs ++ r.frames, r.pos, r.ending⟩ := by
  induction fs generalizing pos with
  | nil => exact hrest
  | cons f fs ih =>
    have hbytes : streamBytes pos (f :: fs) ++ rest =
        f.bytes pos ++ (streamBytes (pos + f.size) fs ++ rest) := by
      rw [streamBytes, List.append_assoc]
    have hne : f.bytes pos ++ (streamBytes (pos + f.size) fs ++ rest) ≠ [] := by
      rw [← List.length_pos_iff, List.length_append, Frame.length_bytes, Frame.size]
      omega
    have hsize : pos + streamSize (f :: fs) = pos + f.size + streamSize fs := by
      rw [streamSize_cons]
      omega
    rw [hsize] at hrest
    have htail := ih hr.2 hrest
    rw [hbytes]
    refine .frame (r := ⟨fs ++ r.frames, r.pos, r.ending⟩) hne (hstep pos f _ hr.1) ?_
    rw [List.drop_left' (Frame.length_bytes pos f), Nat.mod_add_mod]
    exact htail

/-- The last field of a stream is the position of its last frame. -/
theorem streamBytes_ends {fs : List Frame} (hne : fs ≠ []) {n : ℕ} {pre : Bytes}
    (heq : streamBytes pos fs = pre ++ writeBE 4 n) :
    ∃ p, pos ≤ p ∧ p < pos + streamSize fs ∧ p % 256 ^ 4 = n % 256 ^ 4 := by
  obtain ⟨init, f, rfl⟩ := List.eq_nil_or_concat' fs |>.resolve_left hne
  rw [streamBytes_append, streamBytes, streamBytes, List.append_nil, Frame.bytes, ← List.append_assoc] at heq
  have hlast := List.append_inj_right' heq (by simp)
  refine ⟨pos + streamSize init, by omega, ?_, ?_⟩
  · rw [streamSize_append, streamSize_cons, Frame.size]
    omega
  · rw [← readBE_writeBE, ← readBE_writeBE, hlast]

/-- A reading has a run of records behind it and, where it stands, its reason to end. -/
theorem Reads.split (hh : 4 ≤ h) {r : BatchResult} (hr : Reads (readFrame h judge) (pos % 2 ^ 32) buf r) :
    ∃ rest, buf = streamBytes pos r.frames ++ rest ∧ Records h judge pos r.frames ∧
      r.pos = (pos + streamSize r.frames) % 2 ^ 32 ∧
      Reads (readFrame h judge) r.pos rest ⟨[], r.pos, r.ending⟩ := by
  generalize hp : pos % 2 ^ 32 = p at hr
  induction hr generalizing pos with
  | done => exact ⟨[], rfl, trivial, hp.symm, .done _⟩
  | @short _ buf ne verdict => exact ⟨buf, rfl, trivial, hp.symm, .short ne verdict⟩
  | @stop _ buf _ ne verdict => exact ⟨buf, rfl, trivial, hp.symm, .stop ne verdict⟩
  | @frame _ buf f size s ne verdict rest ih =>
    subst hp
    obtain ⟨hbuf, rfl, hrec⟩ := eq_bytes_of_readFrame hh verdict
    obtain ⟨tail, htail, hrecs, hpos, hend⟩ := @ih (pos + f.size) (Nat.mod_add_mod _ _ _).symm
    refine ⟨tail, ?_, ⟨hrec, hrecs⟩, ?_, hend⟩
    · rw [streamBytes, List.append_assoc, ← htail]
      exact hbuf
    · rw [hpos, streamSize_cons]
      congr 1
      omega

end

end FlyingKV.FramedStream
