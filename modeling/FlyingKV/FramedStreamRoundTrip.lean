import FlyingKV.FramedStream

set_option autoImplicit false

/-!
# What the batched reader makes of a well-formed stream

For every batch size the reader hands over exactly the frames of the stream,
unless the block for some batch is refused; `Fits` says exactly when none is.
-/
namespace FlyingKV.FramedStream
open ByteOrder DiskProgram

/-- A frame as the writer produces it and the reader accepts it. -/
structure Sound (h : ℕ) (judge : Judge) (f : Frame) : Prop where
  header : f.hdr.length + 4 = h
  small : f.size < 2 ^ 32
  accepted : judge f.content = .accepted

section
variable {h : ℕ} {judge : Judge}
variable {f : Frame}

theorem Sound.size_eq (s : Sound h judge f) : f.size = h + 4 + f.content.length := by
  have hh := s.header
  unfold Frame.size
  omega

theorem fieldBE_bytes (s : Sound h judge f) (pos : ℕ) (rest : Bytes) :
    fieldBE 4 (f.bytes pos ++ rest) = f.content.length := by
  have hs := s.small
  have he := s.size_eq
  rw [Frame.bytes, List.append_assoc, List.append_assoc, List.append_assoc,
    fieldBE_writeBE_append, Nat.mod_eq_of_lt]
  norm_num
  omega

theorem bytes_append (f : Frame) (pos : ℕ) (rest : Bytes) : f.bytes pos ++ rest =
    (writeBE 4 f.content.length ++ f.hdr) ++ (f.content ++ (writeBE 4 pos ++ rest)) := by
  simp [Frame.bytes]

theorem length_prefixed (hh : f.hdr.length + 4 = h) : (writeBE 4 f.content.length ++ f.hdr).length = h := by
  rw [List.length_append, length_writeBE, Nat.add_comm, hh]

theorem drop_bytes (hh : f.hdr.length + 4 = h) (pos : ℕ) (rest : Bytes) :
    (f.bytes pos ++ rest).drop h = f.content ++ (writeBE 4 pos ++ rest) := by
  rw [bytes_append, List.drop_left' (length_prefixed hh)]

theorem header_bytes (hh : f.hdr.length + 4 = h) (pos : ℕ) (rest : Bytes) :
    ((f.bytes pos ++ rest).take h).drop 4 = f.hdr := by
  rw [bytes_append, List.take_left' (length_prefixed hh), List.drop_left' (length_writeBE 4 _)]

theorem offset_bytes (hh : f.hdr.length + 4 = h) (pos : ℕ) (rest : Bytes) :
    fieldBE 4 ((f.bytes pos ++ rest).drop (h + f.content.length)) = pos % 2 ^ 32 := by
  rw [← List.drop_drop, drop_bytes hh, List.drop_left' rfl, fieldBE_writeBE_append]
  norm_num

theorem parseFrame_bytes (s : Sound h judge f) (pos : ℕ) (rest : Bytes) :
    parseFrame h judge (pos % 2 ^ 32) (f.bytes pos ++ rest) = .frame f f.size := by
  have hs := s.small
  have he := s.size_eq
  have hh := s.header
  have hlen : (f.bytes pos ++ rest).length = f.size + rest.length := by simp
  have hfield := fieldBE_bytes s pos rest
  have hdrop := drop_bytes hh pos rest
  have htake := header_bytes hh pos rest
  have hpos := offset_bytes hh pos rest
  have hm1 : (h + 4 + f.content.length) % 2 ^ 32 = f.size := by
    rw [Nat.mod_eq_of_lt (by omega)]
    omega
  have hm2 : (h + f.content.length) % 2 ^ 32 = h + f.content.length :=
    Nat.mod_eq_of_lt (by omega)
  have hm3 : (f.content.length + (h + 4)) % 2 ^ 32 = f.size := by
    rw [Nat.mod_eq_of_lt (by omega)]
    omega
  unfold parseFrame
  simp only [hfield, hm1, hm2, hm3, hlen]
  rw [if_neg (by omega), if_neg (by omega), if_neg (by omega), hpos, if_neg (by simp),
    if_neg (by omega), hdrop, List.take_left' rfl, Judge.at_accepted s.accepted, htake]

theorem parseFrame_take (s : Sound h judge f) (p pos n : ℕ) (hn : n < f.size) :
    parseFrame h judge p ((f.bytes pos).take n) = .needMore := by
  have hlen : ((f.bytes pos).take n).length = n := by
    rw [List.length_take, Frame.length_bytes]
    omega
  have hs := s.small
  have he := s.size_eq
  have hh := s.header
  unfold parseFrame
  simp only [hlen]
  by_cases hlt : n < h
  · rw [if_pos hlt]
  · have hfield : fieldBE 4 ((f.bytes pos).take n) = f.content.length := by
      have h4 : 4 ≤ ((f.bytes pos).take n).length := by omega
      rw [← fieldBE_append ((f.bytes pos).drop n) h4, List.take_append_drop]
      simpa using fieldBE_bytes s pos []
    rw [if_neg hlt, hfield, Nat.mod_eq_of_lt (show h + 4 + f.content.length < 2 ^ 32 by omega),
      if_pos (by omega)]

end

/-! ## Cutting a stream after a number of bytes -/

/-- The frames complete within the first `n` bytes, the others, and how many
bytes of the first of the others lie before the cut. -/
def cut : ℕ → List Frame → List Frame × List Frame × ℕ
  | n, [] => ([], [], n)
  | n, f :: fs =>
    if f.size ≤ n then (f :: (cut (n - f.size) fs).1, (cut (n - f.size) fs).2) else ([], f :: fs, n)

def leftoverAt (n : ℕ) (fs : List Frame) : ℕ := (cut n fs).2.2

theorem cut_append (n : ℕ) (fs : List Frame) : (cut n fs).1 ++ (cut n fs).2.1 = fs := by
  induction fs generalizing n with
  | nil => rfl
  | cons f fs ih =>
    by_cases hf : f.size ≤ n
    · simp [cut, hf, ih]
    · simp [cut, hf]

theorem cut_size (n : ℕ) (fs : List Frame) : streamSize (cut n fs).1 + leftoverAt n fs = n := by
  induction fs generalizing n with
  | nil => simp [cut, leftoverAt]
  | cons f fs ih =>
    by_cases hf : f.size ≤ n
    · have hi := ih (n - f.size)
      simp only [leftoverAt, cut, if_pos hf, streamSize_cons] at hi ⊢
      omega
    · simp [cut, leftoverAt, hf]

theorem streamSize_cut (n : ℕ) (fs : List Frame) :
    streamSize (cut n fs).1 + streamSize (cut n fs).2.1 = streamSize fs := by
  rw [← streamSize_append, cut_append]

theorem eq_nil_of_streamSize {fs : List Frame} (hs : streamSize fs = 0) : fs = [] := by
  cases fs with
  | nil => rfl
  | cons f fs =>
    rw [streamSize_cons] at hs
    unfold Frame.size at hs
    omega

theorem leftover_lt (n : ℕ) (fs : List Frame) :
    ∀ f ∈ (cut n fs).2.1.head?, leftoverAt n fs < f.size := by
  induction fs generalizing n with
  | nil => simp [cut]
  | cons f fs ih =>
    by_cases hf : f.size ≤ n
    · simpa only [leftoverAt, cut, if_pos hf] using ih (n - f.size)
    · simp only [leftoverAt, cut, if_neg hf, List.head?_cons, Option.mem_some_iff, forall_eq']
      omega

theorem leftover_eq_zero {n : ℕ} {fs : List Frame} (hn : n ≤ streamSize fs)
    (hr : (cut n fs).2.1 = []) : leftoverAt n fs = 0 := by
  have ha := cut_append n fs
  have hs := cut_size n fs
  rw [hr, List.append_nil] at ha
  rw [ha] at hs
  omega

theorem cut_add (m n : ℕ) (fs : List Frame) :
    cut (m + n) fs = ((cut m fs).1 ++ (cut (leftoverAt m fs + n) (cut m fs).2.1).1,
      (cut (leftoverAt m fs + n) (cut m fs).2.1).2) := by
  induction fs generalizing m with
  | nil => simp [cut, leftoverAt]
  | cons f fs ih =>
    by_cases hf : f.size ≤ m
    · have hsub : m + n - f.size = (m - f.size) + n := by omega
      simp only [leftoverAt, cut, if_pos hf, if_pos (show f.size ≤ m + n by omega), hsub,
        List.cons_append]
      rw [ih]
      rfl
    · simp [leftoverAt, cut, hf]

theorem leftoverAt_add (m n : ℕ) (fs : List Frame) :
    leftoverAt (m + n) fs = leftoverAt (leftoverAt m fs + n) (cut m fs).2.1 := by
  simp only [leftoverAt, cut_add m n fs]

theorem cut_of_add {m n : ℕ} (hmn : m ≤ n) (fs : List Frame) :
    cut n fs = ((cut m fs).1 ++ (cut (n - streamSize (cut m fs).1) (cut m fs).2.1).1,
      (cut (n - streamSize (cut m fs).1) (cut m fs).2.1).2) := by
  have hs := cut_size m fs
  have hn : leftoverAt m fs + (n - m) = n - streamSize (cut m fs).1 := by omega
  rw [← hn, ← cut_add, Nat.add_sub_cancel' hmn]

theorem leftoverAt_of_add {m n : ℕ} (hmn : m ≤ n) (fs : List Frame) :
    leftoverAt n fs = leftoverAt (n - streamSize (cut m fs).1) (cut m fs).2.1 := by
  simp only [leftoverAt, cut_of_add hmn fs]

theorem leftoverAt_leftoverAt (n : ℕ) (fs : List Frame) :
    leftoverAt (leftoverAt n fs) (cut n fs).2.1 = leftoverAt n fs := by
  have hadd := leftoverAt_add n 0 fs
  rw [Nat.add_zero, Nat.add_zero] at hadd
  exact hadd.symm

theorem cut_streamSize (fs : List Frame) : (cut (streamSize fs) fs).2.1 = [] := by
  induction fs with
  | nil => rfl
  | cons f fs ih => simp [cut, ih]

theorem cut_append_right (k : ℕ) (fs gs : List Frame) :
    cut (streamSize fs + k) (fs ++ gs) = (fs ++ (cut k gs).1, (cut k gs).2) := by
  induction fs with
  | nil => simp
  | cons f fs ih =>
    have hsub : f.size + streamSize fs + k - f.size = streamSize fs + k := by omega
    rw [List.cons_append, cut, streamSize_cons, if_pos (by omega), hsub, ih]
    rfl

/-- The bytes after a cut are the carried bytes followed by the unread ones. -/
theorem drop_cut (pos n : ℕ) (fs : List Frame) :
    (streamBytes pos fs).drop (streamSize (cut n fs).1) =
      streamBytes (pos + streamSize (cut n fs).1) (cut n fs).2.1 := by
  conv_lhs => rw [← cut_append n fs, streamBytes_append]
  exact List.drop_left' (by simp [cut_append])

/-! ## One batch -/

section
variable {h : ℕ} {judge : Judge}

def batchEnd (pos n : ℕ) (fs : List Frame) : BatchEnd :=
  if leftoverAt n fs = 0 then .consumed
  else .leftover ((streamBytes (pos + streamSize (cut n fs).1) (cut n fs).2.1).take (leftoverAt n fs))

theorem parseBatch_take (fs : List Frame) (sound : ∀ f ∈ fs, Sound h judge f) (pos n fuel : ℕ)
    (hn : n ≤ streamSize fs) (hfuel : n ≤ fuel) :
    parseBatch h judge fuel (pos % 2 ^ 32) ((streamBytes pos fs).take n) =
      ⟨(cut n fs).1, (pos + streamSize (cut n fs).1) % 2 ^ 32, batchEnd pos n fs⟩ := by
  induction fs generalizing pos n fuel with
  | nil =>
    have h0 : n = 0 := by simpa using hn
    subst n
    cases fuel <;> simp [parseBatch, streamBytes, cut, batchEnd, leftoverAt]
  | cons f fs ih =>
    have sf := sound f List.mem_cons_self
    have hpos : 0 < f.size := by unfold Frame.size; omega
    by_cases h0 : n = 0
    · subst n
      cases fuel <;> simp [parseBatch, cut, batchEnd, leftoverAt, Nat.not_le.mpr hpos]
    · obtain ⟨fuel, rfl⟩ : ∃ k, fuel = k + 1 := ⟨fuel - 1, by omega⟩
      have hne : (streamBytes pos (f :: fs)).take n ≠ [] := by
        rw [← List.length_pos_iff, List.length_take, length_streamBytes]
        omega
      rw [parseBatch, if_neg hne]
      by_cases hf : f.size ≤ n
      · have htake : (streamBytes pos (f :: fs)).take n =
            f.bytes pos ++ (streamBytes (pos + f.size) fs).take (n - f.size) := by
          rw [streamBytes, List.take_append, List.take_of_length_le (by simpa using hf),
            Frame.length_bytes]
        have hi := ih (fun g hg => sound g (List.mem_cons_of_mem f hg)) (pos + f.size) (n - f.size)
          fuel (by simp only [streamSize_cons] at hn; omega) (by omega)
        rw [htake, parseFrame_bytes sf]
        simp only [List.drop_left' (Frame.length_bytes pos f), Nat.mod_add_mod, hi]
        simp only [cut, if_pos hf, batchEnd, leftoverAt, streamSize_cons, Nat.add_assoc]
      · have htake : (streamBytes pos (f :: fs)).take n = (f.bytes pos).take n := by
          rw [streamBytes, List.take_append_of_le_length (by rw [Frame.length_bytes]; omega)]
        rw [htake, parseFrame_take sf _ _ _ (by omega)]
        simp [cut, hf, batchEnd, leftoverAt, h0, htake]

/-! ## The whole loop -/

variable (alloc : ℕ → Option ℕ) (batch : ℕ)

/-- No block is refused while the first `n` bytes of the stream are read: a batch is read at every
multiple of the batch size, with the bytes of the frame that straddles this point carried over. -/
def FitsUpTo (n carried : ℕ) (fs : List Frame) : Prop :=
  ∀ j, carried + j * batch ≤ n → allocFits alloc batch (leftoverAt (carried + j * batch) fs) = true

/-- No block is refused for the whole stream. -/
def Fits (carried : ℕ) (fs : List Frame) : Prop :=
  ∀ j, carried + j * batch ≤ streamSize fs →
    allocFits alloc batch (leftoverAt (carried + j * batch) fs) = true

variable {alloc batch}
variable {fs : List Frame} {n carried : ℕ}

/-- Enough for `Fits`: blocks are found for everything shorter than the longest frame. -/
theorem fits_of_size_le (bound : ℕ) (hsize : ∀ f ∈ fs, f.size ≤ bound)
    (hall : ∀ k, k = 0 ∨ k < bound → allocFits alloc batch k = true) : Fits alloc batch 0 fs := by
  intro j hj
  apply hall
  have hmem := cut_append (0 + j * batch) fs
  have hlt := leftover_lt (0 + j * batch) fs
  cases hr : (cut (0 + j * batch) fs).2.1 with
  | nil => exact .inl (leftover_eq_zero hj hr)
  | cons f rest =>
    rw [hr] at hmem hlt
    exact .inr ((hlt f rfl).trans_le (hsize f (by rw [← hmem]; simp)))

theorem fitsUpTo_next (hc : leftoverAt carried fs = carried) (hle : carried + batch ≤ n) :
    FitsUpTo alloc batch n carried fs ↔ allocFits alloc batch carried = true ∧
      FitsUpTo alloc batch (n - streamSize (cut (carried + batch) fs).1)
        (leftoverAt (carried + batch) fs) (cut (carried + batch) fs).2.1 := by
  have hs := cut_size (carried + batch) fs
  have hstep (j : ℕ) : leftoverAt (leftoverAt (carried + batch) fs + j * batch)
      (cut (carried + batch) fs).2.1 = leftoverAt (carried + (j + 1) * batch) fs := by
    rw [← leftoverAt_add]
    congr 1
    ring
  have hbound (j : ℕ) : leftoverAt (carried + batch) fs + j * batch ≤
      n - streamSize (cut (carried + batch) fs).1 ↔ carried + (j + 1) * batch ≤ n := by
    rw [Nat.add_mul, Nat.one_mul]
    omega
  constructor
  · intro hfit
    refine ⟨by simpa [hc] using hfit 0 (by simp; omega), fun j hj => ?_⟩
    rw [hstep]
    exact hfit (j + 1) ((hbound j).mp hj)
  · rintro ⟨h0, hfit⟩ j hj
    cases j with
    | zero => simpa [hc] using h0
    | succ j =>
      rw [← hstep]
      exact hfit j ((hbound j).mpr hj)

theorem fitsUpTo_last (hc : leftoverAt carried fs = carried) (hle : carried ≤ n) (hlt : n < carried + batch) :
    FitsUpTo alloc batch n carried fs ↔ allocFits alloc batch carried = true := by
  constructor
  · intro hfit
    simpa [hc] using hfit 0 (by simpa using hle)
  · intro h0 j hj
    cases j with
    | zero => simpa [hc] using h0
    | succ j =>
      have := Nat.le_mul_of_pos_left batch (show 0 < j + 1 by omega)
      omega

/-- The frames handed over when the stream ends after `n` bytes: all complete ones if no bytes
are left over, and otherwise those complete at the end of the last full batch. -/
def handedOver (batch n carried : ℕ) (fs : List Frame) : List Frame :=
  if leftoverAt n fs = 0 then (cut n fs).1 else (cut (carried + (n - carried) / batch * batch) fs).1

theorem handedOver_next (hb : 0 < batch) (hle : carried + batch ≤ n) :
    handedOver batch n carried fs = (cut (carried + batch) fs).1 ++
      handedOver batch (n - streamSize (cut (carried + batch) fs).1)
        (leftoverAt (carried + batch) fs) (cut (carried + batch) fs).2.1 := by
  have hs := cut_size (carried + batch) fs
  have hdiv : (n - carried) / batch * batch = batch + (n - (carried + batch)) / batch * batch := by
    rw [show n - carried = n - (carried + batch) + batch by omega, Nat.add_div_right _ hb]
    ring
  have hsub : n - streamSize (cut (carried + batch) fs).1 - leftoverAt (carried + batch) fs =
      n - (carried + batch) := by omega
  have hstop : carried + batch + (n - (carried + batch)) / batch * batch -
      streamSize (cut (carried + batch) fs).1 =
        leftoverAt (carried + batch) fs + (n - (carried + batch)) / batch * batch := by omega
  unfold handedOver
  rw [leftoverAt_of_add hle, hsub, hdiv, ← Nat.add_assoc]
  split_ifs
  · rw [cut_of_add hle]
  · rw [cut_of_add (Nat.le_add_right (carried + batch) _), hstop]

theorem handedOver_last (hb : 0 < batch) (hc : leftoverAt carried fs = carried) (hlt : n < carried + batch)
    (hne : leftoverAt n fs ≠ 0) : handedOver batch n carried fs = [] := by
  have hs := cut_size carried fs
  have hnil : (cut carried fs).1 = [] := eq_nil_of_streamSize (by omega)
  rw [handedOver, if_neg hne, Nat.div_eq_of_lt (by omega), Nat.zero_mul, Nat.add_zero, hnil]

/-- The outcome of reading the first `n` bytes of a stream: a stream that ends inside a frame is
reported as corrupt, after the complete frames have been noted. -/
def LoadedUpTo (fs : List Frame) (n : ℕ) (handed : List Frame) (fits : Prop) (r : LoadResult) : Prop :=
  (fits ∧ r.stop = (if leftoverAt n fs = 0 then none else some .corrupt) ∧ r.parsed = (cut n fs).1 ∧
      r.batches.flatten = handed ∧ r.faults = []) ∨
    (¬ fits ∧ r.stop = some .badAlloc)

theorem LoadedUpTo.after {m : ℕ} {handed : List Frame} {fits : Prop} {r : LoadResult} (hmn : m ≤ n)
    (hl : LoadedUpTo (cut m fs).2.1 (n - streamSize (cut m fs).1) handed fits r) :
    LoadedUpTo fs n ((cut m fs).1 ++ handed) fits (r.after (cut m fs).1) := by
  rcases hl with ⟨hf, hs, hp, hb, hr⟩ | ⟨hf, hs⟩
  · refine .inl ⟨hf, ?_, ?_, ?_, hr⟩
    · rw [leftoverAt_of_add hmn]
      exact hs
    · rw [cut_of_add hmn, ← hp]
      rfl
    · simp [LoadResult.after, hb]
  · exact .inr ⟨hf, hs⟩

theorem LoadedUpTo.congr {handed : List Frame} {fits fits' : Prop} {r : LoadResult}
    (hl : LoadedUpTo fs n handed fits r) (he : fits ↔ fits') : LoadedUpTo fs n handed fits' r := by
  rwa [LoadedUpTo, ← he]

theorem carry_append_take {pos : ℕ} {carry unread : Bytes} (hbytes : carry ++ unread = (streamBytes pos fs).take n)
    (k : ℕ) (hk : carry.length + k ≤ n) :
    carry ++ unread.take k = (streamBytes pos fs).take (carry.length + k) := by
  rw [← List.take_length_add_append, hbytes, List.take_take, Nat.min_eq_left hk]

/-- What the next round has is the stream behind the frames of this one. -/
theorem rest_append_drop {pos m : ℕ} {carry unread rest : Bytes}
    (hbytes : carry ++ unread = (streamBytes pos fs).take n) (hm : m = carry.length + batch) (hmn : m ≤ n)
    (hr : rest = (streamBytes (pos + streamSize (cut m fs).1) (cut m fs).2.1).take (leftoverAt m fs)) :
    rest ++ unread.drop batch = (streamBytes (pos + streamSize (cut m fs).1) (cut m fs).2.1).take
      (n - streamSize (cut m fs).1) := by
  have hsz := cut_size m fs
  have hrest : unread.drop batch = ((streamBytes pos fs).drop m).take (n - m) := by
    rw [← List.drop_take, ← hbytes, hm, List.drop_length_add_append]
  have hsum : n - streamSize (cut m fs).1 = leftoverAt m fs + (n - m) := by omega
  rw [hr, hrest, ← drop_cut, hsum, List.take_add, List.drop_drop, hsz]

theorem cut_eq_nil (h : leftoverAt n fs = n) : (cut n fs).1 = [] := by
  have hs := cut_size n fs
  exact eq_nil_of_streamSize (by omega)

variable (alloc) in
theorem loadLoop_take (hb : 0 < batch) (fuel pos : ℕ) (fs : List Frame)
    (sound : ∀ f ∈ fs, Sound h judge f) (n : ℕ) (hn : n ≤ streamSize fs) (carry unread : Bytes)
    (hbytes : carry ++ unread = (streamBytes pos fs).take n)
    (hc : leftoverAt carry.length fs = carry.length) (hfuel : unread.length < fuel) :
    LoadedUpTo fs n (handedOver batch n carry.length fs) (FitsUpTo alloc batch n carry.length fs)
      (loadLoop h judge alloc batch fuel (pos % 2 ^ 32) carry unread []) := by
  induction fuel generalizing pos fs n carry unread with
  | zero => omega
  | succ fuel ih =>
    have hsize : carry.length + unread.length = n := by
      rw [← List.length_append, hbytes, List.length_take, length_streamBytes]
      omega
    rw [loadLoop]
    by_cases ha : allocFits alloc batch carry.length = true
    swap
    · refine .inr ⟨fun hfit => ha ?_, by simp [ha]⟩
      simpa [hc] using hfit 0 (by simp; omega)
    simp only [ha, Bool.not_true, Bool.false_eq_true, if_false, List.head?_nil, List.tail_nil]
    by_cases hu : unread = []
    · -- the last read finds the end of the file
      subst hu
      rw [List.length_nil, Nat.add_zero] at hsize
      have hnil : (cut n fs).1 = [] := cut_eq_nil (by rw [← hsize, hc])
      have hcarry : carry = [] ↔ leftoverAt n fs = 0 := by
        rw [← hsize, hc, List.length_eq_zero_iff]
      refine .inl ⟨(fitsUpTo_last hc (by omega) (by omega)).mpr ha, ?_, ?_, ?_, ?_⟩
      · simp [hcarry]
      · simp [hnil]
      · by_cases h0 : leftoverAt n fs = 0
        · simp [handedOver, h0, hnil]
        · simp [handedOver_last hb hc (show n < carry.length + batch by omega) h0]
      · simp
    have hchunk : unread.take batch ≠ [] := by
      rw [← List.length_pos_iff, List.length_take]
      have := List.length_pos_iff.mpr hu
      omega
    rw [if_neg hchunk]
    obtain ⟨m, hm⟩ : ∃ m, m = carry.length + (unread.take batch).length := ⟨_, rfl⟩
    have hmn : m ≤ n := by
      rw [hm, List.length_take]
      omega
    have hbuf : carry ++ unread.take batch = (streamBytes pos fs).take m := by
      rw [hm] at hmn ⊢
      rw [← carry_append_take hbytes _ hmn, List.length_take, ← List.take_eq_take_min]
    have hlen : (carry ++ unread.take batch).length = m := by rw [hm, List.length_append]
    have hparse := parseBatch_take fs sound pos m m (by omega) le_rfl
    rw [hlen, hbuf, hparse]
    by_cases hfull : batch ≤ unread.length
    · have hok : ((unread.take batch).length == batch) = true := by
        simp [List.length_take, hfull]
      have hm' : m = carry.length + batch := by rw [hm, List.length_take, Nat.min_eq_left hfull]
      simp only [hok, if_true]
      have hsz := cut_size m fs
      have htotal := streamSize_cut m fs
      have hnext : ∀ rest : Bytes, rest =
          (streamBytes (pos + streamSize (cut m fs).1) (cut m fs).2.1).take (leftoverAt m fs) →
          LoadedUpTo fs n (handedOver batch n carry.length fs)
            (FitsUpTo alloc batch n carry.length fs)
            ((loadLoop h judge alloc batch fuel ((pos + streamSize (cut m fs).1) % 2 ^ 32) rest
              (unread.drop batch) []).after (cut m fs).1) := by
        intro rest hr
        have hrl : rest.length = leftoverAt m fs := by
          rw [hr, List.length_take, length_streamBytes]
          omega
        have hjoin := rest_append_drop hbytes hm' hmn hr
        have hidem : leftoverAt rest.length (cut m fs).2.1 = rest.length := by
          rw [hrl]
          exact leftoverAt_leftoverAt m fs
        have hl := ih (pos + streamSize (cut m fs).1) (cut m fs).2.1
          (fun g hg => sound g (by rw [← cut_append m fs]; exact List.mem_append_right _ hg))
          (n - streamSize (cut m fs).1) (by omega) rest (unread.drop batch) hjoin hidem
          (by rw [List.length_drop]; omega)
        have hl' := hl.after hmn
        rw [hrl, hm', ← handedOver_next hb (by omega)] at hl'
        rw [hm']
        refine hl'.congr ?_
        rw [fitsUpTo_next hc (by omega)]
        simp [ha]
      unfold batchEnd
      split_ifs with h0
      · exact hnext [] (by rw [h0, List.take_zero])
      · exact hnext _ rfl
    · have hok : ((unread.take batch).length == batch) = false := by
        rw [beq_eq_false_iff_ne, List.length_take]
        omega
      have hm' : m = n := by
        rw [hm, List.length_take, Nat.min_eq_right (by omega)]
        omega
      have hlast : FitsUpTo alloc batch n carry.length fs :=
        (fitsUpTo_last hc (by omega) (by omega)).mpr ha
      rw [hm']
      by_cases h0 : leftoverAt n fs = 0
      · simp only [hok, batchEnd, h0, if_true, Bool.false_eq_true, if_false]
        exact .inl ⟨hlast, by simp [h0], rfl, by simp [handedOver, h0], rfl⟩
      · simp only [hok, batchEnd, h0, if_false, Bool.false_eq_true]
        exact .inl ⟨hlast, by simp [h0], rfl,
          by rw [handedOver_last hb hc (by omega) h0]; rfl, rfl⟩

/-- A finished load of `fs`, or a refused block. -/
def Loaded (fs : List Frame) (fits : Prop) (r : LoadResult) : Prop :=
  (fits ∧ r.stop = none ∧ r.parsed = fs ∧ r.batches.flatten = fs ∧ r.faults = []) ∨
    (¬ fits ∧ r.stop = some .badAlloc)

variable (alloc) in
theorem loadLoop_stream (hb : 0 < batch) (fuel pos : ℕ) (fs : List Frame)
    (sound : ∀ f ∈ fs, Sound h judge f) (carry unread : Bytes)
    (hbytes : carry ++ unread = streamBytes pos fs) (hc : leftoverAt carry.length fs = carry.length)
    (hfuel : unread.length < fuel) :
    Loaded fs (Fits alloc batch carry.length fs)
      (loadLoop h judge alloc batch fuel (pos % 2 ^ 32) carry unread []) := by
  have hall : (cut (streamSize fs) fs).1 = fs := by
    have := cut_append (streamSize fs) fs
    rwa [cut_streamSize, List.append_nil] at this
  have h0 := leftover_eq_zero le_rfl (cut_streamSize fs)
  have hload := loadLoop_take alloc hb fuel pos fs sound (streamSize fs) le_rfl carry unread
    (by rw [hbytes, ← length_streamBytes pos fs, List.take_length]) hc hfuel
  rw [LoadedUpTo, handedOver, h0, if_pos rfl, if_pos rfl, hall] at hload
  exact hload

end

/-! ## A consumer that takes every content -/

section
variable {h : ℕ} {judge : Judge}

theorem parseFrame_acceptAll {pos : ℕ} {buf : Bytes}
    (hno : ∀ why, parseFrame h judge pos buf ≠ .stop why) :
    parseFrame h acceptAll pos buf = parseFrame h judge pos buf := by
  unfold parseFrame at hno ⊢
  dsimp only at hno ⊢
  split_ifs at hno ⊢ <;> try rfl
  cases hj : judge.at pos ((buf.drop h).take (fieldBE 4 buf)) with
  | missing => exact absurd (by rw [hj]) (hno .nullEntry)
  | rejected => exact absurd (by rw [hj]) (hno .decodeError)
  | accepted =>
    have hall : acceptAll.at pos ((buf.drop h).take (fieldBE 4 buf)) = .accepted := Judge.at_accepted rfl pos
    rw [hall]

theorem parseBatch_acceptAll (fuel pos : ℕ) (buf : Bytes)
    (hno : ∀ why, (parseBatch h judge fuel pos buf).ending ≠ .stop why) :
    parseBatch h acceptAll fuel pos buf = parseBatch h judge fuel pos buf := by
  induction fuel generalizing pos buf with
  | zero => rfl
  | succ fuel ih =>
    unfold parseBatch at hno ⊢
    by_cases hb : buf = []
    · rw [if_pos hb, if_pos hb]
    · rw [if_neg hb] at hno
      rw [if_neg hb, if_neg hb]
      have hframe : ∀ why, parseFrame h judge pos buf ≠ .stop why := fun why hs => by
        simp only [hs] at hno
        exact hno why rfl
      rw [parseFrame_acceptAll hframe]
      cases hp : parseFrame h judge pos buf with
      | needMore => rfl
      | stop why => rfl
      | frame f size =>
        simp only [hp] at hno
        simp only [ih _ _ hno]

/-- A load that succeeds goes in the same way with a consumer that takes every content. -/
theorem loadLoop_acceptAll (alloc : ℕ → Option ℕ) (batch fuel pos : ℕ) (carry unread : Bytes)
    (faults : Faults) (hok : (loadLoop h judge alloc batch fuel pos carry unread faults).stop = none) :
    loadLoop h acceptAll alloc batch fuel pos carry unread faults =
      loadLoop h judge alloc batch fuel pos carry unread faults := by
  induction fuel generalizing pos carry unread faults with
  | zero => rfl
  | succ fuel ih =>
    rw [loadLoop] at hok ⊢
    rw [loadLoop]
    by_cases ha : (!allocFits alloc batch carry.length) = true
    · rw [if_pos ha, if_pos ha]
    rw [if_neg ha] at hok
    rw [if_neg ha, if_neg ha]
    generalize faults.head? = head at hok ⊢
    rcases head with _ | _ | fault
    case some.some => rfl
    all_goals
      dsimp only at hok ⊢
      by_cases hc : unread.take batch = []
      · rw [if_pos hc, if_pos hc]
      rw [if_neg hc] at hok
      rw [if_neg hc, if_neg hc]
      have hend : ∀ why, (parseBatch h judge (carry ++ unread.take batch).length pos
          (carry ++ unread.take batch)).ending ≠ .stop why := fun why hs => by
        simp only [hs, reduceCtorEq] at hok
      rw [parseBatch_acceptAll _ _ _ hend]
      cases he : (parseBatch h judge (carry ++ unread.take batch).length pos
          (carry ++ unread.take batch)).ending with
      | stop why => rfl
      | leftover rest =>
        simp only [he] at hok ⊢
        split_ifs at hok ⊢ with hfull
        rw [ih _ _ _ _ hok]
      | consumed =>
        simp only [he] at hok ⊢
        split_ifs at hok ⊢ with hfull
        · rw [ih _ _ _ _ hok]
        · rfl

theorem loadLoop_faults_nil (alloc : ℕ → Option ℕ) (batch fuel pos : ℕ) (carry unread : Bytes) :
    (loadLoop h judge alloc batch fuel pos carry unread []).faults = [] := by
  induction fuel generalizing pos carry unread with
  | zero => rfl
  | succ fuel ih =>
    rw [loadLoop]
    by_cases ha : (!allocFits alloc batch carry.length) = true
    · rw [if_pos ha]
    rw [if_neg ha]
    simp only [List.head?_nil, List.tail_nil]
    by_cases hc : unread.take batch = []
    · rw [if_pos hc]
    rw [if_neg hc]
    cases (parseBatch h judge (carry ++ unread.take batch).length pos
        (carry ++ unread.take batch)).ending with
    | stop why => rfl
    | leftover rest =>
      cases (unread.take batch).length == batch with
      | true => exact ih _ _ _
      | false => rfl
    | consumed =>
      cases (unread.take batch).length == batch with
      | true => exact ih _ _ _
      | false => rfl

end

end FlyingKV.FramedStream
