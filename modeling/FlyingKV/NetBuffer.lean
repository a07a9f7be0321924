import FlyingKV.ByteOrder

set_option autoImplicit false

/-!
# `common::Buffer`

A block of memory with two cursors into it; the bytes from `pos` to `last`, both
included, are the available ones. Cursors are offsets from the start of the block and
`none` is the null pointer. Blocks are shorter than `2 ^ 31` bytes, so the casts to
`int32_t` lose nothing.
-/
namespace FlyingKV.Net
open ByteOrder

structure Buffer where
  data : Bytes
  pos : Option ℤ
  last : Option ℤ
  bAvailable : Bool
deriving DecidableEq, Repr

namespace Buffer

def checkAvailable (b : Buffer) : Buffer :=
  match b.pos, b.last with
  | some p, some l => { b with bAvailable := decide (p ≤ l) }
  | _, _ => { b with bAvailable := false }

/-- `GetNewBuffer`: a fresh block without cursors. -/
def new (size : ℕ) : Buffer := ⟨List.replicate size 0, none, none, false⟩

/-- `GetNewAvailableBuffer`: a fresh block, all of it available. -/
def newAvailable (size : ℕ) : Buffer :=
  checkAvailable ⟨List.replicate size 0, some 0, some (size - 1), false⟩

def bZero (b : Buffer) : Buffer := ⟨List.replicate b.data.length 0, none, none, false⟩

def moveHeadBack (b : Buffer) (n : ℕ) : Buffer :=
  match b.pos, b.last with
  | some p, some _ => checkAvailable { b with pos := some (p + n) }
  | _, _ => { b with bAvailable := false }

def moveTailBack (b : Buffer) (n : ℕ) : Buffer :=
  match b.last with
  | some l => { b with last := some (l + n) }
  | none => checkAvailable { b with last := some ((n : ℤ) - 1) }

def totalLength (b : Buffer) : ℤ := b.data.length

def availableLength (b : Buffer) : ℤ :=
  if !b.bAvailable then 0
  else match b.pos, b.last with
    | some p, some l => l - p + 1
    | _, _ => 0

def unusedSize (b : Buffer) : ℕ :=
  if !b.bAvailable then 0
  else match b.last with
    | some l => (((b.data.length : ℤ) - 1 - l) % 2 ^ 64).toNat
    | none => b.data.length

def setPos (b : Buffer) (p : ℤ) : Buffer := checkAvailable { b with pos := some p }

/-- `CheckAndInitBufferPos`. -/
def checkAndInitPos (b : Buffer) : Buffer := if b.pos = none then b.setPos 0 else b

/-- Where the next bytes go: behind `last`, or to the start. -/
def tail (b : Buffer) : ℕ :=
  match b.last with
  | some l => (l + 1).toNat
  | none => 0

/-- Bytes stored into the block at an offset, by `read` or by an encoder. -/
def store (b : Buffer) (off : ℕ) (bs : Bytes) : Buffer :=
  { b with data := b.data.take off ++ bs ++ b.data.drop (off + bs.length) }

/-- The bytes at `GetPos()` and behind it. -/
def fromPos (b : Buffer) : Bytes := b.data.drop (b.pos.getD 0).toNat

/-- The available bytes. -/
def content (b : Buffer) : Bytes := b.fromPos.take b.availableLength.toNat

/-! ## Filling a block from the front -/

/-- The block of `size` bytes holds `bs` so far. -/
structure Filled (b : Buffer) (size : ℕ) (bs : Bytes) : Prop where
  length : b.data.length = size
  le : bs.length ≤ size
  front : b.data.take bs.length = bs
  cursors : if bs = [] then b.pos = none ∧ b.last = none ∧ b.bAvailable = false
    else b.pos = some 0 ∧ b.last = some ((bs.length : ℤ) - 1) ∧ b.bAvailable = true

section
variable {b : Buffer} {size : ℕ} {bs : Bytes}

theorem filled_new (size : ℕ) : (new size).Filled size [] :=
  ⟨by simp [new], Nat.zero_le _, rfl, by simp [new]⟩

theorem filled_bZero (b : Buffer) : b.bZero.Filled b.data.length [] :=
  ⟨by simp [bZero], Nat.zero_le _, rfl, by simp [bZero]⟩

theorem Filled.availableLength (h : b.Filled size bs) : b.availableLength = bs.length := by
  obtain ⟨-, -, -, hc⟩ := h
  split_ifs at hc with hbs
  · simp [Buffer.availableLength, hc.2.2, hbs]
  · simp only [Buffer.availableLength, hc.1, hc.2.1, hc.2.2, Bool.not_true, Bool.false_eq_true, if_false]
    omega

theorem Filled.tail (h : b.Filled size bs) : b.tail = bs.length := by
  obtain ⟨-, -, -, hc⟩ := h
  split_ifs at hc with hbs
  · simp [Buffer.tail, hc.2.1, hbs]
  · simp only [Buffer.tail, hc.2.1]
    omega

theorem Filled.unusedSize (h : b.Filled size bs) (hbs : bs ≠ []) (hsize : size < 2 ^ 64) :
    b.unusedSize = size - bs.length := by
  obtain ⟨hlen, hle, -, hc⟩ := h
  rw [if_neg hbs] at hc
  simp only [Buffer.unusedSize, hc.2.1, hc.2.2, Bool.not_true, Bool.false_eq_true, if_false, hlen]
  rw [Int.emod_eq_of_lt (by omega) (by omega)]
  omega

theorem Filled.content (h : b.Filled size bs) (hbs : bs ≠ []) : b.content = bs := by
  have hav := h.availableLength
  obtain ⟨-, -, hpre, hc⟩ := h
  rw [if_neg hbs] at hc
  rw [Buffer.content, Buffer.fromPos, hc.1, hav]
  simpa using hpre

theorem Filled.content_moveHeadBack (h : b.Filled size bs) (hbs : bs ≠ []) (n : ℕ) :
    (b.moveHeadBack n).content = bs.drop n := by
  obtain ⟨-, -, hpre, hc⟩ := h
  rw [if_neg hbs] at hc
  have hdrop : (b.data.drop n).take (bs.length - n) = bs.drop n := by
    rw [← List.drop_take, hpre]
  simp only [Buffer.content, Buffer.fromPos, Buffer.availableLength, Buffer.moveHeadBack, checkAvailable,
    hc.1, hc.2.1, Option.getD_some, zero_add, Int.toNat_natCast]
  rw [← hdrop]
  congr 1
  by_cases hn : (n : ℤ) ≤ bs.length - 1
  · simp only [hn, decide_true, Bool.not_true, Bool.false_eq_true, if_false]
    omega
  · simp only [hn, decide_false, Bool.not_false, if_true]
    omega

theorem Filled.append (h : b.Filled size bs) {more : Bytes} (hmore : more ≠ [])
    (hle : bs.length + more.length ≤ size) :
    (((b.store bs.length more).checkAndInitPos).moveTailBack more.length).Filled size (bs ++ more) := by
  obtain ⟨hlen, -, hpre, hc⟩ := h
  have hne : bs ++ more ≠ [] := by simp [hmore]
  have hpos : 0 < more.length := List.length_pos_iff.mpr hmore
  have hdata : (b.data.take bs.length ++ more ++ b.data.drop (bs.length + more.length)).length = size := by
    simp only [List.length_append, List.length_take, List.length_drop]
    omega
  have htake : (b.data.take bs.length ++ more ++ b.data.drop (bs.length + more.length)).take
      (bs ++ more).length = bs ++ more := by
    rw [hpre, List.take_left' rfl]
  split_ifs at hc with hbs
  · subst hbs
    simp only [List.length_nil, Nat.zero_add, List.nil_append] at hdata htake hle ⊢
    refine ⟨?_, hle, ?_, ?_⟩
    · simpa [store, checkAndInitPos, hc.1, hc.2.1, setPos, checkAvailable, moveTailBack] using hdata
    · simp [store, checkAndInitPos, hc.1, hc.2.1, setPos, checkAvailable, moveTailBack]
    · rw [if_neg hmore]
      simp only [store, checkAndInitPos, hc.1, hc.2.1, if_true, setPos, checkAvailable, moveTailBack,
        true_and, decide_eq_true_eq]
      omega
  · refine ⟨?_, by simpa using hle, ?_, ?_⟩
    · simpa [store, checkAndInitPos, hc.1, hc.2.1, moveTailBack] using hdata
    · simpa [store, checkAndInitPos, hc.1, hc.2.1, moveTailBack] using htake
    · rw [if_neg hne]
      simp only [store, checkAndInitPos, hc.1, hc.2.1, hc.2.2, reduceCtorEq, if_false, moveTailBack,
        List.length_append, Option.some.injEq, true_and, and_true]
      push_cast
      omega

end

/-! ## Emptying a block from the front -/

/-- The bytes `bs` up to the end of the block are still available; there is at least one. -/
structure Unsent (b : Buffer) (bs : Bytes) : Prop where
  ne_nil : bs ≠ []
  last : b.last = some ((b.data.length : ℤ) - 1)
  avail : b.bAvailable = true
  pos : ∃ p : ℕ, b.pos = some (p : ℤ) ∧ b.data.drop p = bs

section
variable {b : Buffer} {bs : Bytes}

theorem Unsent.availableLength (h : b.Unsent bs) : b.availableLength = bs.length := by
  obtain ⟨hne, hlast, hav, p, hp, hdrop⟩ := h
  have hpos : 0 < bs.length := List.length_pos_iff.mpr hne
  have hlen : bs.length = b.data.length - p := by rw [← hdrop, List.length_drop]
  simp only [Buffer.availableLength, hav, Bool.not_true, Bool.false_eq_true, if_false, hp, hlast]
  omega

theorem Unsent.fromPos (h : b.Unsent bs) : b.fromPos = bs := by
  obtain ⟨-, -, -, p, hp, hdrop⟩ := h
  rw [Buffer.fromPos, hp, Option.getD_some, Int.toNat_natCast, hdrop]

theorem Unsent.moveHeadBack (h : b.Unsent bs) {n : ℕ} (hn : n < bs.length) :
    (b.moveHeadBack n).Unsent (bs.drop n) := by
  obtain ⟨-, hlast, -, p, hp, hdrop⟩ := h
  have hlen : bs.length = b.data.length - p := by rw [← hdrop, List.length_drop]
  refine ⟨?_, ?_, ?_, p + n, ?_, ?_⟩
  · exact List.ne_nil_of_length_pos (by rw [List.length_drop]; omega)
  · simp only [Buffer.moveHeadBack, hp, hlast, checkAvailable]
  · simp only [Buffer.moveHeadBack, hp, hlast, checkAvailable, decide_eq_true_eq]
    omega
  · simp only [Buffer.moveHeadBack, hp, hlast, checkAvailable, Nat.cast_add]
  · simp only [Buffer.moveHeadBack, hp, hlast, checkAvailable]
    rw [← hdrop, List.drop_drop]

theorem Unsent.moveHeadBack_all (h : b.Unsent bs) : (b.moveHeadBack bs.length).availableLength = 0 := by
  obtain ⟨hne, hlast, -, p, hp, hdrop⟩ := h
  have hpos : 0 < bs.length := List.length_pos_iff.mpr hne
  have hlen : bs.length = b.data.length - p := by rw [← hdrop, List.length_drop]
  have hav : (b.moveHeadBack bs.length).bAvailable = false := by
    simp only [Buffer.moveHeadBack, hp, hlast, checkAvailable, decide_eq_false_iff_not]
    omega
  simp only [Buffer.availableLength, hav, Bool.not_false, if_true]

end

end Buffer

end FlyingKV.Net
