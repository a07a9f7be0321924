import FlyingKV.ByteOrder
import FlyingKV.DiskProgram

set_option autoImplicit false

/-!
# Streams of length-prefixed, position-suffixed frames, read in batches

A frame is its content length in four bytes, further header bytes, the content
and, in four bytes, the position at which the frame starts. A reader takes the
stream in batches of fixed size and carries an incomplete frame over to the next
batch. All lengths and positions are 32-bit, and the block for each batch comes
from an allocator that may refuse a size.
-/
namespace FlyingKV.FramedStream
open ByteOrder DiskProgram

structure Frame where
  hdr : Bytes
  content : Bytes
deriving DecidableEq, Repr

namespace Frame

def size (f : Frame) : ℕ := 4 + f.hdr.length + f.content.length + 4

def bytes (pos : ℕ) (f : Frame) : Bytes :=
  writeBE 4 f.content.length ++ f.hdr ++ f.content ++ writeBE 4 pos

@[simp] theorem length_bytes (pos : ℕ) (f : Frame) : (f.bytes pos).length = f.size := by
  simp [bytes, size]
  omega

end Frame

def streamBytes : ℕ → List Frame → Bytes
  | _, [] => []
  | pos, f :: fs => f.bytes pos ++ streamBytes (pos + f.size) fs

def streamSize (fs : List Frame) : ℕ := (fs.map Frame.size).sum

@[simp] theorem streamSize_nil : streamSize [] = 0 := rfl

@[simp] theorem streamSize_cons (f : Frame) (fs : List Frame) :
    streamSize (f :: fs) = f.size + streamSize fs := by
  simp [streamSize]

@[simp] theorem streamSize_append (fs gs : List Frame) :
    streamSize (fs ++ gs) = streamSize fs + streamSize gs := by
  simp [streamSize]

@[simp] theorem length_streamBytes (pos : ℕ) (fs : List Frame) :
    (streamBytes pos fs).length = streamSize fs := by
  induction fs generalizing pos with
  | nil => rfl
  | cons f fs ih => simp [streamBytes, ih]

theorem streamBytes_append (pos : ℕ) (fs gs : List Frame) :
    streamBytes pos (fs ++ gs) = streamBytes pos fs ++ streamBytes (pos + streamSize fs) gs := by
  induction fs generalizing pos with
  | nil => simp [streamBytes]
  | cons f fs ih => simp [streamBytes, ih, Nat.add_assoc]

/-! ## Parsing one frame -/

/-- What the consumer makes of a content: no object for it, an object that
refuses it, or an accepted entry. -/
inductive Judgement where
  | missing
  | rejected
  | accepted
deriving DecidableEq, Repr

/-- The consumer's judgement. One that is handed no bytes looks at the byte behind them, the
first of the position, so that there the judgement depends on the position. -/
structure Judge where
  content : Bytes → Judgement
  empty : ℕ → Judgement
  empty_accepted : content [] = .accepted → ∀ pos, empty pos = .accepted

instance : CoeFun Judge (fun _ => Bytes → Judgement) := ⟨Judge.content⟩

def Judge.at (judge : Judge) (pos : ℕ) (content : Bytes) : Judgement :=
  if content = [] then judge.empty pos else judge content

theorem Judge.at_accepted {judge : Judge} {content : Bytes} (h : judge content = .accepted) (pos : ℕ) :
    judge.at pos content = .accepted := by
  unfold Judge.at
  split_ifs with hempty
  · rw [hempty] at h
    exact judge.empty_accepted h pos
  · exact h

/-- A consumer that takes every content. -/
def acceptAll : Judge := ⟨fun _ => .accepted, fun _ => .accepted, fun _ _ => rfl⟩

@[simp] theorem acceptAll_apply (content : Bytes) : acceptAll content = .accepted := rfl

inductive Stop where
  | corrupt
  | decodeError
  | nullEntry
  | outOfBounds
  | badAlloc
  | readError (errmsg : String)
  | diverges
deriving DecidableEq, Repr

/-- A call either returns or ends the process. -/
inductive Ended (α : Type) where
  | returned (r : α)
  | crashed (why : Stop)
deriving DecidableEq, Repr

inductive ParseStep where
  | needMore
  | stop (why : Stop)
  | frame (f : Frame) (size : ℕ)
deriving DecidableEq, Repr

section Reader
variable (h : ℕ) (judge : Judge)

/-- `h` is the header length, the length field included. Every access past the
buffer ends the parse with `outOfBounds`. -/
def parseFrame (pos : ℕ) (buf : Bytes) : ParseStep :=
  if buf.length < h then .needMore
  else
    let len := fieldBE 4 buf
    if buf.length < (h + 4 + len) % 2 ^ 32 then .needMore
    else
      let startPosOffset := (h + len) % 2 ^ 32
      if buf.length < startPosOffset + 4 then .stop .outOfBounds
      else if fieldBE 4 (buf.drop startPosOffset) ≠ pos then .stop .corrupt
      else if buf.length < h + len then .stop .outOfBounds
      else
        let content := (buf.drop h).take len
        match judge.at pos content with
        | .missing => .stop .nullEntry
        | .rejected => .stop .decodeError
        | .accepted => .frame ⟨(buf.take h).drop 4, content⟩ ((len + (h + 4)) % 2 ^ 32)

inductive BatchEnd where
  | consumed
  | leftover (rest : Bytes)
  | stop (why : Stop)
deriving DecidableEq, Repr

structure BatchResult where
  frames : List Frame
  pos : ℕ
  ending : BatchEnd
deriving DecidableEq, Repr

/-- All complete frames of one buffer; the fuel is the buffer's length. -/
def parseBatch : ℕ → ℕ → Bytes → BatchResult
  | 0, pos, buf => ⟨[], pos, if buf = [] then .consumed else .leftover buf⟩
  | fuel + 1, pos, buf =>
    if buf = [] then ⟨[], pos, .consumed⟩
    else match parseFrame h judge pos buf with
      | .needMore => ⟨[], pos, .leftover buf⟩
      | .stop why => ⟨[], pos, .stop why⟩
      | .frame f size =>
        let r := parseBatch fuel ((pos + size) % 2 ^ 32) (buf.drop size)
        ⟨f :: r.frames, r.pos, r.ending⟩

/-- The batches handed to the consumer, everything parsed (a failing batch is
parsed but not handed over), and why the loop stopped; `none` is success. -/
structure LoadResult where
  batches : List (List Frame)
  parsed : List Frame
  stop : Option Stop
  faults : Faults
deriving DecidableEq, Repr

def LoadResult.after (fs : List Frame) (r : LoadResult) : LoadResult :=
  { r with batches := fs :: r.batches, parsed := fs ++ r.parsed }

variable (alloc : ℕ → Option ℕ) (batch : ℕ)

/-- A block can take the carried bytes and one whole batch after them. -/
def allocFits (carried : ℕ) : Bool :=
  match alloc ((batch + carried) % 2 ^ 32) with
  | none => false
  | some cap => carried + batch ≤ cap

def loadLoop : ℕ → ℕ → Bytes → Bytes → Faults → LoadResult
  | 0, _, _, _, faults => ⟨[], [], some .diverges, faults⟩
  | fuel + 1, pos, carry, unread, faults =>
    if !allocFits alloc batch carry.length then ⟨[], [], some .badAlloc, faults⟩
    else match faults.head? with
    | some (some fault) => ⟨[], [], some (.readError fault.errmsg), faults.tail⟩
    | _ =>
      let chunk := unread.take batch
      if chunk = [] then
        ⟨[], [], if carry = [] then none else some .corrupt, faults.tail⟩
      else
        let ok := chunk.length == batch
        let buf := carry ++ chunk
        let r := parseBatch h judge buf.length pos buf
        match r.ending with
        | .stop why => ⟨[], r.frames, some why, faults.tail⟩
        | .leftover rest =>
          if ok then (loadLoop fuel r.pos rest (unread.drop batch) faults.tail).after r.frames
          else ⟨[], r.frames, some .corrupt, faults.tail⟩
        | .consumed =>
          if ok then (loadLoop fuel r.pos [] (unread.drop batch) faults.tail).after r.frames
          else ⟨[r.frames], r.frames, none, faults.tail⟩

end Reader

end FlyingKV.FramedStream
