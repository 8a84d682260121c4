import Shake.Fault
import Shake.Lane.Basic
import Shake.Notice

/-!
# Interfaces to message and output

What can be done with any sponge, whatever keeps track of its phase: `Absorb` takes in bytes,
`Squeeze` gives them out. `ExtendableOutput` with its `OutputStream`, and `RandomSource`, are the
shapes in which generic code expects a hash function of arbitrary output length and a source of
random bytes.
-/

namespace Shake

/-- What an operation returns: its result, the object afterwards, and what there is to report. -/
structure Outcome (σ α : Type) where
  /-- The result. -/
  result : α
  /-- The object after the operation. -/
  next : σ
  /-- The notices given, in order. -/
  log : List Notice := []

/-- Objects that take in a message. -/
class Absorb (σ : Type) where
  /-- Append bytes to the message. -/
  absorb : σ → List UInt8 → Checked (Outcome σ Unit)

/-- Objects that give out a stream of bytes. -/
class Squeeze (σ : Type) where
  /-- Replace every byte of a buffer by the next byte of the stream. -/
  read : σ → List UInt8 → Checked (Outcome σ (List UInt8))
  /-- The next `n` bytes of the stream, in a buffer made for them. -/
  readFresh : σ → Nat → Checked (Outcome σ (List UInt8)) := fun s n => do
    Checked.ensure (n < allocationBound) .allocation
    read s (List.replicate n 0)

/-- A buffer of `n` zeros after a read. -/
def Squeeze.readBlock {σ : Type} [Squeeze σ] (s : σ) (n : Nat) :
    Checked (Outcome σ (List UInt8)) :=
  Squeeze.read s (List.replicate n 0)

/-- Output of a hash function, in unlimited supply. -/
class OutputStream (ρ : Type) where
  /-- Replace every byte of a buffer by the next byte of the output. -/
  next : ρ → List UInt8 → Checked (List UInt8 × ρ)

/-- Hash functions with output of any length: `σ` takes in the message, `ρ` gives out the stream. -/
class ExtendableOutput (σ : Type) (ρ : outParam Type) where
  /-- The object before the first byte. -/
  start : σ
  /-- Append bytes to the message. -/
  update : σ → List UInt8 → Checked σ
  /-- Close the message. -/
  finalize : σ → Checked ρ

namespace ExtendableOutput

variable {σ ρ : Type} [ExtendableOutput σ ρ]

/-- Append bytes to the message and go on with the object that results. -/
def chain (s : σ) (data : List UInt8) : Checked σ := update s data

/-- Close the message and fill a buffer with the start of its stream. -/
def finalizeInto [OutputStream ρ] (s : σ) (dest : List UInt8) : Checked (List UInt8) := do
  return (← OutputStream.next (← finalize s) dest).1

/-- Fill a buffer with the start of the stream of `message`. -/
def digest (σ : Type) {ρ : Type} [ExtendableOutput σ ρ] [OutputStream ρ]
    (message dest : List UInt8) : Checked (List UInt8) := do
  finalizeInto (← update (start : σ) message) dest

end ExtendableOutput

/-- Sources of random bytes. -/
class RandomSource (ρ : Type) where
  /-- Replace every byte of a buffer by the next random byte. -/
  fill : ρ → List UInt8 → Checked (List UInt8 × ρ)
  /-- The same for sources that can run dry, which return `none` when they do. -/
  tryFill : ρ → List UInt8 → Checked (Option (List UInt8) × ρ)

namespace RandomSource

variable {ρ : Type} [RandomSource ρ]

/-- The number spelled by the next four bytes. -/
def nextUInt32 (r : ρ) : Checked (UInt32 × ρ) := do
  let (bytes, r) ← fill r (List.replicate 4 0)
  return ((Lane.ofBytes bytes).toUInt32, r)

/-- The number spelled by the next eight bytes. -/
def nextUInt64 (r : ρ) : Checked (UInt64 × ρ) := do
  let (bytes, r) ← fill r (List.replicate 8 0)
  return (Lane.ofBytes bytes, r)

end RandomSource

end Shake
