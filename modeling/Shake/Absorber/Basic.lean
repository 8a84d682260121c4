import Shake.Squeezer.Basic

/-!
# Absorption in pieces

A message may arrive in pieces of any length. Bytes that do not fill a block yet wait in a pending
block, of which the first `offset` bytes are in use; what lies beyond them is left over from
earlier blocks and is overwritten before it can count. The number of absorbed bits settles the
padding. None of the relations between these fields is part of the type: they hold of every
absorber that grows from `empty`.
-/

namespace Shake

/-- A sponge that is taking in a message. -/
@[ext] structure Absorber where
  /-- The state after the full blocks of the message. -/
  state : State
  /-- The pending block. -/
  block : Vector UInt8 136
  /-- The number of bytes of the pending block in use. -/
  offset : Nat
  /-- The number of bits of the message so far. -/
  absorbedBits : Nat
  deriving DecidableEq

namespace Absorber

/-- The absorber that has taken in nothing. -/
def empty : Absorber := ⟨.zero, Vector.replicate 136 0, 0, 0⟩

instance : Inhabited Absorber := ⟨empty⟩

/-- Overwrite every field with zero. -/
def clear (a : Absorber) : Absorber := ⟨a.state.clear, a.block.map fun _ => 0, 0, 0⟩

/-- The block with the bytes of `chunk` in place of its own from index `offset` on. -/
def overlay (block : Vector UInt8 136) (offset : Nat) (chunk : List UInt8) : Vector UInt8 136 :=
  block.mapIdx fun i b => if i < offset then b else chunk.getD (i - offset) b

/-- Append a chunk to the bytes in use of the pending block. -/
def write (a : Absorber) (chunk : List UInt8) : Checked Absorber := do
  Checked.ensure (a.offset + chunk.length ≤ rateBytes) .blockBounds
  return { a with
    block := overlay a.block a.offset chunk
    offset := a.offset + chunk.length }

/-- Add the whole pending block to the state and permute. -/
def absorbPending (a : Absorber) : Checked Absorber := do
  let words ← Lane.load a.block.toList (List.replicate rateLanes 0)
  return { a with state := (← a.state.xorLanes words).permute }

/-- Start the pending block anew if it is full, after adding it to the state. -/
def flush (a : Absorber) : Checked Absorber :=
  if a.offset = rateBytes then do
    return { (← a.absorbPending) with offset := 0 }
  else .ok a

/-- Pass the input through the pending block, as much at a time as the block has room for. -/
def take (a : Absorber) (input : List UInt8) : Checked Absorber :=
  if input = [] then .ok a
  else if a.offset < rateBytes then do
    let a₁ ← a.write (input.take (rateBytes - a.offset))
    let a₂ ← a₁.flush
    a₂.take (input.drop (rateBytes - a.offset))
  else .error .blockBounds
termination_by input.length
decreasing_by
  have hi := List.length_pos_iff.mpr ‹input ≠ []›
  simp only [List.length_drop]
  omega

/-- Append `input` to the message. -/
def absorb (a : Absorber) (input : List UInt8) : Checked Absorber := do
  let bits := a.absorbedBits + 8 * input.length
  Checked.ensure (bits < counterBound) .counterOverflow
  let a ← { a with absorbedBits := bits }.take input
  Checked.ensure (a.offset < rateBytes ∧ a.offset = a.absorbedBits / 8 % rateBytes)
    .misplacedOffset
  return a

/-- Close the message and hand its state over as an output stream, leaving zeros behind. -/
def finalize (a : Absorber) : Checked (Squeezer × Absorber) := do
  let bits := a.absorbedBits + Suffix.shake.width
  Checked.ensure (bits < counterBound) .counterOverflow
  let padding ← Padding.close .shake bits rate
  Checked.ensure (a.offset + padding.toBytes.length = rateBytes) .misplacedOffset
  let a ← a.write padding.toBytes
  let a ← a.absorbPending
  return (.ofState a.state, { a with state := .zero }.clear)

end Absorber

end Shake
