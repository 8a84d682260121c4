import Shake.State.Permutation
import Shake.Padding.Basic

/-!
# Absorption of a whole message

With the message at hand, its full blocks are cut off the front one by one; what remains is joined
to suffix and padding and makes the last block. Every block is added to the leading bytes of the
state and followed by one permutation.
-/

namespace Shake.State

/-- Add one block and permute. -/
def absorbBlock (s : State) (block : List UInt8) : Checked State := do
  return (← s.xorBlock block).permute

/-- Absorb `n` blocks of `size` bytes, and return the rest of the message beside the state. -/
def absorbBlocks (size : Nat) : Nat → State → List UInt8 → Checked (State × List UInt8)
  | 0, s, message => .ok (s, message)
  | n + 1, s, message => do
    let s ← s.absorbBlock (message.take size)
    absorbBlocks size n s (message.drop size)

/-- Absorb a message with its suffix and padding, in blocks of `size` bytes. -/
def absorb (s : State) (size : Nat) (suffix : Suffix) (message : List UInt8) : Checked State := do
  Checked.ensure (0 < size) .emptyBlock
  let (s, rest) ← absorbBlocks size (message.length / size) s message
  let padding ← Padding.close suffix (8 * message.length + suffix.width) (8 * size)
  s.absorbBlock (rest ++ padding.toBytes)

end Shake.State
