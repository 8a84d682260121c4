import Shake.Absorber.Basic
import Shake.Reader.Basic

/-!
# Hashing with a type for each phase

A `Hasher` takes in a message, and closing it gives a `Reader` of the output stream. Since each
phase has its own type, no call can come at the wrong time and none has to be refused.
-/

namespace Shake

/-- A message being taken in. -/
@[ext] structure Hasher where
  /-- The sponge at work. -/
  absorber : Absorber
  deriving DecidableEq

namespace Hasher

/-- The hasher that has taken in nothing. -/
def empty : Hasher := ⟨.empty⟩

instance : Inhabited Hasher := ⟨empty⟩

/-- The output stream of a message that is absorbed at once. -/
def hash (message : List UInt8) : Checked Reader := do
  return ⟨← Squeezer.ofMessage message⟩

/-- Append a chunk to the message. -/
def absorb (h : Hasher) (chunk : List UInt8) : Checked Hasher := do
  return ⟨← h.absorber.absorb chunk⟩

/-- Close the message. -/
def finalize (h : Hasher) : Checked Reader := do
  let (q, _) ← h.absorber.finalize
  return ⟨q⟩

instance : Absorb Hasher where
  absorb h chunk := do
    return { result := (), next := ← h.absorb chunk }

instance : ExtendableOutput Hasher Reader where
  start := empty
  update := absorb
  finalize := finalize

/-- A description that reveals nothing of the message. -/
def describe (_ : Hasher) : String := "Shake256Absorber \x7b .. \x7d"

end Hasher

end Shake
