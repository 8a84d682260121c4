import Shake.Hasher.Basic

/-!
# Digests in one call

The start of the output stream of a message, as bytes of its own or in a buffer of the caller.
-/

namespace Shake

/-- The first `n` bytes of the output stream of a message. -/
def digest (n : Nat) (message : List UInt8) : Checked (List UInt8) := do
  return (← Squeeze.readBlock (← Hasher.hash message) n).result

/-- Replace every byte of `dest` by the bytes that the output stream of a message starts with. -/
def digestInto (message dest : List UInt8) : Checked (List UInt8) := do
  return (← (← Hasher.hash message).read dest).1

end Shake
