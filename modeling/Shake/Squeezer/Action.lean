import Shake.Squeezer.Basic

/-!
# Actions on an output stream

An `Action` names one call on a `Squeezer` with its arguments, and `Squeezer.act` carries it out.
Clearing gives no bytes and leaves a stream that starts over from the zero state.
-/

namespace Shake.Squeezer

/-- A call on a `Squeezer`. -/
inductive Action where
  /-- Fill a buffer. -/
  | squeeze (dest : List UInt8)
  /-- Overwrite everything with zeros. -/
  | clear

/-- Carry out one action and return the bytes that it brings. -/
def act (q : Squeezer) : Action → Checked (List UInt8 × Squeezer)
  | .squeeze dest => q.squeeze dest
  | .clear => .ok ([], q.clear)

end Shake.Squeezer
