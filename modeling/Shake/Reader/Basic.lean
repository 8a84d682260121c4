import Shake.Squeezer.Basic
import Shake.Interface

/-!
# Reading the output stream

A `Reader` gives out the stream of a message that has been closed. It can be read as bytes, as a
generic output stream, or as a source of random bytes; all of these draw from the same stream.
-/

namespace Shake

/-- An output stream being read. -/
@[ext] structure Reader where
  /-- The stream from the next byte on. -/
  squeezer : Squeezer
  deriving DecidableEq

namespace Reader

/-- Replace every byte of `dest` by the next byte of the stream. -/
def read (r : Reader) (dest : List UInt8) : Checked (List UInt8 × Reader) := do
  let (bytes, q) ← r.squeezer.squeeze dest
  return (bytes, ⟨q⟩)

instance : Squeeze Reader where
  read r dest := do
    let (bytes, r) ← r.read dest
    return { result := bytes, next := r }

instance : OutputStream Reader where
  next := read

instance : RandomSource Reader where
  fill := read
  tryFill r dest := do
    let (bytes, r) ← r.read dest
    return (some bytes, r)

/-- A description that reveals nothing of the stream. -/
def describe (_ : Reader) : String := "Shake256Reader \x7b .. \x7d"

end Reader

end Shake
