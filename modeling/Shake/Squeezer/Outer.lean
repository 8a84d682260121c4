import Shake.Squeezer.Basic

/-!
# Squeezing from the outer part

The outer part of a state is its first block, through which all input and output pass; the rest of
it, the inner part, is changed by permutations alone. Here the lanes of the inner part are withheld
from every read. A stream loses nothing by it if it never looks behind the first block, and would
fail at once if it did.
-/

namespace Shake

/-- The lanes of the first block. -/
def State.outer (s : State) : List UInt64 := s.lanes.toList.take rateLanes

namespace Squeezer

/-- Replace every byte of `dest`, which is no longer than the window, by the next byte of it, looked
up in the outer part. -/
def readOuter (q : Squeezer) (dest : List UInt8) : Checked (List UInt8 × Squeezer) := do
  Checked.ensure (q.readable ≤ rateBytes) .overfullWindow
  let bytes ← Lane.extract q.state.outer (rateBytes - q.readable) dest
  return (bytes, { q with readable := q.readable - dest.length })

/-- Replace every byte of `dest` by the next byte of the stream, looked up in the outer parts of the
states on the way. -/
def squeezeOuter (q : Squeezer) (dest : List UInt8) : Checked (List UInt8 × Squeezer) :=
  if dest = [] then .ok ([], q)
  else do
    let (bytes, q₁) ← q.renew.readOuter (dest.take q.renew.readable)
    let (rest, q₂) ← q₁.squeezeOuter (dest.drop q.renew.readable)
    return (bytes ++ rest, q₂)
termination_by dest.length
decreasing_by
  have hq := q.renew_readable_pos
  have hd := List.length_pos_iff.mpr ‹dest ≠ []›
  simp only [List.length_drop]
  omega

end Squeezer

end Shake
