import Shake.State.Absorption

/-!
# Squeezing

The output stream is read through a window: the bytes of the first block of the state that have
not been given out yet. An empty window is renewed by a permutation, but only when another byte
is asked for, so reading exactly to the end of a block leaves the state as it is.
-/

namespace Shake

/-- An output stream: a state, and how many bytes at the end of its first block are still unread. -/
@[ext] structure Squeezer where
  /-- The state that the window shows. -/
  state : State
  /-- The number of unread bytes in the window. -/
  readable : Nat
  deriving DecidableEq

namespace Squeezer

/-- The stream that starts with the first block of a state. -/
def ofState (s : State) : Squeezer := ⟨s, rateBytes⟩

/-- The output stream of a message that is absorbed at once. -/
def ofMessage (message : List UInt8) : Checked Squeezer := do
  return ofState (← State.zero.absorb rateBytes .shake message)

/-- Permute and open a full window, if the window is empty. -/
def renew (q : Squeezer) : Squeezer := if q.readable = 0 then ofState q.state.permute else q

/-- Replace every byte of `dest`, which is no longer than the window, by the next byte of it. -/
def readWindow (q : Squeezer) (dest : List UInt8) : Checked (List UInt8 × Squeezer) := do
  Checked.ensure (q.readable ≤ rateBytes) .overfullWindow
  let bytes ← q.state.extract (rateBytes - q.readable) dest
  return (bytes, { q with readable := q.readable - dest.length })

/-- A renewed window shows at least one byte. -/
theorem renew_readable_pos (q : Squeezer) : 0 < q.renew.readable := by
  unfold renew
  split
  · exact Nat.zero_lt_succ 135
  · omega

/-- Replace every byte of `dest` by the next byte of the stream. -/
def squeeze (q : Squeezer) (dest : List UInt8) : Checked (List UInt8 × Squeezer) :=
  if dest = [] then .ok ([], q)
  else do
    let (bytes, q₁) ← q.renew.readWindow (dest.take q.renew.readable)
    let (rest, q₂) ← q₁.squeeze (dest.drop q.renew.readable)
    return (bytes ++ rest, q₂)
termination_by dest.length
decreasing_by
  have hq := q.renew_readable_pos
  have hd := List.length_pos_iff.mpr ‹dest ≠ []›
  simp only [List.length_drop]
  omega

/-- Overwrite the state with zeros and empty the window. -/
def clear (q : Squeezer) : Squeezer := ⟨q.state.clear, 0⟩

end Squeezer

end Shake
