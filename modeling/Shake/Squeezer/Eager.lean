import Shake.Bits.Basic
import Shake.Squeezer.Basic

/-!
# Squeezing ahead of demand

The window may as well be renewed the moment it is empty, before anyone asks for another byte.
Such an engine gives out the same bytes as one that waits, at the price of a permutation whose
result may never be read. It is described here on its own, as a function of the bits of the state
and of the number of bytes wanted: nothing of the squeezer that waits is used but the pair of state
and window.
-/

namespace Shake.Squeezer

/-- The next `n` bytes of the first block, counted from where its window begins. -/
def peek (q : Squeezer) (n : Nat) : List UInt8 :=
  (q.state.bytes.drop (rateBytes - q.readable)).take n

/-- What is left once `n` bytes have been copied: the rest of the window, or, if there is none, the
permuted state with a full window. -/
def consume (q : Squeezer) (n : Nat) : Squeezer :=
  if q.readable - n = 0 then ⟨q.state.permute, rateBytes⟩ else ⟨q.state, q.readable - n⟩

/-- No window is left empty. -/
theorem consume_readable_pos (q : Squeezer) (n : Nat) : 0 < (q.consume n).readable := by
  rw [consume]
  split
  · exact Nat.zero_lt_succ 135
  · next h => exact Nat.pos_of_ne_zero h

/-- The next `n` bytes: copy as many of them as the window has, renew it if that has emptied it, and
go on until there are enough. -/
def squeezeAhead (q : Squeezer) (n : Nat) : List UInt8 × Squeezer :=
  if n = 0 then ([], q)
  else
    let copied := min q.readable n
    let (rest, last) := (q.consume copied).squeezeAhead (n - copied)
    (q.peek copied ++ rest, last)
-- a window that is empty from the start gives no byte, but it is never empty again
termination_by 2 * n + if q.readable = 0 then 1 else 0
decreasing_by
  have hpos := q.consume_readable_pos (min q.readable n)
  split <;> split <;> omega

/-- Requests for so many bytes each, one after the other. -/
def serveAhead (q : Squeezer) : List Nat → List (List UInt8) × Squeezer
  | [] => ([], q)
  | n :: requests =>
    let (bytes, next) := q.squeezeAhead n
    let (answers, last) := next.serveAhead requests
    (bytes :: answers, last)

end Shake.Squeezer
