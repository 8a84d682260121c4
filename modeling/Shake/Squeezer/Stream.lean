import Shake.Bits.Basic
import Shake.Squeezer.Basic

/-!
# The output stream in closed form

What a stream still has to give is determined by its state and by the size of its window: first
the rest of the window, then the first block of the permuted state, of the state permuted twice,
and so on. Byte and state are given here for every distance ahead, without reading what lies
between.
-/

namespace Shake.Squeezer

/-- Byte `j` of the output to come. -/
def streamByte (q : Squeezer) (j : Nat) : UInt8 :=
  if j < q.readable then q.state.bytes.getD (rateBytes - q.readable + j) 0
  else
    let k := j - q.readable
    (Nat.repeat State.permute (1 + k / rateBytes) q.state).bytes.getD (k % rateBytes) 0

/-- The first `n` bytes of the output to come. -/
def stream (q : Squeezer) (n : Nat) : List UInt8 := (List.range n).map q.streamByte

/-- The number of permutations on the way to byte `n`: none while the window lasts, then one for
every block that has been begun. -/
def permutations (q : Squeezer) (n : Nat) : Nat :=
  if n ≤ q.readable then 0 else (n - q.readable + (rateBytes - 1)) / rateBytes

/-- The stream after `n` bytes have been given out. -/
def advance (q : Squeezer) (n : Nat) : Squeezer :=
  let p := q.permutations n
  ⟨Nat.repeat State.permute p q.state, q.readable + rateBytes * p - n⟩

end Shake.Squeezer
