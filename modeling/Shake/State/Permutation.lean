import Shake.State.Basic

/-!
# The permutation of the state

Keccak-f[1600] on lanes: 24 rounds of five step mappings. `theta` adds to every lane the parities
of two neighbouring columns, `rhoPi` turns the lanes and moves them to new places in one walk,
`chi` combines each lane with the next two of its row, and `iota` adds a constant to lane 0.
The tables give, for each step of the walk, the place that receives the lane held so far and the
rotation it arrives with, and, for each round, the constant.
-/

namespace Shake

/-- Turn a lane by `n` places toward the most significant bit, for `n` below 64. -/
def Lane.rotate (w : UInt64) (n : Nat) : UInt64 :=
  (w <<< UInt64.ofNat n) ||| (w >>> UInt64.ofNat (64 - n))

namespace State

/-- Places visited by the walk that starts at lane 1, in order. -/
def walkTargets : List (Fin 25) :=
  [10, 7, 11, 17, 18, 3, 5, 16, 8, 21, 24, 4, 15, 23, 19, 13, 12, 2, 20, 14, 22, 9, 6, 1]

/-- Rotations of the lanes that arrive at the places of `walkTargets`. -/
def walkRotations : List Nat :=
  [1, 3, 6, 10, 15, 21, 28, 36, 45, 55, 2, 14, 27, 41, 56, 8, 25, 43, 62, 18, 39, 61, 20, 44]

/-- Constants added to lane 0, one for each round. -/
def roundConstants : List UInt64 :=
  [0x0000000000000001, 0x0000000000008082, 0x800000000000808a, 0x8000000080008000,
   0x000000000000808b, 0x0000000080000001, 0x8000000080008081, 0x8000000000008009,
   0x000000000000008a, 0x0000000000000088, 0x0000000080008009, 0x000000008000000a,
   0x000000008000808b, 0x800000000000008b, 0x8000000000008089, 0x8000000000008003,
   0x8000000000008002, 0x8000000000000080, 0x000000000000800a, 0x800000008000000a,
   0x8000000080008081, 0x8000000000008080, 0x0000000080000001, 0x8000000080008008]

/-- The sum of the five lanes of column `x`. -/
def parity (s : State) (x : Fin 5) : UInt64 :=
  s.lane x 0 ^^^ s.lane x 1 ^^^ s.lane x 2 ^^^ s.lane x 3 ^^^ s.lane x 4

/-- Add to every lane the parity of the column before it and the turned parity of the one after. -/
def theta (s : State) : State :=
  let p := Vector.ofFn s.parity
  ofLanes fun x y => s.lane x y ^^^ (p[x + 4] ^^^ Lane.rotate p[x + 1] 1)

/-- One step of the walk: the lane held so far, turned, takes a place, whose lane is held next. -/
def walkStep (s : Vector UInt64 25 × UInt64) (step : Fin 25 × Nat) :
    Vector UInt64 25 × UInt64 :=
  (s.1.set step.1 (Lane.rotate s.2 step.2), s.1[step.1])

/-- Turn every lane by its own amount and move it to its new place; lane 0 stays. -/
def rhoPi (s : State) : State :=
  ⟨((walkTargets.zip walkRotations).foldl walkStep (s.lanes, s.lanes[1])).1⟩

/-- Add to every lane what the second lane after it shows where the first one is zero. -/
def chi (s : State) : State :=
  ofLanes fun x y => s.lane x y ^^^ (~~~ s.lane (x + 1) y &&& s.lane (x + 2) y)

/-- Add a round constant to lane 0. -/
def iota (c : UInt64) (s : State) : State := ⟨s.lanes.set 0 (s.lanes[0] ^^^ c)⟩

/-- One round of the permutation. -/
def round (s : State) (c : UInt64) : State := iota c (chi (rhoPi (theta s)))

/-- The permutation of the sponge. -/
def permute (s : State) : State := roundConstants.foldl round s

end State

end Shake
