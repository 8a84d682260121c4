import Shake.State.Permutation

/-!
# The permutation on bits

Keccak-f[1600] as a composition of maps on a three-dimensional array of bits, with columns `x`,
planes `y` and depth `z`. All coordinates wrap around. Rotation offsets come from the walk
`(x, y) ↦ (y, 2x + 3y)` and round constants from a linear feedback shift register, so nothing here
depends on a table.
-/

namespace Shake

/-- The bits of the sponge: `a x y z` is bit `z` of the lane at column `x` of plane `y`. -/
abbrev BitArray : Type := Fin 5 → Fin 5 → Fin 64 → Bool

namespace BitArray

/-- The bits of a state. -/
def ofState (s : State) : BitArray := fun x y z => (s.lane x y).toNat.testBit z.val

/-- The sum of the five bits of a column. -/
def parity (a : BitArray) (x : Fin 5) (z : Fin 64) : Bool :=
  a x 0 z ^^ a x 1 z ^^ a x 2 z ^^ a x 3 z ^^ a x 4 z

/-- Add to every bit the parities of two neighbouring columns. -/
def theta (a : BitArray) : BitArray := fun x y z =>
  a x y z ^^ (a.parity (x - 1) z ^^ a.parity (x + 1) (z - 1))

/-- Position `t` of the walk that fixes the rotation offsets. -/
def walk : Nat → Fin 5 × Fin 5
  | 0 => (1, 0)
  | t + 1 => ((walk t).2, 2 * (walk t).1 + 3 * (walk t).2)

/-- The rotation of a lane that the walk reaches at step `t` is the triangular number of `t + 1`. -/
def offset (x y : Fin 5) : Nat :=
  match (List.range 24).find? fun t => walk t == (x, y) with
  | some t => (t + 1) * (t + 2) / 2
  | none => 0

/-- Turn every lane by its offset. -/
def rho (a : BitArray) : BitArray := fun x y z => a x y (z - Fin.ofNat 64 (offset x y))

/-- Move the lanes to new places. -/
def pi (a : BitArray) : BitArray := fun x y z => a (x + 3 * y) x z

/-- Combine every bit with the next two of its row. -/
def chi (a : BitArray) : BitArray := fun x y z => a x y z ^^ (!a (x + 1) y z && a (x + 2) y z)

/-- One step of the shift register: a zero enters, and what leaves is fed back. -/
def feedback (r : List Bool) : List Bool :=
  let out := r.getD 7 false
  (List.zipWith Bool.xor (false :: r) [out, false, false, false, out, out, out, false]).take 8

/-- Bit `t` of the output of the shift register. -/
def register (t : Nat) : Bool :=
  (Nat.repeat feedback (t % 255) [true, false, false, false, false, false, false, false]).getD 0 false

/-- Bit `z` of the constant of round `i`: only bits one below a power of two can be set. -/
def roundConstant (i : Nat) (z : Fin 64) : Bool :=
  (List.range 7).any fun j => z.val + 1 == 1 <<< j && register (j + 7 * i)

/-- Add a round constant to the lane at the origin. -/
def iota (i : Nat) (a : BitArray) : BitArray := fun x y z =>
  if x = 0 ∧ y = 0 then a x y z ^^ roundConstant i z else a x y z

/-- One round. -/
def round (a : BitArray) (i : Nat) : BitArray := iota i (chi (pi (rho (theta a))))

/-- All 24 rounds. -/
def permute (a : BitArray) : BitArray := (List.range 24).foldl round a

end BitArray

end Shake
