import Shake.Bits.Basic
import Shake.Padding.Basic

/-!
# The sponge on bit strings

The construction in its general form: a transformation `f` of strings of fixed width, a rate below
that width, and a padding rule. A padded input is cut into blocks of the rate; each is extended by
zeros to the full width, added to the string held so far, and followed by `f`. Output is the
beginning of that string, as long as the rate, repeated with one more `f` in between as often as
needed. `shake` is SHAKE256 in these terms.
-/

namespace Shake.Bits

/-- The bitwise sum of two strings of the same length. -/
def add (a b : List Bool) : List Bool := List.zipWith Bool.xor a b

/-- A one, the fewest zeros that are enough, and a one, to bring `m` bits to a multiple of `r`. -/
def pad (r m : Nat) : List Bool :=
  true :: (List.replicate ((-(m : Int) - 2) % (r : Int)).toNat false ++ [true])

/-- The blocks of `r` bits that make up a string. -/
def blocks (r : Nat) (bits : List Bool) : List (List Bool) :=
  (List.range (bits.length / r)).map fun i => slice bits (r * i) r

/-- Add one block, extended by zeros, and transform. -/
def absorbBlock (f : List Bool → List Bool) (s block : List Bool) : List Bool :=
  f (add s (block ++ List.replicate (s.length - block.length) false))

/-- Absorb all blocks of a padded string. -/
def absorb (f : List Bool → List Bool) (r : Nat) (s padded : List Bool) : List Bool :=
  (blocks r padded).foldl (absorbBlock f) s

/-- The first `d` bits of output. -/
def squeeze (f : List Bool → List Bool) (r : Nat) (s : List Bool) (d : Nat) : List Bool :=
  ((List.range (d / r + 1)).flatMap fun k => (Nat.repeat f k s).take r).take d

/-- The sponge construction with the padding rule `pad`, from a string of `b` zeros. -/
def sponge (f : List Bool → List Bool) (b r : Nat) (input : List Bool) (d : Nat) : List Bool :=
  squeeze f r (absorb f r (List.replicate b false) (input ++ pad r input.length)) d

/-- The bits of a domain suffix. -/
def ofSuffix (suffix : Suffix) : List Bool := lowest suffix.width suffix.byte.toNat

/-- The bits of a message, those of its suffix, and the padding that brings both to a multiple of
`r` bits. -/
def padded (r : Nat) (suffix : Suffix) (message : List UInt8) : List Bool :=
  ofBytes message ++ ofSuffix suffix ++ pad r (8 * message.length + suffix.width)

/-- The permutation of the state, on bits. -/
def permute (s : List Bool) : List Bool := (State.ofBits s).permute.toBits

/-- The first `d` bits of SHAKE256 of a message. -/
def shake (message : List UInt8) (d : Nat) : List Bool :=
  sponge permute width rate (ofBytes message ++ [true, true, true, true]) d

end Shake.Bits
