import Shake.State.Permutation

/-!
# Bit strings

Bit strings are lists of truth values. A byte or a lane is read from its least significant bit on,
a byte string or a state from its first byte or lane on, so that bit `64 * i + z` of a state is
bit `z` of lane `i`. The bytes of a state are defined by its bits as well, eight at a time.
-/

namespace Shake

namespace Bits

/-- The lowest `n` bits of a number, least significant first. -/
def lowest (n k : Nat) : List Bool := (List.range n).map k.testBit

/-- The number with the given bits, least significant first. -/
def toNat (bits : List Bool) : Nat := bits.foldr (fun b k => b.toNat + 2 * k) 0

/-- The bits of a byte string. -/
def ofBytes (bytes : List UInt8) : List Bool := bytes.flatMap fun b => lowest 8 b.toNat

/-- The bits of a list of lanes. -/
def ofLanes (lanes : List UInt64) : List Bool := lanes.flatMap fun w => lowest 64 w.toNat

/-- The `n` bits from index `i` on. -/
def slice (bits : List Bool) (i n : Nat) : List Bool := (bits.drop i).take n

/-- The whole bytes of a bit string. -/
def toBytes (bits : List Bool) : List UInt8 :=
  (List.range (bits.length / 8)).map fun i => UInt8.ofNat (toNat (slice bits (8 * i) 8))

end Bits

namespace State

/-- The 1600 bits of a state. -/
def toBits (s : State) : List Bool := Bits.ofLanes s.lanes.toList

/-- The 200 bytes of a state, of which byte `k` has bits `8 * k` to `8 * k + 7`. -/
def bytes (s : State) : List UInt8 := Bits.toBytes s.toBits

/-- The state with the given bits. -/
def ofBits (bits : List Bool) : State :=
  ⟨Vector.ofFn fun i : Fin 25 => UInt64.ofNat (Bits.toNat (Bits.slice bits (64 * i.val) 64))⟩

end State

end Shake
