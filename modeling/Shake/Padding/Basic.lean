import Shake.Fault
import Shake.Parameters

/-!
# Suffix and padding

A message is closed by the bits of a domain suffix, a one, as few zeros as possible, and a last
one that ends a block. Since messages consist of whole bytes and the suffix has at most six bits,
suffix and padding together are whole bytes too: they complete the block that the message has
begun, or fill a block of their own when it has not begun one.
-/

namespace Shake

/-- Domain bits that follow every message. -/
structure Suffix where
  /-- The bits, least significant first. -/
  byte : UInt8
  /-- How many bits of `byte` belong to the suffix. -/
  width : Nat
  deriving DecidableEq, Repr

namespace Suffix

/-- The four ones that close a message of SHAKE256. -/
def shake : Suffix := ⟨0b00001111, 4⟩

/-- The bits of the suffix, with everything above them cleared. -/
def low (s : Suffix) : UInt8 := s.byte &&& UInt8.ofNat (1 <<< s.width - 1)

end Suffix

/-- Suffix and padding of one message, at the start of an array as long as the state. -/
structure Padding where
  /-- The bytes in use, followed by zeros. -/
  bytes : Vector UInt8 200
  /-- How many bits are in use. -/
  bits : Nat
  deriving DecidableEq

namespace Padding

/-- The bytes in use. -/
def toBytes (p : Padding) : List UInt8 := p.bytes.toList.take (p.bits / 8)

/-- Set bit `i` of a byte array, counting from the least significant bit of byte 0. -/
def setBit (bytes : Vector UInt8 200) (i : Nat) : Checked (Vector UInt8 200) :=
  if h : i / 8 < 200 then
    .ok (bytes.set (i / 8) (bytes[i / 8] ||| 1 <<< UInt8.ofNat (i % 8)))
  else .error .paddingBit

/-- Suffix and padding for blocks of `rateBits` bits, after a message that has `messageBits` bits
when its suffix is counted. -/
def close (suffix : Suffix) (messageBits rateBits : Nat) : Checked Padding := do
  Checked.ensure (suffix.width ≤ 6) .wideSuffix
  Checked.ensure (rateBits % 8 = 0 ∧ rateBits ≤ width) .badRate
  Checked.ensure (suffix.width ≤ messageBits) .shortMessage
  Checked.ensure ((messageBits - suffix.width) % 8 = 0) .partialByte
  Checked.ensure (0 < rateBits) .badRate
  let bits := rateBits - (messageBits - suffix.width) % rateBits
  let bytes := (Vector.replicate 200 0).set 0 suffix.low
  let bytes ← setBit bytes suffix.width
  let bytes ← setBit bytes (bits - 1)
  return ⟨bytes, bits⟩

/-- A description with every byte of the array in decimal. -/
def describe (p : Padding) : String :=
  "Padding \x7b bytes: [" ++ ", ".intercalate (p.bytes.toList.map fun b => toString b.toNat) ++
    "], bits: " ++ toString p.bits ++ " \x7d"

end Padding

end Shake
