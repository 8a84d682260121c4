import Shake.Fault
import Shake.Parameters

/-!
# Lanes and their bytes

A lane is a 64-bit word whose bytes are numbered from the least significant one. Three views of
a list of lanes are kept here: the words themselves, the byte string they spell (`spell`, undone
by `words`), and the single byte at an index (`byteAt`). The checked operations `load`, `store`
and `extract` fill a destination given by the caller and compare its extent with the source first.
-/

namespace Shake.Lane

/-- Byte `k` of a lane, for `k` below eight. -/
def byte (w : UInt64) (k : Nat) : UInt8 := (w >>> UInt64.ofNat (8 * k)).toUInt8

/-- The eight bytes of a lane. -/
def toBytes (w : UInt64) : List UInt8 := (List.range laneBytes).map (byte w)

/-- The word with the given bytes; bytes that are missing count as zero. -/
def ofBytes (bytes : List UInt8) : UInt64 :=
  bytes.foldr (fun b w => (w <<< 8) ||| b.toUInt64) 0

/-- The byte string spelled by a list of lanes. -/
def spell (lanes : List UInt64) : List UInt8 := lanes.flatMap toBytes

/-- The first `n` lanes spelled by a byte string. -/
def words : Nat → List UInt8 → List UInt64
  | 0, _ => []
  | n + 1, bytes => ofBytes (bytes.take laneBytes) :: words n (bytes.drop laneBytes)

/-- The lanes spelled by `bytes`, in place of the lanes of `dest`. -/
def load (bytes : List UInt8) (dest : List UInt64) : Checked (List UInt64) := do
  Checked.ensure (bytes.length = laneBytes * dest.length) .lengthMismatch
  return words dest.length bytes

/-- The bytes spelled by `lanes`, in place of the bytes of `dest`. -/
def store (lanes : List UInt64) (dest : List UInt8) : Checked (List UInt8) := do
  Checked.ensure (dest.length = laneBytes * lanes.length) .lengthMismatch
  return spell lanes

/-- The byte at index `i` of the lanes, shifted out of the one lane that holds it. -/
def byteAt (lanes : List UInt64) (i : Nat) : Checked UInt8 :=
  match lanes[i / laneBytes]? with
  | some w => .ok (byte w (i % laneBytes))
  | none => .error .laneIndex

/-- The bytes from index `offset` on, one for every byte of `dest`. -/
def window (lanes : List UInt64) : Nat → List UInt8 → Checked (List UInt8)
  | _, [] => .ok []
  | offset, _ :: dest => do
    let b ← byteAt lanes offset
    let rest ← window lanes (offset + 1) dest
    return b :: rest

/-- The bytes from index `offset` on, in place of the bytes of `dest`. -/
def extract (lanes : List UInt64) (offset : Nat) (dest : List UInt8) : Checked (List UInt8) := do
  Checked.ensure (offset + dest.length ≤ laneBytes * lanes.length) .window
  window lanes offset dest

@[simp] theorem length_toBytes (w : UInt64) : (toBytes w).length = laneBytes := by
  simp [toBytes]

@[simp] theorem length_spell (lanes : List UInt64) :
    (spell lanes).length = laneBytes * lanes.length := by
  induction lanes with
  | nil => rfl
  | cons w lanes ih =>
    rw [spell, List.flatMap_cons, List.length_append, length_toBytes, List.length_cons]
    change laneBytes + (spell lanes).length = laneBytes * (lanes.length + 1)
    rw [ih, Nat.mul_succ, Nat.add_comm]

@[simp] theorem length_words (n : Nat) (bytes : List UInt8) : (words n bytes).length = n := by
  induction n generalizing bytes with
  | zero => rfl
  | succ n ih => simp only [words, List.length_cons, ih]

end Shake.Lane
