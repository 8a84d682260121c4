import Shake.Hasher.Basic

/-!
# Feeds as data

A `Feed` names one way to append bytes to the message of a `Hasher`, and `Hasher.feed` does it.
-/

namespace Shake.Hasher

/-- A way to append to the message. -/
inductive Feed where
  /-- Append a chunk. -/
  | absorb (chunk : List UInt8)
  /-- Append two chunks in one chain of calls. -/
  | absorbTwo (first second : List UInt8)
  /-- Append a chunk through `Absorb`. -/
  | absorbGeneric (chunk : List UInt8)
  /-- Append a chunk through `ExtendableOutput`. -/
  | update (chunk : List UInt8)
  /-- Append a chunk through `ExtendableOutput`, as part of a chain of calls. -/
  | chain (chunk : List UInt8)

/-- The bytes that are appended. -/
def Feed.bytes : Feed → List UInt8
  | .absorb chunk | .absorbGeneric chunk | .update chunk | .chain chunk => chunk
  | .absorbTwo first second => first ++ second

/-- Append to the message in the given way. -/
def feed (h : Hasher) : Feed → Checked Hasher
  | .absorb chunk => h.absorb chunk
  | .absorbTwo first second => do (← h.absorb first).absorb second
  | .absorbGeneric chunk => do return (← Absorb.absorb h chunk).next
  | .update chunk => ExtendableOutput.update h chunk
  | .chain chunk => ExtendableOutput.chain h chunk

/-- Append to the message in one way after the other. -/
def feedAll (h : Hasher) : List Feed → Checked Hasher
  | [] => .ok h
  | f :: fs => do (← h.feed f).feedAll fs

end Shake.Hasher
