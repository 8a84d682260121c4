import Shake.Absorber.Basic
import Shake.Interface

/-!
# One object for both phases

An `Xof` takes in a message, is finalized once, and then gives out its stream. The `try` forms of
its operations report a call in the wrong phase and leave the object as it was. The plain forms
ignore such a call and give a notice instead; a buffer offered too early keeps its bytes.
-/

namespace Shake

/-- A message being taken in, or its output stream. -/
inductive Xof where
  /-- The message is open. -/
  | absorbing (absorber : Absorber)
  /-- The message is closed. -/
  | finalized (squeezer : Squeezer)
  deriving DecidableEq

namespace Xof

/-- The object before the first byte of its message. -/
def empty : Xof := absorbing .empty

instance : Inhabited Xof := ⟨empty⟩

/-- Whether the message is closed. -/
def isFinalized : Xof → Bool
  | absorbing _ => false
  | finalized _ => true

/-- Append a last chunk and close the message. A message that consists of it alone is absorbed
at once, without a pending block. -/
def tryHash (x : Xof) (chunk : List UInt8) : Checked (Except PhaseError Xof) :=
  match x with
  | absorbing a =>
    if a.absorbedBits = 0 then do
      return .ok (finalized (← Squeezer.ofMessage chunk))
    else do
      let a ← a.absorb chunk
      let (q, _) ← a.finalize
      return .ok (finalized q)
  | finalized _ => .ok (.error .alreadyFinalized)

/-- Append a chunk to the message. -/
def tryAbsorb (x : Xof) (chunk : List UInt8) : Checked (Except PhaseError Xof) :=
  match x with
  | absorbing a => do
    return .ok (absorbing (← a.absorb chunk))
  | finalized _ => .ok (.error .alreadyFinalized)

/-- Close the message. -/
def tryFinalize (x : Xof) : Checked (Except PhaseError Xof) :=
  match x with
  | absorbing a => do
    let (q, _) ← a.finalize
    return .ok (finalized q)
  | finalized _ => .ok (.error .alreadyFinalized)

/-- Replace every byte of `dest` by the next byte of the stream. -/
def tryRead (x : Xof) (dest : List UInt8) : Checked (Except PhaseError (List UInt8 × Xof)) :=
  match x with
  | absorbing _ => .ok (.error .notFinalized)
  | finalized q => do
    let (bytes, q) ← q.squeeze dest
    return .ok (bytes, finalized q)

/-- The object after a call, or the object before it and a notice if the call was refused. -/
def orIgnore (x : Xof) (call : Call) : Except PhaseError Xof → Outcome Xof Unit
  | .ok y => { result := (), next := y }
  | .error e => { result := (), next := x, log := [.ignored call e] }

/-- Append a last chunk and close the message, if it is open. -/
def hash (x : Xof) (chunk : List UInt8) : Checked (Outcome Xof Unit) := do
  return x.orIgnore .hash (← x.tryHash chunk)

/-- Append a chunk to the message, if it is open. -/
def absorb (x : Xof) (chunk : List UInt8) : Checked (Outcome Xof Unit) := do
  return x.orIgnore .absorb (← x.tryAbsorb chunk)

/-- Close the message, if it is open. -/
def finalize (x : Xof) : Checked (Outcome Xof Unit) := do
  return x.orIgnore .finalize (← x.tryFinalize)

/-- Replace every byte of `dest` by the next byte of the stream, if the message is closed. -/
def read (x : Xof) (dest : List UInt8) : Checked (Outcome Xof (List UInt8)) := do
  match ← x.tryRead dest with
  | .ok (bytes, y) => return { result := bytes, next := y }
  | .error e => return { result := dest, next := x, log := [.ignored (.read dest.length) e] }

/-- The next `n` bytes of the stream, or none at all if the message is open. -/
def readFresh (x : Xof) (n : Nat) : Checked (Outcome Xof (List UInt8)) :=
  if x.isFinalized then do
    Checked.ensure (n < allocationBound) .allocation
    x.read (List.replicate n 0)
  else
    .ok { result := [], next := x, log := [.ignored (.read n) .notFinalized] }

instance : Absorb Xof where
  absorb := absorb

instance : Squeeze Xof where
  read := read
  readFresh := readFresh

/-- The notices given when the object is given up. -/
def drop : Xof → List Notice
  | absorbing a => if 0 < a.absorbedBits then [.dropped] else []
  | finalized _ => []

/-- A description that shows the phase and nothing else. -/
def describe : Xof → String
  | absorbing _ => "Shake256(absorbing)"
  | finalized _ => "Shake256(finalized)"

end Xof

end Shake
