import Shake.Xof.Basic

/-!
# Operations as data

An `Operation` names one call on an `Xof` with its arguments, and `Xof.step` carries it out. A run
is the list of replies that a list of operations gets, together with every notice given on the
way and at the end, when the object is given up.
-/

namespace Shake.Xof

/-- A call on an `Xof`. -/
inductive Operation where
  /-- Append a last chunk and close the message, if it is open. -/
  | hash (chunk : List UInt8)
  /-- Append a chunk to the message, if it is open. -/
  | absorb (chunk : List UInt8)
  /-- The same through `Absorb`. -/
  | absorbGeneric (chunk : List UInt8)
  /-- Close the message, if it is open. -/
  | finalize
  /-- Append a last chunk and close the message, or be refused. -/
  | tryHash (chunk : List UInt8)
  /-- Append a chunk to the message, or be refused. -/
  | tryAbsorb (chunk : List UInt8)
  /-- Close the message, or be refused. -/
  | tryFinalize
  /-- Ask for the phase. -/
  | isFinalized
  /-- Fill a buffer, if the message is closed. -/
  | read (dest : List UInt8)
  /-- The same through `Squeeze`. -/
  | readGeneric (dest : List UInt8)
  /-- Fill a buffer, or be refused. -/
  | tryRead (dest : List UInt8)
  /-- Make a buffer of `n` bytes and fill it, if the message is closed. -/
  | readFresh (n : Nat)
  /-- Fill `n` zeros, if the message is closed. -/
  | readBlock (n : Nat)
  /-- Ask for a description. -/
  | describe

namespace Operation

/-- The bytes offered to the message. -/
def offered : Operation → List UInt8
  | hash chunk | absorb chunk | absorbGeneric chunk | tryHash chunk | tryAbsorb chunk => chunk
  | _ => []

/-- The number of bytes asked of the stream. -/
def requested : Operation → Nat
  | read dest | readGeneric dest | tryRead dest => dest.length
  | readFresh n | readBlock n => n
  | _ => 0

/-- Whether the operation closes an open message. -/
def closes : Operation → Bool
  | hash _ | finalize | tryHash _ | tryFinalize => true
  | _ => false

/-- The form of the operation that reports a call in the wrong phase, if there is another one. -/
def toTry : Operation → Operation
  | hash chunk => tryHash chunk
  | absorb chunk | absorbGeneric chunk => tryAbsorb chunk
  | finalize => tryFinalize
  | read dest | readGeneric dest => tryRead dest
  | readFresh n | readBlock n => tryRead (List.replicate n 0)
  | op => op

/-- The notice given when the operation is ignored for a reason; forms that report give none. -/
def complaint (reason : PhaseError) : Operation → List Notice
  | hash _ => [.ignored .hash reason]
  | absorb _ | absorbGeneric _ => [.ignored .absorb reason]
  | finalize => [.ignored .finalize reason]
  | read dest | readGeneric dest => [.ignored (.read dest.length) reason]
  | readFresh n | readBlock n => [.ignored (.read n) reason]
  | _ => []

/-- The operation with every byte for the message replaced by zero. -/
def blank : Operation → Operation
  | hash chunk => hash (chunk.map fun _ => 0)
  | absorb chunk => absorb (chunk.map fun _ => 0)
  | absorbGeneric chunk => absorbGeneric (chunk.map fun _ => 0)
  | tryHash chunk => tryHash (chunk.map fun _ => 0)
  | tryAbsorb chunk => tryAbsorb (chunk.map fun _ => 0)
  | op => op

end Operation

/-- What the caller gets. -/
inductive Reply where
  /-- Nothing. -/
  | done
  /-- The call was refused. -/
  | refused (reason : PhaseError)
  /-- An answer to a question. -/
  | flag (b : Bool)
  /-- A buffer. -/
  | bytes (bytes : List UInt8)
  /-- The call was refused, and the buffer offered to it comes back. -/
  | refusedBytes (reason : PhaseError) (bytes : List UInt8)
  /-- A description. -/
  | text (s : String)
  deriving DecidableEq

/-- The reason given by a call that was refused. -/
def Reply.refusal? : Reply → Option PhaseError
  | .refused reason => some reason
  | .refusedBytes reason _ => some reason
  | _ => none

/-- The reply to a call that returns nothing. -/
def replyDone (out : Outcome Xof Unit) : Outcome Xof Reply :=
  { result := .done, next := out.next, log := out.log }

/-- The reply to a call that returns a buffer. -/
def replyBytes (out : Outcome Xof (List UInt8)) : Outcome Xof Reply :=
  { result := .bytes out.result, next := out.next, log := out.log }

/-- The reply to a call that may be refused. -/
def replyOrRefuse (x : Xof) : Except PhaseError Xof → Outcome Xof Reply
  | .ok y => { result := .done, next := y }
  | .error e => { result := .refused e, next := x }

/-- Carry out one operation. -/
def step (x : Xof) : Operation → Checked (Outcome Xof Reply)
  | .hash chunk => replyDone <$> x.hash chunk
  | .absorb chunk => replyDone <$> x.absorb chunk
  | .absorbGeneric chunk => replyDone <$> Absorb.absorb x chunk
  | .finalize => replyDone <$> x.finalize
  | .tryHash chunk => x.replyOrRefuse <$> x.tryHash chunk
  | .tryAbsorb chunk => x.replyOrRefuse <$> x.tryAbsorb chunk
  | .tryFinalize => x.replyOrRefuse <$> x.tryFinalize
  | .isFinalized => .ok { result := .flag x.isFinalized, next := x }
  | .read dest => replyBytes <$> x.read dest
  | .readGeneric dest => replyBytes <$> Squeeze.read x dest
  | .tryRead dest => do
    match ← x.tryRead dest with
    | .ok (bytes, y) => return { result := .bytes bytes, next := y }
    | .error e => return { result := .refusedBytes e dest, next := x }
  | .readFresh n => replyBytes <$> Squeeze.readFresh x n
  | .readBlock n => replyBytes <$> Squeeze.readBlock x n
  | .describe => .ok { result := .text x.describe, next := x }

/-- Carry out operations one after the other, collecting replies and notices. -/
def run (x : Xof) : List Operation → Checked (Outcome Xof (List Reply))
  | [] => .ok { result := [], next := x }
  | op :: ops => do
    let first ← x.step op
    let rest ← first.next.run ops
    return { result := first.result :: rest.result, next := rest.next, log := first.log ++ rest.log }

end Shake.Xof
