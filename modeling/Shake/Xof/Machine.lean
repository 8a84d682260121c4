import Shake.Xof.Operation
import Shake.Bits.Sponge

/-!
# The object without its sponge

All that the caller of an `Xof` can tell is the message so far, whether it is closed, and how much
of its output has been read. A `Machine` holds just that and answers every operation from the
definition of SHAKE256 on bits.
-/

namespace Shake.Xof

/-- What the caller knows of an `Xof`. -/
inductive Machine where
  /-- The message so far. -/
  | absorbing (message : List UInt8)
  /-- The message, and how many bytes of its output have been read. -/
  | finalized (message : List UInt8) (position : Nat)
  deriving DecidableEq

namespace Machine

/-- The message so far. -/
def message : Machine → List UInt8
  | absorbing message => message
  | finalized message _ => message

/-- The bytes that an absorber has taken in once the operation is done, before it is closed. A
message that is hashed in one chunk goes past it. -/
def load (m : Machine) (op : Operation) : Nat :=
  match m with
  | absorbing message =>
    if message = [] ∧ op.closes then 0 else (message ++ op.offered).length
  | finalized _ _ => 0

/-- The bytes `position` to `position + n` of the output for a message. -/
def output (message : List UInt8) (position n : Nat) : List UInt8 :=
  (Bits.toBytes (Bits.shake message (8 * (position + n)))).drop position

/-- Append a last chunk and close the message. -/
def hash (m : Machine) (chunk : List UInt8) (refused : Reply) : Reply × Machine :=
  match m with
  | absorbing message => (.done, finalized (message ++ chunk) 0)
  | finalized _ _ => (refused, m)

/-- Append a chunk to the message. -/
def absorb (m : Machine) (chunk : List UInt8) (refused : Reply) : Reply × Machine :=
  match m with
  | absorbing message => (.done, absorbing (message ++ chunk))
  | finalized _ _ => (refused, m)

/-- Give out the next `n` bytes. -/
def read (m : Machine) (n : Nat) (refused : Reply) : Reply × Machine :=
  match m with
  | absorbing _ => (refused, m)
  | finalized message position =>
    (.bytes (output message position n), finalized message (position + n))

/-- Whether the message is closed. -/
def isFinalized : Machine → Bool
  | absorbing _ => false
  | finalized _ _ => true

/-- Answer one operation. -/
def step (m : Machine) : Operation → Reply × Machine
  | .hash chunk => m.hash chunk .done
  | .absorb chunk => m.absorb chunk .done
  | .absorbGeneric chunk => m.absorb chunk .done
  | .finalize => m.hash [] .done
  | .tryHash chunk => m.hash chunk (.refused .alreadyFinalized)
  | .tryAbsorb chunk => m.absorb chunk (.refused .alreadyFinalized)
  | .tryFinalize => m.hash [] (.refused .alreadyFinalized)
  | .isFinalized => (.flag m.isFinalized, m)
  | .read dest => m.read dest.length (.bytes dest)
  | .readGeneric dest => m.read dest.length (.bytes dest)
  | .tryRead dest => m.read dest.length (.refusedBytes .notFinalized dest)
  | .readFresh n => m.read n (.bytes [])
  | .readBlock n => m.read n (.bytes (List.replicate n 0))
  | .describe =>
    (.text (if m.isFinalized then "Shake256(finalized)" else "Shake256(absorbing)"), m)

/-- Answer operations one after the other. -/
def run (m : Machine) : List Operation → List Reply × Machine
  | [] => ([], m)
  | op :: ops =>
    let (reply, m) := m.step op
    let (replies, m) := m.run ops
    (reply :: replies, m)

end Machine

end Shake.Xof
