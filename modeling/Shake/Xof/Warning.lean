import Shake.Xof.Operation

/-!
# What a log should show of misuse

Which calls come at the wrong time can be told from the calls alone: after the first one that closes
the message nothing can be added, and before it nothing can be read. A caller can so write the
warnings of a log in advance: one line for each such call, in the wording given here, and no line for
the forms that report. The wording is set down line by line, apart from the notices that it is built
from elsewhere.
-/

namespace Shake.Xof

/-- Why an operation comes at the wrong time, if it does, in a message that is closed or open. -/
def Operation.misplaced? (closed : Bool) : Operation → Option PhaseError
  | hash _ | absorb _ | absorbGeneric _ | finalize | tryHash _ | tryAbsorb _ | tryFinalize =>
    if closed then some .alreadyFinalized else none
  | read _ | readGeneric _ | tryRead _ | readFresh _ | readBlock _ =>
    if closed then none else some .notFinalized
  | isFinalized | describe => none

/-- Why each operation of a list comes at the wrong time, if it does. -/
def misplacements (closed : Bool) : List Operation → List (Option PhaseError)
  | [] => []
  | op :: ops => op.misplaced? closed :: misplacements (closed || op.closes) ops

/-- The line for an operation that is ignored, if a log has one for it. -/
def Operation.warning? : Operation → Option String
  | hash _ => some "WARN: Ignoring hash: Sponge already finalized"
  | absorb _ | absorbGeneric _ => some "WARN: Ignoring absorb: Sponge already finalized"
  | finalize => some "WARN: Ignoring finalize: Sponge already finalized"
  | read dest | readGeneric dest => some (earlyRead dest.length)
  | readFresh n | readBlock n => some (earlyRead n)
  | _ => none
where
  /-- The line for a read of `n` bytes that comes too early. -/
  earlyRead (n : Nat) : String :=
    "WARN: Ignoring read of " ++ toString n ++ " bytes: Sponge not finalized"

/-- The lines for a list of operations, when `replies` are the answers to their reporting forms. -/
def warnings (ops : List Operation) (replies : List Reply) : List String :=
  (ops.zip replies).filterMap fun p => p.2.refusal?.bind fun _ => p.1.warning?

end Shake.Xof
