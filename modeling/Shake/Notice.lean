/-!
# Calls in the wrong phase, and notices

A sponge takes in one message and then gives out one stream. A call that comes at the wrong time
is refused with a `PhaseError`. Where the caller did not ask for errors the call is ignored, and a
`Notice` says so; another notice reports a message that was given up unfinished.
-/

namespace Shake

/-- Why a call came at the wrong time. -/
inductive PhaseError where
  /-- The message is closed: nothing can be added to it. -/
  | alreadyFinalized
  /-- The message is still open: there is no output yet. -/
  | notFinalized
  deriving DecidableEq, Repr

namespace PhaseError

/-- The name under which the error is reported. -/
def name : PhaseError → String
  | alreadyFinalized => "AlreadyFinalized"
  | notFinalized => "NotFinalized"

/-- The error in words. -/
def message : PhaseError → String
  | alreadyFinalized => "Sponge already finalized"
  | notFinalized => "Sponge not finalized"

end PhaseError

/-- A call that can come at the wrong time. -/
inductive Call where
  /-- Absorb a message and close it. -/
  | hash
  /-- Absorb a part of a message. -/
  | absorb
  /-- Close the message. -/
  | finalize
  /-- Read `n` bytes of output. -/
  | read (n : Nat)
  deriving DecidableEq, Repr

/-- The call in words. -/
def Call.text : Call → String
  | hash => "hash"
  | absorb => "absorb"
  | finalize => "finalize"
  | read n => "read of " ++ toString n ++ " bytes"

/-- How much a notice matters. -/
inductive Level where
  /-- A likely mistake. -/
  | warn
  /-- Of interest when looking for a mistake. -/
  | debug
  deriving DecidableEq, Repr

/-- The name of the level at the start of a line. -/
def Level.name : Level → String
  | warn => "WARN"
  | debug => "DEBUG"

/-- An event worth a line in a log. -/
inductive Notice where
  /-- A call had no effect because of the phase it came in. -/
  | ignored (call : Call) (reason : PhaseError)
  /-- An open message was given up. -/
  | dropped
  deriving DecidableEq, Repr

namespace Notice

/-- How much the notice matters. -/
def level : Notice → Level
  | ignored _ _ => .warn
  | dropped => .debug

/-- The notice in words. -/
def text : Notice → String
  | ignored call reason => "Ignoring " ++ call.text ++ ": " ++ reason.message
  | dropped => "SHAKE256 instance dropped before finalization"

/-- The line that a log shows. -/
def line (n : Notice) : String := n.level.name ++ ": " ++ n.text

end Notice

end Shake
