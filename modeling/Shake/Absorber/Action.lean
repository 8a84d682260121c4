import Shake.Absorber.Basic

/-!
# Actions as data

An absorber serves for many messages: closing one leaves it as good as new. An `Action` names one
call with its arguments, and a history is a list of actions with the output streams that it gave.
-/

namespace Shake.Absorber

/-- A call on an `Absorber`. -/
inductive Action where
  /-- Append a chunk to the message. -/
  | absorb (chunk : List UInt8)
  /-- Close the message and start another one. -/
  | finalize
  /-- Give up the message and start another one. -/
  | clear

/-- Carry out one action; a stream comes of closing a message. -/
def act (a : Absorber) : Action → Checked (Option Squeezer × Absorber)
  | .absorb chunk => do
    return (none, ← a.absorb chunk)
  | .finalize => do
    let (q, a) ← a.finalize
    return (some q, a)
  | .clear => .ok (none, a.clear)

/-- Carry out actions one after the other, collecting the streams. -/
def actAll (a : Absorber) : List Action → Checked (List Squeezer × Absorber)
  | [] => .ok ([], a)
  | action :: actions => do
    let (q?, a) ← a.act action
    let (qs, a) ← a.actAll actions
    return (q?.toList ++ qs, a)

/-- The message that is open after a list of actions, when `message` was open before. -/
def openMessage (message : List UInt8) : List Action → List UInt8
  | [] => message
  | .absorb chunk :: actions => openMessage (message ++ chunk) actions
  | .finalize :: actions => openMessage [] actions
  | .clear :: actions => openMessage [] actions

/-- The messages that a list of actions closes, when `message` was open before. -/
def closedMessages (message : List UInt8) : List Action → List (List UInt8)
  | [] => []
  | .absorb chunk :: actions => closedMessages (message ++ chunk) actions
  | .finalize :: actions => message :: closedMessages [] actions
  | .clear :: actions => closedMessages [] actions

end Shake.Absorber
