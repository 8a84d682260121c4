import Shake.Session.Basic
import Shake.Xof.Machine

/-!
# What a caller answers for

A caller who keeps account of the open messages, and of nothing inside the objects, can tell of any
list of commands whether it stays within bounds: no absorber may take in more bytes of one message
than its count can hold, and no buffer may be longer than memory. The account of a copy is that of
its original.
-/

namespace Shake.Session

/-- What the caller knows of an object. -/
inductive Outline where
  /-- An object for both phases that answers as a machine does. -/
  | xof (m : Xof.Machine)
  /-- A hasher with its message so far. -/
  | hasher (message : List UInt8)
  /-- A reader. -/
  | reader
  /-- An absorber with its message so far. -/
  | absorber (message : List UInt8)
  /-- A squeezer. -/
  | squeezer

namespace Outline

/-- The outline of a new object. -/
def start : Origin → Outline
  | .xof => xof (.absorbing [])
  | .hasher => hasher []
  | .absorber => absorber []
  | .reader _ => reader
  | .squeezer _ => squeezer

/-- The outlines of what a call leaves. -/
def use : Outline → Use → Yield Outline
  | xof m, .operate op => { rest := some (xof (m.step op).2) }
  | hasher message, .feed f => { rest := some (hasher (message ++ f.bytes)) }
  | hasher _, .close => { rest := some reader }
  | hasher _, .closeGeneric => { rest := some reader }
  | hasher _, .closeInto _ => { rest := none }
  | absorber message, .act action =>
    { rest := some (absorber (Absorber.openMessage message [action])),
      product := (Absorber.closedMessages message [action]).head?.map fun _ => squeezer }
  | o, _ => { rest := some o }

/-- The bytes that the absorber of an object has taken in since its message was begun, once a call
has added to them. -/
def load : Outline → Use → Nat
  | xof m, .operate op => m.load op
  | hasher message, .feed f => (message ++ f.bytes).length
  | absorber message, .act action => (Absorber.openMessage message [action]).length
  | _, _ => 0

end Outline

namespace Slots

/-- The bytes that an absorber has taken in once a command is carried out. -/
def load (slots : Slots Outline) : Command → Nat
  | .use u i _ =>
    match slots i with
    | none => 0
    | some o => o.load u
  | .digestGeneric message _ => message.length
  | _ => 0

/-- The outlines after a command. -/
def follow (slots : Slots Outline) : Command → Slots Outline
  | .create origin i => slots.put i (some (.start origin))
  | .use u i j =>
    match slots i with
    | none => slots
    | some o => slots.settle i j (o.use u)
  | .copy i j => slots.put j (slots i)
  | .drop i => slots.put i none
  | _ => slots

/-- Whether every one of a list of commands stays within bounds. -/
def Allows : Slots Outline → List Command → Prop
  | _, [] => True
  | slots, c :: cs =>
    slots.load c < messageBound ∧ c.requested < allocationBound ∧ Allows (slots.follow c) cs

instance decidableAllows : (slots : Slots Outline) → (cs : List Command) →
    Decidable (slots.Allows cs)
  | _, [] => instDecidableTrue
  | slots, c :: cs =>
    have := decidableAllows (slots.follow c) cs
    inferInstanceAs (Decidable (_ ∧ _ ∧ _))

end Slots

end Shake.Session
