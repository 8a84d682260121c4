import Shake.Absorber.Action
import Shake.Digest
import Shake.Hasher.Feed
import Shake.Reader.Request
import Shake.Squeezer.Action
import Shake.Xof.Operation

/-!
# Sessions

A caller may hold any number of objects of all kinds, each in a slot of its own, and call them in
any order. Closing a message turns a hasher into a reader and lets a squeezer come out of an
absorber; objects can be copied and given up at any time. A session is a list of such commands,
and what counts here is which objects it leaves behind.
-/

namespace Shake.Session

/-- An object of any kind. -/
inductive Object where
  /-- An object for both phases. -/
  | xof (x : Xof)
  /-- A hasher. -/
  | hasher (h : Hasher)
  /-- A reader. -/
  | reader (r : Reader)
  /-- An absorber. -/
  | absorber (a : Absorber)
  /-- A squeezer. -/
  | squeezer (q : Squeezer)

/-- A way to come by a new object. -/
inductive Origin where
  /-- Start an object for both phases. -/
  | xof
  /-- Start a hasher. -/
  | hasher
  /-- Start an absorber. -/
  | absorber
  /-- Read the output stream of a message that is absorbed at once. -/
  | reader (message : List UInt8)
  /-- Squeeze any state at all. -/
  | squeezer (s : State)

/-- A call on an object. An object that has no such call is left as it is. -/
inductive Use where
  /-- Operate on an object for both phases. -/
  | operate (op : Xof.Operation)
  /-- Append to the message of a hasher. -/
  | feed (f : Hasher.Feed)
  /-- Close the message of a hasher and put the reader in its place. -/
  | close
  /-- The same through `ExtendableOutput`. -/
  | closeGeneric
  /-- Close the message of a hasher for good and fill a buffer from its stream. -/
  | closeInto (dest : List UInt8)
  /-- Draw from a reader. -/
  | draw (request : Reader.Request)
  /-- Act on an absorber. -/
  | act (action : Absorber.Action)
  /-- Act on a squeezer. -/
  | squeeze (action : Squeezer.Action)

/-- The number of bytes that a call asks for. -/
def Use.requested : Use → Nat
  | operate op => op.requested
  | closeInto dest => dest.length
  | draw request => request.size
  | squeeze (.squeeze dest) => dest.length
  | _ => 0

/-- What a call leaves in the slot of its object, and what comes out beside it. -/
structure Yield (α : Type) where
  /-- What takes the place of the object. -/
  rest : Option α
  /-- What goes to another slot. -/
  product : Option α := none

namespace Object

/-- Start an object. -/
def start : Origin → Checked Object
  | .xof => .ok (xof .empty)
  | .hasher => .ok (hasher .empty)
  | .absorber => .ok (absorber .empty)
  | .reader message => do
    return reader (← Hasher.hash message)
  | .squeezer s => .ok (squeezer (.ofState s))

/-- Call an object. -/
def use : Object → Use → Checked (Yield Object)
  | xof x, .operate op => do
    return { rest := some (xof (← x.step op).next) }
  | hasher h, .feed f => do
    return { rest := some (hasher (← h.feed f)) }
  | hasher h, .close => do
    return { rest := some (reader (← h.finalize)) }
  | hasher h, .closeGeneric => do
    return { rest := some (reader (← ExtendableOutput.finalize h)) }
  | hasher h, .closeInto dest => do
    let _ ← ExtendableOutput.finalizeInto h dest
    return { rest := none }
  | reader r, .draw request => do
    let (_, r) ← r.serve request
    return { rest := some (reader r) }
  | absorber a, .act action => do
    let (q?, a) ← a.act action
    return { rest := some (absorber a), product := q?.map squeezer }
  | squeezer q, .squeeze action => do
    let (_, q) ← q.act action
    return { rest := some (squeezer q) }
  | o, _ => .ok { rest := some o }

end Object

/-- Slots, each of them empty or with a value in it. -/
abbrev Slots (α : Type) : Type := Nat → Option α

namespace Slots

variable {α : Type}

/-- Slots with nothing in them. -/
def empty : Slots α := fun _ => none

/-- The slots after one of them has been filled anew or emptied. -/
def put (slots : Slots α) (i : Nat) (a? : Option α) : Slots α :=
  fun j => if j = i then a? else slots j

/-- The slots after a call on the object in slot `i` whose product goes to slot `j`. -/
def settle (slots : Slots α) (i j : Nat) (y : Yield α) : Slots α :=
  match y.product with
  | none => slots.put i y.rest
  | some a => (slots.put i y.rest).put j (some a)

end Slots

/-- One move of the caller. A call on an empty slot changes nothing. -/
inductive Command where
  /-- Put a new object in a slot. -/
  | create (origin : Origin) (i : Nat)
  /-- Call the object in a slot, with another slot for what comes out of it. -/
  | use (u : Use) (i j : Nat)
  /-- Put a copy of the object in one slot in another. -/
  | copy (i j : Nat)
  /-- Give up the object in a slot. -/
  | drop (i : Nat)
  /-- Take a digest of `n` bytes. -/
  | digest (n : Nat) (message : List UInt8)
  /-- Take a digest in a buffer. -/
  | digestInto (message dest : List UInt8)
  /-- Take a digest in a buffer through `ExtendableOutput`. -/
  | digestGeneric (message dest : List UInt8)

/-- The number of bytes that a command asks for. -/
def Command.requested : Command → Nat
  | use u _ _ => u.requested
  | digest n _ => n
  | digestInto _ dest | digestGeneric _ dest => dest.length
  | create _ _ | copy _ _ | drop _ => 0

/-- Carry out one command. -/
def step (slots : Slots Object) : Command → Checked (Slots Object)
  | .create origin i => do
    return slots.put i (some (← Object.start origin))
  | .use u i j =>
    match slots i with
    | none => .ok slots
    | some o => do
      return slots.settle i j (← o.use u)
  | .copy i j => .ok (slots.put j (slots i))
  | .drop i => .ok (slots.put i none)
  | .digest n message => do
    let _ ← Shake.digest n message
    return slots
  | .digestInto message dest => do
    let _ ← Shake.digestInto message dest
    return slots
  | .digestGeneric message dest => do
    let _ ← ExtendableOutput.digest Hasher message dest
    return slots

/-- Carry out commands one after the other. -/
def run (slots : Slots Object) : List Command → Checked (Slots Object)
  | [] => .ok slots
  | c :: cs => do
    run (← step slots c) cs

end Shake.Session
