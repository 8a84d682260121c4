import Shake.Xof.Operation

/-!
# The shape of operations and replies

An operation has a shape, which tells what is called and how long its data and its buffer are, and
nothing of what they hold; a reply has one that tells all but the bytes in it. An onlooker who can
measure what goes in and out, and not look into it, sees a run as the shapes of its operations and
of its replies.
-/

namespace Shake.Xof

/-- The operation with every byte for the message, and of its buffer, replaced by zero. -/
def Operation.shape (op : Operation) : Operation :=
  match op.blank with
  | read dest => read (List.replicate dest.length 0)
  | readGeneric dest => readGeneric (List.replicate dest.length 0)
  | tryRead dest => tryRead (List.replicate dest.length 0)
  | other => other

/-- The reply with every byte replaced by zero. -/
def Reply.shape : Reply → Reply
  | bytes b => bytes (List.replicate b.length 0)
  | refusedBytes reason b => refusedBytes reason (List.replicate b.length 0)
  | other => other

end Shake.Xof
