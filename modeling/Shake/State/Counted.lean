import Shake.State.Absorption

/-!
# Absorption with its permutations counted

A state does not show how often it has been permuted. A `Counted` state carries that number along
and goes through absorption in the same steps. Forgetting the number gives the absorption of the
plain state, for all arguments, failed checks included; and the number grows by one for every full
block of the message and by one for the padding.
-/

namespace Shake

/-- A state, and how many permutations have been applied on the way to it. -/
structure Counted where
  /-- The state. -/
  state : State
  /-- The number of permutations. -/
  permutations : Nat

namespace Counted

/-- The state before any permutation. -/
def start (s : State) : Counted := ⟨s, 0⟩

@[simp] theorem start_state (s : State) : (start s).state = s := rfl

/-- Permute the state. -/
def permute (c : Counted) : Counted := ⟨c.state.permute, c.permutations + 1⟩

/-- Add one block and permute. -/
def absorbBlock (c : Counted) (block : List UInt8) : Checked Counted := do
  return permute { c with state := ← c.state.xorBlock block }

/-- Absorb `n` blocks of `size` bytes, and return the rest of the message beside the state. -/
def absorbBlocks (size : Nat) : Nat → Counted → List UInt8 → Checked (Counted × List UInt8)
  | 0, c, message => .ok (c, message)
  | n + 1, c, message => do
    let c ← c.absorbBlock (message.take size)
    absorbBlocks size n c (message.drop size)

/-- Absorb a message with its suffix and padding, in blocks of `size` bytes. -/
def absorb (c : Counted) (size : Nat) (suffix : Suffix) (message : List UInt8) :
    Checked Counted := do
  Checked.ensure (0 < size) .emptyBlock
  let (c, rest) ← absorbBlocks size (message.length / size) c message
  let padding ← Padding.close suffix (8 * message.length + suffix.width) (8 * size)
  c.absorbBlock (rest ++ padding.toBytes)

/-- The counted state that `n` more permutations lead to. -/
def next (c : Counted) (n : Nat) (s : State) : Counted := ⟨s, c.permutations + n⟩

theorem start_next (s t : State) (n : Nat) : (start s).next n t = ⟨t, n⟩ := by
  rw [next, start, Nat.zero_add]

/-- One block takes one permutation. -/
theorem absorbBlock_eq (c : Counted) (block : List UInt8) :
    c.absorbBlock block = c.next 1 <$> c.state.absorbBlock block := by
  rw [absorbBlock, State.absorbBlock]
  cases c.state.xorBlock block <;> rfl

/-- Each block takes one permutation. -/
theorem absorbBlocks_eq (size n : Nat) (c : Counted) (message : List UInt8) :
    absorbBlocks size n c message =
      (fun p => (c.next n p.1, p.2)) <$> State.absorbBlocks size n c.state message := by
  induction n generalizing c message with
  | zero => rfl
  | succ n ih =>
    rw [absorbBlocks, State.absorbBlocks, absorbBlock_eq]
    cases c.state.absorbBlock (message.take size) with
    | error e => rfl
    | ok s =>
      change absorbBlocks size n (c.next 1 s) (message.drop size) = _
      rw [ih]
      simp only [next, Nat.add_assoc, Nat.add_comm 1 n]
      rfl

/-- Absorption takes one permutation for each full block of the message, and one more. -/
theorem absorb_eq (c : Counted) (size : Nat) (suffix : Suffix) (message : List UInt8) :
    c.absorb size suffix message =
      c.next (message.length / size + 1) <$> c.state.absorb size suffix message := by
  by_cases hs : 0 < size
  · rw [absorb, State.absorb, Checked.ensure_bind_of hs, Checked.ensure_bind_of hs,
      absorbBlocks_eq]
    cases State.absorbBlocks size (message.length / size) c.state message with
    | error e => rfl
    | ok p =>
      change (Padding.close suffix (8 * message.length + suffix.width) (8 * size) >>= fun padding =>
        (c.next (message.length / size) p.1).absorbBlock (p.2 ++ padding.toBytes)) = _
      simp only [absorbBlock_eq]
      cases Padding.close suffix (8 * message.length + suffix.width) (8 * size) <;> rfl
  · rw [absorb, State.absorb, Checked.ensure_bind_of_not hs, Checked.ensure_bind_of_not hs]
    rfl

end Counted

end Shake
