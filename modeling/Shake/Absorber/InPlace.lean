import Shake.Absorber.Basic

/-!
# Absorption in place

An absorber is changed in place, so a check that fails ends a call halfway: what the call has done
by then is not undone. The operations of `Shake.Absorber` give up the absorber together with the
call; here the same steps keep it. Forgetting what a failed call has left behind gives the
operations back, for all arguments.
-/

namespace Shake.Absorber

/-- A call that changes an absorber in place, and leaves it behind also when a check fails. -/
abbrev InPlace : Type := ExceptT Fault (StateM Absorber) Unit

namespace InPlace

/-- One step of a call. Its checks come before its changes, so if it fails nothing is changed. -/
def step (f : Absorber → Checked Absorber) : InPlace := do
  match f (← get) with
  | .ok a => set a
  | .error e => throw e

/-- Count the bits of `n` bytes. -/
def count (n : Nat) : InPlace :=
  step fun a => do
    let bits := a.absorbedBits + 8 * n
    Checked.ensure (bits < counterBound) .counterOverflow
    return { a with absorbedBits := bits }

/-- Pass the input through the pending block, as much at a time as the block has room for. -/
def take (input : List UInt8) : InPlace := do
  if input = [] then return
  else
    let a ← get
    if a.offset < rateBytes then
      step fun a => a.write (input.take (rateBytes - a.offset))
      step flush
      take (input.drop (rateBytes - a.offset))
    else throw .blockBounds
termination_by input.length
decreasing_by
  have hi := List.length_pos_iff.mpr ‹input ≠ []›
  simp only [List.length_drop]
  omega

/-- Append `input` to the message. -/
def absorb (input : List UInt8) : InPlace := do
  count input.length
  take input
  step fun a => do
    Checked.ensure (a.offset < rateBytes ∧ a.offset = a.absorbedBits / 8 % rateBytes)
      .misplacedOffset
    return a

/-- What a call comes to when the absorber that a failed call leaves behind is forgotten. -/
def outcome (x : InPlace) (a : Absorber) : Checked Absorber :=
  match x.run.run a with
  | (.ok (), b) => .ok b
  | (.error e, _) => .error e

/-- A step that fails leaves the absorber as it is. -/
theorem run_step (f : Absorber → Checked Absorber) (a : Absorber) :
    (step f).run.run a =
      match f a with
      | .ok b => (.ok (), b)
      | .error e => (.error e, a) := by
  change (match f a with
    | .ok b => (set b : InPlace)
    | .error e => throw e).run.run a = _
  cases f a <;> rfl

@[simp] theorem outcome_step (f : Absorber → Checked Absorber) (a : Absorber) :
    outcome (step f) a = f a := by
  rw [outcome, run_step]
  cases f a <;> rfl

/-- A call in two parts goes on with what the first part leaves behind, unless that has failed. -/
theorem run_bind (x : InPlace) (f : Unit → InPlace) (a : Absorber) :
    (x >>= f).run.run a =
      match x.run.run a with
      | (.ok (), b) => (f ()).run.run b
      | (.error e, b) => (.error e, b) := by
  rw [ExceptT.run_bind, StateT.run_bind]
  rcases x.run.run a with ⟨_ | _, b⟩ <;> rfl

theorem outcome_bind (x : InPlace) (f : Unit → InPlace) (a : Absorber) :
    outcome (x >>= f) a = outcome x a >>= outcome (f ()) := by
  rw [outcome, outcome, run_bind]
  rcases x.run.run a with ⟨_ | _, b⟩ <;> rfl

theorem outcome_get_bind (f : Absorber → InPlace) (a : Absorber) :
    outcome (get >>= f) a = outcome (f a) a := rfl

/-- Passing input through the block in place does what it does otherwise. -/
theorem outcome_take (input : List UInt8) (a : Absorber) :
    outcome (take input) a = a.take input := by
  -- both loops hand on the same rest of the input, which gets shorter every time
  induction hn : input.length using Nat.strongRecOn generalizing a input with
  | _ n ih =>
    subst hn
    rw [take, Absorber.take]
    by_cases hi : input = []
    · rw [if_pos hi, if_pos hi]
      rfl
    · rw [if_neg hi, if_neg hi, outcome_get_bind]
      by_cases ho : a.offset < rateBytes
      · have hpos := List.length_pos_iff.mpr hi
        have hd : (input.drop (rateBytes - a.offset)).length < input.length := by
          rw [List.length_drop]
          omega
        rw [if_pos ho, if_pos ho, outcome_bind, outcome_step]
        congr 1
        funext b
        rw [outcome_bind, outcome_step]
        congr 1
        funext c
        exact ih _ hd _ c rfl
      · rw [if_neg ho, if_neg ho]
        rfl

/-- Absorbing in place does what absorbing does otherwise. -/
theorem outcome_absorb (input : List UInt8) (a : Absorber) :
    outcome (absorb input) a = a.absorb input := by
  rw [absorb, Absorber.absorb, outcome_bind, count, outcome_step]
  dsimp only
  by_cases hb : a.absorbedBits + 8 * input.length < counterBound
  · rw [Checked.ensure_bind_of hb, Checked.ensure_bind_of hb]
    change outcome (take input >>= _)
      { a with absorbedBits := a.absorbedBits + 8 * input.length } = _
    rw [outcome_bind, outcome_take]
    congr 1
    funext b
    exact outcome_step _ b
  · rw [Checked.ensure_bind_of_not hb, Checked.ensure_bind_of_not hb]
    rfl

/-- In place, a call that overflows has not changed anything yet. -/
theorem run_absorb_of_overflow {a : Absorber} {input : List UInt8}
    (h : counterBound ≤ a.absorbedBits + 8 * input.length) :
    (absorb input).run.run a = (.error .counterOverflow, a) := by
  rw [absorb, run_bind, count, run_step, Checked.ensure_bind_of_not (Nat.not_lt.mpr h)]

end InPlace

end Shake.Absorber
