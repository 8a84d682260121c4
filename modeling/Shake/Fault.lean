/-!
# Failed checks

Every primitive checks what it is given before it computes. A `Fault` names the check that
failed; nothing in the library recovers from one. Calls that are merely made in the wrong phase
are not faults: they are reported by `PhaseError`.
-/

namespace Shake

/-- The check that an operation failed. -/
inductive Fault where
  /-- Bytes and lanes of a conversion do not have the same extent. -/
  | lengthMismatch
  /-- A byte index lies beyond the last lane. -/
  | laneIndex
  /-- A byte window reaches beyond the last lane. -/
  | window
  /-- More lanes than the state has. -/
  | tooManyLanes
  /-- A block is longer than the state or ends inside a lane. -/
  | blockLength
  /-- A block size of zero cuts no message. -/
  | emptyBlock
  /-- A domain suffix of more than six bits. -/
  | wideSuffix
  /-- A rate that is zero, ends inside a byte, or exceeds the state. -/
  | badRate
  /-- A message shorter than the suffix it is said to end with. -/
  | shortMessage
  /-- A message that ends inside a byte. -/
  | partialByte
  /-- A padding bit beyond the last byte of the state. -/
  | paddingBit
  /-- A count of absorbed bits that reaches its bound. -/
  | counterOverflow
  /-- A write that does not fit into the pending block. -/
  | blockBounds
  /-- A pending block out of step with the count of absorbed bits. -/
  | misplacedOffset
  /-- A window that shows more bytes than one block has. -/
  | overfullWindow
  /-- A byte string too long to be held in memory. -/
  | allocation
  deriving DecidableEq, Repr

/-- A value, or the check that failed on the way to it. -/
abbrev Checked (α : Type) : Type := Except Fault α

/-- Stop with the fault `e` unless `p` holds. -/
def Checked.ensure (p : Prop) [Decidable p] (e : Fault) : Checked Unit :=
  if p then .ok () else .error e

/-- Put requests to an object one after the other, collecting the answers. -/
def Checked.thread {σ α β : Type} (f : σ → α → Checked (β × σ)) (s : σ) :
    List α → Checked (List β × σ)
  | [] => .ok ([], s)
  | request :: requests => do
    let (answer, s) ← f s request
    let (answers, s) ← thread f s requests
    return (answer :: answers, s)

/-- A value at hand is passed on. -/
@[simp] theorem Checked.ok_bind {α β : Type} (a : α) (f : α → Checked β) :
    ((Except.ok a : Checked α) >>= f) = f a := rfl

/-- A check passes exactly when its condition holds. -/
theorem Checked.ensure_eq_ok_iff {p : Prop} [Decidable p] {e : Fault} :
    Checked.ensure p e = .ok () ↔ p := by
  by_cases h : p <;> simp [ensure, h]

/-- A check that holds lets the computation go on. -/
theorem Checked.ensure_bind_of {p : Prop} [Decidable p] (h : p) {e : Fault} {α : Type}
    (f : Unit → Checked α) : (Checked.ensure p e >>= f) = f () := by
  rw [ensure, if_pos h]
  rfl

/-- A check that fails ends the computation with its fault. -/
theorem Checked.ensure_bind_of_not {p : Prop} [Decidable p] (h : ¬ p) {e : Fault} {α : Type}
    (f : Unit → Checked α) : (Checked.ensure p e >>= f) = .error e := by
  rw [ensure, if_neg h]
  rfl

/-- A computation in two parts succeeds only if both parts do. -/
theorem Checked.exists_of_bind_eq_ok {α β : Type} {x : Checked α} {f : α → Checked β} {b : β}
    (h : (x >>= f) = .ok b) : ∃ a, x = .ok a ∧ f a = .ok b := by
  cases x with
  | error e => cases h
  | ok a => exact ⟨a, rfl, h⟩

/-- What is made of the value of a computation is there only if the value is. -/
theorem Checked.exists_of_map_eq_ok {α β : Type} {x : Checked α} {f : α → β} {b : β}
    (h : f <$> x = .ok b) : ∃ a, x = .ok a ∧ f a = b := by
  cases x with
  | error e => cases h
  | ok a => exact ⟨a, rfl, Except.ok.inj h⟩

/-- A computation fails exactly when it has no value. -/
theorem Checked.exists_error_iff {α : Type} {x : Checked α} :
    (∃ e, x = .error e) ↔ ¬ ∃ a, x = .ok a := by
  cases x with
  | error e =>
    constructor
    · rintro - ⟨a, h⟩
      cases h
    · intro _
      exact ⟨e, rfl⟩
  | ok a =>
    constructor
    · rintro ⟨e, h⟩
      cases h
    · intro h
      exact absurd ⟨a, rfl⟩ h

/-- A value under a condition is there exactly when the condition holds. -/
theorem Checked.exists_ite_iff {α : Type} {p : Prop} [Decidable p] {a : α} {e : Fault} :
    (∃ b, (if p then .ok a else .error e : Checked α) = .ok b) ↔ p := by
  by_cases h : p
  · exact iff_of_true ⟨a, if_pos h⟩ h
  · rw [if_neg h]
    exact iff_of_false (fun ⟨_, hb⟩ => nomatch hb) h

/-- What every request keeps is kept by all of them, one after the other. -/
theorem Checked.exists_thread {σ α β : Type} {f : σ → α → Checked (β × σ)} {P : σ → Prop}
    (hf : ∀ s request, P s → ∃ answer next, f s request = .ok (answer, next) ∧ P next)
    {s : σ} (h : P s) (requests : List α) :
    ∃ answers last, Checked.thread f s requests = .ok (answers, last) ∧ P last := by
  induction requests generalizing s with
  | nil => exact ⟨[], s, rfl, h⟩
  | cons request requests ih =>
    obtain ⟨answer, next, hn, hp⟩ := hf s request h
    obtain ⟨answers, last, hl, hlast⟩ := ih hp
    refine ⟨answer :: answers, last, ?_, hlast⟩
    rw [thread, hn, ok_bind]
    dsimp only
    rw [hl]
    rfl

end Shake
