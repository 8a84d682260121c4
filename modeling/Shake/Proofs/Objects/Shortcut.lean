import Shake.Proofs.Objects.Refinement

/-!
# Hashing in one call

An object that has taken in nothing hashes a message by absorbing it at once, past its own absorber.
Whether it has taken in nothing is told by the count of bits alone, so this is right only if no
history leads to an absorber that has counted nothing and still holds something. What an operation
can do to an object is said once (`Moves`); it follows that an open object has absorbed exactly what
it was offered, whatever else has been tried on the way. Both ways to hash a last chunk then lead
the machine to the same place, and there is one object that a machine describes.
-/

namespace Shake.Xof

/-- What an operation can do to an object. -/
inductive Moves (op : Operation) : Xof → Xof → Prop where
  /-- Absorb what is offered. -/
  | absorbs {a b : Absorber} (h : a.absorb op.offered = .ok b) :
      Moves op (absorbing a) (absorbing b)
  /-- Leave an open message as it is, if nothing is offered. -/
  | keeps {a : Absorber} (h : op.offered = []) : Moves op (absorbing a) (absorbing a)
  /-- Close the message. -/
  | closes {a : Absorber} {q : Squeezer} : Moves op (absorbing a) (finalized q)
  /-- Go on in the stream of a closed message, or stay. -/
  | reads {q r : Squeezer} : Moves op (finalized q) (finalized r)

section Step

variable {op : Operation} {x : Xof} {answer : Except PhaseError Xof} {out : Outcome Xof Reply}

/-- A form that ignores a refusal leaves the same object as the form that reports it. -/
theorem next_of_ignored {call : Checked (Except PhaseError Xof)} {c : Call}
    (h : replyDone <$> (do return x.orIgnore c (← call)) = .ok out) :
    ∃ answer, call = .ok answer ∧ out.next = (x.replyOrRefuse answer).next := by
  rcases call with e | answer
  · cases h
  · cases h
    refine ⟨answer, rfl, ?_⟩
    cases answer <;> rfl

/-- A form that reports a refusal succeeds only if the call is answered. -/
theorem next_of_reported {call : Checked (Except PhaseError Xof)}
    (h : x.replyOrRefuse <$> call = .ok out) :
    ∃ answer, call = .ok answer ∧ out.next = (x.replyOrRefuse answer).next := by
  rcases call with e | answer
  · cases h
  · cases h
    exact ⟨answer, rfl, rfl⟩

theorem moves_of_tryHash {chunk : List UInt8} (h : x.tryHash chunk = .ok answer) :
    Moves op x (x.replyOrRefuse answer).next := by
  cases x with
  | absorbing a =>
    rw [tryHash] at h
    split at h
    · obtain ⟨q, _, hn⟩ := Checked.exists_of_bind_eq_ok h
      cases hn
      exact .closes
    · obtain ⟨b, _, hb⟩ := Checked.exists_of_bind_eq_ok h
      obtain ⟨q, _, hn⟩ := Checked.exists_of_bind_eq_ok hb
      cases hn
      exact .closes
  | finalized q =>
    cases h
    exact .reads

theorem moves_of_tryAbsorb (h : x.tryAbsorb op.offered = .ok answer) :
    Moves op x (x.replyOrRefuse answer).next := by
  cases x with
  | absorbing a =>
    obtain ⟨b, hb, hn⟩ := Checked.exists_of_bind_eq_ok h
    cases hn
    exact .absorbs hb
  | finalized q =>
    cases h
    exact .reads

theorem moves_of_tryFinalize (h : x.tryFinalize = .ok answer) :
    Moves op x (x.replyOrRefuse answer).next := by
  cases x with
  | absorbing a =>
    obtain ⟨q, _, hn⟩ := Checked.exists_of_bind_eq_ok h
    cases hn
    exact .closes
  | finalized q =>
    cases h
    exact .reads

theorem moves_of_tryRead {dest bytes : List UInt8} {y : Xof}
    (h : x.tryRead dest = .ok (.ok (bytes, y))) : Moves op x y := by
  cases x with
  | absorbing a => cases h
  | finalized q =>
    obtain ⟨s, _, hs⟩ := Checked.exists_of_bind_eq_ok h
    cases hs
    exact .reads

/-- An operation that offers nothing may leave the object as it is. -/
theorem moves_self (x : Xof) (h : op.offered = []) : Moves op x x := by
  cases x with
  | absorbing a => exact .keeps h
  | finalized q => exact .reads

theorem moves_of_read {dest : List UInt8} {out : Outcome Xof (List UInt8)}
    (h : x.read dest = .ok out) (ho : op.offered = []) : Moves op x out.next := by
  obtain ⟨answer, ha, hn⟩ := Checked.exists_of_bind_eq_ok h
  rcases answer with e | ⟨bytes, y⟩
  · cases hn
    exact moves_self x ho
  · cases hn
    exact moves_of_tryRead ha

theorem moves_of_readFresh {n : Nat} {out : Outcome Xof (List UInt8)}
    (h : x.readFresh n = .ok out) (ho : op.offered = []) : Moves op x out.next := by
  rw [readFresh] at h
  split at h
  · obtain ⟨_, _, hr⟩ := Checked.exists_of_bind_eq_ok h
    exact moves_of_read hr ho
  · cases h
    exact moves_self x ho

/-- An operation that succeeds moves the object in one of the four ways. -/
theorem moves_of_step (h : x.step op = .ok out) : Moves op x out.next := by
  cases op with
  | hash chunk =>
    obtain ⟨answer, ha, hn⟩ := next_of_ignored h
    exact hn ▸ moves_of_tryHash ha
  | absorb chunk | absorbGeneric chunk =>
    obtain ⟨answer, ha, hn⟩ := next_of_ignored h
    exact hn ▸ moves_of_tryAbsorb ha
  | finalize =>
    obtain ⟨answer, ha, hn⟩ := next_of_ignored h
    exact hn ▸ moves_of_tryFinalize ha
  | tryHash chunk =>
    obtain ⟨answer, ha, hn⟩ := next_of_reported h
    exact hn ▸ moves_of_tryHash ha
  | tryAbsorb chunk =>
    obtain ⟨answer, ha, hn⟩ := next_of_reported h
    exact hn ▸ moves_of_tryAbsorb ha
  | tryFinalize =>
    obtain ⟨answer, ha, hn⟩ := next_of_reported h
    exact hn ▸ moves_of_tryFinalize ha
  | isFinalized | describe =>
    cases h
    exact moves_self x rfl
  | read dest | readGeneric dest | readBlock n =>
    obtain ⟨out, ho, rfl⟩ := Checked.exists_of_map_eq_ok h
    exact moves_of_read ho rfl
  | tryRead dest =>
    obtain ⟨answer, ha, hn⟩ := Checked.exists_of_bind_eq_ok h
    rcases answer with e | ⟨bytes, y⟩
    · cases hn
      exact moves_self x rfl
    · cases hn
      exact moves_of_tryRead ha
  | readFresh n =>
    obtain ⟨out, ho, rfl⟩ := Checked.exists_of_map_eq_ok h
    exact moves_of_readFresh ho rfl

/-- No operation opens a closed message again. -/
theorem Moves.isFinalized_eq_false {y : Xof} (h : Moves op x y) (hy : y.isFinalized = false) :
    x.isFinalized = false := by
  cases h with
  | absorbs | keeps | closes => rfl
  | reads => cases hy

/-- An object that is still open has absorbed what the operation offers. -/
theorem Moves.describes {message : List UInt8} {y : Xof} (h : Moves op x y)
    (hx : (Machine.absorbing message).Describes x) (hy : y.isFinalized = false) :
    (Machine.absorbing (message ++ op.offered)).Describes y := by
  cases h with
  | absorbs hb =>
    cases hx with
    | absorbing ha =>
      obtain ⟨_, rfl⟩ := Absorber.eq_append_of_absorb_empty ha
      obtain ⟨hl, rfl⟩ := Absorber.eq_append_of_absorb hb
      exact .absorbing (Absorber.absorb_empty_eq hl)
  | keeps ho =>
    rw [ho, List.append_nil]
    exact hx
  | closes | reads => cases hy

end Step

section Run

variable {x : Xof} {ops : List Operation} {out : Outcome Xof (List Reply)}

/-- A run that succeeds is an operation that does, and a run that does. -/
theorem exists_of_run_cons {op : Operation} (h : x.run (op :: ops) = .ok out) :
    ∃ first rest, x.step op = .ok first ∧ first.next.run ops = .ok rest ∧
      out.next = rest.next := by
  rw [run] at h
  obtain ⟨first, hf, hfirst⟩ := Checked.exists_of_bind_eq_ok h
  obtain ⟨rest, hr, hrest⟩ := Checked.exists_of_bind_eq_ok hfirst
  cases hrest
  exact ⟨first, rest, hf, hr, rfl⟩

/-- An object that is open after a run was open before it. -/
theorem isFinalized_eq_false_of_run (h : x.run ops = .ok out)
    (ho : out.next.isFinalized = false) : x.isFinalized = false := by
  induction ops generalizing x out with
  | nil =>
    cases h
    exact ho
  | cons op ops ih =>
    obtain ⟨first, rest, hf, hr, hn⟩ := exists_of_run_cons h
    rw [hn] at ho
    exact (moves_of_step hf).isFinalized_eq_false (ih hr ho)

/-- After any run that leaves the message open, the object has absorbed what it had before and
everything that it was offered in the run. -/
theorem describes_of_run {message : List UInt8} (hx : (Machine.absorbing message).Describes x)
    (h : x.run ops = .ok out) (ho : out.next.isFinalized = false) :
    (Machine.absorbing (message ++ ops.flatMap Operation.offered)).Describes out.next := by
  induction ops generalizing x message out with
  | nil =>
    cases h
    rwa [List.flatMap_nil, List.append_nil]
  | cons op ops ih =>
    obtain ⟨first, rest, hf, hr, hn⟩ := exists_of_run_cons h
    rw [hn] at ho ⊢
    -- had the first operation closed the message, it would be closed at the end
    have hopen := isFinalized_eq_false_of_run hr ho
    rw [List.flatMap_cons, ← List.append_assoc]
    exact ih ((moves_of_step hf).describes hx hopen) hr ho

end Run

namespace Machine

/-- A machine describes one object only. -/
theorem Describes.unique {m : Machine} {x y : Xof} (hx : Describes m x) (hy : Describes m y) :
    x = y := by
  cases hx with
  | absorbing ha =>
    cases hy with
    | absorbing hb =>
      cases ha.symm.trans hb
      rfl
  | finalized position hq =>
    cases hy with
    | finalized _ hr =>
      cases hq.symm.trans hr
      rfl

/-- A call that an open machine accepts is accepted by the object. -/
theorem Follows.exists_ok {m m' : Machine} {call : Checked (Except PhaseError Xof)}
    {answer : Reply → Reply × Machine} (h : Follows m call answer)
    (ha : ∀ refused, answer refused = (.done, m')) :
    ∃ y, call = .ok (.ok y) ∧ m'.Describes y := by
  rcases h with ⟨y, m₁, hc, hy, hd⟩ | ⟨_, hr⟩
  · cases (hd .done).symm.trans (ha .done)
    exact ⟨y, hc, hy⟩
  · cases (hr (.flag true)).symm.trans (ha (.flag true))

namespace Describes

variable {message chunk : List UInt8} {x : Xof}

/-- An open object that has counted nothing has taken in nothing. -/
theorem eq_empty {a : Absorber} (h : (Machine.absorbing message).Describes (.absorbing a))
    (hz : a.absorbedBits = 0) : a = .empty ∧ message = [] := by
  cases h with
  | absorbing ha =>
    obtain ⟨_, rfl⟩ := Absorber.eq_append_of_absorb_empty ha
    obtain rfl := Absorber.append_absorbedBits_eq_zero_iff.mp hz
    exact ⟨Absorber.append_nil _, rfl⟩

/-- A message that has just been closed shows the start of its stream. -/
theorem exists_ofMessage (h : (Machine.finalized message 0).Describes x) :
    ∃ q, Squeezer.ofMessage message = .ok q ∧ x = .finalized q := by
  cases h with
  | @finalized _ q _ hq => exact ⟨q, hq, congrArg _ q.advance_zero⟩

/-- An open object takes a last chunk and closes the message. -/
theorem exists_tryHash (h : (Machine.absorbing message).Describes x)
    (hb : (message ++ chunk).length < messageBound) :
    ∃ y, x.tryHash chunk = .ok (.ok y) ∧
      (Machine.finalized (message ++ chunk) 0).Describes y := by
  have hl := ((Machine.absorbing message).length_le_step (.hash chunk)).2
  exact (h.tryHash (Nat.lt_of_le_of_lt hl hb)).exists_ok fun _ => rfl

/-- An open object takes a chunk. -/
theorem exists_tryAbsorb (h : (Machine.absorbing message).Describes x)
    (hb : (message ++ chunk).length < messageBound) :
    ∃ y, x.tryAbsorb chunk = .ok (.ok y) ∧ (Machine.absorbing (message ++ chunk)).Describes y := by
  have hl := ((Machine.absorbing message).length_le_step (.absorb chunk)).2
  exact (h.tryAbsorb (Nat.lt_of_le_of_lt hl hb)).exists_ok fun _ => rfl

/-- An open object closes the message. -/
theorem exists_tryFinalize (h : (Machine.absorbing message).Describes x) :
    ∃ y, x.tryFinalize = .ok (.ok y) ∧ (Machine.finalized message 0).Describes y := by
  apply h.tryFinalize.exists_ok
  intro refused
  rw [hash, List.append_nil]

/-- Hashing no more bytes is closing the message, in the reporting forms. -/
theorem tryHash_nil (h : (Machine.absorbing message).Describes x)
    (hb : message.length < messageBound) : x.tryHash [] = x.tryFinalize := by
  rw [← List.append_nil message] at hb
  obtain ⟨y, hy, hdy⟩ := h.exists_tryHash hb
  obtain ⟨z, hz, hdz⟩ := h.exists_tryFinalize
  rw [List.append_nil] at hdy
  rw [hy, hz, hdy.unique hdz]

/-- The same in the forms that ignore a refusal: neither is refused. -/
theorem hash_nil (h : (Machine.absorbing message).Describes x)
    (hb : message.length < messageBound) : x.hash [] = x.finalize := by
  obtain ⟨y, hy, _⟩ := h.exists_tryFinalize
  rw [Xof.hash, Xof.finalize, h.tryHash_nil hb, hy]
  rfl

end Describes

end Machine

/-- However an object got to where it is, as long as its message is open: hashing a last chunk
closes the message into the same squeezer as absorbing the chunk and closing the message after it,
which is the start of the stream of everything that was offered. An absorber whose count of bits is
zero, which the chunk is hashed past, is new and was offered nothing; and hashing no more bytes is
closing the message. -/
theorem tryHash_eq_tryAbsorb_tryFinalize {ops : List Operation} {chunk : List UInt8}
    {out : Outcome Xof (List Reply)} (hrun : empty.run ops = .ok out)
    (hopen : out.next.isFinalized = false)
    (hb : (ops.flatMap Operation.offered ++ chunk).length < messageBound) :
    ∃ a y q, out.next = .absorbing a ∧
      out.next.tryHash chunk = .ok (.ok (.finalized q)) ∧
      out.next.tryAbsorb chunk = .ok (.ok y) ∧ y.tryFinalize = .ok (.ok (.finalized q)) ∧
      Squeezer.ofMessage (ops.flatMap Operation.offered ++ chunk) = .ok q ∧
      (a.absorbedBits = 0 → a = .empty ∧ ops.flatMap Operation.offered = []) ∧
      out.next.tryHash [] = out.next.tryFinalize ∧ out.next.hash [] = out.next.finalize := by
  have hd := describes_of_run Machine.describes_empty hrun hopen
  rw [List.nil_append] at hd
  obtain ⟨hashed, hh, hdh⟩ := hd.exists_tryHash hb
  obtain ⟨y, ha, hda⟩ := hd.exists_tryAbsorb hb
  obtain ⟨closed, hf, hdf⟩ := hda.exists_tryFinalize
  -- both ways lead the machine to the same place, so they lead to the same object
  obtain rfl := hdh.unique hdf
  obtain ⟨q, hq, rfl⟩ := hdh.exists_ofMessage
  have hl : (ops.flatMap Operation.offered).length < messageBound :=
    Nat.lt_of_le_of_lt (List.sublist_append_left ..).length_le hb
  cases hx : out.next with
  | absorbing a =>
    rw [hx] at hd hh ha
    exact ⟨a, y, q, rfl, hh, ha, hf, hq, hd.eq_empty, hd.tryHash_nil hl, hd.hash_nil hl⟩
  | finalized q =>
    rw [hx] at hopen
    cases hopen

/-- A run that absorbs nothing, reads too early in two ways and then absorbs two bytes. -/
def earlyReads : List Operation := [.absorb [], .readFresh 3, .tryAbsorb [1, 2], .tryRead [0]]

theorem tryHash_earlyReads :
    ∃ out, empty.run earlyReads = .ok out ∧ out.next.isFinalized = false ∧
      (earlyReads.flatMap Operation.offered ++ [3]).length < messageBound ∧
      ∃ y q, out.next.tryHash [3] = .ok (.ok (.finalized q)) ∧
        out.next.tryAbsorb [3] = .ok (.ok y) ∧ y.tryFinalize = .ok (.ok (.finalized q)) ∧
        Squeezer.ofMessage [1, 2, 3] = .ok q := by
  have hb : (earlyReads.flatMap Operation.offered ++ [3]).length < messageBound := by
    change 3 < messageBound
    decide
  have hm : ((Machine.absorbing []).run earlyReads).2.message.length < messageBound := by
    change 2 < messageBound
    decide
  obtain ⟨out, hrun, _, hd⟩ := Machine.describes_empty.run hm (by decide)
  have hopen : out.next.isFinalized = false := hd.isFinalized
  obtain ⟨_, y, q, _, hh, ha, hf, hq, _⟩ := tryHash_eq_tryAbsorb_tryFinalize hrun hopen hb
  exact ⟨out, hrun, hopen, hb, y, q, hh, ha, hf, hq⟩

end Shake.Xof
