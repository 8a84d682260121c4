import Shake.Proofs.Absorption.Streaming
import Shake.Proofs.Output.Conformance
import Shake.Xof.Machine

/-!
# The object and its machine

A machine keeps the message and a position, an object keeps lanes, a pending block and counters.
The machine describes the object that results when the message is absorbed at once and, once it is
closed, read up to the position (`Machine.Describes`). Every operation keeps to that description:
both accept it or both refuse it. Whole runs then get the same replies.
-/

namespace Shake.Xof

namespace Machine

/-- The object that takes the place of a machine, down to the last field. -/
inductive Describes : Machine → Xof → Prop where
  /-- An open message has been absorbed. -/
  | absorbing {message : List UInt8} {a : Absorber} (h : Absorber.empty.absorb message = .ok a) :
      Describes (.absorbing message) (.absorbing a)
  /-- The stream of a closed message has been read up to the position. -/
  | finalized {message : List UInt8} {q : Squeezer} (position : Nat)
      (h : Squeezer.ofMessage message = .ok q) :
      Describes (.finalized message position) (.finalized (q.advance position))

/-- The output of a machine is the stream of its message from the position on. -/
theorem output_eq {message : List UInt8} {q : Squeezer} (h : Squeezer.ofMessage message = .ok q)
    (position n : Nat) : output message position n = (q.advance position).stream n := by
  obtain ⟨q', hq, hr, hbits⟩ := Squeezer.exists_ofMessage message
  obtain rfl : q' = q := Except.ok.inj (hq.symm.trans h)
  rw [output, ← hbits, Bits.toBytes_ofBytes, Squeezer.stream_add (Nat.le_of_eq hr),
    List.drop_left' (q'.length_stream position)]

/-- The output of a machine is what a digest shows behind the position. -/
theorem exists_digest_drop (message : List UInt8) (position n : Nat) :
    ∃ bytes, digest (position + n) message = .ok bytes ∧
      output message position n = bytes.drop position := by
  obtain ⟨q, hq, _⟩ := Squeezer.exists_ofMessage message
  have hr := Squeezer.ofMessage_readable_le hq
  refine ⟨_, digest_eq_stream hq _, ?_⟩
  rw [output_eq hq, Squeezer.stream_add hr, List.drop_left' (q.length_stream position)]

/-- An operation adds what it offers to an open message, and nothing to a closed one. -/
theorem message_step (m : Machine) (op : Operation) :
    (m.step op).2.message = if m.isFinalized then m.message else m.message ++ op.offered := by
  cases m with
  | absorbing message => cases op <;> first | rfl | exact (List.append_nil message).symm
  | finalized => cases op <;> rfl

/-- After an operation the message is no shorter than before, and no shorter than what an absorber
has taken in for it. -/
theorem length_le_step (m : Machine) (op : Operation) :
    m.message.length ≤ (m.step op).2.message.length ∧
      m.load op ≤ (m.step op).2.message.length := by
  rw [message_step]
  cases m with
  | absorbing message =>
    change message.length ≤ (message ++ op.offered).length ∧
      (absorbing message).load op ≤ (message ++ op.offered).length
    constructor
    · rw [List.length_append]
      exact Nat.le_add_right ..
    · rw [load]
      split
      · exact Nat.zero_le _
      · exact Nat.le_refl _
  | finalized message position => exact ⟨Nat.le_refl _, Nat.zero_le _⟩

/-- No run takes bytes out of the message. -/
theorem length_le_run (m : Machine) (ops : List Operation) :
    m.message.length ≤ (m.run ops).2.message.length := by
  induction ops generalizing m with
  | nil => exact Nat.le_refl _
  | cons op ops ih => exact Nat.le_trans (m.length_le_step op).1 (ih _)

/-- A call on an object and the answer of its machine when the call adds to the message: either
both accept the call, or both refuse it and nothing changes. -/
def Follows (m : Machine) (call : Checked (Except PhaseError Xof))
    (answer : Reply → Reply × Machine) : Prop :=
  (∃ y m', call = .ok (.ok y) ∧ m'.Describes y ∧ ∀ refused, answer refused = (.done, m')) ∨
    call = .ok (.error .alreadyFinalized) ∧ ∀ refused, answer refused = (refused, m)

namespace Describes

variable {m : Machine} {x : Xof}

/-- The phase is the same. -/
theorem isFinalized (h : Describes m x) : x.isFinalized = m.isFinalized := by
  cases h <;> rfl

/-- Both ways to hash a last chunk close the message with it. -/
theorem tryHash (h : Describes m x) {chunk : List UInt8}
    (hb : m.load (.hash chunk) < messageBound) :
    Follows m (x.tryHash chunk) (m.hash chunk) := by
  cases h with
  | @absorbing message a ha =>
    obtain ⟨hl, rfl⟩ := Absorber.eq_append_of_absorb_empty ha
    have hq : ∃ q, Squeezer.ofMessage (message ++ chunk) = .ok q ∧
        Xof.tryHash (.absorbing (Absorber.empty.append message)) chunk =
          .ok (.ok (.finalized q)) := by
      rw [Xof.tryHash]
      by_cases hm : message = []
      · obtain ⟨q, hq, _⟩ := Squeezer.exists_ofMessage chunk
        refine ⟨q, by rw [hm]; exact hq, ?_⟩
        rw [if_pos (Absorber.append_absorbedBits_eq_zero_iff.mpr hm), hq]
        rfl
      · have hb : (message ++ chunk).length < messageBound := by
          rwa [load, if_neg fun hc => hm hc.1] at hb
        obtain ⟨q, hq, hf⟩ := Absorber.exists_finalize_append hb
        refine ⟨q, hq, ?_⟩
        rw [if_neg (mt Absorber.append_absorbedBits_eq_zero_iff.mp hm),
          Absorber.absorb_append_eq hb, Checked.ok_bind, hf]
        rfl
    obtain ⟨q, hq, hc⟩ := hq
    have hd := Describes.finalized 0 hq
    rw [Squeezer.advance_zero] at hd
    exact .inl ⟨_, _, hc, hd, fun _ => rfl⟩
  | finalized => exact .inr ⟨rfl, fun _ => rfl⟩

/-- Absorbing a chunk makes the message longer by it. -/
theorem tryAbsorb (h : Describes m x) {chunk : List UInt8}
    (hb : m.load (.absorb chunk) < messageBound) :
    Follows m (x.tryAbsorb chunk) (m.absorb chunk) := by
  cases h with
  | @absorbing message a ha =>
    obtain ⟨hl, rfl⟩ := Absorber.eq_append_of_absorb_empty ha
    have hb : (message ++ chunk).length < messageBound := by
      rwa [load, if_neg fun hc => Bool.noConfusion hc.2] at hb
    refine .inl ⟨_, _, ?_, .absorbing (Absorber.absorb_empty_eq hb), fun _ => rfl⟩
    rw [Xof.tryAbsorb, Absorber.absorb_append_eq hb]
    rfl
  | finalized => exact .inr ⟨rfl, fun _ => rfl⟩

/-- Closing the message adds nothing to it. -/
theorem tryFinalize (h : Describes m x) : Follows m x.tryFinalize (m.hash []) := by
  cases h with
  | @absorbing message a ha =>
    obtain ⟨hl, rfl⟩ := Absorber.eq_append_of_absorb_empty ha
    obtain ⟨q, hq, hf⟩ := Absorber.exists_finalize_append hl
    have hd := Describes.finalized 0 hq
    rw [Squeezer.advance_zero] at hd
    refine .inl ⟨_, _, ?_, hd, fun _ => ?_⟩
    · rw [Xof.tryFinalize, hf]
      rfl
    · rw [hash, List.append_nil]
  | finalized => exact .inr ⟨rfl, fun _ => rfl⟩

/-- A buffer is filled with the output of the machine, or refused by both. -/
theorem tryRead (h : Describes m x) (dest : List UInt8) :
    (∃ bytes y m', x.tryRead dest = .ok (.ok (bytes, y)) ∧ m'.Describes y ∧
        ∀ refused, m.read dest.length refused = (.bytes bytes, m')) ∨
      x.tryRead dest = .ok (.error .notFinalized) ∧
        ∀ refused, m.read dest.length refused = (refused, m) := by
  cases h with
  | absorbing => exact .inr ⟨rfl, fun _ => rfl⟩
  | @finalized message q position hq =>
    have hle := Squeezer.advance_readable_le (Squeezer.ofMessage_readable_le hq) position
    refine .inl ⟨_, _, _, ?_, .finalized (position + dest.length) hq, fun _ => rfl⟩
    rw [Xof.tryRead, Squeezer.squeeze_eq hle, Checked.ok_bind, Squeezer.advance_add,
      ← output_eq hq]
    rfl

end Describes

/-- A machine that describes an object answers a call as the object does. -/
def Answers (call : Checked (Outcome Xof Reply)) (answer : Reply × Machine) : Prop :=
  ∃ out, call = .ok out ∧ out.result = answer.1 ∧ answer.2.Describes out.next

namespace Follows

variable {m : Machine} {x : Xof} {call : Checked (Except PhaseError Xof)}
  {answer : Reply → Reply × Machine}

/-- A call that is ignored when it is refused gives no other reply than one that is accepted. -/
theorem ignored (hf : Follows m call answer) (h : m.Describes x) (c : Call) :
    Answers (replyDone <$> (do return x.orIgnore c (← call))) (answer .done) := by
  rcases hf with ⟨y, m', rfl, hy, ha⟩ | ⟨rfl, ha⟩
  · rw [ha]
    exact ⟨_, rfl, rfl, hy⟩
  · rw [ha]
    exact ⟨_, rfl, rfl, h⟩

/-- A call that reports when it is refused reports that the message is closed. -/
theorem reported (hf : Follows m call answer) (h : m.Describes x) :
    Answers (x.replyOrRefuse <$> call) (answer (.refused .alreadyFinalized)) := by
  rcases hf with ⟨y, m', rfl, hy, ha⟩ | ⟨rfl, ha⟩
  · rw [ha]
    exact ⟨_, rfl, rfl, hy⟩
  · rw [ha]
    exact ⟨_, rfl, rfl, h⟩

end Follows

namespace Describes

variable {m : Machine} {x : Xof}

/-- A buffer that is refused keeps its bytes. -/
theorem read (h : Describes m x) (dest : List UInt8) :
    Answers (replyBytes <$> x.read dest) (m.read dest.length (.bytes dest)) := by
  rw [Xof.read]
  obtain ⟨bytes, y, m', hc, hy, ha⟩ | ⟨hc, ha⟩ := h.tryRead dest
  · rw [hc, ha]
    exact ⟨_, rfl, rfl, hy⟩
  · rw [hc, ha]
    exact ⟨_, rfl, rfl, h⟩

/-- A buffer made for the call is returned filled, or not at all. -/
theorem readFresh (h : Describes m x) {n : Nat} (hn : n < allocationBound) :
    Answers (replyBytes <$> x.readFresh n) (m.read n (.bytes [])) := by
  have hr := h.read (List.replicate n 0)
  rw [Xof.readFresh, Checked.ensure_bind_of hn]
  rw [List.length_replicate] at hr
  cases h with
  | absorbing ha => exact ⟨_, rfl, rfl, .absorbing ha⟩
  | finalized => exact hr

/-- Object and machine give the same reply to an operation and still belong together. -/
theorem step (h : Describes m x) {op : Operation}
    (hb : m.load op < messageBound) (hr : op.requested < allocationBound) :
    Answers (x.step op) (m.step op) := by
  cases op with
  | hash chunk => exact (h.tryHash hb).ignored h .hash
  | absorb chunk => exact (h.tryAbsorb hb).ignored h .absorb
  | absorbGeneric chunk => exact (h.tryAbsorb hb).ignored h .absorb
  | finalize => exact h.tryFinalize.ignored h .finalize
  | tryHash chunk => exact (h.tryHash hb).reported h
  | tryAbsorb chunk => exact (h.tryAbsorb hb).reported h
  | tryFinalize => exact h.tryFinalize.reported h
  | isFinalized => exact ⟨_, rfl, congrArg Reply.flag h.isFinalized, h⟩
  | read dest => exact h.read dest
  | readGeneric dest => exact h.read dest
  | tryRead dest =>
    rw [Xof.step]
    obtain ⟨bytes, y, m', hc, hy, ha⟩ | ⟨hc, ha⟩ := h.tryRead dest
    · rw [hc, Machine.step, ha]
      exact ⟨_, rfl, rfl, hy⟩
    · rw [hc, Machine.step, ha]
      exact ⟨_, rfl, rfl, h⟩
  | readFresh n => exact h.readFresh hr
  | readBlock n =>
    have hread := h.read (List.replicate n 0)
    rw [List.length_replicate] at hread
    exact hread
  | describe =>
    refine ⟨_, rfl, ?_, h⟩
    cases h <;> rfl

/-- Object and machine give the same replies to a run of operations and still belong together. -/
theorem run (h : Describes m x) {ops : List Operation}
    (hb : (m.run ops).2.message.length < messageBound)
    (hr : ∀ op ∈ ops, op.requested < allocationBound) :
    ∃ out, x.run ops = .ok out ∧ out.result = (m.run ops).1 ∧
      (m.run ops).2.Describes out.next := by
  induction ops generalizing m x with
  | nil => exact ⟨_, rfl, rfl, h⟩
  | cons op ops ih =>
    have hs : m.load op < messageBound := Nat.lt_of_le_of_lt
      (Nat.le_trans (m.length_le_step op).2 (length_le_run _ ops)) hb
    obtain ⟨first, hf, hfr, hfn⟩ := h.step hs (hr op (List.mem_cons_self ..))
    obtain ⟨rest, ho, hor, hon⟩ := ih hfn hb fun o hm => hr o (List.mem_cons_of_mem op hm)
    refine ⟨⟨first.result :: rest.result, rest.next, first.log ++ rest.log⟩, ?_, ?_, hon⟩
    · rw [Xof.run, hf, Checked.ok_bind, ho]
      rfl
    · change first.result :: rest.result = (m.step op).1 :: ((m.step op).2.run ops).1
      rw [hfr, hor]

end Describes

/-- The machine that has seen nothing describes the object that has seen nothing. -/
theorem describes_empty : (absorbing []).Describes empty := .absorbing Absorber.absorb_empty_nil

end Machine

/-- Over any run whose message the count can hold, an object gives exactly the replies of the
machine and ends as the object that the machine describes; and what the machine gives out for a
message are the bytes of its digest from the position on. -/
theorem run_empty_refines (ops : List Operation)
    (hb : ((Machine.absorbing []).run ops).2.message.length < messageBound)
    (hr : ∀ op ∈ ops, op.requested < allocationBound) :
    (∃ out, empty.run ops = .ok out ∧ out.result = ((Machine.absorbing []).run ops).1 ∧
      ((Machine.absorbing []).run ops).2.Describes out.next) ∧
    ∀ message position n, ∃ bytes, digest (position + n) message = .ok bytes ∧
      Machine.output message position n = bytes.drop position :=
  ⟨Machine.describes_empty.run hb hr, Machine.exists_digest_drop⟩

/-- A run that reads too early, closes the message, goes on absorbing in vain and reads twice. -/
def misuse : List Operation :=
  [.absorb [1], .readFresh 3, .hash [2], .tryAbsorb [3], .readBlock 100, .readFresh 100]

theorem run_misuse_refines :
    ((Machine.absorbing []).run misuse).2.message.length < messageBound ∧
      (∀ op ∈ misuse, op.requested < allocationBound) ∧
      ∃ out, empty.run misuse = .ok out ∧
        out.result = [.done, .bytes [], .done, .refused .alreadyFinalized,
          .bytes (Machine.output [1, 2] 0 100), .bytes (Machine.output [1, 2] 100 100)] := by
  have hb : ((Machine.absorbing []).run misuse).2.message.length < messageBound := by
    change 2 < messageBound
    decide
  have hr : ∀ op ∈ misuse, op.requested < allocationBound := by decide
  obtain ⟨out, ho, hres, _⟩ := (run_empty_refines misuse hb hr).1
  exact ⟨hb, hr, out, ho, hres⟩

end Shake.Xof
