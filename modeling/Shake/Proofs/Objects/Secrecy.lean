import Shake.Proofs.Objects.Warnings
import Shake.Xof.Shape

/-!
# What a run shows of its message

Two runs whose operations have the same shapes may take in messages that agree in nothing but their
lengths. The machines that describe the two objects then agree in phase and in the length of the
message (`Machine.Alike`), and every operation keeps them so. Which calls are refused, what the log
says of them, and how long every reply is, depends on no more than that; and a call that comes at
the wrong time answers without looking at the message at all (`Operation.rebuff`).
-/

namespace Shake.Xof

namespace Operation

/-- The reply to an operation that comes at the wrong time. -/
def rebuff (reason : PhaseError) : Operation → Reply
  | tryHash _ | tryAbsorb _ | tryFinalize => .refused reason
  | tryRead dest => .refusedBytes reason dest
  | read dest | readGeneric dest => .bytes dest
  | readFresh _ => .bytes []
  | readBlock n => .bytes (List.replicate n 0)
  | hash _ | absorb _ | absorbGeneric _ | finalize | isFinalized | describe => .done

/-- The bytes for the message are left out of such a reply. -/
theorem rebuff_blank (reason : PhaseError) (op : Operation) :
    op.blank.rebuff reason = op.rebuff reason := by cases op <;> rfl

theorem closes_shape (op : Operation) : op.shape.closes = op.closes := by cases op <;> rfl

theorem misplaced?_shape (closed : Bool) (op : Operation) :
    op.shape.misplaced? closed = op.misplaced? closed := by cases op <;> rfl

theorem requested_shape (op : Operation) : op.shape.requested = op.requested := by
  cases op with
  | read | readGeneric | tryRead => exact List.length_replicate
  | _ => rfl

theorem length_offered_shape (op : Operation) :
    op.shape.offered.length = op.offered.length := by
  cases op with
  | hash | absorb | absorbGeneric | tryHash | tryAbsorb => exact List.length_map _
  | _ => rfl

theorem warning?_shape (op : Operation) : op.shape.warning? = op.warning? := by
  cases op with
  | read | readGeneric =>
    exact congrArg (fun n => some (warning?.earlyRead n)) List.length_replicate
  | _ => rfl

/-- What is the same for an operation and its shape is the same for lists of the same shapes. -/
theorem map_eq_of_shape {α : Type} {f : Operation → α} (hf : ∀ op, f op.shape = f op)
    {ops ops' : List Operation} (hs : ops.map shape = ops'.map shape) : ops.map f = ops'.map f := by
  have hmap (list : List Operation) : (list.map shape).map f = list.map f := by
    rw [List.map_map]
    exact List.map_congr_left fun op _ => hf op
  rw [← hmap ops, hs, hmap]

end Operation

/-- Which operations come at the wrong time can be told from their shapes. -/
theorem misplacements_shape (closed : Bool) (ops : List Operation) :
    misplacements closed (ops.map Operation.shape) = misplacements closed ops := by
  induction ops generalizing closed with
  | nil => rfl
  | cons op ops ih =>
    rw [List.map_cons, misplacements, misplacements, op.misplaced?_shape, op.closes_shape, ih]

theorem misplacements_eq_of_shape (closed : Bool) {ops ops' : List Operation}
    (hs : ops.map Operation.shape = ops'.map Operation.shape) :
    misplacements closed ops = misplacements closed ops' := by
  rw [← misplacements_shape closed ops, hs, misplacements_shape]

/-- The lines that a list of operations leaves in the log, when the message is closed or open before
it. -/
def misplacedLines (closed : Bool) (ops : List Operation) : List String :=
  ((ops.map Operation.warning?).zip (misplacements closed ops)).filterMap fun p =>
    p.2.bind fun _ => p.1

/-- They are the warnings for the replies of reporting forms that are refused at those times. -/
theorem warnings_eq_misplacedLines {closed : Bool} {ops : List Operation} {replies : List Reply}
    (h : replies.map Reply.refusal? = misplacements closed ops) :
    warnings ops replies = misplacedLines closed ops := by
  rw [misplacedLines, ← h, List.zip_map, List.filterMap_map]
  rfl

/-- They can be told from the shapes of the operations. -/
theorem misplacedLines_eq_of_shape (closed : Bool) {ops ops' : List Operation}
    (hs : ops.map Operation.shape = ops'.map Operation.shape) :
    misplacedLines closed ops = misplacedLines closed ops' := by
  rw [misplacedLines, misplacedLines, Operation.map_eq_of_shape Operation.warning?_shape hs,
    misplacements_eq_of_shape closed hs]

namespace Machine

variable {m m' : Machine}

/-- Output is as long as it is asked for. -/
theorem length_output (message : List UInt8) (position n : Nat) :
    (output message position n).length = n := by
  obtain ⟨q, hq, _⟩ := Squeezer.exists_ofMessage message
  rw [output_eq hq, Squeezer.length_stream]

/-- Two machines that are in the same phase, with messages of the same length. -/
structure Alike (m m' : Machine) : Prop where
  /-- The messages are both open or both closed. -/
  phase : m.isFinalized = m'.isFinalized
  /-- The messages are equally long. -/
  length : m.message.length = m'.message.length

/-- An operation and its shape leave two such machines alike. -/
theorem Alike.step (h : m.Alike m') (op : Operation) :
    (m.step op).2.Alike (m'.step op.shape).2 where
  phase := by rw [isFinalized_step, isFinalized_step, h.phase, op.closes_shape]
  length := by
    rw [message_step, message_step, h.phase]
    split
    · exact h.length
    · rw [List.length_append, List.length_append, h.length, op.length_offered_shape]

/-- An operation and its shape get replies of the same shape. -/
theorem Alike.shape_step (h : m.Alike m') (op : Operation) :
    (m.step op).1.shape = (m'.step op.shape).1.shape := by
  have hp := h.phase
  cases m with
  | absorbing message =>
    cases m' with
    | finalized => cases hp
    | absorbing message' =>
      cases op with
      | read | readGeneric | tryRead =>
        simp only [Machine.step, read, Operation.shape, Operation.blank, Reply.shape,
          List.length_replicate]
      | _ => rfl
  | finalized message position =>
    cases m' with
    | absorbing => cases hp
    | finalized message' position' =>
      cases op with
      | read | readGeneric | tryRead | readFresh | readBlock =>
        simp only [Machine.step, read, Operation.shape, Operation.blank, Reply.shape, length_output,
          List.length_replicate]
      | _ => rfl

/-- A run and the run of its shapes leave two such machines alike, with replies of the same
shapes. -/
theorem Alike.run (h : m.Alike m') (ops : List Operation) :
    (m.run ops).2.Alike (m'.run (ops.map Operation.shape)).2 ∧
      (m.run ops).1.map Reply.shape =
        (m'.run (ops.map Operation.shape)).1.map Reply.shape := by
  induction ops generalizing m m' with
  | nil => exact ⟨h, rfl⟩
  | cons op ops ih =>
    obtain ⟨ha, hr⟩ := ih (h.step op)
    exact ⟨ha, congrArg₂ List.cons (h.shape_step op) hr⟩

/-- Runs of the same shapes leave a machine alike, with replies of the same shapes. -/
theorem alike_run (m : Machine) {ops ops' : List Operation}
    (hs : ops.map Operation.shape = ops'.map Operation.shape) :
    (m.run ops).2.Alike (m.run ops').2 ∧
      (m.run ops).1.map Reply.shape = (m.run ops').1.map Reply.shape := by
  have hm : m.Alike m := ⟨rfl, rfl⟩
  obtain ⟨ha, hr⟩ := hm.run ops
  obtain ⟨ha', hr'⟩ := hm.run ops'
  rw [← hs] at ha' hr'
  exact ⟨⟨ha.phase.trans ha'.phase.symm, ha.length.trans ha'.length.symm⟩, hr.trans hr'.symm⟩

/-- Every operation of a run gets a reply. -/
theorem length_run (m : Machine) (ops : List Operation) : (m.run ops).1.length = ops.length := by
  induction ops generalizing m with
  | nil => rfl
  | cons op ops ih => exact congrArg (· + 1) (ih _)

/-- An operation that comes at the wrong time is answered without the message. -/
theorem step_of_misplaced {op : Operation} {reason : PhaseError}
    (h : op.misplaced? m.isFinalized = some reason) : (m.step op).1 = op.rebuff reason := by
  cases m <;> cases op <;> cases h <;> rfl

/-- So is every such operation of a run. -/
theorem getElem?_run_of_misplaced {ops : List Operation} {i : Nat} {reason : PhaseError}
    (h : (misplacements m.isFinalized ops)[i]? = some (some reason)) :
    (m.run ops).1[i]? = (ops.map Operation.blank)[i]?.map (Operation.rebuff reason) := by
  induction ops generalizing m i with
  | nil => cases h
  | cons op ops ih =>
    cases i with
    | zero =>
      have hstep := step_of_misplaced (Option.some.inj h)
      change some (m.step op).1 = some (op.blank.rebuff reason)
      rw [hstep, op.rebuff_blank]
    | succ i =>
      rw [misplacements, ← isFinalized_step] at h
      exact ih h

/-- Giving up one of two objects gives a notice if giving up the other one does. -/
theorem Alike.drop (h : m.Alike m') {x x' : Xof} (hx : m.Describes x) (hx' : m'.Describes x') :
    x.drop = x'.drop := by
  have hm : m.message ≠ [] ↔ m'.message ≠ [] := by
    rw [← List.length_pos_iff, ← List.length_pos_iff, h.length]
  rw [hx.drop, hx'.drop, h.phase]
  exact if_congr (and_congr_right fun _ => hm) rfl rfl

/-- A run succeeds with the replies of the machine, and its log follows from the operations. -/
theorem Describes.run_lines {x : Xof} (h : m.Describes x) {ops : List Operation}
    (hb : (m.run ops).2.message.length < messageBound)
    (hr : ∀ op ∈ ops, op.requested < allocationBound) :
    ∃ out, x.run ops = .ok out ∧ out.result = (m.run ops).1 ∧
      (m.run ops).2.Describes out.next ∧
      out.log.map Notice.line = misplacedLines m.isFinalized ops := by
  obtain ⟨out, ho, hreplies, hd⟩ := h.run hb hr
  obtain ⟨out', tried, ho', _, _, _, hrefusals, hlines⟩ := h.run_reports hb hr
  obtain rfl : out' = out := Except.ok.inj (ho'.symm.trans ho)
  refine ⟨out', ho, hreplies, hd, ?_⟩
  rw [hlines, warnings_eq_misplacedLines hrefusals]

end Machine

/-- Two runs that carry out the same calls, with data and buffers of the same lengths and whatever
contents, show the same to everyone who is not given the bytes of the output. Both succeed and
answer every call; they leave the same lines in the log, those for giving up the object at the end
included, and their replies have the same shapes: the same refusals for the same reasons, the same
answers about the phase, the same descriptions, and bytes of the same lengths. Where a call comes at
the wrong time and both runs offer it the same buffer, the replies are the same byte for byte. -/
theorem run_empty_hides_message {ops ops' : List Operation}
    (hs : ops.map Operation.shape = ops'.map Operation.shape)
    (hb : (ops.flatMap Operation.offered).length < messageBound)
    (hr : ∀ op ∈ ops, op.requested < allocationBound) :
    ∃ out out' : Outcome Xof (List Reply), empty.run ops = .ok out ∧ empty.run ops' = .ok out' ∧
      out.result.length = ops.length ∧
      out.log.map Notice.line = out'.log.map Notice.line ∧
      out.next.drop.map Notice.line = out'.next.drop.map Notice.line ∧
      out.result.map Reply.shape = out'.result.map Reply.shape ∧
      ∀ (i : Nat) reason, (misplacements false ops)[i]? = some (some reason) →
        (ops.map Operation.blank)[i]? = (ops'.map Operation.blank)[i]? →
        out.result[i]? = out'.result[i]? := by
  obtain ⟨halike, hshapes⟩ := Machine.alike_run (.absorbing []) hs
  have hload : ((Machine.absorbing []).run ops).2.message.length < messageBound := by
    have hle := Machine.length_run_le (.absorbing []) ops
    change _ ≤ 0 + _ at hle
    omega
  have hr' : ∀ op ∈ ops', op.requested < allocationBound := by
    rw [← List.forall_mem_map (P := (· < allocationBound))] at hr ⊢
    rwa [← Operation.map_eq_of_shape Operation.requested_shape hs]
  obtain ⟨out, ho, hreplies, hd, hlines⟩ := Machine.describes_empty.run_lines hload hr
  obtain ⟨out', ho', hreplies', hd', hlines'⟩ :=
    Machine.describes_empty.run_lines (halike.length ▸ hload) hr'
  refine ⟨out, out', ho, ho', ?_, ?_, ?_, ?_, fun i reason hi hblank => ?_⟩
  · rw [hreplies, Machine.length_run]
  · rw [hlines, hlines', misplacedLines_eq_of_shape _ hs]
  · rw [halike.drop hd hd']
  · rw [hreplies, hreplies', hshapes]
  · have hi' : (misplacements false ops')[i]? = some (some reason) := by
      rw [← misplacements_eq_of_shape false hs, hi]
    rw [hreplies, hreplies', Machine.getElem?_run_of_misplaced hi,
      Machine.getElem?_run_of_misplaced hi', hblank]

/-- A run that reads too early, takes in a byte and another two, goes on absorbing in vain, and
reads its output. -/
def ballot (vote : UInt8) : List Operation :=
  [.tryRead [9, 9], .absorb [vote], .read [vote], .hash [vote, vote], .absorb [vote], .tryFinalize,
    .readFresh 100, .describe]

theorem run_ballot_hides_vote :
    (ballot 0).map Operation.shape = (ballot 1).map Operation.shape ∧
      ((ballot 0).flatMap Operation.offered).length < messageBound ∧
      (∀ op ∈ ballot 0, op.requested < allocationBound) ∧
      ∃ out out' : Outcome Xof (List Reply),
        empty.run (ballot 0) = .ok out ∧ empty.run (ballot 1) = .ok out' ∧
        out.log.map Notice.line = out'.log.map Notice.line ∧
        out.result.map Reply.shape = out'.result.map Reply.shape ∧
        out.result[0]? = out'.result[0]? := by
  have hs : (ballot 0).map Operation.shape = (ballot 1).map Operation.shape := rfl
  have hb : ((ballot 0).flatMap Operation.offered).length < messageBound := by decide
  have hr : ∀ op ∈ ballot 0, op.requested < allocationBound := by decide
  obtain ⟨out, out', ho, ho', _, hlog, _, hshapes, hmisplaced⟩ := run_empty_hides_message hs hb hr
  exact ⟨hs, hb, hr, out, out', ho, ho', hlog, hshapes, hmisplaced 0 .notFinalized rfl rfl⟩

end Shake.Xof
