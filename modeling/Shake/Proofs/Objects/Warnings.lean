import Mathlib.Logic.Basic
import Shake.Proofs.Objects.FrontEnds
import Shake.Xof.Warning

/-!
# What a log shows of the life of an object

Every operation that may be ignored has a form that reports instead. On one and the same object both
leave the same object behind, and the operation gives a notice exactly when its form is refused
(`Operation.Reports`). So a run of reporting forms goes through the states of the original run and
tells from its replies which warnings the log of that run shows. Which of them are refused, and
whether giving up the object gives a last notice, is settled by the operations alone: by the first
one that closes the message, and by whether one of them has added to it.
-/

namespace Shake.Xof

/-- The outcomes of an operation and of its reporting form on the same object. -/
structure Operation.Reports (op : Operation) (first tried : Outcome Xof Reply) : Prop where
  /-- Both leave the same object. -/
  next : tried.next = first.next
  /-- The reporting form gives no notice. -/
  silent : tried.log = []
  /-- The operation complains of what its form is refused for. -/
  log : first.log = tried.result.refusal?.elim [] fun reason => op.complaint reason
  /-- The complaint reads as the warning. -/
  line : ∀ reason, tried.result.refusal? = some reason →
    (op.complaint reason).map Notice.line = op.warning?.toList

/-- The two go together when the form is accepted and nothing is said. -/
theorem Operation.Reports.of_accepted {op : Operation} {first tried : Outcome Xof Reply}
    (hn : tried.next = first.next) (hs : tried.log = []) (hl : first.log = [])
    (ha : tried.result.refusal? = none) : op.Reports first tried where
  next := hn
  silent := hs
  log := by
    rw [ha]
    exact hl
  line reason hr := by
    rw [ha] at hr
    cases hr

/-- The two go together when the form is refused for the reason that the operation complains of. -/
theorem Operation.Reports.of_refused {op : Operation} {first tried : Outcome Xof Reply}
    {reason : PhaseError} (hn : tried.next = first.next) (hs : tried.log = [])
    (ha : tried.result.refusal? = some reason) (hl : first.log = op.complaint reason)
    (hw : (op.complaint reason).map Notice.line = op.warning?.toList) :
    op.Reports first tried where
  next := hn
  silent := hs
  log := by
    rw [ha]
    exact hl
  line _ hr := by
    rw [ha] at hr
    cases hr
    exact hw

/-- A complaint is one line if the form is refused, and none otherwise. -/
theorem Operation.Reports.lines {op : Operation} {first tried : Outcome Xof Reply}
    (h : op.Reports first tried) :
    first.log.map Notice.line = (tried.result.refusal?.bind fun _ => op.warning?).toList := by
  rw [h.log]
  cases hr : tried.result.refusal? with
  | none => rfl
  | some reason => exact h.line reason hr

/-- The warnings of a list of operations come operation by operation. -/
theorem warnings_cons (op : Operation) (ops : List Operation) (reply : Reply)
    (replies : List Reply) :
    warnings (op :: ops) (reply :: replies) =
      (reply.refusal?.bind fun _ => op.warning?).toList ++ warnings ops replies := by
  rw [warnings, List.zip_cons_cons, List.filterMap_cons]
  cases reply.refusal?.bind fun _ => op.warning? <;> rfl

/-- An operation that succeeds together with its reporting form. -/
def Operation.ReportsOn (op : Operation) (x : Xof) : Prop :=
  ∃ first tried, x.step op = .ok first ∧ x.step op.toTry = .ok tried ∧ op.Reports first tried

/-- A reporting form asks for as much as the operation. -/
theorem Operation.requested_toTry (op : Operation) : op.toTry.requested = op.requested := by
  cases op with
  | readFresh n | readBlock n => exact List.length_replicate
  | _ => rfl

/-- A reporting form goes together with itself. -/
theorem Operation.ReportsOn.toTry {op : Operation} {x : Xof} (h : op.ReportsOn x) :
    op.toTry.ReportsOn x := by
  obtain ⟨_, tried, _, ht, hr⟩ := h
  have htry : op.toTry.toTry = op.toTry := by cases op <;> rfl
  have hc (reason : PhaseError) : op.toTry.complaint reason = [] := by cases op <;> rfl
  have hw : op.toTry.warning? = none := by cases op <;> rfl
  rw [Operation.ReportsOn, htry]
  refine ⟨tried, tried, ht, ht, ?_⟩
  cases ha : tried.result.refusal? with
  | none => exact .of_accepted rfl hr.silent hr.silent ha
  | some reason =>
    refine .of_refused rfl hr.silent ha (hr.silent.trans (hc reason).symm) ?_
    rw [hc, hw]
    rfl

/-- The notice of a read that comes too early has the wording of the warning. -/
theorem line_earlyRead (n : Nat) :
    (Notice.ignored (.read n) .notFinalized).line = Operation.warning?.earlyRead n := by
  simp only [Notice.line, Notice.level, Level.name, Notice.text, Call.text, PhaseError.message,
    String.append_assoc]
  rfl

namespace Machine

variable {m : Machine} {x : Xof}

/-- A message is closed after an operation if it was before or the operation closes it. -/
theorem isFinalized_step (m : Machine) (op : Operation) :
    (m.step op).2.isFinalized = (m.isFinalized || op.closes) := by
  cases m <;> cases op <;> rfl

/-- A reporting form takes in as much as the operation. -/
theorem load_toTry (m : Machine) (op : Operation) : m.load op.toTry = m.load op := by
  cases m <;> cases op <;> rfl

/-- A reporting form is refused exactly if the operation comes at the wrong time. -/
theorem refusal_step_toTry (m : Machine) (op : Operation) :
    (m.step op.toTry).1.refusal? = op.misplaced? m.isFinalized := by
  cases m <;> cases op <;> rfl

/-- A call that is ignored when the message is closed, and its reporting form. -/
theorem Follows.reports {call : Checked (Except PhaseError Xof)}
    {answer : Reply → Reply × Machine} (hf : Follows m call answer) (x : Xof) {op : Operation}
    {c : Call} (hc : ∀ reason, op.complaint reason = [.ignored c reason])
    (hw : [(Notice.ignored c .alreadyFinalized).line] = op.warning?.toList) :
    ∃ first tried, (replyDone <$> (do return x.orIgnore c (← call))) = .ok first ∧
      x.replyOrRefuse <$> call = .ok tried ∧ op.Reports first tried := by
  rcases hf with ⟨y, m', rfl, _, _⟩ | ⟨rfl, _⟩
  · exact ⟨_, _, rfl, rfl, .of_accepted rfl rfl rfl rfl⟩
  · refine ⟨_, _, rfl, rfl, .of_refused rfl rfl rfl (hc _).symm ?_⟩
    rw [hc]
    exact hw

namespace Describes

/-- A read into a buffer of `n` bytes, and its reporting form. -/
theorem reports_read (h : m.Describes x) (op : Operation) {dest : List UInt8} {n : Nat}
    (hn : dest.length = n) (hc : ∀ reason, op.complaint reason = [.ignored (.read n) reason])
    (hw : op.warning? = some (Operation.warning?.earlyRead n)) :
    ∃ first tried, replyBytes <$> x.read dest = .ok first ∧
      x.step (.tryRead dest) = .ok tried ∧ op.Reports first tried := by
  subst hn
  rw [Xof.read, Xof.step]
  obtain ⟨bytes, y, m', ht, _, _⟩ | ⟨ht, _⟩ := h.tryRead dest
  · rw [ht]
    exact ⟨_, _, rfl, rfl, .of_accepted rfl rfl rfl rfl⟩
  · rw [ht]
    refine ⟨_, _, rfl, rfl, .of_refused rfl rfl rfl (hc _).symm ?_⟩
    rw [hc, hw]
    exact congrArg (fun line => [line]) (line_earlyRead _)

/-- A read into a buffer made for it, and its reporting form. -/
theorem reports_readFresh (h : m.Describes x) {n : Nat} (hn : n < allocationBound) :
    (Operation.readFresh n).ReportsOn x := by
  cases h with
  | absorbing =>
    -- no buffer is made here, and still the notice tells the length that was asked for
    exact ⟨_, _, rfl, rfl, .of_refused rfl rfl rfl rfl
      (congrArg (fun line => [line]) (line_earlyRead n))⟩
  | @finalized message q position hq =>
    have hread := (Describes.finalized position hq).reports_read (.readFresh n)
      (List.length_replicate (n := n) (a := 0)) (fun _ => rfl) rfl
    have hstep : (Xof.finalized (q.advance position)).step (.readFresh n) =
        replyBytes <$> (Xof.finalized (q.advance position)).read (List.replicate n 0) :=
      congrArg (replyBytes <$> ·) (Checked.ensure_bind_of hn _)
    rw [Operation.ReportsOn, hstep]
    exact hread

/-- An operation goes together with its reporting form. -/
theorem reports (h : m.Describes x) {op : Operation}
    (hb : m.load op < messageBound) (hr : op.requested < allocationBound) : op.ReportsOn x := by
  have hhash {chunk : List UInt8} (hb : m.load (.hash chunk) < messageBound) :
      (Operation.hash chunk).ReportsOn x := (h.tryHash hb).reports x (fun _ => rfl) rfl
  have habsorb {chunk : List UInt8} (hb : m.load (.absorb chunk) < messageBound) :
      (Operation.absorb chunk).ReportsOn x := (h.tryAbsorb hb).reports x (fun _ => rfl) rfl
  have hfinalize : Operation.finalize.ReportsOn x := h.tryFinalize.reports x (fun _ => rfl) rfl
  have hread {dest : List UInt8} : (Operation.read dest).ReportsOn x :=
    h.reports_read (.read dest) rfl (fun _ => rfl) rfl
  cases op with
  | hash chunk => exact hhash hb
  | absorb chunk => exact habsorb hb
  | absorbGeneric chunk => exact (h.tryAbsorb hb).reports x (fun _ => rfl) rfl
  | finalize => exact hfinalize
  | tryHash chunk => exact (hhash hb).toTry
  | tryAbsorb chunk => exact (habsorb hb).toTry
  | tryFinalize => exact hfinalize.toTry
  | isFinalized | describe => exact ⟨_, _, rfl, rfl, .of_accepted rfl rfl rfl rfl⟩
  | read dest => exact hread
  | readGeneric dest => exact h.reports_read (.readGeneric dest) rfl (fun _ => rfl) rfl
  | tryRead dest => exact hread.toTry
  | readFresh n => exact h.reports_readFresh hr
  | readBlock n => exact h.reports_read (.readBlock n) List.length_replicate (fun _ => rfl) rfl

/-- A run goes together with the run of the reporting forms. -/
theorem run_reports (h : m.Describes x) {ops : List Operation}
    (hb : (m.run ops).2.message.length < messageBound)
    (hr : ∀ op ∈ ops, op.requested < allocationBound) :
    ∃ out tried, x.run ops = .ok out ∧ x.run (ops.map Operation.toTry) = .ok tried ∧
      tried.next = out.next ∧ tried.log = [] ∧
      tried.result.map Reply.refusal? = misplacements m.isFinalized ops ∧
      out.log.map Notice.line = warnings ops tried.result := by
  -- after each operation both runs stand at one object, and the machine goes on describing it
  induction ops generalizing m x with
  | nil => exact ⟨_, _, rfl, rfl, rfl, rfl, rfl, rfl⟩
  | cons op ops ih =>
    have hs : m.load op < messageBound := Nat.lt_of_le_of_lt
      (Nat.le_trans (m.length_le_step op).2 (length_le_run _ ops)) hb
    have hop := hr op List.mem_cons_self
    have hstry : m.load op.toTry < messageBound := by rwa [load_toTry]
    have hoptry : op.toTry.requested < allocationBound := by rwa [Operation.requested_toTry]
    obtain ⟨first, hf, _, hd⟩ := h.step hs hop
    obtain ⟨tryFirst, htf, hreply, _⟩ := h.step hstry hoptry
    obtain ⟨first', tryFirst', hf', htf', hreports⟩ := h.reports hs hop
    obtain rfl : first' = first := Except.ok.inj (hf'.symm.trans hf)
    obtain rfl : tryFirst' = tryFirst := Except.ok.inj (htf'.symm.trans htf)
    obtain ⟨rest, tryRest, ho, hto, hnext, hsilent, hrefusals, hlines⟩ :=
      ih hd hb fun o hm => hr o (List.mem_cons_of_mem op hm)
    refine ⟨⟨first'.result :: rest.result, rest.next, first'.log ++ rest.log⟩,
      ⟨tryFirst'.result :: tryRest.result, tryRest.next, tryFirst'.log ++ tryRest.log⟩,
      ?_, ?_, hnext, ?_, ?_, ?_⟩
    · rw [Xof.run, hf, Checked.ok_bind, ho]
      rfl
    · rw [List.map_cons, Xof.run, htf, Checked.ok_bind, hreports.next, hto]
      rfl
    · rw [hreports.silent, hsilent]
      rfl
    · rw [List.map_cons, hreply, refusal_step_toTry, hrefusals, isFinalized_step]
      rfl
    · rw [List.map_append, hreports.lines, hlines, warnings_cons]

end Describes

/-- An operation makes the message longer by no more than what it offers. -/
theorem length_step_le (m : Machine) (op : Operation) :
    (m.step op).2.message.length ≤ m.message.length + op.offered.length := by
  rw [message_step]
  split
  · exact Nat.le_add_right ..
  · exact Nat.le_of_eq List.length_append

/-- A run takes in no more than what it is offered. -/
theorem length_run_le (m : Machine) (ops : List Operation) :
    (m.run ops).2.message.length ≤
      m.message.length + (ops.flatMap Operation.offered).length := by
  induction ops generalizing m with
  | nil => exact Nat.le_refl _
  | cons op ops ih =>
    rw [List.flatMap_cons, List.length_append, ← Nat.add_assoc]
    exact Nat.le_trans (ih _) (Nat.add_le_add_right (m.length_step_le op) _)

/-- A run without an operation that closes takes in all that it is offered. -/
theorem run_of_open (message : List UInt8) {ops : List Operation}
    (ho : ∀ op ∈ ops, op.closes = false) :
    ((absorbing message).run ops).2 =
      absorbing (message ++ ops.flatMap Operation.offered) := by
  induction ops generalizing message with
  | nil => rw [List.flatMap_nil, List.append_nil]; rfl
  | cons op ops ih =>
    have hr := ih (message ++ op.offered) fun other hm => ho other (List.mem_cons_of_mem op hm)
    rw [List.flatMap_cons, ← List.append_assoc, ← hr,
      ← step_of_open message (ho op List.mem_cons_self)]
    rfl

/-- A message is closed after a run if it was before or some operation has closed it. -/
theorem isFinalized_run (m : Machine) (ops : List Operation) :
    (m.run ops).2.isFinalized = (m.isFinalized || ops.any Operation.closes) := by
  induction ops generalizing m with
  | nil => exact (Bool.or_false _).symm
  | cons op ops ih =>
    rw [List.any_cons, ← Bool.or_assoc, ← isFinalized_step]
    exact ih _

/-- Giving up an object gives a notice if its message is open and not empty. -/
theorem Describes.drop {m : Machine} {x : Xof} (h : m.Describes x) :
    x.drop = if m.isFinalized = false ∧ m.message ≠ [] then [.dropped] else [] := by
  cases h with
  | @absorbing message a ha =>
    obtain ⟨_, rfl⟩ := Absorber.eq_append_of_absorb_empty ha
    have hpos : 0 < 0 + 8 * message.length ↔ message ≠ [] := by
      rw [← List.length_pos_iff]
      omega
    exact if_congr (hpos.trans (and_iff_right rfl).symm) rfl rfl
  | finalized => rfl

/-- Giving up an object after a run gives a notice if no operation has closed the message and one
of them has added to it. -/
theorem Describes.drop_run {ops : List Operation} {x : Xof}
    (h : ((Machine.absorbing []).run ops).2.Describes x) :
    x.drop = if (∀ op ∈ ops, op.closes = false) ∧ ∃ op ∈ ops, op.offered ≠ []
      then [.dropped] else [] := by
  rw [h.drop, isFinalized_run]
  refine if_congr ?_ rfl rfl
  change ops.any Operation.closes = false ∧ _ ↔ _
  have hopen : ops.any Operation.closes = false ↔ ∀ op ∈ ops, op.closes = false := by
    simp only [List.any_eq_false, Bool.not_eq_true]
  rw [hopen]
  refine and_congr_right fun ho => ?_
  rw [run_of_open [] ho]
  change ops.flatMap Operation.offered ≠ [] ↔ _
  simp only [ne_eq, List.flatMap_eq_nil_iff, Classical.not_forall, exists_prop]

end Machine

/-- A run and the run of its reporting forms go through the same objects. The second gives no
notice and is refused exactly where an operation comes at the wrong time. Its replies tell the lines
that the first one leaves in a log: one for each operation whose form is refused. Giving up the
object adds a line exactly if no operation has closed the message and one of them has added to
it. -/
theorem run_empty_warns (ops : List Operation)
    (hb : (ops.flatMap Operation.offered).length < messageBound)
    (hr : ∀ op ∈ ops, op.requested < allocationBound) :
    ∃ out tried, empty.run ops = .ok out ∧ empty.run (ops.map Operation.toTry) = .ok tried ∧
      (∀ prior, prior <+: ops → ∃ x, Outcome.next <$> empty.run prior = .ok x ∧
        Outcome.next <$> empty.run (prior.map Operation.toTry) = .ok x) ∧
      tried.log = [] ∧ tried.result.map Reply.refusal? = misplacements false ops ∧
      out.log.map Notice.line = warnings ops tried.result ∧
      out.next.drop.map Notice.line =
        if (∀ op ∈ ops, op.closes = false) ∧ ∃ op ∈ ops, op.offered ≠ [] then
          ["DEBUG: SHAKE256 instance dropped before finalization"] else [] := by
  have hload {prior : List Operation} (hp : prior <+: ops) :
      ((Machine.absorbing []).run prior).2.message.length < messageBound := by
    obtain ⟨rest, rfl⟩ := hp
    rw [List.flatMap_append, List.length_append] at hb
    have hle := Machine.length_run_le (.absorbing []) prior
    change _ ≤ 0 + _ at hle
    omega
  have hstates {prior : List Operation} (hp : prior <+: ops) :=
    Machine.describes_empty.run_reports (hload hp) fun op hop => hr op (hp.mem hop)
  obtain ⟨out, tried, ho, ht, _, hsilent, hrefusals, hlines⟩ := hstates (List.prefix_refl ops)
  obtain ⟨out', ho', _, hd⟩ := Machine.describes_empty.run (hload (List.prefix_refl ops)) hr
  obtain rfl : out' = out := Except.ok.inj (ho'.symm.trans ho)
  refine ⟨out', tried, ho, ht, fun prior hp => ?_, hsilent, hrefusals, hlines, ?_⟩
  · obtain ⟨before, triedBefore, hbefore, htry, hnext, _⟩ := hstates hp
    refine ⟨before.next, ?_, ?_⟩
    · rw [hbefore]
      rfl
    · rw [htry, ← hnext]
      rfl
  · rw [hd.drop_run]
    split <;> rfl

/-- A run that reads too early in several forms and is given up with an open message. -/
def abandoned : List Operation :=
  [.readFresh 3, .absorb [1], .readBlock 12, .tryRead [9], .read [7, 7]]

theorem run_abandoned_warns :
    (abandoned.flatMap Operation.offered).length < messageBound ∧
      (∀ op ∈ abandoned, op.requested < allocationBound) ∧
      ∃ out, empty.run abandoned = .ok out ∧
        out.log.map Notice.line = ["WARN: Ignoring read of 3 bytes: Sponge not finalized",
          "WARN: Ignoring read of 12 bytes: Sponge not finalized",
          "WARN: Ignoring read of 2 bytes: Sponge not finalized"] ∧
        out.next.drop.map Notice.line =
          ["DEBUG: SHAKE256 instance dropped before finalization"] := by
  have hb : (abandoned.flatMap Operation.offered).length < messageBound := by decide
  have hr : ∀ op ∈ abandoned, op.requested < allocationBound := by decide
  obtain ⟨out, tried, ho, ht, _, _, _, hlines, hdrop⟩ := run_empty_warns abandoned hb hr
  have hload : ((Machine.absorbing []).run (abandoned.map Operation.toTry)).2.message.length <
      messageBound := by
    change 1 < messageBound
    decide
  obtain ⟨tried', ht', hreplies, _⟩ := Machine.describes_empty.run hload (by decide)
  obtain rfl : tried' = tried := Except.ok.inj (ht'.symm.trans ht)
  rw [hreplies] at hlines
  exact ⟨hb, hr, out, ho, hlines, hdrop⟩

end Shake.Xof
