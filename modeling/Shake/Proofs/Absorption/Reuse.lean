import Mathlib.Data.List.Forall2
import Shake.Absorber.Action
import Shake.Proofs.Absorption.Streaming

/-!
# One absorber for many messages

Closing a message, or giving it up, leaves an absorber that is new in every field. So an absorber
with a history differs in nothing from a new one that has taken in the open message alone
(`exists_act`), and each of the streams that a history gives belongs to the one message that was
closed for it.
-/

namespace Shake.Absorber

/-- The stream into which a new absorber closes a message, whatever pieces the message comes in. -/
def ClosesInto (message : List UInt8) (q : Squeezer) : Prop :=
  ∀ chunks : List (List UInt8), chunks.flatten = message →
    ∃ a, chunks.foldlM absorb empty = .ok a ∧ a.finalize = .ok (q, empty)

/-- What is open after a history is open after its last part, which starts with what is open after
the first action. -/
theorem openMessage_cons (message : List UInt8) (action : Action) (actions : List Action) :
    openMessage message (action :: actions) =
      openMessage (openMessage message [action]) actions := by
  cases action <;> rfl

/-- The first action closes its message before the others close theirs. -/
theorem closedMessages_cons (message : List UInt8) (action : Action) (actions : List Action) :
    closedMessages message (action :: actions) =
      closedMessages message [action] ++
        closedMessages (openMessage message [action]) actions := by
  cases action <;> rfl

/-- Closing a message gives its stream and leaves a new absorber. -/
theorem exists_finalize_closesInto {message : List UInt8} (h : message.length < messageBound) :
    ∃ q, (empty.append message).finalize = .ok (q, empty) ∧ ClosesInto message q := by
  obtain ⟨q, _, hf⟩ := exists_finalize_append h
  refine ⟨q, hf, ?_⟩
  rintro chunks rfl
  exact ⟨_, foldlM_absorb_empty_eq h, hf⟩

/-- An absorber that has taken in the open message, and nothing else, is left by every action as one
that has taken in what is open then; and what the action closes goes into its own stream. -/
theorem exists_act {message : List UInt8} (hm : message.length < messageBound) {action : Action}
    (h : (openMessage message [action]).length < messageBound) :
    ∃ q?, (empty.append message).act action =
        .ok (q?, empty.append (openMessage message [action])) ∧
      List.Forall₂ ClosesInto (closedMessages message [action]) q?.toList := by
  cases action with
  | absorb chunk =>
    refine ⟨none, ?_, .nil⟩
    rw [act, absorb_append_eq h]
    rfl
  | finalize =>
    obtain ⟨q, hf, hq⟩ := exists_finalize_closesInto hm
    refine ⟨some q, ?_, .cons hq .nil⟩
    rw [act, hf]
    rfl
  | clear =>
    refine ⟨none, ?_, .nil⟩
    rw [act, clear_eq_empty]
    rfl

/-- A history whose messages the count can hold succeeds, leaves an absorber that has taken in the
open message alone, and gives one stream for each message that it closes. -/
theorem exists_actAll {message : List UInt8} {actions : List Action}
    (h : ∀ prior, prior <+: actions → (openMessage message prior).length < messageBound) :
    ∃ qs, (empty.append message).actAll actions =
        .ok (qs, empty.append (openMessage message actions)) ∧
      List.Forall₂ ClosesInto (closedMessages message actions) qs := by
  induction actions generalizing message with
  | nil => exact ⟨[], rfl, .nil⟩
  | cons action actions ih =>
    have hm : message.length < messageBound := h [] List.nil_prefix
    have ha : (openMessage message [action]).length < messageBound :=
      h [action] (List.prefix_append [action] actions)
    obtain ⟨q?, hact, hq⟩ := exists_act hm ha
    obtain ⟨qs, hall, hqs⟩ := ih fun prior hp => by
      rw [← openMessage_cons]
      exact h _ (List.prefix_cons_inj action |>.mpr hp)
    refine ⟨q?.toList ++ qs, ?_, ?_⟩
    · rw [actAll, hact, Checked.ok_bind]
      dsimp only
      rw [hall, ← openMessage_cons]
      rfl
    · rw [closedMessages_cons]
      exact List.rel_append hq hqs

/-- One absorber may serve for any number of messages, each in pieces of any lengths, closed or
given up at any time. As long as the count can hold every one of them, nothing fails; the streams
that come out are, one by one, those into which new absorbers close the same messages; and after any
such history both clearing and closing the open message leave an absorber that is new in every
field. -/
theorem actAll_empty_closesInto (actions : List Action)
    (h : ∀ prior, prior <+: actions → (openMessage [] prior).length < messageBound) :
    ∃ qs a, empty.actAll actions = .ok (qs, a) ∧
      List.Forall₂ ClosesInto (closedMessages [] actions) qs ∧
      a.clear = empty ∧ ∃ q, a.finalize = .ok (q, empty) := by
  obtain ⟨qs, hall, hqs⟩ := exists_actAll h
  obtain ⟨q, hf, _⟩ := exists_finalize_closesInto (h actions List.prefix_rfl)
  exact ⟨qs, _, hall, hqs, clear_eq_empty _, q, hf⟩

/-- A message in three pieces between one that is given up in its second block and one that is
empty. -/
def threeMessages : List Action :=
  [.absorb [1], .finalize, .absorb (List.replicate 200 2), .clear, .absorb [3], .absorb [],
    .absorb [4], .finalize, .finalize]

theorem actAll_threeMessages_closesInto :
    (∀ prior, prior <+: threeMessages → (openMessage [] prior).length < messageBound) ∧
      ∃ qs a, empty.actAll threeMessages = .ok (qs, a) ∧
        List.Forall₂ ClosesInto [[1], [3, 4], []] qs ∧
        a.clear = empty ∧ ∃ q, a.finalize = .ok (q, empty) := by
  have ht : ∀ n ≤ 9, (openMessage [] (threeMessages.take n)).length < messageBound := by
    decide +kernel
  have h : ∀ prior, prior <+: threeMessages → (openMessage [] prior).length < messageBound := by
    intro prior hp
    rw [List.prefix_iff_eq_take.mp hp]
    exact ht _ hp.length_le
  exact ⟨h, actAll_empty_closesInto threeMessages h⟩

end Shake.Absorber
