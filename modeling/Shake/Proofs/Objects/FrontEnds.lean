import Shake.Proofs.Objects.Feeds
import Shake.Proofs.Objects.Refinement

/-!
# All ways to hash a message agree

Hashers, the object for both phases, and the digests reach the stream of a message on different
ways: by absorbing it at once, or piece by piece through a pending block. What decides about the
output is the message alone, so all of them come to the same lanes and the same window.
-/

namespace Shake

namespace Xof

namespace Machine

/-- Operations that do not close the message only add to it. -/
theorem step_of_open (message : List UInt8) {op : Operation} (h : op.closes = false) :
    ((absorbing message).step op).2 = absorbing (message ++ op.offered) := by
  cases op with
  | absorb | absorbGeneric | tryAbsorb => rfl
  | hash | finalize | tryHash | tryFinalize => cases h
  | _ => exact congrArg absorbing (List.append_nil message).symm

/-- Operations that close the message add to it first. -/
theorem step_of_closes (message : List UInt8) {op : Operation} (h : op.closes = true) :
    ((absorbing message).step op).2 = finalized (message ++ op.offered) 0 := by
  cases op with
  | hash | finalize | tryHash | tryFinalize => rfl
  | _ => cases h

/-- A run that closes the message with its last operation has taken in all that was offered. -/
theorem run_of_closes (message : List UInt8) {ops : List Operation} {last : Operation}
    (ho : ∀ op ∈ ops, op.closes = false) (hl : last.closes = true) :
    ((absorbing message).run (ops ++ [last])).2 =
      finalized (message ++ (ops ++ [last]).flatMap Operation.offered) 0 := by
  induction ops generalizing message with
  | nil =>
    rw [List.nil_append, List.flatMap_singleton]
    exact step_of_closes message hl
  | cons op ops ih =>
    have hs := step_of_open message (ho op List.mem_cons_self)
    have hr := ih (message ++ op.offered) fun other hm => ho other (List.mem_cons_of_mem op hm)
    rw [List.cons_append, List.flatMap_cons, ← List.append_assoc]
    change (((absorbing message).step op).2.run (ops ++ [last])).2 = _
    rw [hs, hr]

end Machine

/-- Operations that take in `message` piece by piece, with a last one that closes it. -/
structure Closing (message : List UInt8) (ops : List Operation) (last : Operation) : Prop where
  /-- The message stays open until the last operation. -/
  opened : ∀ op ∈ ops, op.closes = false
  /-- No buffer is longer than memory. -/
  bounded : ∀ op ∈ ops, op.requested < allocationBound
  /-- The last operation closes the message. -/
  closes : last.closes = true
  /-- All pieces make up the message. -/
  offered : (ops ++ [last]).flatMap Operation.offered = message

/-- An object whose message is closed in any way gives the stream of the message. -/
theorem Closing.exists_run {message : List UInt8} {ops : List Operation} {last : Operation}
    (h : Closing message ops last) (hb : message.length < messageBound) {q : Squeezer}
    (hq : Squeezer.ofMessage message = .ok q) :
    ∃ out, empty.run (ops ++ [last]) = .ok out ∧ out.next = .finalized q := by
  have hrun := Machine.run_of_closes [] h.opened h.closes
  rw [List.nil_append, h.offered] at hrun
  have hlast : last.requested < allocationBound := by
    have hl := h.closes
    cases last with
    | hash | finalize | tryHash | tryFinalize => exact Nat.zero_lt_succ _
    | _ => cases hl
  have hr : ∀ op ∈ ops ++ [last], op.requested < allocationBound := by
    intro op hop
    rcases List.mem_append.mp hop with hop | hop
    · exact h.bounded op hop
    · rwa [List.mem_singleton.mp hop]
  obtain ⟨out, hout, _, hd⟩ := Machine.describes_empty.run (by rwa [hrun]) hr
  refine ⟨out, hout, ?_⟩
  rw [hrun] at hd
  -- the case split needs a variable for the state the run has come to
  generalize out.next = x at hd
  cases hd with
  | @finalized _ q' _ hq' =>
    obtain rfl : q' = q := Except.ok.inj (hq'.symm.trans hq)
    rw [Squeezer.advance_zero]

end Xof

/-- Every digest of a message is the beginning of the stream that a hasher gives for it. -/
theorem Hasher.exists_digest {h : Hasher} {message : List UInt8} {q : Squeezer}
    (hb : message.length < messageBound) (hq : Squeezer.ofMessage message = .ok q)
    (hf : h.finalize = .ok ⟨q⟩) (n : Nat) :
    ∃ bytes, bytes.length = n ∧ digest n message = .ok bytes ∧
      ∀ dest : List UInt8, dest.length = n → digestInto message dest = .ok bytes ∧
        ExtendableOutput.digest Hasher message dest = .ok bytes ∧
        ExtendableOutput.finalizeInto h dest = .ok bytes := by
  refine ⟨q.stream n, q.length_stream n, digest_eq_stream hq n, ?_⟩
  rintro dest rfl
  have hr := Squeezer.ofMessage_readable_le hq
  obtain ⟨q', hq', hf'⟩ := exists_finalize_append hb
  obtain rfl : q' = q := Except.ok.inj (hq'.symm.trans hq)
  refine ⟨digestInto_eq_stream hq dest, ?_, finalizeInto_eq hf hr dest⟩
  rw [digest_eq_finalizeInto hb, finalizeInto_eq hf' hr]

/-- However a message is cut into pieces and whichever calls take them in, closing it gives one and
the same stream, in its lanes and its window: from a hasher, from hashing the message at once, and
in an object for both phases. So all digests of the message are equal at every length. -/
theorem frontEnds_agree (feeds : List Hasher.Feed) {message : List UInt8}
    (hm : feeds.flatMap Hasher.Feed.bytes = message) (hb : message.length < messageBound) :
    ∃ h r, Hasher.empty.feedAll feeds = .ok h ∧ h.finalize = .ok r ∧
      ExtendableOutput.finalize h = .ok r ∧ Hasher.hash message = .ok r ∧
      (∀ ops last, Xof.Closing message ops last →
        ∃ out, Xof.empty.run (ops ++ [last]) = .ok out ∧ out.next = .finalized r.squeezer) ∧
      ∀ n, ∃ bytes, bytes.length = n ∧ digest n message = .ok bytes ∧
        ∀ dest : List UInt8, dest.length = n → digestInto message dest = .ok bytes ∧
          ExtendableOutput.digest Hasher message dest = .ok bytes ∧
          ExtendableOutput.finalizeInto h dest = .ok bytes := by
  subst hm
  have hfeed := @Hasher.feedAll_append_eq [] feeds hb
  rw [List.nil_append] at hfeed
  obtain ⟨q, hq, hf⟩ := Hasher.exists_finalize_append hb
  exact ⟨_, ⟨q⟩, hfeed, hf, hf, Hasher.hash_eq hq, fun _ _ h => h.exists_run hb hq,
    Hasher.exists_digest hb hq hf⟩

/-- Feeds of every kind, an empty chunk among them. -/
def mixedFeeds : List Hasher.Feed :=
  [.absorb [1], .absorbTwo [2, 3] [], .absorbGeneric [4], .update [5], .chain [6]]

theorem frontEnds_agree_mixedFeeds :
    mixedFeeds.flatMap Hasher.Feed.bytes = [1, 2, 3, 4, 5, 6] ∧
      [1, 2, 3, 4, 5, (6 : UInt8)].length < messageBound ∧
      ∃ h r, Hasher.empty.feedAll mixedFeeds = .ok h ∧ h.finalize = .ok r ∧
        (∃ out, Xof.empty.run [.tryAbsorb [1, 2], .readFresh 9, .absorb [3], .hash [4, 5, 6]] =
          .ok out ∧ out.next = .finalized r.squeezer) ∧
        ∃ bytes, digest 200 [1, 2, 3, 4, 5, 6] = .ok bytes ∧
          ExtendableOutput.finalizeInto h (List.replicate 200 7) = .ok bytes := by
  have hm : mixedFeeds.flatMap Hasher.Feed.bytes = [1, 2, 3, 4, 5, 6] := by decide
  have hb : [1, 2, 3, 4, 5, (6 : UInt8)].length < messageBound := by decide
  have hx : Xof.Closing [1, 2, 3, 4, 5, 6] [.tryAbsorb [1, 2], .readFresh 9, .absorb [3]]
      (.hash [4, 5, 6]) := ⟨by decide, by decide, by decide, by decide⟩
  obtain ⟨h, r, hf, hr, _, _, hclosing, hdigest⟩ := frontEnds_agree mixedFeeds hm hb
  obtain ⟨bytes, _, hd, hinto⟩ := hdigest 200
  exact ⟨hm, hb, h, r, hf, hr, hclosing _ _ hx, bytes, hd,
    (hinto _ List.length_replicate).2.2⟩

end Shake
