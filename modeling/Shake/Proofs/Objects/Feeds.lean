import Shake.Hasher.Feed
import Shake.Proofs.Absorption.Streaming
import Shake.Proofs.Output.Conformance

/-!
# All feeds append to one message

A hasher is an absorber, so every way to feed it puts its bytes behind the message, and closing the
message gives the reader that hashing it at once gives.
-/

namespace Shake

namespace Hasher

/-- A chunk goes behind the message as long as the count can hold both. -/
theorem absorb_append_eq {message chunk : List UInt8}
    (h : (message ++ chunk).length < messageBound) :
    absorb ⟨Absorber.empty.append message⟩ chunk =
      .ok ⟨Absorber.empty.append (message ++ chunk)⟩ := by
  rw [absorb, Absorber.absorb_append_eq h]
  rfl

/-- Every feed appends its bytes to the message. -/
theorem feed_append_eq {message : List UInt8} {f : Feed}
    (h : (message ++ f.bytes).length < messageBound) :
    feed ⟨Absorber.empty.append message⟩ f =
      .ok ⟨Absorber.empty.append (message ++ f.bytes)⟩ := by
  cases f with
  | absorb chunk => exact absorb_append_eq h
  | absorbTwo first second =>
    change (message ++ (first ++ second)).length < messageBound at h
    change _ = Except.ok (⟨Absorber.empty.append (message ++ (first ++ second))⟩ : Hasher)
    rw [← List.append_assoc] at h ⊢
    have hl : (message ++ first).length < messageBound := by
      rw [List.length_append] at h
      omega
    rw [feed, absorb_append_eq hl, Checked.ok_bind, absorb_append_eq h]
  | absorbGeneric chunk =>
    have ha : absorb ⟨Absorber.empty.append message⟩ chunk =
        .ok ⟨Absorber.empty.append (message ++ chunk)⟩ := absorb_append_eq h
    simp only [feed, Absorb.absorb, ha]
    rfl
  | update chunk => exact absorb_append_eq h
  | chain chunk => exact absorb_append_eq h

/-- Feeds of any kinds append their bytes one behind the other. -/
theorem feedAll_append_eq {message : List UInt8} {feeds : List Feed}
    (h : (message ++ feeds.flatMap Feed.bytes).length < messageBound) :
    feedAll ⟨Absorber.empty.append message⟩ feeds =
      .ok ⟨Absorber.empty.append (message ++ feeds.flatMap Feed.bytes)⟩ := by
  induction feeds generalizing message with
  | nil => rw [feedAll, List.flatMap_nil, List.append_nil]
  | cons f feeds ih =>
    rw [List.flatMap_cons, ← List.append_assoc] at h ⊢
    have hf : (message ++ f.bytes).length < messageBound := by
      rw [List.length_append] at h
      omega
    rw [feedAll, feed_append_eq hf, Checked.ok_bind, ih h]

/-- Closing the message gives the reader that hashing it at once gives. -/
theorem exists_finalize_append {message : List UInt8} (h : message.length < messageBound) :
    ∃ q, Squeezer.ofMessage message = .ok q ∧
      finalize ⟨Absorber.empty.append message⟩ = .ok ⟨q⟩ := by
  obtain ⟨q, hq, hf⟩ := Absorber.exists_finalize_append h
  refine ⟨q, hq, ?_⟩
  rw [finalize, hf]
  rfl

/-- A digest through the interface feeds one chunk to an empty hasher. -/
theorem digest_eq_finalizeInto {message : List UInt8} (h : message.length < messageBound)
    (dest : List UInt8) :
    ExtendableOutput.digest Hasher message dest =
      ExtendableOutput.finalizeInto (⟨Absorber.empty.append message⟩ : Hasher) dest := by
  have ha : absorb ⟨Absorber.empty⟩ message = .ok ⟨Absorber.empty.append message⟩ :=
    @absorb_append_eq [] message h
  simp only [ExtendableOutput.digest, ExtendableOutput.update, ExtendableOutput.start, empty, ha,
    Checked.ok_bind]

/-- Closing the message can be followed by reading at once. -/
theorem finalizeInto_eq {h : Hasher} {q : Squeezer} (hf : h.finalize = .ok ⟨q⟩)
    (hq : q.readable ≤ 136) (dest : List UInt8) :
    ExtendableOutput.finalizeInto h dest = .ok (q.stream dest.length) := by
  simp only [ExtendableOutput.finalizeInto, ExtendableOutput.finalize, hf, Checked.ok_bind,
    OutputStream.next, Reader.read_eq (r := ⟨q⟩) hq]
  rfl

end Hasher

end Shake
