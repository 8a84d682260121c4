import Shake.Absorber.Action
import Shake.Absorber.InPlace
import Shake.Proofs.Absorption.Streaming

/-!
# The count of bits up to its limit

The count of an absorber takes in whole bytes and is checked before it grows, so with any history it
is a multiple of eight below its bound (`Absorber.Sound`). The bound is a multiple of eight as well
and the suffix has fewer bits than a byte: even the largest count leaves room for it, and a message
can always be closed. A call that would bring the count to its bound is refused before anything has
been changed.
-/

namespace Shake.Absorber

/-- The fields of an absorber agree, and its count is below the bound. -/
structure Sound (a : Absorber) : Prop where
  /-- Block and count agree on the length of the message. -/
  consistent : Consistent a
  /-- The count has not reached its bound. -/
  bounded : a.absorbedBits < counterBound

theorem sound_empty : Sound empty := ⟨consistent_empty, by decide⟩

namespace Sound

/-- The count has room for the suffix even if it is the largest one. -/
theorem suffix_fits {a : Absorber} (h : Sound a) :
    a.absorbedBits + Suffix.shake.width < counterBound := by
  have hw := h.consistent.whole
  have hb := h.bounded
  simp only [Suffix.shake, counterBound] at hb ⊢
  omega

/-- The message can be closed, with a padding that fills what is free of the pending block. -/
theorem exists_finalize {a : Absorber} (h : Sound a) :
    ∃ p q, Padding.close .shake (a.absorbedBits + Suffix.shake.width) rate = .ok p ∧
      p.toBytes.length = rateBytes - a.offset ∧ a.finalize = .ok (q, empty) := by
  obtain ⟨p, hclose, hp, hf⟩ := Absorber.exists_finalize h.consistent h.bounded
  have hw := h.consistent.whole
  have hbits : 8 * (a.absorbedBits / 8) = a.absorbedBits := by omega
  refine ⟨p, _, ?_, ?_, hf⟩
  · rw [rate_eq.1, ← hclose, hbits]
  · rw [hp.length_eq blockSize_rateBytes.bounded, h.consistent.offset_eq]

/-- Absorption that succeeds keeps the count below its bound. -/
theorem absorb {a b : Absorber} (h : Sound a) {input : List UInt8}
    (ha : a.absorb input = .ok b) : Sound b := by
  by_cases hb : a.absorbedBits + 8 * input.length < counterBound
  · rw [absorb_eq h.consistent hb] at ha
    obtain rfl := Except.ok.inj ha
    exact ⟨h.consistent.append input, hb⟩
  · rw [absorb_of_overflow (Nat.not_lt.mp hb)] at ha
    cases ha

/-- Every action keeps the count below its bound. -/
theorem act {a b : Absorber} (h : Sound a) {action : Action} {q? : Option Squeezer}
    (ha : a.act action = .ok (q?, b)) : Sound b := by
  cases action with
  | absorb chunk =>
    rw [Absorber.act] at ha
    obtain ⟨c, hc, hcb⟩ := Checked.exists_of_map_eq_ok ha
    obtain rfl : c = b := congrArg Prod.snd hcb
    exact h.absorb hc
  | finalize =>
    obtain ⟨_, q, _, _, hf⟩ := h.exists_finalize
    rw [Absorber.act, hf] at ha
    obtain rfl : empty = b := congrArg Prod.snd (Except.ok.inj ha)
    exact sound_empty
  | clear =>
    obtain rfl : a.clear = b := congrArg Prod.snd (Except.ok.inj ha)
    rw [clear_eq_empty]
    exact sound_empty

/-- Every history keeps the count below its bound. -/
theorem actAll {a b : Absorber} (h : Sound a) {actions : List Action} {qs : List Squeezer}
    (ha : a.actAll actions = .ok (qs, b)) : Sound b := by
  induction actions generalizing a qs with
  | nil =>
    obtain rfl : a = b := congrArg Prod.snd (Except.ok.inj ha)
    exact h
  | cons action actions ih =>
    rw [Absorber.actAll] at ha
    obtain ⟨⟨q?, c⟩, hact, ha⟩ := Checked.exists_of_bind_eq_ok ha
    obtain ⟨⟨qs', d⟩, hall, ha⟩ := Checked.exists_of_bind_eq_ok ha
    obtain rfl : d = b := congrArg Prod.snd (Except.ok.inj ha)
    exact ih (h.act hact) hall

end Sound

/-- Whatever messages an absorber has taken in, closed and given up, its count is a multiple of
eight below the bound; it has room for the suffix, the padding fills exactly what is free of the
pending block, and closing the message succeeds. Absorption overflows exactly if it would bring the
count to its bound, and then, in place, leaves the absorber as it is; below the bound it succeeds. So
a call that has been refused makes no difference to what comes after it. -/
theorem actAll_empty_count {actions : List Action} {qs : List Squeezer} {a : Absorber}
    (h : empty.actAll actions = .ok (qs, a)) :
    (a.absorbedBits % 8 = 0 ∧ a.absorbedBits < counterBound ∧
      a.absorbedBits + Suffix.shake.width < counterBound) ∧
    (∃ p q, Padding.close .shake (a.absorbedBits + Suffix.shake.width) rate = .ok p ∧
      p.toBytes.length = rateBytes - a.offset ∧ a.finalize = .ok (q, empty)) ∧
    ∀ input : List UInt8,
      (a.absorb input = .error .counterOverflow ↔
        counterBound ≤ a.absorbedBits + 8 * input.length) ∧
      ((InPlace.absorb input).run.run a = (.error .counterOverflow, a) ↔
        counterBound ≤ a.absorbedBits + 8 * input.length) ∧
      (a.absorbedBits + 8 * input.length < counterBound → ∃ b, a.absorb input = .ok b ∧
        b.absorbedBits = a.absorbedBits + 8 * input.length) := by
  have hc : Sound a := sound_empty.actAll h
  refine ⟨⟨hc.consistent.whole, hc.bounded, hc.suffix_fits⟩, hc.exists_finalize, fun input => ?_⟩
  have hoverflow : a.absorb input = .error .counterOverflow ↔
      counterBound ≤ a.absorbedBits + 8 * input.length := absorb_eq_overflow_iff hc.consistent
  refine ⟨hoverflow, ⟨fun hrun => ?_, InPlace.run_absorb_of_overflow⟩, fun hb => ?_⟩
  · rw [← hoverflow, ← InPlace.outcome_absorb, InPlace.outcome, hrun]
  · exact ⟨_, absorb_eq hc.consistent hb, append_absorbedBits a input⟩

/-- The longest message that can be counted: its last block has 31 bytes, it can still be closed,
and not one byte more is taken in. -/
theorem actAll_empty_count_atBound :
    ∃ a, empty.actAll [.absorb (List.replicate (messageBound - 1) 0)] = .ok ([], a) ∧
      a.absorbedBits = counterBound - 8 ∧
      (∃ p q, Padding.close .shake (counterBound - 8 + 4) rate = .ok p ∧
        p.toBytes.length = 105 ∧ a.finalize = .ok (q, empty)) ∧
      a.absorb [1] = .error .counterOverflow ∧
      (InPlace.absorb [1]).run.run a = (.error .counterOverflow, a) ∧
      ∃ b, a.absorb [] = .ok b := by
  have hlength : (List.replicate (messageBound - 1) (0 : UInt8)).length < messageBound := by
    rw [List.length_replicate]
    decide
  have hact : empty.actAll [.absorb (List.replicate (messageBound - 1) 0)] =
      .ok ([], empty.append (List.replicate (messageBound - 1) 0)) := by
    rw [actAll, act, absorb_empty_eq hlength]
    rfl
  have hbits : (empty.append (List.replicate (messageBound - 1) 0)).absorbedBits =
      counterBound - 8 := by
    rw [append_absorbedBits, List.length_replicate]
    rfl
  have hoffset : (empty.append (List.replicate (messageBound - 1) 0)).offset = 31 := by
    rw [append_offset (by decide), List.length_replicate]
    rfl
  obtain ⟨-, ⟨p, q, hclose, hpad, hf⟩, hinput⟩ := actAll_empty_count hact
  rw [hbits] at hclose hinput
  rw [hoffset] at hpad
  obtain ⟨hoverflow, hplace, -⟩ := hinput [1]
  obtain ⟨-, -, hnothing⟩ := hinput []
  obtain ⟨b, hb, -⟩ := hnothing (by decide)
  exact ⟨_, hact, hbits, ⟨p, q, hclose, hpad, hf⟩, hoverflow.mpr (by decide),
    hplace.mpr (by decide), b, hb⟩

end Shake.Absorber
