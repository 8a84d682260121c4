import Shake.Proofs.Absorption.OneShot
import Shake.State.Counted

/-!
# Absorption for every rate, suffix and starting state

Nothing in the absorption of a whole message depends on the parameters of SHAKE256. For every block
size that the state allows, every suffix and every state to start from, it is the absorbing phase of
the sponge construction on the padded message, with one permutation for each of its blocks. What is
absorbed is the suffix as a bit string: bits of its byte beyond the width leave no trace.
-/

namespace Shake

/-- States with the same bits are the same. -/
theorem State.toBits_inj {s t : State} (h : s.toBits = t.toBits) : s = t := by
  rw [← s.ofBits_toBits, h, t.ofBits_toBits]

/-- A padded message depends on the bits of the suffix only. -/
theorem Bits.padded_congr (r : Nat) {s t : Suffix} (h : ofSuffix s = ofSuffix t)
    (message : List UInt8) : padded r s message = padded r t message := by
  rw [padded, padded, h, Suffix.width_eq_of_bits h]

/-- A padded message is whole blocks: those that the message fills, and one more. -/
theorem Bits.length_padded {size : Nat} (hs : BlockSize size) {suffix : Suffix}
    (hw : suffix.width ≤ 6) (message : List UInt8) :
    (padded (8 * size) suffix message).length = 8 * size * (message.length / size + 1) := by
  have ha := Padding.admissible_of_bytes hw message.length hs.pos hs.bounded
  obtain ⟨p, _, hp⟩ := Padding.exists_close ha
  rw [padded, List.append_assoc, ← hp.ofBytes_toBytes ha, ← ofBytes_append, length_ofBytes,
    State.length_padded hs hp, Nat.mul_assoc]

namespace State

/-- From any state, for any block size and any suffix, absorbing a message succeeds. The state that
results has the bits that the sponge construction gives for the padded message; the padded message
is exactly as many blocks as the message fills and one more, and as many permutations are applied;
and every suffix with the same bits leads to the same state. -/
theorem absorb_eq_sponge {size : Nat} (hs : BlockSize size) (s : State) {suffix : Suffix}
    (hw : suffix.width ≤ 6) (message : List UInt8) :
    ∃ t, s.absorb size suffix message = .ok t ∧
      t.toBits = Bits.absorb Bits.permute (8 * size) s.toBits
        (Bits.padded (8 * size) suffix message) ∧
      (Bits.padded (8 * size) suffix message).length =
        8 * size * (message.length / size + 1) ∧
      (Counted.start s).absorb size suffix message = .ok ⟨t, message.length / size + 1⟩ ∧
      ∀ other : Suffix, Bits.ofSuffix other = Bits.ofSuffix suffix →
        s.absorb size other message = .ok t := by
  obtain ⟨t, ht, hbits⟩ := exists_absorb hs s hw message
  refine ⟨t, ht, hbits, Bits.length_padded hs hw message, ?_, fun other ho => ?_⟩
  · rw [Counted.absorb_eq, Counted.start_state, ht]
    exact congrArg Except.ok (Counted.start_next s t _)
  · have hwo : other.width ≤ 6 := by
      rw [Suffix.width_eq_of_bits ho]
      exact hw
    obtain ⟨u, hu, hubits⟩ := exists_absorb hs s hwo message
    have htu : u.toBits = t.toBits := by
      rw [hbits]
      exact hubits.trans
        (congrArg (Bits.absorb Bits.permute _ _) (Bits.padded_congr _ ho message))
    rw [hu, toBits_inj htu]

/-- A message that fills one block of 72 bytes, with a suffix of two bits in a byte of seven ones:
a second block of nothing but padding follows, and five of the seven ones are left out. -/
theorem absorb_eq_sponge_fullBlock : BlockSize 72 ∧ Suffix.width ⟨0xfe, 2⟩ ≤ 6 ∧
    ∃ t, zero.absorb 72 ⟨0xfe, 2⟩ (List.replicate 72 1) = .ok t ∧
      t.toBits = Bits.absorb Bits.permute (8 * 72) zero.toBits
        (Bits.padded (8 * 72) ⟨0xfe, 2⟩ (List.replicate 72 1)) ∧
      (Counted.start zero).absorb 72 ⟨0xfe, 2⟩ (List.replicate 72 1) = .ok ⟨t, 2⟩ ∧
      zero.absorb 72 ⟨0x02, 2⟩ (List.replicate 72 1) = .ok t := by
  have hs : BlockSize 72 := ⟨rfl, by decide, by decide⟩
  have hw : Suffix.width ⟨0xfe, 2⟩ ≤ 6 := by decide
  obtain ⟨t, ht, hbits, _, hc, ho⟩ := absorb_eq_sponge hs zero hw (List.replicate 72 1)
  exact ⟨hs, hw, t, ht, hbits, hc, ho ⟨0x02, 2⟩ (by decide)⟩

end State

end Shake
