import Shake.Proofs.Absorption.OneShot

/-!
# What is rejected, and nothing else

The checks that can end an absorption are scattered: over the block size at its start, over each
block that is added, and over the arguments of the padding. Whichever of them a message happens to
meet on the way, together they let pass exactly the block sizes that the state allows, with suffixes
of at most six bits. So neither the message nor the state has a say in what is rejected.
-/

namespace Shake

namespace Padding

/-- Exactly the admissible arguments have a padding. -/
theorem exists_close_iff {suffix : Suffix} {messageBits rateBits : Nat} :
    (∃ p, close suffix messageBits rateBits = .ok p) ↔
      Admissible suffix messageBits rateBits := by
  constructor
  · rintro ⟨p, h⟩
    exact admissible_of_close h
  · intro h
    obtain ⟨p, hp, _⟩ := exists_close h
    exact ⟨p, hp⟩

/-- The ways in which arguments fail to be admissible. -/
theorem not_admissible_iff {suffix : Suffix} {messageBits rateBits : Nat} :
    ¬ Admissible suffix messageBits rateBits ↔
      6 < suffix.width ∨ rateBits = 0 ∨ rateBits % 8 ≠ 0 ∨ 1600 < rateBits ∨
        messageBits < suffix.width ∨ (messageBits - suffix.width) % 8 ≠ 0 := by
  constructor
  · intro h
    refine Decidable.byContradiction fun hc => h ⟨?_, ?_, ?_, ?_, ?_, ?_⟩ <;> omega
  · rintro h ⟨hnarrow, hwhole, hpos, hbounded, hsuffixed, haligned⟩
    omega

end Padding

/-- The ways in which a block size and a suffix fail to be legal. -/
theorem not_blockSize_and_narrow_iff {size width : Nat} :
    ¬ (BlockSize size ∧ width ≤ 6) ↔ size = 0 ∨ size % 8 ≠ 0 ∨ 200 < size ∨ 6 < width := by
  constructor
  · intro h
    refine Decidable.byContradiction fun hc => h ⟨⟨by omega, by omega, by omega⟩, by omega⟩
  · rintro h ⟨⟨hwhole, hpos, hbounded⟩, hw⟩
    omega

namespace State

/-- Absorbing full blocks, if it succeeds, leaves what is behind them. -/
theorem eq_drop_of_absorbBlocks {size n : Nat} {s t : State} {message rest : List UInt8}
    (h : absorbBlocks size n s message = .ok (t, rest)) : rest = message.drop (size * n) := by
  induction n generalizing s message with
  | zero =>
    rw [absorbBlocks] at h
    obtain rfl : message = rest := congrArg Prod.snd (Except.ok.inj h)
    rw [Nat.mul_zero, List.drop_zero]
  | succ n ih =>
    rw [absorbBlocks] at h
    obtain ⟨u, _, h⟩ := Checked.exists_of_bind_eq_ok h
    rw [ih h, List.drop_drop, Nat.mul_succ, Nat.add_comm]

/-- The last block is added to the state for every message, so it meets the checks that a message
shorter than a block would miss otherwise. -/
theorem blockSize_of_absorb {size : Nat} {suffix : Suffix} {s t : State} {message : List UInt8}
    (h : s.absorb size suffix message = .ok t) : BlockSize size ∧ suffix.width ≤ 6 := by
  rw [absorb] at h
  obtain ⟨_, hnonempty, h⟩ := Checked.exists_of_bind_eq_ok h
  obtain ⟨⟨u, rest⟩, hblocks, h⟩ := Checked.exists_of_bind_eq_ok h
  obtain ⟨p, hclose, hlast⟩ := Checked.exists_of_bind_eq_ok h
  have hpos : 0 < size := Checked.ensure_eq_ok_iff.mp hnonempty
  have hadm := Padding.admissible_of_close hclose
  have hbounded : size ≤ 200 := by
    have hb := hadm.bounded
    omega
  have hlength : (rest ++ p.toBytes).length = size := by
    have hd := Nat.div_add_mod message.length size
    have hlt := Nat.mod_lt message.length hpos
    rw [eq_drop_of_absorbBlocks hblocks, List.length_append, List.length_drop,
      (Padding.closes_of_close hclose).length_eq hbounded]
    omega
  obtain ⟨v, hxor, _⟩ := Checked.exists_of_map_eq_ok hlast
  have hwhole := (fits_of_xorBlock hxor).whole
  rw [hlength] at hwhole
  exact ⟨⟨hwhole, hpos, hbounded⟩, hadm.narrow⟩

/-- Absorption succeeds exactly for the block sizes that the state allows and suffixes of at most
six bits. -/
theorem exists_absorb_iff {size : Nat} {suffix : Suffix} (s : State) (message : List UInt8) :
    (∃ t, s.absorb size suffix message = .ok t) ↔ BlockSize size ∧ suffix.width ≤ 6 := by
  constructor
  · rintro ⟨t, h⟩
    exact blockSize_of_absorb h
  · rintro ⟨hs, hw⟩
    obtain ⟨t, ht, _⟩ := exists_absorb hs s hw message
    exact ⟨t, ht⟩

end State

/-- Absorption fails exactly if the block size is zero, ends inside a lane or exceeds the state, or
the suffix has more than six bits: from whatever state and for whatever message. The padding alone
fails exactly if the suffix has more than six bits, the rate is zero, ends inside a byte or exceeds
the state, or the message is shorter than its suffix or ends inside a byte before it. -/
theorem absorb_close_fail_iff :
    (∀ (s : State) (size : Nat) (suffix : Suffix) (message : List UInt8),
      (∃ e, s.absorb size suffix message = .error e) ↔
        size = 0 ∨ size % 8 ≠ 0 ∨ 200 < size ∨ 6 < suffix.width) ∧
    ∀ (suffix : Suffix) (messageBits rateBits : Nat),
      (∃ e, Padding.close suffix messageBits rateBits = .error e) ↔
        6 < suffix.width ∨ rateBits = 0 ∨ rateBits % 8 ≠ 0 ∨ 1600 < rateBits ∨
          messageBits < suffix.width ∨ (messageBits - suffix.width) % 8 ≠ 0 := by
  constructor
  · intro s size suffix message
    rw [Checked.exists_error_iff, State.exists_absorb_iff, not_blockSize_and_narrow_iff]
  · intro suffix messageBits rateBits
    rw [Checked.exists_error_iff, Padding.exists_close_iff, Padding.not_admissible_iff]

end Shake
