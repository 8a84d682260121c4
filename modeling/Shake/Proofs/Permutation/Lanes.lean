import Shake.Bits.Permutation
import Shake.Proofs.Bytes.Spelling

/-!
# Lanes as rows of bits

A lane is the row of bits over one column of one plane. Operations on lanes act on each bit by
itself, except for the turn, which moves every bit along the row. Two states with the same bits
are the same state.
-/

namespace Shake

/-- Bit `z` of a lane. -/
def Lane.bit (w : UInt64) (z : Fin 64) : Bool := w.toNat.testBit z.val

namespace Lane

@[simp] theorem bit_xor (v w : UInt64) (z : Fin 64) :
    bit (v ^^^ w) z = (bit v z ^^ bit w z) := by
  rw [bit, UInt64.toNat_xor, Nat.testBit_xor, bit, bit]

@[simp] theorem bit_and (v w : UInt64) (z : Fin 64) :
    bit (v &&& w) z = (bit v z && bit w z) := by
  rw [bit, UInt64.toNat_and, Nat.testBit_and, bit, bit]

@[simp] theorem bit_not (w : UInt64) (z : Fin 64) : bit (~~~ w) z = !bit w z := by
  rw [bit, ← UInt64.toNat_toBitVec, UInt64.toBitVec_not, BitVec.testBit_toNat, BitVec.getLsbD_not,
    decide_eq_true z.isLt, Bool.true_and, ← BitVec.testBit_toNat, UInt64.toNat_toBitVec, bit]

/-- Turning a lane by `n` places brings bit `z - n`, counted around the lane, to place `z`. -/
theorem bit_rotate (w : UInt64) {n : Nat} (hn : n < 64) (z : Fin 64) :
    bit (rotate w n) z = bit w (z - Fin.ofNat 64 n) := by
  have hz := z.isLt
  have hs : ∀ k, k ≤ 64 → (UInt64.ofNat k).toNat = k := fun k hk =>
    UInt64.toNat_ofNat_of_lt' (by simp only [UInt64.size]; omega)
  have hsub : (z - Fin.ofNat 64 n).val = (64 - n + z.val) % 64 := by
    rw [Fin.sub_def]
    simp only [Fin.val_ofNat, Nat.mod_eq_of_lt hn]
  rw [bit, bit, rotate, UInt64.toNat_or, Nat.testBit_or, UInt64.toNat_shiftLeft,
    UInt64.toNat_shiftRight, hs n (by omega), hs (64 - n) (by omega), Nat.testBit_mod_two_pow,
    Nat.testBit_shiftLeft, Nat.testBit_shiftRight, hsub, Nat.mod_eq_of_lt hn, decide_eq_true hz,
    Bool.true_and]
  -- below `n` only the bits that were pushed out come in, above it only those that stayed
  rcases Nat.eq_zero_or_pos n with rfl | hpos
  · rw [Nat.sub_zero, Nat.sub_zero, Nat.mod_self, Nat.zero_add, Nat.add_mod_left,
      Nat.mod_eq_of_lt hz, decide_eq_true (Nat.zero_le _), Bool.true_and, Bool.or_self]
  · rw [Nat.mod_eq_of_lt (by omega : 64 - n < 64)]
    by_cases hl : n ≤ z.val
    · have hout : w.toNat.testBit (64 - n + z.val) = false := testBit_lane_of_le w (by omega)
      rw [decide_eq_true hl, Bool.true_and, hout, Bool.or_false,
        show (64 - n + z.val) % 64 = z.val - n by omega]
    · rw [decide_eq_false hl, Bool.false_and, Bool.false_or,
        Nat.mod_eq_of_lt (by omega : 64 - n + z.val < 64)]

/-- Two lanes with the same bits are the same. -/
theorem ext_bit {v w : UInt64} (h : ∀ z, bit v z = bit w z) : v = w := by
  apply UInt64.toNat_inj.mp
  apply Nat.eq_of_testBit_eq
  intro i
  by_cases hi : i < 64
  · exact h ⟨i, hi⟩
  · rw [testBit_lane_of_le v (Nat.le_of_not_lt hi), testBit_lane_of_le w (Nat.le_of_not_lt hi)]

end Lane

namespace BitArray

/-- The bits over a column of a plane are those of its lane. -/
theorem ofState_apply (s : State) (x y : Fin 5) (z : Fin 64) :
    ofState s x y z = Lane.bit (s.lane x y) z := rfl

/-- The bits of a state determine it. -/
theorem ofState_inj {s t : State} : ofState s = ofState t ↔ s = t := by
  constructor
  · intro h
    apply State.ext_lane
    intro x y
    apply Lane.ext_bit
    intro z
    rw [← ofState_apply, h, ofState_apply]
  · exact congrArg ofState

end BitArray

end Shake
