import Mathlib.Order.Bounds.Defs
import Shake.Proofs.Bytes.BitStrings

/-!
# Suffix and padding, bit by bit

The padding bytes are determined by their bits: the suffix, a one behind it, and a one at the very
end. Suffix and both ones may meet in a single byte, so the bits are followed through the three
writes one at a time. Under `Admissible` arguments no write misses the array, and the bytes in use
are the suffix followed by the padding rule on bit strings.
-/

namespace Shake.Padding

/-- Arguments for which suffix and padding complete exactly one block. -/
structure Admissible (suffix : Suffix) (messageBits rateBits : Nat) : Prop where
  /-- The suffix leaves room for both ones in its byte. -/
  narrow : suffix.width ≤ 6
  /-- A block is whole bytes. -/
  whole : rateBits % 8 = 0
  /-- A block is not empty. -/
  pos : 0 < rateBits
  /-- A block is no longer than the state. -/
  bounded : rateBits ≤ 1600
  /-- The message ends with its suffix. -/
  suffixed : suffix.width ≤ messageBits
  /-- The message before the suffix is whole bytes. -/
  aligned : (messageBits - suffix.width) % 8 = 0

/-- Bit `i` of a byte array, counting from the least significant bit of byte 0. -/
def bitAt (bytes : Vector UInt8 200) (i : Nat) : Bool :=
  (bytes.toList.getD (i / 8) 0).toNat.testBit (i % 8)

/-- The bit that belongs to a byte in the array. -/
theorem bitAt_eq (bytes : Vector UInt8 200) {i : Nat} (hi : i / 8 < 200) :
    bitAt bytes i = bytes[i / 8].toNat.testBit (i % 8) := by
  rw [bitAt, List.getD_eq_getElem?_getD,
    List.getElem?_eq_getElem (by rw [Vector.length_toList]; exact hi), Option.getD_some,
    Vector.getElem_toList]

private theorem testBit_or_shift (b : UInt8) (k : Fin 8) (j : Fin 8) :
    (b ||| 1 <<< UInt8.ofNat k.val).toNat.testBit j.val = (b.toNat.testBit j.val || j = k) := by
  have hs : ∀ k j : Fin 8, (1 <<< UInt8.ofNat k.val : UInt8).toNat.testBit j.val =
      decide (j = k) := by decide
  rw [UInt8.toNat_or, Nat.testBit_or, hs]

/-- Setting a bit succeeds within the array and changes this bit only. -/
theorem exists_setBit (bytes : Vector UInt8 200) {i : Nat} (hi : i < 1600) :
    ∃ out, setBit bytes i = .ok out ∧ ∀ j, bitAt out j = (bitAt bytes j || j = i) := by
  have hb : i / 8 < 200 := by omega
  refine ⟨_, by rw [setBit, dif_pos hb], fun j => ?_⟩
  by_cases hj : j / 8 < 200
  · rw [bitAt_eq _ hj, bitAt_eq _ hj, Vector.getElem_set]
    split
    · have ht := testBit_or_shift bytes[i / 8] ⟨i % 8, by omega⟩ ⟨j % 8, by omega⟩
      have he : (j % 8 = i % 8) = (j = i) := by
        apply propext
        omega
      simp only [Fin.mk.injEq, he] at ht
      rw [ht]
      simp only [show i / 8 = j / 8 by omega]
    · rw [decide_eq_false (show ¬ j = i by omega), Bool.or_false]
  · have hn : ∀ v : Vector UInt8 200, bitAt v j = false := by
      intro v
      rw [bitAt, List.getD_eq_getElem?_getD,
        List.getElem?_eq_none (by rw [Vector.length_toList]; omega), Option.getD_none]
      exact Nat.zero_testBit _
    rw [hn, hn, decide_eq_false (show ¬ j = i by omega), Bool.or_false]

/-- The bits of the suffix byte that are kept. -/
theorem testBit_low {suffix : Suffix} (h : suffix.width ≤ 6) {i : Nat} (hi : i < 8) :
    suffix.low.toNat.testBit i = (decide (i < suffix.width) && suffix.byte.toNat.testBit i) := by
  have hm : ∀ w : Fin 7, ∀ j : Fin 8, (UInt8.ofNat (1 <<< w.val - 1)).toNat.testBit j.val =
      decide (j.val < w.val) := by decide
  rw [Suffix.low, UInt8.toNat_and, Nat.testBit_and, hm ⟨suffix.width, by omega⟩ ⟨i, hi⟩,
    Bool.and_comm]

/-- What suffix and padding look like: as many bits as complete the block, the suffix at their
start, a one behind it, and a one at their end. -/
structure Closes (p : Padding) (suffix : Suffix) (messageBits rateBits : Nat) : Prop where
  /-- The bits in use complete a block. -/
  bits : p.bits = rateBits - (messageBits - suffix.width) % rateBits
  /-- Every bit of the array is accounted for. -/
  bitAt : ∀ i, bitAt p.bytes i =
    (decide (i < suffix.width) && suffix.byte.toNat.testBit i || decide (i = suffix.width) ||
      decide (i = p.bits - 1))

/-- The bits in use are whole bytes, at least one of them and at most one block. -/
theorem Admissible.bits_bounds {suffix : Suffix} {messageBits rateBits : Nat}
    (h : Admissible suffix messageBits rateBits) :
    (rateBits - (messageBits - suffix.width) % rateBits) % 8 = 0 ∧
      8 ≤ rateBits - (messageBits - suffix.width) % rateBits ∧
      rateBits - (messageBits - suffix.width) % rateBits ≤ rateBits := by
  have hlt := Nat.mod_lt (messageBits - suffix.width) h.pos
  have hm : (messageBits - suffix.width) % rateBits % 8 = 0 := by
    rw [Nat.mod_mod_of_dvd _ (Nat.dvd_of_mod_eq_zero h.whole), h.aligned]
  have hw := h.whole
  omega

/-- Admissible arguments have a padding, and it closes the block. -/
theorem exists_close {suffix : Suffix} {messageBits rateBits : Nat}
    (h : Admissible suffix messageBits rateBits) :
    ∃ p, close suffix messageBits rateBits = .ok p ∧ Closes p suffix messageBits rateBits := by
  obtain ⟨-, hlo, hhi⟩ := h.bits_bounds
  have hr := h.bounded
  have hw := h.narrow
  obtain ⟨b₁, h₁, hb₁⟩ := exists_setBit ((Vector.replicate 200 0).set 0 suffix.low)
    (show suffix.width < 1600 by omega)
  obtain ⟨b₂, h₂, hb₂⟩ := exists_setBit b₁
    (show rateBits - (messageBits - suffix.width) % rateBits - 1 < 1600 by omega)
  refine ⟨⟨b₂, rateBits - (messageBits - suffix.width) % rateBits⟩, ?_, rfl, fun i => ?_⟩
  · rw [close, Checked.ensure_bind_of h.narrow, Checked.ensure_bind_of ⟨h.whole, h.bounded⟩,
      Checked.ensure_bind_of h.suffixed, Checked.ensure_bind_of h.aligned,
      Checked.ensure_bind_of h.pos]
    dsimp only
    rw [h₁, Checked.ok_bind, h₂, Checked.ok_bind]
    rfl
  · have h₀ : Padding.bitAt ((Vector.replicate 200 0).set 0 suffix.low) i =
        (decide (i < suffix.width) && suffix.byte.toNat.testBit i) := by
      by_cases hi : i < 8
      · rw [bitAt_eq _ (by omega), Vector.getElem_set, if_pos (by omega),
          testBit_low h.narrow (Nat.mod_lt i (by decide)), Nat.mod_eq_of_lt hi]
      · rw [decide_eq_false (show ¬ i < suffix.width by omega), Bool.false_and]
        by_cases hj : i / 8 < 200
        · rw [bitAt_eq _ hj, Vector.getElem_set, if_neg (by omega), Vector.getElem_replicate]
          exact Nat.zero_testBit _
        · rw [Padding.bitAt, List.getD_eq_getElem?_getD,
            List.getElem?_eq_none (by rw [Vector.length_toList]; omega), Option.getD_none]
          exact Nat.zero_testBit _
    rw [hb₂, hb₁, h₀]

/-- Only admissible arguments have a padding. -/
theorem admissible_of_close {suffix : Suffix} {messageBits rateBits : Nat} {p : Padding}
    (h : close suffix messageBits rateBits = .ok p) : Admissible suffix messageBits rateBits := by
  rw [close] at h
  obtain ⟨_, hnarrow, h⟩ := Checked.exists_of_bind_eq_ok h
  obtain ⟨_, hrate, h⟩ := Checked.exists_of_bind_eq_ok h
  obtain ⟨_, hsuffixed, h⟩ := Checked.exists_of_bind_eq_ok h
  obtain ⟨_, haligned, h⟩ := Checked.exists_of_bind_eq_ok h
  obtain ⟨_, hpos, _⟩ := Checked.exists_of_bind_eq_ok h
  obtain ⟨hwhole, hbounded⟩ := Checked.ensure_eq_ok_iff.mp hrate
  exact ⟨Checked.ensure_eq_ok_iff.mp hnarrow, hwhole, Checked.ensure_eq_ok_iff.mp hpos, hbounded,
    Checked.ensure_eq_ok_iff.mp hsuffixed, Checked.ensure_eq_ok_iff.mp haligned⟩

/-- A padding closes the block of the arguments that it was made for. -/
theorem closes_of_close {suffix : Suffix} {messageBits rateBits : Nat} {p : Padding}
    (h : close suffix messageBits rateBits = .ok p) : Closes p suffix messageBits rateBits := by
  obtain ⟨q, hq, hc⟩ := exists_close (admissible_of_close h)
  rw [h] at hq
  obtain rfl := Except.ok.inj hq
  exact hc

/-- The padding rule asks for as many zeros as suffix and ones leave of the block. -/
theorem Admissible.emod_eq {suffix : Suffix} {messageBits rateBits : Nat}
    (h : Admissible suffix messageBits rateBits) :
    (-(messageBits : Int) - 2) % (rateBits : Int) =
      ((rateBits - (messageBits - suffix.width) % rateBits - suffix.width - 2 : Nat) : Int) := by
  obtain ⟨-, hlo, hhi⟩ := h.bits_bounds
  have hw := h.narrow
  have hs := h.suffixed
  have hd := Nat.div_add_mod (messageBits - suffix.width) rateBits
  have hlt := Nat.mod_lt (messageBits - suffix.width) h.pos
  have hz : -(messageBits : Int) - 2 =
      ((rateBits - (messageBits - suffix.width) % rateBits - suffix.width - 2 : Nat) : Int) +
        (rateBits : Int) * (-(((messageBits - suffix.width) / rateBits : Nat) : Int) - 1) := by
    have hc : (messageBits : Int) =
        (rateBits : Int) * (((messageBits - suffix.width) / rateBits : Nat) : Int) +
          (((messageBits - suffix.width) % rateBits : Nat) : Int) + (suffix.width : Int) := by
      rw [← Int.natCast_mul, ← Int.natCast_add, ← Int.natCast_add, hd]
      omega
    rw [Int.mul_sub, Int.mul_neg, Int.mul_one]
    omega
  rw [hz, Int.add_mul_emod_self_left, ← Int.natCast_emod]
  exact congrArg Nat.cast (Nat.mod_eq_of_lt (by omega))

/-- The zeros of the padding rule fill what suffix and ones leave of the block. -/
theorem Admissible.pad_eq {suffix : Suffix} {messageBits rateBits : Nat}
    (h : Admissible suffix messageBits rateBits) :
    Bits.pad rateBits messageBits = true ::
      (List.replicate (rateBits - (messageBits - suffix.width) % rateBits - suffix.width - 2) false
        ++ [true]) := by
  rw [Bits.pad, h.emod_eq, Int.toNat_natCast]

/-- Suffix and padding reach to the first end of a block behind the message. -/
theorem Admissible.isLeast {suffix : Suffix} {messageBits rateBits : Nat}
    (h : Admissible suffix messageBits rateBits) :
    IsLeast {n | rateBits ∣ n ∧ messageBits - suffix.width < n}
      (messageBits - suffix.width +
        (rateBits - (messageBits - suffix.width) % rateBits)) := by
  have hlt := Nat.mod_lt (messageBits - suffix.width) h.pos
  have hd := Nat.div_add_mod (messageBits - suffix.width) rateBits
  have hend : messageBits - suffix.width + (rateBits - (messageBits - suffix.width) % rateBits) =
      rateBits * ((messageBits - suffix.width) / rateBits + 1) := by
    rw [Nat.mul_succ]
    omega
  constructor
  · exact ⟨⟨_, hend⟩, by omega⟩
  · rintro n ⟨⟨k, rfl⟩, hn⟩
    rw [hend]
    exact Nat.mul_le_mul_left rateBits (Nat.div_lt_of_lt_mul hn)

theorem length_toBytes {p : Padding} (h : p.bits ≤ 1600) : p.toBytes.length = p.bits / 8 := by
  rw [toBytes, List.length_take, Vector.length_toList]
  omega

/-- The bytes in use complete the last block of the message. -/
theorem Closes.length_eq {p : Padding} {suffix : Suffix} {length size : Nat}
    (hc : Closes p suffix (8 * length + suffix.width) (8 * size)) (hs : size ≤ 200) :
    p.toBytes.length = size - length % size := by
  have hb := hc.bits
  rw [Nat.add_sub_cancel, Nat.mul_mod_mul_left, ← Nat.mul_sub] at hb
  rw [length_toBytes (by omega), hb, Nat.mul_div_cancel_left _ (Nat.zero_lt_succ 7)]

/-- The bits in use are whole bytes, at least one of them and at most one block. -/
theorem Closes.bits_bounds {p : Padding} {suffix : Suffix} {messageBits rateBits : Nat}
    (hc : Closes p suffix messageBits rateBits) (h : Admissible suffix messageBits rateBits) :
    p.bits % 8 = 0 ∧ 8 ≤ p.bits ∧ p.bits ≤ rateBits := by
  rw [hc.bits]
  exact h.bits_bounds

/-- The bytes in use spell the suffix, a one, zeros, and a last one. -/
theorem Closes.ofBytes_eq {p : Padding} {suffix : Suffix} {messageBits rateBits : Nat}
    (hc : Closes p suffix messageBits rateBits) (h : Admissible suffix messageBits rateBits) :
    Bits.ofBytes p.toBytes = Bits.ofSuffix suffix ++
      true :: (List.replicate (p.bits - suffix.width - 2) false ++ [true]) := by
  obtain ⟨h8, hlo, hhi⟩ := hc.bits_bounds h
  have hr := h.bounded
  have hw := h.narrow
  have hl : p.toBytes.length = p.bits / 8 := length_toBytes (by omega)
  have hs := Bits.length_ofSuffix suffix
  apply List.ext_getElem
  · simp only [Bits.length_ofBytes, List.length_append, List.length_cons, List.length_replicate,
      List.length_nil, hl, hs]
    omega
  · intro i hi hj
    rw [Bits.length_ofBytes, hl] at hi
    have hb : (Bits.ofBytes p.toBytes)[i] = Padding.bitAt p.bytes i := by
      rw [Bits.getElem_ofBytes _ _ (by omega), bitAt_eq _ (by omega)]
      simp only [toBytes, List.getElem_take, Vector.getElem_toList]
    rw [hb, hc.bitAt]
    -- the four zones of the string: suffix, first one, zeros, last one
    by_cases h₁ : i < suffix.width
    · rw [List.getElem_append_left (by rw [hs]; exact h₁)]
      simp only [Bits.ofSuffix, Bits.getElem_lowest, h₁, show ¬ i = suffix.width by omega,
        show ¬ i = p.bits - 1 by omega, decide_true, decide_false, Bool.true_and, Bool.or_false]
    · rw [List.getElem_append_right (by rw [hs]; omega)]
      simp only [hs, h₁, decide_false, Bool.false_and, Bool.false_or]
      by_cases h₂ : i = suffix.width
      · simp only [h₂, Nat.sub_self, List.getElem_cons_zero, decide_true, Bool.true_or]
      · rw [List.getElem_cons, dif_neg (by omega)]
        by_cases h₃ : i = p.bits - 1
        · rw [List.getElem_append_right (by rw [List.length_replicate]; omega),
            List.getElem_singleton]
          simp only [h₃, decide_true, Bool.or_true]
        · rw [List.getElem_append_left (by rw [List.length_replicate]; omega),
            List.getElem_replicate]
          simp only [h₂, h₃, decide_false, Bool.or_false]

/-- The bytes in use spell the suffix and the padding rule. -/
theorem Closes.ofBytes_toBytes {p : Padding} {suffix : Suffix} {messageBits rateBits : Nat}
    (hc : Closes p suffix messageBits rateBits) (h : Admissible suffix messageBits rateBits) :
    Bits.ofBytes p.toBytes = Bits.ofSuffix suffix ++ Bits.pad rateBits messageBits := by
  rw [hc.ofBytes_eq h, h.pad_eq, hc.bits]

/-- Behind the bytes in use the array holds zeros. -/
theorem Closes.toList_bytes {p : Padding} {suffix : Suffix} {messageBits rateBits : Nat}
    (hc : Closes p suffix messageBits rateBits) (h : Admissible suffix messageBits rateBits) :
    p.bytes.toList = p.toBytes ++ List.replicate (200 - p.toBytes.length) 0 := by
  obtain ⟨h8, hlo, hhi⟩ := hc.bits_bounds h
  have hr := h.bounded
  have hw := h.narrow
  have hl : p.toBytes.length = p.bits / 8 := length_toBytes (by omega)
  have hdrop : p.bytes.toList.drop (p.bits / 8) = List.replicate (200 - p.bits / 8) 0 := by
    apply List.ext_getElem
    · simp only [List.length_drop, Vector.length_toList, List.length_replicate]
    · intro i hi _
      simp only [List.length_drop, Vector.length_toList] at hi
      apply Lane.byte_ext
      intro j hj
      -- bit `j` of this byte lies behind the last one, where nothing is set
      have hb := hc.bitAt (8 * (p.bits / 8 + i) + j)
      rw [bitAt_eq _ (by omega)] at hb
      simp only [show (8 * (p.bits / 8 + i) + j) / 8 = p.bits / 8 + i by omega,
        show (8 * (p.bits / 8 + i) + j) % 8 = j by omega,
        show ¬ 8 * (p.bits / 8 + i) + j < suffix.width by omega,
        show ¬ 8 * (p.bits / 8 + i) + j = suffix.width by omega,
        show ¬ 8 * (p.bits / 8 + i) + j = p.bits - 1 by omega] at hb
      simp [hb]
  rw [hl, ← hdrop, toBytes, List.take_append_drop]

/-- Suffix and padding bring every message of whole bytes to whole blocks. -/
theorem admissible_of_bytes {suffix : Suffix} (hw : suffix.width ≤ 6) (length : Nat) {size : Nat}
    (hpos : 0 < size) (hs : size ≤ 200) :
    Admissible suffix (8 * length + suffix.width) (8 * size) where
  narrow := hw
  whole := Nat.mul_mod_right 8 size
  pos := by omega
  bounded := by omega
  suffixed := Nat.le_add_left ..
  aligned := by rw [Nat.add_sub_cancel, Nat.mul_mod_right]

/-- Admissible arguments have a padding. Its bytes in use spell the suffix, a one, as many zeros as
the padding rule asks for, and a last one; its length counts these bits, which are whole bytes, at
least one of them and at most a block. Laid behind the message, they reach exactly to the first end
of a block beyond it. The rest of the array is zero. -/
theorem close_completes_block {suffix : Suffix} {messageBits rateBits : Nat}
    (h : Admissible suffix messageBits rateBits) :
    ∃ (p : Padding) (zeros : Nat), close suffix messageBits rateBits = .ok p ∧
      (zeros : Int) = (-(messageBits : Int) - 2) % (rateBits : Int) ∧
      Bits.ofBytes p.toBytes =
        Bits.ofSuffix suffix ++ true :: (List.replicate zeros false ++ [true]) ∧
      p.bits = suffix.width + 2 + zeros ∧ p.bits = 8 * p.toBytes.length ∧
      8 ≤ p.bits ∧ p.bits ≤ rateBits ∧
      IsLeast {n | rateBits ∣ n ∧ messageBits - suffix.width < n}
        (messageBits - suffix.width + p.bits) ∧
      p.bytes.toList = p.toBytes ++ List.replicate (200 - p.toBytes.length) 0 := by
  obtain ⟨p, hclose, hc⟩ := exists_close h
  obtain ⟨h8, hlo, hhi⟩ := hc.bits_bounds h
  have hr := h.bounded
  have hw := h.narrow
  have hlength : p.toBytes.length = p.bits / 8 := length_toBytes (by omega)
  have hleast := h.isLeast
  have hzeros := h.emod_eq
  rw [← hc.bits] at hleast hzeros
  refine ⟨p, p.bits - suffix.width - 2, hclose, hzeros.symm, hc.ofBytes_eq h, by omega, ?_, hlo,
    hhi, hleast, hc.toList_bytes h⟩
  rw [hlength]
  omega

/-- The longest message that can be counted, with the longest suffix. -/
theorem close_completes_block_atBound :
    Admissible ⟨0xff, 6⟩ (counterBound - 2) rate ∧
      ∃ p, close ⟨0xff, 6⟩ (counterBound - 2) rate = .ok p ∧ p.bits = 840 ∧
        Bits.ofBytes p.toBytes = List.replicate 7 true ++ (List.replicate 832 false ++ [true]) ∧
        rate ∣ counterBound - 8 + 840 := by
  have h : Admissible ⟨0xff, 6⟩ (counterBound - 2) rate :=
    ⟨by decide, rfl, by decide, by decide, by decide, rfl⟩
  obtain ⟨p, zeros, hclose, hzeros, hbits, hlength, _, _, _, hleast, _⟩ := close_completes_block h
  obtain rfl : zeros = 832 := Int.ofNat.inj (hzeros.trans (by decide))
  rw [hlength] at hleast
  exact ⟨h, p, hclose, hlength, hbits, hleast.1.1⟩

end Shake.Padding
