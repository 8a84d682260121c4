import Shake.State.Absorption
import Shake.Squeezer.Stream
import Shake.Proofs.Bytes.BitStrings

/-!
# Adding a block to the state

The checked addition of a block is the total function `State.add` wherever it succeeds. Seen as
bytes it adds the block to the leading bytes and leaves the others alone; seen as bits, with the
permutation behind it (`State.mix`), it is one absorption step of the sponge on bit strings.
-/

namespace Shake.State

/-- The state with a block added to its leading bytes. -/
def add (s : State) (block : List UInt8) : State :=
  ⟨s.lanes.mapIdx fun i w => w ^^^ (Lane.words (block.length / laneBytes) block).getD i 0⟩

/-- The state after a block has been added and permuted. -/
def mix (s : State) (block : List UInt8) : State := (s.add block).permute

/-- A block that can be added to the state. -/
structure Fits (block : List UInt8) : Prop where
  /-- The block ends with a lane. -/
  whole : block.length % 8 = 0
  /-- The block is no longer than the state. -/
  bounded : block.length ≤ 200

@[simp] theorem length_bytes (s : State) : s.bytes.length = 200 := by
  simp only [bytes_eq_spell, Lane.length_spell, Vector.length_toList, laneBytes, Nat.reduceMul]

/-- A state has the bits of its bytes. -/
theorem toBits_eq_ofBytes (s : State) : s.toBits = Bits.ofBytes s.bytes := by
  rw [bytes_eq_spell, Bits.ofBytes_spell, toBits]

/-- A window within the state shows a piece of its bytes. -/
theorem extract_eq_take_drop (s : State) {offset : Nat} {dest : List UInt8}
    (h : offset + dest.length ≤ stateBytes) :
    s.extract offset dest = .ok ((s.bytes.drop offset).take dest.length) := by
  have hl : 8 * s.lanes.toList.length = stateBytes := by rw [Vector.length_toList]
  rw [extract, Lane.extract_eq, hl, if_pos h, bytes_eq_spell]

@[simp] theorem length_toBits (s : State) : s.toBits.length = 1600 := by
  rw [toBits_eq_ofBytes, Bits.length_ofBytes, length_bytes]

/-- The zero state is the string of zeros. -/
theorem toBits_zero : zero.toBits = List.replicate 1600 false := by
  rw [toBits_eq_ofBytes, bytes_eq_spell, zero, Vector.toList_replicate, Lane.spell_replicate_zero,
    Bits.ofBytes_replicate_zero]

/-- Lanes that are missing at the end count as zero. -/
theorem toList_mapIdx_xor (v : Vector UInt64 25) (words : List UInt64) (h : words.length ≤ 25) :
    (v.mapIdx fun i w => w ^^^ words.getD i 0).toList =
      List.zipWith (· ^^^ ·) v.toList (words ++ List.replicate (25 - words.length) 0) := by
  apply List.ext_getElem
  · simp only [Vector.length_toList, List.length_zipWith, List.length_append,
      List.length_replicate]
    omega
  · intro i hi hj
    rw [Vector.length_toList] at hi
    simp only [Vector.getElem_toList, Vector.getElem_mapIdx, List.getElem_zipWith]
    congr 1
    by_cases hw : i < words.length
    · rw [List.getElem_append_left hw, List.getD_eq_getElem?_getD, List.getElem?_eq_getElem hw,
        Option.getD_some]
    · rw [List.getElem_append_right (Nat.le_of_not_lt hw), List.getElem_replicate,
        List.getD_eq_getElem?_getD, List.getElem?_eq_none (Nat.le_of_not_lt hw), Option.getD_none]

/-- Adding a block adds it, with zeros behind it, to the bytes of the state. -/
theorem bytes_add (s : State) {block : List UInt8} (h : Fits block) :
    (s.add block).bytes =
      List.zipWith (· ^^^ ·) s.bytes (block ++ List.replicate (200 - block.length) 0) := by
  obtain ⟨h8, hl⟩ := h
  have hw : (Lane.words (block.length / laneBytes) block).length ≤ 25 := by
    simp only [Lane.length_words, laneBytes]
    omega
  have hb : block.length = 8 * (block.length / laneBytes) := by
    simp only [laneBytes]
    omega
  rw [bytes_eq_spell, add, toList_mapIdx_xor _ _ hw, Lane.spell_xor, Lane.spell_append,
    Lane.spell_words _ hb, Lane.spell_replicate_zero, Lane.length_words, bytes_eq_spell]
  · congr 3
    simp only [laneBytes]
    omega
  · simp only [Vector.length_toList, List.length_append, List.length_replicate]
    omega

/-- Adding a block adds it, with zeros behind it, to the bits of the state. -/
theorem toBits_add (s : State) {block : List UInt8} (h : Fits block) :
    (s.add block).toBits = Bits.add s.toBits
      (Bits.ofBytes block ++
        List.replicate (s.toBits.length - (Bits.ofBytes block).length) false) := by
  rw [toBits_eq_ofBytes, bytes_add s h, Bits.ofBytes_xor, Bits.ofBytes_append,
    Bits.ofBytes_replicate_zero, ← toBits_eq_ofBytes, length_toBits, Bits.length_ofBytes,
    Nat.mul_sub]

/-- Adding a block twice takes it away again. -/
theorem add_add (s : State) (block : List UInt8) : (s.add block).add block = s := by
  apply State.ext
  apply Vector.ext
  intro i hi
  simp only [add, Vector.getElem_mapIdx]
  rw [UInt64.xor_assoc, UInt64.xor_self, UInt64.xor_zero]

/-- Blocks of one length that lead from one state to the same state are the same. -/
theorem eq_of_add_eq {s : State} {xs ys : List UInt8} (hx : Fits xs) (hl : xs.length = ys.length)
    (h : s.add xs = s.add ys) : xs = ys := by
  have hb := congrArg bytes h
  rw [bytes_add s hx, bytes_add s ⟨hl ▸ hx.whole, hl ▸ hx.bounded⟩] at hb
  apply List.ext_getElem hl
  intro i hi hj
  have hs : i < s.bytes.length := by
    have := hx.bounded
    rw [length_bytes]
    omega
  have hi' := congrArg (fun l : List UInt8 => l[i]?) hb
  simp only [List.getElem?_zipWith, List.getElem?_append_left hi, List.getElem?_append_left hj,
    List.getElem?_eq_getElem hi, List.getElem?_eq_getElem hj, List.getElem?_eq_getElem hs,
    Option.some.injEq] at hi'
  exact (UInt8.xor_right_inj _).mp hi'

/-- Adding a block and permuting is one absorption step on bits. -/
theorem toBits_mix (s : State) {block : List UInt8} (h : Fits block) :
    (s.mix block).toBits = Bits.absorbBlock Bits.permute s.toBits (Bits.ofBytes block) := by
  rw [mix, ← permute_toBits, toBits_add s h, Bits.absorbBlock]

/-- At most as many lanes as the state has can be added. -/
theorem xorLanes_eq (s : State) (words : List UInt64) :
    s.xorLanes words =
      if words.length ≤ 25 then .ok ⟨s.lanes.mapIdx fun i w => w ^^^ words.getD i 0⟩
      else .error .tooManyLanes := by
  by_cases h : words.length ≤ 25
  · rw [xorLanes, Checked.ensure_bind_of h, if_pos h]
    rfl
  · rw [xorLanes, Checked.ensure_bind_of_not h, if_neg h]

/-- The words that a block spells, added to the leading lanes, add the block. -/
theorem load_bind_xorLanes (s : State) {block : List UInt8} (h : Fits block) {dest : List UInt64}
    (hd : dest.length = block.length / laneBytes) :
    (Lane.load block dest >>= s.xorLanes) = .ok (s.add block) := by
  obtain ⟨h8, hl⟩ := h
  have hb : block.length = 8 * dest.length := by
    simp only [hd, laneBytes]
    omega
  have hw : (Lane.words (block.length / laneBytes) block).length ≤ 25 := by
    simp only [Lane.length_words, laneBytes]
    omega
  rw [Lane.load_eq, if_pos hb, Checked.ok_bind, hd, xorLanes_eq, if_pos hw, add]

/-- A block that fits can be added. -/
theorem xorBlock_eq (s : State) {block : List UInt8} (h : Fits block) :
    s.xorBlock block = .ok (s.add block) := by
  rw [xorBlock, Checked.ensure_bind_of ⟨h.whole, h.bounded⟩]
  exact load_bind_xorLanes s h List.length_replicate

/-- Only blocks that fit can be added. -/
theorem fits_of_xorBlock {s t : State} {block : List UInt8} (h : s.xorBlock block = .ok t) :
    Fits block := by
  rw [xorBlock] at h
  obtain ⟨_, hlength, _⟩ := Checked.exists_of_bind_eq_ok h
  obtain ⟨hwhole, hbounded⟩ := Checked.ensure_eq_ok_iff.mp hlength
  exact ⟨hwhole, hbounded⟩

/-- A block that fits can be absorbed. -/
theorem absorbBlock_eq (s : State) {block : List UInt8} (h : Fits block) :
    s.absorbBlock block = .ok (s.mix block) := by
  rw [absorbBlock, xorBlock_eq s h]
  rfl

end Shake.State
