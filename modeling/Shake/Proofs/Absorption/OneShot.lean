import Shake.Proofs.Absorption.Padding
import Shake.Proofs.Bytes.Blocks

/-!
# Absorption of a whole message

A message with its suffix and padding is a string of whole blocks, and absorbing it is one fold of
`State.mix` over them, from any state and for any block size that the state allows. Read on bits,
this is the absorbing phase of the sponge construction.
-/

namespace Shake

/-- A number of bytes that the state can take in at a time. -/
structure BlockSize (size : Nat) : Prop where
  /-- A block is whole lanes. -/
  whole : size % 8 = 0
  /-- A block is not empty. -/
  pos : 0 < size
  /-- A block is no longer than the state. -/
  bounded : size ≤ 200

/-- The blocks of SHAKE256 can be taken in. -/
theorem blockSize_rateBytes : BlockSize rateBytes := ⟨rfl, by decide, by decide⟩

/-- The first `n` blocks of `size` bytes. -/
def blocks (size n : Nat) (bytes : List UInt8) : List (List UInt8) :=
  (List.range n).map fun i => (bytes.drop (size * i)).take size

@[simp] theorem blocks_zero (size : Nat) (bytes : List UInt8) : blocks size 0 bytes = [] := rfl

/-- The first block comes before the blocks of the rest. -/
theorem blocks_succ (size n : Nat) (bytes : List UInt8) :
    blocks size (n + 1) bytes = bytes.take size :: blocks size n (bytes.drop size) := by
  rw [blocks, List.range_succ_eq_map, List.map_cons, List.map_map, Nat.mul_zero, List.drop_zero,
    blocks]
  congr 1
  apply List.map_congr_left
  intro i _
  simp only [Function.comp_apply, List.drop_drop, Nat.mul_succ, Nat.add_comm size]

/-- The last block comes behind the blocks before it. -/
theorem blocks_succ_last (size n : Nat) (bytes : List UInt8) :
    blocks size (n + 1) bytes = blocks size n bytes ++ [(bytes.drop (size * n)).take size] := by
  rw [blocks, List.range_succ, List.map_append, List.map_singleton, blocks]

/-- Bytes behind the first `n` blocks do not count for them. -/
theorem blocks_append {size n : Nat} {bytes : List UInt8} (h : size * n ≤ bytes.length)
    (tail : List UInt8) : blocks size n (bytes ++ tail) = blocks size n bytes := by
  apply List.map_congr_left
  intro i hi
  have hn : size * i + size ≤ size * n := by
    rw [← Nat.mul_succ]
    exact Nat.mul_le_mul_left size (List.mem_range.mp hi)
  rw [List.drop_append_of_le_length (by omega),
    List.take_append_of_le_length (by rw [List.length_drop]; omega)]

/-- Every block is full. -/
theorem length_of_mem_blocks {size n : Nat} {bytes : List UInt8} (h : size * n ≤ bytes.length)
    {block : List UInt8} (hb : block ∈ blocks size n bytes) : block.length = size := by
  obtain ⟨i, hi, rfl⟩ := List.mem_map.mp hb
  have hn : size * i + size ≤ size * n := by
    rw [← Nat.mul_succ]
    exact Nat.mul_le_mul_left size (List.mem_range.mp hi)
  rw [List.length_take, List.length_drop]
  omega

/-- Cutting the bits of a byte string gives the bits of its blocks. -/
theorem blocks_ofBytes (size : Nat) (bytes : List UInt8) :
    Bits.blocks (8 * size) (Bits.ofBytes bytes) =
      (blocks size (bytes.length / size) bytes).map Bits.ofBytes := by
  rw [Bits.blocks, Bits.length_ofBytes, Nat.mul_div_mul_left _ _ (by decide), blocks, List.map_map]
  apply List.map_congr_left
  intro i _
  rw [Bits.slice, Function.comp_apply, Bits.ofBytes_take, Bits.ofBytes_drop, Nat.mul_assoc]

namespace State

/-- Full blocks of a legal size can be added. -/
theorem fits_of_length {size : Nat} (hs : BlockSize size) {block : List UInt8}
    (h : block.length = size) : Fits block :=
  ⟨by rw [h]; exact hs.whole, by rw [h]; exact hs.bounded⟩

/-- Absorbing the full blocks of a message mixes them in one after the other. -/
theorem absorbBlocks_eq {size : Nat} (hs : BlockSize size) (n : Nat) (s : State)
    {message : List UInt8} (h : size * n ≤ message.length) :
    absorbBlocks size n s message =
      .ok ((blocks size n message).foldl mix s, message.drop (size * n)) := by
  induction n generalizing s message with
  | zero => rw [absorbBlocks, blocks_zero, List.foldl_nil, Nat.mul_zero, List.drop_zero]
  | succ n ih =>
    rw [Nat.mul_succ] at h
    have ht : (message.take size).length = size := List.length_take_of_le (by omega)
    rw [absorbBlocks, absorbBlock_eq s (fits_of_length hs ht), Checked.ok_bind,
      ih (s.mix (message.take size)) (by rw [List.length_drop]; omega), blocks_succ,
      List.foldl_cons, List.drop_drop, Nat.mul_succ, Nat.add_comm size]

/-- A message and the padding that closes it are whole blocks. -/
theorem length_padded {size : Nat} (hs : BlockSize size) {suffix : Suffix}
    {message : List UInt8} {p : Padding}
    (hp : p.Closes suffix (8 * message.length + suffix.width) (8 * size)) :
    (message ++ p.toBytes).length = size * (message.length / size + 1) := by
  have hd := Nat.div_add_mod message.length size
  have hlt := Nat.mod_lt message.length hs.pos
  rw [List.length_append, hp.length_eq hs.bounded, Nat.mul_succ]
  omega

/-- The rest of the message behind its full blocks makes the last block with the padding. -/
theorem length_last {size : Nat} (hs : BlockSize size) {suffix : Suffix} {message : List UInt8}
    {p : Padding} (hp : p.Closes suffix (8 * message.length + suffix.width) (8 * size)) :
    (message.drop (size * (message.length / size)) ++ p.toBytes).length = size := by
  rw [← List.drop_append_of_le_length (Nat.mul_div_le ..), List.length_drop, length_padded hs hp,
    Nat.mul_succ, Nat.add_sub_cancel_left]

/-- The padding adds one block to the full blocks of the message. -/
theorem blocks_padded {size : Nat} (hs : BlockSize size) {suffix : Suffix} {message : List UInt8}
    {p : Padding} (hp : p.Closes suffix (8 * message.length + suffix.width) (8 * size)) :
    blocks size (message.length / size + 1) (message ++ p.toBytes) =
      blocks size (message.length / size) message ++
        [message.drop (size * (message.length / size)) ++ p.toBytes] := by
  have hm : size * (message.length / size) ≤ message.length := Nat.mul_div_le ..
  rw [blocks_succ_last, blocks_append hm, List.drop_append_of_le_length hm,
    List.take_of_length_le (Nat.le_of_eq (length_last hs hp))]

/-- Absorbing a message mixes in all blocks of the message and its padding. -/
theorem absorb_eq {size : Nat} (hs : BlockSize size) (s : State) {suffix : Suffix}
    {message : List UInt8} {p : Padding}
    (hc : Padding.close suffix (8 * message.length + suffix.width) (8 * size) = .ok p)
    (hp : p.Closes suffix (8 * message.length + suffix.width) (8 * size)) :
    s.absorb size suffix message =
      .ok ((blocks size (message.length / size + 1) (message ++ p.toBytes)).foldl mix s) := by
  rw [absorb, Checked.ensure_bind_of hs.pos, absorbBlocks_eq hs _ s (Nat.mul_div_le ..),
    Checked.ok_bind]
  dsimp only
  rw [hc, Checked.ok_bind, absorbBlock_eq _ (fits_of_length hs (length_last hs hp)),
    blocks_padded hs hp, List.foldl_append, List.foldl_cons, List.foldl_nil]

/-- Mixing in full blocks is absorption on bits. -/
theorem toBits_foldl_mix (bs : List (List UInt8)) (hb : ∀ block ∈ bs, Fits block) (s : State) :
    (bs.foldl mix s).toBits =
      (bs.map Bits.ofBytes).foldl (Bits.absorbBlock Bits.permute) s.toBits := by
  induction bs generalizing s with
  | nil => rfl
  | cons block bs ih =>
    rw [List.foldl_cons, List.map_cons, List.foldl_cons,
      ih (fun b h => hb b (List.mem_cons_of_mem _ h)), toBits_mix s (hb block List.mem_cons_self)]

/-- Absorption succeeds from every state for every legal block size and suffix, and is the
absorbing phase of the sponge on the message, its suffix and its padding. -/
theorem exists_absorb {size : Nat} (hs : BlockSize size) (s : State) {suffix : Suffix}
    (hw : suffix.width ≤ 6) (message : List UInt8) :
    ∃ t, s.absorb size suffix message = .ok t ∧
      t.toBits = Bits.absorb Bits.permute (8 * size) s.toBits
        (Bits.ofBytes message ++ Bits.ofSuffix suffix ++
          Bits.pad (8 * size) (8 * message.length + suffix.width)) := by
  have ha := Padding.admissible_of_bytes hw message.length hs.pos hs.bounded
  obtain ⟨p, hc, hp⟩ := Padding.exists_close ha
  have hl := length_padded hs hp
  refine ⟨_, absorb_eq hs s hc hp, ?_⟩
  rw [toBits_foldl_mix _ (fun block hb => fits_of_length hs
      (length_of_mem_blocks (Nat.le_of_eq hl.symm) hb)),
    Bits.absorb, List.append_assoc, ← hp.ofBytes_toBytes ha, ← Bits.ofBytes_append,
    blocks_ofBytes, hl, Nat.mul_div_cancel_left _ hs.pos]

end State

end Shake
