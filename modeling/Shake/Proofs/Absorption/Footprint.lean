import Mathlib.Data.List.GetD
import Shake.Proofs.Absorption.Pending

/-!
# The footprint of a block

A block that is added to the state changes the bytes in front, each by its own byte of the block,
and none behind: output, which is shifted out of the lanes byte by byte, shows the state changed in
just the places where input, assembled into words, was added. So it makes no difference whether a
block is added as bytes or as the words that it spells, two blocks add up to their sum, and a block
that is added again is gone.
-/

namespace Shake.State

/-- Every window over byte `i` of the state shows it as `b`. -/
def Shows (s : State) (i : Nat) (b : UInt8) : Prop :=
  ∀ (offset : Nat) (dest : List UInt8), offset ≤ i → i < offset + dest.length →
    offset + dest.length ≤ stateBytes →
    ∃ bytes, s.extract offset dest = .ok bytes ∧ bytes.length = dest.length ∧
      bytes[i - offset]? = some b

/-- The sum of two blocks, for which zeros are put behind the shorter one. -/
def blockSum (longer shorter : List UInt8) : List UInt8 :=
  List.zipWith (· ^^^ ·) longer
    (shorter ++ List.replicate (longer.length - shorter.length) 0)

/-- What the windows show is what the lanes spell. -/
theorem shows_iff (s : State) {i : Nat} {b : UInt8} (hi : i < stateBytes) :
    s.Shows i b ↔ s.bytes[i]? = some b := by
  constructor
  · intro h
    obtain ⟨bytes, hbytes, -, hb⟩ := h i [0] (Nat.le_refl i) (Nat.lt_succ_self i) hi
    rw [extract_eq_take_drop s hi] at hbytes
    rw [← Except.ok.inj hbytes, Nat.sub_self, List.getElem?_take_of_lt (by decide),
      List.getElem?_drop, Nat.add_zero] at hb
    exact hb
  · intro h offset dest ho hd hw
    refine ⟨_, extract_eq_take_drop s hw, ?_, ?_⟩
    · rw [List.length_take, List.length_drop, length_bytes]
      exact Nat.min_eq_left (Nat.le_sub_of_add_le' hw)
    · rw [List.getElem?_take_of_lt (Nat.sub_lt_left_of_lt_add ho hd), List.getElem?_drop,
        Nat.add_sub_of_le ho, h]

/-- Every byte of the state is shown by the windows over it. -/
theorem exists_shows (s : State) {i : Nat} (hi : i < stateBytes) : ∃ b, s.Shows i b := by
  have hs : i < s.bytes.length := by rw [length_bytes]; exact hi
  exact ⟨s.bytes[i], (s.shows_iff hi).mpr (List.getElem?_eq_getElem hs)⟩

/-- States with the same bytes are the same. -/
theorem bytes_injective : Function.Injective bytes := by
  intro s t h
  rw [← ofBits_toBits s, ← ofBits_toBits t, toBits_eq_ofBytes, toBits_eq_ofBytes, h]

/-- Zeros behind a block read like the bytes that it lacks. -/
theorem getElem?_append_zeros (block : List UInt8) {n i : Nat} (hi : i < block.length + n) :
    (block ++ List.replicate n 0)[i]? = some (block.getD i 0) := by
  by_cases hb : i < block.length
  · rw [List.getElem?_append_left hb, List.getElem?_eq_getElem hb, List.getD_eq_getElem _ _ hb]
  · have hz : i - block.length < n := by omega
    rw [List.getElem?_append_right (Nat.le_of_not_lt hb), List.getElem?_replicate, if_pos hz,
      List.getD_eq_default _ _ (Nat.le_of_not_lt hb)]

/-- Adding a block changes the bytes that it reaches, each by its own byte, and no other. -/
theorem getElem?_bytes_add (s : State) {block : List UInt8} (h : Fits block) (i : Nat) :
    (s.add block).bytes[i]? = s.bytes[i]?.map (· ^^^ block.getD i 0) := by
  rw [bytes_add s h, List.getElem?_zipWith]
  by_cases hi : i < s.bytes.length
  · have hb : i < block.length + (200 - block.length) := by
      have := h.bounded
      rw [length_bytes] at hi
      omega
    rw [List.getElem?_eq_getElem hi, getElem?_append_zeros block hb, Option.map_some]
  · rw [List.getElem?_eq_none (Nat.le_of_not_lt hi), Option.map_none]

/-- Adding a block shows in the bytes that it reaches, and in no other. -/
theorem Shows.add {s : State} {i : Nat} {b : UInt8} (hb : s.Shows i b) {block : List UInt8}
    (h : Fits block) (hi : i < stateBytes) :
    (s.add block).Shows i (if hl : i < block.length then b ^^^ block[i] else b) := by
  rw [shows_iff _ hi] at hb ⊢
  rw [getElem?_bytes_add s h, hb, Option.map_some, Option.some.injEq]
  split
  · next hl => rw [List.getD_eq_getElem _ _ hl]
  · next hl => rw [List.getD_eq_default _ _ (Nat.le_of_not_lt hl), UInt8.xor_zero]

@[simp] theorem length_blockSum {longer shorter : List UInt8}
    (h : shorter.length ≤ longer.length) : (blockSum longer shorter).length = longer.length := by
  rw [blockSum, List.length_zipWith, List.length_append, List.length_replicate,
    Nat.add_sub_of_le h, Nat.min_self]

/-- Every byte of a sum is the sum of the bytes there. -/
theorem getD_blockSum {longer shorter : List UInt8} (h : shorter.length ≤ longer.length) (i : Nat) :
    (blockSum longer shorter).getD i 0 = longer.getD i 0 ^^^ shorter.getD i 0 := by
  by_cases hi : i < longer.length
  · have hs : i < shorter.length + (longer.length - shorter.length) := by omega
    rw [List.getD_eq_getElem?_getD, blockSum, List.getElem?_zipWith, getElem?_append_zeros _ hs,
      List.getElem?_eq_getElem hi, List.getD_eq_getElem _ _ hi, Option.getD_some]
  · have hl : longer.length ≤ i := Nat.le_of_not_lt hi
    rw [List.getD_eq_default _ _ (Nat.le_trans (Nat.le_of_eq (length_blockSum h)) hl),
      List.getD_eq_default _ _ hl, List.getD_eq_default _ _ (Nat.le_trans h hl), UInt8.xor_zero]

/-- A sum fits where its longer part does. -/
theorem Fits.blockSum {longer shorter : List UInt8} (h : Fits longer)
    (hl : shorter.length ≤ longer.length) : Fits (blockSum longer shorter) :=
  ⟨by rw [length_blockSum hl]; exact h.whole, by rw [length_blockSum hl]; exact h.bounded⟩

/-- Two blocks that are added one after the other add their sum. -/
theorem add_add_eq_add_blockSum (s : State) {longer shorter : List UInt8} (hl : Fits longer)
    (hs : Fits shorter) (h : shorter.length ≤ longer.length) :
    (s.add longer).add shorter = s.add (blockSum longer shorter) := by
  apply bytes_injective
  apply List.ext_getElem?
  intro i
  rw [getElem?_bytes_add _ hs, getElem?_bytes_add s hl, getElem?_bytes_add s (hl.blockSum h),
    getD_blockSum h, Option.map_map]
  congr 1
  funext b
  exact UInt8.xor_assoc ..

/-- It does not matter which of two blocks is added first. -/
theorem add_right_comm (s : State) (xs ys : List UInt8) :
    (s.add xs).add ys = (s.add ys).add xs := by
  apply State.ext
  apply Vector.ext
  intro i hi
  simp only [add, Vector.getElem_mapIdx]
  ac_rfl

/-- A block of whole lanes, no longer than the state, is added to the bytes in front, as reading shows
them, and leaves the others as they are. Adding the words that it spells does the same, also on the
way through a pending block. Added again, the block is gone; and added before or after a shorter
one, it does what their sum does. -/
theorem xorBlock_bytewise (s : State) {block : List UInt8} (h : Fits block) :
    ∃ t, s.xorBlock block = .ok t ∧ t.xorBlock block = .ok s ∧
      (∀ i, i < stateBytes → ∃ b, s.Shows i b ∧
        t.Shows i (if hi : i < block.length then b ^^^ block[i] else b)) ∧
      (∀ dest : List UInt64, dest.length = block.length / laneBytes →
        ∃ words, Lane.load block dest = .ok words ∧ s.xorLanes words = .ok t) ∧
      (∀ a : Absorber, a.state = s → a.block.toList = block →
        a.absorbPending = .ok { a with state := t.permute }) ∧
      ∀ shorter, Fits shorter → shorter.length ≤ block.length →
        ∃ u v, s.xorBlock (blockSum block shorter) = .ok u ∧ t.xorBlock shorter = .ok u ∧
          s.xorBlock shorter = .ok v ∧ v.xorBlock block = .ok u := by
  refine ⟨s.add block, xorBlock_eq s h, ?_, ?_, ?_, ?_, ?_⟩
  · rw [xorBlock_eq _ h, add_add]
  · intro i hi
    obtain ⟨b, hb⟩ := s.exists_shows hi
    exact ⟨b, hb, hb.add h hi⟩
  · intro dest hd
    exact Checked.exists_of_bind_eq_ok (load_bind_xorLanes s h hd)
  · rintro a rfl rfl
    rw [Absorber.absorbPending_eq, mix]
  · intro shorter hs hl
    refine ⟨s.add (blockSum block shorter), s.add shorter, xorBlock_eq s (h.blockSum hl), ?_,
      xorBlock_eq s hs, ?_⟩
    · rw [xorBlock_eq _ hs, add_add_eq_add_blockSum s h hs hl]
    · rw [xorBlock_eq _ h, add_right_comm, add_add_eq_add_blockSum s h hs hl]

/-- A full block added to lanes whose bytes count from zero to seven: its last byte changes the byte
there, a byte behind it stays, and a block of eight bytes can be added before or after it. -/
theorem xorBlock_bytewise_fullBlock :
    Fits (List.replicate 136 0xab) ∧ Fits (List.replicate 8 0xff) ∧
      ∃ t u v, xorBlock ⟨Vector.replicate 25 0x0706050403020100⟩ (List.replicate 136 0xab) = .ok t ∧
        t.xorBlock (List.replicate 136 0xab) = .ok ⟨Vector.replicate 25 0x0706050403020100⟩ ∧
        t.Shows 135 0xac ∧ t.Shows 137 1 ∧
        (∃ words, Lane.load (List.replicate 136 0xab) (List.replicate 17 0) = .ok words ∧
          xorLanes ⟨Vector.replicate 25 0x0706050403020100⟩ words = .ok t) ∧
        Absorber.absorbPending
            ⟨⟨Vector.replicate 25 0x0706050403020100⟩, Vector.replicate 136 0xab, 136, 1088⟩ =
          .ok ⟨t.permute, Vector.replicate 136 0xab, 136, 1088⟩ ∧
        xorBlock ⟨Vector.replicate 25 0x0706050403020100⟩
            (blockSum (List.replicate 136 0xab) (List.replicate 8 0xff)) = .ok u ∧
        t.xorBlock (List.replicate 8 0xff) = .ok u ∧
        xorBlock ⟨Vector.replicate 25 0x0706050403020100⟩ (List.replicate 8 0xff) = .ok v ∧
        v.xorBlock (List.replicate 136 0xab) = .ok u := by
  have hlength : (List.replicate 136 (0xab : UInt8)).length = 136 := List.length_replicate
  have hblock : Fits (List.replicate 136 0xab) := ⟨by rw [hlength], by rw [hlength]; decide⟩
  have hshort : Fits (List.replicate 8 0xff) := ⟨by decide, by decide⟩
  obtain ⟨t, hadd, hback, hbytes, hwords, hpending, hsum⟩ :=
    xorBlock_bytewise ⟨Vector.replicate 25 0x0706050403020100⟩ hblock
  obtain ⟨u, v, hu, htu, hv, hvu⟩ := hsum _ hshort (by rw [hlength]; decide)
  obtain ⟨b, hb, hinside⟩ := hbytes 135 (by decide)
  obtain ⟨c, hc, houtside⟩ := hbytes 137 (by decide)
  have hseven : (7 : UInt8) = b := by
    rw [shows_iff _ (by decide)] at hb
    exact Option.some.inj (Eq.trans (by decide +kernel) hb)
  have hone : (1 : UInt8) = c := by
    rw [shows_iff _ (by decide)] at hc
    exact Option.some.inj (Eq.trans (by decide +kernel) hc)
  rw [dif_pos (by rw [hlength]; decide), List.getElem_replicate, ← hseven,
    show (7 : UInt8) ^^^ 0xab = 0xac by decide] at hinside
  rw [dif_neg (by rw [hlength]; decide), ← hone] at houtside
  exact ⟨hblock, hshort, t, u, v, hadd, hback, hinside, houtside, hwords _ (by rw [hlength]; rfl),
    hpending _ rfl Vector.toList_replicate, hu, htu, hv, hvu⟩

end Shake.State
