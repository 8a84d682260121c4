import Shake.Proofs.Absorption.Pending

/-!
# Bytes left over in the pending block

The pending block is not cleared when it starts anew, so behind the bytes in use it still holds what
earlier blocks have left there. Two absorbers that differ in nothing else (`Absorber.Agree`) agree
for as long as they take in the same bytes: a full block is in use as a whole when it is mixed in,
and closing a message overwrites what is left over with padding. None of it reaches the state.
-/

namespace Shake.Absorber

/-- The absorbers differ at most in the bytes left over in their pending blocks. -/
structure Agree (a b : Absorber) : Prop where
  /-- They have the same state. -/
  state : a.state = b.state
  /-- They have the same number of bytes in use. -/
  offset : a.offset = b.offset
  /-- They have counted the same bits. -/
  absorbedBits : a.absorbedBits = b.absorbedBits
  /-- They have the same bytes in use. -/
  inUse : a.block.toList.take a.offset = b.block.toList.take b.offset

namespace Agree

variable {a b : Absorber}

/-- Whether the fields agree on the length of the message does not depend on the bytes left over. -/
theorem consistent (h : Agree a b) (hc : Consistent a) : Consistent b := by
  refine ⟨?_, ?_, ?_⟩
  · rw [← h.offset]
    exact hc.offset_lt
  · rw [← h.offset, ← h.absorbedBits]
    exact hc.offset_eq
  · rw [← h.absorbedBits]
    exact hc.whole

/-- A chunk comes to lie behind the same bytes. -/
theorem wrote (h : Agree a b) {chunk : List UInt8} (hfit : a.offset + chunk.length ≤ 136) :
    Agree (a.wrote chunk) (b.wrote chunk) := by
  refine ⟨h.state, congrArg (· + chunk.length) h.offset, h.absorbedBits, ?_⟩
  have hfit' : b.offset + chunk.length ≤ 136 := by
    rw [← h.offset]
    exact hfit
  change (overlay a.block a.offset chunk).toList.take (a.offset + chunk.length) =
    (overlay b.block b.offset chunk).toList.take (b.offset + chunk.length)
  rw [take_toList_overlay a.block hfit, take_toList_overlay b.block hfit', h.inUse]

/-- A full block is in use as a whole, so the same block is mixed in. -/
theorem settle (h : Agree a b) : Agree a.settle b.settle := by
  by_cases hf : a.offset = 136
  · have hf' : b.offset = 136 := h.offset ▸ hf
    have hblock : a.block.toList = b.block.toList := by
      have hu := h.inUse
      rwa [hf, hf', List.take_of_length_le (Nat.le_of_eq Vector.length_toList),
        List.take_of_length_le (Nat.le_of_eq Vector.length_toList)] at hu
    rw [Absorber.settle, Absorber.settle, if_pos hf, if_pos hf']
    refine ⟨?_, rfl, h.absorbedBits, rfl⟩
    change a.state.mix a.block.toList = b.state.mix b.block.toList
    rw [h.state, hblock]
  · have hf' : ¬ b.offset = 136 := h.offset ▸ hf
    rwa [Absorber.settle, Absorber.settle, if_neg hf, if_neg hf']

/-- One more byte keeps the absorbers in agreement. -/
theorem push (h : Agree a b) (ha : a.offset < 136) (byte : UInt8) :
    Agree (a.push byte) (b.push byte) :=
  (h.wrote (show a.offset + [byte].length ≤ 136 from ha)).settle

/-- More bytes keep the absorbers in agreement. -/
theorem foldl_push (h : Agree a b) (ha : a.offset < 136) (input : List UInt8) :
    Agree (input.foldl Absorber.push a) (input.foldl Absorber.push b) := by
  induction input generalizing a b with
  | nil => exact h
  | cons byte input ih =>
    have hp : (a.push byte).offset < 136 := by
      rw [push_offset ha]
      exact Nat.mod_lt _ (Nat.zero_lt_succ 135)
    exact ih (h.push ha byte) hp

/-- More of the message keeps the absorbers in agreement. -/
theorem append (h : Agree a b) (ha : a.offset < 136) (input : List UInt8) :
    Agree (a.append input) (b.append input) := by
  obtain ⟨hs, ho, -, hu⟩ := h.foldl_push ha input
  exact ⟨hs, ho, congrArg (· + 8 * input.length) h.absorbedBits, hu⟩

/-- Absorbers that agree close their messages into the same stream. -/
theorem exists_finalize (h : Agree a b) (hc : Consistent a) (hb : a.absorbedBits < counterBound) :
    ∃ q, a.finalize = .ok (q, empty) ∧ b.finalize = .ok (q, empty) := by
  obtain ⟨p, hclose, -, hf⟩ := Absorber.exists_finalize hc hb
  obtain ⟨p', hclose', -, hf'⟩ :=
    Absorber.exists_finalize (h.consistent hc) (h.absorbedBits ▸ hb)
  rw [← h.absorbedBits, hclose] at hclose'
  obtain rfl := Except.ok.inj hclose'
  rw [← h.state, ← h.inUse] at hf'
  exact ⟨_, hf, hf'⟩

end Agree

/-- What is left over in the pending block never counts. Two absorbers that agree in state, offset,
count and bytes in use, whatever else their blocks hold, take in any chunks that the count has room
for, agree after them, and close the message into one and the same stream. -/
theorem finalize_foldlM_absorb_of_agree {a b : Absorber} (h : Agree a b) (hc : Consistent a)
    (chunks : List (List UInt8))
    (hb : a.absorbedBits + 8 * chunks.flatten.length < counterBound) :
    ∃ c d q, chunks.foldlM absorb a = .ok c ∧ chunks.foldlM absorb b = .ok d ∧ Agree c d ∧
      c.finalize = .ok (q, empty) ∧ d.finalize = .ok (q, empty) := by
  have hagree : Agree (a.append chunks.flatten) (b.append chunks.flatten) :=
    h.append hc.offset_lt chunks.flatten
  obtain ⟨q, hf, hf'⟩ := hagree.exists_finalize (hc.append chunks.flatten) hb
  exact ⟨_, _, q, foldlM_absorb_eq hc hb,
    foldlM_absorb_eq (h.consistent hc) (h.absorbedBits ▸ hb), hagree, hf, hf'⟩

/-- A hundred bytes in use, and behind them one that differs. The chunks fill the block, so that
nothing is in use when the message is closed. -/
theorem finalize_foldlM_absorb_otherLeftover :
    Agree ⟨.zero, Vector.replicate 136 7, 100, 800⟩
        ⟨.zero, (Vector.replicate 136 7).set 100 9, 100, 800⟩ ∧
      Consistent ⟨.zero, Vector.replicate 136 7, 100, 800⟩ ∧
      800 + 8 * [List.replicate 35 (1 : UInt8), [], [2]].flatten.length < counterBound ∧
      Vector.replicate 136 7 ≠ (Vector.replicate 136 (7 : UInt8)).set 100 9 ∧
      ∃ c d q, [List.replicate 35 (1 : UInt8), [], [2]].foldlM absorb
          ⟨.zero, Vector.replicate 136 7, 100, 800⟩ = .ok c ∧
        [List.replicate 35 (1 : UInt8), [], [2]].foldlM absorb
          ⟨.zero, (Vector.replicate 136 7).set 100 9, 100, 800⟩ = .ok d ∧
        Agree c d ∧ c.finalize = .ok (q, empty) ∧ d.finalize = .ok (q, empty) := by
  have hinUse : (Vector.replicate 136 (7 : UInt8)).toList.take 100 =
      ((Vector.replicate 136 (7 : UInt8)).set 100 9).toList.take 100 := by
    rw [Vector.toList_set, List.take_set_of_le (Nat.le_refl 100)]
  have hne : Vector.replicate 136 7 ≠ (Vector.replicate 136 (7 : UInt8)).set 100 9 := by
    intro he
    have hbyte := congrArg (fun v : Vector UInt8 136 => v[100]) he
    simp only [Vector.getElem_replicate, Vector.getElem_set_self] at hbyte
    cases hbyte
  have h : Agree ⟨.zero, Vector.replicate 136 7, 100, 800⟩
      ⟨.zero, (Vector.replicate 136 7).set 100 9, 100, 800⟩ := ⟨rfl, rfl, rfl, hinUse⟩
  have hc : Consistent ⟨.zero, Vector.replicate 136 7, 100, 800⟩ := ⟨by decide, rfl, rfl⟩
  have hb : 800 + 8 * [List.replicate 35 (1 : UInt8), [], [2]].flatten.length < counterBound := by
    decide
  exact ⟨h, hc, hb, hne, finalize_foldlM_absorb_of_agree h hc [List.replicate 35 1, [], [2]] hb⟩

end Shake.Absorber
