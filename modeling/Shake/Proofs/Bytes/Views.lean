import Shake.Proofs.Bytes.Spelling

/-!
# Three views of a list of lanes

Input assembles words from bytes (`load`), output shifts single bytes out of words (`extract`, byte
by byte with `byteAt`). Both are tied here to the byte string that `store` writes: `load` and
`store` undo each other, whatever their destinations held before, and a window shows the piece of
that string which starts at its offset. Each operation fails exactly if the extents do not fit. A
window is measured in machine words, so its end may wrap around; that is one of the failures.
-/

namespace Shake.Lane

/-- Bytes can be read as lanes exactly when both have the same extent. -/
theorem exists_load_iff {bytes : List UInt8} {dest : List UInt64} :
    (∃ lanes, load bytes dest = .ok lanes) ↔ bytes.length = 8 * dest.length := by
  rw [load_eq, Checked.exists_ite_iff]

/-- Lanes can be written as bytes exactly when both have the same extent. -/
theorem exists_store_iff {lanes : List UInt64} {dest : List UInt8} :
    (∃ bytes, store lanes dest = .ok bytes) ↔ dest.length = 8 * lanes.length := by
  rw [store_eq, Checked.exists_ite_iff]

/-- A window can be shown exactly when it ends within the lanes. -/
theorem exists_extract_iff {lanes : List UInt64} {offset : Nat} {dest : List UInt8} :
    (∃ shown, extract lanes offset dest = .ok shown) ↔
      offset + dest.length ≤ 8 * lanes.length := by
  rw [extract_eq, Checked.exists_ite_iff]

/-- Lanes that have been written as bytes can be read back. -/
theorem load_spell {lanes dest : List UInt64} (h : dest.length = lanes.length) :
    load (spell lanes) dest = .ok lanes := by
  rw [load_eq, h, if_pos (length_spell lanes), words_spell]

/-- Bytes that have been read as lanes can be written back. -/
theorem store_words {n : Nat} {bytes dest : List UInt8} (h : bytes.length = 8 * n)
    (hd : dest.length = bytes.length) : store (words n bytes) dest = .ok bytes := by
  rw [store_eq, length_words, if_pos (hd.trans h), spell_words n h]

/-- What a window shows lies within the bytes of the lanes. -/
theorem index_lt_of_window {lanes : List UInt64} {offset n i : Nat}
    (hi : i < (((spell lanes).drop offset).take n).length) : offset + i < (spell lanes).length := by
  rw [List.length_take, List.length_drop] at hi
  omega

/-- Every byte that a window shows is the single byte at its index. -/
theorem byteAt_window (lanes : List UInt64) {offset n i : Nat}
    (hi : i < (((spell lanes).drop offset).take n).length) :
    byteAt lanes (offset + i) = .ok (((spell lanes).drop offset).take n)[i] := by
  rw [byteAt_eq lanes (index_lt_of_window hi), List.getElem_take, List.getElem_drop]

/-- Every byte that a window shows has eight bits of one lane, the first byte of a lane the lowest. -/
theorem exists_lane_of_window (lanes : List UInt64) {offset n i : Nat}
    (hi : i < (((spell lanes).drop offset).take n).length) :
    ∃ w, lanes[(offset + i) / 8]? = some w ∧ ∀ k, k < 8 →
      (((spell lanes).drop offset).take n)[i].toNat.testBit k =
        w.toNat.testBit (8 * ((offset + i) % 8) + k) := by
  have ho := index_lt_of_window hi
  have hl : (offset + i) / 8 < lanes.length := by
    simp only [length_spell, laneBytes] at ho
    omega
  refine ⟨lanes[(offset + i) / 8], List.getElem?_eq_getElem hl, fun k hk => ?_⟩
  rw [List.getElem_take, List.getElem_drop, getElem_spell lanes ho hl,
    testBit_byte _ (Nat.mod_lt _ (by decide)) hk]

/-- For a bound that a machine word can hold, a sum of machine words stays within it exactly when it
neither wraps around nor exceeds the bound afterwards. -/
theorem sum_le_iff {offset : UInt64} {n bound : Nat} (hb : bound < UInt64.size) :
    offset.toNat + n ≤ bound ↔
      offset.toNat + n < UInt64.size ∧ (offset + UInt64.ofNat n).toNat ≤ bound := by
  rw [UInt64.toNat_add, UInt64.toNat_ofNat']
  simp only [UInt64.size] at hb ⊢
  omega

/-- What `store` writes, `load` reads back, and `extract` shows piece by piece, each byte being the
one that `byteAt` gives, with the bits of its lane from the lowest on; and what `load` reads, `store`
writes back. The conversions fail exactly if bytes and lanes differ in extent, and a window exactly
if it ends beyond the lanes: for an offset that is a machine word, and lanes that memory can hold,
exactly if the sum of offset and length overflows or is too large. -/
theorem views_agree :
    (∀ (lanes dest : List UInt64) (buffer : List UInt8),
      buffer.length = 8 * lanes.length → dest.length = lanes.length →
      ∃ bytes, store lanes buffer = .ok bytes ∧ load bytes dest = .ok lanes ∧
        ∀ (offset : Nat) (window : List UInt8), offset + window.length ≤ 8 * lanes.length →
          ∃ shown, extract lanes offset window = .ok shown ∧ shown.length = window.length ∧
            shown = (bytes.drop offset).take window.length ∧
            ∀ (i : Nat) (hi : i < shown.length), byteAt lanes (offset + i) = .ok shown[i] ∧
              ∃ w, lanes[(offset + i) / 8]? = some w ∧ ∀ k, k < 8 →
                shown[i].toNat.testBit k = w.toNat.testBit (8 * ((offset + i) % 8) + k)) ∧
    (∀ (bytes buffer : List UInt8) (dest : List UInt64),
      bytes.length = 8 * dest.length → buffer.length = bytes.length →
      ∃ lanes, load bytes dest = .ok lanes ∧ store lanes buffer = .ok bytes) ∧
    (∀ (lanes : List UInt64) (buffer : List UInt8),
      (∃ e, store lanes buffer = .error e) ↔ buffer.length ≠ 8 * lanes.length) ∧
    (∀ (bytes : List UInt8) (dest : List UInt64),
      (∃ e, load bytes dest = .error e) ↔ bytes.length ≠ 8 * dest.length) ∧
    (∀ (lanes : List UInt64) (offset : Nat) (window : List UInt8),
      (∃ e, extract lanes offset window = .error e) ↔
        8 * lanes.length < offset + window.length) ∧
    ∀ (lanes : List UInt64) (offset : UInt64) (window : List UInt8),
      8 * lanes.length < allocationBound →
      ((∃ e, extract lanes offset.toNat window = .error e) ↔
        UInt64.size ≤ offset.toNat + window.length ∨
          8 * lanes.length < (offset + UInt64.ofNat window.length).toNat) := by
  refine ⟨?_, ?_, ?_, ?_, ?_, ?_⟩
  · intro lanes dest buffer hb hd
    refine ⟨spell lanes, by rw [store_eq, if_pos hb], load_spell hd, ?_⟩
    intro offset window hw
    refine ⟨_, by rw [extract_eq, if_pos hw], ?_, rfl,
      fun i hi => ⟨byteAt_window lanes hi, exists_lane_of_window lanes hi⟩⟩
    rw [List.length_take, List.length_drop, length_spell]
    exact Nat.min_eq_left (Nat.le_sub_of_add_le' hw)
  · intro bytes buffer dest hd hb
    exact ⟨words dest.length bytes, by rw [load_eq, if_pos hd], store_words hd hb⟩
  · intro lanes buffer
    rw [Checked.exists_error_iff, exists_store_iff]
  · intro bytes dest
    rw [Checked.exists_error_iff, exists_load_iff]
  · intro lanes offset window
    rw [Checked.exists_error_iff, exists_extract_iff, Nat.not_le]
  · intro lanes offset window hl
    have hb : 8 * lanes.length < UInt64.size := Nat.lt_trans hl (by decide)
    rw [Checked.exists_error_iff, exists_extract_iff, sum_le_iff hb, Decidable.not_and_iff_not_or_not,
      Nat.not_lt, Nat.not_le]

/-- Two lanes written over other bytes and read back over other lanes, a window across them, sixteen
bytes read and written, and a window whose end wraps around to the third byte. -/
theorem views_agree_acrossLanes :
    ∃ bytes shown words,
      store [0x0706050403020100, 0x0f0e0d0c0b0a0908] (List.replicate 16 0xaa) = .ok bytes ∧
      load bytes [1, 2] = .ok [0x0706050403020100, 0x0f0e0d0c0b0a0908] ∧
      6 + (List.replicate 5 (0 : UInt8)).length ≤ 16 ∧
      extract [0x0706050403020100, 0x0f0e0d0c0b0a0908] 6 (List.replicate 5 0) = .ok shown ∧
      shown = (bytes.drop 6).take 5 ∧ shown[3]? = some 9 ∧
      load (List.replicate 16 0xc3) [1, 2] = .ok words ∧
      store words (List.replicate 16 0) = .ok (List.replicate 16 0xc3) ∧
      UInt64.toNat 0xfffffffffffffffa + 8 ≥ UInt64.size ∧
      ((0xfffffffffffffffa : UInt64) + UInt64.ofNat 8).toNat = 2 ∧
      ∃ e, extract [0x0706050403020100, 0x0f0e0d0c0b0a0908] (UInt64.toNat 0xfffffffffffffffa)
        (List.replicate 8 0) = .error e := by
  obtain ⟨hlanes, hbytes, -, -, -, hwords⟩ := views_agree
  obtain ⟨bytes, hstore, hload, hwindow⟩ :=
    hlanes [0x0706050403020100, 0x0f0e0d0c0b0a0908] [1, 2] (List.replicate 16 0xaa) rfl rfl
  obtain ⟨shown, hshown, hlength, htake, hbyte⟩ := hwindow 6 (List.replicate 5 0) (by decide)
  obtain ⟨words, hw, hback⟩ := hbytes (List.replicate 16 0xc3) (List.replicate 16 0) [1, 2] rfl rfl
  have hthree : 3 < shown.length := by
    rw [hlength]
    decide
  have hnine : byteAt [0x0706050403020100, 0x0f0e0d0c0b0a0908] (6 + 3) = .ok 9 := rfl
  have hget : shown[3] = 9 := Except.ok.inj ((hbyte 3 hthree).1.symm.trans hnine)
  refine ⟨bytes, shown, words, hstore, hload, by decide, hshown, htake, ?_, hw, hback, by decide,
    by decide, ?_⟩
  · rw [List.getElem?_eq_getElem hthree, hget]
  · exact (hwords _ _ _ (by decide)).mpr (Or.inl (by decide))

end Shake.Lane
