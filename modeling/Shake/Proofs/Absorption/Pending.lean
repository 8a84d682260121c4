import Shake.Absorber.Basic
import Shake.Proofs.Absorption.OneShot

/-!
# The pending block, byte by byte

However the input of an absorber is cut at the edges of its pending block, each byte does the same:
it takes the next place of the block, and the byte that fills the block has it mixed into the
state (`Absorber.push`). The loop over pieces is a fold of that step, so pieces join in every
field, the bytes left over in the block included.
-/

namespace Shake.Absorber

/-- Bytes laid over a block begin at their offset and leave the rest of it. -/
theorem toList_overlay (block : Vector UInt8 136) {offset : Nat} {chunk : List UInt8}
    (h : offset + chunk.length ≤ 136) :
    (overlay block offset chunk).toList =
      block.toList.take offset ++ chunk ++ block.toList.drop (offset + chunk.length) := by
  apply List.ext_getElem
  · simp only [Vector.length_toList, List.length_append, List.length_take, List.length_drop]
    omega
  · intro i hi hj
    rw [Vector.length_toList] at hi
    simp only [overlay, Vector.getElem_toList, Vector.getElem_mapIdx]
    have ht : (block.toList.take offset).length = offset := by
      rw [List.length_take, Vector.length_toList]
      omega
    by_cases h₁ : i < offset
    · rw [if_pos h₁, List.getElem_append_left (by rw [List.length_append]; omega),
        List.getElem_append_left (by omega), List.getElem_take, Vector.getElem_toList]
    · rw [if_neg h₁, List.getD_eq_getElem?_getD]
      by_cases h₂ : i - offset < chunk.length
      · rw [List.getElem?_eq_getElem h₂, Option.getD_some,
          List.getElem_append_left (by rw [List.length_append]; omega),
          List.getElem_append_right (by omega)]
        simp only [ht]
      · rw [List.getElem?_eq_none (by omega), Option.getD_none,
          List.getElem_append_right (by rw [List.length_append]; omega), List.getElem_drop,
          Vector.getElem_toList]
        simp only [List.length_append, ht]
        congr 1
        omega

/-- The bytes in use after a chunk has been laid behind them. -/
theorem take_toList_overlay (block : Vector UInt8 136) {offset : Nat} {chunk : List UInt8}
    (h : offset + chunk.length ≤ 136) :
    (overlay block offset chunk).toList.take (offset + chunk.length) =
      block.toList.take offset ++ chunk := by
  have hl : (block.toList.take offset ++ chunk).length = offset + chunk.length := by
    rw [List.length_append, List.length_take, Vector.length_toList]
    omega
  rw [toList_overlay block h, ← hl, List.take_left]

/-- Bytes laid one piece behind the other are laid at once. -/
theorem overlay_append (block : Vector UInt8 136) (offset : Nat) (xs ys : List UInt8) :
    overlay (overlay block offset xs) (offset + xs.length) ys =
      overlay block offset (xs ++ ys) := by
  apply Vector.ext
  intro i hi
  simp only [overlay, Vector.getElem_mapIdx, List.getD_eq_getElem?_getD]
  by_cases h₁ : i < offset
  · rw [if_pos (by omega), if_pos h₁, if_pos h₁]
  · rw [if_neg h₁, if_neg h₁]
    by_cases h₂ : i - offset < xs.length
    · rw [if_pos (by omega), List.getElem?_append_left h₂, List.getElem?_eq_getElem h₂,
        Option.getD_some]
    · rw [if_neg (by omega), List.getElem?_eq_none (Nat.le_of_not_lt h₂), Option.getD_none,
        List.getElem?_append_right (Nat.le_of_not_lt h₂), Nat.sub_sub]

/-- The absorber with a chunk laid into its pending block. -/
def wrote (a : Absorber) (chunk : List UInt8) : Absorber :=
  { a with block := overlay a.block a.offset chunk, offset := a.offset + chunk.length }

/-- The absorber after a full pending block has been mixed in. -/
def settle (a : Absorber) : Absorber :=
  if a.offset = 136 then { a with state := a.state.mix a.block.toList, offset := 0 } else a

/-- The absorber after one more byte of its message. -/
def push (a : Absorber) (b : UInt8) : Absorber := (a.wrote [b]).settle

/-- A chunk that the pending block has room for can be laid into it. -/
theorem write_eq {a : Absorber} {chunk : List UInt8} (h : a.offset + chunk.length ≤ 136) :
    a.write chunk = .ok (a.wrote chunk) := by
  rw [write, Checked.ensure_bind_of h]
  rfl

theorem wrote_append (a : Absorber) (xs ys : List UInt8) :
    (a.wrote xs).wrote ys = a.wrote (xs ++ ys) := by
  simp only [wrote, overlay_append, List.length_append, Nat.add_assoc]

/-- The pending block can always be mixed into the state. -/
theorem absorbPending_eq (a : Absorber) :
    a.absorbPending = .ok { a with state := a.state.mix a.block.toList } := by
  have hfits : State.Fits a.block.toList :=
    ⟨by rw [Vector.length_toList], by rw [Vector.length_toList]; decide⟩
  have hdest : (List.replicate rateLanes (0 : UInt64)).length =
      a.block.toList.length / laneBytes := by
    rw [Vector.length_toList, List.length_replicate]
    rfl
  obtain ⟨words, hload, hxor⟩ :=
    Checked.exists_of_bind_eq_ok (a.state.load_bind_xorLanes hfits hdest)
  rw [absorbPending, hload, Checked.ok_bind, hxor]
  rfl

theorem flush_eq (a : Absorber) : a.flush = .ok a.settle := by
  rw [flush, settle]
  split
  · rw [absorbPending_eq]
    rfl
  · rfl

/-- A settled block has room for another byte. -/
theorem settle_offset_lt {a : Absorber} (h : a.offset ≤ 136) : a.settle.offset < 136 := by
  rw [settle]
  split
  · exact Nat.zero_lt_succ 135
  · omega

theorem settle_of_lt {a : Absorber} (h : a.offset < 136) : a.settle = a := by
  rw [settle, if_neg (by omega)]

/-- Bytes that the block has room for are pushed as one chunk. -/
theorem foldl_push_of_le {a : Absorber} {chunk : List UInt8} (hc : chunk ≠ [])
    (h : a.offset + chunk.length ≤ 136) : chunk.foldl push a = (a.wrote chunk).settle := by
  induction chunk generalizing a with
  | nil => exact absurd rfl hc
  | cons b chunk ih =>
    rw [List.length_cons] at h
    cases chunk with
    | nil => rfl
    | cons c chunk =>
      rw [List.length_cons] at h
      have hb : a.push b = a.wrote [b] := settle_of_lt (show a.offset + 1 < 136 by omega)
      rw [List.foldl_cons, hb, ih (List.cons_ne_nil c chunk), wrote_append, List.singleton_append]
      change a.offset + 1 + (chunk.length + 1) ≤ 136
      omega

/-- The next place in the block wraps around at its end. -/
theorem push_offset {a : Absorber} (h : a.offset < 136) (b : UInt8) :
    (a.push b).offset = (a.offset + 1) % 136 := by
  rw [push, settle]
  change (if a.offset + 1 = 136 then _ else _ : Absorber).offset = _
  split
  · rename_i hf
    rw [hf]
  · change a.offset + 1 = (a.offset + 1) % 136
    omega

theorem foldl_push_offset {a : Absorber} (h : a.offset < 136) (input : List UInt8) :
    (input.foldl push a).offset = (a.offset + input.length) % 136 := by
  induction input generalizing a with
  | nil => exact (Nat.mod_eq_of_lt h).symm
  | cons b input ih =>
    have hp := push_offset h b
    rw [List.foldl_cons, ih (by omega), hp, List.length_cons]
    omega

/-- Bytes that are pushed leave the count to the caller. -/
theorem foldl_push_with (a : Absorber) (bits : Nat) (input : List UInt8) :
    input.foldl push { a with absorbedBits := bits } =
      { input.foldl push a with absorbedBits := bits } := by
  induction input generalizing a with
  | nil => rfl
  | cons b input ih =>
    have hb : push { a with absorbedBits := bits } b = { a.push b with absorbedBits := bits } := by
      by_cases hf : a.offset + [b].length = 136
      · simp only [push, settle, wrote, hf, ite_true]
      · simp only [push, settle, wrote, hf, ite_false]
    rw [List.foldl_cons, List.foldl_cons, hb, ih]

/-- Passing input through the block succeeds while the block has room, and pushes every byte. -/
theorem take_eq {a : Absorber} (h : a.offset < 136) (input : List UInt8) :
    a.take input = .ok (input.foldl push a) := by
  -- every round fills the room in the block, so what is left of the input gets shorter
  induction hn : input.length using Nat.strongRecOn generalizing a input with
  | _ n ih =>
    subst hn
    by_cases hi : input = []
    · rw [take, if_pos hi, hi, List.foldl_nil]
    · have hpos : 0 < input.length := List.length_pos_iff.mpr hi
      have hc : input.take (136 - a.offset) ≠ [] := by
        apply List.ne_nil_of_length_pos
        rw [List.length_take]
        omega
      have hl : a.offset + (input.take (136 - a.offset)).length ≤ 136 := by
        rw [List.length_take]
        omega
      have ho : (a.wrote (input.take (136 - a.offset))).settle.offset < 136 := settle_offset_lt hl
      have hd : (input.drop (rateBytes - a.offset)).length < input.length := by
        simp only [List.length_drop, rateBytes]
        omega
      rw [take, if_neg hi, if_pos h, write_eq hl, Checked.ok_bind, flush_eq, Checked.ok_bind,
        ih _ hd ho _ rfl, ← foldl_push_of_le hc hl,
        ← List.foldl_append, List.take_append_drop]

/-- The fields of an absorber agree on how far its message has come. -/
structure Consistent (a : Absorber) : Prop where
  /-- The pending block has room. -/
  offset_lt : a.offset < 136
  /-- Block and count agree. -/
  offset_eq : a.offset = a.absorbedBits / 8 % 136
  /-- The message is whole bytes. -/
  whole : a.absorbedBits % 8 = 0

theorem consistent_empty : Consistent empty := ⟨by decide, rfl, rfl⟩

/-- The absorber after more bytes of its message. -/
def append (a : Absorber) (input : List UInt8) : Absorber :=
  { input.foldl push a with absorbedBits := a.absorbedBits + 8 * input.length }

@[simp] theorem append_absorbedBits (a : Absorber) (input : List UInt8) :
    (a.append input).absorbedBits = a.absorbedBits + 8 * input.length := rfl

theorem append_offset {a : Absorber} (h : a.offset < 136) (input : List UInt8) :
    (a.append input).offset = (a.offset + input.length) % 136 := foldl_push_offset h input

@[simp] theorem append_nil (a : Absorber) : a.append [] = a := rfl

/-- Two pieces of a message are one. -/
theorem append_append (a : Absorber) (xs ys : List UInt8) :
    (a.append xs).append ys = a.append (xs ++ ys) := by
  simp only [append, foldl_push_with, List.foldl_append, List.length_append, Nat.mul_add,
    Nat.add_assoc]

/-- More bytes keep the fields in agreement. -/
theorem Consistent.append {a : Absorber} (h : Consistent a) (input : List UInt8) :
    Consistent (a.append input) := by
  have ho := append_offset h.offset_lt input
  have he := h.offset_eq
  have hw := h.whole
  refine ⟨?_, ?_, ?_⟩
  · rw [ho]
    exact Nat.mod_lt _ (by decide)
  · rw [ho, append_absorbedBits]
    omega
  · rw [append_absorbedBits]
    omega

/-- Absorption succeeds as long as the count does not overflow, and appends to the message. -/
theorem absorb_eq {a : Absorber} (h : Consistent a) {input : List UInt8}
    (hb : a.absorbedBits + 8 * input.length < counterBound) :
    a.absorb input = .ok (a.append input) := by
  have hc := h.append input
  have ht : Absorber.take { a with absorbedBits := a.absorbedBits + 8 * input.length } input =
      .ok (a.append input) := by
    have hr := take_eq (a := { a with absorbedBits := a.absorbedBits + 8 * input.length })
      h.offset_lt input
    rw [hr, foldl_push_with, Absorber.append]
  rw [absorb, Checked.ensure_bind_of hb, ht, Checked.ok_bind,
    Checked.ensure_bind_of ⟨hc.offset_lt, hc.offset_eq⟩]
  rfl

/-- A call that brings the count to its bound is refused, whatever the other fields hold. -/
theorem absorb_of_overflow {a : Absorber} {input : List UInt8}
    (h : counterBound ≤ a.absorbedBits + 8 * input.length) :
    a.absorb input = .error .counterOverflow := by
  rw [absorb, Checked.ensure_bind_of_not (Nat.not_lt.mpr h)]

/-- Absorption overflows exactly if it would bring the count to its bound. -/
theorem absorb_eq_overflow_iff {a : Absorber} (h : Consistent a) {input : List UInt8} :
    a.absorb input = .error .counterOverflow ↔
      counterBound ≤ a.absorbedBits + 8 * input.length := by
  constructor
  · intro ho
    refine Nat.not_lt.mp fun hb => ?_
    rw [absorb_eq h hb] at ho
    cases ho
  · exact absorb_of_overflow

/-- Absorbing chunk after chunk appends all of them. -/
theorem foldlM_absorb_eq {a : Absorber} (h : Consistent a) {chunks : List (List UInt8)}
    (hb : a.absorbedBits + 8 * chunks.flatten.length < counterBound) :
    chunks.foldlM absorb a = .ok (a.append chunks.flatten) := by
  induction chunks generalizing a with
  | nil => rfl
  | cons chunk chunks ih =>
    rw [List.flatten_cons, List.length_append] at hb
    rw [List.foldlM_cons, absorb_eq h (by omega), Checked.ok_bind,
      ih (h.append chunk) (by rw [append_absorbedBits]; omega), append_append, List.flatten_cons]

/-- Absorption acts on the whole absorber as joining does on byte strings. From any absorber whose
fields agree, whatever its state and block hold, two pieces that the count has room for lead one
after the other to the same absorber as joined together: in state, offset and count, and in every
byte of the block, those left over included. The empty piece leaves the absorber as it is. -/
theorem absorb_bind_absorb_eq {a : Absorber} (h : Consistent a) (xs ys : List UInt8)
    (hb : a.absorbedBits + 8 * (xs ++ ys).length < counterBound) :
    ∃ b, (a.absorb xs >>= fun m => m.absorb ys) = .ok b ∧ a.absorb (xs ++ ys) = .ok b ∧
      a.absorb [] = .ok a := by
  have hjoined : a.absorb (xs ++ ys) = .ok (a.append (xs ++ ys)) := absorb_eq h hb
  rw [List.length_append] at hb
  have hnil : a.absorb [] = .ok (a.append []) := absorb_eq h (by rw [List.length_nil]; omega)
  have hfirst : a.absorb xs = .ok (a.append xs) := absorb_eq h (by omega)
  have hsecond : (a.append xs).absorb ys = .ok ((a.append xs).append ys) :=
    absorb_eq (h.append xs) (by rw [append_absorbedBits]; omega)
  rw [append_append] at hsecond
  rw [append_nil] at hnil
  refine ⟨a.append (xs ++ ys), ?_, hjoined, hnil⟩
  rw [hfirst, Checked.ok_bind, hsecond]

/-- A first piece that runs over the end of a block with old bytes in it, and a second one that ends
inside the next block. -/
theorem absorb_bind_absorb_overEnd :
    Consistent ⟨.zero, Vector.replicate 136 7, 100, 800⟩ ∧
      800 + 8 * (List.replicate 40 1 ++ [2] : List UInt8).length < counterBound ∧
      ∃ b, (absorb ⟨.zero, Vector.replicate 136 7, 100, 800⟩ (List.replicate 40 1) >>= fun m =>
          m.absorb [2]) = .ok b ∧
        absorb ⟨.zero, Vector.replicate 136 7, 100, 800⟩ (List.replicate 40 1 ++ [2]) = .ok b ∧
        absorb ⟨.zero, Vector.replicate 136 7, 100, 800⟩ [] =
          .ok ⟨.zero, Vector.replicate 136 7, 100, 800⟩ := by
  have h : Consistent ⟨.zero, Vector.replicate 136 7, 100, 800⟩ := ⟨by decide, rfl, rfl⟩
  have hb : 800 + 8 * (List.replicate 40 1 ++ [2] : List UInt8).length < counterBound := by decide
  exact ⟨h, hb, absorb_bind_absorb_eq h (List.replicate 40 1) [2] hb⟩

/-- Clearing leaves nothing of the message behind. -/
theorem clear_eq_empty (a : Absorber) : a.clear = empty := by
  rw [clear, State.clear_eq_zero, empty]
  congr 1
  apply Vector.ext
  intro i hi
  simp only [Vector.getElem_map, Vector.getElem_replicate]

/-- Closing a message succeeds up to the largest count. It mixes in the bytes in use and the
padding, and leaves nothing of the message behind. -/
theorem exists_finalize {a : Absorber} (h : Consistent a) (hb : a.absorbedBits < counterBound) :
    ∃ p : Padding, Padding.close .shake (8 * (a.absorbedBits / 8) + Suffix.shake.width)
        (8 * rateBytes) = .ok p ∧
      p.Closes .shake (8 * (a.absorbedBits / 8) + Suffix.shake.width) (8 * rateBytes) ∧
      a.finalize =
        .ok (.ofState (a.state.mix (a.block.toList.take a.offset ++ p.toBytes)), empty) := by
  have hadm := Padding.admissible_of_bytes (show Suffix.shake.width ≤ 6 by decide)
    (a.absorbedBits / 8) blockSize_rateBytes.pos blockSize_rateBytes.bounded
  obtain ⟨p, hc, hp⟩ := Padding.exists_close hadm
  refine ⟨p, hc, hp, ?_⟩
  have hw := h.whole
  have ho := h.offset_lt
  have hbits : 8 * (a.absorbedBits / 8) = a.absorbedBits := by omega
  have hb4 : a.absorbedBits + Suffix.shake.width < counterBound := by
    simp only [Suffix.shake, counterBound] at hb ⊢
    omega
  have hl : p.toBytes.length = 136 - a.offset := by
    rw [hp.length_eq blockSize_rateBytes.bounded, h.offset_eq]
  have hfit : a.offset + p.toBytes.length = 136 := by omega
  rw [hbits] at hc
  rw [finalize, Checked.ensure_bind_of hb4]
  change (Padding.close .shake (a.absorbedBits + Suffix.shake.width) (8 * rateBytes) >>= _) = _
  rw [hc, Checked.ok_bind, Checked.ensure_bind_of hfit, write_eq (Nat.le_of_eq hfit),
    Checked.ok_bind, absorbPending_eq, Checked.ok_bind]
  have hm : (a.wrote p.toBytes).block.toList = a.block.toList.take a.offset ++ p.toBytes := by
    rw [wrote, toList_overlay _ (Nat.le_of_eq hfit), hfit,
      List.drop_of_length_le (Nat.le_of_eq Vector.length_toList), List.append_nil]
  rw [hm]
  exact congrArg (fun z => Except.ok (_, z)) (clear_eq_empty _)

end Shake.Absorber
