import Shake.Proofs.Absorption.Pending

/-!
# A message in pieces and the message at once

An absorber holds its message as the state after the full blocks and the rest in the pending block
(`Absorber.Holds`). Every byte keeps that relation, so it holds after any number of chunks of any
lengths, and closing the message then does exactly what the absorption of the whole message does
with its last block. Streaming and one-shot absorption end in the same squeezer.
-/

namespace Shake.Absorber

/-- State and pending block together are the message. -/
structure Holds (a : Absorber) (message : List UInt8) : Prop where
  /-- The bytes in use are those behind the last full block. -/
  offset : a.offset = message.length % 136
  /-- The state has taken in every full block. -/
  state : a.state = (blocks 136 (message.length / 136) message).foldl State.mix .zero
  /-- The rest of the message waits in the pending block. -/
  pending : a.block.toList.take a.offset = message.drop (136 * (message.length / 136))

theorem holds_empty : Holds empty [] := ⟨rfl, rfl, rfl⟩

/-- The pending block has room. -/
theorem Holds.offset_lt {a : Absorber} {message : List UInt8} (h : Holds a message) :
    a.offset < 136 := by
  rw [h.offset]
  exact Nat.mod_lt _ (Nat.zero_lt_succ 135)

/-- One more byte is one more byte of the message. -/
theorem Holds.push {a : Absorber} {message : List UInt8} (h : Holds a message) (b : UInt8) :
    Holds (a.push b) (message ++ [b]) := by
  have hb : (overlay a.block a.offset [b]).toList.take (a.offset + 1) =
      a.block.toList.take a.offset ++ [b] :=
    take_toList_overlay a.block (show a.offset + [b].length ≤ 136 from h.offset_lt)
  have hl : (message ++ [b]).length = message.length + 1 := List.length_append
  have hm : 136 * (message.length / 136) ≤ message.length := Nat.mul_div_le ..
  have hoff := h.offset
  by_cases hf : a.offset + 1 = 136
  · -- the byte fills the block, and with it the next block of the message
    have hn : (message.length + 1) / 136 = message.length / 136 + 1 := by omega
    have hp : a.push b = { a.wrote [b] with
        state := a.state.mix (overlay a.block a.offset [b]).toList, offset := 0 } := by
      rw [Absorber.push, settle]
      exact if_pos hf
    have hfull : (overlay a.block a.offset [b]).toList =
        message.drop (136 * (message.length / 136)) ++ [b] := by
      rw [← h.pending, ← hb, hf, List.take_of_length_le (Nat.le_of_eq Vector.length_toList)]
    have hlast : ((message ++ [b]).drop (136 * (message.length / 136))).take 136 =
        message.drop (136 * (message.length / 136)) ++ [b] := by
      rw [List.drop_append_of_le_length hm, List.take_of_length_le]
      rw [List.length_append, List.length_drop, List.length_singleton]
      omega
    refine ⟨?_, ?_, ?_⟩
    · rw [hp, hl]
      change 0 = _
      omega
    · rw [hp, hl, hn, blocks_succ_last, blocks_append hm, hlast, List.foldl_append, ← h.state,
        List.foldl_cons, List.foldl_nil, ← hfull]
    · rw [hp, hl, hn, List.drop_of_length_le (by rw [hl]; omega)]
      rfl
  · have hn : (message.length + 1) / 136 = message.length / 136 := by omega
    have hp : a.push b = a.wrote [b] := settle_of_lt (show a.offset + 1 < 136 by omega)
    refine ⟨?_, ?_, ?_⟩
    · rw [hp, hl]
      change a.offset + 1 = _
      omega
    · rw [hp, hl, hn, blocks_append hm, ← h.state]
      rfl
    · rw [hp, hl, hn, List.drop_append_of_le_length hm, ← h.pending]
      exact hb

/-- More bytes are more bytes of the message. -/
theorem Holds.foldl_push {a : Absorber} {message : List UInt8} (h : Holds a message)
    (input : List UInt8) : Holds (input.foldl Absorber.push a) (message ++ input) := by
  induction input generalizing a message with
  | nil => rwa [List.append_nil]
  | cons b input ih =>
    have hi := ih (h.push b)
    rwa [List.append_assoc, List.singleton_append] at hi

/-- An absorber that has taken in a message holds it. -/
theorem holds_append (message : List UInt8) : Holds (empty.append message) message := by
  obtain ⟨ho, hs, hb⟩ := holds_empty.foldl_push message
  exact ⟨ho, hs, hb⟩

/-- An absorber that holds a message, and has counted it, closes it into the stream that the
absorption of the message at once gives. -/
theorem Holds.exists_finalize {a : Absorber} {message : List UInt8} (h : Holds a message)
    (hbits : a.absorbedBits = 8 * message.length) (hb : 8 * message.length < counterBound) :
    ∃ q, Squeezer.ofMessage message = .ok q ∧ a.finalize = .ok (q, empty) := by
  have hdiv : a.absorbedBits / 8 = message.length := by omega
  have hcons : Consistent a := by
    refine ⟨h.offset_lt, ?_, ?_⟩
    · rw [hdiv, h.offset]
    · omega
  obtain ⟨p, hc, hp, hf⟩ := Absorber.exists_finalize hcons (by rw [hbits]; exact hb)
  rw [hdiv] at hc hp
  refine ⟨_, ?_, hf⟩
  rw [Squeezer.ofMessage, State.absorb_eq blockSize_rateBytes .zero hc hp,
    State.blocks_padded blockSize_rateBytes hp, List.foldl_append, List.foldl_cons,
    List.foldl_nil, h.state, h.pending]
  rfl

/-- The count of bits is zero only of the empty message. -/
theorem append_absorbedBits_eq_zero_iff {message : List UInt8} :
    (empty.append message).absorbedBits = 0 ↔ message = [] := by
  rw [append_absorbedBits, ← List.length_eq_zero_iff]
  change 0 + 8 * message.length = 0 ↔ _
  omega

/-- A chunk goes behind the message as long as the count can hold both. -/
theorem absorb_append_eq {message chunk : List UInt8}
    (h : (message ++ chunk).length < messageBound) :
    (empty.append message).absorb chunk = .ok (empty.append (message ++ chunk)) := by
  rw [← append_append]
  apply absorb_eq (consistent_empty.append message)
  change 0 + 8 * message.length + 8 * chunk.length < counterBound
  rw [List.length_append] at h
  rw [counterBound_eq]
  omega

/-- A message that the count can hold is absorbed at once. -/
theorem absorb_empty_eq {message : List UInt8} (h : message.length < messageBound) :
    empty.absorb message = .ok (empty.append message) :=
  @absorb_append_eq [] message h

theorem absorb_empty_nil : empty.absorb [] = .ok empty := absorb_empty_eq (Nat.zero_lt_succ _)

/-- Any chunks of a message that the count can hold are absorbed one after the other. -/
theorem foldlM_absorb_empty_eq {chunks : List (List UInt8)}
    (h : chunks.flatten.length < messageBound) :
    chunks.foldlM absorb empty = .ok (empty.append chunks.flatten) := by
  apply foldlM_absorb_eq consistent_empty
  change 0 + 8 * chunks.flatten.length < counterBound
  rw [counterBound_eq]
  omega

/-- Absorption of a chunk succeeds only if the count can hold the message with it, and then appends
it. -/
theorem eq_append_of_absorb {message chunk : List UInt8} {a : Absorber}
    (h : (empty.append message).absorb chunk = .ok a) :
    (message ++ chunk).length < messageBound ∧ a = empty.append (message ++ chunk) := by
  by_cases hl : (message ++ chunk).length < messageBound
  · rw [absorb_append_eq hl] at h
    exact ⟨hl, (Except.ok.inj h).symm⟩
  · have hoverflow : counterBound ≤ 0 + 8 * message.length + 8 * chunk.length := by
      rw [List.length_append] at hl
      rw [counterBound_eq]
      omega
    rw [absorb_of_overflow hoverflow] at h
    cases h

/-- Absorption at once succeeds only if the count can hold the message, and then appends it. -/
theorem eq_append_of_absorb_empty {message : List UInt8} {a : Absorber}
    (h : empty.absorb message = .ok a) :
    message.length < messageBound ∧ a = empty.append message :=
  @eq_append_of_absorb [] message a h

/-- A message that the count can hold is closed into its stream, whatever pieces it came in. -/
theorem exists_finalize_append {message : List UInt8} (h : message.length < messageBound) :
    ∃ q, Squeezer.ofMessage message = .ok q ∧
      (empty.append message).finalize = .ok (q, empty) := by
  apply (holds_append message).exists_finalize
  · rw [append_absorbedBits]
    exact Nat.zero_add _
  · rw [counterBound_eq]
    omega

/-- Taking in any chunks and closing the message succeeds and gives, in state and window, the
stream of the chunks joined together and absorbed at once. -/
theorem finalize_foldlM_absorb_eq (chunks : List (List UInt8))
    (h : chunks.flatten.length < messageBound) :
    ∃ a s, chunks.foldlM absorb empty = .ok a ∧
      State.zero.absorb rateBytes .shake chunks.flatten = .ok s ∧
      a.finalize = .ok (Squeezer.ofState s, empty) := by
  obtain ⟨q, hq, hf⟩ := exists_finalize_append h
  have hb : empty.absorbedBits + 8 * chunks.flatten.length < counterBound := by
    change 0 + 8 * chunks.flatten.length < counterBound
    rw [counterBound_eq]
    omega
  have ha := foldlM_absorb_eq consistent_empty hb
  cases hs : State.zero.absorb rateBytes .shake chunks.flatten with
  | error e =>
    rw [Squeezer.ofMessage, hs] at hq
    cases hq
  | ok s =>
    rw [Squeezer.ofMessage, hs, Checked.ok_bind] at hq
    cases hq
    exact ⟨_, s, ha, rfl, hf⟩

/-- Three chunks, an empty one among them and one longer than a block. -/
theorem finalize_foldlM_absorb_three :
    [[1], [], List.replicate 200 (2 : UInt8)].flatten.length < messageBound ∧
      ∃ a s, [[1], [], List.replicate 200 (2 : UInt8)].foldlM absorb empty = .ok a ∧
        State.zero.absorb rateBytes .shake [[1], [], List.replicate 200 2].flatten = .ok s ∧
        a.finalize = .ok (Squeezer.ofState s, empty) := by
  have h : [[1], [], List.replicate 200 (2 : UInt8)].flatten.length < messageBound := by
    simp only [List.flatten_cons, List.flatten_nil, List.length_append, List.length_cons,
      List.length_nil, List.length_replicate]
    decide
  exact ⟨h, finalize_foldlM_absorb_eq [[1], [], List.replicate 200 2] h⟩

/-- A new absorber that has taken in a message, in any chunks, has counted its bits and is as far
into the pending block as the message is into its last block; the bytes in use are the last ones of
the message, and the state is the zero state after each full block of the message has been added to
it and permuted, in order. This holds after every chunk, since the chunks up to it are a list of
chunks themselves. The count is zero exactly if no byte has been taken in, and then the absorber is
new in every field. -/
theorem foldlM_absorb_accounts {message : List UInt8} (h : message.length < messageBound)
    {chunks : List (List UInt8)} (hm : chunks.flatten = message) :
    ∃ a, chunks.foldlM absorb empty = .ok a ∧
      a.absorbedBits = 8 * message.length ∧
      a.offset = message.length % rateBytes ∧ a.offset < rateBytes ∧
      a.block.toList.take a.offset = message.drop (message.length - message.length % rateBytes) ∧
      State.absorbBlocks rateBytes (message.length / rateBytes) .zero message =
        .ok (a.state, a.block.toList.take a.offset) ∧
      (a.absorbedBits = 0 ↔ message = []) ∧ (a.absorbedBits = 0 → a = empty) := by
  subst hm
  have hholds := holds_append chunks.flatten
  have hbits : (empty.append chunks.flatten).absorbedBits = 8 * chunks.flatten.length := by
    rw [append_absorbedBits]
    exact Nat.zero_add _
  have hfull : 136 * (chunks.flatten.length / 136) =
      chunks.flatten.length - chunks.flatten.length % 136 := by omega
  have hblocks := State.absorbBlocks_eq blockSize_rateBytes (chunks.flatten.length / 136) .zero
    (Nat.mul_div_le chunks.flatten.length 136)
  have hzero : (empty.append chunks.flatten).absorbedBits = 0 ↔ chunks.flatten = [] := by
    rw [hbits, ← List.length_eq_zero_iff]
    omega
  refine ⟨empty.append chunks.flatten, foldlM_absorb_empty_eq h, hbits, hholds.offset,
    hholds.offset_lt, ?_, ?_, hzero, ?_⟩
  · rw [hholds.pending, hfull]
  · rw [hholds.state, hholds.pending]
    exact hblocks
  · intro hn
    rw [hzero.mp hn, append_nil]

/-- Three chunks that make up one full block and four bytes of the next one. -/
theorem foldlM_absorb_accounts_secondBlock :
    (List.replicate 140 (5 : UInt8)).length < messageBound ∧
      [List.replicate 100 (5 : UInt8), [], List.replicate 40 5].flatten = List.replicate 140 5 ∧
      ∃ a, [List.replicate 100 (5 : UInt8), [], List.replicate 40 5].foldlM absorb empty = .ok a ∧
        a.absorbedBits = 1120 ∧ a.offset = 4 ∧ a.block.toList.take 4 = [5, 5, 5, 5] ∧
        State.zero.absorbBlock (List.replicate 136 5) = .ok a.state := by
  have h : (List.replicate 140 (5 : UInt8)).length < messageBound := by
    rw [List.length_replicate]
    decide
  have hm : [List.replicate 100 (5 : UInt8), [], List.replicate 40 5].flatten =
      List.replicate 140 5 := by
    rw [List.flatten_cons, List.flatten_cons, List.flatten_singleton, List.nil_append,
      List.replicate_append_replicate]
  obtain ⟨a, ha, hbits, hoff, _, hpending, hblocks, _⟩ := foldlM_absorb_accounts h hm
  rw [List.length_replicate] at hbits hoff hpending hblocks
  rw [hoff, List.drop_replicate] at hpending
  rw [show 140 / rateBytes = 1 from rfl, State.absorbBlocks, List.take_replicate] at hblocks
  obtain ⟨s, hs, hrest⟩ := Checked.exists_of_bind_eq_ok hblocks
  obtain rfl : s = a.state := congrArg Prod.fst (Except.ok.inj hrest)
  exact ⟨h, hm, a, ha, hbits, hoff, hpending, hs⟩

end Shake.Absorber
