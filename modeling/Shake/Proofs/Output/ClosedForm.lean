import Shake.Proofs.Output.Stream
import Shake.Squeezer.Outer

/-!
# What a squeeze gives, byte by byte

A request is met from the rest of the window, and then from the first blocks of the state permuted
once, twice, and so on. The bytes, the state and the window afterwards are given here by their
position alone, for any window of at most one block; every stream has such a window, whatever has
been done to it. The bytes of a state are those that its bits make up, eight by eight, whatever way
they are looked up on; and none of them is looked up behind the first block of a state: the same
stream comes out when the lanes there are withheld.
-/

namespace Shake

/-- A window within the first lanes is read from them alone. -/
theorem Lane.extract_take {lanes : List UInt64} {n offset : Nat} (hn : n ≤ lanes.length)
    {dest : List UInt8} (h : offset + dest.length ≤ 8 * n) :
    extract (lanes.take n) offset dest = extract lanes offset dest := by
  have ht : (lanes.take n).length = n := List.length_take_of_le hn
  have hl : (spell (lanes.take n)).length = 8 * n := by rw [length_spell, ht]
  have hs : spell lanes = spell (lanes.take n) ++ spell (lanes.drop n) := by
    rw [← spell_append, List.take_append_drop]
  rw [extract_eq, extract_eq, ht, if_pos h, if_pos (by omega), hs,
    List.drop_append_of_le_length (by omega),
    List.take_append_of_le_length (by rw [List.length_drop]; omega)]

namespace Squeezer

/-- A request within the window is met from the outer part of the state. -/
theorem readOuter_eq_readWindow (q : Squeezer) {dest : List UInt8}
    (h : dest.length ≤ q.readable) : q.readOuter dest = q.readWindow dest := by
  by_cases hq : q.readable ≤ rateBytes
  · have hl : rateLanes ≤ q.state.lanes.toList.length := by
      rw [Vector.length_toList]
      decide
    have hw : rateBytes - q.readable + dest.length ≤ 8 * rateLanes := by
      simp only [rateBytes, rateLanes] at hq ⊢
      omega
    rw [readOuter, readWindow, State.outer, Lane.extract_take hl hw, State.extract]
  · rw [readOuter, readWindow, Checked.ensure_bind_of_not hq, Checked.ensure_bind_of_not hq]

/-- The inner parts of the states on the way may be withheld from every read. -/
theorem squeezeOuter_eq_squeeze (q : Squeezer) (dest : List UInt8) :
    q.squeezeOuter dest = q.squeeze dest := by
  -- both go through the same windows, of which each makes the rest of the buffer shorter
  induction hn : dest.length using Nat.strongRecOn generalizing q dest with
  | _ n ih =>
    subst hn
    rw [squeezeOuter, squeeze]
    by_cases hd : dest = []
    · rw [if_pos hd, if_pos hd]
    · have hpos : 0 < dest.length := List.length_pos_iff.mpr hd
      have hr := q.renew_readable_pos
      have ht : (dest.take q.renew.readable).length ≤ q.renew.readable :=
        List.length_take_le q.renew.readable dest
      have hrest : (dest.drop q.renew.readable).length < dest.length := by
        rw [List.length_drop]
        omega
      rw [if_neg hd, if_neg hd, readOuter_eq_readWindow _ ht]
      simp only [ih _ hrest _ _ rfl]

/-- Byte `j` of what is read is byte `j` of the output to come. -/
theorem getElem?_stream (q : Squeezer) {n j : Nat} (hj : j < n) :
    (q.stream n)[j]? = some (q.streamByte j) := by
  rw [stream, List.getElem?_map, List.getElem?_range hj, Option.map_some]

/-- What is left of the window comes first. -/
theorem getElem?_stream_window {q : Squeezer} {n j : Nat} (hj : j < n) (hr : j < q.readable)
    (hq : q.readable ≤ rateBytes) :
    (q.stream n)[j]? = q.state.bytes[rateBytes - q.readable + j]? := by
  have hl : rateBytes - q.readable + j < q.state.bytes.length := by
    rw [State.length_bytes]
    simp only [rateBytes] at hq ⊢
    omega
  rw [getElem?_stream q hj, streamByte, if_pos hr, List.getElem?_eq_getElem hl,
    List.getElem_eq_getD 0]

/-- Behind the window come the first blocks of the permuted states. -/
theorem getElem?_stream_block {q : Squeezer} {n k : Nat} (hk : q.readable + k < n) :
    (q.stream n)[q.readable + k]? =
      (Nat.repeat State.permute (1 + k / rateBytes) q.state).bytes[k % rateBytes]? := by
  have hl : k % rateBytes <
      (Nat.repeat State.permute (1 + k / rateBytes) q.state).bytes.length := by
    rw [State.length_bytes]
    simp only [rateBytes]
    omega
  rw [getElem?_stream q hk, streamByte, if_neg (by omega)]
  simp only [Nat.add_sub_cancel_left]
  rw [List.getElem?_eq_getElem hl, List.getElem_eq_getD 0]

/-- Clearing leaves the zero state behind an empty window. -/
theorem clear_eq (q : Squeezer) : q.clear = ⟨.zero, 0⟩ := by
  rw [clear, State.clear_eq_zero]

/-- The bytes of a state have its bits. Every stream shows a window of at most one block, whatever
has been read from it and however often it has been cleared, which leaves the zero state and an
empty window. From any such window on, a request of any length succeeds and overwrites the whole
buffer: with the rest of the window as long as it lasts, and then with the first blocks of the state
permuted once, twice, and so on. The stream is left with the state permuted as often as blocks have
been begun, and with a window of what has not been given out of the last of them. Withholding the
inner parts of the states from every read makes no difference. -/
theorem squeeze_closedForm :
    (∀ s : State, Bits.ofBytes s.bytes = s.toBits) ∧
    (∀ s actions, ∃ out q, Checked.thread act (ofState s) actions = .ok (out, q) ∧
      q.readable ≤ rateBytes) ∧
    (∀ q : Squeezer, q.clear = ⟨.zero, 0⟩) ∧
    ∀ (q : Squeezer) (dest : List UInt8), q.readable ≤ rateBytes →
      ∃ bytes last, q.squeeze dest = .ok (bytes, last) ∧
        bytes.length = dest.length ∧
        (∀ j < dest.length, j < q.readable →
          bytes[j]? = q.state.bytes[rateBytes - q.readable + j]?) ∧
        (∀ k, q.readable + k < dest.length → bytes[q.readable + k]? =
          (Nat.repeat State.permute (1 + k / rateBytes) q.state).bytes[k % rateBytes]?) ∧
        last.state = Nat.repeat State.permute (q.permutations dest.length) q.state ∧
        last.readable + dest.length = q.readable + rateBytes * q.permutations dest.length ∧
        q.squeezeOuter dest = .ok (bytes, last) := by
  refine ⟨fun s => s.toBits_eq_ofBytes.symm, ?_, clear_eq, ?_⟩
  · intro s actions
    have hact : ∀ (q : Squeezer) action, q.readable ≤ 136 →
        ∃ bytes next, q.act action = .ok (bytes, next) ∧ next.readable ≤ 136 :=
      fun _ action hq => exists_act hq action
    exact Checked.exists_thread hact (Nat.le_refl 136) actions
  · intro q dest hq
    have hs := squeeze_eq hq dest
    have hn : dest.length ≤ q.readable + 136 * q.permutations dest.length := by
      rw [permutations_eq]
      split <;> omega
    refine ⟨_, _, hs, q.length_stream dest.length, fun j hj hr => getElem?_stream_window hj hr hq,
      fun k hk => getElem?_stream_block hk, rfl, Nat.sub_add_cancel hn, ?_⟩
    rw [squeezeOuter_eq_squeeze, hs]

/-- A request that uses up what is left of a window and all of the next one, and asks for one byte
more. -/
theorem squeeze_closedForm_thirdWindow :
    (⟨.zero, 3⟩ : Squeezer).readable ≤ rateBytes ∧
      Bits.ofBytes State.zero.permute.bytes = State.zero.permute.toBits ∧
      ∃ bytes last, squeeze ⟨.zero, 3⟩ (List.replicate 140 9) = .ok (bytes, last) ∧
        bytes.length = 140 ∧ bytes[2]? = State.zero.bytes[135]? ∧
        bytes[3]? = State.zero.permute.bytes[0]? ∧
        bytes[139]? = State.zero.permute.permute.bytes[0]? ∧
        last.state = State.zero.permute.permute ∧ last.readable = 135 ∧
        squeezeOuter ⟨.zero, 3⟩ (List.replicate 140 9) = .ok (bytes, last) := by
  have hq : (⟨.zero, 3⟩ : Squeezer).readable ≤ rateBytes := by decide
  obtain ⟨hbits, -, -, hrequest⟩ := squeeze_closedForm
  obtain ⟨bytes, last, hs, hl, hwindow, hblock, hstate, hreadable, houter⟩ :=
    hrequest ⟨.zero, 3⟩ (List.replicate 140 9) hq
  rw [List.length_replicate] at hl hwindow hblock hstate hreadable
  have hlast : last.readable + 140 = 3 + 136 * 2 := hreadable
  exact ⟨hq, hbits _, bytes, last, hs, hl, hwindow 2 (by decide) (by decide), hblock 0 (by decide),
    hblock 136 (by decide), hstate, by omega, houter⟩

end Squeezer

end Shake
