import Shake.Proofs.Bytes.Blocks
import Shake.Squeezer.Action

/-!
# Reading a stream

Behind every squeezer lies one endless byte sequence, that of its state (`State.outputByte`), and
the window marks a position in it. Reading gives the bytes from that position on and moves it by
their number, however the request lies to the edges of the windows. So reads add up: bytes and
final state of two reads are those of one.
-/

namespace Shake

/-- More repetitions are repetitions of what came before. -/
theorem repeat_add {α : Type} (f : α → α) (m n : Nat) (a : α) :
    Nat.repeat f (m + n) a = Nat.repeat f n (Nat.repeat f m a) := by
  induction n with
  | zero => rfl
  | succ n ih => rw [← Nat.add_assoc, Nat.repeat, ih, Nat.repeat]

namespace State

/-- Byte `j` of the output that starts with the first block of a state. -/
def outputByte (s : State) (j : Nat) : UInt8 :=
  (Nat.repeat permute (j / rateBytes) s).bytes.getD (j % rateBytes) 0

/-- The output of a permuted state lies as many blocks ahead. -/
theorem outputByte_repeat (s : State) (k j : Nat) :
    (Nat.repeat permute k s).outputByte j = s.outputByte (136 * k + j) := by
  rw [outputByte, outputByte, ← repeat_add]
  simp only [rateBytes]
  rw [Nat.mul_add_div (by decide), Nat.mul_add_mod]

end State

namespace Squeezer

@[simp] theorem ofState_state (s : State) : (ofState s).state = s := rfl

@[simp] theorem ofState_readable (s : State) : (ofState s).readable = 136 := rfl

theorem permutations_eq (q : Squeezer) (n : Nat) :
    q.permutations n = if n ≤ q.readable then 0 else (n - q.readable + 135) / 136 := rfl

theorem advance_readable (q : Squeezer) (n : Nat) :
    (q.advance n).readable = q.readable + 136 * q.permutations n - n := rfl

/-- The window marks a position in the output of the state. -/
theorem streamByte_eq {q : Squeezer} (hq : q.readable ≤ 136) (j : Nat) :
    q.streamByte j = q.state.outputByte (136 - q.readable + j) := by
  rw [streamByte, State.outputByte]
  simp only [rateBytes]
  by_cases hj : j < q.readable
  · rw [if_pos hj, Nat.div_eq_of_lt (by omega), Nat.mod_eq_of_lt (by omega)]
    rfl
  · have hd : (136 - q.readable + j) / 136 = 1 + (j - q.readable) / 136 := by omega
    have hm : (136 - q.readable + j) % 136 = (j - q.readable) % 136 := by omega
    rw [if_neg hj, hd, hm]

@[simp] theorem length_stream (q : Squeezer) (n : Nat) : (q.stream n).length = n := by
  rw [stream, List.length_map, List.length_range]

@[simp] theorem stream_zero (q : Squeezer) : q.stream 0 = [] := rfl

@[simp] theorem advance_zero (q : Squeezer) : q.advance 0 = q := by
  simp only [advance, permutations, Nat.zero_le, ite_true, Nat.mul_zero, Nat.add_zero, Nat.sub_zero]
  rfl

/-- A window never shows more than one block. -/
theorem advance_readable_le {q : Squeezer} (hq : q.readable ≤ 136) (n : Nat) :
    (q.advance n).readable ≤ 136 := by
  rw [advance_readable, permutations_eq]
  split <;> omega

/-- What is still to come after `m` bytes is what came behind them before. -/
theorem streamByte_advance {q : Squeezer} (hq : q.readable ≤ 136) (m j : Nat) :
    (q.advance m).streamByte j = q.streamByte (m + j) := by
  rw [streamByte_eq (advance_readable_le hq m), streamByte_eq hq]
  rw [advance_readable, advance, State.outputByte_repeat, permutations_eq]
  congr 1
  split <;> omega

/-- Reading in two parts takes as many permutations as reading at once. -/
theorem permutations_add (q : Squeezer) (m n : Nat) :
    q.permutations m + (q.advance m).permutations n = q.permutations (m + n) := by
  rw [permutations_eq (q.advance m), advance_readable, permutations_eq q m, permutations_eq]
  split <;> split <;> split <;> omega

/-- Moving on in two parts is moving on at once. -/
theorem advance_add (q : Squeezer) (m n : Nat) : (q.advance m).advance n = q.advance (m + n) := by
  have hp := q.permutations_add m n
  apply Squeezer.ext
  · change Nat.repeat _ ((q.advance m).permutations n) (Nat.repeat _ (q.permutations m) q.state) = _
    rw [← repeat_add, hp]
    rfl
  · rw [advance_readable, advance_readable, advance_readable, ← hp,
      permutations_eq (q.advance m), advance_readable, permutations_eq q m]
    split <;> split <;> omega

/-- Two parts of the stream make up one. -/
theorem stream_add {q : Squeezer} (hq : q.readable ≤ 136) (m n : Nat) :
    q.stream (m + n) = q.stream m ++ (q.advance m).stream n := by
  rw [stream, List.range_add, List.map_append, List.map_map, stream, stream]
  congr 1
  apply List.map_congr_left
  intro j _
  exact (streamByte_advance hq m j).symm

theorem renew_readable_le {q : Squeezer} (hq : q.readable ≤ 136) : q.renew.readable ≤ 136 := by
  rw [renew]
  split
  · exact Nat.le_refl 136
  · exact hq

/-- Renewing the window changes none of the bytes to come. -/
theorem stream_renew (q : Squeezer) (n : Nat) : q.renew.stream n = q.stream n := by
  rw [renew]
  split
  · rename_i hz
    have h₁ : (ofState q.state.permute).readable ≤ 136 := Nat.le_refl 136
    apply List.map_congr_left
    intro j _
    rw [streamByte_eq h₁, streamByte_eq (by omega), hz]
    change (Nat.repeat State.permute 1 q.state).outputByte _ = _
    rw [State.outputByte_repeat]
    congr 1
    rw [ofState_readable]
    omega
  · rfl

/-- Renewing the window is part of reading any byte. -/
theorem advance_renew (q : Squeezer) {n : Nat} (hn : 0 < n) : q.renew.advance n = q.advance n := by
  rw [renew]
  split
  · rename_i hz
    have hp : q.permutations n = 1 + (ofState q.state.permute).permutations n := by
      rw [permutations_eq, permutations_eq, ofState_readable, hz, if_neg (by omega)]
      split <;> omega
    apply Squeezer.ext
    · change Nat.repeat _ _ (Nat.repeat State.permute 1 q.state) = Nat.repeat _ _ q.state
      rw [hp, repeat_add]
    · rw [advance_readable, advance_readable, ofState_readable, hp, hz]
      omega
  · rfl

/-- As long as the window lasts, the stream is what the window shows of the state. -/
theorem take_drop_bytes_eq {q : Squeezer} (hq : q.readable ≤ 136) {n : Nat} (h : n ≤ q.readable) :
    (q.state.bytes.drop (rateBytes - q.readable)).take n = q.stream n := by
  apply List.ext_getElem
  · rw [List.length_take, List.length_drop, State.length_bytes, length_stream]
    simp only [rateBytes]
    omega
  · intro j hj _
    have hl : j < n := by
      rw [List.length_take] at hj
      omega
    simp only [List.getElem_take, List.getElem_drop, stream, List.getElem_map,
      List.getElem_range]
    rw [streamByte, if_pos (by omega)]
    exact List.getElem_eq_getD 0

/-- As long as the window lasts, it takes no permutation to move on. -/
theorem advance_of_le {q : Squeezer} {n : Nat} (h : n ≤ q.readable) :
    q.advance n = { q with readable := q.readable - n } := by
  simp only [advance, permutations, if_pos h, Nat.mul_zero, Nat.add_zero]
  rfl

/-- A request within the window is met from the state. -/
theorem readWindow_eq {q : Squeezer} (hq : q.readable ≤ 136) {dest : List UInt8}
    (h : dest.length ≤ q.readable) :
    q.readWindow dest = .ok (q.stream dest.length, q.advance dest.length) := by
  have hw : rateBytes - q.readable + dest.length ≤ stateBytes := by
    simp only [rateBytes, stateBytes]
    omega
  rw [readWindow, Checked.ensure_bind_of hq, q.state.extract_eq_take_drop hw, Checked.ok_bind,
    take_drop_bytes_eq hq h, advance_of_le h]
  rfl

/-- Reading from a window of at most one block always succeeds. It gives the next bytes of the
stream and leaves the stream behind them. -/
theorem squeeze_eq {q : Squeezer} (hq : q.readable ≤ 136) (dest : List UInt8) :
    q.squeeze dest = .ok (q.stream dest.length, q.advance dest.length) := by
  -- every round reads one window, so what is left to fill gets shorter
  induction hn : dest.length using Nat.strongRecOn generalizing q dest with
  | _ n ih =>
    subst hn
    by_cases hd : dest = []
    · rw [squeeze, if_pos hd, hd, List.length_nil, stream_zero, advance_zero]
    · have hpos : 0 < dest.length := List.length_pos_iff.mpr hd
      have hr := q.renew_readable_pos
      have hl := renew_readable_le hq
      have ht : (dest.take q.renew.readable).length ≤ q.renew.readable :=
        List.length_take_le q.renew.readable dest
      have hk : (dest.take q.renew.readable).length + (dest.drop q.renew.readable).length =
          dest.length := by
        rw [← List.length_append, List.take_append_drop]
      rw [squeeze, if_neg hd, readWindow_eq hl ht, Checked.ok_bind]
      dsimp only
      rw [ih _ (by rw [List.length_drop]; omega) (advance_readable_le hl _) _ rfl,
        Checked.ok_bind]
      dsimp only
      rw [← stream_add hl, advance_add, hk, stream_renew, advance_renew q hpos]
      rfl

/-- No action makes a window larger than one block. -/
theorem exists_act {q : Squeezer} (hq : q.readable ≤ 136) (action : Action) :
    ∃ bytes next, q.act action = .ok (bytes, next) ∧ next.readable ≤ 136 := by
  cases action with
  | squeeze dest => exact ⟨_, _, squeeze_eq hq dest, advance_readable_le hq dest.length⟩
  | clear => exact ⟨[], q.clear, rfl, Nat.zero_le 136⟩

/-- The stream that starts with a state is its output. -/
theorem stream_ofState (s : State) (n : Nat) :
    (ofState s).stream n = (List.range n).map s.outputByte := by
  apply List.map_congr_left
  intro j _
  rw [streamByte_eq (Nat.le_refl 136)]
  rw [ofState_readable, ofState_state, Nat.sub_self, Nat.zero_add]

end Squeezer

end Shake
