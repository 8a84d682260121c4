import Shake.Proofs.Permutation.Walk

/-!
# The permutation, bit by bit

Each step mapping on lanes is the step mapping of the same name on the array of bits, the table of
round constants holds the output of the shift register, and so the states agree after every round.
-/

namespace Shake

namespace State

theorem lane_theta (s : State) (x y : Fin 5) :
    s.theta.lane x y = s.lane x y ^^^ (s.parity (x + 4) ^^^ Lane.rotate (s.parity (x + 1)) 1) := by
  rw [theta, lane_ofLanes, Fin.getElem_fin, Fin.getElem_fin, Vector.getElem_ofFn,
    Vector.getElem_ofFn]

theorem lane_chi (s : State) (x y : Fin 5) :
    s.chi.lane x y = s.lane x y ^^^ (~~~ s.lane (x + 1) y &&& s.lane (x + 2) y) :=
  lane_ofLanes _ x y

/-- Only the lane at the origin takes up the constant. -/
theorem lane_iota (c : UInt64) (s : State) (x y : Fin 5) :
    (iota c s).lane x y = if x = 0 ∧ y = 0 then s.lane x y ^^^ c else s.lane x y := by
  by_cases h : x = 0 ∧ y = 0
  · obtain ⟨rfl, rfl⟩ := h
    exact Vector.getElem_set_self (show 0 < 25 by decide)
  · rw [if_neg h]
    refine Vector.getElem_set_ne (show 0 < 25 by decide) _ fun h0 => h ?_
    exact ⟨Fin.ext (by omega), Fin.ext (by omega)⟩

end State

namespace BitArray

/-- The parity of the lanes of a column holds the parities of its bits. -/
theorem bit_parity (s : State) (x : Fin 5) (z : Fin 64) :
    Lane.bit (s.parity x) z = (ofState s).parity x z := by
  simp only [State.parity, parity, ofState_apply, Lane.bit_xor]

theorem ofState_theta (s : State) : ofState s.theta = (ofState s).theta := by
  have hprev : ∀ x : Fin 5, x + 4 = x - 1 := by decide
  funext x y z
  rw [ofState_apply, State.lane_theta, Lane.bit_xor, Lane.bit_xor, bit_parity,
    Lane.bit_rotate _ (by decide), bit_parity, hprev]
  rfl

theorem ofState_chi (s : State) : ofState s.chi = (ofState s).chi := by
  funext x y z
  rw [ofState_apply, State.lane_chi, Lane.bit_xor, Lane.bit_and, Lane.bit_not]
  rfl

/-- The table of round constants holds what the shift register puts out. -/
theorem bit_roundConstants : ∀ i : Fin 24, ∀ z : Fin 64,
    Lane.bit (State.roundConstants.getD i 0) z = roundConstant i z := by
  decide +kernel

theorem ofState_iota (s : State) {i : Nat} (hi : i < 24) :
    ofState (State.iota (State.roundConstants.getD i 0) s) = iota i (ofState s) := by
  funext x y z
  rw [ofState_apply, State.lane_iota, iota]
  split
  · rw [Lane.bit_xor, bit_roundConstants ⟨i, hi⟩ z, ofState_apply]
  · rfl

/-- A round on lanes is a round on bits. -/
theorem ofState_round (s : State) {i : Nat} (hi : i < 24) :
    ofState (s.round (State.roundConstants.getD i 0)) = round (ofState s) i := by
  rw [State.round, ofState_iota _ hi, ofState_chi, ofState_rhoPi, ofState_theta, round]

/-- Lanes and bits agree after every round. -/
theorem ofState_foldl_round (s : State) {n : Nat} (hn : n ≤ 24) :
    ofState ((State.roundConstants.take n).foldl State.round s) =
      (List.range n).foldl round (ofState s) := by
  induction n with
  | zero => rfl
  | succ n ih =>
    have hlt : n < State.roundConstants.length := hn
    have hlast : State.roundConstants.take (n + 1) =
        State.roundConstants.take n ++ [State.roundConstants.getD n 0] := by
      rw [List.take_succ_eq_append_getElem hlt, List.getD_eq_getElem?_getD,
        List.getElem?_eq_getElem hlt, Option.getD_some]
    rw [hlast, List.foldl_append, List.foldl_cons, List.foldl_nil, ofState_round _ hn,
      ih (Nat.le_of_succ_le hn), List.range_succ, List.foldl_append, List.foldl_cons,
      List.foldl_nil]

/-- The permutation of a state is Keccak-f[1600] on its bits. -/
theorem ofState_permute (s : State) : ofState s.permute = (ofState s).permute := by
  have hall : State.roundConstants.take 24 = State.roundConstants := rfl
  rw [State.permute, permute, ← ofState_foldl_round s (Nat.le_refl 24), hall]

end BitArray

end Shake
