import Shake.Proofs.Permutation.Lanes

/-!
# The walk over the lanes

`State.rhoPi` carries one lane from place to place along the walk `(x, y) ↦ (y, 2x + 3y)`. Since
the walk meets no place twice, every place receives the lane that stood at the place before it,
turned by the triangular number of the step (`State.Walked`). On bits this is `BitArray.rho`
followed by `BitArray.pi`, which take the lane at the origin along without moving it.
-/

namespace Shake

namespace State

/-- The index of the lane at a column and a plane. -/
def place (c : Fin 5 × Fin 5) : Fin 25 := ⟨5 * c.2.val + c.1.val, by omega⟩

/-- The index of the lane that the walk reaches at step `t`. -/
def walkPlace (t : Nat) : Fin 25 := place (BitArray.walk t)

/-- The turn of a lane on its way from step `t` to the next. -/
def walkTurn (t : Nat) : Nat := (t + 1) * (t + 2) / 2 % 64

theorem walkTurn_lt (t : Nat) : walkTurn t < 64 := Nat.mod_lt _ (Nat.zero_lt_succ 63)

/-- The two tables are the walk and its turns. -/
theorem zip_walkTargets : walkTargets.zip walkRotations =
    (List.range 24).map fun t => (walkPlace (t + 1), walkTurn t) := by decide

/-- The walk meets no place twice. -/
theorem walkPlace_ne : ∀ n < 24, ∀ t < n, walkPlace (t + 1) ≠ walkPlace (n + 1) := by decide

/-- Lanes and the lane in hand after `n` steps of the walk from `lanes`. -/
structure Walked (lanes : Vector UInt64 25) (n : Nat) (s : Vector UInt64 25 × UInt64) : Prop where
  /-- The lane in hand is the one that stood at the place reached last. -/
  held : s.2 = lanes[walkPlace n]
  /-- Every place reached has the lane of the place before it. -/
  moved : ∀ t < n, s.1[walkPlace (t + 1)] = Lane.rotate lanes[walkPlace t] (walkTurn t)
  /-- No other place has changed. -/
  kept : ∀ i : Fin 25, (∀ t < n, walkPlace (t + 1) ≠ i) → s.1[i] = lanes[i]

/-- A step puts down the lane in hand at its target. -/
theorem walkStep_target (s : Vector UInt64 25 × UInt64) (i : Fin 25) (turn : Nat) :
    (walkStep s (i, turn)).1[i] = Lane.rotate s.2 turn :=
  Vector.getElem_set_self i.isLt

/-- A step changes no other place. -/
theorem walkStep_of_ne (s : Vector UInt64 25 × UInt64) {step : Fin 25 × Nat} {i : Fin 25}
    (hi : step.1 ≠ i) : (walkStep s step).1[i] = s.1[i] :=
  Vector.getElem_set_ne step.1.isLt i.isLt fun h => hi (Fin.ext h)

/-- One more step of the walk. -/
theorem Walked.step {lanes : Vector UInt64 25} {n : Nat} {s : Vector UInt64 25 × UInt64}
    (h : Walked lanes n s) (hn : n < 24) :
    Walked lanes (n + 1) (walkStep s (walkPlace (n + 1), walkTurn n)) := by
  -- the target is new on the walk, so it still has its first lane, and no earlier place is hit
  refine ⟨h.kept _ (walkPlace_ne n hn), fun t ht => ?_, fun i hi => ?_⟩
  · rcases Nat.lt_succ_iff_lt_or_eq.mp ht with hlt | rfl
    · rw [walkStep_of_ne s (walkPlace_ne n hn t hlt).symm]
      exact h.moved t hlt
    · rw [← h.held]
      exact walkStep_target s (walkPlace (t + 1)) (walkTurn t)
  · rw [walkStep_of_ne s (hi n (Nat.lt_succ_self n))]
    exact h.kept i fun t ht => hi t (Nat.lt_succ_of_lt ht)

/-- The walk up to any of its steps. -/
theorem walked_foldl (lanes : Vector UInt64 25) {n : Nat} (hn : n ≤ 24) :
    Walked lanes n (((List.range n).map fun t => (walkPlace (t + 1), walkTurn t)).foldl walkStep
      (lanes, lanes[walkPlace 0])) := by
  induction n with
  | zero => exact ⟨rfl, fun t ht => absurd ht (Nat.not_lt_zero t), fun _ _ => rfl⟩
  | succ n ih =>
    rw [List.range_succ, List.map_append, List.foldl_append]
    exact (ih (by omega)).step hn

/-- The lanes after the whole walk. -/
theorem walked_rhoPi (s : State) : ∃ w, Walked s.lanes 24 ((rhoPi s).lanes, w) := by
  have h := walked_foldl s.lanes (Nat.le_refl 24)
  rw [← zip_walkTargets] at h
  exact ⟨_, h⟩

end State

namespace BitArray

/-- The walk comes to every place but the origin. -/
theorem exists_walk : ∀ x y : Fin 5, (x, y) ≠ (0, 0) → ∃ t < 24, walk (t + 1) = (x, y) := by
  decide

/-- The offset of a place is the triangular number of the step that leaves it. -/
theorem offset_walk : ∀ t < 24, offset (walk t).1 (walk t).2 = (t + 1) * (t + 2) / 2 := by decide

/-- The place before a place of the walk is where `pi` takes its lane from. -/
theorem walk_eq_of_succ {t : Nat} {x y : Fin 5} (h : walk (t + 1) = (x, y)) :
    walk t = (x + 3 * y, x) := by
  have hback : ∀ a b : Fin 5, b + 3 * (2 * a + 3 * b) = a := by decide
  obtain ⟨rfl, rfl⟩ := Prod.mk.inj h
  rw [hback]

/-- The walk on lanes turns and moves the bits. -/
theorem ofState_rhoPi (s : State) : ofState (State.rhoPi s) = pi (rho (ofState s)) := by
  obtain ⟨w, hw⟩ := s.walked_rhoPi
  funext x y z
  rw [pi, rho, ofState_apply, ofState_apply]
  by_cases hxy : (x, y) = (0, 0)
  · obtain ⟨rfl, rfl⟩ := Prod.mk.inj hxy
    have hz : ∀ z : Fin 64, z - Fin.ofNat 64 (offset (0 + 3 * 0) 0) = z := by decide
    rw [hz]
    exact congrArg (Lane.bit · z) (hw.kept 0 (by decide))
  · obtain ⟨t, ht, hxy⟩ := exists_walk x y hxy
    have hmoved : (State.rhoPi s).lane (walk (t + 1)).1 (walk (t + 1)).2 =
        Lane.rotate (s.lane (walk t).1 (walk t).2) (State.walkTurn t) := hw.moved t ht
    have hoffset := offset_walk t ht
    rw [hxy, walk_eq_of_succ hxy] at hmoved
    rw [walk_eq_of_succ hxy] at hoffset
    have hturn : Fin.ofNat 64 (State.walkTurn t) = Fin.ofNat 64 (offset (x + 3 * y) x) := by
      rw [hoffset]
      exact Fin.ext (Nat.mod_mod _ 64)
    rw [← hturn, ← Lane.bit_rotate _ (State.walkTurn_lt t)]
    exact congrArg (Lane.bit · z) hmoved

end BitArray

end Shake
