import Shake.Lane.Basic

/-!
# The sponge state

The 1600 bits of the sponge are 25 lanes. Input is added to the leading lanes and output is read
from the leading bytes; both use the byte order of `Shake.Lane`. The permutation sees the
lanes as five planes of five columns: lane `5 * y + x` is the one at column `x` of plane `y`.
-/

namespace Shake

/-- Columns and planes are counted modulo five, which leaves room for zero. -/
instance neZero_five : @NeZero Nat Zero.ofOfNat0 5 := ⟨Nat.succ_ne_zero 4⟩

/-- The contents of the sponge. -/
@[ext] structure State where
  /-- The lanes, those that input and output reach first. -/
  lanes : Vector UInt64 25
  deriving DecidableEq

namespace State

/-- The state in which every bit is zero. -/
def zero : State := ⟨Vector.replicate stateLanes 0⟩

instance : Inhabited State := ⟨zero⟩

/-- The lane at column `x` of plane `y`. -/
def lane (s : State) (x y : Fin 5) : UInt64 := s.lanes[5 * y.val + x.val]

/-- The state with lane `f x y` at column `x` of plane `y`. -/
def ofLanes (f : Fin 5 → Fin 5 → UInt64) : State :=
  ⟨Vector.ofFn fun i : Fin 25 => f ⟨i.val % 5, by omega⟩ ⟨i.val / 5, by omega⟩⟩

/-- Overwrite every lane with zero. -/
def clear (s : State) : State := ⟨s.lanes.map fun _ => 0⟩

/-- Add a list of lanes to the leading lanes of the state. -/
def xorLanes (s : State) (words : List UInt64) : Checked State := do
  Checked.ensure (words.length ≤ stateLanes) .tooManyLanes
  return ⟨s.lanes.mapIdx fun i w => w ^^^ words.getD i 0⟩

/-- Add a block of whole lanes, given by its bytes, to the leading bytes of the state. -/
def xorBlock (s : State) (block : List UInt8) : Checked State := do
  Checked.ensure (block.length % laneBytes = 0 ∧ block.length ≤ stateBytes) .blockLength
  s.xorLanes (← Lane.load block (List.replicate (block.length / laneBytes) 0))

/-- The bytes of the state from index `offset` on, in place of the bytes of `dest`. -/
def extract (s : State) (offset : Nat) (dest : List UInt8) : Checked (List UInt8) :=
  Lane.extract s.lanes.toList offset dest

/-- A description that reveals nothing of the contents. -/
def describe (_ : State) : String := "SpongeState \x7b .. \x7d"

@[simp] theorem lane_ofLanes (f : Fin 5 → Fin 5 → UInt64) (x y : Fin 5) :
    (ofLanes f).lane x y = f x y := by
  simp only [lane, ofLanes, Vector.getElem_ofFn]
  congr <;> omega

/-- Two states with the same lane at every place are the same. -/
theorem ext_lane {s t : State} (h : ∀ x y, s.lane x y = t.lane x y) : s = t := by
  apply State.ext
  apply Vector.ext
  intro i hi
  have hl := h ⟨i % 5, by omega⟩ ⟨i / 5, by omega⟩
  simpa only [lane, show 5 * (i / 5) + i % 5 = i by omega] using hl

/-- Clearing leaves no trace of the former contents. -/
theorem clear_eq_zero (s : State) : s.clear = zero := by
  apply State.ext
  apply Vector.ext
  intro i hi
  simp only [clear, zero, Vector.getElem_map, Vector.getElem_replicate]

end State

end Shake
