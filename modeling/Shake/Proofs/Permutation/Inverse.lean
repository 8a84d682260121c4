import Mathlib.Algebra.Group.Fin.Basic
import Mathlib.Data.Finite.Prod
import Mathlib.Data.Fintype.Card
import Mathlib.Logic.Function.Iterate
import Shake.Proofs.Permutation.Rounds

/-!
# The permutation can be undone

Every step mapping has an inverse. For `rho`, `pi` and `chi` it is written down. `theta` comes back
to the start by itself: applied twice it does what it does once, with all distances doubled
(`BitArray.thetaBy`). After 64 times no turn is left, and the columns alone close up after 192.
No two states then have the same image, and since there are finitely many, every state is one.
-/

namespace Shake

namespace BitArray

/-- Add to every bit the parities of the columns `d` places before and behind, the latter `e` bits
further down. -/
def thetaBy (d : Fin 5) (e : Fin 64) (a : BitArray) : BitArray := fun x y z =>
  a x y z ^^ (a.parity (x - d) z ^^ a.parity (x + d) (z - e))

/-- Adding one bit to the five bits of a column adds it to their parity. -/
theorem parity_thetaBy (d : Fin 5) (e : Fin 64) (a : BitArray) (x : Fin 5) (z : Fin 64) :
    (thetaBy d e a).parity x z =
      (a.parity x z ^^ (a.parity (x - d) z ^^ a.parity (x + d) (z - e))) := by
  have hodd : ∀ a b c d e p : Bool,
      ((a ^^ p) ^^ (b ^^ p) ^^ (c ^^ p) ^^ (d ^^ p) ^^ (e ^^ p)) =
        ((a ^^ b ^^ c ^^ d ^^ e) ^^ p) := by decide
  exact hodd ..

/-- Twice is once with all distances doubled: what is added on both ways cancels. -/
theorem thetaBy_thetaBy (d : Fin 5) (e : Fin 64) (a : BitArray) :
    thetaBy d e (thetaBy d e a) = thetaBy (d + d) (e + e) a := by
  have hcancel : ∀ a p q r s t : Bool,
      ((a ^^ (p ^^ q)) ^^ ((p ^^ (r ^^ s)) ^^ (q ^^ (s ^^ t)))) = (a ^^ (r ^^ t)) := by decide
  funext x y z
  rw [thetaBy, parity_thetaBy, parity_thetaBy, thetaBy, thetaBy, sub_add_cancel,
    add_sub_cancel_right, sub_sub, sub_sub, add_assoc]
  exact hcancel ..

/-- Any power of two of `theta` reaches as far as its exponent says. -/
theorem theta_iterate_two_pow (k : Nat) :
    theta^[2 ^ k] = thetaBy (Fin.ofNat 5 (2 ^ k)) (Fin.ofNat 64 (2 ^ k)) := by
  induction k with
  | zero => rfl
  | succ k ih =>
    have hx : Fin.ofNat 5 (2 ^ k + 2 ^ k) = Fin.ofNat 5 (2 ^ k) + Fin.ofNat 5 (2 ^ k) :=
      Fin.ext (Nat.add_mod ..)
    have hz : Fin.ofNat 64 (2 ^ k + 2 ^ k) = Fin.ofNat 64 (2 ^ k) + Fin.ofNat 64 (2 ^ k) :=
      Fin.ext (Nat.add_mod ..)
    funext a
    rw [Nat.pow_succ, Nat.mul_two, Function.iterate_add_apply, ih, thetaBy_thetaBy, hx, hz]

/-- Once the turns have gone round, distances of three and of four columns undo each other. -/
theorem thetaBy_columns (a : BitArray) : thetaBy 3 0 (thetaBy 4 0 a) = a := by
  have hback : ∀ x : Fin 5, x - 4 = x + 1 ∧ x - 3 = x + 2 ∧ x + 2 + 1 = x + 3 ∧
      x + 2 + 4 = x + 1 ∧ x + 3 + 1 = x + 4 ∧ x + 3 + 4 = x + 2 := by decide
  have hturn : ∀ z : Fin 64, z - 0 = z := by decide
  have hcancel : ∀ a p q r s : Bool,
      ((a ^^ (p ^^ s)) ^^ ((q ^^ (r ^^ p)) ^^ (r ^^ (s ^^ q)))) = a := by decide
  funext x y z
  rw [thetaBy, parity_thetaBy, parity_thetaBy, thetaBy]
  simp only [hback, hturn]
  exact hcancel ..

/-- `theta` comes back to the start. -/
theorem theta_iterate_period (a : BitArray) : theta^[192] a = a := by
  -- modulo 5 and 64, the distances `2 ^ 7` and `2 ^ 6` are three and four columns and no turn
  rw [show 192 = 2 ^ 7 + 2 ^ 6 by decide, Function.iterate_add_apply, theta_iterate_two_pow,
    theta_iterate_two_pow]
  exact thetaBy_columns a

theorem theta_injective : Function.Injective theta := by
  have h : Function.LeftInverse theta^[191] theta := by
    intro a
    rw [← Function.iterate_succ_apply]
    exact theta_iterate_period a
  exact h.injective

theorem rho_injective : Function.Injective rho := by
  have h : Function.LeftInverse (fun a x y z => a x y (z + Fin.ofNat 64 (offset x y))) rho := by
    intro a
    funext x y z
    exact congrArg (a x y) (add_sub_cancel_right z _)
  exact h.injective

theorem pi_injective : Function.Injective pi := by
  have hx : ∀ x y : Fin 5, y + 3 * (2 * x + 3 * y) = x := by decide
  have h : Function.LeftInverse (fun a x y z => a y (2 * x + 3 * y) z) pi := by
    intro a
    funext x y z
    exact congrArg (a · y z) (hx x y)
  exact h.injective

/-- Undo `chi`, row by row. -/
def unchi (a : BitArray) : BitArray := fun x y z =>
  a x y z ^^ (!a (x + 1) y z && (a (x + 2) y z ^^ (!a (x + 3) y z && a (x + 4) y z)))

theorem unchi_chi (a : BitArray) : unchi (chi a) = a := by
  have hwrap : ∀ x : Fin 5, x + 1 + 1 = x + 2 ∧ x + 1 + 2 = x + 3 ∧ x + 2 + 1 = x + 3 ∧
      x + 2 + 2 = x + 4 ∧ x + 3 + 1 = x + 4 ∧ x + 3 + 2 = x ∧ x + 4 + 1 = x ∧
      x + 4 + 2 = x + 1 := by decide
  have hrow : ∀ a b c d e : Bool,
      ((a ^^ (!b && c)) ^^ (!(b ^^ (!c && d)) &&
        ((c ^^ (!d && e)) ^^ (!(d ^^ (!e && a)) && (e ^^ (!a && b)))))) = a := by decide
  funext x y z
  simp only [unchi, chi, hwrap]
  exact hrow ..

theorem chi_injective : Function.Injective chi :=
  Function.LeftInverse.injective unchi_chi

end BitArray

namespace State

/-- Adding a constant twice takes it away again. -/
theorem iota_iota (c : UInt64) (s : State) : iota c (iota c s) = s := by
  apply ext_lane
  intro x y
  rw [lane_iota, lane_iota]
  split
  · rw [UInt64.xor_assoc, UInt64.xor_self, UInt64.xor_zero]
  · rfl

/-- A round keeps different states apart, whatever its constant. -/
theorem round_injective (c : UInt64) : Function.Injective (round · c) := by
  intro s t h
  have hchi : chi (rhoPi (theta s)) = chi (rhoPi (theta t)) :=
    Function.LeftInverse.injective (iota_iota c) h
  have hbits := congrArg BitArray.ofState hchi
  rw [BitArray.ofState_chi, BitArray.ofState_chi, BitArray.ofState_rhoPi, BitArray.ofState_rhoPi,
    BitArray.ofState_theta, BitArray.ofState_theta] at hbits
  exact BitArray.ofState_inj.mp (BitArray.theta_injective (BitArray.rho_injective
    (BitArray.pi_injective (BitArray.chi_injective hbits))))

/-- Any number of rounds keeps different states apart. -/
theorem eq_of_foldl_round_eq {cs : List UInt64} {s t : State}
    (h : cs.foldl round s = cs.foldl round t) : s = t := by
  induction cs generalizing s t with
  | nil => exact h
  | cons c cs ih =>
    rw [List.foldl_cons, List.foldl_cons] at h
    have hc : s.round c = t.round c := ih h
    exact round_injective c hc

theorem permute_injective : Function.Injective permute := by
  intro s t h
  rw [permute, permute] at h
  exact eq_of_foldl_round_eq h

/-- A state has 1600 bits, so there are finitely many. -/
instance finite : Finite State :=
  Finite.of_injective BitArray.ofState fun _ _ h => BitArray.ofState_inj.mp h

theorem permute_surjective : Function.Surjective permute :=
  Finite.surjective_of_injective permute_injective

/-- The permutation maps the states onto each other, one to one. -/
theorem permute_bijective : Function.Bijective permute :=
  ⟨permute_injective, permute_surjective⟩

end State

end Shake
