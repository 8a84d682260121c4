import Shake.Bits.Sponge
import Shake.Proofs.Bytes.Spelling

/-!
# Bytes, lanes and states as bit strings

Reading a byte string as bits turns joining, cutting and adding bytes into the same operations on
bits, and loses nothing: the bytes come back from their bits, and a state from its own. A state
is read the same way through its lanes as through the bytes that they spell.
-/

namespace Shake.Bits

@[simp] theorem length_lowest (n k : Nat) : (lowest n k).length = n := by
  rw [lowest, List.length_map, List.length_range]

/-- The string of the lowest bits shows each of them at its own index. -/
theorem getElem_lowest (n k : Nat) {i : Nat} (hi : i < (lowest n k).length) :
    (lowest n k)[i] = k.testBit i := by
  simp only [lowest, List.getElem_map, List.getElem_range]

/-- The lowest bit comes first, and those of the half follow. -/
theorem lowest_succ (n k : Nat) : lowest (n + 1) k = k.testBit 0 :: lowest n (k / 2) := by
  rw [lowest, List.range_succ_eq_map, List.map_cons, List.map_map, lowest]
  congr 1
  apply List.map_congr_left
  intro i _
  exact Nat.testBit_succ k i

/-- A number with no bit beyond the string is given back by it. -/
theorem toNat_lowest {n k : Nat} (h : ∀ i, n ≤ i → k.testBit i = false) :
    toNat (lowest n k) = k := by
  induction n generalizing k with
  | zero =>
    have hk : k = 0 := by
      apply Nat.eq_of_testBit_eq
      intro i
      rw [h i (Nat.zero_le i), Nat.zero_testBit]
    rw [hk]
    rfl
  | succ n ih =>
    have hh : toNat (lowest n (k / 2)) = k / 2 := by
      apply ih
      intro i hi
      rw [← Nat.testBit_succ, h (i + 1) (Nat.succ_le_succ hi)]
    have hb : (k.testBit 0).toNat = k % 2 := by
      rw [Nat.testBit_zero]
      rcases Nat.mod_two_eq_zero_or_one k with h | h <;> simp [h]
    rw [lowest_succ, toNat, List.foldr_cons, hb]
    change k % 2 + 2 * toNat (lowest n (k / 2)) = k
    rw [hh, Nat.mod_add_div]

/-- Pieces of one length that are laid end to end can be cut out again. -/
theorem slice_flatMap {α : Type} {f : α → List Bool} {n : Nat} (hf : ∀ x, (f x).length = n)
    (xs : List α) {i : Nat} (hi : i < xs.length) : slice (xs.flatMap f) (n * i) n = f xs[i] := by
  induction xs generalizing i with
  | nil => exact absurd hi (Nat.not_lt_zero i)
  | cons x xs ih =>
    cases i with
    | zero =>
      rw [List.flatMap_cons, slice, Nat.mul_zero, List.drop_zero, List.take_left' (hf x),
        List.getElem_cons_zero]
    | succ i =>
      have hd : (f x ++ xs.flatMap f).drop (n * (i + 1)) = (xs.flatMap f).drop (n * i) := by
        rw [Nat.mul_succ, Nat.add_comm, ← List.drop_drop, List.drop_left' (hf x)]
      rw [List.flatMap_cons, slice, hd, List.getElem_cons_succ]
      exact ih (by simpa only [List.length_cons, Nat.add_lt_add_iff_right] using hi)

theorem length_flatMap_const {α β : Type} {f : α → List β} {n : Nat}
    (hf : ∀ x, (f x).length = n) (xs : List α) : (xs.flatMap f).length = n * xs.length := by
  induction xs with
  | nil => rfl
  | cons x xs ih =>
    rw [List.flatMap_cons, List.length_append, hf, ih, List.length_cons, Nat.mul_succ,
      Nat.add_comm]

@[simp] theorem ofBytes_nil : ofBytes [] = [] := rfl

theorem ofBytes_cons (b : UInt8) (bytes : List UInt8) :
    ofBytes (b :: bytes) = lowest 8 b.toNat ++ ofBytes bytes := by
  rw [ofBytes, List.flatMap_cons, ofBytes]

theorem ofBytes_append (xs ys : List UInt8) : ofBytes (xs ++ ys) = ofBytes xs ++ ofBytes ys := by
  rw [ofBytes, List.flatMap_append, ofBytes, ofBytes]

@[simp] theorem length_ofBytes (bytes : List UInt8) : (ofBytes bytes).length = 8 * bytes.length :=
  length_flatMap_const (fun _ => length_lowest 8 _) bytes

/-- Bit `i` of a byte string is bit `i % 8` of byte `i / 8`. -/
theorem getElem_ofBytes (bytes : List UInt8) {i : Nat} (hi : i < (ofBytes bytes).length)
    (hb : i / 8 < bytes.length) : (ofBytes bytes)[i] = bytes[i / 8].toNat.testBit (i % 8) := by
  have hs := slice_flatMap (fun b : UInt8 => length_lowest 8 b.toNat) bytes hb
  have hg := congrArg (fun l : List Bool => l[i % 8]?) hs
  simp only [slice, List.getElem?_take_of_lt (Nat.mod_lt i (show 0 < 8 by decide)),
    List.getElem?_drop, Nat.div_add_mod] at hg
  have hm : i % 8 < (lowest 8 bytes[i / 8].toNat).length := by
    rw [length_lowest]
    exact Nat.mod_lt i (by decide)
  rw [List.getElem?_eq_getElem hm, getElem_lowest] at hg
  change (ofBytes bytes)[i]? = _ at hg
  rwa [List.getElem?_eq_getElem hi, Option.some.injEq] at hg

/-- The bits of the first bytes are the first bits. -/
theorem ofBytes_take (bytes : List UInt8) (n : Nat) :
    ofBytes (bytes.take n) = (ofBytes bytes).take (8 * n) := by
  induction bytes generalizing n with
  | nil => rw [List.take_nil, ofBytes_nil, List.take_nil]
  | cons b bytes ih =>
    cases n with
    | zero => rfl
    | succ n =>
      have hn : 8 * (n + 1) = (lowest 8 b.toNat).length + 8 * n := by rw [length_lowest]; omega
      rw [List.take_succ_cons, ofBytes_cons, ofBytes_cons, ih, hn, List.take_length_add_append]

/-- The bits of the last bytes are the last bits. -/
theorem ofBytes_drop (bytes : List UInt8) (n : Nat) :
    ofBytes (bytes.drop n) = (ofBytes bytes).drop (8 * n) := by
  induction bytes generalizing n with
  | nil => rw [List.drop_nil, ofBytes_nil, List.drop_nil]
  | cons b bytes ih =>
    cases n with
    | zero => rfl
    | succ n =>
      have hn : 8 * (n + 1) = (lowest 8 b.toNat).length + 8 * n := by rw [length_lowest]; omega
      rw [List.drop_succ_cons, ofBytes_cons, ih, hn, List.drop_length_add_append]

/-- Bytes of zero are bits of zero. -/
theorem ofBytes_replicate_zero (n : Nat) :
    ofBytes (List.replicate n 0) = List.replicate (8 * n) false := by
  induction n with
  | zero => rfl
  | succ n ih =>
    rw [List.replicate_succ, ofBytes_cons, ih,
      show lowest 8 (UInt8.toNat 0) = List.replicate 8 false by decide,
      List.replicate_append_replicate, Nat.mul_succ, Nat.add_comm]

/-- Adding byte strings adds their bits. -/
theorem ofBytes_xor (xs ys : List UInt8) :
    ofBytes (List.zipWith (· ^^^ ·) xs ys) = add (ofBytes xs) (ofBytes ys) := by
  induction xs generalizing ys with
  | nil => rfl
  | cons a xs ih =>
    cases ys with
    | nil => rw [List.zipWith_nil_right, ofBytes_nil, add, List.zipWith_nil_right]
    | cons b ys =>
      have hb : lowest 8 (a ^^^ b).toNat =
          List.zipWith Bool.xor (lowest 8 a.toNat) (lowest 8 b.toNat) := by
        simp only [lowest, List.zipWith_map, List.zipWith_self, UInt8.toNat_xor]
        apply List.map_congr_left
        intro i _
        exact Nat.testBit_xor ..
      rw [List.zipWith_cons_cons, ofBytes_cons, ofBytes_cons, ofBytes_cons, hb, ih, add, add,
        List.zipWith_append (by rw [length_lowest, length_lowest])]

/-- A suffix has as many bits as it says. -/
@[simp] theorem length_ofSuffix (suffix : Suffix) : (ofSuffix suffix).length = suffix.width :=
  length_lowest ..

/-- Bytes survive the way through their bits. -/
theorem toBytes_ofBytes (bytes : List UInt8) : toBytes (ofBytes bytes) = bytes := by
  apply List.ext_getElem
  · rw [toBytes, List.length_map, List.length_range, length_ofBytes,
      Nat.mul_div_cancel_left _ (by decide)]
  · intro i hi hb
    simp only [toBytes, List.getElem_map, List.getElem_range]
    rw [ofBytes, slice_flatMap (fun b : UInt8 => length_lowest 8 b.toNat) bytes hb,
      toNat_lowest fun _ => Lane.testBit_of_le bytes[i], UInt8.ofNat_toNat]

/-- Byte strings with the same bits are the same. -/
theorem ofBytes_injective : Function.Injective ofBytes :=
  Function.LeftInverse.injective toBytes_ofBytes

/-- Bits that are too few for a byte can be told from the bytes before them. -/
theorem ofBytes_append_inj {xs ys : List UInt8} {u v : List Bool} (hu : u.length < 8)
    (hv : v.length < 8) (h : ofBytes xs ++ u = ofBytes ys ++ v) : xs = ys ∧ u = v := by
  have hl := congrArg List.length h
  simp only [List.length_append, length_ofBytes] at hl
  have hbytes : (ofBytes xs).length = (ofBytes ys).length := by
    simp only [length_ofBytes]
    omega
  obtain ⟨hxy, huv⟩ := List.append_inj h hbytes
  exact ⟨ofBytes_injective hxy, huv⟩

/-- A lane has the bits of its eight bytes. -/
theorem ofBytes_lane (w : UInt64) : ofBytes (Lane.toBytes w) = lowest 64 w.toNat := by
  have hl : (Lane.toBytes w).length = 8 := Lane.length_toBytes w
  apply List.ext_getElem
  · rw [length_ofBytes, hl, length_lowest]
  · intro i hi hj
    rw [length_lowest] at hj
    rw [getElem_ofBytes _ hi (by omega), getElem_lowest]
    simp only [Lane.toBytes, List.getElem_map, List.getElem_range]
    rw [Lane.testBit_byte w (by omega) (by omega), Nat.div_add_mod]

/-- Lanes have the bits of the bytes that they spell. -/
theorem ofBytes_spell (lanes : List UInt64) : ofBytes (Lane.spell lanes) = ofLanes lanes := by
  induction lanes with
  | nil => rfl
  | cons w lanes ih =>
    rw [Lane.spell_cons, ofBytes_append, ofBytes_lane, ih]
    simp only [ofLanes, List.flatMap_cons]

end Shake.Bits

namespace Shake.Suffix

/-- The bits of a suffix show its width. -/
theorem width_eq_of_bits {s t : Suffix} (h : Bits.ofSuffix s = Bits.ofSuffix t) :
    s.width = t.width := by
  simpa only [Bits.length_ofSuffix] using congrArg List.length h

end Shake.Suffix

namespace Shake.State

/-- A state survives the way through its bits. -/
theorem ofBits_toBits (s : State) : ofBits s.toBits = s := by
  apply State.ext
  apply Vector.ext
  intro i hi
  have hl : i < s.lanes.toList.length := by rw [Vector.length_toList]; exact hi
  simp only [ofBits, Vector.getElem_ofFn]
  rw [toBits, Bits.ofLanes,
    Bits.slice_flatMap (fun w : UInt64 => Bits.length_lowest 64 w.toNat) _ hl,
    Bits.toNat_lowest fun _ => Lane.testBit_lane_of_le _, UInt64.ofNat_toNat,
    Vector.getElem_toList]

/-- The bytes of a state are those that its lanes spell. -/
theorem bytes_eq_spell (s : State) : s.bytes = Lane.spell s.lanes.toList := by
  rw [bytes, toBits, ← Bits.ofBytes_spell, Bits.toBytes_ofBytes]

/-- The permutation on bits is the permutation of the state. -/
theorem permute_toBits (s : State) : Bits.permute s.toBits = s.permute.toBits := by
  rw [Bits.permute, ofBits_toBits]

/-- As many permutations on bits are as many permutations of the state. -/
theorem repeat_permute_toBits (s : State) (k : Nat) :
    Nat.repeat Bits.permute k s.toBits = (Nat.repeat permute k s).toBits := by
  induction k with
  | zero => rfl
  | succ k ih => rw [Nat.repeat, Nat.repeat, ih, permute_toBits]

end Shake.State
