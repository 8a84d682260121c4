import Shake.Proofs.Absorption.OneShot
import Shake.Proofs.Absorption.Unambiguous
import Shake.Proofs.Permutation.Inverse

/-!
# Absorption loses nothing that it can keep

Every block is added to the state, which is undone by adding it again, and then permuted, which can
be undone as well. So absorbing a given message maps the states onto each other one to one, whatever
the number of its blocks. More of a message than a state has room for cannot be kept; but the last
block is kept in full: from the same state on, and behind the same full blocks, two messages end in
the same state only if their last blocks are the same, and padding is unambiguous.
-/

namespace Shake.State

/-- Mixing in a block keeps all states apart and reaches each of them. -/
theorem mix_bijective (block : List UInt8) : Function.Bijective (mix · block) := by
  have hpermute : Function.Bijective permute := ⟨permute_injective, permute_surjective⟩
  have hadd : Function.Involutive (add · block) := fun s => s.add_add block
  have hmix : (mix · block) = permute ∘ (add · block) := by
    funext s
    simp only [mix, Function.comp_apply]
  rw [hmix]
  exact hpermute.comp hadd.bijective

/-- Mixing in any number of blocks keeps all states apart and reaches each of them. -/
theorem foldl_mix_bijective (bs : List (List UInt8)) :
    Function.Bijective fun s : State => bs.foldl mix s := by
  induction bs with
  | nil => exact Function.bijective_id
  | cons block bs ih => exact ih.comp (mix_bijective block)

/-- Blocks of one length that are mixed into one state can be told apart by the result. -/
theorem mix_right_inj {s : State} {xs ys : List UInt8} (hx : Fits xs) (hl : xs.length = ys.length) :
    s.mix xs = s.mix ys ↔ xs = ys := by
  constructor
  · intro h
    exact eq_of_add_eq hx hl (permute_injective h)
  · rintro rfl
    rfl

/-- Absorbing a message is a one-to-one map of the states onto each other. -/
theorem exists_absorb_bijective {size : Nat} (hs : BlockSize size) {suffix : Suffix}
    (hw : suffix.width ≤ 6) (message : List UInt8) :
    ∃ f, (∀ s : State, s.absorb size suffix message = .ok (f s)) ∧ Function.Bijective f := by
  obtain ⟨p, hc, hp⟩ := Padding.exists_close
    (Padding.admissible_of_bytes hw message.length hs.pos hs.bounded)
  exact ⟨_, fun s => absorb_eq hs s hc hp, foldl_mix_bijective _⟩

/-- Behind full blocks, what is left of the message makes the last block with its padding. -/
theorem absorb_append_eq {size : Nat} (hs : BlockSize size) (s : State) {suffix : Suffix}
    {head tail : List UInt8} {n : Nat} (hh : head.length = size * n) (ht : tail.length < size)
    {p : Padding}
    (hc : Padding.close suffix (8 * (head ++ tail).length + suffix.width) (8 * size) = .ok p)
    (hp : p.Closes suffix (8 * (head ++ tail).length + suffix.width) (8 * size)) :
    (tail ++ p.toBytes).length = size ∧ s.absorb size suffix (head ++ tail) =
      .ok (((blocks size n head).foldl mix s).mix (tail ++ p.toBytes)) := by
  have hn : (head ++ tail).length / size = n := by
    rw [List.length_append, hh, Nat.mul_add_div hs.pos, Nat.div_eq_of_lt ht, Nat.add_zero]
  have hlast := length_last hs hp
  have hblocks := blocks_padded hs hp
  rw [hn, ← hh, List.drop_left] at hlast
  rw [hn, blocks_append (Nat.le_of_eq hh.symm), ← hh, List.drop_left] at hblocks
  refine ⟨hlast, ?_⟩
  rw [absorb_eq hs s hc hp, hn, hblocks, List.foldl_append, List.foldl_cons, List.foldl_nil]

/-- Behind the same full blocks, and from the same state on, tails of messages with their suffixes
can be told apart by the state that they end in. -/
theorem exists_absorb_append {size : Nat} (hs : BlockSize size) (s : State) {suffix other : Suffix}
    (hw : suffix.width ≤ 6) (ho : other.width ≤ 6) {head tail rest : List UInt8}
    (hh : size ∣ head.length) (ht : tail.length < size) (hr : rest.length < size) :
    ∃ t u, s.absorb size suffix (head ++ tail) = .ok t ∧
      s.absorb size other (head ++ rest) = .ok u ∧
      (t = u ↔ tail = rest ∧ Bits.ofSuffix suffix = Bits.ofSuffix other) := by
  obtain ⟨n, hn⟩ := hh
  have hadm := Padding.admissible_of_bytes hw (head ++ tail).length hs.pos hs.bounded
  have hadm' := Padding.admissible_of_bytes ho (head ++ rest).length hs.pos hs.bounded
  obtain ⟨p, hc, hp⟩ := Padding.exists_close hadm
  obtain ⟨q, hd, hq⟩ := Padding.exists_close hadm'
  obtain ⟨hlast, habsorb⟩ := absorb_append_eq hs s hn ht hc hp
  obtain ⟨hlast', habsorb'⟩ := absorb_append_eq hs s hn hr hd hq
  refine ⟨_, _, habsorb, habsorb', ?_⟩
  rw [mix_right_inj (fits_of_length hs hlast) (hlast.trans hlast'.symm),
    hp.append_toBytes_inj hadm hq hadm']
  constructor
  · rintro ⟨htail, hsuffix, -⟩
    exact ⟨htail, hsuffix⟩
  · rintro ⟨rfl, hsuffix⟩
    refine ⟨rfl, hsuffix, ?_⟩
    rw [hp.bits, hq.bits, Nat.add_sub_cancel, Nat.add_sub_cancel]

/-- For every block size that the state allows, absorbing a given message with a given suffix maps
the states onto each other one to one. And from every state, behind every prefix of full blocks, two
tails shorter than a block end in the same state exactly if they are the same bytes, with suffixes
of the same width and the same bits. -/
theorem absorb_lossless {size : Nat} (hs : BlockSize size) {suffix other : Suffix}
    (hw : suffix.width ≤ 6) (ho : other.width ≤ 6) :
    (∀ message : List UInt8, ∃ f,
      (∀ s : State, s.absorb size suffix message = .ok (f s)) ∧ Function.Bijective f) ∧
    ∀ (s : State) (head tail rest : List UInt8), size ∣ head.length → tail.length < size →
      rest.length < size →
      ∃ t u, s.absorb size suffix (head ++ tail) = .ok t ∧
        s.absorb size other (head ++ rest) = .ok u ∧
        (t = u ↔ tail = rest ∧ suffix.width = other.width ∧
          Bits.ofSuffix suffix = Bits.ofSuffix other) := by
  constructor
  · exact exists_absorb_bijective hs hw
  · intro s head tail rest hh ht hr
    obtain ⟨t, u, habsorb, habsorb', heq⟩ := exists_absorb_append hs s hw ho hh ht hr
    refine ⟨t, u, habsorb, habsorb', heq.trans (and_congr_right fun _ => ?_)⟩
    exact ⟨fun h => ⟨Suffix.width_eq_of_bits h, h⟩, And.right⟩

/-- Behind one full block of 72 bytes, no bytes with a suffix of two bits and a byte that reads like
that suffix with its first one end in different states. -/
theorem absorb_lossless_lookalike :
    BlockSize 72 ∧ Suffix.width ⟨0x02, 2⟩ ≤ 6 ∧ Suffix.width ⟨0, 0⟩ ≤ 6 ∧
      72 ∣ (List.replicate 72 (1 : UInt8)).length ∧
      (∃ f, (∀ s : State, s.absorb 72 ⟨0x02, 2⟩ (List.replicate 72 1) = .ok (f s)) ∧
        Function.Bijective f) ∧
      ∃ t u, zero.absorb 72 ⟨0x02, 2⟩ (List.replicate 72 1 ++ []) = .ok t ∧
        zero.absorb 72 ⟨0, 0⟩ (List.replicate 72 1 ++ [0x06]) = .ok u ∧ t ≠ u := by
  have hs : BlockSize 72 := ⟨rfl, by decide, by decide⟩
  have hw : Suffix.width ⟨0x02, 2⟩ ≤ 6 := by decide
  have ho : Suffix.width ⟨0, 0⟩ ≤ 6 := by decide
  have hh : 72 ∣ (List.replicate 72 (1 : UInt8)).length := by
    rw [List.length_replicate]
  obtain ⟨hbijective, hdistinct⟩ := absorb_lossless hs hw ho
  obtain ⟨t, u, ht, hu, heq⟩ :=
    hdistinct zero (List.replicate 72 1) [] [0x06] hh (by decide) (by decide)
  refine ⟨hs, hw, ho, hh, hbijective (List.replicate 72 1), t, u, ht, hu, fun h => ?_⟩
  cases (heq.mp h).1

end Shake.State
