import Shake.Proofs.Absorption.Padding

/-!
# No message is taken for another one

From a padded message all its parts can be told apart again. The last one that is set ends the
padding and the one before it begins the padding; what comes before both is the message with its
suffix, and since a suffix has fewer bits than a byte, the whole bytes are the message and the rest
is the suffix. Nothing in this depends on the size of a block, so messages with different suffixes
stay apart even if they are padded for different rates.
-/

namespace Shake

namespace Bits

/-- The zeros before a one can be counted. -/
theorem zeros_append_inj {m n : Nat} {xs ys : List Bool}
    (h : List.replicate m false ++ true :: xs = List.replicate n false ++ true :: ys) :
    m = n ∧ xs = ys := by
  induction m generalizing n with
  | zero =>
    cases n with
    | zero => simpa using h
    | succ n => simp [List.replicate_succ] at h
  | succ m ih =>
    cases n with
    | zero => simp [List.replicate_succ] at h
    | succ n =>
      simp only [List.replicate_succ, List.cons_append, List.cons.injEq, true_and] at h
      obtain ⟨rfl, hxy⟩ := ih h
      exact ⟨rfl, hxy⟩

/-- What stands before a padding, and the zeros in it, can be told from the whole string. -/
theorem append_padding_inj {m n : Nat} {xs ys : List Bool}
    (h : xs ++ true :: (List.replicate m false ++ [true]) =
      ys ++ true :: (List.replicate n false ++ [true])) : xs = ys ∧ m = n := by
  -- from its end the string reads: a one, the zeros, another one, and what stands before
  have hr := congrArg List.reverse h
  simp only [List.reverse_append, List.reverse_cons, List.reverse_replicate, List.reverse_nil,
    List.nil_append, List.append_assoc, List.cons_append, List.cons.injEq, true_and] at hr
  obtain ⟨hmn, hxy⟩ := zeros_append_inj hr
  exact ⟨List.reverse_inj.mp hxy, hmn⟩

end Bits

namespace Padding

/-- Messages that are padded to the same string are the same, with the same bits of a suffix and as
many bits of padding; and such messages are. -/
theorem Closes.append_toBytes_inj {p q : Padding} {s t : Suffix} {m n r r' : Nat}
    (hp : p.Closes s m r) (hs : Admissible s m r) (hq : q.Closes t n r') (ht : Admissible t n r')
    {xs ys : List UInt8} :
    xs ++ p.toBytes = ys ++ q.toBytes ↔
      xs = ys ∧ Bits.ofSuffix s = Bits.ofSuffix t ∧ p.bits = q.bits := by
  obtain ⟨-, hplo, -⟩ := hp.bits_bounds hs
  obtain ⟨-, hqlo, -⟩ := hq.bits_bounds ht
  have hsw := hs.narrow
  have htw := ht.narrow
  constructor
  · intro h
    have hbits := congrArg Bits.ofBytes h
    rw [Bits.ofBytes_append, Bits.ofBytes_append, hp.ofBytes_eq hs, hq.ofBytes_eq ht,
      ← List.append_assoc, ← List.append_assoc] at hbits
    obtain ⟨hmessage, hzeros⟩ := Bits.append_padding_inj hbits
    obtain ⟨hxy, hsuffix⟩ := Bits.ofBytes_append_inj (by rw [Bits.length_ofSuffix]; omega)
      (by rw [Bits.length_ofSuffix]; omega) hmessage
    have hwidth := Suffix.width_eq_of_bits hsuffix
    exact ⟨hxy, hsuffix, by omega⟩
  · rintro ⟨rfl, hsuffix, hbits⟩
    have hbytes : p.toBytes = q.toBytes := by
      apply Bits.ofBytes_injective
      rw [hp.ofBytes_eq hs, hq.ofBytes_eq ht, hsuffix, hbits, Suffix.width_eq_of_bits hsuffix]
    rw [hbytes]

/-- Any two messages can be padded, with any suffixes and for any two rates. If they become the same
string, they are the same message with the same bits of a suffix, and the paddings are as long as
each other; and only then. -/
theorem close_unambiguous {s t : Suffix} (hs : s.width ≤ 6) (ht : t.width ≤ 6) {m n : Nat}
    (hm : 0 < m ∧ m ≤ 200) (hn : 0 < n ∧ n ≤ 200) (xs ys : List UInt8) :
    ∃ p q, close s (8 * xs.length + s.width) (8 * m) = .ok p ∧
      close t (8 * ys.length + t.width) (8 * n) = .ok q ∧
      (xs ++ p.toBytes = ys ++ q.toBytes ↔
        xs = ys ∧ s.width = t.width ∧ Bits.ofSuffix s = Bits.ofSuffix t ∧ p.bits = q.bits) := by
  have hxs := admissible_of_bytes hs xs.length hm.1 hm.2
  have hys := admissible_of_bytes ht ys.length hn.1 hn.2
  obtain ⟨p, hclose, hp⟩ := exists_close hxs
  obtain ⟨q, hclose', hq⟩ := exists_close hys
  refine ⟨p, q, hclose, hclose', ?_⟩
  rw [hp.append_toBytes_inj hxs hq hys]
  constructor
  · rintro ⟨hxy, hsuffix, hbits⟩
    exact ⟨hxy, Suffix.width_eq_of_bits hsuffix, hsuffix, hbits⟩
  · rintro ⟨hxy, -, hsuffix, hbits⟩
    exact ⟨hxy, hsuffix, hbits⟩

/-- A message of one byte that reads like a suffix with its first one, for a rate of 72 bytes, is
not taken for the empty message with that suffix, for a rate of 136 bytes. -/
theorem close_unambiguous_lookalike :
    Suffix.width ⟨0, 0⟩ ≤ 6 ∧ Suffix.width ⟨0x02, 2⟩ ≤ 6 ∧ (0 < 72 ∧ 72 ≤ 200) ∧
      (0 < rateBytes ∧ rateBytes ≤ 200) ∧
      ∃ p q, close ⟨0, 0⟩ 8 576 = .ok p ∧ close ⟨0x02, 2⟩ 2 rate = .ok q ∧
        [0x06] ++ p.toBytes ≠ [] ++ q.toBytes := by
  have hs : Suffix.width ⟨0, 0⟩ ≤ 6 := by decide
  have ht : Suffix.width ⟨0x02, 2⟩ ≤ 6 := by decide
  have hm : 0 < 72 ∧ 72 ≤ 200 := by decide
  have hn : 0 < rateBytes ∧ rateBytes ≤ 200 := by decide
  obtain ⟨p, q, hp, hq, hiff⟩ := close_unambiguous hs ht hm hn [0x06] []
  refine ⟨hs, ht, hm, hn, p, q, hp, hq, fun h => ?_⟩
  cases (hiff.mp h).1

/-- Paddings with the same bits in use are the same in the whole array. -/
theorem Closes.eq_iff_toBytes {p q : Padding} {s t : Suffix} {m n r r' : Nat}
    (hp : p.Closes s m r) (hs : Admissible s m r) (hq : q.Closes t n r') (ht : Admissible t n r') :
    p = q ↔ p.bits = q.bits ∧ p.toBytes = q.toBytes := by
  constructor
  · rintro rfl
    exact ⟨rfl, rfl⟩
  · rintro ⟨hbits, hbytes⟩
    have harray : p.bytes = q.bytes := by
      apply Vector.toList_inj.mp
      rw [hp.toList_bytes hs, hq.toList_bytes ht, hbytes]
    rw [show p = ⟨p.bytes, p.bits⟩ from rfl, harray, hbits]

/-- A padding is made of the bits of a suffix and of the room that the message leaves for it. -/
theorem Closes.eq_iff_parts {p q : Padding} {s t : Suffix} {m n r r' : Nat}
    (hp : p.Closes s m r) (hs : Admissible s m r) (hq : q.Closes t n r') (ht : Admissible t n r') :
    p = q ↔ Bits.ofSuffix s = Bits.ofSuffix t ∧
      r - (m - s.width) % r = r' - (n - t.width) % r' := by
  have hbytes : [] ++ p.toBytes = [] ++ q.toBytes ↔
      [] = [] ∧ Bits.ofSuffix s = Bits.ofSuffix t ∧ p.bits = q.bits :=
    hp.append_toBytes_inj hs hq ht
  rw [List.nil_append, List.nil_append] at hbytes
  rw [hp.eq_iff_toBytes hs hq ht, hbytes, ← hp.bits, ← hq.bits]
  constructor
  · rintro ⟨hbits, -, hsuffix, -⟩
    exact ⟨hsuffix, hbits⟩
  · rintro ⟨hsuffix, hbits⟩
    exact ⟨hbits, rfl, hsuffix, hbits⟩

/-- For one suffix and one rate, paddings are the same exactly at the same place in a block. -/
theorem close_eq_ok_iff_mod {s : Suffix} {m k r : Nat} {p : Padding} (hp : p.Closes s m r)
    (hs : Admissible s m r) (hk : Admissible s k r) :
    close s k r = .ok p ↔ (k - s.width) % r = (m - s.width) % r := by
  obtain ⟨q, hq, hc⟩ := exists_close hk
  have hlt := Nat.mod_lt (m - s.width) hs.pos
  have hlt' := Nat.mod_lt (k - s.width) hs.pos
  rw [hq, Except.ok.injEq, hc.eq_iff_parts hk hp hs]
  constructor
  · rintro ⟨-, hroom⟩
    omega
  · intro hplace
    rw [hplace]
    exact ⟨rfl, rfl⟩

/-- Two paddings are equal, in every byte of their arrays and in their length, exactly if they have
the same bytes in use; and exactly if their suffixes have the same width and the same bits and their
messages leave as much of the last block. So with one suffix and one rate, a padding depends on
nothing but the place in the block where the message ends. -/
theorem close_eq_close_iff {s t : Suffix} {m n r r' : Nat} (hs : Admissible s m r)
    (ht : Admissible t n r') :
    ∃ p q, close s m r = .ok p ∧ close t n r' = .ok q ∧
      (p = q ↔ p.bits = q.bits ∧ p.toBytes = q.toBytes) ∧
      (p = q ↔ s.width = t.width ∧ Bits.ofSuffix s = Bits.ofSuffix t ∧
        r - (m - s.width) % r = r' - (n - t.width) % r') ∧
      ∀ k, Admissible s k r → (close s k r = .ok p ↔ (k - s.width) % r = (m - s.width) % r) := by
  obtain ⟨p, hclose, hp⟩ := exists_close hs
  obtain ⟨q, hclose', hq⟩ := exists_close ht
  refine ⟨p, q, hclose, hclose', hp.eq_iff_toBytes hs hq ht, ?_,
    fun k hk => close_eq_ok_iff_mod hp hs hk⟩
  rw [hp.eq_iff_parts hs hq ht]
  constructor
  · rintro ⟨hsuffix, hroom⟩
    exact ⟨Suffix.width_eq_of_bits hsuffix, hsuffix, hroom⟩
  · rintro ⟨-, hsuffix, hroom⟩
    exact ⟨hsuffix, hroom⟩

/-- One byte is left by 135 bytes at a rate of 136 bytes, and by seven bytes at a rate of eight: the
padding is the same, also with bits set beyond the width of the suffix, and seven blocks further on;
but not with a suffix of three bits. -/
theorem close_eq_close_lastByte :
    Admissible .shake 1084 rate ∧ Admissible ⟨0xff, 4⟩ 60 64 ∧ Admissible .shake 8700 rate ∧
      Admissible ⟨0x0f, 3⟩ 59 64 ∧
      (∃ p, close .shake 1084 rate = .ok p ∧ close ⟨0xff, 4⟩ 60 64 = .ok p ∧
        close .shake 8700 rate = .ok p) ∧
      ∃ p q, close .shake 1084 rate = .ok p ∧ close ⟨0x0f, 3⟩ 59 64 = .ok q ∧ p ≠ q := by
  have h : Admissible .shake 1084 rate := ⟨by decide, rfl, by decide, by decide, by decide, rfl⟩
  have hsmall : Admissible ⟨0xff, 4⟩ 60 64 := ⟨by decide, rfl, by decide, by decide, by decide, rfl⟩
  have hfar : Admissible .shake 8700 rate := ⟨by decide, rfl, by decide, by decide, by decide, rfl⟩
  have hshort : Admissible ⟨0x0f, 3⟩ 59 64 := ⟨by decide, rfl, by decide, by decide, by decide, rfl⟩
  obtain ⟨p, q, hp, hq, -, hparts, hplace⟩ := close_eq_close_iff h hsmall
  obtain rfl := hparts.mpr ⟨rfl, by decide, rfl⟩
  obtain ⟨p', q', hp', hq', -, hparts', -⟩ := close_eq_close_iff h hshort
  refine ⟨h, hsmall, hfar, hshort, ⟨p, hp, hq, (hplace 8700 hfar).mpr rfl⟩, p', q', hp', hq', ?_⟩
  intro he
  cases (hparts'.mp he).1

end Padding

end Shake
