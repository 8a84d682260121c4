import Shake.Digest
import Shake.Proofs.Absorption.OneShot
import Shake.Proofs.Output.Stream

/-!
# The output is that of the sponge on bits

Absorption and output stream meet: the stream of a message, read as bits, is the squeezing phase
of the sponge construction on the bits of the message, block after block with the permutation in
between. The digests are the beginnings of that stream.
-/

namespace Shake

namespace State

/-- The first block of a state is where its output starts. -/
theorem take_bytes_eq (s : State) : s.bytes.take 136 = (List.range 136).map s.outputByte := by
  apply List.ext_getElem
  · rw [List.length_take, length_bytes, List.length_map, List.length_range]
    rfl
  · intro j hj hk
    rw [List.length_map, List.length_range] at hk
    have hl : j < s.bytes.length := by
      rw [length_bytes]
      omega
    simp only [List.getElem_take, List.getElem_map, List.getElem_range]
    rw [outputByte, Nat.div_eq_of_lt hk, Nat.mod_eq_of_lt hk, List.getD_eq_getElem?_getD]
    change _ = s.bytes[j]?.getD 0
    rw [List.getElem?_eq_getElem hl, Option.getD_some]

/-- The first blocks of the permuted states, one behind the other, are the output. -/
theorem flatMap_take_bytes (s : State) (m : Nat) :
    ((List.range m).flatMap fun k => (Nat.repeat permute k s).bytes.take 136) =
      (List.range (136 * m)).map s.outputByte := by
  induction m with
  | zero => rfl
  | succ m ih =>
    rw [List.range_succ, List.flatMap_append, ih, List.flatMap_singleton, take_bytes_eq,
      Nat.mul_succ, List.range_add, List.map_append, List.map_map]
    congr 1
    apply List.map_congr_left
    intro j _
    exact s.outputByte_repeat m j

/-- The squeezing phase on bits gives the bits of the output. -/
theorem squeeze_toBits (s : State) (n : Nat) :
    Bits.squeeze Bits.permute rate s.toBits (8 * n) =
      Bits.ofBytes ((List.range n).map s.outputByte) := by
  have hb : ∀ k, (Nat.repeat Bits.permute k s.toBits).take rate =
      Bits.ofBytes ((Nat.repeat permute k s).bytes.take 136) := by
    intro k
    rw [repeat_permute_toBits, toBits_eq_ofBytes, Bits.ofBytes_take]
  have hf : ∀ (ks : List Nat) (f : Nat → List UInt8),
      (ks.flatMap fun k => Bits.ofBytes (f k)) = Bits.ofBytes (ks.flatMap f) := by
    intro ks f
    simp only [Bits.ofBytes, List.flatMap_assoc]
  have hm : 136 * (8 * n / rate + 1) = 136 * (n / 136 + 1) := by
    simp only [rate]
    omega
  simp only [Bits.squeeze, hb]
  rw [hf, flatMap_take_bytes, ← Bits.ofBytes_take, ← List.map_take, List.take_range, hm,
    Nat.min_eq_left (by omega)]

end State

namespace Squeezer

/-- The stream of a message shows, from its first byte on, the bits of the sponge. -/
theorem exists_ofMessage (message : List UInt8) :
    ∃ q, ofMessage message = .ok q ∧ q.readable = 136 ∧
      ∀ n, Bits.ofBytes (q.stream n) = Bits.shake message (8 * n) := by
  have hw : Suffix.shake.width ≤ 6 := by decide
  obtain ⟨t, ht, hbits⟩ := State.exists_absorb blockSize_rateBytes State.zero hw message
  refine ⟨ofState t, ?_, rfl, fun n => ?_⟩
  · rw [ofMessage, ht]
    rfl
  · have hl : (Bits.ofBytes message ++ [true, true, true, true]).length =
        8 * message.length + Suffix.shake.width := by
      rw [List.length_append, Bits.length_ofBytes]
      rfl
    rw [stream_ofState, ← State.squeeze_toBits, hbits, Bits.shake, Bits.sponge, hl,
      State.toBits_zero]
    rfl

/-- The stream of a message starts with a window of at most one block. -/
theorem ofMessage_readable_le {message : List UInt8} {q : Squeezer}
    (h : ofMessage message = .ok q) : q.readable ≤ 136 := by
  obtain ⟨q', hq, hr, _⟩ := exists_ofMessage message
  obtain rfl : q' = q := Except.ok.inj (hq.symm.trans h)
  exact Nat.le_of_eq hr

end Squeezer

namespace Reader

/-- A reader gives out its stream. -/
theorem read_eq {r : Reader} (hr : r.squeezer.readable ≤ 136) (dest : List UInt8) :
    r.read dest =
      .ok (r.squeezer.stream dest.length, ⟨r.squeezer.advance dest.length⟩) := by
  rw [read, Squeezer.squeeze_eq hr, Checked.ok_bind]
  rfl

end Reader

/-- Hashing at once gives the stream of the message to a reader. -/
theorem Hasher.hash_eq {message : List UInt8} {q : Squeezer}
    (hq : Squeezer.ofMessage message = .ok q) : hash message = .ok ⟨q⟩ := by
  rw [hash, hq]
  rfl

/-- A digest is the beginning of the stream of its message. -/
theorem digest_eq_stream {message : List UInt8} {q : Squeezer}
    (hq : Squeezer.ofMessage message = .ok q) (n : Nat) :
    digest n message = .ok (q.stream n) := by
  have hr := Squeezer.ofMessage_readable_le hq
  simp only [digest, Hasher.hash_eq hq, Checked.ok_bind, Squeeze.readBlock, Squeeze.read,
    Reader.read_eq (r := ⟨q⟩) hr, List.length_replicate]
  rfl

/-- A digest in a buffer is the beginning of the stream of its message. -/
theorem digestInto_eq_stream {message : List UInt8} {q : Squeezer}
    (hq : Squeezer.ofMessage message = .ok q) (dest : List UInt8) :
    digestInto message dest = .ok (q.stream dest.length) := by
  have hr := Squeezer.ofMessage_readable_le hq
  simp only [digestInto, Hasher.hash_eq hq, Checked.ok_bind, Reader.read_eq (r := ⟨q⟩) hr]
  rfl

/-- Both digests of a message succeed at every length, whatever a buffer holds before, and their
bits are those that the sponge construction prescribes for SHAKE256. -/
theorem digest_bits_eq_shake (message : List UInt8) (n : Nat) (dest : List UInt8) :
    (∃ out, digest n message = .ok out ∧ out.length = n ∧
      Bits.ofBytes out = Bits.shake message (8 * n)) ∧
    (∃ out, digestInto message dest = .ok out ∧ out.length = dest.length ∧
      Bits.ofBytes out = Bits.shake message (8 * dest.length)) := by
  obtain ⟨q, hq, _, hbits⟩ := Squeezer.exists_ofMessage message
  constructor
  · exact ⟨q.stream n, digest_eq_stream hq n, q.length_stream n, hbits n⟩
  · exact ⟨q.stream dest.length, digestInto_eq_stream hq dest, q.length_stream dest.length,
      hbits dest.length⟩

end Shake
