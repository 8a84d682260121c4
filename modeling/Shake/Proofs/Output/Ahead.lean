import Shake.Proofs.Output.Stream
import Shake.Squeezer.Eager

/-!
# Permuting on demand and ahead of demand

The engine that renews its window ahead of demand is at every point the squeezer that waits, with
its window renewed: `renew` is the relation between the two. Renewing changes none of the bytes to
come, so both give the same bytes for every request; and since it does nothing to a window that
shows anything, the two differ only while the window of the one that waits is empty. What the engine
copies is read off the bits of the state, what the squeezer reads is shifted out of its lanes; both
are the stream in closed form.
-/

namespace Shake.Squeezer

/-- A window that shows anything is left as it is. -/
theorem renew_of_pos {q : Squeezer} (h : 0 < q.readable) : q.renew = q := by
  rw [renew, if_neg (by omega)]

@[simp] theorem renew_renew (q : Squeezer) : q.renew.renew = q.renew :=
  renew_of_pos q.renew_readable_pos

/-- The window may be renewed before the stream moves on, if it is renewed afterwards. -/
theorem renew_advance_renew (q : Squeezer) (n : Nat) :
    (q.renew.advance n).renew = (q.advance n).renew := by
  cases n with
  | zero => rw [advance_zero, advance_zero, renew_renew]
  | succ n => rw [advance_renew q (Nat.zero_lt_succ n)]

/-- What the engine copies from its window is the stream. -/
theorem peek_eq {q : Squeezer} (hq : q.readable ≤ 136) {n : Nat} (h : n ≤ q.readable) :
    q.peek n = q.stream n :=
  take_drop_bytes_eq hq h

/-- What the engine leaves behind is the stream, moved on and renewed. -/
theorem consume_eq {q : Squeezer} {n : Nat} (h : n ≤ q.readable) :
    q.consume n = (q.advance n).renew := by
  rw [consume, advance_of_le h, renew]
  rfl

/-- Copying ahead of demand gives the bytes of the stream and leaves the window renewed behind
them. -/
theorem squeezeAhead_eq {q : Squeezer} (hpos : 0 < q.readable) (hq : q.readable ≤ 136) (n : Nat) :
    q.squeezeAhead n = (q.stream n, (q.advance n).renew) := by
  -- every round empties one window or copies all that is wanted, so what is left gets less
  induction n using Nat.strongRecOn generalizing q with
  | _ n ih =>
    by_cases hn : n = 0
    · rw [squeezeAhead, if_pos hn, hn, stream_zero, advance_zero, renew_of_pos hpos]
    · have hk : min q.readable n ≤ q.readable := Nat.min_le_left ..
      have hlt : n - min q.readable n < n := by omega
      have hsum : min q.readable n + (n - min q.readable n) = n := by omega
      have hle := renew_readable_le (advance_readable_le hq (min q.readable n))
      rw [squeezeAhead, if_neg hn]
      dsimp only
      rw [consume_eq hk, ih _ hlt (renew_readable_pos _) hle, peek_eq hq hk]
      dsimp only
      rw [stream_renew, ← stream_add hq, renew_advance_renew, advance_add, hsum]

/-- Over any requests, the engine stays the squeezer with its window renewed. -/
theorem exists_thread_squeeze {q : Squeezer} (hq : q.readable ≤ 136) (dests : List (List UInt8)) :
    ∃ out last, Checked.thread squeeze q dests = .ok (out, last) ∧
      q.renew.serveAhead (dests.map List.length) = (out, last.renew) := by
  induction dests generalizing q with
  | nil => exact ⟨[], q, rfl, rfl⟩
  | cons dest dests ih =>
    have ha := squeezeAhead_eq q.renew_readable_pos (renew_readable_le hq) dest.length
    rw [stream_renew, renew_advance_renew] at ha
    obtain ⟨out, last, hs, hl⟩ := ih (advance_readable_le hq dest.length)
    refine ⟨q.stream dest.length :: out, last, ?_, ?_⟩
    · rw [Checked.thread, squeeze_eq hq, Checked.ok_bind]
      dsimp only
      rw [hs]
      rfl
    · rw [List.map_cons, serveAhead, ha]
      dsimp only
      rw [hl]

/-- From any state on, the squeezer that permutes on demand answers every request of a list of any
length, empty requests included, with the same bytes as the engine that permutes ahead of demand,
started on that state with a full window. After the list, and so at every point of it, they have the
same state and the same window, or the squeezer has an empty window and the engine the permuted
state with a full one. -/
theorem thread_squeeze_eq_ahead (s : State) (dests : List (List UInt8)) :
    ∃ out q e, Checked.thread squeeze (ofState s) dests = .ok (out, q) ∧
      serveAhead ⟨s, rateBytes⟩ (dests.map List.length) = (out, e) ∧
      (0 < q.readable ∧ e = q ∨ q.readable = 0 ∧ e = ⟨q.state.permute, rateBytes⟩) := by
  have hfull : (ofState s).renew = ⟨s, rateBytes⟩ := renew_of_pos (Nat.zero_lt_succ 135)
  obtain ⟨out, q, hs, ha⟩ := exists_thread_squeeze (Nat.le_refl (ofState s).readable) dests
  rw [hfull] at ha
  refine ⟨out, q, q.renew, hs, ha, ?_⟩
  rcases Nat.eq_zero_or_pos q.readable with hz | hpos
  · exact .inr ⟨hz, if_pos hz⟩
  · exact .inl ⟨hpos, renew_of_pos hpos⟩

end Shake.Squeezer
