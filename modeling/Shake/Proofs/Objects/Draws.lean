import Shake.Hasher.Feed
import Shake.Proofs.Output.Conformance
import Shake.Reader.Request

/-!
# All draws come from one stream

Whatever its form, a request takes as many bytes of the stream as it asks for and moves the stream
on by them; a number is the bytes that spell it. So a list of requests draws, piece by piece, what
a single read of their total length gives, and leaves the reader where that read leaves it.
-/

namespace Shake

/-- Closing a message opens a full window. -/
theorem Absorber.readable_of_finalize {a b : Absorber} {q : Squeezer}
    (h : a.finalize = .ok (q, b)) : q.readable = 136 := by
  rw [finalize] at h
  -- every part of the computation has succeeded, and the last one opens the window
  obtain ⟨_, _, h⟩ := Checked.exists_of_bind_eq_ok h
  obtain ⟨_, _, h⟩ := Checked.exists_of_bind_eq_ok h
  obtain ⟨_, _, h⟩ := Checked.exists_of_bind_eq_ok h
  obtain ⟨_, _, h⟩ := Checked.exists_of_bind_eq_ok h
  obtain ⟨_, _, h⟩ := Checked.exists_of_bind_eq_ok h
  cases h
  rfl

namespace Reader

/-- What a request makes of the bytes that it draws. -/
def Request.present : Request → List UInt8 → Draw
  | .nextUInt32, bytes => .word32 (Lane.ofBytes bytes).toUInt32
  | .nextUInt64, bytes => .word64 (Lane.ofBytes bytes)
  | _, bytes => .bytes bytes

/-- The length of the buffer that a request has made for itself on the heap. -/
def Request.reserved : Request → Nat
  | .readFresh n => n
  | _ => 0

theorem Request.reserved_le_size (request : Request) : request.reserved ≤ request.size := by
  cases request with
  | readFresh n => exact Nat.le_refl n
  | _ => exact Nat.zero_le _

/-- How many bytes requests ask for together. -/
def Request.total : List Request → Nat
  | [] => 0
  | request :: requests => request.size + total requests

/-- The first four bytes of a number that was cut to four bytes. -/
private theorem byte_toUInt32 (w : UInt64) {k : Nat} (hk : k < 4) :
    Lane.byte w.toUInt32.toUInt64 k = Lane.byte w k := by
  apply Lane.byte_ext
  intro i hi
  rw [Lane.testBit_byte _ (by omega) hi, Lane.testBit_byte _ (by omega) hi,
    UInt32.toNat_toUInt64, UInt64.toNat_toUInt32, Nat.testBit_mod_two_pow,
    decide_eq_true (show 8 * k + i < 32 by omega), Bool.true_and]

/-- The bytes that went into a draw can be read off it. -/
theorem Request.toBytes_present {request : Request} {bytes : List UInt8}
    (h : bytes.length = request.size) : (request.present bytes).toBytes = bytes := by
  cases request with
  | nextUInt32 =>
    change bytes.length = 4 at h
    change (Lane.toBytes (Lane.ofBytes bytes).toUInt32.toUInt64).take 4 = bytes
    apply List.ext_getElem
    · rw [List.length_take, Lane.length_toBytes, h]
      rfl
    · intro k hk hl
      simp only [Lane.toBytes, List.getElem_take, List.getElem_map, List.getElem_range]
      rw [byte_toUInt32 _ (by omega), Lane.byte_ofBytes bytes (by omega) hl]
  | nextUInt64 => exact Lane.toBytes_ofBytes h
  | _ => rfl

/-- A request whose buffer can be made draws the next bytes of the stream, as many as its size
says, and moves the stream on by them. -/
theorem serve_eq {r : Reader} (hr : r.squeezer.readable ≤ 136) {request : Request}
    (hs : request.reserved < allocationBound) :
    r.serve request = .ok (request.present (r.squeezer.stream request.size),
      ⟨r.squeezer.advance request.size⟩) := by
  have hread := read_eq hr
  cases request with
  | read dest | squeeze dest | next dest | fill dest | tryFill dest =>
    simp only [serve, Squeeze.read, OutputStream.next, RandomSource.fill, RandomSource.tryFill,
      hread]
    rfl
  | readFresh n =>
    have hn : Checked.ensure (n < allocationBound) .allocation = .ok () :=
      Checked.ensure_eq_ok_iff.mpr hs
    simp only [serve, Squeeze.readFresh, hn, hread, List.length_replicate]
    rfl
  | readBlock n =>
    simp only [serve, Squeeze.readBlock, Squeeze.read, hread, List.length_replicate]
    rfl
  | nextUInt32 | nextUInt64 =>
    simp only [serve, RandomSource.nextUInt32, RandomSource.nextUInt64, RandomSource.fill, hread]
    rfl

/-- A request whose buffer cannot be made fails. -/
theorem serve_of_not {r : Reader} {request : Request} (hs : ¬ request.reserved < allocationBound) :
    r.serve request = .error .allocation := by
  cases request with
  | readFresh n =>
    have hn : ¬ n < allocationBound := hs
    rw [serve, Squeeze.readFresh]
    change (Checked.ensure (n < allocationBound) .allocation >>= _) >>= _ = _
    rw [Checked.ensure_bind_of_not hn]
    rfl
  | _ => exact absurd (Nat.zero_lt_succ _) hs

/-- A request within bounds draws the next bytes of the stream. -/
theorem exists_serve {r : Reader} (hr : r.squeezer.readable ≤ 136) {request : Request}
    (hs : request.size < allocationBound) :
    ∃ draw, r.serve request = .ok (draw, ⟨r.squeezer.advance request.size⟩) ∧
      draw.toBytes = r.squeezer.stream request.size :=
  ⟨_, serve_eq hr (Nat.lt_of_le_of_lt request.reserved_le_size hs),
    Request.toBytes_present (r.squeezer.length_stream request.size)⟩

/-- Requests within bounds draw the next bytes of the stream, each of them its own piece. -/
theorem exists_serveAll {r : Reader} (hr : r.squeezer.readable ≤ 136) {requests : List Request}
    (hs : Request.total requests < allocationBound) :
    ∃ draws, r.serveAll requests =
        .ok (draws, ⟨r.squeezer.advance (Request.total requests)⟩) ∧
      (draws.map fun draw => draw.toBytes.length) = requests.map Request.size ∧
      draws.flatMap Draw.toBytes = r.squeezer.stream (Request.total requests) := by
  induction requests generalizing r with
  | nil =>
    refine ⟨[], ?_, rfl, rfl⟩
    rw [Request.total, Squeezer.advance_zero]
    rfl
  | cons request requests ih =>
    rw [Request.total] at hs ⊢
    obtain ⟨draw, hd, hb⟩ := exists_serve hr (show request.size < allocationBound by omega)
    have hr' := Squeezer.advance_readable_le hr request.size
    obtain ⟨draws, hds, hl, hbs⟩ := ih (r := ⟨r.squeezer.advance request.size⟩) hr' (by omega)
    refine ⟨draw :: draws, ?_, ?_, ?_⟩
    · rw [serveAll] at hds ⊢
      rw [Checked.thread, hd, Checked.ok_bind]
      dsimp only
      rw [hds, Squeezer.advance_add]
      rfl
    · rw [List.map_cons, List.map_cons, hl, hb, Squeezer.length_stream]
    · rw [List.flatMap_cons, hb, hbs, Squeezer.stream_add hr]

/-- The readers that there can be: a message is closed, at once or after any feeds, and then its
stream is read in any way. -/
inductive Reachable : Reader → Prop where
  /-- A message has been absorbed at once. -/
  | hash {message : List UInt8} {r : Reader} (h : Hasher.hash message = .ok r) : Reachable r
  /-- A message has been fed to a hasher and closed. -/
  | finalize {feeds : List Hasher.Feed} {h : Hasher} {r : Reader}
      (hf : Hasher.empty.feedAll feeds = .ok h) (hr : h.finalize = .ok r) : Reachable r
  /-- A reader has met a request. -/
  | serve {r next : Reader} {request : Request} {draw : Draw} (h : Reachable r)
      (hs : r.serve request = .ok (draw, next)) : Reachable next

/-- The window of a reader shows at most one block. -/
theorem Reachable.readable_le {r : Reader} (h : Reachable r) : r.squeezer.readable ≤ 136 := by
  induction h with
  | hash h =>
    obtain ⟨q, hq, h⟩ := Checked.exists_of_bind_eq_ok h
    cases h
    exact Squeezer.ofMessage_readable_le hq
  | finalize _ hr =>
    obtain ⟨⟨q, b⟩, hq, h⟩ := Checked.exists_of_bind_eq_ok hr
    cases h
    exact Nat.le_of_eq (Absorber.readable_of_finalize hq)
  | @serve _ next request _ _ hs ih =>
    by_cases hn : request.reserved < allocationBound
    · rw [serve_eq ih hn] at hs
      cases hs
      exact Squeezer.advance_readable_le ih request.size
    · rw [serve_of_not hn] at hs
      cases hs

/-- From any reader on, requests of any forms and lengths draw together what one read of their
total length gives, each as many bytes as it asks for, and leave the same reader behind. -/
theorem serveAll_joins_read {r : Reader} (hr : Reachable r) (requests : List Request)
    {dest : List UInt8} (hd : dest.length = Request.total requests)
    (hb : dest.length < allocationBound) :
    ∃ draws next, r.serveAll requests = .ok (draws, next) ∧
      (draws.map fun draw => draw.toBytes.length) = requests.map Request.size ∧
      r.read dest = .ok (draws.flatMap Draw.toBytes, next) := by
  obtain ⟨draws, hds, hl, hbs⟩ := exists_serveAll hr.readable_le (hd ▸ hb)
  refine ⟨draws, _, hds, hl, ?_⟩
  rw [read_eq hr.readable_le, hd, hbs]

/-- Requests that end on the edge of a window, ask for nothing there, start on the next one, and
cross the one after it within a number. -/
def straddling : List Request :=
  [.readFresh 36, .fill [], .readBlock 132, .nextUInt64, .nextUInt32, .next [7], .squeeze [],
    .readFresh 300, .tryFill [8], .read [1, 2, 3]]

theorem serveAll_straddling : ∃ first draw r, Hasher.hash [97, 98] = .ok first ∧
    first.serve (.readBlock 100) = .ok (draw, r) ∧ Reachable r ∧
    (List.replicate 485 (0 : UInt8)).length = Request.total straddling ∧
    (List.replicate 485 (0 : UInt8)).length < allocationBound ∧
    ∃ draws next, r.serveAll straddling = .ok (draws, next) ∧
      (draws.map fun draw => draw.toBytes.length) = straddling.map Request.size ∧
      r.read (List.replicate 485 0) = .ok (draws.flatMap Draw.toBytes, next) := by
  obtain ⟨q, hq, _⟩ := Squeezer.exists_ofMessage [97, 98]
  have hle := Squeezer.ofMessage_readable_le hq
  have hfirst := Hasher.hash_eq hq
  obtain ⟨draw, hs, _⟩ := exists_serve (r := ⟨q⟩) hle
    (show (Request.readBlock 100).size < allocationBound by decide)
  have hr := (Reachable.hash hfirst).serve hs
  have hd : (List.replicate 485 (0 : UInt8)).length = Request.total straddling := by
    rw [List.length_replicate]
    decide
  have hb : (List.replicate 485 (0 : UInt8)).length < allocationBound := by
    rw [List.length_replicate]
    decide
  exact ⟨⟨q⟩, draw, _, hfirst, hs, hr, hd, hb, serveAll_joins_read hr straddling hd hb⟩

end Reader

end Shake
