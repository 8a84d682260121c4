import Shake.Proofs.Objects.Draws
import Shake.Proofs.Objects.Feeds
import Shake.Proofs.Objects.Refinement
import Shake.Session.Outline

/-!
# No command of a session fails a check

The outline of an object fixes as much of it as the checks ask about (`Outline.Fits`): an absorber
that has taken in its message has a pending block in step with its count, and the window of a
squeezer is at most one block. Calls keep objects and outlines together, so no session that stays
within bounds ends in a fault.
-/

namespace Shake.Session

/-- What is true of an object with a given outline. -/
inductive Outline.Fits : Outline → Object → Prop where
  /-- The machine describes the object. -/
  | xof {m : Xof.Machine} {x : Xof} (h : m.Describes x) : Fits (.xof m) (.xof x)
  /-- The hasher has taken in the message. -/
  | hasher {message : List UInt8} {a : Absorber} (h : Absorber.empty.absorb message = .ok a) :
      Fits (.hasher message) (.hasher ⟨a⟩)
  /-- The window of the reader is at most one block. -/
  | reader {q : Squeezer} (h : q.readable ≤ 136) : Fits .reader (.reader ⟨q⟩)
  /-- The absorber has taken in the message. -/
  | absorber {message : List UInt8} {a : Absorber} (h : Absorber.empty.absorb message = .ok a) :
      Fits (.absorber message) (.absorber a)
  /-- The window is at most one block. -/
  | squeezer {q : Squeezer} (h : q.readable ≤ 136) : Fits .squeezer (.squeezer q)

/-- What a call leaves fits its outline, slot by slot. -/
structure Yield.Fits (y : Yield Outline) (z : Yield Object) : Prop where
  /-- What takes the place of the object. -/
  rest : Option.Rel Outline.Fits y.rest z.rest
  /-- What goes to another slot. -/
  product : Option.Rel Outline.Fits y.product z.product

/-- Every slot fits its outline. -/
def Slots.Fits (outlines : Slots Outline) (slots : Slots Object) : Prop :=
  ∀ i, Option.Rel Outline.Fits (outlines i) (slots i)

namespace Outline

/-- A new object can always be made, and fits its outline. -/
theorem exists_start (origin : Origin) :
    ∃ o, Object.start origin = .ok o ∧ (start origin).Fits o := by
  have hempty := Absorber.absorb_empty_nil
  cases origin with
  | xof => exact ⟨_, rfl, .xof Xof.Machine.describes_empty⟩
  | hasher => exact ⟨_, rfl, .hasher hempty⟩
  | absorber => exact ⟨_, rfl, .absorber hempty⟩
  | reader message =>
    obtain ⟨q, hq, _⟩ := Squeezer.exists_ofMessage message
    refine ⟨.reader ⟨q⟩, ?_, .reader (Squeezer.ofMessage_readable_le hq)⟩
    rw [Object.start, Hasher.hash_eq hq]
    rfl
  | squeezer s => exact ⟨_, rfl, .squeezer (Nat.le_refl 136)⟩

variable {u : Use}

/-- A call that leaves one object. -/
theorem Fits.yield {l : Outline} {o : Object} (h : Fits l o) :
    Yield.Fits { rest := some l } { rest := some o } := ⟨.some h, .none⟩

private theorem exists_use_xof {m : Xof.Machine} {x : Xof} (h : m.Describes x)
    (hb : load (.xof m) u < messageBound) (hr : u.requested < allocationBound) :
    ∃ y, (Object.xof x).use u = .ok y ∧ (use (.xof m) u).Fits y := by
  cases u with
  | operate op =>
    obtain ⟨out, ho, _, hn⟩ := h.step hb hr
    refine ⟨_, ?_, (Fits.xof hn).yield⟩
    rw [Object.use, ho]
    rfl
  | _ => exact ⟨_, rfl, (Fits.xof h).yield⟩

private theorem exists_use_hasher {message : List UInt8} {a : Absorber}
    (h : Absorber.empty.absorb message = .ok a) (hb : load (.hasher message) u < messageBound) :
    ∃ y, (Object.hasher ⟨a⟩).use u = .ok y ∧ (use (.hasher message) u).Fits y := by
  obtain ⟨hl, rfl⟩ := Absorber.eq_append_of_absorb_empty h
  obtain ⟨q, hq, hf⟩ := Hasher.exists_finalize_append hl
  have hle := Squeezer.ofMessage_readable_le hq
  cases u with
  | feed f =>
    refine ⟨_, ?_, (Fits.hasher (Absorber.absorb_empty_eq hb)).yield⟩
    rw [Object.use, Hasher.feed_append_eq hb]
    rfl
  | close =>
    refine ⟨_, ?_, (Fits.reader hle).yield⟩
    rw [Object.use, hf]
    rfl
  | closeGeneric =>
    refine ⟨_, ?_, (Fits.reader hle).yield⟩
    simp only [Object.use, ExtendableOutput.finalize, hf]
    rfl
  | closeInto dest =>
    refine ⟨{ rest := none }, ?_, .none, .none⟩
    simp only [Object.use, Hasher.finalizeInto_eq hf hle]
    rfl
  | _ => exact ⟨_, rfl, (Fits.hasher h).yield⟩

private theorem exists_use_reader {q : Squeezer} (h : q.readable ≤ 136)
    (hr : u.requested < allocationBound) :
    ∃ y, (Object.reader ⟨q⟩).use u = .ok y ∧ (use .reader u).Fits y := by
  cases u with
  | draw request =>
    obtain ⟨draw, hd, _⟩ := Reader.exists_serve (r := ⟨q⟩) h hr
    refine ⟨_, ?_, (Fits.reader (Squeezer.advance_readable_le h request.size)).yield⟩
    rw [Object.use, hd]
    rfl
  | _ => exact ⟨_, rfl, (Fits.reader h).yield⟩

private theorem exists_use_absorber {message : List UInt8} {a : Absorber}
    (h : Absorber.empty.absorb message = .ok a) (hb : load (.absorber message) u < messageBound) :
    ∃ y, (Object.absorber a).use u = .ok y ∧ (use (.absorber message) u).Fits y := by
  obtain ⟨hl, rfl⟩ := Absorber.eq_append_of_absorb_empty h
  cases u with
  | act action =>
    cases action with
    | absorb chunk =>
      refine ⟨_, ?_, (Fits.absorber (Absorber.absorb_empty_eq hb)).yield⟩
      rw [Object.use, Absorber.act, Absorber.absorb_append_eq hb]
      rfl
    | finalize =>
      obtain ⟨q, hq, hf⟩ := Absorber.exists_finalize_append hl
      have hle := Squeezer.ofMessage_readable_le hq
      refine ⟨{ rest := some (.absorber .empty), product := some (.squeezer q) }, ?_,
        .some (.absorber Absorber.absorb_empty_nil), .some (.squeezer hle)⟩
      rw [Object.use, Absorber.act, hf]
      rfl
    | clear =>
      refine ⟨_, ?_, (Fits.absorber Absorber.absorb_empty_nil).yield⟩
      rw [Object.use, Absorber.act, Absorber.clear_eq_empty]
      rfl
  | _ => exact ⟨_, rfl, (Fits.absorber h).yield⟩

private theorem exists_use_squeezer {q : Squeezer} (h : q.readable ≤ 136) :
    ∃ y, (Object.squeezer q).use u = .ok y ∧ (use .squeezer u).Fits y := by
  cases u with
  | squeeze action =>
    obtain ⟨bytes, next, ha, hn⟩ := Squeezer.exists_act h action
    refine ⟨_, ?_, (Fits.squeezer hn).yield⟩
    rw [Object.use, ha]
    rfl
  | _ => exact ⟨_, rfl, (Fits.squeezer h).yield⟩

/-- A call within bounds succeeds and keeps objects and outlines together. -/
theorem Fits.exists_use {l : Outline} {o : Object} (h : Fits l o) (hb : l.load u < messageBound)
    (hr : u.requested < allocationBound) :
    ∃ y, o.use u = .ok y ∧ (l.use u).Fits y := by
  cases h with
  | xof h => exact exists_use_xof h hb hr
  | hasher h => exact exists_use_hasher h hb
  | reader h => exact exists_use_reader h hr
  | absorber h => exact exists_use_absorber h hb
  | squeezer h => exact exists_use_squeezer h

end Outline

namespace Slots.Fits

variable {outlines : Slots Outline} {slots : Slots Object}

/-- Slots may be filled with anything that fits. -/
theorem put (h : outlines.Fits slots) (i : Nat) {l? : Option Outline} {o? : Option Object}
    (hi : Option.Rel Outline.Fits l? o?) : (outlines.put i l?).Fits (slots.put i o?) := by
  intro j
  by_cases hj : j = i
  · rw [Slots.put, Slots.put, if_pos hj, if_pos hj]
    exact hi
  · rw [Slots.put, Slots.put, if_neg hj, if_neg hj]
    exact h j

/-- Slots may take in whatever a call leaves. -/
theorem settle (h : outlines.Fits slots) (i j : Nat) {y : Yield Outline} {z : Yield Object}
    (hy : y.Fits z) : (outlines.settle i j y).Fits (slots.settle i j z) := by
  obtain ⟨rest, product⟩ := y
  obtain ⟨rest', product'⟩ := z
  cases hy.product with
  | none => exact h.put i hy.rest
  | some hp => exact (h.put i hy.rest).put j (.some hp)

/-- A command within bounds succeeds and keeps objects and outlines together. -/
theorem exists_step (h : outlines.Fits slots) {c : Command} (hb : outlines.load c < messageBound)
    (hr : c.requested < allocationBound) :
    ∃ next, step slots c = .ok next ∧ (outlines.follow c).Fits next := by
  cases c with
  | create origin i =>
    obtain ⟨o, ho, hf⟩ := Outline.exists_start origin
    refine ⟨_, ?_, h.put i (.some hf)⟩
    rw [step, ho]
    rfl
  | use u i j =>
    have hi := h i
    rw [step, Slots.follow]
    rw [Slots.load] at hb
    generalize outlines i = l? at hi hb
    generalize slots i = o? at hi
    cases hi with
    | none => exact ⟨_, rfl, h⟩
    | some hf =>
      obtain ⟨y, hy, hfy⟩ := hf.exists_use hb hr
      refine ⟨_, ?_, h.settle i j hfy⟩
      dsimp only
      rw [hy]
      rfl
  | copy i j => exact ⟨_, rfl, h.put j (h i)⟩
  | drop i => exact ⟨_, rfl, h.put i .none⟩
  | digest n message =>
    obtain ⟨q, hq, _⟩ := Squeezer.exists_ofMessage message
    refine ⟨_, ?_, h⟩
    rw [step, digest_eq_stream hq]
    rfl
  | digestInto message dest =>
    obtain ⟨q, hq, _⟩ := Squeezer.exists_ofMessage message
    refine ⟨_, ?_, h⟩
    rw [step, digestInto_eq_stream hq]
    rfl
  | digestGeneric message dest =>
    refine ⟨_, ?_, h⟩
    obtain ⟨q, hq, hf⟩ := Hasher.exists_finalize_append hb
    rw [step, Hasher.digest_eq_finalizeInto hb,
      Hasher.finalizeInto_eq hf (Squeezer.ofMessage_readable_le hq)]
    rfl

/-- A session within bounds succeeds and keeps objects and outlines together. -/
theorem exists_run (h : outlines.Fits slots) {cs : List Command} (ha : outlines.Allows cs) :
    ∃ last, run slots cs = .ok last ∧ (cs.foldl Slots.follow outlines).Fits last := by
  induction cs generalizing outlines slots with
  | nil => exact ⟨_, rfl, h⟩
  | cons c cs ih =>
    obtain ⟨hb, hr, ha⟩ := ha
    obtain ⟨next, hn, hf⟩ := h.exists_step hb hr
    obtain ⟨last, hl, hfl⟩ := ih hf ha
    refine ⟨last, ?_, hfl⟩
    rw [run, hn, Checked.ok_bind, hl]

end Slots.Fits

/-- No session that starts with empty slots and stays within bounds fails a check, whatever it
creates, calls, copies and gives up, and in whatever order. -/
theorem run_empty_succeeds (cs : List Command) (h : Slots.empty.Allows cs) :
    ∃ slots, run Slots.empty cs = .ok slots := by
  obtain ⟨slots, hs, _⟩ := Slots.Fits.exists_run (fun _ => .none) h
  exact ⟨slots, hs⟩

/-- Calls in the wrong phase, a copy that goes its own way, an absorber used twice, a squeezer that
goes on after it was cleared, and a call on an object that has been given up. -/
def mixedSession : List Command :=
  [.create .xof 0, .use (.operate (.absorb [1])) 0 0, .copy 0 1, .use (.operate (.hash [2])) 0 0,
    .use (.operate (.absorb [3])) 0 0, .use (.operate (.readFresh 500)) 1 1, .create .absorber 2,
    .use (.act (.absorb [4])) 2 2, .use (.act .finalize) 2 3, .use (.act .finalize) 2 4,
    .use (.squeeze .clear) 3 3, .use (.squeeze (.squeeze [0])) 3 3, .drop 1,
    .use (.operate .finalize) 1 1]

theorem run_mixedSession_succeeds : Slots.empty.Allows mixedSession ∧
    ∃ slots, run Slots.empty mixedSession = .ok slots := by
  have h : Slots.empty.Allows mixedSession := by decide
  exact ⟨h, run_empty_succeeds mixedSession h⟩

end Shake.Session
