/-!
# Sizes of the sponge

The state has 1600 bits, held in 25 lanes of eight bytes. SHAKE256 reserves 512 of them as
capacity, so that input and output pass through the leading 1088 bits: 136 bytes, or 17 lanes.
-/

namespace Shake

/-- Bytes of a lane. -/
abbrev laneBytes : Nat := 8

/-- Lanes of the state. -/
abbrev stateLanes : Nat := 25

/-- Bytes of the state. -/
abbrev stateBytes : Nat := 200

/-- Bits of the state. -/
abbrev width : Nat := 1600

/-- Bits of the state that neither input nor output touches. -/
abbrev capacity : Nat := 512

/-- Bits of one block. -/
abbrev rate : Nat := 1088

/-- Bytes of one block. -/
abbrev rateBytes : Nat := 136

/-- Lanes of one block. -/
abbrev rateLanes : Nat := 17

/-- Counters of absorbed bits stay below this bound, the power of two with exponent 128. -/
abbrev counterBound : Nat := 0x100000000000000000000000000000000

/-- Messages shorter than this bound, the power of two with exponent 125, can be counted in bits. -/
abbrev messageBound : Nat := 0x20000000000000000000000000000000

/-- A byte string held in memory is shorter than this bound, the power of two with exponent 63. -/
abbrev allocationBound : Nat := 0x8000000000000000

/-- Eight bits for each byte of a message. -/
theorem counterBound_eq : counterBound = 8 * messageBound := rfl

/-- A block fills whole bytes and whole lanes. -/
theorem rate_eq : rate = 8 * rateBytes ∧ rateBytes = laneBytes * rateLanes := ⟨rfl, rfl⟩

end Shake
