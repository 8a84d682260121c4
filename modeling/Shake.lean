import Shake.Parameters
import Shake.Fault
import Shake.Lane.Basic
import Shake.State.Basic
import Shake.State.Permutation
import Shake.State.Absorption
import Shake.State.Counted
import Shake.Padding.Basic
import Shake.Squeezer.Basic
import Shake.Squeezer.Action
import Shake.Squeezer.Eager
import Shake.Squeezer.Outer
import Shake.Squeezer.Stream
import Shake.Absorber.Basic
import Shake.Absorber.Action
import Shake.Absorber.InPlace
import Shake.Notice
import Shake.Interface
import Shake.Reader.Basic
import Shake.Reader.Request
import Shake.Hasher.Basic
import Shake.Hasher.Feed
import Shake.Digest
import Shake.Xof.Basic
import Shake.Xof.Operation
import Shake.Xof.Warning
import Shake.Xof.Machine
import Shake.Xof.Shape
import Shake.Session.Basic
import Shake.Session.Outline
import Shake.Bits.Basic
import Shake.Bits.Sponge
import Shake.Bits.Permutation
import Shake.Proofs.Bytes.Spelling
import Shake.Proofs.Bytes.BitStrings
import Shake.Proofs.Bytes.Blocks
import Shake.Proofs.Bytes.Views
import Shake.Proofs.Absorption.Padding
import Shake.Proofs.Absorption.Unambiguous
import Shake.Proofs.Absorption.OneShot
import Shake.Proofs.Absorption.EveryRate
import Shake.Proofs.Absorption.Rejection
import Shake.Proofs.Output.Stream
import Shake.Proofs.Output.Conformance
import Shake.Proofs.Output.Ahead
import Shake.Proofs.Absorption.Pending
import Shake.Proofs.Absorption.Footprint
import Shake.Proofs.Absorption.Leftover
import Shake.Proofs.Absorption.Streaming
import Shake.Proofs.Absorption.Reuse
import Shake.Proofs.Absorption.Counter
import Shake.Proofs.Objects.Feeds
import Shake.Proofs.Objects.Refinement
import Shake.Proofs.Objects.Shortcut
import Shake.Proofs.Objects.Safety
import Shake.Proofs.Permutation.Lanes
import Shake.Proofs.Permutation.Walk
import Shake.Proofs.Permutation.Rounds
import Shake.Proofs.Permutation.Inverse
import Shake.Proofs.Absorption.Lossless
import Shake.Proofs.Objects.Draws
import Shake.Proofs.Objects.FrontEnds
import Shake.Proofs.Objects.Warnings
import Shake.Proofs.Output.ClosedForm
import Shake.Proofs.Objects.Secrecy
