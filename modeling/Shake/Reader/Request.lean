import Shake.Reader.Basic

/-!
# Requests as data

A `Request` names one way to draw from a `Reader` with its arguments, and `Reader.serve` meets it.
The bytes that a draw shows, as they are or as a number, are those that it took from the stream.
-/

namespace Shake.Reader

/-- A way to draw from the stream. -/
inductive Request where
  /-- Fill a buffer. -/
  | read (dest : List UInt8)
  /-- Fill a buffer through `Squeeze`. -/
  | squeeze (dest : List UInt8)
  /-- Fill a buffer through `OutputStream`. -/
  | next (dest : List UInt8)
  /-- Make a buffer of `n` bytes and fill it. -/
  | readFresh (n : Nat)
  /-- Fill `n` zeros. -/
  | readBlock (n : Nat)
  /-- Fill a buffer through `RandomSource`. -/
  | fill (dest : List UInt8)
  /-- Fill a buffer through `RandomSource`, prepared for failure. -/
  | tryFill (dest : List UInt8)
  /-- Draw a number of four bytes. -/
  | nextUInt32
  /-- Draw a number of eight bytes. -/
  | nextUInt64

/-- The number of bytes of the stream that a request uses up. -/
def Request.size : Request → Nat
  | .read dest | .squeeze dest | .next dest | .fill dest | .tryFill dest => dest.length
  | .readFresh n | .readBlock n => n
  | .nextUInt32 => 4
  | .nextUInt64 => 8

/-- What a request brings. -/
inductive Draw where
  /-- A buffer, filled. -/
  | bytes (bytes : List UInt8)
  /-- A number of four bytes. -/
  | word32 (n : UInt32)
  /-- A number of eight bytes. -/
  | word64 (n : UInt64)
  /-- Nothing: the source ran dry. -/
  | nothing

/-- The bytes of the stream that went into a draw. -/
def Draw.toBytes : Draw → List UInt8
  | .bytes b => b
  | .word32 n => (Lane.toBytes n.toUInt64).take 4
  | .word64 n => Lane.toBytes n
  | .nothing => []

/-- Meet a request. -/
def serve (r : Reader) : Request → Checked (Draw × Reader)
  | .read dest => do
    let (bytes, r) ← r.read dest
    return (.bytes bytes, r)
  | .squeeze dest => do
    let out ← Squeeze.read r dest
    return (.bytes out.result, out.next)
  | .next dest => do
    let (bytes, r) ← OutputStream.next r dest
    return (.bytes bytes, r)
  | .readFresh n => do
    let out ← Squeeze.readFresh r n
    return (.bytes out.result, out.next)
  | .readBlock n => do
    let out ← Squeeze.readBlock r n
    return (.bytes out.result, out.next)
  | .fill dest => do
    let (bytes, r) ← RandomSource.fill r dest
    return (.bytes bytes, r)
  | .tryFill dest => do
    let (bytes?, r) ← RandomSource.tryFill r dest
    return (bytes?.elim .nothing .bytes, r)
  | .nextUInt32 => do
    let (n, r) ← RandomSource.nextUInt32 r
    return (.word32 n, r)
  | .nextUInt64 => do
    let (n, r) ← RandomSource.nextUInt64 r
    return (.word64 n, r)

/-- Meet requests one after the other, collecting the draws. -/
def serveAll (r : Reader) (requests : List Request) : Checked (List Draw × Reader) :=
  Checked.thread serve r requests

end Shake.Reader
