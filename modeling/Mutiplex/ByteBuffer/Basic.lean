/-
# Byte buffers

A `ByteBuffer` is one block of memory: four bytes that hold the capacity in
network order, and the data behind them.  Three `int`s move over the data,
`position_`, `limit_` and `mark_`, where -1 stands for no mark.  The operations
assert some of what they rely on; `len <= remaining()` lets negative lengths
through, and these make `memcpy` run over everything or move the position
backwards.

An `int` is an integer here; sums and differences are taken modulo 2^32.
-/

import Mathlib
import Mutiplex.Lib.CMemory

namespace Mutiplex

open CMemory

/-- The value an `int` gets from a result of arithmetic. -/
def wrapInt (n : ℤ) : ℤ := n.bmod (2 ^ 32)

/-- The bytes of an `int` in network order, as `htonl` leaves them in memory. -/
def htonl (n : ℤ) : List UInt8 :=
  let bits := (n % 2 ^ 32).toNat
  [UInt8.ofNat (bits / 2 ^ 24), UInt8.ofNat (bits / 2 ^ 16), UInt8.ofNat (bits / 2 ^ 8),
    UInt8.ofNat bits]

/-- The `int` that `ntohl` reads from four bytes. -/
def ntohl (cells : List Cell) : ℤ :=
  wrapInt (cells.foldl (fun acc cell => acc * 2 ^ 8 + (cell.getD 0).toNat) 0 : ℕ)

/-- The members of `ByteBuffer`; `data` is the block `data_` points to. -/
structure ByteBuffer where
  limit : ℤ
  mark : ℤ
  position : ℤ
  data : Block
  deriving DecidableEq, Repr

/-- The calls that change a buffer. -/
inductive BufferOp
  | position (p : ℤ)
  | limit (l : ℤ)
  | mark
  | reset
  | clear
  | flip
  | rewind
  | put (source : List UInt8) (len : ℤ)
  | get (len : ℤ)
  | skip (n : ℤ)
  deriving DecidableEq, Repr

namespace ByteBuffer

/-- `assert`. -/
def assert (condition : Prop) [Decidable condition] : Except Fault Unit :=
  if condition then .ok () else .error .assertion

/-- The constructor. -/
def new (capacity : ℤ) : Except Fault ByteBuffer := do
  assert (0 < capacity)
  let data ← memcpyTo (malloc (capacity.toNat + 4)) 0 ((htonl capacity).map some)
  return { limit := capacity, mark := -1, position := 0, data := data }

variable (b : ByteBuffer)

/-- `capacity`. -/
def capacity : ℤ := ntohl (b.data.take 4)

/-- `remaining`. -/
def remaining : ℤ := wrapInt (b.limit - b.position)

/-- `has_remaining`. -/
def hasRemaining : Bool := b.position < b.limit

/-- Where `data()` points to in the block. -/
def offset : ℤ := 4 + b.position

/-- `memcpy` of the cells to `data()`. -/
def store (cells : List Cell) : Except Fault Block :=
  if b.offset < 0 then .error .outOfBounds else memcpyTo b.data b.offset.toNat cells

/-- `memcpy` of `len` bytes from `data()`; as a `size_t`, a negative number is
larger than any block. -/
def load (len : ℤ) : Except Fault (List Cell) :=
  if b.offset < 0 ∨ len < 0 then .error .outOfBounds
  else memcpyFrom b.data b.offset.toNat len.toNat

/-- `position(int p)`. -/
def setPosition (p : ℤ) : Except Fault ByteBuffer := do
  assert (p ≤ b.limit ∧ 0 ≤ p)
  return { b with position := p, mark := if p < b.mark then -1 else b.mark }

/-- `limit(int limit)`. -/
def setLimit (l : ℤ) : Except Fault ByteBuffer := do
  assert (l ≤ b.capacity ∧ 0 ≤ l)
  return { b with
    limit := l
    position := if l < b.position then l else b.position
    mark := if l < b.mark then -1 else b.mark }

/-- `mark`. -/
def setMark : ByteBuffer := { b with mark := b.position }

/-- `reset`. -/
def reset : Except Fault ByteBuffer := do
  assert (0 ≤ b.mark)
  return { b with position := b.mark }

/-- `clear`. -/
def clear : ByteBuffer := { b with position := 0, limit := b.capacity, mark := -1 }

/-- `flip`. -/
def flip : ByteBuffer := { b with limit := b.position, position := 0, mark := -1 }

/-- `rewind`. -/
def rewind : ByteBuffer := { b with position := 0, mark := -1 }

/-- `put` of `len` bytes of `source`. -/
def put (source : List UInt8) (len : ℤ) : Except Fault ByteBuffer := do
  assert (len ≤ b.remaining)
  if len < 0 then throw .outOfBounds
  let cells ← memcpyFrom (source.map some) 0 len.toNat
  let data ← b.store cells
  return { b with data := data, position := wrapInt (b.position + len) }

/-- `get`: what is copied, and the buffer. -/
def get (len : ℤ) : Except Fault (List Cell × ByteBuffer) := do
  let len := min len b.remaining
  let cells ← b.load len
  return (cells, { b with position := wrapInt (b.position + len) })

/-- `skip`. -/
def skip (n : ℤ) : Except Fault ByteBuffer := do
  assert (n ≤ b.remaining)
  return { b with position := wrapInt (b.position + n) }

/-- A call on the buffer. -/
def operate : BufferOp → Except Fault ByteBuffer
  | .position p => b.setPosition p
  | .limit l => b.setLimit l
  | .mark => return b.setMark
  | .reset => b.reset
  | .clear => return b.clear
  | .flip => return b.flip
  | .rewind => return b.rewind
  | .put source len => b.put source len
  | .get len => do return (← b.get len).2
  | .skip n => b.skip n

end ByteBuffer

end Mutiplex
