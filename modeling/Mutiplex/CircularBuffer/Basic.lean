/-
# The circular output buffer

The fields and functions of `CircularBuffer`.  The counters `in_` and `out_` run
freely and wrap at 2^32; the position of a byte in the block is its counter
masked with `capacity_ - 1`.  `put` grows the block through `resize` when the
free space does not hold the new bytes.

`write_to_fd` hands the kernel one or two pieces of the block; how many bytes
it takes, or that the call fails, is an argument of the model.
-/

import Mathlib
import Mutiplex.Lib.CMemory
import Mutiplex.Lib.Transition

namespace Mutiplex

open CMemory

/-- The four fields of the class; `data_` is the block it owns. -/
structure CircularBuffer where
  data : Block
  capacity : UInt32
  in_ : UInt32
  out_ : UInt32
  deriving DecidableEq, Repr

/-- `std::min` on `uint32_t`. -/
def stdMin (a b : UInt32) : UInt32 := if b < a then b else a

/-- `is_pow_of_two`. -/
def isPowOfTwo (v : UInt32) : Bool := v != 0 && (v &&& (v - 1)) == 0

/-- The loop of `roundup_pow_of_two`, with the iterations still to come. -/
def roundupLoop (v : UInt32) : ℕ → UInt32 → UInt32
  | 0, ret => ret
  | n + 1, ret => if ret ≥ v then ret else roundupLoop v n (ret <<< 1)

/-- `roundup_pow_of_two`: the loop counter runs from 1 to 31. -/
def roundupPowOfTwo (v : UInt32) : UInt32 :=
  if v < 2 then 2 else roundupLoop v 31 1

namespace CircularBuffer

/-- The capacity the constructor settles on. -/
def initialCapacity (capacity : UInt32) : UInt32 :=
  let cap := if capacity > 0x80000000 then 0x80000000 else capacity
  if isPowOfTwo cap then cap else roundupPowOfTwo cap

/-- The constructor. -/
def new (capacity : UInt32) : CircularBuffer where
  data := malloc (initialCapacity capacity).toNat
  capacity := initialCapacity capacity
  in_ := 0
  out_ := 0

variable (self : CircularBuffer)

/-- `buffer_len`. -/
def bufferLen : UInt32 := self.in_ - self.out_

/-- `empty`. -/
def empty : Bool := self.in_ == self.out_

/-- `full`. -/
def full : Bool := self.in_ - self.out_ == self.capacity

/-- `clear`. -/
def clear : CircularBuffer := { self with in_ := 0, out_ := 0 }

/-- `buffer_remaining`. -/
def bufferRemaining : UInt32 := self.capacity - self.in_ + self.out_

/-- `out()`: the position of the next byte to read. -/
def outIndex : UInt32 := self.out_ &&& (self.capacity - 1)

/-- `in()`: the position of the next byte to write. -/
def inIndex : UInt32 := self.in_ &&& (self.capacity - 1)

/-- `resize`: move to a larger block.  The branch for a full buffer whose data
starts at the beginning of the block copies the old bytes only. -/
def resize (buffer : List UInt8) (length : UInt32) : Except Fault CircularBuffer := do
  let cap := roundupPowOfTwo (length + self.capacity)
  let data := malloc cap.toNat
  let buffLen := self.bufferLen
  let data ←
    if self.full && self.inIndex == 0 then do
      let old ← memcpyFrom self.data 0 self.capacity.toNat
      memcpyTo data 0 old
    else do
      let len := stdMin buffLen (self.capacity - self.outIndex)
      -- first the data from `out_` to the end of the block
      let front ← memcpyFrom self.data self.outIndex.toNat len.toNat
      let data ← memcpyTo data 0 front
      -- then the rest from the beginning of the block
      let back ← memcpyFrom self.data 0 (buffLen - len).toNat
      let data ← memcpyTo data len.toNat back
      -- last the new bytes
      memcpyTo data buffLen.toNat ((buffer.take length.toNat).map some)
  return { data := data, capacity := cap, in_ := length + buffLen, out_ := 0 }

/-- `put`: the bytes of `buffer`, whose number is the argument `length`. -/
def put (buffer : List UInt8) : Except Fault CircularBuffer :=
  let length := UInt32.ofNat buffer.length
  if self.bufferRemaining < length then self.resize buffer length
  else do
    let inIndex := self.inIndex
    let len := stdMin length (self.capacity - inIndex)
    let data ← memcpyTo self.data inIndex.toNat ((buffer.take len.toNat).map some)
    let data ← memcpyTo data 0
      (((buffer.drop len.toNat).take (length - len).toNat).map some)
    return { self with data := data, in_ := self.in_ + length }

/-- `get`: the bytes copied out, and the buffer without them. -/
def get (length : UInt32) : Except Fault (List Cell × CircularBuffer) := do
  let size := stdMin length self.bufferLen
  let outIndex := self.outIndex
  let len := stdMin size (self.capacity - outIndex)
  let front ← memcpyFrom self.data outIndex.toNat len.toNat
  let back ← memcpyFrom self.data 0 (size - len).toNat
  return (front ++ back, { self with out_ := self.out_ + size })

/-- The memory `write_to_fd` points the kernel at: one `write` for a full buffer
that starts at the beginning of the block, else one or two `iovec`s. -/
def iovecs : Except Fault (List (List Cell)) :=
  if self.full && self.inIndex == 0 then do
    let whole ← memcpyFrom self.data 0 self.capacity.toNat
    return [whole]
  else do
    let len := stdMin self.bufferLen (self.capacity - self.outIndex)
    let front ← memcpyFrom self.data self.outIndex.toNat len.toNat
    if self.bufferLen - len == 0 then return [front]
    else do
      let back ← memcpyFrom self.data 0 (self.bufferLen - len).toNat
      return [front, back]

/-- `static_cast<int>` of an `ssize_t`. -/
def castInt (n : ℤ) : ℤ := n.bmod (2 ^ 32)

/-- What `write_to_fd` leaves behind: the bytes the kernel took, the returned
`int`, and the buffer. -/
structure Written where
  taken : List Cell
  total : ℤ
  buffer : CircularBuffer

/-- `write_to_fd`, where `n` is what the kernel answers: the number of bytes it
took, or a negative number for an error. -/
def writeToFd (n : ℤ) : Except Fault Written := do
  if self.empty then throw .assertion
  let offered ← self.iovecs
  if n < 0 then return { taken := [], total := castInt n, buffer := self }
  else return {
    taken := offered.flatten.take n.toNat
    total := castInt n
    buffer := { self with out_ := self.out_ + UInt32.ofNat n.toNat } }

end CircularBuffer

end Mutiplex
