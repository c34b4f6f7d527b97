/-
# Allocated blocks and bounded copies

The part of the C memory model that byte buffers rest on.  A block is a list of
cells; a fresh block holds no bytes yet, and a cell nothing was stored in stays
`none`, so that bytes a program never wrote cannot be mistaken for data.  A copy
that leaves its block has no meaning and is reported as a fault.
-/

import Mathlib.Data.List.Basic
import Mutiplex.Lib.CyclicList

namespace CMemory

open CyclicList

/-- The errors a C++ program can run into at a step. -/
inductive Fault
  | assertion
  | nullDereference
  | outOfBounds
  | useAfterFree
  deriving DecidableEq, Repr

/-- One byte of an allocated block, `none` while nothing was stored in it. -/
abbrev Cell := Option UInt8

/-- An allocated block. -/
abbrev Block := List Cell

/-- `malloc`: a block whose bytes are all unset. -/
def malloc (size : ℕ) : Block := List.replicate size none

@[simp]
theorem length_malloc (size : ℕ) : (malloc size).length = size := by
  simp [malloc]

/-- `memcpy` into a block at an offset. -/
def memcpyTo (block : Block) (offset : ℕ) (source : List Cell) : Except Fault Block :=
  if offset + source.length ≤ block.length then .ok (overwrite block offset source)
  else .error .outOfBounds

/-- `memcpy` out of a block from an offset. -/
def memcpyFrom (block : Block) (offset count : ℕ) : Except Fault (List Cell) :=
  if offset + count ≤ block.length then .ok ((block.drop offset).take count)
  else .error .outOfBounds

theorem memcpyTo_of_le {block : Block} {offset : ℕ} {source : List Cell}
    (h : offset + source.length ≤ block.length) :
    memcpyTo block offset source = .ok (overwrite block offset source) :=
  if_pos h

theorem memcpyFrom_of_le {block : Block} {offset count : ℕ}
    (h : offset + count ≤ block.length) :
    memcpyFrom block offset count = .ok ((block.drop offset).take count) :=
  if_pos h

/-- A copy to the start of a fresh block, followed by another right after it,
leaves the rest unset. -/
theorem overwrite_malloc_zero {size : ℕ} {source : List Cell} :
    overwrite (malloc size) 0 source = source ++ malloc (size - source.length) := by
  simp [overwrite, malloc]

theorem overwrite_append_malloc {size : ℕ} {front source : List Cell} :
    overwrite (front ++ malloc size) front.length source =
      front ++ source ++ malloc (size - source.length) := by
  simp [overwrite, malloc]

end CMemory
