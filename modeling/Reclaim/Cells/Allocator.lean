import Reclaim.Cells.Pool

/-!
Allocators of cells. An allocator owns at most one block of every size class and hands out its free
cells in order; then it takes a block from the shelf, and a fresh one when the shelf has none.
-/
namespace Reclaim

open Sizes

-- A block with the number of the next cell to look at.
structure CellCursor where
  block : Nat
  next : Nat
deriving DecidableEq, Repr

structure CellAllocator where
  -- The block owned in each size class.
  current : List (Option CellCursor) := List.replicate SizeClass.count none
deriving DecidableEq, Repr

namespace CellAllocator

-- Takes the next free cell of a block.
def takeCell? (m : Memory) (cursor : CellCursor) :
    Except Fault (Option (Nat × CellCursor × Memory)) := do
  match ← Block.findFree? m cursor.block cursor.next with
  | some (i, a) => .ok (some (a, ⟨cursor.block, i + 1⟩, Block.setInUse m a))
  | none => .ok none

-- Takes blocks from the shelf until one has a free cell, at most so many.
def takeShelved (c : Cells) (m : Memory) (size : Nat) :
    Nat → Except Fault (Nat × CellCursor × Cells × Memory)
  | 0 => .error .outOfFuel
  | blocks + 1 => do
    let (block, c, m) ← c.takeBlock m size
    match ← takeCell? m ⟨block, 0⟩ with
    | some (a, cursor, m) => .ok (a, cursor, c, m)
    | none => takeShelved c m size blocks

-- The next cell of a size class, and the cursor behind it. A shelf gives out its stack and then no
-- more blocks than the space has pages.
def take (x : CellAllocator) (c : Cells) (m : Memory) (size : Nat) :
    Except Fault (Nat × CellCursor × Cells × Memory) := do
  let owned ← match x.current.getD size none with
    | some cursor => takeCell? m cursor
    | none => .ok none
  match owned with
  | some (a, cursor, m) => .ok (a, cursor, c, m)
  | none => takeShelved c m size ((c.shelf size).available.length + c.space.totalPages + 1)

-- A zeroed cell for `bytes` bytes.
def alloc (x : CellAllocator) (c : Cells) (m : Memory) (bytes align : Nat) :
    Except Fault (Nat × CellAllocator × Cells × Memory) := do
  if wordBytes < align then .error (.fatal (.unsupportedAlignment align))
  match SizeClass.forBytes? bytes with
  | none => .error (.fatal (.oversizedCell bytes))
  | some size =>
    let (a, cursor, c, m) ← x.take c m size
    .ok (a, ⟨x.current.set size (some cursor)⟩, c, m.zero a (SizeClass.bytes size))

-- A cell for the copy of an object. It is born marked, so the next sweep keeps it.
def allocCopy (x : CellAllocator) (c : Cells) (m : Memory) (bytes : Nat) :
    Except Fault (Nat × CellAllocator × Cells × Memory) := do
  let (a, x, c, m) ← x.alloc c m bytes wordBytes
  .ok (a, x, c, Block.setMarked m a)

-- Gives a block up; one that may have free cells is stacked again.
def giveUp (m : Memory) (c : Cells) (cursor : CellCursor) : Except Fault Cells :=
  if cursor.next < Block.cellCount m cursor.block then c.giveBack m cursor.block else .ok c

-- Gives up every block.
def reset (x : CellAllocator) (c : Cells) (m : Memory) : Except Fault (CellAllocator × Cells) := do
  .ok ({}, ← (x.current.filterMap id).foldlM (giveUp m) c)

end CellAllocator

end Reclaim
