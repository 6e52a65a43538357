import Reclaim.Space
import Reclaim.Cells.Block

/-!
The space of small objects: blocks on shelves, one shelf a size class. A shelf lists all its blocks
and stacks those that have a free cell and no owner. Cells leave use one by one when they are freed,
or together in a pass over all blocks that also gives empty blocks back to the space. What a cell's
state is stands in the header of its block, in memory.
-/
namespace Reclaim

open Sizes

-- The blocks of one size class, by their start addresses.
structure Shelf where
  -- All of them, the last added first.
  blocks : List Nat := []
  -- Blocks with a free cell that no allocator owns, the next to be taken first.
  available : List Nat := []
deriving DecidableEq, Repr

-- What a pass over the blocks found.
structure SweepStats where
  live : Nat := 0
  freed : Nat := 0
  released : Nat := 0
deriving DecidableEq, Repr

structure Cells where
  space : Space
  shelves : List Shelf := List.replicate SizeClass.count {}
  -- Cells freed one by one.
  cellsFreed : Nat := 0
deriving DecidableEq, Repr

namespace Cells

def contains (c : Cells) (a : Nat) : Bool := c.space.contains a

def shelf (c : Cells) (size : Nat) : Shelf := c.shelves.getD size {}

def setShelf (c : Cells) (size : Nat) (shelf : Shelf) : Cells :=
  { c with shelves := c.shelves.set size shelf }

-- Marks a cell; the answer tells whether it was not marked before.
def testAndMark (m : Memory) (a : Nat) : Bool × Memory :=
  (!Block.isMarked m a, Block.setMarked m a)

-- Whether a cell in use starts here. Pages that were never committed hold none.
def isAllocated (c : Cells) (m : Memory) (a : Nat) : Bool :=
  c.contains a && decide (a < c.space.start + pagesToBytes c.space.mapped) && Block.isInUse m a

-- Takes one cell out of use.
def free (c : Cells) (m : Memory) (a : Nat) : Except Fault (Cells × Memory) :=
  if Block.isInUse m a then .ok ({ c with cellsFreed := c.cellsFreed + 1 }, Block.clear m a)
  else .error (.fatal (.doubleFree a))

def blockCount (c : Cells) : Nat := (c.shelves.flatMap (·.blocks)).length

-- A fresh block for a size class.
def addBlock (c : Cells) (m : Memory) (size : Nat) : Except Fault (Nat × Cells × Memory) := do
  let (block, space) ← c.space.acquire blockPages
  let shelf := c.shelf size
  .ok (block, { c with space }.setShelf size { shelf with blocks := block :: shelf.blocks },
    Block.format m block size)

-- Takes a block off the stack of a size class, or a fresh one when the stack is empty.
def takeBlock (c : Cells) (m : Memory) (size : Nat) : Except Fault (Nat × Cells × Memory) :=
  match (c.shelf size).available with
  | block :: available => .ok (block, c.setShelf size { c.shelf size with available }, m)
  | [] => c.addBlock m size

-- Stacks a block that its owner gave up, where its header says it belongs.
def giveBack (c : Cells) (m : Memory) (block : Nat) : Except Fault Cells :=
  let size := Block.size m block
  if size < SizeClass.count then
    let shelf := c.shelf size
    .ok (c.setShelf size { shelf with available := block :: shelf.available })
  else .error .indexOutOfBounds

-- A pass over the blocks: what is left of the space, the shelf being rebuilt, and the counts.
structure Pass where
  cells : Cells
  memory : Memory
  shelf : Shelf := {}
  stats : SweepStats := {}

-- Keeps a block that has a cell in use, gives any other back to the space.
def Pass.visit (settle : Nat → Nat) (p : Pass) (block : Nat) : Except Fault Pass := do
  let memory := Block.settle settle p.memory block
  let live := Block.live memory block
  let stats := { p.stats with
    live := p.stats.live + live
    freed := p.stats.freed + (Block.live p.memory block - live) }
  if live = 0 then
    let (space, memory) ← p.cells.space.release memory block blockPages
    .ok { p with
          cells := { p.cells with space }
          memory
          stats := { stats with released := stats.released + 1 } }
  else
    .ok { p with
          memory
          shelf := {
            blocks := block :: p.shelf.blocks
            available :=
              if live < Block.cellCount memory block then block :: p.shelf.available
              else p.shelf.available }
          stats }

-- Visits the blocks of one size class, the first added first.
def Pass.visitShelf (settle : Nat → Nat) (p : Pass) (size : Nat) : Except Fault Pass := do
  let p ← (p.cells.shelf size).blocks.reverse.foldlM (Pass.visit settle) { p with shelf := {} }
  .ok { p with cells := p.cells.setShelf size p.shelf }

def pass (settle : Nat → Nat) (c : Cells) (m : Memory) :
    Except Fault (SweepStats × Cells × Memory) := do
  let p ← (List.range SizeClass.count).foldlM (Pass.visitShelf settle) { cells := c, memory := m }
  .ok (p.stats, p.cells, p.memory)

-- Frees the cells that are not marked and clears all marks. No allocator may own a block.
def sweep (c : Cells) (m : Memory) : Except Fault (SweepStats × Cells × Memory) :=
  pass Bitmap.sweep c m

-- Keeps the cells in use and clears all marks. No allocator may own a block.
def reclaim (c : Cells) (m : Memory) : Except Fault (SweepStats × Cells × Memory) :=
  pass Bitmap.clearMarks c m

end Cells

end Reclaim
