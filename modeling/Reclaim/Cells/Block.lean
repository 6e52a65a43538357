import Reclaim.Memory
import Reclaim.Cells.SizeClass

/-!
Blocks of cells. A block starts with a header, after which the cells of its size class follow one
another. Four words of the header tell the size class, the bytes of a cell, the number of cells and
where the first one starts. A bitmap follows, with two bits for every granule of eight bytes: the
lower tells whether the cell that starts there is in use, the upper whether it is marked.

The header is memory like any other. Whatever is written over it counts from then on.
-/
namespace Reclaim

open Sizes

-- A word of the bitmap, the bits of its first granule at the low end.
namespace Bitmap

def granulesPerWord : Nat := 32

-- Words of the bitmap of a block.
def words : Nat := 128

def inUseBit (granule : Nat) : Nat := 2 * granule

def markBit (granule : Nat) : Nat := 2 * granule + 1

-- Every in-use bit.
@[noinline] def inUseMask : Nat := (Word.bound - 1) / 3

def isInUse (w granule : Nat) : Bool := w.testBit (inUseBit granule)

def isMarked (w granule : Nat) : Bool := w.testBit (markBit granule)

def setInUse (w granule : Nat) : Nat := w ||| 1 <<< inUseBit granule

def setMarked (w granule : Nat) : Nat := w ||| 1 <<< markBit granule

-- Takes a cell out of use, mark and all.
def clear (w granule : Nat) : Nat := w ^^^ (w &&& 3 <<< inUseBit granule)

-- The number of cells in use.
def live (w : Nat) : Nat := (List.range granulesPerWord).countP (isInUse w)

-- Keeps the marked cells in use and clears every mark.
def sweep (w : Nat) : Nat := w &&& w >>> 1 &&& inUseMask

def clearMarks (w : Nat) : Nat := w &&& inUseMask

end Bitmap

namespace Block

def granuleBytes : Nat := 8

-- Bytes before the bitmap.
def bitmapOffset : Nat := 32

-- Bytes before the first cell.
def headerBytes : Nat := bitmapOffset + Bitmap.words * wordBytes

def size (m : Memory) (block : Nat) : Nat := m.read block

def cellBytes (m : Memory) (block : Nat) : Nat := m.read (block + 8)

def cellCount (m : Memory) (block : Nat) : Nat := m.read (block + 16)

def firstCell (m : Memory) (block : Nat) : Nat := m.read (block + 24)

-- Makes a zeroed block one of a size class, with as many cells as fit behind the header.
def format (m : Memory) (block size : Nat) : Memory :=
  let bytes := SizeClass.bytes size
  m.writeWords block [size, bytes, (blockBytes - headerBytes) / bytes, headerBytes]

-- Where cell `i` starts.
def cell (m : Memory) (block i : Nat) : Except Fault Nat := do
  Word.add block (← Word.add (firstCell m block) (← Word.mul i (cellBytes m block)))

-- The granule of an address, counted from the start of its block.
def granule (a : Nat) : Nat := a % blockBytes / granuleBytes

-- The word of the bitmap that holds the bits of the cell at `a`.
def bitmapWord (a : Nat) : Nat :=
  blockOf a + bitmapOffset + wordBytes * (granule a / Bitmap.granulesPerWord)

-- The granule of an address, counted from the first one of its word.
def place (a : Nat) : Nat := granule a % Bitmap.granulesPerWord

def isInUse (m : Memory) (a : Nat) : Bool := Bitmap.isInUse (m.read (bitmapWord a)) (place a)

def isMarked (m : Memory) (a : Nat) : Bool := Bitmap.isMarked (m.read (bitmapWord a)) (place a)

-- Changes the bits of the cell at `a`.
def update (f : Nat → Nat → Nat) (m : Memory) (a : Nat) : Memory :=
  m.write (bitmapWord a) (f (m.read (bitmapWord a)) (place a))

def setInUse (m : Memory) (a : Nat) : Memory := update Bitmap.setInUse m a

def setMarked (m : Memory) (a : Nat) : Memory := update Bitmap.setMarked m a

def clear (m : Memory) (a : Nat) : Memory := update Bitmap.clear m a

-- The first of the cells `i`, `i + 1`, ... that is not in use with its address, looking at so many
-- cells. Cells beyond the block have no bits.
def findFrom? (m : Memory) (block i : Nat) : Nat → Except Fault (Option (Nat × Nat))
  | 0 => .ok none
  | cells + 1 => do
    let a ← cell m block i
    if block + blockBytes ≤ a then .error .indexOutOfBounds
    else if isInUse m a then findFrom? m block (i + 1) cells
    else .ok (some (i, a))

-- The first cell from number `next` on that is not in use, with its address.
def findFree? (m : Memory) (block next : Nat) : Except Fault (Option (Nat × Nat)) :=
  findFrom? m block next (cellCount m block - next)

-- The addresses of the bitmap's words.
def bitmap (block : Nat) : List Nat :=
  (List.range Bitmap.words).map fun i => block + bitmapOffset + wordBytes * i

-- The number of cells in use.
def live (m : Memory) (block : Nat) : Nat :=
  ((bitmap block).map fun a => Bitmap.live (m.read a)).foldl (· + ·) 0

-- Changes every word of the bitmap.
def settle (f : Nat → Nat) (m : Memory) (block : Nat) : Memory :=
  (bitmap block).foldl (fun m a => m.write a (f (m.read a))) m

end Block

end Reclaim
