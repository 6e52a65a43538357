import Reclaim.Space

/-!
Bump allocation over a space that hands out whole blocks. A request that stays in the block of the
cursor moves the cursor; any other takes fresh blocks. A cursor never rests on a block boundary,
where the next request would run into a block of somebody else.
-/
namespace Reclaim

open Sizes

-- An allocator that owns the rest of the block its cursor lies in.
structure Bump where
  cursor : Nat
deriving DecidableEq, Repr

namespace Bump

-- A cursor from which every request leaves the block.
def initialCursor : Nat := blockBytes - 1

def fresh : Bump := ⟨initialCursor⟩

-- Where the cursor rests after an allocation that ends at `stop`.
def park (stop : Nat) : Bump := ⟨if stop % blockBytes = 0 then stop - 1 else stop⟩

def allocSlow (s : Space) (bytes align : Nat) : Except Fault (Nat × Bump × Space) := do
  let blocks := max (Word.ceilDiv bytes blockBytes) 1
  let (run, s) ← s.acquire (← Word.mul blocks blockPages)
  let start ← Word.alignUp run align
  let stop ← Word.add start bytes
  let limit ← Word.add (blockOf start) (← Word.mul blocks blockBytes)
  if limit < stop then .error (.fatal (.alignmentOverflowsBlock align))
  .ok (start, park stop, s)

def alloc (b : Bump) (s : Space) (bytes align : Nat) : Except Fault (Nat × Bump × Space) := do
  let align := max align wordBytes
  let start ← Word.alignUp b.cursor align
  let stop ← Word.add start bytes
  if b.cursor / blockBytes = stop / blockBytes then .ok (start, park stop, s)
  else allocSlow s bytes align

end Bump

end Reclaim
