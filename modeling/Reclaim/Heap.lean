import Reclaim.Cells.Pool
import Reclaim.Immortal
import Reclaim.Treadmill
import Reclaim.Trial.Heap

/-!
The heap: the spaces with the memory and the types of the objects in them. Which space an object
lives in is decided by its address alone.
-/
namespace Reclaim

open Sizes

inductive SpaceKind where
  | nursery
  | mature
  | large
  | immortal
deriving DecidableEq, Repr

structure Heap where
  types : Types
  memory : Memory := .empty
  -- New objects of a plan that copies.
  nursery : Option Space
  -- Small objects.
  mature : Cells
  large : Treadmill
  immortal : Immortal

namespace Heap

def inNursery (h : Heap) (o : Nat) : Bool := h.nursery.any (·.contains o)

def spaceOf? (h : Heap) (o : Nat) : Option SpaceKind :=
  if h.inNursery o then some .nursery
  else if h.mature.contains o then some .mature
  else if h.large.contains o then some .large
  else if h.immortal.contains o then some .immortal
  else none

def spaces (h : Heap) : List Space :=
  h.nursery.toList ++ [h.mature.space, h.large.space, h.immortal.space]

-- Whether the object's memory is handed out.
def isAllocated (h : Heap) (o : Nat) : Except Fault Bool :=
  match h.spaceOf? o with
  | some .mature => .ok (h.mature.isAllocated h.memory o)
  | some .large => h.large.containsObject o
  | some _ => .ok true
  | none => .ok false

-- Pages in use. A nursery page counts twice: it may need as much room again to be copied to.
def pagesReserved (h : Heap) : Except Fault Nat := do
  let nursery ← Word.mul 2 ((h.nursery.map (·.used)).getD 0)
  let sum ← Word.add nursery h.mature.space.used
  Word.add (← Word.add sum h.large.space.used) h.immortal.space.used

-- Whether a plan that counts references counts those to this object.
def inCountedSpace (h : Heap) (o : Nat) : Bool :=
  match h.spaceOf? o with
  | some .mature | some .large => true
  | _ => false

-- The same for a reference that is about to be followed to the header of the object.
def isCounted (h : Heap) (o : Nat) : Except Fault Bool := do
  if h.inCountedSpace o then
    Object.check o
    .ok true
  else .ok false

-- Gives the memory of a counted object back.
def free (h : Heap) (o : Nat) : Except Fault Heap :=
  match h.spaceOf? o with
  | some .mature => do
    let (mature, memory) ← h.mature.free h.memory o
    .ok { h with mature, memory }
  | some .large => do
    let (large, memory) ← h.large.free h.memory o
    .ok { h with large, memory }
  | _ => .error (.fatal (.freeOutsideCounted o))

def references (h : Heap) (o : Nat) : Except Fault (List Nat) :=
  Object.references h.types h.memory o

-- The most reference slots that an object of some type can have.
def maxSlots (h : Heap) : Nat :=
  h.types.table.foldl (fun n info => max n info.offsets.length) Word.bound

-- No more objects than this fit into the spaces.
def maxObjects (h : Heap) : Nat := (h.spaces.map fun s => s.extent / wordBytes).foldl (· + ·) 0

instance : CountedHeap Heap where
  isCounted := isCounted
  status h o := Object.status h.memory o
  setStatus h o s := { h with memory := Object.setStatus h.memory o s }
  references := references
  free := free
  extent h := h.maxObjects * h.maxSlots

-- An object as it stands in memory.
structure View where
  status : Nat
  type : Nat
  -- The length of an array.
  length : Option Nat
  size : Nat
deriving DecidableEq, Repr

def view (h : Heap) (o : Nat) : Except Fault View := do
  let info ← Object.info h.types h.memory o
  .ok {
    status := Object.status h.memory o
    type := Object.typeId h.memory o
    length := if info.isArray then some (Object.arrayLength h.memory o) else none
    size := ← Object.size h.types h.memory o }

end Heap

end Reclaim
