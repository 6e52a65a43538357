import Reclaim.Bump
import Reclaim.Plan.Basic

/-!
Mutators: threads that allocate objects and write references. In a plan that counts, every write
counts the new reference at once and leaves the decrement of the old one to the next collection.
-/
namespace Reclaim

open Queue Sizes

-- Where an allocation is to go.
inductive Semantics where
  -- The nursery, or the space of small counted objects.
  | standard
  | mature
  | large
  | immortal
deriving DecidableEq, Repr

-- The allocator behind standard requests.
inductive StandardAllocator where
  | bump (b : Bump)
  | cells (x : CellAllocator)
deriving DecidableEq, Repr

structure Mutator where
  standard : StandardAllocator
  mature : CellAllocator := {}
  immortal : Bump := .fresh
  -- Decrements not yet published.
  decrements : Ends Nat := {}

-- Requests that name nothing else are standard ones.
def Semantics.ofName : String → Semantics
  | "mature" => .mature
  | "large" => .large
  | "immortal" => .immortal
  | _ => .standard

namespace Mutator

def new (p : Plan) : Mutator where
  standard := if p.heap.nursery.isSome then .bump .fresh else .cells {}

-- The space that standard requests come from.
def standardSpace (p : Plan) : String :=
  match p.heap.nursery with
  | some nursery => nursery.name
  | none => p.heap.mature.space.name

-- Requests above the threshold go to the large objects, immortal ones aside.
def redirect (p : Plan) (bytes : Nat) : Semantics → Semantics
  | .standard => if p.config.largeObjectThreshold < bytes then .large else .standard
  | .mature => if p.config.largeObjectThreshold < bytes then .large else .mature
  | semantics => semantics

def allocCells (p : Plan) (x : CellAllocator) (bytes align : Nat) :
    Except Fault (Nat × CellAllocator × Plan) := do
  let (a, x, mature, memory) ← x.alloc p.heap.mature p.memory bytes align
  .ok (a, x, p.setHeap { p.heap with mature, memory })

def allocStandard (m : Mutator) (p : Plan) (bytes align : Nat) :
    Except Fault (Nat × Mutator × Plan) := do
  match m.standard, p.heap.nursery with
  | .bump b, some nursery =>
    let (a, b, nursery) ← b.alloc nursery bytes align
    .ok (a, { m with standard := .bump b }, p.setHeap { p.heap with nursery := some nursery })
  | .bump _, none => .error .assertion
  | .cells x, _ =>
    let (a, x, p) ← allocCells p x bytes align
    .ok (a, { m with standard := .cells x }, p)

-- Room for `bytes` bytes, and the name of the space it is in.
def allocIn (m : Mutator) (p : Plan) (bytes align : Nat) :
    Semantics → Except Fault (Nat × String × Mutator × Plan)
  | .standard => do
    let (a, m, p) ← m.allocStandard p bytes align
    .ok (a, standardSpace p, m, p)
  | .mature => do
    let (a, mature, p) ← allocCells p m.mature bytes align
    .ok (a, p.heap.mature.space.name, { m with mature }, p)
  | .large => do
    let (a, large, memory) ← p.heap.large.alloc p.memory bytes align
    .ok (a, large.space.name, m, p.setHeap { p.heap with large, memory })
  | .immortal => do
    let (a, immortal, space) ← m.immortal.alloc p.heap.immortal.space bytes align
    .ok (a, space.name, { m with immortal },
      p.setHeap { p.heap with immortal := { p.heap.immortal with space } })

-- Allocates zeroed bytes and checks the heap budget.
def alloc (m : Mutator) (p : Plan) (bytes align : Nat) (semantics : Semantics) :
    Except Fault (Nat × Mutator × Plan) := do
  let (a, space, m, p) ← m.allocIn p bytes align (redirect p bytes semantics)
  let (_, p) ← p.poll false space
  .ok (a, m, p)

-- Buffers a decrement.
def defer (m : Mutator) (p : Plan) (o : Nat) : Except Fault (Mutator × Plan) := do
  match p.counts with
  | none => .ok (m, p)
  | some counts =>
    counts.decrements.check
    let (decrements, chain) := m.decrements.insert counts.decrements o
    .ok ({ m with decrements }, { p with counts := some { counts with decrements := chain } })

-- What the mark bit of a new object shows.
def newMark (h : Heap) (o : Nat) : Bool :=
  match h.spaceOf? o with
  | some .large => h.large.markState
  | some .immortal => h.immortal.markState
  | _ => false

-- Writes the header of a new object. Counted objects start with one reference, which the next
-- collection takes away; acyclic ones are green.
def postAlloc (m : Mutator) (p : Plan) (o type length : Nat) : Except Fault (Mutator × Plan) := do
  let counted := p.isCounted o
  let green ← if counted then do .ok (← p.heap.types.info type).acyclic else .ok false
  Object.check o
  let s := Status.initial (newMark p.heap o) (if green then .green else .black)
    (if counted then 1 else 0)
  let p := p.setMemory (Object.writeHeader p.memory (← p.heap.types.info type) o s type length)
  if counted then m.defer p o else .ok (m, p)

-- Allocates an object of a type.
def newObject (m : Mutator) (p : Plan) (type length : Nat) (semantics : Semantics) :
    Except Fault (Nat × Mutator × Plan) := do
  let info ← p.heap.types.info type
  let bytes ← info.bytesRequired length
  let (o, m, p) ← m.alloc p bytes wordBytes semantics
  let (m, p) ← m.postAlloc p o type length
  .ok (o, m, p)

-- The address of a reference field.
def fieldSlot (p : Plan) (o index : Nat) : Except Fault Nat := do
  match ← Object.slot? p.heap.types p.memory o index with
  | some slot => .ok slot
  | none => .error (.fatal (.referenceIndex index o))

-- Counts a reference that is about to be written. An object in use is no candidate for long.
def retain (p : Plan) (o : Nat) : Except Fault Plan := do
  Object.check o
  let heap := CountedHeap.increment p.heap o
  .ok (p.setHeap (if CountedHeap.color heap o == .green then heap
    else CountedHeap.setColor heap o .black))

-- Writes a reference into a field.
def writeReference (m : Mutator) (p : Plan) (o index : Nat) (value : Option Nat) :
    Except Fault (Mutator × Plan) := do
  let slot ← fieldSlot p o index
  if p.counts.isNone then
    .ok (m, p.setMemory (← p.memory.storeRef slot value))
  else
    let p ← match value.filter p.isCounted with
      | some new => retain p new
      | none => .ok p
    let old ← p.memory.loadRef slot
    let p := p.setMemory (← p.memory.storeRef slot value)
    match old.filter p.isCounted with
    | some old => m.defer p old
    | none => .ok (m, p)

def readReference (p : Plan) (o index : Nat) : Except Fault (Option Nat) := do
  p.memory.loadRef (← fieldSlot p o index)

-- Asks for a collection, if need be whatever the heap's size.
def poll (p : Plan) (must : Bool) : Except Fault (Bool × Plan) := p.poll must (standardSpace p)

-- Gives up all blocks.
def reset (m : Mutator) (p : Plan) : Except Fault (Mutator × Plan) := do
  let (standard, cells) ← match m.standard with
    | .bump _ => .ok (.bump .fresh, p.heap.mature)
    | .cells x => do
      let (x, cells) ← x.reset p.heap.mature p.memory
      .ok (StandardAllocator.cells x, cells)
  let (mature, cells) ← m.mature.reset cells p.memory
  .ok ({ m with standard, mature, immortal := .fresh }, p.setHeap { p.heap with mature := cells })

def flush (m : Mutator) (p : Plan) : Mutator × Plan :=
  match p.counts with
  | none => (m, p)
  | some counts =>
    let (decrements, chain) := m.decrements.flush counts.decrements
    ({ m with decrements }, { p with counts := some { counts with decrements := chain } })

-- Gives up all blocks and publishes the decrements, ahead of a collection.
def prepare (m : Mutator) (p : Plan) : Except Fault (Mutator × Plan) := do
  let (m, p) ← m.reset p
  .ok (m.flush p)

-- A mutator that goes away leaves its decrements behind.
def drop (m : Mutator) (p : Plan) : Except Fault Plan := do .ok (← m.prepare p).2

end Mutator

end Reclaim
