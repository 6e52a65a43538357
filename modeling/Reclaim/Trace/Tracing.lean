import Reclaim.Cells.Allocator
import Reclaim.Clock
import Reclaim.Config
import Reclaim.Heap
import Reclaim.Nursery
import Reclaim.Roots
import Reclaim.Trace.Queues

/-!
The closure: everything reachable from the roots is visited. A plan that copies moves what it meets
in the nursery and marks everything else in place. A plan that counts references stops at the roots:
it counts each of them once and records it, so that the count can be undone in the next collection.
-/
namespace Reclaim

open Queue Sizes

-- What one collector did in a closure.
structure TraceStats where
  roots : RootCounts := {}
  scanned : Nat := 0
  copied : Nat := 0
  marked : Nat := 0
  increments : Nat := 0
deriving DecidableEq, Repr

def TraceStats.add (a b : TraceStats) : TraceStats :=
  ⟨a.roots.add b.roots, a.scanned + b.scanned, a.copied + b.copied, a.marked + b.marked,
    a.increments + b.increments⟩

-- What the collectors of a closure share.
structure Closure where
  policy : Policy
  heap : Heap
  clock : Clock
  queues : TraceQueues
  -- The chain that root increments are recorded on, in a plan that counts.
  newRoots : Option (Chain Nat)

-- A collector at work in a closure.
structure Tracing where
  shared : Closure
  -- The collector's position, from one on.
  ordinal : Nat
  -- Where survivors of the nursery are copied to.
  copy : Option CellAllocator
  values : Ends Nat := {}
  locations : Ends Nat := {}
  interior : Ends (Nat × Nat) := {}
  increments : Ends Nat := {}
  stats : TraceStats := {}

namespace Tracing

@[inline] def heap (t : Tracing) : Heap := t.shared.heap

@[inline] def memory (t : Tracing) : Memory := t.shared.heap.memory

@[inline] def setHeap (t : Tracing) (heap : Heap) : Tracing :=
  { t with shared := { t.shared with heap } }

@[inline] def setMemory (t : Tracing) (memory : Memory) : Tracing :=
  t.setHeap { t.heap with memory }

@[inline] def setQueues (t : Tracing) (queues : TraceQueues) : Tracing :=
  { t with shared := { t.shared with queues } }

def insertLocation (t : Tracing) (slot : Nat) : Except Fault Tracing := do
  t.shared.queues.locations.check
  let (locations, chain) := t.locations.insert t.shared.queues.locations slot
  .ok ({ t with locations }.setQueues { t.shared.queues with locations := chain })

def insertInterior (t : Tracing) (entry : Nat × Nat) : Except Fault Tracing := do
  t.shared.queues.interior.check
  let (interior, chain) := t.interior.insert t.shared.queues.interior entry
  .ok ({ t with interior }.setQueues { t.shared.queues with interior := chain })

-- Queues an object whose references are still to be traced.
def pushValue (t : Tracing) (o : Nat) : Except Fault Tracing := do
  t.shared.queues.values.check
  let (values, chain) := t.values.push t.shared.queues.values o
  .ok ({ t with values }.setQueues { t.shared.queues with values := chain })

def popLocation (t : Tracing) : Option Nat × Tracing :=
  let (slot, locations, chain) := t.locations.pop t.shared.queues.locations
  (slot, { t with locations }.setQueues { t.shared.queues with locations := chain })

def popInterior (t : Tracing) : Option (Nat × Nat) × Tracing :=
  let (entry, interior, chain) := t.interior.pop t.shared.queues.interior
  (entry, { t with interior }.setQueues { t.shared.queues with interior := chain })

def popValue (t : Tracing) : Option Nat × Tracing :=
  let (o, values, chain) := t.values.pop t.shared.queues.values
  (o, { t with values }.setQueues { t.shared.queues with values := chain })

-- Publishes what waits in the collector's own buffers.
def flush (t : Tracing) : Tracing :=
  let q := t.shared.queues
  let (values, v) := t.values.flush q.values
  let (locations, l) := t.locations.flush q.locations
  let (interior, i) := t.interior.flush q.interior
  { t with values, locations, interior }.setQueues ⟨v, l, i⟩

-- Records the increment of a root.
def recordIncrement (t : Tracing) (o : Nat) : Except Fault Tracing := do
  match t.shared.newRoots with
  | none => .ok t
  | some chain =>
    chain.check
    let (increments, chain) := t.increments.insert chain o
    .ok { t with increments, shared := { t.shared with newRoots := some chain } }

def flushIncrements (t : Tracing) : Tracing :=
  match t.shared.newRoots with
  | none => t
  | some chain =>
    let (increments, chain) := t.increments.flush chain
    { t with increments, shared := { t.shared with newRoots := some chain } }

-- An object of the nursery: its new address, and a place in the queue if this call moved it.
def traceNursery (t : Tracing) (o : Nat) : Except Fault (Nat × Tracing) := do
  match t.copy with
  | none => .error (.fatal .noCopyAllocator)
  | some x =>
    let (target, moved, memory) ← Nursery.forward t.heap.types t.memory o fun m bytes => do
      let (a, x, mature, m) ← x.allocCopy t.heap.mature m bytes
      .ok (a, (x, mature), m)
    match moved with
    | none => .ok (target, t.setMemory memory)
    | some (x, mature) =>
      let t := { t with copy := some x, stats := { t.stats with copied := t.stats.copied + 1 } }
      .ok (target, ← (t.setHeap { t.heap with memory, mature }).pushValue target)

-- Marks an object in place. Answers whether it was not marked before.
def mark (t : Tracing) (o : Nat) : SpaceKind → Except Fault (Bool × Tracing)
  | .large => do
    let (fresh, large, memory) ← t.heap.large.testAndMark t.memory o
    .ok (fresh, t.setHeap { t.heap with large, memory })
  | .immortal => do
    let (fresh, memory) ← t.heap.immortal.testAndMark t.memory o
    .ok (fresh, t.setMemory memory)
  | _ =>
    let (fresh, memory) := Cells.testAndMark t.memory o
    .ok (fresh, t.setMemory memory)

def traceMarking (t : Tracing) (o : Nat) (space : SpaceKind) : Except Fault (Nat × Tracing) := do
  if space = .nursery then t.traceNursery o
  else
    let (fresh, t) ← t.mark o space
    if fresh then
      .ok (o, ← { t with stats := { t.stats with marked := t.stats.marked + 1 } }.pushValue o)
    else .ok (o, t)

-- Counts a root. Immortal objects are not counted.
def incrementRoot (t : Tracing) (o : Nat) (space : SpaceKind) : Except Fault Tracing := do
  if space = .immortal then .ok t
  else
    Object.check o
    let t := t.setHeap (CountedHeap.increment t.heap o)
    let stats := { t.stats with increments := t.stats.increments + 1 }
    { t with stats }.recordIncrement o

-- The address of an object after the closure.
def traceObject (t : Tracing) (o : Nat) : Except Fault (Nat × Tracing) :=
  match t.heap.spaceOf? o with
  | none => .error (.fatal (.traceOutside o))
  | some space =>
    match t.shared.policy with
    | .hybrid => t.traceMarking o space
    | .refcount => do .ok (o, ← t.incrementRoot o space)

-- Traces the reference in a slot and makes the slot follow the object.
def processEdge (t : Tracing) (slot : Nat) : Except Fault Tracing := do
  match ← t.memory.loadRef slot with
  | none => .ok t
  | some o =>
    let (target, t) ← t.traceObject o
    if target = o then .ok t else do .ok (t.setMemory (← t.memory.storeRef slot (some target)))

-- Traces `base` and makes a pointer into it follow the object.
def processInterior (t : Tracing) (base slot : Nat) : Except Fault Tracing := do
  let offset ← Word.sub (← t.memory.load slot) base
  let (target, t) ← t.traceObject base
  .ok (t.setMemory (← t.memory.store slot (← Word.add target offset)))

-- Traces the references that an object holds.
def scanObject (t : Tracing) (o : Nat) : Except Fault Tracing := do
  let t := { t with
    shared := { t.shared with clock := t.shared.clock.visit }
    stats := { t.stats with scanned := t.stats.scanned + 1 } }
  Object.scan t.heap.types t.memory o processEdge t

-- Takes one entry off the queues and processes it, slots first. Answers whether there was one.
def processNext (t : Tracing) : Except Fault (Bool × Tracing) := do
  match t.popLocation with
  | (some slot, t) => do .ok (true, ← t.processEdge slot)
  | (none, t) =>
    match t.popInterior with
    | (some (base, slot), t) => do .ok (true, ← t.processInterior base slot)
    | (none, t) =>
      match t.popValue with
      | (some o, t) => do .ok (true, ← t.scanObject o)
      | (none, t) => .ok (false, t)

-- Processes entries until none is left that this collector can see.
def drain : Nat → Tracing → Except Fault Tracing
  | 0, _ => .error .outOfFuel
  | steps + 1, t => do
    match ← t.processNext with
    | (true, t) => drain steps t
    | (false, t) => .ok t

-- Every entry is queued already or is an object reached later, each once.
def drainSteps (t : Tracing) : Nat :=
  t.values.length t.shared.queues.values + t.locations.length t.shared.queues.locations +
    t.interior.length t.shared.queues.interior + t.heap.maxObjects + 1

-- Processes and publishes everything.
def work (t : Tracing) : Except Fault Tracing := do .ok (← t.drain t.drainSteps).flush

-- Works until all collectors are done. A collector alone is done when it has no work left.
def processAllWork (t : Tracing) (termination : Termination) :
    Except Fault (Tracing × Termination) := do
  let t ← t.work
  let (resumed, termination) ← termination.await t.shared.queues.allEmpty
  if resumed then .error .stalled else .ok (t, termination)

-- Takes a root. A reference that cannot be updated must not lead into the nursery.
def addRoot (t : Tracing) : Root → Except Fault Tracing
  | .location slot => t.insertLocation slot
  | .interior base slot => t.insertInterior (base, slot)
  | .value o =>
    if t.heap.inNursery o then .error (.fatal (.pinnedInNursery o))
    else do .ok (← t.traceObject o).2

-- Takes the collector's share of the roots.
def computeRoots (t : Tracing) (globals : Globals) (threads : List Thread) (collectors : Nat) :
    Except Fault Tracing := do
  let (t, roots) ← Roots.scan addRoot globals threads t.ordinal collectors t
  .ok { t with stats := { t.stats with roots } }

-- Whether an object has reached its place for this collection.
def hasMoved (t : Tracing) (o : Nat) : Except Fault Bool :=
  if t.heap.inNursery o then Nursery.isForwarded t.memory o else .ok true

-- Publishes everything that waits in the collector's buffers.
def finish (t : Tracing) : Tracing := t.flush.flushIncrements

-- The text that describes the collector.
def describe (t : Tracing) : String :=
  let s := t.stats
  s!"TraceLocal \x7b ordinal: {t.ordinal}, stats: TraceStats \x7b roots: RootCounts \x7b " ++
    s!"locations: {s.roots.locations}, interior: {s.roots.interior}, values: {s.roots.values} " ++
    s!"\x7d, scanned: {s.scanned}, copied: {s.copied}, marked: {s.marked}, " ++
    s!"increments: {s.increments} \x7d, .. \x7d"

end Tracing

end Reclaim
