import Reclaim.Heap
import Reclaim.Metrics
import Reclaim.Trace.Tracing

/-!
A plan: a configured collector with its spaces, its roots and what it remembers between collections.
-/
namespace Reclaim

open Queue

-- A collector between collections.
structure Worker where
  -- Its position, from one on.
  ordinal : Nat
  -- Where it copies survivors of the nursery to.
  copy : CellAllocator := {}
deriving DecidableEq, Repr

-- Words that a worker takes: one for its position, one for the space that it copies to, and three
-- for its block of each size class.
def Worker.words : Nat := 2 + 3 * SizeClass.count

-- The workers of a plan, in a table.
def Worker.table (n : Nat) : Except Fault (List Worker) := do
  Sizes.checkTable (n * words)
  .ok ((List.range n).map fun i => { ordinal := i + 1 })

-- What a plan that counts references remembers.
structure CountState where
  -- Decrements that wait for the next collection.
  decrements : Chain Nat
  -- Roots that the running collection counted.
  newRoots : Chain Nat
  -- Roots that the last collection counted.
  oldRoots : List Nat := []
  cycles : Trial.Collector

-- Which collections were asked for and whether one is running.
structure Requests where
  requested : Bool := false
  -- Somebody asked for a collection whatever the heap's size.
  forced : Bool := false
  inProgress : Bool := false
deriving DecidableEq, Repr

namespace Requests

def ask (r : Requests) (forced : Bool) : Requests :=
  { r with requested := true, forced := r.forced || forced }

-- A collection begins and takes the forced request, if there is one.
def begin (r : Requests) : Requests := { r with inProgress := true, forced := false }

-- A collection ends, and with it the request.
def finish (r : Requests) : Requests := { r with requested := false, inProgress := false }

end Requests

structure Plan where
  config : Config
  scheduler : Scheduler
  heap : Heap
  globals : Globals
  queues : TraceQueues
  workers : List Worker
  counts : Option CountState
  requests : Requests := {}
  -- Collections begun.
  collections : Nat := 0
  -- The time of one collection, in nanoseconds.
  timeCap : Nat
  clock : Clock := .still 0
  last : Metrics := {}
  totals : Totals := {}
  -- Events reported, the last one first.
  events : List Event := []

namespace CountState

def new (c : Config) : Except Fault CountState := do
  .ok {
    decrements := .new "decrements" c.queueBufferEntries
    newRoots := .new "new-roots" c.queueBufferEntries
    cycles := .new (← Trial.Settings.ofConfig c) }

end CountState

namespace Plan

-- Times are kept in a word.
def capNanos (cap : Nat) : Nat := min cap (Word.bound - 1)

-- Reserves a space where the system places it.
def reserve (name : String) (bytes unit base : Nat) : Except Fault Space :=
  Space.reserve name bytes unit (Mapping.placeAt base)

-- Checks the configuration and reserves all spaces. The system places them one behind the other
-- from `base` on, and the table of globals behind them.
def new (base : Nat) (config : Config) (types : Types) (scheduler : Scheduler) :
    Except Fault Plan := do
  config.validate
  let nursery ← match config.policy with
    | .hybrid => do .ok (some (← reserve "nursery" config.nurseryBytes Sizes.blockPages base))
    | .refcount => .ok none
  let next := (nursery.map (·.mapping.behind)).getD base
  let mature ← reserve "mature" config.matureBytes Sizes.blockPages next
  let large ← reserve "large" config.largeBytes 1 mature.mapping.behind
  let immortal ← reserve "immortal" config.immortalBytes Sizes.blockPages large.mapping.behind
  let workers ← Worker.table config.collectorThreads
  let counts ← match config.policy with
    | .hybrid => .ok none
    | .refcount => do .ok (some (← CountState.new config))
  let globals ← Globals.new immortal.mapping.behind config.globalRootSlots
  .ok {
    config, scheduler, globals, workers, counts
    heap := {
      types, nursery, mature := { space := mature }, large := { space := large }
      immortal := { space := immortal } }
    queues := .new config.queueBufferEntries
    timeCap := capNanos config.timeCap }

def policy (p : Plan) : Policy := p.config.policy

@[inline] def memory (p : Plan) : Memory := p.heap.memory

@[inline] def setHeap (p : Plan) (heap : Heap) : Plan := { p with heap }

@[inline] def setMemory (p : Plan) (memory : Memory) : Plan := p.setHeap { p.heap with memory }

def log (p : Plan) (e : Event) : Plan := { p with events := e :: p.events }

-- Whether references to the object are counted.
def isCounted (p : Plan) (o : Nat) : Bool := p.counts.isSome && p.heap.inCountedSpace o

-- The stage of cycle collection. A plan that traces the heap never leaves the first.
def stage (p : Plan) : Trial.Stage :=
  match p.counts with
  | some counts => counts.cycles.stage
  | none => .idle

def pagesReserved (p : Plan) : Except Fault Nat := p.heap.pagesReserved

-- Pages left before the heap budget is reached.
def pagesAvailable (p : Plan) : Except Fault Nat := do
  .ok (p.config.heapPages - (← p.pagesReserved))

-- A cap of zero is raised to a nanosecond.
def setTimeCap (p : Plan) (cap : Nat) : Plan := { p with timeCap := max (capNanos cap) 1 }

-- Requests a collection and reports it unless one is requested already.
def ask (p : Plan) (space : String) (reserved : Nat) (forced : Bool) : Plan :=
  let asked := { p with requests := p.requests.ask forced }
  if p.requests.requested then asked
  else asked.log (.trigger space reserved p.config.heapPages forced)

-- Checks the heap budget after an allocation. Answers whether a collection is requested now; while
-- one is running none is.
def poll (p : Plan) (must : Bool) (space : String) : Except Fault (Bool × Plan) := do
  if p.requests.inProgress then .ok (false, p)
  else
    let reserved ← p.pagesReserved
    if !must && reserved ≤ p.config.heapPages then .ok (false, p)
    else .ok (true, p.ask space reserved must)

-- Requests a collection whatever the heap's size.
def trigger (p : Plan) : Except Fault Plan := do
  if p.requests.requested then .ok (p.ask "user" 0 true)
  else .ok (p.ask "user" (← p.pagesReserved) true)

-- Makes an object a cycle candidate now. Acyclic, dead and uncounted objects are refused. Answers
-- whether it was none before.
def enqueueForCycleCheck (p : Plan) (o : Nat) : Except Fault (Bool × Plan) := do
  match p.counts with
  | none => .ok (false, p)
  | some counts =>
    if !p.isCounted o then .ok (false, p)
    else
      Object.check o
      let s := Object.status p.memory o
      if Status.isGreen s || !Status.isLive s then .ok (false, p)
      else
        let (fresh, cycles, heap) ← counts.cycles.propose p.heap o
        .ok (fresh, { p with heap, counts := some { counts with cycles } })

end Plan

end Reclaim
