import Reclaim.Counting
import Reclaim.Plan.Mutator
import Reclaim.Trial.Increment

/-!
The collection sequence. Mutators publish what they hold; the collectors run the closure; a plan
that counts then applies the decrements that became due and runs one increment of cycle collection;
last, memory that nothing uses is released.
-/
namespace Reclaim

open Queue

-- A collection under way.
structure Collection where
  plan : Plan
  -- When it started.
  start : Nat
  timer : PhaseTimer := {}
  metrics : Metrics
  -- Objects freed one by one, in order.
  freed : List Nat := []

namespace Collection

def onPlan (f : Plan → Plan) (c : Collection) : Collection := { c with plan := f c.plan }

def log (c : Collection) (e : Event) : Collection := c.onPlan (·.log e)

def startTimer (c : Collection) : Collection :=
  let (timer, clock) := c.timer.start c.plan.clock
  { c with timer, plan := { c.plan with clock } }

def stopTimer (c : Collection) (phase : Phase) : Collection :=
  let (timer, clock) := c.timer.finish c.plan.clock phase
  { c with timer, plan := { c.plan with clock } }

-- Opens a phase that reports the pages in use.
def enter (c : Collection) (phase : Phase) : Except Fault Collection := do
  let pages ← c.plan.pagesReserved
  .ok ((c.log (.phase phase)).log (.phaseStart phase pages)).startTimer

def freedMore (c : Collection) (n : Nat) : Collection :=
  { c with metrics := { c.metrics with freed := c.metrics.freed + n } }

def freedObjects (c : Collection) (objects : List Nat) : Collection :=
  { c.freedMore objects.length with freed := c.freed ++ objects }

-- Takes the request and counts the collection.
def begin (p : Plan) : Except Fault Collection := do
  let forced := p.requests.forced
  let collections := p.collections + 1
  let p := { p with requests := p.requests.begin, collections }
  let p := p.log (.collection p.policy.name collections)
  let (start, clock) := p.clock.now
  let pagesBefore ← p.pagesReserved
  .ok { plan := { p with clock }, start
        metrics := { collection := collections, forced, pagesBefore } }

def prepareMutators : List Mutator → Plan → Except Fault (List Mutator × Plan)
  | [], p => .ok ([], p)
  | m :: rest, p => do
    let (m, p) ← m.prepare p
    let (rest, p) ← prepareMutators rest p
    .ok (m :: rest, p)

def flipMarks (p : Plan) : Plan :=
  p.setHeap { p.heap with large := p.heap.large.prepare, immortal := p.heap.immortal.prepare }

-- Stops the mutators' allocation and unmarks every object.
def prepare (c : Collection) (mutators : List Mutator) :
    Except Fault (List Mutator × Collection) := do
  let c ← c.enter .prepare
  let (mutators, p) ← prepareMutators mutators c.plan
  let c := { c with plan := flipMarks p }.stopTimer .prepare
  .ok (mutators, c.log (.phaseEnd .prepare mutators.length))

-- As many collectors as there are and as the runtime allows, but at least one.
def participants (p : Plan) : Nat := max (min p.scheduler.collectors p.workers.length) 1

-- The closure as a collector finds it.
def closure (p : Plan) : Closure where
  policy := p.policy
  heap := p.heap
  clock := p.clock
  queues := p.queues
  newRoots := p.counts.map (·.newRoots)

-- Takes back what the collectors of a closure shared.
def withClosure (p : Plan) (s : Closure) : Plan :=
  { p with
    heap := s.heap, clock := s.clock, queues := s.queues
    counts := p.counts.map fun counts =>
      { counts with newRoots := s.newRoots.getD counts.newRoots } }

-- A collector that starts on the closure. Only a plan that copies gives it room for copies.
def tracing (p : Plan) (ordinal : Nat) (copy : CellAllocator) : Tracing where
  shared := closure p
  ordinal
  copy := if p.policy = .hybrid then some copy else none

-- Runs one collector, which takes its roots and all work that it can see.
def trace (collectors : Nat) (w : Worker) (p : Plan) :
    Except Fault (Worker × TraceStats × Plan) := do
  let t ← (tracing p w.ordinal w.copy).computeRoots p.globals p.scheduler.threads collectors
  let t ← t.work
  let t := t.finish
  let p := withClosure p t.shared
  .ok ({ w with copy := t.copy.getD w.copy }, t.stats,
    p.log (.rootsComputed w.ordinal t.stats.roots))

-- Runs the collectors one after the other. Each leaves the shared chains empty.
def traceAll (collectors : Nat) : List Worker → TraceStats → Plan →
    Except Fault (List Worker × TraceStats × Plan)
  | [], stats, p => .ok ([], stats, p)
  | w :: rest, stats, p => do
    let (w, more, p) ← trace collectors w p
    let (rest, stats, p) ← traceAll collectors rest (stats.add more) p
    .ok (w :: rest, stats, p)

def resetWorkers (m : Memory) : List Worker → Cells → Except Fault (List Worker × Cells)
  | [], mature => .ok ([], mature)
  | w :: rest, mature => do
    let (copy, mature) ← w.copy.reset mature m
    let (rest, mature) ← resetWorkers m rest mature
    .ok ({ w with copy } :: rest, mature)

-- What is told of a fault in one of several collectors: only that it happened.
def reportFault (collectors : Nat) (f : Fault) : Fault :=
  if 1 < collectors ∧ f.isFailure then .fatal .collectorFailed else f

-- Runs the closure on the first collectors; the others give up their blocks.
def runClosure (p : Plan) : Except Fault (TraceStats × Plan) := do
  let n := participants p
  let (idle, mature) ← resetWorkers p.memory (p.workers.drop n) p.heap.mature
  let p := p.setHeap { p.heap with mature }
  let (active, stats, p) ← (traceAll n (p.workers.take n) {} p).mapError (reportFault n)
  .ok (stats, { p with workers := active ++ idle })

-- In verbose mode, how many buffers the chains of the closure ever had.
def logQueueDepths (c : Collection) : Collection :=
  if c.plan.config.verbose then
    c.plan.queues.depths.foldl (fun c (queue, _, created) => c.log (.queueDepth queue created)) c
  else c

def close (c : Collection) : Except Fault Collection := do
  let c := { c with metrics := { c.metrics with participants := participants c.plan } }
  let c ← c.enter .closure
  let (stats, plan) ← runClosure c.plan
  let c := { c with plan }.stopTimer .closure
  let c := { c with metrics := { c.metrics with
    roots := stats.roots.total, scanned := stats.scanned, copied := stats.copied } }
  .ok (c.log (.phaseEnd .closure (stats.scanned + stats.increments))).logQueueDepths

-- Applies decrements. Answers how many objects that freed.
def applyDecrements (c : Collection) (counts : CountState) (work : List Nat) :
    Except Fault (Nat × Collection) := do
  let d ← Counting.apply work counts.cycles { heap := c.plan.heap, clock := c.plan.clock }
  let plan := { c.plan with
    heap := d.timed.heap, clock := d.timed.clock
    counts := some { counts with cycles := d.collector } }
  let metrics := { c.metrics with decrements := c.metrics.decrements + d.applied }
  let c := { c with plan, metrics }
  .ok (d.freed.length, c.freedObjects d.freed.reverse)

-- Undoes the root counts of the last collection and applies the decrements since.
def processDecrements (c : Collection) (counts : CountState) : Except Fault Collection := do
  let c ← c.enter .decrements
  let (buffered, decrements) := counts.decrements.drain
  let (freed, c) ← c.applyDecrements { counts with decrements, oldRoots := [] }
    (counts.oldRoots ++ buffered)
  .ok ((c.stopTimer .decrements).log (.phaseEnd .decrements freed))

-- Reports an increment of the cycle collector.
def logIncrement (c : Collection) (o : Trial.Outcome Heap) : Collection :=
  let s := o.collector.stats
  let c := if o.aborted then c.log (.cycleAbort s.requeued) else c
  c.log (.cycleIncrement o.stage s.filtered s.greyed s.freed (o.progress = .complete))

-- In verbose mode, the candidates left over.
def logCandidates (c : Collection) (o : Trial.Outcome Heap) : Collection :=
  if o.progress = .unfinished && c.plan.config.verbose then
    o.collector.depths.foldl (fun c (queue, entries) => c.log (.queueDepth queue entries)) c
  else c

-- Runs one increment of the cycle collector within the time of the collection. Answers the
-- decrements that it leaves behind.
def processCycles (c : Collection) (counts : CountState) :
    Except Fault (List Nat × Collection) := do
  let c ← c.enter .cycles
  let p := c.plan
  let cycles := counts.cycles.setTimeCap p.timeCap
  let o ← cycles.runUntil (← p.pagesAvailable) p.collections (c.start + p.timeCap)
    { heap := p.heap, clock := p.clock }
  let plan := { p with
    heap := o.timed.heap, clock := o.timed.clock
    counts := some { counts with cycles := o.collector } }
  let c := ({ c with plan }.logIncrement o).stopTimer .cycles
  let c := { c with metrics := { c.metrics with
    cycles := o.collector.stats, progress := some o.progress } }
  let c := (c.freedObjects o.freed).log (.phaseEnd .cycles o.freed.length)
  .ok (o.deferred, c.logCandidates o)

-- What a plan that counts does after the closure.
def processCounts (c : Collection) : Except Fault Collection := do
  match c.plan.counts with
  | none => .ok c
  | some counts =>
    let c ← c.processDecrements counts
    match c.plan.counts with
    | none => .ok c
    | some counts =>
      let (deferred, c) ← c.processCycles counts
      match c.plan.counts with
      | none => .ok c
      | some counts =>
        -- Decrements of acyclic objects that garbage cycles held.
        let (_, c) ← c.startTimer.applyDecrements counts deferred
        .ok (c.stopTimer .decrements)

-- Frees what the closure did not reach. Answers how many objects that were.
def sweep (p : Plan) : Except Fault (Nat × Plan) := do
  let (swept, mature, memory) ← p.heap.mature.sweep p.memory
  let (large, treadmill, memory) ← p.heap.large.release memory
  .ok (swept.freed + large, p.setHeap { p.heap with mature, large := treadmill, memory })

-- Gives back the blocks that the counts have emptied, and keeps the roots for the next collection.
def retire (p : Plan) (counts : CountState) : Except Fault Plan := do
  let (_, mature, memory) ← p.heap.mature.reclaim p.memory
  let (oldRoots, newRoots) := counts.newRoots.drain
  .ok { p.setHeap { p.heap with mature, memory } with
        counts := some { counts with oldRoots, newRoots } }

def releaseNursery (p : Plan) : Except Fault Plan := do
  match p.heap.nursery with
  | none => .ok p
  | some nursery =>
    let (nursery, memory) ← nursery.releaseAll p.memory
    .ok (p.setHeap { p.heap with nursery := some nursery, memory })

def release (c : Collection) : Except Fault Collection := do
  let c ← c.enter .release
  let (workers, mature) ← resetWorkers c.plan.memory c.plan.workers c.plan.heap.mature
  let p := { c.plan.setHeap { c.plan.heap with mature } with workers }
  let p ← releaseNursery p
  let (freed, p) ← match p.counts with
    | none => sweep p
    | some counts => do .ok (0, ← retire p counts)
  let c := ({ c with plan := p }.freedMore freed).stopTimer .release
  .ok (c.log (.phaseEnd .release c.metrics.freed))

-- Records the collection and ends it.
def finish (c : Collection) : Except Fault Plan := do
  let (now, clock) := c.plan.clock.now
  let metrics := { c.metrics with
    duration := now - c.start, phases := c.timer, pagesAfter := ← c.plan.pagesReserved }
  .ok { c.plan with
        clock, last := metrics, totals := c.plan.totals.record metrics
        requests := c.plan.requests.finish }

-- All phases of a collection.
def run (p : Plan) (mutators : List Mutator) : Except Fault (List Mutator × Collection) := do
  let c ← begin p
  let (mutators, c) ← c.prepare mutators
  let c ← c.close
  let c ← c.processCounts
  .ok (mutators, ← c.release)

end Collection

-- Runs one collection. All mutators of the plan are stopped and passed.
def Plan.collect (p : Plan) (mutators : List Mutator) : Except Fault (List Mutator × Plan) := do
  let (mutators, c) ← Collection.run p mutators
  .ok (mutators, ← c.finish)

end Reclaim
