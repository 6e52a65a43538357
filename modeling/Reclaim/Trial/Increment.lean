import Reclaim.Trial.Collector
import Reclaim.Trial.Traversal

/-!
One increment of cycle collection. New candidates are filtered into the mature queue; then, while
time remains, rounds of trial deletion work off batches of mature candidates. Every loop looks at
the clock, and a traversal that runs out of time is undone.
-/
namespace Reclaim.Trial

open CountedHeap Queue

-- Fractions of a time span, in its units.
def filterShare (span : Nat) : Nat := span / 3
def cycleShare (span : Nat) : Nat := span / 6
def markGreyShare (span : Nat) : Nat := span / 2

-- An increment under way.
structure Increment (σ : Type) where
  timed : Timed σ
  collector : Collector
  -- Objects to be freed, the next one first.
  dead : List Nat := []
  -- Objects freed, the last one first.
  freed : List Nat := []
  -- Decrements to be applied after the increment, the last one first.
  deferred : List Nat := []
  -- Visits since the marking loop last looked at the clock.
  visits : Nat := 0
  stage : Stage := .idle
  stats : Stats := {}

namespace Increment

variable {σ : Type} [CountedHeap σ]

def onHeap (f : σ → σ) (i : Increment σ) : Increment σ := { i with timed := i.timed.onHeap f }

def onCollector (f : Collector → Collector) (i : Increment σ) : Increment σ :=
  { i with collector := f i.collector }

def now (i : Increment σ) : Nat × Increment σ :=
  let (now, timed) := i.timed.now
  (now, { i with timed })

def countFiltered (n : Nat) (i : Increment σ) : Increment σ :=
  { i with stats := { i.stats with filtered := i.stats.filtered + n } }

-- Frees the dead objects, the last found first.
def processFree (i : Increment σ) : Except Fault (Increment σ) := do
  let heap ← i.dead.foldlM CountedHeap.free i.timed.heap
  .ok { i with
        timed := { i.timed with heap }
        dead := []
        freed := i.dead.reverse ++ i.freed
        stats := { i.stats with freed := i.stats.freed + i.dead.length } }

end Increment

-- A filter pass: the queue it takes candidates from, the queue it moves them to, and the heap.
structure Sieve (σ : Type) where
  source : Solo Nat
  target : Solo Nat
  dead : List Nat
  timed : Timed σ
  -- Candidates taken so far.
  taken : Nat := 0

namespace Sieve

variable {σ : Type} [CountedHeap σ]

-- Settles one candidate: purple ones move on, dead ones are freed, and the rest is dropped.
def settle (s : Sieve σ) (o : Nat) : Sieve σ :=
  if !isLive s.timed.heap o then
    { s with timed := s.timed.onHeap (clearBuffered · o), dead := o :: s.dead }
  else if color s.timed.heap o == .purple then { s with target := s.target.insert o }
  else { s with timed := s.timed.onHeap (clearBuffered · o) }

-- Takes up to so many candidates. Answers whether the source ran out.
def batch : Nat → Sieve σ → Except Fault (Bool × Sieve σ)
  | 0, s => .ok (false, s)
  | left + 1, s =>
    match s.source.pop with
    | (none, source) => .ok (true, { s with source })
    | (some o, source) =>
      if color s.timed.heap o == .green then .error .assertion
      else batch left ({ s with source, taken := s.taken + 1 }.settle o)

-- Takes batches until the source runs out, `limit` is reached or enough candidates were taken.
def run (settings : Settings) (limit : Nat) : Nat → Sieve σ → Except Fault (Sieve σ)
  | 0, _ => .error .outOfFuel
  | steps + 1, s => do
    let (exhausted, s) ← batch settings.filterBound s
    if exhausted then .ok s
    else
      let (now, timed) := s.timed.now
      let s := { s with timed }
      if limit ≤ now ∨ settings.filterLimit ≤ s.taken then .ok s else run settings limit steps s

end Sieve

variable {σ : Type} [CountedHeap σ]

-- Moves the live purple candidates of `source` to `target`.
def filterQueue (settings : Settings) (limit : Nat) (source target : Solo Nat) (dead : List Nat)
    (t : Timed σ) : Except Fault (Sieve σ) :=
  Sieve.run settings limit (source.length + 1) { source, target, dead, timed := t }

namespace Increment

-- Moves new candidates to the mature queue.
def filterNew (limit : Nat) (i : Increment σ) : Except Fault (Increment σ) := do
  let c := i.collector
  let s ← filterQueue c.settings limit c.unfiltered c.mature i.dead i.timed
  let collector := { c with unfiltered := s.source, mature := s.target }
  .ok ({ i with collector, timed := s.timed, dead := s.dead }.countFiltered s.taken)

-- Moves a batch of mature candidates to the filtered queue.
def filterMature (limit : Nat) (i : Increment σ) : Except Fault (Increment σ) := do
  let c := i.collector
  let s ← filterQueue c.settings limit c.mature c.filtered i.dead i.timed
  .ok ({ i with
          timed := s.timed, dead := s.dead
          collector := { c with mature := s.source, filtered := s.target } }.countFiltered s.taken)

-- Undoes an abandoned marking and makes its root a candidate again.
def undoGrey (o : Nat) (i : Increment σ) : Except Fault (Increment σ) := do
  let timed ← scanBlack o i.timed
  -- The root must still pass the mature filter.
  .ok { i with timed := timed.onHeap (setColor · o .purple) }

-- Tries one candidate. Answers whether its marking was finished in time.
def processGrey (limit o : Nat) (i : Increment σ) : Except Fault (Bool × Increment σ) := do
  let h := i.timed.heap
  if color h o == .purple && isLive h o then
    let m ← markGrey i.collector.settings.visitGrain limit o
      { timed := i.timed, visits := i.visits, greyed := i.stats.greyed }
    let i := { i with
      timed := m.timed, visits := m.visits, stats := { i.stats with greyed := m.greyed } }
    if m.aborted then .ok (false, ← i.undoGrey o)
    else .ok (true, i.onCollector fun c => { c with cycleA := c.cycleA.push o })
  else
    let i := i.onHeap (clearBuffered · o)
    -- Grey and white objects are settled by the scan and the collection of this round.
    if !isLive h o && !isGreyOrWhite h o then .ok (true, { i with dead := o :: i.dead })
    else .ok (true, i)

-- Puts a candidate back after its marking was abandoned.
def requeue (o : Nat) (i : Increment σ) : Increment σ :=
  { i with
    collector := { i.collector with mature := i.collector.mature.insert o }
    stats := { i.stats with requeued := i.stats.requeued + 1 } }

-- Tries filtered candidates until none is left, `limit` is reached or a marking is abandoned.
-- Answers whether one was abandoned.
def markGreyPhase (limit : Nat) : Nat → Increment σ → Except Fault (Bool × Increment σ)
  | 0, _ => .error .outOfFuel
  | steps + 1, i => do
    let bound := i.collector.settings.visitBound
    let (now, i) := if i.visits < bound then (0, i) else i.now
    if bound ≤ i.visits ∧ limit ≤ now then .ok (false, i)
    else
      let i := if i.visits < bound then i else { i with visits := 0 }
      match i.collector.filtered.pop with
      | (none, filtered) => .ok (false, i.onCollector fun c => { c with filtered })
      | (some o, filtered) =>
        let (finished, i) ← (i.onCollector fun c => { c with filtered }).processGrey limit o
        if finished then markGreyPhase limit steps i else .ok (true, i.requeue o)

-- Scans the greyed subgraphs, the last greyed first.
def scanPhase : Nat → Increment σ → Except Fault (Increment σ)
  | 0, _ => .error .outOfFuel
  | steps + 1, i =>
    match i.collector.cycleA.pop with
    | (none, cycleA) => .ok (i.onCollector fun c => { c with cycleA })
    | (some o, cycleA) => do
      let timed ← scan o i.timed
      scanPhase steps ({ i with timed }.onCollector fun c =>
        { c with cycleA, cycleB := c.cycleB.push o })

-- Collects the white subgraphs, the last scanned first.
def collectPhase : Nat → Increment σ → Except Fault (Increment σ)
  | 0, _ => .error .outOfFuel
  | steps + 1, i =>
    match i.collector.cycleB.pop with
    | (none, cycleB) => .ok (i.onCollector fun c => { c with cycleB })
    | (some o, cycleB) => do
      let i := i.onHeap (clearBuffered · o)
      let s ← collectWhite o { timed := i.timed, dead := i.dead, deferred := i.deferred }
      collectPhase steps ({ i with
          timed := s.timed, dead := s.dead, deferred := s.deferred }.onCollector fun c =>
        { c with cycleB })

-- One round of trial deletion, up to the freeing. Answers whether a marking was abandoned.
def tryRoots (deadline : Nat) (i : Increment σ) : Except Fault (Bool × Increment σ) := do
  let i := { i with stage := .matureFilter }
  let i ←
    if i.collector.filtered.isEmpty then do
      let (now, i) := i.now
      i.filterMature now
    else .ok i
  let i := { i with stage := .markGrey, visits := 0 }
  let (start, i) := i.now
  let limit := start + markGreyShare (deadline - start)
  let (aborted, i) ← i.markGreyPhase limit (i.collector.filtered.length + 1)
  let i := { i with stage := .scan }
  let i ← i.scanPhase (i.collector.cycleA.length + 1)
  let i := { i with stage := .collect }
  let i ← i.collectPhase (i.collector.cycleB.length + 1)
  .ok (aborted, { i with stage := .free })

def collectSome (deadline : Nat) (i : Increment σ) : Except Fault (Bool × Increment σ) := do
  let (aborted, i) ← i.tryRoots deadline
  .ok (aborted, ← i.processFree)

-- Rounds while mature candidates and more than a share of the budget are left.
def detect (deadline : Nat) : Nat → Increment σ → Except Fault (Bool × Increment σ)
  | 0, _ => .error .outOfFuel
  | steps + 1, i => do
    if i.collector.mature.isEmpty then .ok (false, i)
    else
      let (now, i) := i.now
      if cycleShare i.collector.settings.timeCap < deadline - now then
        let (aborted, i) ← i.collectSome deadline
        if aborted then .ok (true, i) else detect deadline steps i
      else .ok (false, i)

-- Puts the filtered candidates back before the mature ones.
def putBack : Nat → Collector → Collector
  | 0, c => c
  | steps + 1, c =>
    match c.filtered.pop with
    | (none, filtered) => { c with filtered }
    | (some o, filtered) => putBack steps { c with filtered, mature := c.mature.push o }

-- The part of an increment that depends on headroom and time. Answers whether it was abandoned.
def act (available count deadline : Nat) (i : Increment σ) : Except Fault (Bool × Increment σ) := do
  let settings := i.collector.settings
  if !shouldAct available settings.filterPages count then .ok (false, i)
  else
    let (now, i) := i.now
    let remaining := deadline - now
    if remaining ≤ filterShare settings.timeCap then .ok (false, i)
    else
      let i ← { i with stage := .filter }.filterNew (now + filterShare remaining)
      let i ← i.processFree
      if !shouldAct available settings.detectionPages count then .ok (false, i)
      else
        let i := { i with stats := { i.stats with detected := true } }
        let rounds := i.collector.mature.length + i.collector.filtered.length + 1
        let (aborted, i) ← i.detect deadline rounds
        .ok (aborted, i.onCollector (putBack (i.collector.filtered.length + 1)))

end Increment

-- What an increment did.
structure Outcome (σ : Type) where
  progress : Progress
  -- Whether a marking was abandoned.
  aborted : Bool
  -- The stage the increment ended in.
  stage : Stage
  -- Objects freed, in order.
  freed : List Nat
  -- Decrements that are still to be applied, in order.
  deferred : List Nat
  collector : Collector
  timed : Timed σ

def Outcome.ofIncrement (aborted : Bool) (i : Increment σ) : Outcome σ where
  progress := if aborted || i.collector.hasCandidates then .unfinished else .complete
  aborted
  stage := i.stage
  freed := i.freed.reverse
  deferred := i.deferred.reverse
  collector := { i.collector with stats := i.stats, stage := .idle }
  timed := i.timed

-- Runs one increment that stops by `deadline`, with so many pages available in collection `count`.
def Collector.runUntil (c : Collector) (available count deadline : Nat) (t : Timed σ) :
    Except Fault (Outcome σ) := do
  let (aborted, i) ← Increment.act available count deadline { timed := t, collector := c }
  .ok (.ofIncrement aborted i)

end Reclaim.Trial
