import Reclaim.Config
import Reclaim.Queue.Ends
import Reclaim.Trial.Heap
import Reclaim.Trial.Phase

/-!
The state that the cycle collector keeps between collections. Candidates wait in three queues: new
ones in the unfiltered queue, those that passed a filter in the mature queue, and the batch that is
about to be tried in the filtered queue.
-/
namespace Reclaim.Trial

open Queue

structure Settings where
  -- The time of one collection.
  timeCap : Nat
  -- Headroom below which every collection filters.
  filterPages : Nat
  -- Headroom below which every collection looks for cycles.
  detectionPages : Nat
  -- Candidates that one filter pass moves.
  filterLimit : Nat
  -- Visits between two looks at the clock inside a traversal.
  visitGrain : Nat
  -- Visits between two looks at the clock outside of traversals.
  visitBound : Nat
  -- Candidates filtered between two looks at the clock.
  filterBound : Nat
  bufferEntries : Nat
deriving DecidableEq, Repr

def Settings.ofConfig (c : Config) : Except Fault Settings := do
  .ok {
    timeCap := c.timeCap
    filterPages := c.cycleFilterPages
    detectionPages := c.cycleDetectionPages
    filterLimit := ← c.filterLimit
    visitGrain := c.greyVisitGrain
    visitBound := c.greyVisitBound
    filterBound := c.filterBound
    bufferEntries := c.queueBufferEntries }

-- Counters of one increment.
structure Stats where
  -- Candidates that the filters looked at.
  filtered : Nat := 0
  -- Objects that marking visited.
  greyed : Nat := 0
  freed : Nat := 0
  -- Candidates put back after an abandoned traversal.
  requeued : Nat := 0
  -- Whether the increment looked for cycles.
  detected : Bool := false
deriving DecidableEq, Repr

structure Collector where
  settings : Settings
  unfiltered : Solo Nat
  mature : Solo Nat
  filtered : Solo Nat
  -- Roots of the greyed subgraphs of a round.
  cycleA : Solo Nat
  -- The same roots after the scan.
  cycleB : Solo Nat
  stage : Stage := .idle
  -- Counters of the last increment.
  stats : Stats := {}

namespace Collector

def new (settings : Settings) : Collector where
  settings
  unfiltered := .new "unfiltered purple" settings.bufferEntries
  mature := .new "mature purple" settings.bufferEntries
  filtered := .new "filtered purple" settings.bufferEntries
  cycleA := .new "cycle A" settings.bufferEntries
  cycleB := .new "cycle B" settings.bufferEntries

variable {σ : Type} [CountedHeap σ]

-- Queues a candidate, which has been made purple and buffered.
def addCandidate (c : Collector) (h : σ) (o : Nat) : Except Fault Collector := do
  if CountedHeap.isBuffered h o then
    c.unfiltered.chain.check
    .ok { c with unfiltered := c.unfiltered.insert o }
  else .error .assertion

-- Makes an object a candidate. The answer tells whether it was none before.
def nominate (c : Collector) (h : σ) (o : Nat) : Bool × Collector × σ :=
  let h := CountedHeap.setColor h o .purple
  if CountedHeap.isBuffered h o then (false, c, h)
  else (true, { c with unfiltered := c.unfiltered.insert o }, CountedHeap.setBuffered h o)

-- Makes an object a candidate that no decrement led to, so that nothing need have shown yet that
-- buffers can be had.
def propose (c : Collector) (h : σ) (o : Nat) : Except Fault (Bool × Collector × σ) := do
  if !CountedHeap.isBuffered h o then c.unfiltered.chain.check
  .ok (c.nominate h o)

def setTimeCap (c : Collector) (cap : Nat) : Collector :=
  { c with settings := { c.settings with timeCap := cap } }

def hasCandidates (c : Collector) : Bool :=
  !(c.unfiltered.isEmpty && c.mature.isEmpty && c.filtered.isEmpty)

-- The name and the length of every candidate queue.
def depths (c : Collector) : List (String × Nat) :=
  [(c.unfiltered.chain.name, c.unfiltered.length),
   (c.mature.chain.name, c.mature.length),
   (c.filtered.chain.name, c.filtered.length)]

end Collector

end Reclaim.Trial
