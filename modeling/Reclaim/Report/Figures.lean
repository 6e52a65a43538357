import Reclaim.Report.Snapshot
import Reclaim.Trial.Graph
import Reclaim.Trial.Increment

/-!
Reports: named figures about a heap, a plan and its collections. How figures are written down is
left to whoever shows them.
-/
namespace Reclaim

inductive Figure where
  | absent
  | flag (b : Bool)
  | number (n : Nat)
  | text (s : String)
  | list (items : List Figure)
  | table (rows : List (String × Figure))

abbrev Figures := List (String × Figure)

namespace Figure

instance : Coe Bool Figure := ⟨flag⟩
instance : Coe Nat Figure := ⟨number⟩
instance : Coe String Figure := ⟨text⟩
instance : Coe Figures Figure := ⟨table⟩

def numbers (ns : List Nat) : Figure := list (ns.map number)

def number? (n : Option Nat) : Figure := (n.map number).getD absent

def text? (s : Option String) : Figure := (s.map text).getD absent

end Figure

open Figure

-- The settings that are numbers, by name, apart from the time of a collection.
def Config.figures (c : Config) : Figures :=
  Config.settings.map fun s => (s.name, number (s.get c))

-- How many bytes an element takes, or that it is a reference.
def Element.figure : Element → Figure
  | .reference => "reference"
  | .plain bytes => bytes

def TypeInfo.figures (info : TypeInfo) : Figures := [
  ("name", info.name), ("offsets", numbers info.offsets), ("array", info.isArray),
  ("element", (info.element.map Element.figure).getD absent), ("acyclic", info.acyclic),
  ("scalar_bytes", info.scalarBytes)]

def Trial.Stats.figures (s : Trial.Stats) : Figures := [
  ("filtered", s.filtered), ("greyed", s.greyed), ("freed", s.freed), ("requeued", s.requeued),
  ("detected", s.detected)]

-- Colour, count and whether buffered, of every object.
def Trial.Graph.figure (g : Trial.Graph) : Figure :=
  list (g.nodes.toList.map fun node => list [
    (Status.color node.status).name, Status.count node.status, Status.isBuffered node.status])

-- How an increment ended. Objects are written as numbers.
def Trial.Outcome.figures {σ : Type} (o : Trial.Outcome σ) : Figures := [
  ("progress", o.progress.name), ("stats", o.collector.stats.figures),
  ("phase", o.collector.stage.name), ("freed", numbers o.freed),
  ("deferred", numbers o.deferred), ("candidates", o.collector.hasCandidates),
  ("depths", list (o.collector.depths.map fun (name, n) => list [name, n]))]

def SweepStats.figures (s : SweepStats) : Figures :=
  [("live", s.live), ("freed", s.freed), ("released", s.released)]

def RootCounts.figures (c : RootCounts) : Figures :=
  [("locations", c.locations), ("interior", c.interior), ("values", c.values)]

-- A root by its kind. `name` writes addresses.
def Root.figure (name : Nat → String) : Root → Figure
  | .location slot => list ["location", name slot]
  | .interior base slot => list ["interior", name base, name slot]
  | .value o => list ["value", name o]

def TraceStats.figures (s : TraceStats) : Figures :=
  s.roots.figures ++ [("scanned", number s.scanned), ("copied", s.copied), ("marked", s.marked),
    ("increments", s.increments)]

namespace Metrics

-- What the collection did, whatever collector did it.
def counts (m : Metrics) : Figures := [
  ("collection", m.collection), ("forced", m.forced), ("participants", m.participants),
  ("roots", m.roots), ("scanned", m.scanned), ("copied", m.copied), ("freed", m.freed),
  ("decrements", m.decrements), ("progress", text? (m.progress.map fun p => p.name))]

-- What depends on who did what, and when.
def measures (m : Metrics) : Figures := [
  ("cycles", m.cycles.figures), ("pages", numbers [m.pagesBefore, m.pagesAfter]),
  ("ns", list [m.duration, numbers m.phases.toList])]

end Metrics

def Totals.figures (t : Totals) : Figures := [
  ("collections", t.collections), ("forced", t.forced), ("copied", t.copied), ("freed", t.freed),
  ("cycle_freed", t.cycleFreed), ("aborts", t.aborts), ("pause_ns", t.pause)]

-- Collections and phases are spans of time; all other events are messages.
def Event.figures : Event → Figures
  | .collection plan n => [("span", "gc_collect"), ("plan", plan), ("gc_id", n)]
  | .phase p => [("span", "gc_phase"), ("phase", p.label)]
  | .phaseStart p n => [("message", "phase_start"), ("phase", p.label), ("pages_reserved", n)]
  | .phaseEnd p n => [("message", "phase_end"), ("phase", p.label), ("objects", n)]
  | .trigger space reserved total forced => [
      ("message", "collection_triggered"), ("space", space), ("pages_reserved", reserved),
      ("total_pages", total), ("forced", forced)]
  | .rootsComputed ordinal roots =>
      [("message", text "roots_computed"), ("ordinal", ordinal)] ++ roots.figures
  | .queueDepth queue n => [("message", "queue_depth"), ("queue", queue), ("buffers", n)]
  | .cycleIncrement stage filtered greyed freed complete => [
      ("message", "cycle_increment"), ("phase", stage.name), ("filtered", filtered),
      ("greyed", greyed), ("freed", freed), ("complete", complete)]
  | .cycleAbort n => [("message", "cycle_abort"), ("requeued", n)]

-- The state between collections.
def Plan.figures (p : Plan) : Except Fault Figures := do
  let h := p.heap
  .ok [
    ("requested", p.requests.requested), ("in_progress", p.requests.inProgress),
    ("count", p.collections), ("reserved", ← p.pagesReserved),
    ("available", ← p.pagesAvailable),
    ("used", list (number? (h.nursery.map (·.used)) ::
      [h.mature.space, h.large.space, h.immortal.space].map fun s => number s.used)),
    ("blocks", h.mature.blockCount), ("cells_freed", h.mature.cellsFreed),
    ("large_objects", h.large.objectCount),
    ("mark_states", list [h.large.markState, h.immortal.markState]), ("cap", p.timeCap),
    ("phase", p.stage.name), ("kind", p.policy.name),
    ("scheduler", p.scheduler.collectors)]

-- Where an object has gone. `name` writes addresses.
def Forwarding.figure (name : Nat → String) : Forwarding → Figure
  | .unforwarded => "unforwarded"
  | .claimed => "being_forwarded"
  | .forwarded o => table [("to", name o)]

-- The header of an object; that of an object on the move only tells where it goes.
def Heap.header (h : Heap) (name : Nat → String) (o : Nat) : Except Fault Figure := do
  Object.check o
  let s := Object.status h.memory o
  if s % 4 ≠ 0 then .ok ((Status.forwarding s).figure name)
  else
    let v ← h.view o
    .ok (table [("color", (Status.color s).name), ("rc", Status.count s),
      ("buffered", Status.isBuffered s), ("status", s), ("type", v.type),
      ("len", number? v.length), ("size", v.size)])

namespace Snapshot

-- The number of an object of a picture.
def number? (n : Option Nat) : Figure := (n.map Figure.number).getD "dead"

def root (label : String) (n : Option Nat) : Figure := list [label, number? n]

-- The whole picture. `name` writes addresses, `status` status words.
def figures (s : Snapshot) (name : Nat → String) (status : Nat → Figure) : Figures := [
  ("roots", list (s.roots.map fun (label, n) => root label n)),
  ("nodes", list (s.nodes.map fun node => [
    ("at", text (name node.address)), ("type", node.type), ("status", status node.status),
    ("refs", list (node.fields.map fun (i, n) => list [i, number? n])),
    ("data", numbers node.data)]))]

-- The picture in short: the first `count` roots, and how many objects are in which space.
def summary (s : Snapshot) (space : Nat → String) (count : Nat) : Figures := [
  ("roots", list ((s.roots.take count).map fun (label, n) => root label n)),
  ("count", s.nodes.length),
  ("spaces", table ((s.census space).map fun (name, n) => (name, number n))),
  ("sum", s.sum)]

end Snapshot

end Reclaim
