import Reclaim.Plan.Basic

/-!
Texts about a plan for people.
-/
namespace Reclaim

-- Fills a text up with blanks, on the right or on the left.
def padRight (width : Nat) (s : String) : String := s ++ "".pushn ' ' (width - s.length)

def padLeft (width : Nat) (s : String) : String := "".pushn ' ' (width - s.length) ++ s

namespace Plan

-- The text that describes the plan.
def describe (p : Plan) : Except Fault String := do
  let reserved ← p.pagesReserved
  .ok (s!"Plan \x7b kind: {p.policy.label}, collections: {p.collections}, " ++
    s!"pages_reserved: {reserved}, .. \x7d")

def count (n : Nat) : String := padLeft 8 (toString n)

def dumpSpace (address : Space → Nat → String) (s : Space) : String :=
  s!"  space {padRight 9 s.name} {count s.used} pages used {count s.mapped} mapped " ++
    s!"[{address s s.start} .. {address s s.stop})"

def dumpCounts (counts : CountState) : List String :=
  s!"  queue {padRight 9 counts.decrements.name} {count counts.decrements.enqueued} buffers" ::
  s!"  cycles phase {counts.cycles.stage.name}" ::
  counts.cycles.depths.map fun (name, entries) =>
    s!"  cycles {padRight 10 name} {count entries} entries"

-- The lines that show spaces and queues. `address` writes an address of a space.
def dump (p : Plan) (address : Space → Nat → String) : Except Fault (List String) := do
  let reserved ← p.pagesReserved
  let title := s!"[GC] {p.policy.name} plan after {p.collections} collections: " ++
    s!"{reserved} pages reserved of {p.config.heapPages}"
  let queues := p.queues.depths.map fun (name, enqueued, created) =>
    s!"  queue {padRight 9 name} {count enqueued} buffers {count created} created"
  .ok (title :: p.heap.spaces.map (dumpSpace address) ++ queues ++
    (p.counts.map dumpCounts).getD [])

end Plan

end Reclaim
