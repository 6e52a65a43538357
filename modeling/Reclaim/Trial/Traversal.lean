import Reclaim.Trial.Heap
import Reclaim.Worklist

/-!
The four traversals of trial deletion. Marking turns a subgraph grey and takes off the counts that
come from inside it. Scanning turns grey objects without a count white; from those with a count,
which are referenced from outside, it gives counts back and turns everything black. Collecting frees
what is white.
-/
namespace Reclaim.Trial

open CountedHeap

variable {σ : Type} [CountedHeap σ]

-- No traversal takes more steps: it starts with one object and follows each reference once.
def steps (t : Timed σ) : Nat := extent t.heap + 1

def isGreyOrWhite (h : σ) (o : Nat) : Bool := color h o == .grey || color h o == .white

-- A marking traversal under way.
structure Marking (σ : Type) where
  timed : Timed σ
  -- Visits since the outer loop last looked at the clock.
  visits : Nat
  greyed : Nat
  -- The time ran out: nothing more is turned grey.
  aborted : Bool := false

namespace Marking

-- Counts a visit and, every `grain` visits, looks at the clock.
def arrive (grain limit : Nat) (m : Marking σ) : Except Fault (Marking σ) := do
  let m := { m with visits := m.visits + 1, greyed := m.greyed + 1 }
  if (← Word.mod m.visits grain) = 0 then
    let (now, timed) := m.timed.now
    .ok { m with timed, aborted := m.aborted || decide (limit < now) }
  else .ok m

-- Takes off the counts that a grey object gave to its children. Answers the children to follow.
def takeCounts (h : σ) : List Nat → Except Fault (List Nat × σ)
  | [] => .ok ([], h)
  | child :: rest => do
    if ← isTraced h child then
      match decrement? h child with
      | none => .error (.fatal (.greyUnderflow child))
      | some (_, h) => do
        let (found, h) ← takeCounts h rest
        .ok (child :: found, h)
    else takeCounts h rest

-- Turns an object grey.
def shade (t : Timed σ) (o : Nat) : Except Fault (List Nat × Timed σ) := do
  let (children, t) ← (t.onHeap fun h => setColor h o .grey).references o
  let (found, heap) ← takeCounts t.heap children
  .ok (found, { t with heap })

def visit (grain limit o : Nat) (m : Marking σ) : Except Fault (List Nat × Marking σ) := do
  let m ← m.arrive grain limit
  if m.aborted || color m.timed.heap o == .grey then .ok ([], m)
  else
    let (children, timed) ← shade m.timed o
    .ok (children, { m with timed })

end Marking

-- Turns the subgraph of an object grey, until the clock is past `limit`.
def markGrey (grain limit o : Nat) (m : Marking σ) : Except Fault (Marking σ) :=
  worklist (Marking.visit grain limit) (steps m.timed) [o] { m with aborted := false }

-- Turns a grey or white object black and gives counts back to its children.
def blacken (o : Nat) (t : Timed σ) : Except Fault (List Nat × Timed σ) := do
  if isGreyOrWhite t.heap o then
    let (children, t) ← (t.onHeap fun h => setColor h o .black).tracedReferences o
    let heap := children.foldl increment t.heap
    .ok (children.filter (isGreyOrWhite heap), { t with heap })
  else .ok ([], t)

-- Turns the grey and white subgraph of an object black.
def scanBlack (o : Nat) (t : Timed σ) : Except Fault (Timed σ) :=
  worklist blacken (steps t) [o] t

def scanOne (o : Nat) (t : Timed σ) : Except Fault (List Nat × Timed σ) := do
  if color t.heap o == .grey then
    if isLive t.heap o then .ok ([], ← scanBlack o t)
    else (t.onHeap fun h => setColor h o .white).tracedReferences o
  else .ok ([], t)

-- Decides for the grey subgraph of an object what is white and what is black.
def scan (o : Nat) (t : Timed σ) : Except Fault (Timed σ) :=
  worklist scanOne (steps t) [o] t

-- White objects being collected.
structure Harvest (σ : Type) where
  timed : Timed σ
  -- Objects to be freed, the last found first.
  dead : List Nat
  -- References to acyclic objects that were dropped, the last found first.
  deferred : List Nat

-- Collects a white object. One that still waits in a candidate queue is left to the filter.
def harvest (o : Nat) (s : Harvest σ) : Except Fault (List Nat × Harvest σ) := do
  if color s.timed.heap o == .white then
    let (children, t) ← (s.timed.onHeap fun h => setColor h o .black).references o
    let counted ← children.filterM (isCounted t.heap)
    let (acyclic, found) := counted.partition fun child => color t.heap child == .green
    .ok (found,
      { timed := t
        dead := if isBuffered t.heap o then s.dead else o :: s.dead
        deferred := acyclic.reverse ++ s.deferred })
  else .ok ([], s)

-- Collects the white subgraph of an object.
def collectWhite (o : Nat) (s : Harvest σ) : Except Fault (Harvest σ) :=
  worklist harvest (steps s.timed) [o] s

end Reclaim.Trial
