import Reclaim.Clock
import Reclaim.Status

/-!
The heap as the cycle collector and the decrements see it: objects with a status word and with
references to other objects, some of which are not counted.
-/
namespace Reclaim

class CountedHeap (σ : Type) where
  -- Whether references to the object are counted. What is counted has a header, so a reference that
  -- lies among counted objects and cannot be an object is a fault.
  isCounted : σ → Nat → Except Fault Bool
  status : σ → Nat → Nat
  setStatus : σ → Nat → Nat → σ
  -- The references that the object holds.
  references : σ → Nat → Except Fault (List Nat)
  -- Gives the object's memory back.
  free : σ → Nat → Except Fault σ
  -- No set of objects holds more references than this.
  extent : σ → Nat

namespace CountedHeap

variable {σ : Type} [CountedHeap σ]

def color (h : σ) (o : Nat) : Color := Status.color (status h o)

def setColor (h : σ) (o : Nat) (c : Color) : σ := setStatus h o (Status.setColor (status h o) c)

def isLive (h : σ) (o : Nat) : Bool := Status.isLive (status h o)

def isBuffered (h : σ) (o : Nat) : Bool := Status.isBuffered (status h o)

def setBuffered (h : σ) (o : Nat) : σ := setStatus h o (Status.setBuffered (status h o))

def clearBuffered (h : σ) (o : Nat) : σ := setStatus h o (Status.clearBuffered (status h o))

def increment (h : σ) (o : Nat) : σ := setStatus h o (Status.increment (status h o))

-- The count after the decrement, unless it was zero.
def decrement? (h : σ) (o : Nat) : Option (Nat × σ) :=
  (Status.decrement? (status h o)).map fun s => (Status.count s, setStatus h o s)

-- Trial deletion follows references to counted objects that may lie on a cycle.
def isTraced (h : σ) (o : Nat) : Except Fault Bool := do
  .ok ((← isCounted h o) && color h o != .green)

end CountedHeap

-- A heap with the clock that ticks while its objects are visited.
structure Timed (σ : Type) where
  heap : σ
  clock : Clock

namespace Timed

variable {σ : Type} [CountedHeap σ]

def onHeap (f : σ → σ) (t : Timed σ) : Timed σ := { t with heap := f t.heap }

def now (t : Timed σ) : Nat × Timed σ :=
  let (now, clock) := t.clock.now
  (now, { t with clock })

-- Visits an object for the references it holds.
def references (t : Timed σ) (o : Nat) : Except Fault (List Nat × Timed σ) := do
  .ok (← CountedHeap.references t.heap o, { t with clock := t.clock.visit })

-- The references of an object that trial deletion follows.
def tracedReferences (t : Timed σ) (o : Nat) : Except Fault (List Nat × Timed σ) := do
  let (children, t) ← t.references o
  .ok (← children.filterM (CountedHeap.isTraced t.heap), t)

end Timed

end Reclaim
