import Reclaim.Clock

/-!
How long each phase of a collection took.
-/
namespace Reclaim

-- The phases of a collection.
inductive Phase where
  | prepare
  | closure
  | decrements
  | cycles
  | release
deriving DecidableEq, Repr

def Phase.all : List Phase := [.prepare, .closure, .decrements, .cycles, .release]

def Phase.label : Phase → String
  | .prepare => "Prepare"
  | .closure => "Closure"
  | .decrements => "Decrements"
  | .cycles => "Cycles"
  | .release => "Release"

structure PhaseTimer where
  prepare : Nat := 0
  closure : Nat := 0
  decrements : Nat := 0
  cycles : Nat := 0
  release : Nat := 0
  -- When the running phase started.
  started : Option Nat := none
deriving DecidableEq, Repr

namespace PhaseTimer

def start (t : PhaseTimer) (c : Clock) : PhaseTimer × Clock :=
  let (now, c) := c.now
  ({ t with started := some now }, c)

-- Sets the time of a phase. Decrements run twice in a collection, so their times add up.
def record (t : PhaseTimer) (elapsed : Nat) : Phase → PhaseTimer
  | .prepare => { t with prepare := elapsed }
  | .closure => { t with closure := elapsed }
  | .decrements => { t with decrements := t.decrements + elapsed }
  | .cycles => { t with cycles := elapsed }
  | .release => { t with release := elapsed }

-- Ends the running phase. A phase that was not started took no time.
def finish (t : PhaseTimer) (c : Clock) (phase : Phase) : PhaseTimer × Clock :=
  match t.started with
  | none => (t.record 0 phase, c)
  | some start =>
    let (now, c) := c.now
    ({ t.record (now - start) phase with started := none }, c)

def toList (t : PhaseTimer) : List Nat := [t.prepare, t.closure, t.decrements, t.cycles, t.release]

end PhaseTimer

end Reclaim
