import Reclaim.Fault
import Reclaim.Queue.Ends

/-!
The three chains that the collectors of a closure share: objects to scan, slots to trace, and slots
that point into the middle of an object; and the count of idle collectors that tells when all work
is done.
-/
namespace Reclaim

open Queue

structure TraceQueues where
  values : Chain Nat
  locations : Chain Nat
  -- A base object with the slot that points into it.
  interior : Chain (Nat × Nat)

namespace TraceQueues

def new (entries : Nat) : TraceQueues :=
  ⟨.new "values" entries, .new "locations" entries, .new "interior" entries 2⟩

def allEmpty (q : TraceQueues) : Bool :=
  q.values.isEmpty && q.locations.isEmpty && q.interior.isEmpty

-- The name of each chain, the buffers on it and the buffers ever made for it.
def depths (q : TraceQueues) : List (String × Nat × Nat) :=
  [(q.values.name, q.values.enqueued, q.values.created),
   (q.locations.name, q.locations.enqueued, q.locations.created),
   (q.interior.name, q.interior.enqueued, q.interior.created)]

end TraceQueues

-- How many of the workers have nothing to do.
structure Termination where
  workers : Nat
  idle : Nat := 0
deriving DecidableEq, Repr

namespace Termination

def enter (t : Termination) : Termination := { t with idle := t.idle + 1 }

def leave (t : Termination) : Termination := { t with idle := t.idle - 1 }

-- What an idle worker finds when it looks.
inductive Verdict where
  -- There is shared work.
  | resume
  -- All workers are idle and all chains empty.
  | done
  -- Another worker is still busy.
  | wait
deriving DecidableEq, Repr

def look (t : Termination) (allEmpty : Bool) : Verdict :=
  if !allEmpty then .resume else if t.idle = t.workers then .done else .wait

-- Called by a worker without work of its own: whether there is shared work to go on with. A worker
-- alone cannot wait for others.
def await (t : Termination) (allEmpty : Bool) : Except Fault (Bool × Termination) :=
  match t.enter.look allEmpty with
  | .resume => .ok (true, t.enter.leave)
  | .done => .ok (false, t.enter)
  | .wait => .error .stalled

-- The text that describes the count.
def describe (t : Termination) : String :=
  s!"Termination \x7b idle: {t.idle}, workers: {t.workers} \x7d"

end Termination

end Reclaim
