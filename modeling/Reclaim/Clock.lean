/-!
A clock that is read at chosen moments. Its readings may depend on how often it was read and on how
many objects were visited so far, so every sequence of readings that a run can see is a clock.
-/
namespace Reclaim

structure Clock where
  -- The time, in nanoseconds, after so many readings and so many visits.
  time : Nat → Nat → Nat
  reads : Nat := 0
  visits : Nat := 0

namespace Clock

-- A clock that shows the same time whenever it is read.
def still (now : Nat) : Clock := ⟨fun _ _ => now, 0, 0⟩

-- A clock that starts at `now` and jumps ahead at given visits, counted from one.
def jumping (now : Nat) (jumps : List (Nat × Nat)) : Clock where
  time _ visits :=
    ((jumps.filter fun (k, _) => 1 ≤ k && k ≤ visits).map (·.2)).foldl (· + ·) now

-- The time that the clock shows without being read.
def present (c : Clock) : Nat := c.time c.reads c.visits

def now (c : Clock) : Nat × Clock := (c.time c.reads c.visits, { c with reads := c.reads + 1 })

-- An object is about to be visited.
def visit (c : Clock) : Clock := { c with visits := c.visits + 1 }

end Clock

end Reclaim
