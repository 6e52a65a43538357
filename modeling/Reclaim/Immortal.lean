import Reclaim.Object
import Reclaim.Space

/-!
The space of objects that are never freed. Every collection turns over which value of the mark bit
means marked, so each object is met unmarked once in a collection.
-/
namespace Reclaim

structure Immortal where
  space : Space
  -- What the mark bit of a marked object shows.
  markState : Bool := false
deriving DecidableEq, Repr

namespace Immortal

def contains (i : Immortal) (o : Nat) : Bool := i.space.contains o

def prepare (i : Immortal) : Immortal := { i with markState := !i.markState }

-- Marks an object; the answer tells whether it was not marked before.
def testAndMark (i : Immortal) (m : Memory) (o : Nat) : Except Fault (Bool × Memory) := do
  Object.check o
  match Status.testAndMark? (Object.status m o) i.markState with
  | none => .ok (false, m)
  | some s => .ok (true, Object.setStatus m o s)

end Immortal

end Reclaim
