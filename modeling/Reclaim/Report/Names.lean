import Reclaim.Heap

/-!
Names for addresses. An address inside a named range is written as an offset from the start of the
range, or by the name alone where offsets do not matter, any other in hexadecimal digits.
-/
namespace Reclaim

structure NamedRange where
  name : String
  start : Nat
  extent : Nat
  -- Whether addresses are written with their offsets.
  exact : Bool := true
deriving DecidableEq, Repr

namespace NamedRange

def contains (r : NamedRange) (a : Nat) : Bool :=
  decide (r.start ≤ a) && decide (a < r.start + r.extent)

-- The range that an address lies in.
def find? (ranges : List NamedRange) (a : Nat) : Option NamedRange := ranges.find? (·.contains a)

def name? (ranges : List NamedRange) (a : Nat) : Option String := (find? ranges a).map (·.name)

def describe (ranges : List NamedRange) (a : Nat) : String :=
  match find? ranges a with
  | some r => if r.exact then s!"{r.name}+{a - r.start}" else r.name
  | none => Word.hex a

def ofSpace (s : Space) (exact : Bool := true) : NamedRange := ⟨s.name, s.start, s.extent, exact⟩

def ofHeap (h : Heap) (exact : Bool := true) : List NamedRange := h.spaces.map (ofSpace · exact)

end NamedRange

end Reclaim
