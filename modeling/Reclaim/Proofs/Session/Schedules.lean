import Mathlib.Data.Set.Card
import Reclaim.Proofs.Session.Survival
import Reclaim.Proofs.Tour.Team

/-!
The closure of a collection does the same whatever collectors take part, however the roots are shared out
among them, and in whatever order they take what waits in the queues.
-/
namespace Reclaim

open Heap Queue Sizes

namespace Plan

end Plan

namespace Evacuated

variable {p p₀ p₁ p' : Plan} {stopped : List Mutator} {l l₀ l' : Layout} {known : Set Nat}
variable {stats : TraceStats} {q : Progress} {x : Nat}
variable (he : Evacuated p p₀ p₁ p' stopped l l₀ l' known stats q) (hfresh : p.Fresh)
include he

theorem young_iff : (p₀.ground l₀).Young x ↔ p.heap.spaceOf? x = some .nursery := by
  rw [← he.opened.rearranged.spaceOf?_eq]
  rfl

include hfresh

end Evacuated

namespace Session

variable {s : Session} {mutators : List Mutator}

-- A team of one that runs the closure of the session with one object.
namespace Youth

@[irreducible] def opened : List Mutator × Collection :=
  (Collection.opened rooted.plan rooted.mutators).toOption.get (by decide +kernel)

theorem opened_ok : Collection.opened rooted.plan rooted.mutators = .ok opened := by
  unfold opened
  exact eq_ok_get _

def member : Member := { ordinal := 1, copy := {}, roots := [.location slot] }

def team : Team := { shared := Collection.closure opened.2.plan, members := [member] }

def first (t : Team) : Member := t.members.headD member

-- Where the object is copied to.
def copy : Nat := 1099545248800

@[irreducible] def taken : Team :=
  (team.play 0 member (.root (.location slot) [])).toOption.get (by decide +kernel)

@[irreducible] def copied : Team :=
  (taken.play 0 (first taken) (.entry (.edge slot) [])).toOption.get (by decide +kernel)

@[irreducible] def scanned : Team :=
  (copied.play 0 (first copied) (.entry (.scan copy) [])).toOption.get (by decide +kernel)

@[irreducible] def done : Team :=
  (scanned.play 0 (first scanned) (.slot (copy + Types.scalarHeaderBytes) [])).toOption.get
    (by decide +kernel)

end Youth

end Session

end Reclaim
