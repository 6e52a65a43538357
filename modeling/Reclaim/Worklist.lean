import Reclaim.Fault

/-!
Depth-first work: an object is taken off a stack, and what is found at it goes on top.
-/
namespace Reclaim

-- Works off the stack `work` in at most `steps` steps. `visit` handles one object and answers what
-- it found, the last of which is handled next.
def worklist {σ : Type} (visit : Nat → σ → Except Fault (List Nat × σ)) :
    Nat → List Nat → σ → Except Fault σ
  | _, [], s => .ok s
  | 0, _ :: _, _ => .error .outOfFuel
  | steps + 1, o :: work, s => do
    let (found, s) ← visit o s
    worklist visit steps (found.reverse ++ work) s

end Reclaim
