import Reclaim.Object
import Reclaim.Space

/-!
Moving objects out of the nursery. The collector that claims an object copies it and leaves the new
address in its status word, where later visitors find it.
-/
namespace Reclaim.Nursery

-- Copies a claimed object to `target`; `s` is its status word before the claim.
def evacuate (m : Memory) (o s target bytes : Nat) : Except Fault Memory := do
  Object.check target
  let m := Object.setStatus (m.copy o target bytes) target (Status.forCopy s)
  if !Status.isClaimed (Object.status m o) then .error .assertion
  .ok (Object.setStatus m o (Status.forwardedTo target))

-- The new address of an object. `copy` hands out room for a copy of the given size and answers what
-- it has left; it is asked only by the call that makes the copy, which passes its answer on.
def forward {σ : Type} (types : Types) (m : Memory) (o : Nat)
    (copy : Memory → Nat → Except Fault (Nat × σ × Memory)) :
    Except Fault (Nat × Option σ × Memory) := do
  Object.check o
  let s := Object.status m o
  match Status.claim? s with
  | none =>
    match Status.forwarding s with
    | .forwarded target => .ok (target, none, m)
    | _ => .error .stalled
  | some claimed =>
    let m := Object.setStatus m o claimed
    let bytes ← Object.size types m o
    let (target, left, m) ← copy m bytes
    .ok (target, some left, ← evacuate m o s target bytes)

def isForwarded (m : Memory) (o : Nat) : Except Fault Bool := do
  match ← Object.forwarding m o with
  | .forwarded _ => .ok true
  | _ => .ok false

end Reclaim.Nursery
