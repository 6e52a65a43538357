import Std.Data.TreeMap
import Reclaim.Plan.Basic

/-!
A picture of the objects that can be reached from given ones, numbered in breadth-first order.
-/
namespace Reclaim

open Std Sizes

structure Snapshot.Node where
  address : Nat
  type : String
  status : Nat
  -- The fields that hold a reference, each with the number of the object, unless that is dead.
  fields : List (Nat × Option Nat)
  -- The payload words of a scalar that hold no references.
  data : List Nat
deriving DecidableEq, Repr

structure Snapshot where
  -- The label of each root with the number of the object, unless that is dead.
  roots : List (String × Option Nat)
  nodes : List Snapshot.Node
deriving DecidableEq, Repr

namespace Snapshot

-- Objects in the order they were found, each with its number.
structure Found where
  order : Array Nat := #[]
  number : TreeMap Nat Nat := ∅

-- The number of an object, which it gets when it is met first. Dead objects get none.
def Found.meet (h : Heap) (f : Found) (o : Nat) : Except Fault (Option Nat × Found) := do
  if !(← h.isAllocated o) then .ok (none, f)
  else
    match f.number.get? o with
    | some n => .ok (some n, f)
    | none =>
      .ok (some f.order.size, ⟨f.order.push o, f.number.insert o f.order.size⟩)

def Found.meetAll {α : Type} (h : Heap) (f : Found) :
    List (α × Nat) → Except Fault (List (α × Option Nat) × Found)
  | [] => .ok ([], f)
  | (label, o) :: rest => do
    let (n, f) ← f.meet h o
    let (rest, f) ← f.meetAll h rest
    .ok ((label, n) :: rest, f)

-- The payload words of a scalar that hold no references.
def plainWords (h : Heap) (info : TypeInfo) (o : Nat) : List Nat :=
  if info.isArray then []
  else
    let payload := (List.range ((info.scalarBytes - Types.scalarHeaderBytes) / wordBytes)).map
      fun i => Types.scalarHeaderBytes + wordBytes * i
    (payload.filter fun offset => !info.offsets.contains offset).map fun offset =>
      h.memory.read (o + offset)

-- The node of an object, and the objects that it leads to.
def visit (h : Heap) (f : Found) (o : Nat) : Except Fault (Node × Found) := do
  let info ← Object.info h.types h.memory o
  let slots ← Object.slots h.types h.memory o
  let held := (slots.zipIdx.map fun (slot, field) => (field, h.memory.read slot)).filter
    fun (_, target) => target != 0
  let (fields, f) ← f.meetAll h held
  .ok ({ address := o, type := info.name, status := Object.status h.memory o, fields
         data := plainWords h info o }, f)

-- Visits the objects from number `n` on.
def visitFrom (h : Heap) : Nat → Nat → Found → Except Fault (List Node)
  | 0, _, _ => .error .outOfFuel
  | steps + 1, n, f =>
    match f.order[n]? with
    | none => .ok []
    | some o => do
      let (node, f) ← visit h f o
      .ok (node :: (← visitFrom h steps (n + 1) f))

-- The picture from given roots.
def take (h : Heap) (roots : List (String × Nat)) : Except Fault Snapshot := do
  let (roots, f) ← ({} : Found).meetAll h roots
  .ok { roots, nodes := ← visitFrom h (h.maxObjects + 1) 0 f }

-- How many objects are in which space.
def census (s : Snapshot) (space : Nat → String) : List (String × Nat) :=
  (s.nodes.foldl (fun (t : TreeMap String Nat) node =>
    t.alter (space node.address) fun n => some (n.getD 0 + 1)) ∅).toList

-- All data words, folded in order.
def sum (s : Snapshot) : Nat :=
  (s.nodes.flatMap (·.data)).foldl (fun sum d => (sum * 31 + d) % Word.bound) 0

end Snapshot

-- The references in global slots and in slots on the stacks of threads, labelled by slot or thread.
def Plan.labelledRoots (p : Plan) : List (String × Nat) :=
  let slots := (List.range p.globals.capacity).map fun i =>
    (s!"g{i}", p.globals.base + wordBytes * i)
  let onStacks := p.scheduler.threads.zipIdx.flatMap fun (t, i) => t.roots.filterMap fun
    | .location slot => some (s!"t{i}", slot)
    | _ => none
  ((slots ++ onStacks).map fun (label, slot) => (label, p.memory.read slot)).filter (·.2 != 0)

end Reclaim
