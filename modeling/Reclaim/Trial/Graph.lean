import Reclaim.Trial.Heap

/-!
Finite object graphs: objects numbered from zero, each with a status word and reference fields.
Freed objects stay where they are, so a graph also shows what became of them.
-/
namespace Reclaim.Trial

structure Node where
  status : Nat
  fields : List (Option Nat)
  -- Whether references to the object are counted.
  counted : Bool := true
deriving DecidableEq, Repr

namespace Graph

-- The number of reference fields of all nodes.
def countFields (nodes : Array Node) : Nat :=
  (nodes.map fun node => node.fields.length).foldl (· + ·) 0

theorem countFields_modify (nodes : Array Node) (o : Nat) (f : Node → Node)
    (h : ∀ node, (f node).fields.length = node.fields.length) :
    countFields (nodes.modify o f) = countFields nodes := by
  have hmap : ((nodes.modify o f).map fun node => node.fields.length) =
      nodes.map fun node => node.fields.length := by
    apply Array.ext
    · simp
    · intro i _ _
      simp only [Array.getElem_map, Array.getElem_modify]
      split <;> simp [h]
  unfold countFields
  rw [hmap]

end Graph

structure Graph where
  nodes : Array Node := #[]
  -- Counted once: changes to a node keep its fields, if not what is in them.
  extent : Nat := Graph.countFields nodes
  extent_eq : extent = Graph.countFields nodes := by rfl
deriving DecidableEq, Repr

namespace Graph

-- The graph of some nodes, if every reference leads to one of them.
def ofNodes (nodes : Array Node) : Except Fault Graph := do
  (nodes.toList.flatMap fun node => node.fields.filterMap id).forM (checkIndex · nodes.size)
  .ok { nodes }

-- A number beyond the graph names an object without count and fields.
def node (g : Graph) (o : Nat) : Node := g.nodes.getD o { status := 0, fields := [] }

def references (g : Graph) (o : Nat) : List Nat := (g.node o).fields.filterMap id

-- Changes a node but not the number of its fields.
def modify (g : Graph) (o : Nat) (f : Node → Node)
    (h : ∀ node, (f node).fields.length = node.fields.length) : Graph where
  nodes := g.nodes.modify o f
  extent := g.extent
  extent_eq := by rw [countFields_modify g.nodes o f h, g.extent_eq]

def setStatus (g : Graph) (o s : Nat) : Graph :=
  g.modify o (fun node => { node with status := s }) fun _ => rfl

-- References to `o` are not counted.
def exempt (g : Graph) (o : Nat) : Graph :=
  g.modify o (fun node => { node with counted := false }) fun _ => rfl

def setField (g : Graph) (o field : Nat) (target : Option Nat) : Except Fault Graph := do
  checkIndex o g.nodes.size
  checkIndex field (g.node o).fields.length
  target.forM (checkIndex · g.nodes.size)
  .ok (g.modify o (fun node => { node with fields := node.fields.set field target }) (by simp))

instance : CountedHeap Graph where
  isCounted g o := .ok (g.node o).counted
  status g o := (g.node o).status
  setStatus := setStatus
  references g o := .ok (g.references o)
  free g _ := .ok g
  extent := extent

end Graph

end Reclaim.Trial
