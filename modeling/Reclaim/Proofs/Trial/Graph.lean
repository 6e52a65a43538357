import Mathlib.Algebra.BigOperators.Fin
import Reclaim.Proofs.Trial.Outcome
import Reclaim.Trial.Graph

/-!
Object graphs as heaps: what they must look like for trial deletion to be right about them, and the
census that it takes of them.
-/
namespace Reclaim.Trial.Graph

open CountedHeap

variable (g : Graph)

-- Counted objects that may lie on a cycle.
def Tracked (o : Nat) : Prop :=
  o < g.nodes.size ∧ (g.node o).counted = true ∧ color g o ≠ .green

instance (o : Nat) : Decidable (g.Tracked o) := by
  unfold Tracked
  infer_instance

-- The references to `x` that tracked objects with a count hold.
def inner (x : Nat) : Nat :=
  ∑ o ∈ Finset.range g.nodes.size with g.Tracked o ∧ 0 < count g o, (g.references o).count x

-- Tracked objects that are referenced from elsewhere, too.
def Anchored (x : Nat) : Prop := g.Tracked x ∧ g.inner x < count g x

-- Whether references of tracked objects lead from one object to another.
def Leads : Nat → Nat → Prop :=
  Relation.ReflTransGen fun o c => g.Tracked o ∧ c ∈ g.references o

-- A graph with the queues of a collector between two increments.
structure Coherent (c : Collector) : Prop where
  closed : ∀ o < g.nodes.size, ∀ x ∈ g.references o, x < g.nodes.size
  word : ∀ o < g.nodes.size, status g o < Word.bound
  plain : ∀ o < g.nodes.size, color g o ≠ .grey ∧ color g o ≠ .white
  covered : ∀ x, g.Tracked x → g.inner x ≤ count g x
  valid : c.Valid
  candidates : ∀ x ∈ c.queued, g.Tracked x ∧ isBuffered g x = true
  filtered_eq : c.filtered.contents = []
  cycleA_eq : c.cycleA.contents = []
  cycleB_eq : c.cycleB.contents = []

def census : Census where
  objects := (Finset.range g.nodes.size).filter fun o => (g.node o).counted
  references := g.references
  isCounted o := (g.node o).counted
  isGreen o := color g o == .green
  count := count g

variable {g}

theorem mem_objects {o : Nat} :
    o ∈ g.census.objects ↔ o < g.nodes.size ∧ (g.node o).counted = true := by
  simp [census]

theorem tracked_iff {o : Nat} :
    g.Tracked o ↔ o ∈ g.census.objects ∧ g.census.isGreen o = false := by
  rw [mem_objects]
  simp [Tracked, census, and_assoc]

theorem node_setStatus {g : Graph} {o : Nat} (ho : o < g.nodes.size) (s x : Nat) :
    (g.setStatus o s).node x = if x = o then { g.node x with status := s } else g.node x := by
  simp only [node, setStatus, modify]
  by_cases hxo : x = o
  · subst hxo
    simp [Array.getD, ho, Array.getElem_modify]
  · simp [Array.getD, Array.getElem_modify, hxo, Ne.symm hxo]

-- A graph shows nodes of a census with their fields, whatever their status words are.
def Shows (g : Graph) (k : Census) (r : Finset Nat) : Prop :=
  (∀ o ∈ r, o < g.nodes.size ∧ (g.node o).counted = true ∧ g.references o = k.references o) ∧
    ∀ o, (g.node o).counted = k.isCounted o

theorem extent_eq_sum (g : Graph) :
    g.extent = ∑ o ∈ Finset.range g.nodes.size, (g.node o).fields.length := by
  rw [g.extent_eq, countFields, ← Array.foldl_toList, List.sum_eq_foldl.symm, ← Fin.sum_univ_getElem,
    Finset.sum_range]
  refine Fintype.sum_equiv (finCongr (by simp)) _ _ fun o => ?_
  have ho : o.val < g.nodes.size := by simpa using o.isLt
  simp [node, ho]

theorem sum_references_le {r : Finset Nat} (hr : ∀ o ∈ r, o < g.nodes.size) :
    ∑ o ∈ r, (g.references o).length ≤ g.extent := by
  have hsub : r ⊆ Finset.range g.nodes.size := fun o ho => Finset.mem_range.mpr (hr o ho)
  rw [extent_eq_sum]
  refine (Finset.sum_le_sum_of_subset hsub).trans (Finset.sum_le_sum fun o _ => ?_)
  exact List.length_filterMap_le _ _

theorem Shows.setStatus {k : Census} {r : Finset Nat} {o : Nat} (hs : Shows g k r) (ho : o ∈ r)
    (s : Nat) : Shows (g.setStatus o s) k r := by
  have hnode := node_setStatus (hs.1 o ho).1 s
  have hsize : (g.setStatus o s).nodes.size = g.nodes.size := Array.size_modify
  have hcounted : ∀ x, ((g.setStatus o s).node x).counted = (g.node x).counted := by
    intro x
    rw [hnode]
    split <;> rfl
  refine ⟨fun x hx => ?_, fun x => (hcounted x).trans (hs.2 x)⟩
  obtain ⟨hlt, hc, href⟩ := hs.1 x hx
  refine ⟨hsize ▸ hlt, (hcounted x).trans hc, ?_⟩
  rw [← href, references, hnode, references]
  split <;> rfl

def lawful : Lawful Graph where
  keeps := true
  Shows := Shows
  references_eq hs ho := congrArg Except.ok (hs.1 _ ho).2.2
  isCounted_eq hs _ _ := congrArg Except.ok (hs.2 _)
  isCounted_self hs ho := congrArg Except.ok (hs.1 _ ho).2.1
  isCounted_false hs hc := congrArg Except.ok ((hs.2 _).trans hc)
  status_setStatus {g k r o x} hs ho _ s := by
    change ((g.setStatus o s).node x).status = _
    rw [node_setStatus (hs.1 o ho).1]
    split <;> rfl
  shows_setStatus hs ho s := hs.setStatus ho s
  recount hs _ _ := hs
  free_ok {g k r o} hs _ := ⟨g, rfl, hs, fun _ _ => rfl⟩
  sum_le_extent {g k r} hs := by
    rw [← Finset.sum_congr rfl fun o ho => congrArg List.length (hs.1 o ho).2.2]
    exact sum_references_le fun o ho => (hs.1 o ho).1

theorem follows_of_tracked {x : Nat} (hx : g.Tracked x) : g.census.follows x = true := by
  simp [Census.follows, census, hx.2.1, hx.2.2]

-- What tracked objects hold is what the census counts.
theorem held_live (x : Nat) (hx : g.Tracked x) :
    g.census.held g.census.live x = g.inner x := by
  have hlive : g.census.live = (Finset.range g.nodes.size).filter
      fun o => g.Tracked o ∧ 0 < count g o := by
    ext o
    rw [Census.mem_live, ← and_assoc, ← tracked_iff]
    simp only [Finset.mem_filter, Finset.mem_range, census]
    exact ⟨fun h => ⟨h.1.1, h⟩, fun h => h.2⟩
  rw [Census.held_eq, if_pos (follows_of_tracked hx), inner, hlive]
  rfl

theorem Coherent.consistent {c : Collector} (hg : g.Coherent c) : g.census.Consistent where
  held_le x hx := by
    by_cases ht : g.Tracked x
    · rw [held_live x ht]
      exact hg.covered x ht
    · have hgreen : g.census.isGreen x = true := by
        by_contra hn
        exact ht (tracked_iff.mpr ⟨hx, by simpa using hn⟩)
      rw [Census.held_green _ hgreen]
      exact Nat.zero_le _
  closed o ho x hx hcount := by
    have hlt := (mem_objects.mp (Census.mem_live.mp ho).1).1
    exact mem_objects.mpr ⟨hg.closed o hlt x hx, hcount⟩
  word x hx := (Status.lt_bound_iff _).mp (hg.word x (mem_objects.mp hx).1)

theorem Coherent.ready {c : Collector} (hg : g.Coherent c) {exact : Prop}
    (honce : exact → c.queued.Nodup)
    (hflagged : exact → ∀ x ∈ g.census.objects, isBuffered g x = true ↔ x ∈ c.queued) :
    Ready lawful g.census exact c g where
  shows := ⟨fun o ho => ⟨(mem_objects.mp ho).1, (mem_objects.mp ho).2, rfl⟩, fun _ => rfl⟩
  word x hx := hg.word x (mem_objects.mp hx).1
  count_eq _ _ := rfl
  green_iff x _ := by simp [census]
  plain x hx := hg.plain x (mem_objects.mp hx).1
  valid := hg.valid
  candidates x hx := tracked_iff.mp (hg.candidates x hx).1
  filtered_eq := hg.filtered_eq
  cycleA_eq := hg.cycleA_eq
  cycleB_eq := hg.cycleB_eq
  once := honce
  flagged := hflagged

end Reclaim.Trial.Graph
