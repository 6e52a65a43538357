import Reclaim.Proofs.Session.Steps

/-!
The account of a session: the count of an object is the number of references to it that are there or
were there when the last decrements were applied.
-/
namespace Reclaim

open CountedHeap Counting Heap Queue

variable {counts : CountState} {l : Layout} {r : Finset Nat} {x o : Nat}

namespace Session

variable {s : Session}

-- Reference fields that hold `x`, in immortal objects and in objects of `r` that have a count.
def fields (s : Session) (r : Finset Nat) (x : Nat) : Nat :=
  (s.immortals.flatMap s.plan.heap.refs).count x +
    ∑ o ∈ r with 0 < count s.plan.heap o, (s.plan.heap.refs o).count x

-- Decrements of `x` that wait, in the buffers of mutators and in the chain that they share.
def owed (s : Session) (counts : CountState) (x : Nat) : Nat :=
  (s.mutators.flatMap (·.decrements.held)).count x + counts.decrements.entries.count x

theorem Sound.count_eq (hs : s.Sound counts l r) (hx : x ∈ r) :
    count s.plan.heap x = s.fields r x + s.owed counts x + counts.oldRoots.count x := by
  have hheld : held (s.plan.heap.census r) (live s.plan.heap r) x =
      ∑ o ∈ r with 0 < count s.plan.heap o, (s.plan.heap.refs o).count x := rfl
  rw [hs.standing.books.count_eq x hx, hheld]
  simp only [outside, List.nil_append, List.count_append, fields, owed, hs.immortals_eq]
  omega

-- An object without a count waits in a queue.
theorem Sound.waits_of_dead (hs : s.Sound counts l r) (hx : x ∈ r)
    (hz : count s.plan.heap x = 0) : isBuffered s.plan.heap x = true ∧
      (x ∈ counts.cycles.unfiltered.contents ∨ x ∈ counts.cycles.mature.contents) := by
  have hcand := hs.standing.books.candidates
  have hq := hs.standing.books.dead x hx hz
  refine ⟨(hcand.flagged x hx).mpr hq, ?_⟩
  rwa [Trial.Collector.queued, hcand.filtered_eq, hcand.cycleA_eq, hcand.cycleB_eq, List.append_nil,
    List.append_nil, List.append_nil, List.mem_append] at hq

-- The references of an object are one per field that is not null.
theorem Sound.references_ok (hs : s.Sound counts l r) (ho : o ∈ r ∨ o ∈ s.immortals) :
    s.plan.heap.references o = .ok (s.plan.heap.refs o) := by
  rcases ho with ho | ho
  · obtain ⟨kind, bytes, -, hroom⟩ := hs.standing.room_of_mem ho
    exact hs.standing.populated.references_ok hroom
  · rw [← hs.immortals_eq] at ho
    obtain ⟨bytes, hroom⟩ := (Standing.mem_immortals (p := s.plan)).mp ho
    exact hs.standing.populated.references_ok hroom

-- Between two operations, each count is the number of fields, waiting decrements and recorded roots
-- that refer to the object.
theorem Run.balanced (hrun : Run s) : ∃ counts r, s.plan.counts = some counts ∧
    (∀ o, o ∈ r ↔ s.plan.heap.Holds o) ∧
    (∀ o, o ∈ r ∨ o ∈ s.immortals → s.plan.heap.references o = .ok (s.plan.heap.refs o)) ∧
    (∀ x ∈ r, 0 < count s.plan.heap x →
      count s.plan.heap x = s.fields r x + s.owed counts x + counts.oldRoots.count x) ∧
    ∀ x ∈ r, count s.plan.heap x = 0 →
      s.fields r x = 0 ∧ s.owed counts x = 0 ∧ counts.oldRoots.count x = 0 ∧
        isBuffered s.plan.heap x = true ∧
        (x ∈ counts.cycles.unfiltered.contents ∨ x ∈ counts.cycles.mature.contents) := by
  obtain ⟨counts, l, r, hs⟩ := hrun.sound
  refine ⟨counts, r, hs.standing.counts_eq, fun _ => hs.mem_iff, fun _ => hs.references_ok,
    fun x hx _ => hs.count_eq hx, fun x hx hz => ?_⟩
  have heq := hs.count_eq hx
  rw [hz] at heq
  exact ⟨by omega, by omega, by omega, hs.waits_of_dead hx hz⟩

-- The count of a new object is the decrement that waits for it.
theorem balanced_single : ∃ s counts r x, Run s ∧ s.plan.counts = some counts ∧ x ∈ r ∧
    count s.plan.heap x = 1 ∧ s.fields r x + s.owed counts x + counts.oldRoots.count x = 1 := by
  obtain ⟨counts, r, hcounts, hmem, -, hcount, -⟩ := Run.balanced Single.run_rooted
  have hone := Single.count_object
  have ho := (hmem _).mpr Single.holds_object
  exact ⟨_, counts, r, _, Single.run_rooted, hcounts, ho, hone,
    (hcount _ ho (hone ▸ Nat.one_pos)).symm.trans hone⟩

end Session

end Reclaim
