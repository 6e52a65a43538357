import Mathlib.Tactic.IntervalCases
import Reclaim.Proofs.Trial.Graph

/-!
Safety of trial deletion on object graphs: whatever the clock shows, and whatever is given up on the
way, nothing is freed that something outside of the graph still leads to.
-/
namespace Reclaim.Trial

open CountedHeap Queue

namespace Graph

variable {g : Graph} {c : Collector}

theorem Leads.reach {x o : Nat} (h : g.Leads x o) (ho : g.Tracked o) : g.census.Reach x o := by
  induction h with
  | refl => exact .refl
  | tail _ he ih =>
    refine (ih he.1).tail (Census.mem_traced.mpr ⟨he.2, ho.2.1, ?_⟩)
    exact (tracked_iff.mp ho).2

-- What is referenced from elsewhere is no garbage.
theorem Anchored.not_mem {x : Nat} (hx : g.Anchored x) {gone : Finset Nat}
    (hgone : gone ⊆ g.census.live) (hgar : g.census.Garbage gone) : x ∉ gone := by
  intro hm
  have hle := (hgar x hm).trans (g.census.held_mono hgone x)
  rw [held_live x hx.1] at hle
  exact absurd hx.2 (Nat.not_lt.mpr hle)

theorem Anchored.live {x : Nat} (hx : g.Anchored x) : x ∈ g.census.live := by
  obtain ⟨hobj, hgreen⟩ := tracked_iff.mp hx.1
  have hlt := hx.2
  exact Census.mem_live.mpr ⟨hobj, hgreen, by change 0 < count g x; omega⟩

-- No increment fails, and none frees an object that had a count and that an object referenced from
-- elsewhere led to.
theorem Coherent.freed_unanchored (hg : g.Coherent c) (hgrain : c.settings.visitGrain ≠ 0)
    (hbound : c.settings.visitBound ≠ 0) (hfilter : c.settings.filterBound ≠ 0) (clock : Clock)
    (available collection deadline : Nat) :
    ∃ out, c.runUntil available collection deadline ⟨g, clock⟩ = .ok out ∧
      ∀ o ∈ out.freed, ¬(0 < count g o ∧ ∃ x, g.Anchored x ∧ g.Leads x o) := by
  have hready : Ready lawful g.census False c g := hg.ready (by simp) (by simp)
  obtain ⟨out, gone, hrun, hout⟩ := Collector.runUntil_ok (t := ⟨g, clock⟩) hready
    ⟨hg.consistent, Or.inl rfl, hgrain, hbound, hfilter⟩ available collection deadline
  refine ⟨out, hrun, ?_⟩
  rintro o ho ⟨hpos, x, hx, hlead⟩
  have hgone : o ∈ gone := by
    refine (hout.roster.found o (Or.inr (List.mem_reverse.mpr ho))).resolve_right fun hz => ?_
    exact hpos.ne' hz.1
  have holive := hout.roster.ledger.gone_live hgone
  obtain ⟨hobj, hgreen, -⟩ := Census.mem_live.mp holive
  have hxgone := hx.not_mem hout.roster.ledger.gone_live hout.garbage
  exact hg.consistent.not_mem_of_reach hout.roster.ledger.gone_live hout.garbage hx.live hxgone
    (hlead.reach (tracked_iff.mpr ⟨hobj, hgreen⟩)) hgone

end Graph

-- Two rings of two objects. Something outside of the graph refers to the second one.
def rings : Graph where
  nodes := #[
    { status := Status.setBuffered (Status.initial false .purple 1), fields := [some 1] },
    { status := Status.initial false .black 1, fields := [some 0] },
    { status := Status.setBuffered (Status.initial false .purple 1), fields := [some 3] },
    { status := Status.initial false .black 2, fields := [some 2, none] }]

-- A collector with one candidate of each ring.
def ringCollector : Collector :=
  let c := Collector.new {
    timeCap := 300, filterPages := 0, detectionPages := 0, filterLimit := 8, visitGrain := 1,
    visitBound := 1, filterBound := 1, bufferEntries := 1 }
  { c with unfiltered := (c.unfiltered.insert 0).insert 2 }

theorem coherent_rings : rings.Coherent ringCollector where
  closed := by decide
  word := by decide
  plain := by decide
  covered x hx := by
    have hlt : x < 4 := hx.1
    interval_cases x <;> decide
  valid := by
    have hnew := fun name : String => Solo.Valid.new (α := Nat) name 1
    exact ⟨((hnew _).insert 0).insert 2, hnew _, hnew _, hnew _, hnew _⟩
  candidates := by decide
  filtered_eq := rfl
  cycleA_eq := rfl
  cycleB_eq := rfl

theorem freed_unanchored_rings : ∃ out,
    ringCollector.runUntil 0 0 300 ⟨rings, .still 0⟩ = .ok out ∧
      ∀ o ∈ out.freed, ¬(0 < count rings o ∧ ∃ x, rings.Anchored x ∧ rings.Leads x o) :=
  coherent_rings.freed_unanchored (by decide) (by decide) (by decide) (.still 0) 0 0 300

end Reclaim.Trial
