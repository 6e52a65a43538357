import Reclaim.Proofs.Trial.Filtering

/-!
An increment under way: what stays the same throughout a round of it, where its candidates are, and
what holds between two rounds.
-/
namespace Reclaim.Trial

open CountedHeap Queue

variable {σ : Type} [CountedHeap σ]

namespace Collector

-- All candidates, whatever queue they are in.
def queued (c : Collector) : List Nat :=
  c.unfiltered.contents ++ c.mature.contents ++ c.filtered.contents ++ c.cycleA.contents ++
    c.cycleB.contents

theorem queued_filtered (c : Collector) {q : Solo Nat} {o : Nat} {rest : List Nat}
    (hs : c.filtered.contents = o :: rest) (hrest : q.contents = rest) :
    c.queued.Perm (o :: { c with filtered := q }.queued) := by
  simp only [queued, hs, hrest, List.append_assoc, List.cons_append]
  exact ((List.perm_append_left_iff _).mpr List.perm_middle).trans List.perm_middle

structure Valid (c : Collector) : Prop where
  unfiltered : c.unfiltered.Valid
  mature : c.mature.Valid
  filtered : c.filtered.Valid
  cycleA : c.cycleA.Valid
  cycleB : c.cycleB.Valid

end Collector

-- What a round does not change.
structure Scope (σ : Type) [CountedHeap σ] where
  law : Lawful σ
  census : Census
  -- The candidates that the increment found in its queues, and whether none was found twice.
  waiting : List Nat
  exact : Prop
  settings : Settings
  time : Nat → Nat → Nat
  -- New candidates are only looked at before the first round, and nothing is freed before the end
  -- of the round.
  unfiltered : Solo Nat
  freed : List Nat

namespace Scope

variable (e : Scope σ)

-- The objects that have not been freed.
def present : Finset Nat := e.law.left e.census.objects e.freed

structure Sound : Prop where
  consistent : e.census.Consistent
  mode : e.law.keeps = true ∨ e.exact
  grain : e.settings.visitGrain ≠ 0
  bound : e.settings.visitBound ≠ 0
  filterBound : e.settings.filterBound ≠ 0

end Scope

structure Running (e : Scope σ) (gone : Finset Nat) (i : Increment σ) : Prop where
  roster : Roster e.law e.census e.waiting e.exact i.timed.heap gone i.collector.queued i.dead
    e.freed i.deferred
  valid : i.collector.Valid
  settings_eq : i.collector.settings = e.settings
  time_eq : i.timed.clock.time = e.time
  unfiltered_eq : i.collector.unfiltered = e.unfiltered
  freed_eq : i.freed = e.freed

namespace Running

variable {e : Scope σ} {gone : Finset Nat} {i : Increment σ}

theorem ledger (hi : Running e gone i) : Ledger e.law e.census i.timed.heap e.present gone :=
  hi.roster.ledger

theorem mem_present (hi : Running e gone i) {x : Nat} (hx : x ∈ i.collector.queued) :
    x ∈ e.present ∧ e.census.isGreen x = false := hi.roster.listed x (Or.inl hx)

-- Other queues that hold the same candidates.
theorem onCollector (hi : Running e gone i) {f : Collector → Collector}
    (hqueued : (f i.collector).queued = i.collector.queued) (hvalid : (f i.collector).Valid)
    (hsettings : (f i.collector).settings = i.collector.settings)
    (hunfiltered : (f i.collector).unfiltered = i.collector.unfiltered) :
    Running e gone (i.onCollector f) where
  roster := by
    have hr := hi.roster
    rw [← hqueued] at hr
    exact hr
  valid := hvalid
  settings_eq := hsettings.trans hi.settings_eq
  time_eq := hi.time_eq
  unfiltered_eq := hunfiltered.trans hi.unfiltered_eq
  freed_eq := hi.freed_eq

end Running

-- Between two rounds nothing is grey or white. What is gone is garbage, and nothing else is.
structure Settled (e : Scope σ) (gone : Finset Nat) (i : Increment σ) : Prop extends
    Running e gone i where
  garbage : e.census.Garbage gone
  complete : e.census.Complete gone
  plain : tinted i.timed.heap e.present = ∅
  cycleA_eq : i.collector.cycleA.contents = []
  cycleB_eq : i.collector.cycleB.contents = []

namespace Settled

variable {e : Scope σ} {gone : Finset Nat} {i : Increment σ}

theorem count_eq (hi : Settled e gone i) {x : Nat} (hx : x ∈ e.present) :
    count i.timed.heap x + e.census.held gone x = e.census.count x := by
  have heq := hi.ledger.count_eq x hx
  rw [hi.plain, Census.held_empty] at heq
  exact heq

-- The dead objects are freed at the end of a round.
theorem processFree (hi : Settled e gone i) (he : e.Sound) :
    ∃ i', i.processFree = .ok i' ∧ Settled { e with freed := i'.freed } gone i' ∧ i'.dead = [] ∧
      i'.collector = i.collector ∧ i'.timed.clock = i.timed.clock ∧
      e.law.left e.census.objects i'.freed ⊆ e.present ∧
      ∀ x ∈ e.law.left e.census.objects i'.freed, status i'.timed.heap x = status i.timed.heap x := by
  obtain ⟨h', hfree, hr, ht, hstatus⟩ := hi.roster.release he.mode hi.plain
  rw [← hi.freed_eq] at hr ht hstatus
  have hrun : i.processFree = .ok { i with
      timed := { i.timed with heap := h' }
      dead := []
      freed := i.dead.reverse ++ i.freed
      stats := { i.stats with freed := i.stats.freed + i.dead.length } } := by
    simp only [Increment.processFree, hfree, ok_bind]
  have hsub : e.law.left e.census.objects (i.dead.reverse ++ i.freed) ⊆ e.present := by
    rw [hi.freed_eq, ← e.law.left_left]
    exact e.law.left_subset _ _
  exact ⟨_, hrun, { hi with
    roster := hr
    freed_eq := rfl
    plain := ht }, rfl, rfl, rfl, hsub, hstatus⟩

end Settled

end Reclaim.Trial
