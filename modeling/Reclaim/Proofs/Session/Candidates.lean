import Reclaim.Proofs.Plan.Freeing
import Reclaim.Proofs.Session.Steps

/-!
The candidates of a session, and its freed objects. Between two operations the buffered bits show
what waits in the queues. No object is freed while it waits, and none is freed again before another
object was made in its place.
-/
namespace Reclaim

open CountedHeap Counting Heap Queue Trial

variable {counts : CountState} {l : Layout} {r r' : Finset Nat} {o : Nat}

-- The candidates of all queues that a collector keeps between two collections.
def Trial.Collector.waiting (c : Collector) : List Nat :=
  c.unfiltered.contents ++ c.mature.contents ++ c.filtered.contents

namespace Session

variable {s s' : Session} {op : Op}

-- Operations lead from `s` to another session. The log has the last change first.
inductive Logged (s : Session) : Session → List Change → Prop
  | start : Logged s s []
  | step {s' s'' : Session} {op : Op} {log : List Change} : Logged s s' log → s'.Allowed op →
    s'.perform op = .ok s'' → Logged s s'' ((s'.changes op).reverse ++ log)

-- Freed, and not made again since.
def Gone : List Change → Nat → Prop
  | [], _ => False
  | .made x :: log, o => o ≠ x ∧ Gone log o
  | .freed x :: log, o => o = x ∨ Gone log o

-- Nothing that is gone is freed.
def Orderly : List Change → Prop
  | [] => True
  | .made _ :: log => Orderly log
  | .freed x :: log => ¬Gone log x ∧ Orderly log

section Log

variable {log : List Change} {xs : List Nat}

theorem gone_freed : Gone ((xs.map .freed).reverse ++ log) o ↔ o ∈ xs ∨ Gone log o := by
  induction xs generalizing log with
  | nil => simp
  | cons x xs ih =>
    rw [List.map_cons, List.reverse_cons, List.append_assoc, ih, List.mem_cons]
    simp only [List.singleton_append, Gone]
    tauto

theorem orderly_freed (hnodup : xs.Nodup) (hnot : ∀ x ∈ xs, ¬Gone log x) (h : Orderly log) :
    Orderly ((xs.map .freed).reverse ++ log) := by
  induction xs generalizing log with
  | nil => exact h
  | cons x xs ih =>
    obtain ⟨hx, hnodup⟩ := List.nodup_cons.mp hnodup
    rw [List.map_cons, List.reverse_cons, List.append_assoc]
    refine ih hnodup (fun y hy => ?_) ⟨hnot x List.mem_cons_self, h⟩
    rintro (rfl | hgone)
    · exact hx hy
    · exact hnot y (List.mem_cons_of_mem _ hy) hgone

end Log

-- Gone objects stay away, and an orderly log stays orderly.
theorem Altered.orderly {changes log : List Change} (ha : Altered r changes r') (h : Orderly log)
    (hgone : ∀ o, Gone log o → o ∉ r) :
    Orderly (changes.reverse ++ log) ∧ ∀ o, Gone (changes.reverse ++ log) o → o ∉ r' := by
  cases ha with
  | none => exact ⟨h, hgone⟩
  | made hsub =>
    refine ⟨h, fun o ho hmem => ?_⟩
    exact hgone o ho.2 ((Finset.mem_insert.mp (hsub hmem)).resolve_left ho.1)
  | freed hp =>
    refine ⟨orderly_freed hp.nodup (fun x hx hg => ?_) h, fun o ho hmem => ?_⟩
    · exact hgone x hg (hp.mem_iff.mpr (Or.inr hx))
    · rcases gone_freed.mp ho with hx | hg
      · exact hp.not_mem hx hmem
      · exact hgone o hg (hp.subset hmem)

-- Whatever happens between two sessions is logged in order, and what is gone is not held.
theorem Logged.orderly {log : List Change} (h : Logged s s' log) (hs : s.Sound counts l r) :
    Orderly log ∧ ∃ counts' l' r', s'.Sound counts' l' r' ∧ ∀ o, Gone log o → o ∉ r' := by
  induction h with
  | start => exact ⟨trivial, counts, l, r, hs, fun _ ho => ho.elim⟩
  | step _ ha hstep ih =>
    obtain ⟨horderly, counts', l', r', hs', hgone⟩ := ih
    obtain ⟨counts'', l'', r'', hs'', haltered⟩ := hs'.perform ha hstep
    obtain ⟨horderly, hgone⟩ := haltered.orderly horderly hgone
    exact ⟨horderly, counts'', l'', r'', hs'', hgone⟩

namespace Sound

variable (hs : s.Sound counts l r)
include hs

theorem queued_eq : counts.cycles.queued = counts.cycles.waiting := by
  have hcand := hs.standing.books.candidates
  rw [Collector.queued, hcand.cycleA_eq, hcand.cycleB_eq, List.append_nil, List.append_nil]
  rfl

-- The buffered bit of an object shows that it waits.
theorem isBuffered_iff (ho : o ∈ r) :
    isBuffered s.plan.heap o = true ↔ o ∈ counts.cycles.waiting := by
  rw [← hs.queued_eq]
  exact hs.standing.books.candidates.flagged o ho

theorem count_waiting (ho : o ∈ r) :
    counts.cycles.waiting.count o = if isBuffered s.plan.heap o then 1 else 0 := by
  have hnodup : counts.cycles.waiting.Nodup := hs.queued_eq ▸ hs.standing.books.candidates.once
  split_ifs with hb
  · exact List.count_eq_one_of_mem hnodup ((hs.isBuffered_iff ho).mp hb)
  · exact List.count_eq_zero.mpr fun hm => hb ((hs.isBuffered_iff ho).mpr hm)

theorem not_buffered_of_green (ho : o ∈ r) (hg : color s.plan.heap o = .green) :
    isBuffered s.plan.heap o = false := by
  refine Bool.eq_false_iff.mpr fun hb => ?_
  have hq : o ∈ counts.cycles.queued := hs.queued_eq ▸ (hs.isBuffered_iff ho).mp hb
  exact (Books.isGreen_census_eq_false _ _ _).mp (hs.standing.books.candidates.mem o hq).2 hg

-- Objects without a count wait, so they were not freed yet.
theorem buffered_of_dead (ho : o ∈ r) (hz : count s.plan.heap o = 0) :
    isBuffered s.plan.heap o = true :=
  (hs.standing.books.candidates.flagged o ho).mpr (hs.standing.books.dead o ho hz)

theorem settled (ho : o ∈ r) : color s.plan.heap o ≠ .grey ∧ color s.plan.heap o ≠ .white :=
  hs.standing.books.plain o ho

theorem count_lt {mutators : List Mutator} (ha : s.Allowed (.collect mutators)) :
    ∀ x ∈ r, count s.plan.heap x + s.plan.rootRefs.count x < 2 ^ 56 :=
  fun x hx => ha.2 x (hs.mem_iff.mp hx)

end Sound

-- Between two operations exactly the buffered objects wait, in one place each.
structure Kempt (s : Session) (counts : CountState) : Prop where
  count_eq : ∀ o, s.plan.heap.Holds o →
    counts.cycles.waiting.count o = if isBuffered s.plan.heap o then 1 else 0
  green : ∀ o, s.plan.heap.Holds o → color s.plan.heap o = .green → isBuffered s.plan.heap o = false
  settled : ∀ o, s.plan.heap.Holds o → color s.plan.heap o ≠ .grey ∧ color s.plan.heap o ≠ .white
  dead : ∀ o, s.plan.heap.Holds o → count s.plan.heap o = 0 → isBuffered s.plan.heap o = true
  cycleA_eq : counts.cycles.cycleA.contents = []
  cycleB_eq : counts.cycles.cycleB.contents = []

theorem Kempt.of_sound (hs : s.Sound counts l r) : s.Kempt counts where
  count_eq _ ho := hs.count_waiting (hs.mem_iff.mpr ho)
  green _ ho := hs.not_buffered_of_green (hs.mem_iff.mpr ho)
  settled _ ho := hs.settled (hs.mem_iff.mpr ho)
  dead _ ho := hs.buffered_of_dead (hs.mem_iff.mpr ho)
  cycleA_eq := hs.standing.books.candidates.cycleA_eq
  cycleB_eq := hs.standing.books.candidates.cycleB_eq

-- How a collection frees: nothing that waits, nothing twice, and no increment leaves anything over.
structure Frugal (s : Session) (mutators : List Mutator) : Prop where
  clear : ∀ m, s.plan.Frees mutators m → m.Clear
  frees : ∀ o ∈ s.freed mutators, ∃ m, s.plan.Frees mutators m ∧ m.object = o
  dead : ∀ i, s.plan.Ends mutators i → i.dead = []

theorem Sound.frugal (hs : s.Sound counts l r) {mutators : List Mutator}
    (ha : s.Allowed (.collect mutators)) : s.Frugal mutators := by
  have hstand := hs.standing.perm ha.1.symm
  refine ⟨fun m hm => Plan.clear_of_frees hstand (hs.count_lt ha) hm, fun o ho => ?_,
    fun i hi => Plan.dead_of_ends hstand (hs.count_lt ha) hi⟩
  unfold freed at ho
  split at ho
  · rename_i hrun
    exact Plan.frees_of_mem hstand (hs.count_lt ha) hrun ho
  · cases ho

-- Between two operations the queues show what waits. A collection frees nothing that waits, and
-- nothing is freed twice without having been made in between.
theorem Run.kempt (hrun : Run s) : (∃ counts, s.plan.counts = some counts ∧ s.Kempt counts) ∧
    (∀ mutators, s.Allowed (.collect mutators) → s.Frugal mutators) ∧
    ∀ s' log, Logged s s' log → Orderly log := by
  obtain ⟨counts, l, r, hs⟩ := hrun.sound
  exact ⟨⟨counts, hs.standing.counts_eq, .of_sound hs⟩, fun _ ha => hs.frugal ha,
    fun _ _ hlog => (hlog.orderly hs).1⟩

-- A new object that nothing refers to is freed by the next collection, when it waits in no queue.
theorem kempt_single : ∃ (s : Session) (o : Nat) (m : Moment Heap), Run s ∧
    s.freed s.mutators = [o] ∧ s.plan.Frees s.mutators m ∧ m.object = o ∧ m.Clear := by
  have hfreed : Single.made.freed Single.made.mutators = [Single.object] := by decide +kernel
  obtain ⟨-, hfrugal, -⟩ := Run.kempt Single.run_made
  obtain ⟨m, hm, hobject⟩ := (hfrugal _ Single.allowed_collect_made).frees _ (hfreed ▸ List.mem_cons_self)
  exact ⟨_, _, m, Single.run_made, hfreed, hm, hobject, (hfrugal _ Single.allowed_collect_made).clear m hm⟩

end Session

end Reclaim
