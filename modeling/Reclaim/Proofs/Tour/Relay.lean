import Reclaim.Proofs.Tour.Draining

/-!
Collectors that take part in a closure one after the other. Each takes its share of the roots and all the
work that follows from it, and hands the closure on; the last leaves nothing to do.
-/
namespace Reclaim

open Heap Queue Sizes

-- Between two collectors of the closure that `base` starts: it has come as far as `q` tells, and the
-- collectors to come have still to take `rest`.
structure Relay (g : Ground) (base p : Plan) (stats : TraceStats) (owners : List CellAllocator)
    (q : Progress) (rest : List Task) : Prop where
  plan_eq : ∃ clock events, p = { base with heap := p.heap, clock, queues := p.queues, events }
  queues : p.queues.Idle base.buffer
  owners : ∀ x ∈ owners, x.Owns p.heap.mature
  toured : Toured g p.heap q.layout q.seen q.place
  owing : Owing g p.memory q rest
  scanned_eq : stats.scanned = q.scanned.length
  copied_eq : stats.copied = q.seen.countP fun x => g.Young x
  marked_eq : stats.marked = q.seen.countP fun x => ¬g.Young x

-- A collector takes its share of the roots.
theorem Touring.computeRoots {e : Part} {n : Nat} {t : Tracing} {q : Progress} {rest : List Task}
    (hg : e.ground.Ready) {globals : Globals} {threads : List Thread} {collectors : Nat}
    (hnumbered : ∀ t ∈ threads, t.Numbered) (h1 : 1 ≤ t.ordinal) (hn : t.ordinal ≤ collectors)
    (ht : Touring e n t q ((Roots.share globals threads t.ordinal collectors).map .root ++ rest)) :
    Affords (t.computeRoots globals threads collectors) fun t' =>
      ∃ n' q', Touring e n' t' q' rest := by
  unfold Tracing.computeRoots
  rw [Roots.scan_eq _ hnumbered h1 hn]
  refine (Affords.foldlM
    (fun roots (s : Tracing × RootCounts) => ∃ n q, Touring e n s.1 q (roots.map .root ++ rest))
    (fun root roots s ⟨n, q, hs⟩ => ?_) _ (t, {}) ⟨n, q, ht⟩).bind fun s ⟨n', q', hs⟩ =>
      .ok ⟨n', q', { hs with }⟩
  exact (hs.addRoot hg).bind fun t' ⟨n', q', _, ht', _⟩ => .ok ⟨n', q', ht'⟩

namespace Relay

variable {g : Ground} {base p : Plan} {stats : TraceStats} {owners : List CellAllocator}
variable {q : Progress} {rest : List Task} {collectors : Nat}
variable (hg : g.Ready) (hpolicy : base.policy = .hybrid) (hcounts : base.counts = none)
variable (hnumbered : ∀ t ∈ base.scheduler.threads, t.Numbered)
include hg hpolicy hcounts

-- The next collector starts.
theorem tracing {w : Worker} (hr : Relay g base p stats (w.copy :: owners) q rest) :
    ∃ n, Touring ⟨g, owners, stats, base.buffer⟩ n (Collection.tracing p w.ordinal w.copy) q rest := by
  obtain ⟨clock, events, heq⟩ := hr.plan_eq
  have hpolicy' : p.policy = .hybrid := by
    rw [heq]
    exact hpolicy
  have htasks : (Collection.tracing p w.ordinal w.copy).tasks = [] :=
    Tracing.tasks_of_idle hr.queues rfl rfl rfl
  have hseen := hr.toured.length_le hg
  refine ⟨g.heap.maxObjects - q.seen.length, {
    policy_eq := hpolicy'
    newRoots_eq := ?_
    copy := ⟨w.copy, if_pos hpolicy', hr.owners _ List.mem_cons_self⟩
    others := fun x hx => hr.owners x (List.mem_cons_of_mem _ hx)
    objects := ⟨hr.queues.values.1, hr.queues.values.2.2⟩
    slots := ⟨hr.queues.locations.1, hr.queues.locations.2.2⟩
    pointers := ⟨hr.queues.interior.1, hr.queues.interior.2.2⟩
    toured := hr.toured
    owing := ?_
    level := ?_
    scanned_eq := hr.scanned_eq
    copied_eq := hr.copied_eq
    marked_eq := hr.marked_eq }⟩
  · change p.counts.map (·.newRoots) = none
    rw [heq]
    change base.counts.map (·.newRoots) = none
    rw [hcounts]
    rfl
  · rw [htasks]
    exact hr.owing
  · rw [htasks]
    change 0 + g.heap.maxObjects = _
    omega

include hnumbered

-- One collector after the others.
theorem trace {w : Worker} (h1 : 1 ≤ w.ordinal) (hn : w.ordinal ≤ collectors)
    (hr : Relay g base p stats (w.copy :: owners) q
      ((Roots.share base.globals base.scheduler.threads w.ordinal collectors).map .root ++ rest)) :
    Affords (Collection.trace collectors w p) fun r => r.1.ordinal = w.ordinal ∧
      ∃ q', Relay g base r.2.2 (stats.add r.2.1) (r.1.copy :: owners) q' rest := by
  obtain ⟨n, ht⟩ := hr.tracing hg hpolicy hcounts
  obtain ⟨clock, events, heq⟩ := hr.plan_eq
  have hglobals : p.globals = base.globals := by rw [heq]
  have hscheduler : p.scheduler = base.scheduler := by rw [heq]
  unfold Collection.trace
  rw [hglobals, hscheduler]
  refine (ht.computeRoots hg hnumbered h1 hn).bind fun t₁ ⟨n₁, q₁, ht₁⟩ => ?_
  refine (ht₁.work hg).bind fun t₂ ⟨htasks, _, n₂, q₂, ht₂⟩ => ?_
  obtain ⟨ht₃, htasks₃, hidle⟩ := ht₂.flush htasks
  have hfinish : t₂.finish = t₂.flush := by
    rw [Tracing.finish, Tracing.flushIncrements, ht₃.newRoots_eq]
  obtain ⟨x, hcopy, hown⟩ := ht₃.copy
  have hgetD : t₂.flush.copy.getD w.copy = x := by
    rw [hcopy]
    rfl
  rw [hfinish]
  refine Affords.ok ⟨rfl, q₂, {
    plan_eq := ⟨t₂.flush.shared.clock,
      .rootsComputed w.ordinal t₂.flush.stats.roots :: p.events, ?_⟩
    queues := hidle
    owners := fun y hy => ?_
    toured := ht₃.toured
    owing := ?_
    scanned_eq := ht₃.scanned_eq
    copied_eq := ht₃.copied_eq
    marked_eq := ht₃.marked_eq }⟩
  · have hnone : p.counts = none := by
      rw [heq]
      exact hcounts
    simp only [Plan.log, Collection.withClosure, hnone, Option.map_none]
    conv_lhs => rw [heq]
    simp only [hcounts]
    rw [heq]
  · rcases List.mem_cons.mp hy with rfl | hy
    · exact hgetD.symm ▸ hown
    · exact ht₃.others y hy
  · have howing := ht₃.owing
    rw [htasks₃] at howing
    exact howing

omit hg hpolicy hcounts hnumbered in
theorem sub (hr : Relay g base p stats owners q rest) {owners' : List CellAllocator}
    (h : owners' ⊆ owners) : Relay g base p stats owners' q rest :=
  { hr with owners := fun x hx => hr.owners x (h hx) }

-- All collectors of the closure, by their positions.
theorem traceAll (workers : List Worker)
    (hworkers : ∀ w ∈ workers, 1 ≤ w.ordinal ∧ w.ordinal ≤ collectors)
    (hr : Relay g base p stats (workers.map (·.copy) ++ owners) q
      ((workers.flatMap fun w =>
        Roots.share base.globals base.scheduler.threads w.ordinal collectors).map .root ++ rest)) :
    Affords (Collection.traceAll collectors workers stats p) fun r =>
      r.1.map (·.ordinal) = workers.map (·.ordinal) ∧
        ∃ q', Relay g base r.2.2 r.2.1 (r.1.map (·.copy) ++ owners) q' rest := by
  induction workers generalizing p stats q owners with
  | nil => exact .ok ⟨rfl, q, hr⟩
  | cons w ws ih =>
    obtain ⟨h1, hn⟩ := hworkers w List.mem_cons_self
    rw [List.flatMap_cons, List.map_append, List.append_assoc] at hr
    refine (hr.trace hg hpolicy hcounts hnumbered h1 hn).bind fun ⟨w', more, p₁⟩ ⟨hw, q₁, hr₁⟩ => ?_
    simp only at hw hr₁
    have hmiddle : ∀ x (xs : List CellAllocator), (xs ++ x :: owners).Perm (x :: (xs ++ owners)) :=
      fun _ _ => List.perm_middle
    have hr₁' := hr₁.sub (hmiddle w'.copy (ws.map (·.copy))).subset
    refine (ih (fun x hx => hworkers x (List.mem_cons_of_mem _ hx)) hr₁').bind
      fun ⟨ws', stats', p₂⟩ ⟨hws, q₂, hr₂⟩ => .ok ⟨?_, q₂, hr₂.sub ?_⟩
    · simp only [List.map_cons, hw, hws]
    · exact (hmiddle w'.copy (ws'.map (·.copy))).symm.subset

end Relay

end Reclaim
