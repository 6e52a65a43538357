import Mathlib.Tactic.SplitIfs
import Reclaim.Plan.Collect
import Reclaim.Proofs.Plan.Rewriting

/-!
What a plan keeps of its collections: their totals, their number and the requests for them. Whatever a plan
and its mutators do, only the end of a collection adds to the totals. A collection changes the three when it
begins and when it ends, and at no moment between.
-/
namespace Reclaim

open Queue Sizes

variable {p p' : Plan} {m m' : Mutator}

def Plan.history (p : Plan) : Totals × Nat × Requests := (p.totals, p.collections, p.requests)

theorem mapError_eq_ok {ε ε' α : Type} {x : Except ε α} {f : ε → ε'} {a : α} :
    x.mapError f = .ok a ↔ x = .ok a := by
  cases x with
  | ok b =>
    refine ⟨fun h => ?_, fun h => ?_⟩ <;> cases h <;> rfl
  | error e => exact ⟨nofun, nofun⟩

namespace Mutator

theorem history_reset (h : m.reset p = .ok (m', p')) : p'.history = p.history := by
  unfold reset at h
  cases hm : m.standard with
  | bump b =>
    simp only [hm, ok_bind] at h
    obtain ⟨⟨mature, cells⟩, -, h⟩ := bind_eq_ok.mp h
    cases h
    rfl
  | cells x =>
    simp only [hm, ok_bind] at h
    obtain ⟨⟨x', cells⟩, -, h⟩ := bind_eq_ok.mp h
    obtain ⟨⟨mature, cells'⟩, -, h⟩ := bind_eq_ok.mp h
    cases h
    rfl

theorem history_flush (m : Mutator) (p : Plan) : (m.flush p).2.history = p.history := by
  unfold flush
  split <;> rfl

theorem history_prepare (h : m.prepare p = .ok (m', p')) : p'.history = p.history := by
  obtain ⟨⟨m₁, p₁⟩, hreset, h⟩ := bind_eq_ok.mp h
  have hflush := history_flush m₁ p₁
  rw [Except.ok.inj h] at hflush
  exact hflush.trans (history_reset hreset)

end Mutator

namespace Collection

variable {c c' : Collection} {mutators stopped : List Mutator} {counts : CountState}

theorem history_stopTimer (c : Collection) (phase : Phase) :
    (c.stopTimer phase).plan.history = c.plan.history := rfl

theorem history_foldl_log {α : Type} (f : α → Event) (xs : List α) (c : Collection) :
    (xs.foldl (fun c x => c.log (f x)) c).plan.history = c.plan.history := by
  induction xs generalizing c with
  | nil => rfl
  | cons x rest ih => exact ih _

theorem history_enter {phase : Phase} (h : c.enter phase = .ok c') : c'.plan.history = c.plan.history := by
  obtain ⟨pages, -, h⟩ := bind_eq_ok.mp h
  cases h
  rfl

theorem history_begin (h : begin p = .ok c) :
    c.plan.history = (p.totals, p.collections + 1, p.requests.begin) := by
  obtain ⟨pages, -, h⟩ := bind_eq_ok.mp h
  cases h
  rfl

theorem history_prepareMutators (h : prepareMutators mutators p = .ok (stopped, p')) :
    p'.history = p.history := by
  induction mutators generalizing p stopped with
  | nil =>
    cases h
    rfl
  | cons m rest ih =>
    obtain ⟨⟨m₁, p₁⟩, hprepare, h⟩ := bind_eq_ok.mp h
    obtain ⟨⟨rest₁, p₂⟩, hrest, h⟩ := bind_eq_ok.mp h
    cases h
    exact (ih hrest).trans (Mutator.history_prepare hprepare)

theorem history_prepare (h : c.prepare mutators = .ok (stopped, c')) : c'.plan.history = c.plan.history := by
  obtain ⟨c₁, henter, h⟩ := bind_eq_ok.mp h
  obtain ⟨⟨ms, p₁⟩, hprepare, h⟩ := bind_eq_ok.mp h
  cases h
  exact (history_prepareMutators hprepare).trans (history_enter henter)

theorem history_trace {n : Nat} {w w' : Worker} {stats : TraceStats}
    (h : trace n w p = .ok (w', stats, p')) : p'.history = p.history := by
  obtain ⟨t, -, h⟩ := bind_eq_ok.mp h
  obtain ⟨t', -, h⟩ := bind_eq_ok.mp h
  cases h
  rfl

theorem history_traceAll {n : Nat} {workers workers' : List Worker} {stats stats' : TraceStats}
    (h : traceAll n workers stats p = .ok (workers', stats', p')) : p'.history = p.history := by
  induction workers generalizing p stats workers' with
  | nil =>
    cases h
    rfl
  | cons w rest ih =>
    obtain ⟨⟨w₁, more, p₁⟩, htrace, h⟩ := bind_eq_ok.mp h
    obtain ⟨⟨rest₁, stats₁, p₂⟩, hrest, h⟩ := bind_eq_ok.mp h
    cases h
    exact (ih hrest).trans (history_trace htrace)

theorem history_runClosure {stats : TraceStats} (h : runClosure p = .ok (stats, p')) :
    p'.history = p.history := by
  obtain ⟨⟨idle, mature⟩, -, h⟩ := bind_eq_ok.mp h
  obtain ⟨⟨active, stats₁, p₁⟩, htrace, h⟩ := bind_eq_ok.mp h
  cases h
  have hhistory := history_traceAll (mapError_eq_ok.mp htrace)
  exact hhistory

theorem history_logQueueDepths (c : Collection) : c.logQueueDepths.plan.history = c.plan.history := by
  unfold logQueueDepths
  split_ifs
  · exact history_foldl_log (fun x : String × Nat × Nat => .queueDepth x.1 x.2.2) _ c
  · rfl

theorem history_close (h : c.close = .ok c') : c'.plan.history = c.plan.history := by
  obtain ⟨c₁, henter, h⟩ := bind_eq_ok.mp h
  obtain ⟨⟨stats, p₁⟩, hrun, h⟩ := bind_eq_ok.mp h
  cases h
  have hbefore : c₁.plan.history = c.plan.history := (history_enter henter).trans rfl
  exact (history_logQueueDepths _).trans ((history_runClosure hrun).trans hbefore)

theorem history_applyDecrements {work : List Nat} {n : Nat}
    (h : c.applyDecrements counts work = .ok (n, c')) : c'.plan.history = c.plan.history := by
  obtain ⟨d, -, h⟩ := bind_eq_ok.mp h
  cases h
  rfl

theorem history_processDecrements (h : c.processDecrements counts = .ok c') :
    c'.plan.history = c.plan.history := by
  obtain ⟨c₁, henter, h⟩ := bind_eq_ok.mp h
  obtain ⟨⟨n, c₂⟩, hrun, h⟩ := bind_eq_ok.mp h
  cases h
  exact (history_applyDecrements hrun).trans (history_enter henter)

theorem history_logIncrement (c : Collection) (o : Trial.Outcome Heap) :
    (c.logIncrement o).plan.history = c.plan.history := by
  unfold logIncrement
  split_ifs <;> rfl

theorem history_logCandidates (c : Collection) (o : Trial.Outcome Heap) :
    (c.logCandidates o).plan.history = c.plan.history := by
  unfold logCandidates
  split_ifs
  · exact history_foldl_log (fun x : String × Nat => .queueDepth x.1 x.2) _ c
  · rfl

theorem history_processCycles {deferred : List Nat} (h : c.processCycles counts = .ok (deferred, c')) :
    c'.plan.history = c.plan.history := by
  obtain ⟨c₁, henter, h⟩ := bind_eq_ok.mp h
  obtain ⟨pages, -, h⟩ := bind_eq_ok.mp h
  obtain ⟨o, -, h⟩ := bind_eq_ok.mp h
  cases h
  have hbefore := history_enter henter
  refine (history_logCandidates _ o).trans ?_
  refine (history_stopTimer _ .cycles).trans ?_
  exact (history_logIncrement _ o).trans hbefore

theorem history_processCounts (h : c.processCounts = .ok c') : c'.plan.history = c.plan.history := by
  unfold processCounts at h
  split at h
  · cases h
    rfl
  obtain ⟨c₁, hrun₁, h⟩ := bind_eq_ok.mp h
  have h₁ := history_processDecrements hrun₁
  split at h
  · cases h
    exact h₁
  obtain ⟨⟨deferred, c₂⟩, hrun₂, h⟩ := bind_eq_ok.mp h
  have h₂ := (history_processCycles hrun₂).trans h₁
  dsimp only at h
  split at h
  · cases h
    exact h₂
  obtain ⟨⟨n, c₃⟩, hrun₃, h⟩ := bind_eq_ok.mp h
  cases h
  exact (history_applyDecrements hrun₃).trans h₂

theorem history_releaseNursery (h : releaseNursery p = .ok p') : p'.history = p.history := by
  unfold releaseNursery at h
  split at h
  · cases h
    rfl
  · obtain ⟨⟨nursery, memory⟩, -, h⟩ := bind_eq_ok.mp h
    cases h
    rfl

theorem history_sweep {n : Nat} (h : sweep p = .ok (n, p')) : p'.history = p.history := by
  obtain ⟨⟨swept, mature, memory⟩, -, h⟩ := bind_eq_ok.mp h
  obtain ⟨⟨large, treadmill, memory'⟩, -, h⟩ := bind_eq_ok.mp h
  cases h
  rfl

theorem history_retire (h : retire p counts = .ok p') : p'.history = p.history := by
  obtain ⟨⟨stats, mature, memory⟩, -, h⟩ := bind_eq_ok.mp h
  cases h
  rfl

theorem history_release (h : c.release = .ok c') : c'.plan.history = c.plan.history := by
  obtain ⟨c₁, henter, h⟩ := bind_eq_ok.mp h
  obtain ⟨⟨workers, mature⟩, -, h⟩ := bind_eq_ok.mp h
  obtain ⟨p₁, hnursery, h⟩ := bind_eq_ok.mp h
  have h₁ := (history_releaseNursery hnursery).trans (history_enter henter)
  cases hcounts : p₁.counts with
  | none =>
    simp only [hcounts] at h
    obtain ⟨⟨n, p₂⟩, hsweep, h⟩ := bind_eq_ok.mp h
    cases h
    exact (history_sweep hsweep).trans h₁
  | some counts =>
    simp only [hcounts] at h
    obtain ⟨p₂, hretire, h⟩ := bind_eq_ok.mp h
    cases h
    exact (history_retire hretire).trans h₁

theorem history_finish (h : c.finish = .ok p) :
    p.history = (c.plan.totals.record p.last, c.plan.collections, c.plan.requests.finish) := by
  obtain ⟨pages, -, h⟩ := bind_eq_ok.mp h
  cases h
  rfl

theorem history_run (h : run p mutators = .ok (stopped, c)) :
    c.plan.history = (p.totals, p.collections + 1, p.requests.begin) := by
  obtain ⟨c₁, hbegin, h⟩ := bind_eq_ok.mp h
  obtain ⟨⟨ms, c₂⟩, hprepare, h⟩ := bind_eq_ok.mp h
  obtain ⟨c₃, hclose, h⟩ := bind_eq_ok.mp h
  obtain ⟨c₄, hcounts, h⟩ := bind_eq_ok.mp h
  obtain ⟨c₅, hrelease, h⟩ := bind_eq_ok.mp h
  cases h
  rw [history_release hrelease, history_processCounts hcounts, history_close hclose,
    history_prepare hprepare, history_begin hbegin]

end Collection

-- A collection counts itself and takes the requests when it begins. Its end adds its figures.
theorem Plan.history_collect {mutators stopped : List Mutator}
    (h : p.collect mutators = .ok (stopped, p')) : p'.history =
      (p.totals.record p'.last, p.collections + 1, p.requests.begin.finish) := by
  obtain ⟨⟨stopped', c⟩, hrun, h⟩ := bind_eq_ok.mp h
  obtain ⟨p₁, hfinish, h⟩ := bind_eq_ok.mp h
  cases h
  have hrun := Collection.history_run hrun
  simp only [Plan.history, Prod.mk.injEq] at hrun
  rw [Collection.history_finish hfinish, hrun.1, hrun.2.1, hrun.2.2]

end Reclaim
