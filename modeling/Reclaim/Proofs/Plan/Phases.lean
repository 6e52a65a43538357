import Reclaim.Proofs.Plan.Operations

/-!
What a collection does besides its work: it counts itself, reads clocks, reports phases and stops the
mutators. No object takes part in any of it.
-/
namespace Reclaim

open CountedHeap Heap Queue Sizes

variable {p p' : Plan} {m m' : Mutator} {mutators : List Mutator}
variable {counts : CountState} {l l' : Layout} {r : Finset Nat} {hand : List Nat} {known : Set Nat}

-- The plans have the same settings, roots and workers.
structure Plan.Alike (p p' : Plan) : Prop where
  config_eq : p'.config = p.config
  scheduler_eq : p'.scheduler = p.scheduler
  globals_eq : p'.globals = p.globals
  workers_eq : p'.workers = p.workers

-- The plans differ in reports and figures only.
structure Plan.Noted (p p' : Plan) : Prop extends Plan.Alike p p' where
  queues_eq : p'.queues = p.queues
  heap_eq : p'.heap = p.heap
  counts_eq : p'.counts = p.counts

namespace Plan

theorem Alike.trans {p₁ p₂ p₃ : Plan} (h : p₁.Alike p₂) (h' : p₂.Alike p₃) : p₁.Alike p₃ where
  config_eq := h'.config_eq.trans h.config_eq
  scheduler_eq := h'.scheduler_eq.trans h.scheduler_eq
  globals_eq := h'.globals_eq.trans h.globals_eq
  workers_eq := h'.workers_eq.trans h.workers_eq

theorem Alike.roots_eq (h : p.Alike p') : p'.roots = p.roots := by
  rw [Plan.roots, h.globals_eq, h.scheduler_eq, Plan.roots]

theorem Alike.buffer_eq (h : p.Alike p') : p'.buffer = p.buffer := by
  rw [Plan.buffer, h.config_eq, Plan.buffer]

theorem Noted.refl (p : Plan) : p.Noted p := ⟨⟨rfl, rfl, rfl, rfl⟩, rfl, rfl, rfl⟩

theorem Noted.trans {p₁ p₂ p₃ : Plan} (h : p₁.Noted p₂) (h' : p₂.Noted p₃) : p₁.Noted p₃ where
  toAlike := h.toAlike.trans h'.toAlike
  queues_eq := h'.queues_eq.trans h.queues_eq
  heap_eq := h'.heap_eq.trans h.heap_eq
  counts_eq := h'.counts_eq.trans h.counts_eq

end Plan

theorem Standing.noted (hs : Standing p mutators counts l r hand known) (h : p.Noted p') :
    Standing p' mutators counts l r hand known := by
  obtain ⟨config, scheduler, heap, globals, queues, workers, counts'⟩ := p'
  obtain ⟨⟨h1, h2, h3, h4⟩, h5, h6, h7⟩ := h
  simp only at h1 h2 h3 h4 h5 h6 h7
  subst h1 h2 h3 h4 h5 h6 h7
  exact { hs with
    rooted := hs.rooted.congr rfl rfl (fun _ => rfl) (fun _ _ => rfl) (Set.Subset.refl _) }

-- The pages in use can be counted.
theorem Heap.Sound.pagesReserved_ok {h : Heap} (hs : h.Sound l) :
    ∃ n, h.pagesReserved = .ok n := by
  have hlimit : ∀ s ∈ h.spaces, s.used * pageBytes ≤ s.extent → s.used < 2 ^ 35 := by
    intro s hmem hle
    have := hs.extents s hmem
    simp only [Mapping.systemLimit, pageBytes] at this hle
    omega
  have hnursery : (h.nursery.map (·.used)).getD 0 < 2 ^ 35 := by
    cases hn : h.nursery with
    | none => exact Nat.two_pow_pos _
    | some s => exact hlimit s (by simp [spaces, hn]) (hs.nursery s hn).space.used_le
  have hmature := hlimit h.mature.space (by simp [spaces]) hs.mature.listed.space.used_le
  have hlarge := hlimit h.large.space (by simp [spaces]) hs.large.space.used_le
  have himm := hlimit h.immortal.space (by simp [spaces]) hs.immortal.space.used_le
  have hbound : (2 : Nat) ^ 38 < Word.bound := by decide
  unfold Heap.pagesReserved
  rw [Word.mul_ok (by omega), ok_bind, Word.add_ok (by omega), ok_bind, Word.add_ok (by omega),
    ok_bind, Word.add_ok (by omega)]
  exact ⟨_, rfl⟩

-- The collections differ in reports and clocks only.
structure Collection.Noted (c c' : Collection) : Prop extends Plan.Noted c.plan c'.plan where
  freed_eq : c'.freed = c.freed
  metrics_eq : c'.metrics = c.metrics

-- A collection that has copied and freed nothing so far.
structure Collection.Untold (c : Collection) : Prop where
  copied_eq : c.metrics.copied = 0
  freed_eq : c.metrics.freed = 0
  cycles_eq : c.metrics.cycles = {}

namespace Collection

variable {c : Collection}

theorem Noted.refl (c : Collection) : c.Noted c := ⟨.refl _, rfl, rfl⟩

theorem Noted.trans {c₁ c₂ c₃ : Collection} (h : c₁.Noted c₂) (h' : c₂.Noted c₃) : c₁.Noted c₃ :=
  ⟨h.toNoted.trans h'.toNoted, h'.freed_eq.trans h.freed_eq, h'.metrics_eq.trans h.metrics_eq⟩

theorem Untold.congr {c' : Collection} (h : c.Untold) (hm : c'.metrics = c.metrics) : c'.Untold := by
  obtain ⟨h1, h2, h3⟩ := h
  exact ⟨hm ▸ h1, hm ▸ h2, hm ▸ h3⟩

theorem noted_log (c : Collection) (e : Event) : c.Noted (c.log e) :=
  ⟨⟨⟨rfl, rfl, rfl, rfl⟩, rfl, rfl, rfl⟩, rfl, rfl⟩

theorem noted_startTimer (c : Collection) : c.Noted c.startTimer :=
  ⟨⟨⟨rfl, rfl, rfl, rfl⟩, rfl, rfl, rfl⟩, rfl, rfl⟩

theorem noted_stopTimer (c : Collection) (phase : Phase) : c.Noted (c.stopTimer phase) :=
  ⟨⟨⟨rfl, rfl, rfl, rfl⟩, rfl, rfl, rfl⟩, rfl, rfl⟩

theorem noted_foldl_log {α : Type} (events : α → Event) (xs : List α) (c : Collection) :
    c.Noted (xs.foldl (fun c x => c.log (events x)) c) := by
  induction xs generalizing c with
  | nil => exact .refl _
  | cons x rest ih => exact (noted_log c _).trans (ih _)

theorem noted_logQueueDepths (c : Collection) : c.Noted c.logQueueDepths := by
  unfold logQueueDepths
  split
  · exact noted_foldl_log (fun q : String × Nat × Nat => .queueDepth q.1 q.2.2) _ c
  · exact .refl _

theorem noted_logIncrement (c : Collection) (o : Trial.Outcome Heap) :
    c.Noted (c.logIncrement o) := by
  unfold logIncrement
  split
  · exact (noted_log c _).trans (noted_log _ _)
  · exact noted_log _ _

theorem noted_logCandidates (c : Collection) (o : Trial.Outcome Heap) :
    c.Noted (c.logCandidates o) := by
  unfold logCandidates
  split
  · exact noted_foldl_log (fun q : String × Nat => .queueDepth q.1 q.2) _ c
  · exact .refl _

-- A phase opens.
theorem enter_ok (hs : c.plan.heap.Sound l) (phase : Phase) :
    ∃ c', c.enter phase = .ok c' ∧ c.Noted c' := by
  obtain ⟨n, hn⟩ := hs.pagesReserved_ok
  unfold enter
  rw [Plan.pagesReserved, hn, ok_bind]
  exact ⟨_, rfl, ((noted_log _ _).trans (noted_log _ _)).trans (noted_startTimer _)⟩

theorem begin_ok (hs : p.heap.Sound l) :
    ∃ c, begin p = .ok c ∧ p.Noted c.plan ∧ c.freed = [] ∧ c.Untold := by
  obtain ⟨n, hn⟩ := hs.pagesReserved_ok
  unfold begin
  simp only [Plan.pagesReserved, Plan.log, hn, ok_bind]
  exact ⟨_, rfl, ⟨⟨rfl, rfl, rfl, rfl⟩, rfl, rfl, rfl⟩, rfl, ⟨rfl, rfl, rfl⟩⟩

-- The plan keeps the figures of the collection.
structure Recorded (c : Collection) (p : Plan) : Prop where
  scanned_eq : p.last.scanned = c.metrics.scanned
  copied_eq : p.last.copied = c.metrics.copied
  freed_eq : p.last.freed = c.metrics.freed
  cycles_eq : p.last.cycles = c.metrics.cycles

theorem finish_ok (hs : c.plan.heap.Sound l) :
    ∃ p', c.finish = .ok p' ∧ c.plan.Noted p' ∧ c.Recorded p' := by
  obtain ⟨n, hn⟩ := hs.pagesReserved_ok
  unfold finish
  simp only [Plan.pagesReserved, hn, ok_bind]
  exact ⟨_, rfl, ⟨⟨rfl, rfl, rfl, rfl⟩, rfl, rfl, rfl⟩, ⟨rfl, rfl, rfl, rfl⟩⟩

-- Stopping mutators changes nothing about objects. `rest` are those that are stopped already.
structure Stopped (p : Plan) (counts : CountState) (l : Layout) (stopped : List Mutator)
    (p' : Plan) (counts' : CountState) (l' : Layout) : Prop where
  plan_eq : ∃ heap chain, counts' = { counts with decrements := chain } ∧
    p' = { p with heap, counts := some counts' }
  rearranged : Rearranged p.heap l p'.heap l'
  published : ∀ m ∈ stopped, m.decrements = {} ∧ ∀ c, m.Owns c

theorem prepareMutators_ok (todo rest : List Mutator)
    (hs : Standing p (todo ++ rest) counts l r hand known) :
    ∃ stopped p' counts' l', prepareMutators todo p = .ok (stopped, p') ∧
      stopped.length = todo.length ∧ Stopped p counts l stopped p' counts' l' ∧
      Standing p' (stopped ++ rest) counts' l' r hand known := by
  induction todo generalizing p counts l rest with
  | nil =>
    refine ⟨[], p, counts, l, rfl, rfl, ⟨⟨p.heap, counts.decrements, rfl, ?_⟩,
      .refl hs.populated.sound, nofun⟩, hs⟩
    rw [← hs.counts_eq]
  | cons m todo ih =>
    obtain ⟨m', h', l', chain, hprepare, hr, hnone, hfree, hs'⟩ := Mutator.prepare_ok hs
    have hmoved : (m' :: (todo ++ rest)).Perm (todo ++ m' :: rest) := List.perm_middle.symm
    obtain ⟨stopped, p'', counts'', l'', hrun, hlen, hstopped, hs''⟩ := ih (m' :: rest) (hs'.perm hmoved)
    obtain ⟨⟨heap, chain', rfl, rfl⟩, hr', hpub⟩ := hstopped
    refine ⟨m' :: stopped, _, _, l'', ?_, by rw [List.length_cons, List.length_cons, hlen],
      ⟨⟨heap, chain', rfl, rfl⟩, hr.trans hr', List.forall_mem_cons.mpr ⟨⟨hnone, hfree⟩, hpub⟩⟩,
      hs''.perm List.perm_middle⟩
    simp only [prepareMutators, hprepare, ok_bind, hrun]

-- All mutators stop, and every object counts as unmarked.
theorem prepare_ok (hs : Standing c.plan mutators counts l r hand known) :
    ∃ stopped c' counts' l', c.prepare mutators = .ok (stopped, c') ∧
      stopped.length = mutators.length ∧ c.plan.Alike c'.plan ∧ c'.freed = c.freed ∧
      c'.metrics = c.metrics ∧ Rearranged c.plan.heap l c'.plan.heap l' ∧
      (∀ m ∈ stopped, m.decrements = {} ∧ ∀ c, m.Owns c) ∧
      Standing c'.plan stopped counts' l' r hand known := by
  obtain ⟨c₁, henter, hnoted⟩ := enter_ok hs.populated.sound .prepare
  have hs₁ := hs.noted hnoted.toNoted
  obtain ⟨stopped, p₂, counts', l', hrun, hlen, hstopped, hs₂⟩ :=
    prepareMutators_ok mutators [] (by rwa [List.append_nil])
  rw [List.append_nil] at hs₂
  have hprepare : c.prepare mutators = .ok (stopped,
      ({ c₁ with plan := flipMarks p₂ }.stopTimer .prepare).log
        (.phaseEnd .prepare stopped.length)) := by
    simp only [prepare, henter, ok_bind, hrun]
  have hmarks := hs₂.populated.sound.rearrangeMarks
  have hs₃ : Standing (flipMarks p₂) stopped counts' l' r hand known :=
    hs₂.rearrange hmarks hs₂.owners hs₂.bumps rfl
  have hlast := (noted_stopTimer { c₁ with plan := flipMarks p₂ } .prepare).trans
    (noted_log _ (.phaseEnd .prepare stopped.length))
  obtain ⟨⟨heap, chain, rfl, rfl⟩, hr, hpub⟩ := hstopped
  have hr' := hr.trans hmarks
  rw [hnoted.heap_eq] at hr'
  refine ⟨stopped, _, _, l', hprepare, hlen, hnoted.toAlike.trans ?_, hnoted.freed_eq,
    hnoted.metrics_eq, ?_, hpub, hs₃.noted hlast.toNoted⟩
  · exact ⟨rfl, rfl, rfl, rfl⟩
  · rw [hlast.heap_eq]
    exact hr'

end Collection

end Reclaim
