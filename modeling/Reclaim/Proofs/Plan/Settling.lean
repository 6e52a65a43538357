import Reclaim.Proofs.Plan.Closure
import Reclaim.Proofs.Plan.Phases

/-!
What a plan that counts does after the closure: it applies decrements, looks for cycles and gives empty
blocks back. The account is kept all the way, so nothing that is still referenced is freed.
-/
namespace Reclaim

open CountedHeap Counting Heap Queue Sizes Trial

-- `base` is the plan after the closure, with the counted objects and their references in `k`. `r` are
-- the objects that are left, `ext` lists the references from outside that stay, `work` those that are
-- to be taken away, and `roots` has the roots that the closure counted.
structure Settling (base : Plan) (l₀ : Layout) (k : Census) (ext : List Nat) (roots : Chain Nat)
    (p : Plan) (counts : CountState) (r : Finset Nat) (work : List Nat) : Prop where
  alike : base.Alike p
  queues : p.queues.Idle base.buffer
  tally : Tally (lawful base.heap l₀) k (ext.count ·) r p.heap counts.cycles work
  tended : Counting.Tended k p.heap r counts.cycles
  decrements : counts.decrements.Valid ∧ counts.decrements.entries = []
  newRoots_eq : counts.newRoots = roots
  oldRoots_eq : counts.oldRoots = []
  grain : counts.cycles.settings.visitGrain ≠ 0
  bound : counts.cycles.settings.visitBound ≠ 0
  filterBound : counts.cycles.settings.filterBound ≠ 0

variable {base p p' : Plan} {l₀ : Layout} {k : Census} {ext work rs : List Nat} {roots : Chain Nat}
variable {counts : CountState} {r : Finset Nat} {c : Collection}

namespace Settling

theorem noted (hs : Settling base l₀ k ext roots p counts r work) (h : p.Noted p') :
    Settling base l₀ k ext roots p' counts r work where
  alike := hs.alike.trans h.toAlike
  queues := h.queues_eq ▸ hs.queues
  tally := h.heap_eq ▸ hs.tally
  tended := h.heap_eq ▸ hs.tended
  decrements := hs.decrements
  newRoots_eq := hs.newRoots_eq
  oldRoots_eq := hs.oldRoots_eq
  grain := hs.grain
  bound := hs.bound
  filterBound := hs.filterBound

-- Decrements were applied or garbage was found.
theorem settle (hs : Settling base l₀ k ext roots p counts r work) {heap : Heap} {clock : Clock}
    {cycles : Collector} {r' : Finset Nat} {work' : List Nat}
    (htally : Tally (lawful base.heap l₀) k (ext.count ·) r' heap cycles work')
    {cap : Nat} (hsettings : cycles.settings = { counts.cycles.settings with timeCap := cap })
    (htended : Counting.Tended k heap r' cycles) :
    Settling base l₀ k ext roots
      { p with heap, clock, counts := some { counts with cycles } } { counts with cycles } r' work' where
  alike := hs.alike.trans ⟨rfl, rfl, rfl, rfl⟩
  queues := hs.queues
  tally := htally
  tended := htended
  decrements := hs.decrements
  newRoots_eq := hs.newRoots_eq
  oldRoots_eq := hs.oldRoots_eq
  grain := by rw [hsettings]; exact hs.grain
  bound := by rw [hsettings]; exact hs.bound
  filterBound := by rw [hsettings]; exact hs.filterBound

theorem rolled (hs : Settling base l₀ k ext roots p counts r work) :
    ∃ l, p.heap.Sound l ∧ Roll p.heap l r := by
  obtain ⟨l, hshown⟩ := hs.tally.account.shows
  exact ⟨l, hshown.trimmed.sound, hshown.roll⟩

theorem sound (hs : Settling base l₀ k ext roots p counts r work) : ∃ l, p.heap.Sound l :=
  hs.rolled.imp fun _ h => h.1

end Settling

namespace Collection

-- What `r'` has lost of `r` was freed on the way from `c` to `c'`, and counted.
def Freed (r : Finset Nat) (c : Collection) (r' : Finset Nat) (c' : Collection) : Prop :=
  ∃ more, c'.freed = c.freed ++ more ∧ Parted r r' more ∧
    c'.metrics.freed = c.metrics.freed + more.length ∧ c'.metrics.copied = c.metrics.copied

theorem Noted.freed {c c' : Collection} (h : c.Noted c') (r : Finset Nat) : Freed r c r c' :=
  ⟨[], by rw [h.freed_eq, List.append_nil], .refl r, congrArg _ h.metrics_eq, congrArg _ h.metrics_eq⟩

theorem Freed.trans {r₁ r₂ r₃ : Finset Nat} {c₁ c₂ c₃ : Collection} (h : Freed r₁ c₁ r₂ c₂)
    (h' : Freed r₂ c₂ r₃ c₃) : Freed r₁ c₁ r₃ c₃ := by
  obtain ⟨more, heq, hp, hfreed, hcopied⟩ := h
  obtain ⟨more', heq', hp', hfreed', hcopied'⟩ := h'
  exact ⟨more ++ more', by rw [heq', heq, List.append_assoc], hp.trans hp',
    by rw [hfreed', hfreed, List.length_append, Nat.add_assoc], hcopied'.trans hcopied⟩

theorem applyDecrements_ok (hs : Settling base l₀ k ext roots c.plan counts r work) :
    ∃ freed c' counts' r', c.applyDecrements counts work = .ok (freed, c') ∧ Freed r c r' c' ∧
      c'.metrics.cycles = c.metrics.cycles ∧ c'.plan.counts = some counts' ∧ Settling base l₀ k ext roots c'.plan counts' r' [] := by
  obtain ⟨d, r', hrun, hparted, htally, hsettings, htended⟩ :=
    hs.tally.apply (lawful_keeps _ _) (t := ⟨c.plan.heap, c.plan.clock⟩)
  let counts' : CountState := { counts with cycles := d.collector }
  let p' : Plan := { c.plan with
    heap := d.timed.heap, clock := d.timed.clock, counts := some counts' }
  let metrics := { c.metrics with decrements := c.metrics.decrements + d.applied }
  have happly : c.applyDecrements counts work =
      .ok (d.freed.length,
        Collection.freedObjects { c with plan := p', metrics } d.freed.reverse) := by
    simp only [applyDecrements, hrun, ok_bind]
    rfl
  have hfreed : Freed r c r'
      (Collection.freedObjects { c with plan := p', metrics } d.freed.reverse) :=
    ⟨_, rfl, hparted.perm d.freed.reverse_perm.symm, rfl, rfl⟩
  exact ⟨_, _, counts', r', happly, hfreed, rfl, rfl, hs.settle htally hsettings (htended hs.tended)⟩

-- The roots of the last collection are given up, and the decrements since are applied.
theorem processDecrements_ok {chain : Chain Nat}
    (hs : Settling base l₀ k ext roots c.plan
      { counts with decrements := chain, oldRoots := [] } r
      (counts.oldRoots ++ counts.decrements.entries))
    (hchain : counts.decrements.drain.2 = chain) :
    ∃ c' counts' r', c.processDecrements counts = .ok c' ∧ Freed r c r' c' ∧
      c'.plan.counts = some counts' ∧ Settling base l₀ k ext roots c'.plan counts' r' [] := by
  obtain ⟨l, hsound⟩ := hs.sound
  obtain ⟨c₁, henter, hnoted⟩ := enter_ok hsound .decrements
  obtain ⟨freed, c₂, counts', r', happly, hfreed, -, hcounts, hs₂⟩ :=
    applyDecrements_ok (hs.noted hnoted.toNoted)
  have hlast := (noted_stopTimer c₂ .decrements).trans
    (noted_log _ (.phaseEnd .decrements freed))
  have hrun : c.processDecrements counts =
      .ok ((c₂.stopTimer .decrements).log (.phaseEnd .decrements freed)) := by
    subst hchain
    simp only [processDecrements, henter, ok_bind, Chain.drain] at happly ⊢
    rw [happly]
    rfl
  exact ⟨_, counts', r', hrun, ((hnoted.freed r).trans hfreed).trans (hlast.freed r'),
    hlast.counts_eq.trans hcounts, hs₂.noted hlast.toNoted⟩

-- An increment of cycle collection leaves decrements.
theorem processCycles_ok (hs : Settling base l₀ k ext roots c.plan counts r []) :
    ∃ deferred c' counts' r', c.processCycles counts = .ok (deferred, c') ∧ Freed r c r' c' ∧
      c'.metrics.cycles.freed + r'.card = r.card ∧ c'.plan.counts = some counts' ∧
      Settling base l₀ k ext roots c'.plan counts' r' deferred := by
  obtain ⟨l, hsound⟩ := hs.sound
  obtain ⟨c₁, henter, hnoted⟩ := enter_ok hsound .cycles
  have hs₁ := hs.noted hnoted.toNoted
  obtain ⟨pages, hpages⟩ := (hnoted.heap_eq ▸ hsound : c₁.plan.heap.Sound l).pagesReserved_ok
  obtain ⟨o, r', hrun, hparted, hstats, htally, hsettings, htended⟩ :=
    (hs₁.tally.setTimeCap c₁.plan.timeCap).runUntil (lawful_keeps _ _) c₁.plan.clock hs.grain
      hs.bound hs.filterBound (c₁.plan.config.heapPages - pages) c₁.plan.collections
      (c₁.start + c₁.plan.timeCap)
  let counts' : CountState := { counts with cycles := o.collector }
  let c₂ : Collection := { c₁ with plan := { c₁.plan with
    heap := o.timed.heap, clock := o.timed.clock, counts := some counts' } }
  let c₃ := (c₂.logIncrement o).stopTimer .cycles
  let c₄ := Collection.freedObjects { c₃ with metrics := { c₃.metrics with
    cycles := o.collector.stats, progress := some o.progress } } o.freed
  let c₅ := c₄.log (.phaseEnd .cycles o.freed.length)
  have hprocess : c.processCycles counts = .ok (o.deferred, c₅.logCandidates o) := by
    simp only [processCycles, henter, ok_bind, Plan.pagesAvailable, Plan.pagesReserved, hpages, hrun]
    rfl
  have h₃ : c₂.Noted c₃ := (noted_logIncrement c₂ o).trans (noted_stopTimer _ _)
  have h₅ : c₄.Noted (c₅.logCandidates o) := (noted_log c₄ _).trans (noted_logCandidates c₅ o)
  have h₄ : Freed r c₃ r' c₄ := ⟨o.freed, rfl, hparted, rfl, rfl⟩
  have hlast : c₂.plan.Noted (c₅.logCandidates o).plan :=
    h₃.toNoted.trans ((⟨⟨rfl, rfl, rfl, rfl⟩, rfl, rfl, rfl⟩ : c₃.plan.Noted c₄.plan).trans h₅.toNoted)
  have hs₂ : Settling base l₀ k ext roots c₂.plan counts' r' o.deferred :=
    hs₁.settle htally hsettings (htended hs₁.tended)
  have hfreed : Freed r c₁ r c₂ := ⟨[], (List.append_nil _).symm, .refl r, rfl, rfl⟩
  have hcycles : (c₅.logCandidates o).metrics.cycles.freed + r'.card = r.card := by
    rw [h₅.metrics_eq, hparted.card_eq, Nat.add_comm]
    exact congrArg _ hstats
  exact ⟨_, _, counts', r', hprocess,
    (((hnoted.freed r).trans hfreed).trans (h₃.freed r)).trans (h₄.trans (h₅.freed r')), hcycles,
    hlast.counts_eq, hs₂.noted hlast⟩

-- After the closure `c`, an increment of cycle collection leads from `d` to `d'`.
def Increments (c d d' : Collection) : Prop :=
  ∃ counts counts' deferred, c.plan.counts = some counts ∧ c.processDecrements counts = .ok d ∧
    d.plan.counts = some counts' ∧ d.processCycles counts' = .ok (deferred, d')

-- The processing of counts has led from `c` to `c'`. It tells what it has freed, and how much of that the
-- increment has freed.
structure Processed (r : Finset Nat) (c : Collection) (r' : Finset Nat) (c' : Collection) : Prop where
  freed : Freed r c r' c'
  cycles_le : c'.metrics.cycles.freed ≤ c'.metrics.freed
  increment : ∃ d d' r₁ r₂, c.Increments d d' ∧ Freed r₁ d r₂ d' ∧
    (∃ l, d.plan.heap.Sound l ∧ Roll d.plan.heap l r₁) ∧
    (∃ l, d'.plan.heap.Sound l ∧ Roll d'.plan.heap l r₂) ∧ c'.metrics.cycles.freed + r₂.card = r₁.card

theorem Processed.congr {r r' : Finset Nat} {c c₁ c₂ : Collection} (h : Processed r c r' c₁)
    (hfreed : c₂.freed = c₁.freed) (hmetrics : c₂.metrics = c₁.metrics) : Processed r c r' c₂ where
  freed := by
    obtain ⟨more, h1, h2, h3, h4⟩ := h.freed
    exact ⟨more, hfreed.trans h1, h2, hmetrics ▸ h3, hmetrics ▸ h4⟩
  cycles_le := hmetrics ▸ h.cycles_le
  increment := hmetrics ▸ h.increment

-- All that happens to counts after the closure.
theorem processCounts_ok {chain : Chain Nat} (hcounts : c.plan.counts = some counts)
    (hs : Settling base l₀ k ext roots c.plan
      { counts with decrements := chain, oldRoots := [] } r
      (counts.oldRoots ++ counts.decrements.entries))
    (hchain : counts.decrements.drain.2 = chain) :
    ∃ c' counts' r', c.processCounts = .ok c' ∧ Processed r c r' c' ∧
      c'.plan.counts = some counts' ∧ Settling base l₀ k ext roots c'.plan counts' r' [] := by
  obtain ⟨c₁, counts₁, r₁, hrun₁, hfreed₁, hcounts₁, hs₁⟩ := processDecrements_ok hs hchain
  obtain ⟨deferred, c₂, counts₂, r₂, hrun₂, hfreed₂, hcycles₂, hcounts₂, hs₂⟩ := processCycles_ok hs₁
  have hs₂' := hs₂.noted (noted_startTimer c₂).toNoted
  obtain ⟨freed, c₃, counts₃, r₃, hrun₃, hfreed₃, hcycles₃, hcounts₃, hs₃⟩ := applyDecrements_ok hs₂'
  have hlast := noted_stopTimer c₃ .decrements
  have hcycles : (c₃.stopTimer .decrements).metrics.cycles = c₂.metrics.cycles := hcycles₃
  have hafter := ((noted_startTimer c₂).freed r₂).trans (hfreed₃.trans (hlast.freed r₃))
  refine ⟨_, counts₃, r₃, ?_, ⟨(hfreed₁.trans hfreed₂).trans hafter, ?_, c₁, c₂, r₁, r₂,
    ⟨counts, counts₁, deferred, hcounts, hrun₁, hcounts₁, hrun₂⟩, hfreed₂, hs₁.rolled, hs₂.rolled, ?_⟩,
    hlast.counts_eq.trans hcounts₃, hs₃.noted hlast.toNoted⟩
  · simp only [processCounts, hcounts, hrun₁, hcounts₁, ok_bind, hrun₂, hcounts₂, hrun₃]
  · obtain ⟨freed₂, -, hparted, htold, -⟩ := hfreed₂
    obtain ⟨freed₃, -, -, htold₃, -⟩ := hafter
    rw [hparted.card_eq] at hcycles₂
    rw [hcycles, htold₃, htold]
    omega
  · rw [hcycles]
    exact hcycles₂

end Collection

end Reclaim
