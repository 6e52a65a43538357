import Reclaim.Proofs.Freeing
import Reclaim.Proofs.Plan.Collecting

/-!
When a collection of a plan that counts frees objects: as it applies the decrements since the last
one, as it looks for cycles, and as it applies the decrements that garbage cycles leave behind. No
object is a candidate when it is freed.
-/
namespace Reclaim

open CountedHeap Counting Heap Queue Trial

variable {p : Plan} {mutators : List Mutator} {counts : CountState} {l l₀ : Layout}
variable {r : Finset Nat} {known : Set Nat} {base : Plan} {k : Census} {ext work : List Nat}
variable {roots : Chain Nat} {c c' : Collection} {m : Moment Heap} {o : Nat}

namespace Collection

def timed (c : Collection) : Timed Heap := { heap := c.plan.heap, clock := c.plan.clock }

-- The increment of cycle collection with which `c` goes on.
def increment (c : Collection) (counts : CountState) : Increment Heap where
  timed := c.timed
  collector := counts.cycles.setTimeCap c.plan.timeCap

-- The decrements are applied, and an increment starts as `i` that has to end by `deadline`.
def Starts (c : Collection) (deadline : Nat) (i : Increment Heap) : Prop :=
  ∃ counts c₁ counts₁ c₂, c.plan.counts = some counts ∧ c.processDecrements counts = .ok c₁ ∧
    c₁.plan.counts = some counts₁ ∧ c₁.enter .cycles = .ok c₂ ∧
    deadline = c₂.start + c₂.plan.timeCap ∧ i = c₂.increment counts₁

-- What happens to counts after the closure `c` comes to the moment.
inductive Frees (c : Collection) (m : Moment Heap) : Prop
  | decrements {counts : CountState} {c₁ : Collection} : c.plan.counts = some counts →
    c.enter .decrements = .ok c₁ →
    Counting.Frees (counts.oldRoots ++ counts.decrements.entries) counts.cycles c₁.timed m → Frees c m
  | cycles {deadline : Nat} {i : Increment Heap} : c.Starts deadline i → i.Frees deadline m → Frees c m
  | deferred {counts counts₁ counts₂ : CountState} {c₁ c₂ : Collection} {work : List Nat} :
    c.plan.counts = some counts → c.processDecrements counts = .ok c₁ →
    c₁.plan.counts = some counts₁ → c₁.processCycles counts₁ = .ok (work, c₂) →
    c₂.plan.counts = some counts₂ → Counting.Frees work counts₂.cycles c₂.startTimer.timed m → Frees c m

theorem freed_of_enter {phase : Phase} (h : c.enter phase = .ok c') : c'.freed = c.freed := by
  obtain ⟨pages, -, h⟩ := bind_eq_ok.mp h
  cases h
  rfl

theorem freed_of_release (h : c.release = .ok c') : c'.freed = c.freed := by
  obtain ⟨c₁, henter, h⟩ := bind_eq_ok.mp h
  obtain ⟨⟨workers, mature⟩, -, h⟩ := bind_eq_ok.mp h
  obtain ⟨p₁, -, h⟩ := bind_eq_ok.mp h
  have hlast := freed_of_enter henter
  split at h
  · obtain ⟨⟨n, p₂⟩, -, h⟩ := bind_eq_ok.mp h
    cases h
    exact hlast
  · obtain ⟨p₂, -, h⟩ := bind_eq_ok.mp h
    cases h
    exact hlast

theorem frees_of_applyDecrements {freed : Nat} (h : c.applyDecrements counts work = .ok (freed, c'))
    (ho : o ∈ c'.freed) :
    o ∈ c.freed ∨ ∃ m, Counting.Frees work counts.cycles c.timed m ∧ m.object = o := by
  obtain ⟨d, happly, h⟩ := bind_eq_ok.mp h
  cases h
  exact (List.mem_append.mp ho).imp_right fun hd => frees_of_mem happly (List.mem_reverse.mp hd)

theorem frees_of_processDecrements (h : c.processDecrements counts = .ok c') (ho : o ∈ c'.freed) :
    ∃ c₁, c.enter .decrements = .ok c₁ ∧ (o ∈ c₁.freed ∨ ∃ m, Counting.Frees
      (counts.oldRoots ++ counts.decrements.entries) counts.cycles c₁.timed m ∧ m.object = o) := by
  obtain ⟨c₁, henter, h⟩ := bind_eq_ok.mp h
  obtain ⟨⟨n, c₂⟩, happly, h⟩ := bind_eq_ok.mp h
  cases h
  have hfrees := frees_of_applyDecrements happly ho
  exact ⟨c₁, henter, hfrees⟩

theorem freed_of_processCycles {work : List Nat} (h : c.processCycles counts = .ok (work, c'))
    (ho : o ∈ c'.freed) : ∃ c₁, c.enter .cycles = .ok c₁ ∧ (o ∈ c₁.freed ∨
      ∃ available count out, (c₁.increment counts).collector.runUntil available count
        (c₁.start + c₁.plan.timeCap) c₁.timed = .ok out ∧ o ∈ out.freed) := by
  obtain ⟨c₁, henter, h⟩ := bind_eq_ok.mp h
  obtain ⟨pages, -, h⟩ := bind_eq_ok.mp h
  obtain ⟨out, hout, h⟩ := bind_eq_ok.mp h
  cases h
  rw [(noted_logCandidates _ _).freed_eq] at ho
  refine ⟨c₁, henter, (List.mem_append.mp ho).imp (fun ho => ?_) fun ho => ⟨_, _, out, hout, ho⟩⟩
  change o ∈ (logIncrement _ out).freed at ho
  rw [(noted_logIncrement _ out).freed_eq] at ho
  exact ho

end Collection

namespace Settling

variable {chain : Chain Nat}

theorem clear_of_frees (hs : Settling base l₀ k ext roots c.plan counts r work)
    (hm : Counting.Frees work counts.cycles c.timed m) : m.Clear :=
  Tally.clear_of_frees (lawful_keeps _ _) hs.tally hm

-- The increment of a collection starts in order.
theorem starts_ok (hcounts : c.plan.counts = some counts)
    (hs : Settling base l₀ k ext roots c.plan { counts with decrements := chain, oldRoots := [] } r
      (counts.oldRoots ++ counts.decrements.entries))
    (hchain : counts.decrements.drain.2 = chain) {deadline : Nat} {i : Increment Heap}
    (hi : c.Starts deadline i) : ∃ (counts' : CountState) (r' : Finset Nat) (cap : Nat),
      Tally (lawful base.heap l₀) k (ext.count ·) r' i.timed.heap (counts'.cycles.setTimeCap cap) [] ∧
      i = { timed := ⟨i.timed.heap, i.timed.clock⟩, collector := counts'.cycles.setTimeCap cap } ∧
      counts'.cycles.settings.visitGrain ≠ 0 ∧ counts'.cycles.settings.visitBound ≠ 0 ∧
      counts'.cycles.settings.filterBound ≠ 0 := by
  obtain ⟨counts₀, c₁, counts₁, c₂, hc, hrun, hc₁, henter, -, rfl⟩ := hi
  obtain rfl : counts = counts₀ := Option.some.inj (hcounts.symm.trans hc)
  obtain ⟨c₁', counts₁', r', hrun', -, hc₁', hs₁⟩ := Collection.processDecrements_ok hs hchain
  obtain rfl : c₁' = c₁ := Except.ok.inj (hrun'.symm.trans hrun)
  obtain rfl : counts₁' = counts₁ := Option.some.inj (hc₁'.symm.trans hc₁)
  obtain ⟨l, hsound⟩ := hs₁.sound
  obtain ⟨c₂', henter', hnoted⟩ := Collection.enter_ok hsound .cycles
  obtain rfl : c₂' = c₂ := Except.ok.inj (henter'.symm.trans henter)
  have hs₂ := hs₁.noted hnoted.toNoted
  exact ⟨counts₁', r', c₂'.plan.timeCap, hs₂.tally.setTimeCap _, rfl, hs₂.grain, hs₂.bound,
    hs₂.filterBound⟩

variable (hcounts : c.plan.counts = some counts)
variable (hs : Settling base l₀ k ext roots c.plan
  { counts with decrements := chain, oldRoots := [] } r (counts.oldRoots ++ counts.decrements.entries))
variable (hchain : counts.decrements.drain.2 = chain)
include hcounts hs hchain

-- Whatever is freed after a closure is no candidate.
theorem clear (hm : c.Frees m) : m.Clear := by
  cases hm with
  | @decrements counts₀ c₁ hc henter hm =>
    obtain rfl : counts = counts₀ := Option.some.inj (hcounts.symm.trans hc)
    obtain ⟨l, hsound⟩ := hs.sound
    obtain ⟨c₁', henter', hnoted⟩ := Collection.enter_ok hsound .decrements
    obtain rfl : c₁' = c₁ := Except.ok.inj (henter'.symm.trans henter)
    exact clear_of_frees (hs.noted hnoted.toNoted) hm
  | @cycles deadline i hi hm =>
    obtain ⟨counts', r', cap, htally, heq, h1, h2, h3⟩ := starts_ok hcounts hs hchain hi
    rw [heq] at hm
    exact htally.clear_of_increment h1 h2 h3 _ (lawful_keeps _ _) hm
  | @deferred counts₀ counts₁ counts₂ c₁ c₂ work hc hrun hc₁ hcycles hc₂ hm =>
    obtain rfl : counts = counts₀ := Option.some.inj (hcounts.symm.trans hc)
    obtain ⟨c₁', counts₁', r₁, hrun', -, hc₁', hs₁⟩ := Collection.processDecrements_ok hs hchain
    obtain rfl : c₁' = c₁ := Except.ok.inj (hrun'.symm.trans hrun)
    obtain rfl : counts₁' = counts₁ := Option.some.inj (hc₁'.symm.trans hc₁)
    obtain ⟨work', c₂', counts₂', r₂, hcycles', -, -, hc₂', hs₂⟩ := Collection.processCycles_ok hs₁
    cases hcycles'.symm.trans hcycles
    obtain rfl : counts₂' = counts₂ := Option.some.inj (hc₂'.symm.trans hc₂)
    exact clear_of_frees (hs₂.noted (Collection.noted_startTimer _).toNoted) hm

-- The increment of a collection leaves nothing to be freed.
theorem dead_of_starts {deadline available count : Nat} {i i' : Increment Heap} {aborted : Bool}
    (hi : c.Starts deadline i) (h : i.act available count deadline = .ok (aborted, i')) :
    i'.dead = [] := by
  obtain ⟨counts', r', cap, htally, heq, h1, h2, h3⟩ := starts_ok hcounts hs hchain hi
  rw [heq] at h
  exact htally.dead_of_act h1 h2 h3 _ h

-- All that is freed after a closure is freed at some moment.
theorem frees_of_mem (h : c.processCounts = .ok c') (ho : o ∈ c'.freed) :
    o ∈ c.freed ∨ ∃ m, c.Frees m ∧ m.object = o := by
  obtain ⟨c₁, counts₁, r₁, hrun₁, -, hcounts₁, hs₁⟩ := Collection.processDecrements_ok hs hchain
  obtain ⟨work, c₂, counts₂, r₂, hrun₂, -, -, hcounts₂, hs₂⟩ := Collection.processCycles_ok hs₁
  simp only [Collection.processCounts, hcounts, hrun₁, hcounts₁, ok_bind, hrun₂, hcounts₂] at h
  obtain ⟨⟨n, c₃⟩, happly, h⟩ := bind_eq_ok.mp h
  cases h
  rcases Collection.frees_of_applyDecrements happly ho with ho | ⟨m, hm, hobj⟩
  swap
  · exact Or.inr ⟨m, .deferred hcounts hrun₁ hcounts₁ hrun₂ hcounts₂ hm, hobj⟩
  obtain ⟨c₄, henter, ho | ⟨available, count, out, hout, ho⟩⟩ :=
    Collection.freed_of_processCycles hrun₂ ho
  swap
  · have hstarts : c.Starts (c₄.start + c₄.plan.timeCap) (c₄.increment counts₁) :=
      ⟨counts, c₁, counts₁, c₄, hcounts, hrun₁, hcounts₁, henter, rfl, rfl⟩
    obtain ⟨l₁, hsound₁⟩ := hs₁.sound
    obtain ⟨c₄', henter', hnoted⟩ := Collection.enter_ok hsound₁ .cycles
    obtain rfl : c₄' = c₄ := Except.ok.inj (henter'.symm.trans henter)
    have hs₄ := hs₁.noted hnoted.toNoted
    obtain ⟨m, hm, hobj⟩ := (hs₄.tally.setTimeCap c₄'.plan.timeCap).frees_of_increment hs₄.grain
      hs₄.bound hs₄.filterBound c₄'.plan.clock hout ho
    exact Or.inr ⟨m, .cycles hstarts hm, hobj⟩
  rw [Collection.freed_of_enter henter] at ho
  obtain ⟨c₅, henter, ho | ⟨m, hm, hobj⟩⟩ := Collection.frees_of_processDecrements hrun₁ ho
  · exact Or.inl (Collection.freed_of_enter henter ▸ ho)
  · exact Or.inr ⟨m, .decrements hcounts henter hm, hobj⟩

end Settling

namespace Plan

-- A collection of the plan comes to the moment.
def Frees (p : Plan) (mutators : List Mutator) (m : Moment Heap) : Prop :=
  ∃ c, p.Closes mutators c ∧ c.Frees m

-- The increment that a collection of the plan makes ends as `i`.
def Ends (p : Plan) (mutators : List Mutator) (i : Increment Heap) : Prop :=
  ∃ c deadline i₀ available count aborted, p.Closes mutators c ∧ c.Starts deadline i₀ ∧
    i₀.act available count deadline = .ok (aborted, i)

variable (hs : Standing p mutators counts l r [] known)
variable (hmax : ∀ x ∈ r, CountedHeap.count p.heap x + p.rootRefs.count x < 2 ^ 56)
include hs hmax

-- The closure leaves the counts to be settled.
theorem settling_of_closes (hc : p.Closes mutators c) :
    ∃ (base : Plan) (l₀ : Layout) (k : Census) (ext : List Nat) (roots : Chain Nat)
      (counts' : CountState), c.plan.counts = some counts' ∧ c.freed = [] ∧
      Settling base l₀ k ext roots c.plan
        { counts' with decrements := counts'.decrements.drain.2, oldRoots := [] } r
        (counts'.oldRoots ++ counts'.decrements.entries) := by
  obtain ⟨c₁, stopped, c₂, hbegin, hprepare, hclose⟩ := hc
  obtain ⟨c₁', hbegin', hnoted, hfreed₁, -⟩ := Collection.begin_ok hs.populated.sound
  obtain rfl : c₁' = c₁ := Except.ok.inj (hbegin'.symm.trans hbegin)
  obtain ⟨stopped', c₂', counts₂, l₂, hprepare', -, halike, hfreed₂, -, hrearr, hheld, hs₂⟩ :=
    Collection.prepare_ok (hs.noted hnoted)
  obtain ⟨rfl, rfl⟩ : stopped' = stopped ∧ c₂' = c₂ :=
    Prod.mk.inj (Except.ok.inj (hprepare'.symm.trans hprepare))
  have hpruned : Pruned p.heap l c₂'.plan.heap l₂ := hnoted.heap_eq ▸ .of_rearranged hrearr
  have hroots : c₂'.plan.rootRefs = p.rootRefs :=
    (hnoted.toAlike.trans halike).rootRefs_eq
      (hrearr.memory_eq.trans (congrArg Heap.memory hnoted.heap_eq)) hpruned.inCountedSpace_eq
  have hmax₂ : ∀ x ∈ r, CountedHeap.count c₂'.plan.heap x + c₂'.plan.rootRefs.count x < 2 ^ 56 :=
    fun x hx => by
      rw [hroots, CountedHeap.count, hrearr.status_eq, hnoted.heap_eq]
      exact hmax x hx
  rcases Collection.close_yields hs₂ hmax₂ with
    ⟨c', hclose', p₂, p₃, rs, -, hg, -, hnoted₃, hfreed₃, -⟩ | ⟨-, f, hf, -⟩
  · obtain rfl : c' = c := Except.ok.inj (hclose'.symm.trans hclose)
    obtain ⟨chain, hcounts, -, -, -, hsettling⟩ := hg.settling fun m hm => (hheld m hm).1
    exact ⟨p₃, l₂, _, _, chain, _, hnoted₃.counts_eq.trans hcounts,
      hfreed₃.trans (hfreed₂.trans hfreed₁), hsettling.noted hnoted₃⟩
  · rw [hf] at hclose
    cases hclose

-- No object is a candidate when it is freed.
theorem clear_of_frees (hm : p.Frees mutators m) : m.Clear := by
  obtain ⟨c, hc, hm⟩ := hm
  obtain ⟨base, l₀, k, ext, roots, counts', hcounts, -, hsettling⟩ := settling_of_closes hs hmax hc
  exact hsettling.clear hcounts rfl hm

-- No increment leaves anything to be freed.
theorem dead_of_ends {i : Increment Heap} (hi : p.Ends mutators i) : i.dead = [] := by
  obtain ⟨c, deadline, i₀, available, count, aborted, hc, hstarts, hact⟩ := hi
  obtain ⟨base, l₀, k, ext, roots, counts', hcounts, -, hsettling⟩ := settling_of_closes hs hmax hc
  exact hsettling.dead_of_starts hcounts rfl hstarts hact

-- All that a collection frees it frees at some moment.
theorem frees_of_mem {stopped : List Mutator} (h : Collection.run p mutators = .ok (stopped, c))
    (ho : o ∈ c.freed) : ∃ m, p.Frees mutators m ∧ m.object = o := by
  obtain ⟨c₁, hbegin, h⟩ := bind_eq_ok.mp h
  obtain ⟨⟨stopped', c₂⟩, hprepare, h⟩ := bind_eq_ok.mp h
  obtain ⟨c₃, hclose, h⟩ := bind_eq_ok.mp h
  obtain ⟨c₄, hprocess, h⟩ := bind_eq_ok.mp h
  obtain ⟨c₅, hrelease, h⟩ := bind_eq_ok.mp h
  cases h
  have hc : p.Closes mutators c₃ := ⟨c₁, stopped, c₂, hbegin, hprepare, hclose⟩
  obtain ⟨base, l₀, k, ext, roots, counts', hcounts, hnone, hsettling⟩ :=
    settling_of_closes hs hmax hc
  rw [Collection.freed_of_release hrelease] at ho
  rcases hsettling.frees_of_mem hcounts rfl hprocess ho with ho | ⟨m, hm, hobj⟩
  · rw [hnone] at ho
    cases ho
  · exact ⟨m, ⟨c₃, hc, hm⟩, hobj⟩

end Plan

end Reclaim
