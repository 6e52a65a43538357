import Reclaim.Proofs.Plan.Settling

/-!
A whole collection of a plan that counts references. It ends, and what can be reached from the roots or
from immortal objects is as it was.
-/
namespace Reclaim

open CountedHeap Counting Heap Queue Sizes Trial

-- What a collection leaves of a heap: objects that are still there have all words but the status word
-- as they were.
structure Pruned (h : Heap) (l : Layout) (h' : Heap) (l' : Layout) : Prop where
  types_eq : h'.types = h.types
  spaceOf?_eq : ∀ a, h'.spaceOf? a = h.spaceOf? a
  immortals_eq : l'.immortals = l.immortals
  room : ∀ kind o bytes, Room h' l' kind o bytes → Room h l kind o bytes
  word : ∀ kind o bytes, Room h' l' kind o bytes → ∀ a, o < a → a < o + bytes →
    h'.memory.read a = h.memory.read a
  frame : ∀ a, h.inCountedSpace a = false → h'.memory.read a = h.memory.read a

namespace Pruned

variable {h h₁ h₂ : Heap} {l l₁ l₂ : Layout}

theorem inCountedSpace_eq (hp : Pruned h l h₁ l₁) (a : Nat) :
    h₁.inCountedSpace a = h.inCountedSpace a :=
  inCountedSpace_congr hp.spaceOf?_eq a

theorem trans (hp : Pruned h l h₁ l₁) (hp' : Pruned h₁ l₁ h₂ l₂) : Pruned h l h₂ l₂ where
  types_eq := hp'.types_eq.trans hp.types_eq
  spaceOf?_eq a := (hp'.spaceOf?_eq a).trans (hp.spaceOf?_eq a)
  immortals_eq := hp'.immortals_eq.trans hp.immortals_eq
  room _ _ _ hr := hp.room _ _ _ (hp'.room _ _ _ hr)
  word _ _ _ hr a h1 h2 := (hp'.word _ _ _ hr a h1 h2).trans
    (hp.word _ _ _ (hp'.room _ _ _ hr) a h1 h2)
  frame a ha := (hp'.frame a (hp.inCountedSpace_eq a ▸ ha)).trans (hp.frame a ha)

-- What is still there is the object that it was.
theorem same (hp : Pruned h l h₁ l₁) (hb : h.Populated l) {kind : SpaceKind} {o bytes : Nat}
    (hr : Room h₁ l₁ kind o bytes) :
    Object.Formed h₁.types h₁.memory o bytes ∧ h₁.refs o = h.refs o := by
  have hword : ∀ a, a % wordBytes = 0 → o < a → a < o + bytes → h₁.memory.read a = h.memory.read a :=
    fun a _ h1 h2 => hp.word _ _ _ hr a h1 h2
  have hcongr := (hb.formed _ _ _ (hp.room _ _ _ hr)).congr hword
  rw [refs, hp.types_eq]
  exact ⟨hcongr.1, hcongr.2.2⟩

theorem of_rearranged (hr : Rearranged h l h₁ l₁) : Pruned h l h₁ l₁ where
  types_eq := hr.types_eq
  spaceOf?_eq := hr.spaceOf?_eq
  immortals_eq := by rw [Layout.immortals, hr.rooms_eq, Layout.immortals]
  room _ _ _ := (hr.room_iff _ _ _).mp
  word _ _ _ _ _ _ _ := by rw [hr.memory_eq]
  frame _ _ := by rw [hr.memory_eq]

theorem of_trimmed (ht : Trimmed h l h₁ l₁) : Pruned h l h₁ l₁ where
  types_eq := ht.types_eq
  spaceOf?_eq := ht.spaceOf?_eq
  immortals_eq := by rw [Layout.immortals, ht.plots_eq.2, Layout.immortals]
  room := ht.room
  word := ht.word
  frame := ht.frame

-- Status words of counted objects change.
theorem of_status {r : Finset Nat} {m : Memory} (hs : h.Sound l) (hroll : Roll h l r)
    (hm : ∀ a, a ∉ r → m.read a = h.memory.read a) : Pruned h l { h with memory := m } l := by
  have hroom : ∀ {o}, o ∈ r → ∃ kind bytes, kind.isCounted = true ∧ Room h l kind o bytes :=
    fun ho => (hroll _).mp ho
  obtain ⟨-, hrooms⟩ := hs.setMemory (m := m) fun a kind ha hout => hm a fun har => by
    obtain ⟨kind', bytes, -, hr⟩ := hroom har
    exact hout (hs.inside_start hr ha)
  refine ⟨rfl, fun _ => rfl, rfl, fun kind o bytes => (hrooms _ _ _).mp,
    fun kind o bytes hr a h1 h2 => hm a fun har => ?_, fun a ha => hm a fun har => ?_⟩
  · -- no room begins inside of another one
    obtain ⟨kind', bytes', -, hr'⟩ := hroom har
    rcases hs.room_apart ((hrooms _ _ _).mp hr) hr' with ⟨-, rfl, -⟩ | h3 | h3 <;> omega
  · obtain ⟨kind', bytes', hk, hr'⟩ := hroom har
    rw [hs.inCountedSpace_room hr', hk] at ha
    cases ha

end Pruned

-- What a root leads to.
def Root.target (m : Memory) : Root → Nat
  | .location slot => m.read slot
  | .interior base _ => base
  | .value o => o

theorem Root.counted_eq (h : Heap) (root : Root) :
    root.counted h = h.countedRef (root.target h.memory) := by
  cases root <;> rfl

-- The same roots lead to the same objects.
theorem Plan.Alike.rootRefs_eq {p p' : Plan} (h : p.Alike p')
    (hmemory : p'.heap.memory = p.heap.memory)
    (hspace : ∀ a, p'.heap.inCountedSpace a = p.heap.inCountedSpace a) :
    p'.rootRefs = p.rootRefs := by
  rw [Plan.rootRefs, Plan.rootRefs, h.roots_eq]
  refine List.flatMap_congr fun root _ => ?_
  rw [Root.counted_eq, Root.counted_eq, hmemory, countedRef, countedRef, hspace]

theorem Plan.Noted.rootRefs_eq {p p' : Plan} (h : p.Noted p') : p'.rootRefs = p.rootRefs :=
  h.toAlike.rootRefs_eq (congrArg Heap.memory h.heap_eq) fun a => by rw [h.heap_eq]

-- References lead from a root or from one of the objects `immortals` to the object.
inductive Plan.Reaches (p : Plan) (immortals : List Nat) : Nat → Prop
  | root {root : Root} : root ∈ p.roots → root.target p.memory ≠ 0 →
    p.Reaches immortals (root.target p.memory)
  | immortal {o : Nat} : o ∈ immortals → p.Reaches immortals o
  | field {o x : Nat} {refs : List Nat} : p.Reaches immortals o → p.heap.references o = .ok refs →
    x ∈ refs → p.Reaches immortals x

variable {p p' base : Plan} {m m' : Mutator} {mutators stopped : List Mutator}
variable {counts : CountState} {l l' l₀ : Layout} {r : Finset Nat} {hand rs ext work : List Nat}
variable {known : Set Nat} {o : Nat} {k : Census} {roots : Chain Nat} {c : Collection}

-- A root that leads anywhere leads to a known object.
theorem Plan.Rooted.target_mem (hs : Standing p mutators counts l r hand known) {root : Root}
    (hroot : root ∈ p.roots) (hne : root.target p.memory ≠ 0) : root.target p.memory ∈ known := by
  have hleads := hs.rooted.leads root hroot
  cases root with
  | location slot => exact hleads.2.resolve_left hne
  | interior base slot => exact hleads.2.1
  | value o => exact hleads

namespace Standing

-- What can be reached is an immortal object or hangs on references that a collection keeps.
theorem of_reaches (hs : Standing p mutators counts l r [] known) {base : Plan} {counts' : CountState}
    (hp : Pruned p.heap l base.heap l₀) (hs₀ : Standing base stopped counts' l₀ r rs known)
    (hroots : p.rootRefs ⊆ rs) (ho : p.Reaches l.immortals o) :
    o ∈ l₀.immortals ∨ Anchored base.heap (l₀.immortals.flatMap base.heap.refs ++ rs) o := by
  induction ho with
  | @root root hroot hne =>
    refine (hs.of_known (Plan.Rooted.target_mem hs hroot hne)).symm.imp
      (fun h => hp.immortals_eq ▸ h.1) fun h => .of_mem (List.mem_append_right _ ?_) ?_
    · refine hroots (List.mem_flatMap.mpr ⟨root, hroot, ?_⟩)
      have hc : p.heap.inCountedSpace (root.target p.heap.memory) = true := h.2.2
      rw [Root.counted_eq, countedRef, if_pos hc]
      exact List.mem_singleton_self _
    · rw [hp.inCountedSpace_eq]
      exact h.2.2
  | immortal ho => exact Or.inl (hp.immortals_eq ▸ ho)
  | @field a x refs _ hrefs hx ih =>
    have hkept : ∀ y ∈ l₀.immortals.flatMap base.heap.refs ++ rs,
        y ∈ rs ++ outside base.heap l₀.immortals counts' stopped := fun y hy => by
      simp only [outside, List.mem_append] at hy ⊢
      exact hy.symm.imp_right fun h => Or.inl (Or.inl (Or.inl h))
    obtain ⟨kind, bytes, hroom⟩ : ∃ kind bytes, Room base.heap l₀ kind a bytes := by
      rcases ih with hi | ha
      · obtain ⟨bytes, hroom⟩ := (mem_immortals (p := base)).mp hi
        exact ⟨_, _, hroom⟩
      · have hall : Anchored base.heap (rs ++ outside base.heap l₀.immortals counts' stopped) a :=
          ha.mono hs₀.books hkept hkept (fun _ => rfl) fun _ _ => rfl
        have hlive := hs₀.books.live_of_anchored hall
        obtain ⟨kind, bytes, -, hroom⟩ := hs₀.room_of_mem (mem_live.mp hlive).1
        exact ⟨kind, bytes, hroom⟩
    have hx : x ∈ base.heap.refs a := by
      rw [hs.populated.references_ok (hp.room _ _ _ hroom)] at hrefs
      rw [(hp.same hs.populated hroom).2, Except.ok.inj hrefs]
      exact hx
    rcases hs₀.inner _ _ _ hroom x hx with hc | hi
    · right
      rcases ih with hi | ha
      · exact .of_mem (List.mem_append_left _ (List.mem_flatMap.mpr ⟨a, hi, hx⟩)) hc
      · exact ha.tail ⟨hx, hc⟩
    · exact Or.inl hi

end Standing

-- The closure hands over to the processing of counts.
theorem Gathered.settling (hg : Gathered p stopped counts l r known p' rs)
    (hheld : ∀ m ∈ stopped, m.decrements = {}) :
    ∃ chain, p'.counts = some { counts with newRoots := chain } ∧ chain.Valid ∧
      chain.Sized p'.buffer 1 ∧ chain.entries.Perm rs ∧
      Settling p' l (p'.heap.census r) (l.immortals.flatMap p'.heap.refs ++ rs) chain p'
        { counts with newRoots := chain, decrements := counts.decrements.drain.2, oldRoots := [] } r
        (counts.oldRoots ++ counts.decrements.entries) := by
  obtain ⟨chain, hchain, hvalid, hsized, hperm⟩ := hg.newRoots
  obtain ⟨clock, events, heq⟩ := hg.plan_eq
  have hs := hg.counted.standing
  have hheap : p'.heap = { p.heap with memory := p'.memory } := congrArg Plan.heap heq
  have hbuffer : p'.buffer = p.buffer := by
    rw [Plan.buffer, heq, Plan.buffer]
  have hpop : p'.heap.Populated l := hheap ▸ hs.populated
  have haligned : p'.heap.Aligned l := hheap ▸ hs.aligned
  have hroll : Roll p'.heap l r := hheap ▸ hs.roll
  have hbooks : Books p'.heap r (rs ++ outside p'.heap l.immortals counts stopped)
      counts.cycles := hheap ▸ hs.books
  have htended : Tended p'.heap r counts.cycles := hheap ▸ hs.tended
  have hnone : stopped.flatMap (·.decrements.held) = [] := List.flatMap_eq_nil_iff.mpr fun m hm => by
    rw [hheld m hm]
    rfl
  have htally := hbooks.tally hpop haligned (.refl hpop.sound hs.reached_eq) hroll
  refine ⟨chain, hchain, hvalid, hbuffer ▸ hsized, hperm, ⟨⟨rfl, rfl, rfl, rfl⟩, hbuffer ▸ hg.queues,
    htally.owe fun x => ?_, (tended_iff (fun x _ => (Books.isGreen_census _ _ _).symm)
      fun _ _ => rfl).mp htended, hs.decrements.drain, rfl, rfl, hs.grain, hs.bound,
    hs.filterBound⟩⟩
  simp only [outside, hnone, List.append_nil, List.count_append]
  omega

-- What is left when empty blocks were given back.
structure Reclaimed (base : Heap) (l₀ : Layout) (ext : List Nat) (h : Heap) (l : Layout)
    (r : Finset Nat) (c : Collector) : Prop where
  trimmed : Trimmed base l₀ h l
  roll : Roll h l r
  books : Books h r ext c
  tended : Tended h r c

theorem Settling.reclaim (hs : Settling base l₀ k ext roots p counts r []) :
    ∃ stats mature memory l, p.heap.mature.reclaim p.heap.memory = .ok (stats, mature, memory) ∧
      Reclaimed base.heap l₀ ext { p.heap with mature, memory } l r counts.cycles := by
  obtain ⟨l, hshown, hbooks⟩ := Books.of_tally hs.tally
  obtain ⟨stats, mature, memory, hrun, ht, hrooms, hstatus⟩ := hshown.trimmed.reclaim
  have hroom : ∀ {x}, x ∈ r → ∃ kind bytes, kind.isCounted = true ∧ Room p.heap l kind x bytes :=
    fun hx => (hshown.roll _).mp hx
  have hsame : ∀ x ∈ r, status { p.heap with mature, memory } x = status p.heap x := fun x hx => by
    obtain ⟨kind, bytes, -, hr⟩ := hroom hx
    exact hstatus _ _ _ hr
  have hrefs : ∀ x ∈ r, refs { p.heap with mature, memory } x = p.heap.refs x := fun x hx => by
    obtain ⟨kind, bytes, -, hr⟩ := hroom hx
    exact (ht.same hshown.populated ((hrooms _ _ _).mpr hr)).2.trans
      (hshown.trimmed.same hshown.populated hr).2.symm
  have htended : Tended p.heap r counts.cycles :=
    (tended_iff hs.tally.account.green_iff fun x hx => hshown.refs_eq hx).mpr hs.tended
  refine ⟨stats, mature, memory, l, hrun, ht, fun x => ?_, ?_, ?_⟩
  · exact (hshown.roll x).trans (exists_congr fun kind => exists_congr fun bytes =>
      and_congr_right fun _ => (hrooms kind x bytes).symm)
  · exact hbooks.congr (fun x => (ht.inCountedSpace_eq x).trans
        (hshown.trimmed.inCountedSpace_eq x).symm) hsame
      (fun o ho x hx => Or.inl (hrefs o (mem_live.mp ho).1 ▸ hx)) (fun x hx => Or.inl hx)
      fun x _ => congrArg (· + _) (Finset.sum_congr rfl fun o ho =>
        congrArg (List.count x) (hrefs o (mem_live.mp ho).1))
  · exact htended.congr (fun s hi x hx => (hi.mem hx).1) (fun s hi x hx => hsame x (hi.mem hx).1)
      (fun s hi x hx => hrefs x (hi.mem hx).1) fun x hx => hx

theorem Collection.release_ok (hs : Settling base l₀ k ext roots c.plan counts r [])
    (hcounts : c.plan.counts = some counts) (hnursery : base.heap.nursery = none)
    (hworkers : ∃ n, base.workers = (List.range (n + 1)).map fun i => { ordinal := i + 1 }) :
    ∃ c' l, c.release = .ok c' ∧ c'.freed = c.freed ∧ c'.metrics = c.metrics ∧ base.Alike c'.plan ∧
      c'.plan.queues.Idle base.buffer ∧
      c'.plan.counts = some { counts with oldRoots := roots.entries, newRoots := roots.drain.2 } ∧
      Reclaimed base.heap l₀ ext c'.plan.heap l r counts.cycles := by
  obtain ⟨l₁, hsound⟩ := hs.sound
  obtain ⟨c₁, henter, hnoted⟩ := enter_ok hsound .release
  have hs₁ := hs.noted hnoted.toNoted
  obtain ⟨stats, mature, memory, l, hrun, hr⟩ := hs₁.reclaim
  obtain ⟨n, hn⟩ := hworkers
  have hfresh : c₁.plan.workers = (List.range (n + 1)).map fun i => { ordinal := i + 1 } :=
    hs₁.alike.workers_eq.trans hn
  have hreset : resetWorkers c₁.plan.memory c₁.plan.workers c₁.plan.heap.mature =
      .ok (c₁.plan.workers, c₁.plan.heap.mature) := by
    rw [hfresh]
    exact resetWorkers_fresh _ _ _
  obtain ⟨l₂, hshown⟩ := hs₁.tally.account.shows
  have hnone : c₁.plan.heap.nursery = none := hshown.trimmed.nursery_eq.trans hnursery
  let p₂ : Plan := { c₁.plan with
    heap := { c₁.plan.heap with mature, memory }
    counts := some { counts with oldRoots := roots.entries, newRoots := roots.drain.2 } }
  let c₂ := (Collection.freedMore { c₁ with plan := p₂ } 0).stopTimer .release
  have hrelease : c.release = .ok (c₂.log (.phaseEnd .release c₂.metrics.freed)) := by
    have hself : { c₁.plan.setHeap { c₁.plan.heap with mature := c₁.plan.heap.mature } with
        workers := c₁.plan.workers } = c₁.plan := rfl
    have hkeep : releaseNursery c₁.plan = .ok c₁.plan := by
      simp only [releaseNursery, hnone]
    have hretire : retire c₁.plan counts = .ok p₂ := by
      simp only [retire, Plan.memory, hrun, ok_bind, hs₁.newRoots_eq]
      rfl
    simp only [release, henter, ok_bind, hreset, hself, hkeep, hnoted.counts_eq.trans hcounts,
      hretire]
    rfl
  exact ⟨_, l, hrelease, hnoted.freed_eq, hnoted.metrics_eq, hs₁.alike.trans ⟨rfl, rfl, rfl, rfl⟩, hs₁.queues, rfl, hr⟩

theorem Plan.Alike.roomy_iff (h : p.Alike p') : p'.Roomy ↔ p.Roomy := by
  rw [Plan.Roomy, h.buffer_eq, Plan.Roomy]

-- The phase of the closure. Nothing is copied.
theorem Collection.close_yields (hs : Standing c.plan mutators counts l r [] known)
    (hmax : ∀ x ∈ r, count c.plan.heap x + c.plan.rootRefs.count x < 2 ^ 56) :
    Yields c.plan.Roomy c.close fun c' => ∃ p p' rs, c.plan.Noted p ∧
      Gathered p mutators counts l r known p' rs ∧
      rs.Perm p.rootRefs ∧ p'.Noted c'.plan ∧ c'.freed = c.freed ∧ (c.Untold → c'.Untold) := by
  let c₀ : Collection := { c with metrics := { c.metrics with participants := participants c.plan } }
  obtain ⟨c₁, henter, ⟨hnoted, hfreed₁, hmetrics₁⟩⟩ := enter_ok (c := c₀) hs.populated.sound .closure
  change c.plan.Noted c₁.plan at hnoted
  have hs₁ := hs.noted hnoted
  have hrun := runClosure_yields hs₁ (by
    rw [hnoted.heap_eq, hnoted.rootRefs_eq]
    exact hmax)
  rw [hnoted.roomy_iff] at hrun
  simp only [close]
  rw [henter, ok_bind]
  refine hrun.bind fun q ⟨hcopied, rs, hg, hperm⟩ =>
    Yields.ok ⟨c₁.plan, q.2, rs, hnoted, hg, hperm, ?_⟩
  let c₂ := { c₁ with plan := q.2 }.stopTimer .closure
  let c₃ := Collection.log { c₂ with metrics := { c₂.metrics with
    roots := q.1.roots.total, scanned := q.1.scanned, copied := q.1.copied } }
      (.phaseEnd .closure (q.1.scanned + q.1.increments))
  have h₂ := noted_stopTimer { c₁ with plan := q.2 } .closure
  have h₃ : c₂.plan.Noted c₃.plan := ⟨⟨rfl, rfl, rfl, rfl⟩, rfl, rfl, rfl⟩
  have hlast := noted_logQueueDepths c₃
  refine ⟨(h₂.toNoted.trans h₃).trans hlast.toNoted, hlast.freed_eq.trans hfreed₁, fun hnew => ?_⟩
  have hnew₁ : c₁.Untold := Untold.congr (c := c₀) ⟨hnew.copied_eq, hnew.freed_eq, hnew.cycles_eq⟩
    hmetrics₁
  have hnew₃ : c₃.Untold := ⟨hcopied, hnew₁.freed_eq, hnew₁.cycles_eq⟩
  exact hnew₃.congr hlast.metrics_eq

-- What a collection has done to a plan.
structure Collected (p : Plan) (l : Layout) (r : Finset Nat) (stopped : List Mutator)
    (freed : List Nat) (p' : Plan) (counts : CountState) (l' : Layout) (r' : Finset Nat) : Prop where
  standing : Standing p' stopped counts l' r' [] { o | p.Reaches l.immortals o }
  alike : p.Alike p'
  pruned : Pruned p.heap l p'.heap l'
  parted : Parted r r' freed
  oldRoots : counts.oldRoots.Perm p.rootRefs
  decrements : counts.decrements.entries = []
  held : ∀ m ∈ stopped, m.decrements = {}

-- Roots lead to what can be reached.
theorem Plan.Rooted.reaches (hs : Standing p mutators counts l r hand known)
    (halike : p.Alike p') (hp : Pruned p.heap l p'.heap l') :
    p'.Rooted { o | p.Reaches l.immortals o } := by
  refine ⟨fun root hroot => ?_, by rw [halike.scheduler_eq]; exact hs.rooted.numbered⟩
  rw [halike.roots_eq] at hroot
  have hleads := hs.rooted.leads root hroot
  have hslot : ∀ {slot}, Slot p.heap slot → Slot p'.heap slot ∧
      p'.heap.memory.read slot = p.heap.memory.read slot := fun {slot} h =>
    ⟨⟨h.1, (hp.spaceOf?_eq slot).trans h.2⟩, hp.frame slot (by rw [inCountedSpace_eq, h.2]; rfl)⟩
  have hne : ∀ {x}, x ∈ known → x ≠ 0 := fun hx => by
    obtain ⟨kind, bytes, hr⟩ := hs.room_of_known hx
    exact (hs.populated.sound.room_bound hr).1.ne'
  cases root with
  | location slot =>
    obtain ⟨h1, h2⟩ := hslot hleads.1
    refine ⟨h1, ?_⟩
    rw [h2]
    by_cases hz : p.heap.memory.read slot = 0
    · exact Or.inl hz
    · exact Or.inr (.root hroot hz)
  | interior base slot =>
    obtain ⟨h1, h2⟩ := hslot hleads.1
    exact ⟨h1, .root hroot (hne hleads.2.1), by rw [h2]; exact hleads.2.2⟩
  | value o => exact .root hroot (hne hleads)

-- The plan that a collection leaves. `base` is the plan with the roots `rs` counted.
theorem Standing.reclaimed (hs : Standing base stopped counts l₀ r rs known) {counts' : CountState}
    {r' : Finset Nat} {known' : Set Nat}
    (hr : Reclaimed base.heap l₀ (l₀.immortals.flatMap base.heap.refs ++ rs) p'.heap l r'
      counts'.cycles)
    (halike : base.Alike p') (hcounts : p'.counts = some counts')
    (hqueues : p'.queues.Idle p'.buffer) (hold : counts'.oldRoots.Perm rs)
    (hdecrements : counts'.decrements.Valid ∧ counts'.decrements.entries = [])
    (hnewRoots : counts'.newRoots.Valid ∧ counts'.newRoots.entries = [] ∧
      counts'.newRoots.Sized p'.buffer 1)
    (hheld : ∀ m ∈ stopped, m.decrements = {} ∧ ∀ c, m.Owns c)
    (hsettings : counts'.cycles.settings.visitGrain ≠ 0 ∧ counts'.cycles.settings.visitBound ≠ 0 ∧
      counts'.cycles.settings.filterBound ≠ 0)
    (hrooted : p'.Rooted known') (hknown : ∀ o ∈ known', o ∈ l₀.immortals ∨
      Anchored base.heap (l₀.immortals.flatMap base.heap.refs ++ rs) o) :
    Standing p' stopped counts' l r' [] known' := by
  have ht := hr.trimmed
  have himm : l.immortals = l₀.immortals := by
    rw [Layout.immortals, ht.plots_eq.2, Layout.immortals]
  have hspace := ht.inCountedSpace_eq
  have hplots : ∀ {o}, o ∈ l.immortals → p'.heap.refs o = base.heap.refs o := fun ho => by
    obtain ⟨bytes, hroom⟩ := (mem_immortals (p := p')).mp ho
    exact (ht.same hs.populated hroom).2
  have hnone : stopped.flatMap (·.decrements.held) = [] := List.flatMap_eq_nil_iff.mpr fun m hm => by
    rw [(hheld m hm).1]
    rfl
  have hext : (l₀.immortals.flatMap base.heap.refs ++ rs).Perm
      ([] ++ outside p'.heap l.immortals counts' stopped) := by
    rw [outside, hnone, hdecrements.2, List.nil_append, List.append_nil, List.append_nil,
      List.flatMap_congr fun o ho => hplots ho, himm]
    exact hold.symm.append_left _
  have hrefs : ∀ o ∈ r', p'.heap.refs o = base.heap.refs o := fun o ho => by
    obtain ⟨kind, bytes, -, hroom⟩ := (hr.roll o).mp ho
    exact (ht.same hs.populated hroom).2
  exact {
    counts_eq := hcounts
    nursery_eq := ht.nursery_eq.trans hs.nursery_eq
    workers_eq := halike.workers_eq ▸ hs.workers_eq
    populated := ht.populated hs.populated
    reached_eq := ht.reached_eq
    roll := hr.roll
    owners := fun m hm => (hheld m hm).2 _
    books := hr.books.perm hext
    decrements := hdecrements.1
    newRoots := hnewRoots
    queues := hqueues
    rooted := hrooted
    tended := hr.tended
    grain := hsettings.1
    bound := hsettings.2.1
    filterBound := hsettings.2.2
    policy_eq := by
      rw [Plan.policy, halike.config_eq]
      exact hs.policy_eq
    aligned := fun kind o bytes ho x hx hc => by
      rw [(ht.same hs.populated ho).2] at hx
      exact hs.aligned _ _ _ (ht.room _ _ _ ho) x hx (hspace x ▸ hc)
    inner := fun kind o bytes ho x hx => by
      rw [(ht.same hs.populated ho).2] at hx
      rw [hspace, himm]
      exact hs.inner _ _ _ (ht.room _ _ _ ho) x hx
    bumps := by
      rw [ht.plots_eq.2]
      exact hs.bumps
    anchored := fun o ho => by
      rw [himm]
      refine (hknown o ho).imp_right fun ha => ?_
      exact (ha.trim hr.books hspace hrefs).mono hr.books (fun _ ha => ha)
        (fun a ha => himm ▸ hext.subset ha) (fun _ => rfl) fun _ _ => rfl }

-- The rest of a collection, once the roots are counted.
theorem Gathered.collected (hg : Gathered p stopped counts l r known p' rs)
    (hheld : ∀ m ∈ stopped, m.decrements = {} ∧ ∀ c, m.Owns c) (hnoted : p'.Noted c.plan) :
    ∃ c₁ c₂ p'' counts' l' r', c.processCounts = .ok c₁ ∧ c₁.release = .ok c₂ ∧
      c₂.finish = .ok p'' ∧ Collection.Processed r c r' c₂ ∧ c₂.Recorded p'' ∧ (p.setMemory p'.memory).Alike p'' ∧ Pruned p'.heap l p''.heap l' ∧
      counts'.oldRoots.Perm rs ∧ counts'.decrements.entries = [] ∧
      ∀ known', p''.Rooted known' → (∀ o ∈ known', o ∈ l.immortals ∨
          Anchored p'.heap (l.immortals.flatMap p'.heap.refs ++ rs) o) →
        Standing p'' stopped counts' l' r' [] known' := by
  obtain ⟨chain, hcounts, hvalid, hsized, hchain, hs⟩ := hg.settling fun m hm => (hheld m hm).1
  obtain ⟨clock, events, heq⟩ := hg.plan_eq
  have hheap : p'.heap = { p.heap with memory := p'.memory } := congrArg Plan.heap heq
  have hbase := hg.counted.standing
  obtain ⟨c₁, counts₁, r₁, hprocess, hprocessed, hcounts₁, hs₁⟩ :=
    Collection.processCounts_ok (hnoted.counts_eq.trans hcounts) (hs.noted hnoted) rfl
  obtain ⟨c₂, l₂, hrelease, hfreed₂, hmetrics₂, halike₂, hqueues₂, hcounts₂, hr₂⟩ :=
    Collection.release_ok hs₁ hcounts₁ (hheap ▸ hbase.nursery_eq) (by
      rw [heq]
      exact hbase.workers_eq)
  obtain ⟨p'', hfinish, hlast, hrecorded⟩ := Collection.finish_ok hr₂.trimmed.sound
  have hsame : (p.setMemory p'.memory).Alike p' := by
    rw [heq]
    exact ⟨rfl, rfl, rfl, rfl⟩
  have halike := hsame.trans (halike₂.trans hlast.toAlike)
  have hbuffer : p''.buffer = p'.buffer := (halike₂.trans hlast.toAlike).buffer_eq
  refine ⟨c₁, c₂, p'', { counts₁ with oldRoots := chain.entries, newRoots := chain.drain.2 }, l₂, r₁,
    hprocess, hrelease, hfinish, hprocessed.congr hfreed₂ hmetrics₂, hrecorded, halike, ?_, hchain,
    hs₁.decrements.2, fun known' hrooted hknown => hbase.reclaimed ?_ halike (hlast.counts_eq.trans hcounts₂) ?_ hchain
      hs₁.decrements ⟨hvalid.drain.1, hvalid.drain.2, ?_⟩ hheld ⟨hs₁.grain, hs₁.bound, hs₁.filterBound⟩
      hrooted ?_⟩
  · rw [hlast.heap_eq]
    exact .of_trimmed hr₂.trimmed
  · change Reclaimed { p.heap with memory := p'.memory } l (l.immortals.flatMap
      (refs { p.heap with memory := p'.memory }) ++ rs) p''.heap l₂ r₁ counts₁.cycles
    rw [← hheap, hlast.heap_eq]
    exact hr₂
  · rw [hlast.queues_eq, hbuffer]
    exact hqueues₂
  · rw [hbuffer]
    exact hsized
  · change ∀ o ∈ known', o ∈ l.immortals ∨ Anchored { p.heap with memory := p'.memory }
      (l.immortals.flatMap (refs { p.heap with memory := p'.memory }) ++ rs) o
    rw [← hheap]
    exact hknown

-- A collection of the plan is `c` at the end of its closure.
def Plan.Closes (p : Plan) (mutators : List Mutator) (c : Collection) : Prop :=
  ∃ c₁ stopped c₂, Collection.begin p = .ok c₁ ∧ c₁.prepare mutators = .ok (stopped, c₂) ∧
    c₂.close = .ok c

-- The figures that `p'` has of its last collection, from `p`. The counted objects were `r` and are `r'`.
structure Plan.Told (p : Plan) (mutators : List Mutator) (r r' : Finset Nat) (p' : Plan) : Prop where
  copied_eq : p'.last.copied = 0
  freed_eq : p'.last.freed + r'.card = r.card
  cycles_le : p'.last.cycles.freed ≤ p'.last.freed
  increment : ∃ c d d' r₁ r₂, p.Closes mutators c ∧ c.Increments d d' ∧ Collection.Freed r₁ d r₂ d' ∧
    (∃ l, d.plan.heap.Sound l ∧ Roll d.plan.heap l r₁) ∧
    (∃ l, d'.plan.heap.Sound l ∧ Roll d'.plan.heap l r₂) ∧ p'.last.cycles.freed + r₂.card = r₁.card

theorem Collection.Processed.told {c' : Collection} {r' : Finset Nat} (h : Processed r c r' c')
    (hc : p.Closes mutators c) (hnew : c.Untold) (hp : c'.Recorded p') :
    p.Told mutators r r' p' := by
  obtain ⟨more, -, hparted, hfreed, hcopied⟩ := h.freed
  obtain ⟨d, d', r₁, r₂, hd, hincrement⟩ := h.increment
  refine ⟨?_, ?_, ?_, c, d, d', r₁, r₂, hc, hd, ?_⟩
  · rw [hp.copied_eq, hcopied, hnew.copied_eq]
  · rw [hp.freed_eq, hfreed, hnew.freed_eq, hparted.card_eq]
    omega
  · rw [hp.cycles_eq, hp.freed_eq]
    exact h.cycles_le
  · rw [hp.cycles_eq]
    exact hincrement

-- The phases of a collection end, unless no buffers can be had.
theorem Collection.run_yields (hs : Standing p mutators counts l r [] known)
    (hmax : ∀ x ∈ r, CountedHeap.count p.heap x + p.rootRefs.count x < 2 ^ 56) :
    Yields p.Roomy (Collection.run p mutators) fun q => q.1.length = mutators.length ∧
      ∃ p' counts' l' r', q.2.finish = .ok p' ∧ p.Told mutators r r' p' ∧
        Collected p l r q.1 q.2.freed p' counts' l' r' := by
  obtain ⟨c₁, hbegin, hnoted, hfreed₁, hnew₁⟩ := Collection.begin_ok hs.populated.sound
  have hs₁ := hs.noted hnoted
  obtain ⟨stopped, c₂, counts₂, l₂, hprepare, hlen, halike₂, hfreed₂, hmetrics₂, hrearr, hheld, hs₂⟩ :=
    Collection.prepare_ok hs₁
  have hpruned₂ : Pruned p.heap l c₂.plan.heap l₂ :=
    hnoted.heap_eq ▸ .of_rearranged hrearr
  have halike : p.Alike c₂.plan := hnoted.toAlike.trans halike₂
  have hroots : c₂.plan.rootRefs = p.rootRefs :=
    halike.rootRefs_eq (hrearr.memory_eq.trans (congrArg Heap.memory hnoted.heap_eq))
      hpruned₂.inCountedSpace_eq
  have hmax₂ : ∀ x ∈ r, CountedHeap.count c₂.plan.heap x + c₂.plan.rootRefs.count x < 2 ^ 56 := fun x hx => by
    rw [hroots, CountedHeap.count, hrearr.status_eq, hnoted.heap_eq]
    exact hmax x hx
  have hclose := (Collection.close_yields hs₂ hmax₂).eq_ok
  rw [halike.roomy_iff] at hclose
  simp only [Collection.run, hbegin, ok_bind, hprepare]
  refine hclose.bind fun c₃ hc₃ => ?_
  obtain ⟨hrun₃, p₂, p₃, rs, hnoted₂, hg, hperm, hnoted₃, hfreed₃, hnew₃⟩ := hc₃
  obtain ⟨c₄, c₅, p₆, counts', l', r', hprocess, hrelease, hfinish, hprocessed, hrecorded, halike₆,
    hpruned₆, hold, hdec, hstanding⟩ := hg.collected hheld hnoted₃
  have htold := hprocessed.told ⟨c₁, stopped, c₂, hbegin, hprepare, hrun₃⟩
    (hnew₃ (hnew₁.congr hmetrics₂)) hrecorded
  obtain ⟨freed, hfreed, hparted, -⟩ := hprocessed.freed
  rw [hfreed₃, hfreed₂, hfreed₁, List.nil_append] at hfreed
  simp only [hprocess, hrelease, ok_bind]
  obtain ⟨clock, events, heq⟩ := hg.plan_eq
  have hheap₃ : p₃.heap = { c₂.plan.heap with memory := p₃.memory } := by
    rw [← hnoted₂.heap_eq]
    exact congrArg Plan.heap heq
  have hpruned₃ : Pruned p.heap l p₃.heap l₂ := by
    rw [hheap₃]
    refine hpruned₂.trans (.of_status hs₂.populated.sound hs₂.roll fun a ha => ?_)
    rw [hg.counted.frame a ha, hnoted₂.heap_eq]
  have hpruned := hpruned₃.trans hpruned₆
  have hroots := hnoted₂.rootRefs_eq.trans hroots
  have hset : p₂.Alike (p₂.setMemory p₃.memory) := ⟨rfl, rfl, rfl, rfl⟩
  have halike : p.Alike p₆ := halike.trans (hnoted₂.toAlike.trans (hset.trans halike₆))
  refine Yields.ok ⟨hlen, p₆, counts', l', r', hfinish, htold, hstanding _
    (Plan.Rooted.reaches hs halike hpruned) fun o ho => ?_, halike, hpruned, hfreed ▸ hparted,
    hold.trans (hroots ▸ hperm), hdec, fun m hm => (hheld m hm).1⟩
  have hbase := hg.counted.standing
  have hpruned₂ : Pruned p.heap l (p₂.setMemory p₃.memory).heap l₂ := by
    change Pruned p.heap l { p₂.heap with memory := p₃.memory } l₂
    rw [hnoted₂.heap_eq, ← hheap₃]
    exact hpruned₃
  have hreaches := hs.of_reaches hpruned₂ hbase (hroots ▸ hperm.symm.subset) ho
  rw [hheap₃, ← hnoted₂.heap_eq]
  exact hreaches

end Reclaim
