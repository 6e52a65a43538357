import Reclaim.Proofs.Tour.Opening
import Reclaim.Proofs.Tour.Relay

/-!
How a collection of a plan that copies ends. The closure has visited what roots lead to; the nursery is
emptied, and cells and large objects that were not visited are given back.
-/
namespace Reclaim

open Heap Queue Sizes

-- Collectors give up their blocks.
theorem Heap.Sound.resetWorkers {h : Heap} {l : Layout} (hs : h.Sound l) {workers : List Worker}
    (hown : ∀ w ∈ workers, w.copy.Owns h.mature) :
    ∃ c, Collection.resetWorkers h.memory workers h.mature =
        .ok (workers.map (fun w => { ordinal := w.ordinal }), c) ∧
      Rearranged h l { h with mature := c } l ∧ c.space = h.mature.space := by
  induction workers generalizing h with
  | nil => exact ⟨h.mature, rfl, .refl hs, rfl⟩
  | cons w rest ih =>
    obtain ⟨c, hreset, hc, hlisting, hspace⟩ := (hown w List.mem_cons_self).reset hs.mature
    have hr := hs.rearrangeMature hc hspace hlisting
    obtain ⟨c', hrun, hr', hspace'⟩ := ih hr.sound fun x hx =>
      (hown x (List.mem_cons_of_mem _ hx)).mono (hlisting ▸ List.Subset.refl _)
    refine ⟨c', ?_, hr.trans hr', hspace'.trans hspace⟩
    simp only [Collection.resetWorkers, hreset, ok_bind, hrun]
    rfl

namespace Toured

variable {g : Ground} {h h' : Heap} {l l' : Layout} {seen : List Nat} {place : Nat → Nat}

theorem setCells (ht : Toured g h l seen place) {c : Cells}
    (hr : Rearranged h l { h with mature := c } l) (hspace : c.space = h.mature.space) :
    Toured g { h with mature := c } l seen place := { ht with
  sound := hr.sound
  mature_eq := (congrArg _ hspace).trans ht.mature_eq
  listing_subset := hr.listing_eq ▸ ht.listing_subset
  room := fun _ _ _ hroom => (hr.room_iff _ _ _).mpr (ht.room _ _ _ hroom)
  room_cases := fun _ _ _ hroom => ht.room_cases _ _ _ ((hr.room_iff _ _ _).mp hroom)
  moved := fun x hx hyoung =>
    let ⟨h1, h2, bytes, n, h3, h4⟩ := ht.moved x hx hyoung
    ⟨h1, h2, bytes, n, (hr.room_iff _ _ _).mpr h3, h4⟩
  cells := fun o bytes hroom => ht.cells o bytes ((hr.room_iff _ _ _).mp hroom) }

-- The rooms that are left when the collection has ended.
def Keeps (h : Heap) (l : Layout) (kind : SpaceKind) (o : Nat) : Prop :=
  kind ≠ .nursery ∧ (kind = .mature → Block.isMarked h.memory o = true) ∧
    (kind = .large → ∃ chunk ∈ l.reached, Chunk.object chunk = o)

variable {kind : SpaceKind} {x o bytes n : Nat}
variable (ht : Toured g h l seen place) (hg : g.Ready)
include ht hg

-- What was visited is kept.
theorem keeps (hx : x ∈ seen) (hr : Room h l kind (place x) bytes) :
    Keeps h l kind (place x) := by
  obtain ⟨hobject, hfresh⟩ := ht.seen_room x hx
  obtain ⟨kind₀, bytes₀, hr₀⟩ := hobject
  by_cases hyoung : g.Young x
  · obtain ⟨-, -, bytes', -, hr', -⟩ := ht.moved x hx hyoung
    obtain ⟨rfl, -⟩ := ht.sound.room_unique hr hr'
    exact ⟨nofun, fun _ => (ht.cells _ _ hr).mpr ⟨x, hx, rfl⟩, nofun⟩
  · have hstill := ht.still x fun _ => hyoung
    rw [hstill] at hr ⊢
    obtain ⟨rfl, rfl⟩ := ht.sound.room_unique (ht.room _ _ _ hr₀) hr
    refine ⟨fun hk => ?_, fun hk => ?_, fun hk => ?_⟩
    · subst hk
      exact hyoung (hg.spaceOf?_eq hr₀)
    · subst hk
      exact (ht.cells _ _ hr).mpr ⟨x, hx, hstill.symm⟩
    · subst hk
      cases hr with
      | @chunk chunk hchunk => exact ⟨chunk, (ht.reached_iff chunk).mpr ⟨hx, hg.spaceOf?_eq hr₀⟩, rfl⟩

omit hg in
-- What is kept was visited, or is immortal.
theorem visited_of_keeps (hr : Room h l kind o bytes) (hk : Keeps h l kind o) :
    (∃ x ∈ seen, o = place x) ∨ kind = .immortal := by
  obtain ⟨h1, h2, h3⟩ := hk
  cases kind with
  | nursery => exact absurd rfl h1
  | mature => exact Or.inl ((ht.cells _ _ hr).mp (h2 rfl))
  | immortal => exact Or.inr rfl
  | large =>
    obtain ⟨chunk, hchunk, rfl⟩ := h3 rfl
    obtain ⟨hx, hspace⟩ := (ht.reached_iff chunk).mp hchunk
    refine Or.inl ⟨_, hx, (ht.still _ fun _ hyoung => ?_).symm⟩
    rw [Ground.Young, hspace] at hyoung
    cases hyoung

-- An object that is kept is where some object is, and as large.
theorem place_of_keeps (hr : Room h l kind o bytes) (hk : Keeps h l kind o) :
    ∃ x kind₀ bytes₀ n, o = place x ∧ g.IsRoom kind₀ x bytes₀ ∧ g.size x = .ok n ∧ n ≤ bytes ∧
      Object.Formed h.types h.memory o bytes := by
  have hsource : ∃ x kind₀ bytes₀, o = place x ∧ g.IsRoom kind₀ x bytes₀ := by
    rcases ht.visited_of_keeps hr hk with ⟨x, hx, rfl⟩ | rfl
    · obtain ⟨⟨kind₀, bytes₀, hr₀⟩, -⟩ := ht.seen_room x hx
      exact ⟨x, kind₀, bytes₀, rfl, hr₀⟩
    · have hr₀ := (ht.room_cases _ _ _ hr).resolve_right nofun
      refine ⟨o, _, _, (ht.still o fun _ hyoung => ?_).symm, hr₀⟩
      cases (hg.young_iff hr₀).mp hyoung
  obtain ⟨x, kind₀, bytes₀, rfl, hr₀⟩ := hsource
  obtain ⟨n, hsize, -⟩ := hg.size_ok hr₀
  obtain ⟨kind', bytes', hr', hle, hformed, -⟩ := ht.formed hg hr₀ hsize
  obtain ⟨rfl, rfl⟩ := ht.sound.room_unique hr hr'
  exact ⟨x, kind₀, bytes₀, n, rfl, hr₀, hsize, hle, hformed⟩

-- The heap that is left holds objects only.
theorem populated_left (hl : Left h l (Keeps h l) h' l') : h'.Populated l' where
  sound := hl.sound
  formed kind o bytes hr := by
    obtain ⟨hr₀, hk⟩ := (hl.room_iff _ _ _).mp hr
    obtain ⟨-, -, -, -, -, -, -, -, hformed⟩ := ht.place_of_keeps hg hr₀ hk
    rw [hl.types_eq]
    exact (hformed.congr fun a _ h1 h2 => hl.word _ _ _ hr a (le_of_lt h1) h2).1

end Toured

-- A closure that has ended, from `p` to `p'`. No collector has work left.
structure Closed (p p' : Plan) (l : Layout) (stats : TraceStats) (q : Progress) : Prop where
  config_eq : p'.config = p.config
  scheduler_eq : p'.scheduler = p.scheduler
  globals_eq : p'.globals = p.globals
  counts_eq : p'.counts = p.counts
  queues : p'.queues.Idle p.buffer
  workers_eq : p'.workers.map (fun w => { ordinal := w.ordinal }) = p.workers
  owners : ∀ w ∈ p'.workers, w.copy.Owns p'.heap.mature
  toured : Toured (p.ground l) p'.heap q.layout q.seen q.place
  owing : Owing (p.ground l) p'.memory q []
  scanned_eq : stats.scanned = q.scanned.length
  copied_eq : stats.copied = q.seen.countP fun x => (p.ground l).Young x

namespace Opened

variable {p p₀ : Plan} {stopped : List Mutator} {l l₀ : Layout} {known : Set Nat}
variable (ho : Opened p p₀ stopped l l₀ known)
include ho

theorem policy_eq : p₀.policy = .hybrid :=
  let ⟨_, hflip, hs⟩ := ho.before
  (congrArg Config.policy hflip.config_eq).trans hs.policy_eq

theorem counts_eq : p₀.counts = none :=
  let ⟨_, hflip, hs⟩ := ho.before
  hflip.counts_eq.trans hs.counts_eq

theorem workers_eq : ∃ n, p₀.workers = (List.range (n + 1)).map fun i => { ordinal := i + 1 } :=
  let ⟨_, hflip, hs⟩ := ho.before
  hs.workers_eq.imp fun _ hn => hflip.workers_eq.trans hn

theorem queues : p₀.queues.Idle p₀.buffer := by
  obtain ⟨p₁, hflip, hs⟩ := ho.before
  have hmarks : p₁.Alike (Collection.flipMarks p₁) := ⟨rfl, rfl, rfl, rfl⟩
  rw [hflip.queues_eq, (hmarks.trans hflip.toAlike).buffer_eq]
  exact hs.queues

-- The first collector of the closure can start.
theorem relay (tasks : List Task) (ht : (p₀.roots.map Task.root).Perm tasks)
    (owners : List CellAllocator) (hx : ∀ x ∈ owners, x = {}) :
    Relay (p₀.ground l₀) p₀ p₀ {} owners { layout := l₀ } tasks where
  plan_eq := ⟨p₀.clock, p₀.events, rfl⟩
  queues := ho.queues
  owners x hmem := by
    rw [hx x hmem]
    exact CellAllocator.owns_fresh _
  toured := ho.ready.toured
  owing := ho.ready.owing.perm ht
  scanned_eq := rfl
  copied_eq := rfl
  marked_eq := rfl

-- All collectors have done their work, unless memory runs out.
theorem runClosure (hnumbered : ∀ t ∈ p.scheduler.threads, t.Numbered) :
    (∃ stats p' q, Collection.runClosure p₀ = .ok (stats, p') ∧ Closed p₀ p' l₀ stats q) ∨
      ∃ f, Collection.traceAll (Collection.participants p₀)
        (p₀.workers.take (Collection.participants p₀)) {} p₀ = .error f ∧ f.IsStarvation := by
  obtain ⟨n, hworkers⟩ := ho.workers_eq
  obtain ⟨hpos, htake, hdrop⟩ := Collection.participants_split hworkers
  have hshares := Roots.shares_perm p₀.globals p₀.scheduler.threads hpos
  have hrelay := (ho.relay (((p₀.workers.take (Collection.participants p₀)).flatMap fun w =>
      Roots.share p₀.globals p₀.scheduler.threads w.ordinal (Collection.participants p₀)).map .root
        ++ []) (by
      rw [List.append_nil, htake, List.flatMap_map]
      exact (hshares.map _).symm)
    ((p₀.workers.take (Collection.participants p₀)).map (·.copy) ++ []) fun x hx => by
        rw [List.append_nil, htake, List.map_map] at hx
        obtain ⟨i, -, rfl⟩ := List.mem_map.mp hx
        rfl).traceAll ho.ready ho.policy_eq ho.counts_eq (by
          rw [ho.alike.scheduler_eq]
          exact hnumbered) _ fun w hw => by
            rw [htake] at hw
            obtain ⟨i, hi, rfl⟩ := List.mem_map.mp hw
            exact ⟨Nat.le_add_left 1 i, List.mem_range.mp hi⟩
  refine hrelay.imp_left fun ⟨⟨active, stats, p'⟩, htrace, hordinals, q, hr⟩ => ?_
  obtain ⟨clock, events, heq⟩ := hr.plan_eq
  obtain ⟨hconfig, hscheduler, hglobals, hcounts⟩ : p'.config = p₀.config ∧
      p'.scheduler = p₀.scheduler ∧ p'.globals = p₀.globals ∧ p'.counts = p₀.counts := by
    simp only at heq
    rw [heq]
    exact ⟨rfl, rfl, rfl, rfl⟩
  refine ⟨stats, { p' with workers := active ++ p₀.workers.drop (Collection.participants p₀) }, q, ?_, {
    config_eq := hconfig
    scheduler_eq := hscheduler
    globals_eq := hglobals
    counts_eq := hcounts
    queues := hr.queues
    workers_eq := by
      have hsplit : ∀ ws : List Worker, ws.map (fun w => ({ ordinal := w.ordinal } : Worker)) =
          (ws.map (·.ordinal)).map fun i => { ordinal := i } := fun ws => by
        rw [List.map_map]
        rfl
      simp only at hordinals
      rw [hsplit, List.map_append, hordinals, ← List.map_append, List.take_append_drop, ← hsplit,
        hworkers, List.map_map]
      rfl
    owners := fun w hw => by
      rcases List.mem_append.mp hw with hw | hw
      · exact hr.owners _ (List.mem_append_left _ (List.mem_map_of_mem hw))
      · rw [hdrop] at hw
        obtain ⟨i, -, rfl⟩ := List.mem_map.mp hw
        exact CellAllocator.owns_fresh _
    toured := hr.toured
    owing := hr.owing
    scanned_eq := hr.scanned_eq
    copied_eq := hr.copied_eq }⟩
  have hself : p₀.setHeap { p₀.heap with mature := p₀.heap.mature } = p₀ := rfl
  simp only [Collection.runClosure, hdrop, Collection.resetWorkers_fresh, ok_bind, hself]
  rw [htrace]
  rfl

end Opened

namespace Closed

variable {p p₀ p₁ p₂ : Plan} {stopped : List Mutator} {l l₀ : Layout} {known : Set Nat}
variable {stats : TraceStats} {q : Progress} {c : Collection}

theorem noted (hc : Closed p₀ p₁ l stats q) (h : p₁.Noted p₂) : Closed p₀ p₂ l stats q where
  config_eq := h.config_eq.trans hc.config_eq
  scheduler_eq := h.scheduler_eq.trans hc.scheduler_eq
  globals_eq := h.globals_eq.trans hc.globals_eq
  counts_eq := h.counts_eq.trans hc.counts_eq
  queues := h.queues_eq ▸ hc.queues
  workers_eq := h.workers_eq ▸ hc.workers_eq
  owners := h.workers_eq ▸ h.heap_eq ▸ hc.owners
  toured := h.heap_eq ▸ hc.toured
  owing := by
    rw [Plan.memory, h.heap_eq]
    exact hc.owing
  scanned_eq := hc.scanned_eq
  copied_eq := hc.copied_eq

end Closed

-- No mutator that stands still has room in the nursery.
theorem Opened.bumps_fresh {p p₀ : Plan} {stopped : List Mutator} {l l₀ : Layout} {known : Set Nat}
    (ho : Opened p p₀ stopped l l₀ known) : ∀ b ∈ l₀.nursery.bumps, b = .fresh := by
  obtain ⟨p₁, -, hs⟩ := ho.before
  intro b hb
  obtain ⟨m, hm, heq⟩ := List.mem_map.mp (hs.standard.subset (List.mem_map_of_mem hb))
  exact StandardAllocator.bump.inj (heq.symm.trans (ho.stopped m hm).standard_eq)

-- What was not visited is given back, and the plan is tidy again.
structure Released (p₁ p₂ : Plan) (stopped : List Mutator) (l l' : Layout) : Prop where
  left : Left p₁.heap l (Toured.Keeps p₁.heap l) p₂.heap l'
  nursery : ∃ s, p₂.heap.nursery = some s ∧ s.used = 0
  tidy : Tidy p₂ stopped l' { o | ∃ kind bytes, Room p₂.heap l' kind o bytes }

theorem Released.noted {p₁ p₂ p₃ : Plan} {stopped : List Mutator} {l l' : Layout}
    (hr : Released p₁ p₂ stopped l l') (h : p₂.Noted p₃) : Released p₁ p₃ stopped l l' where
  left := h.heap_eq ▸ hr.left
  nursery := h.heap_eq ▸ hr.nursery
  tidy := by
    rw [h.heap_eq]
    exact hr.tidy.noted h

-- Cells were given up before.
theorem Heap.Left.of_rearranged {h h₂ : Heap} {l l₂ : Layout} {keep : SpaceKind → Nat → Prop}
    {c : Cells} (hr : Rearranged h l { h with mature := c } l)
    (hl : Left { h with mature := c } l keep h₂ l₂) : Left h l keep h₂ l₂ where
  sound := hl.sound
  types_eq := hl.types_eq
  spaceOf?_eq a := (hl.spaceOf?_eq a).trans (hr.spaceOf?_eq a)
  large_mark := hl.large_mark
  immortal_eq := hl.immortal_eq
  plots_eq := hl.plots_eq
  room_iff kind o bytes := (hl.room_iff kind o bytes).trans
    (and_congr_left fun _ => hr.room_iff kind o bytes)
  word := hl.word
  outside a ha := hl.outside a ((hr.spaceOf?_eq a).trans ha)

-- A collection that has visited what roots lead to leaves a tidy plan.
theorem Closed.tidy {p p₀ p₁ p₂ : Plan} {stopped : List Mutator} {l l₀ l' : Layout}
    {known : Set Nat} {stats : TraceStats} {q : Progress} (ho : Opened p p₀ stopped l l₀ known)
    (hc : Closed p₀ p₁ l₀ stats q) (hleft : Left p₁.heap q.layout (Toured.Keeps p₁.heap q.layout) p₂.heap l')
    (hnursery : ∃ s, p₂.heap.nursery = some s) (hconfig : p₂.config = p₁.config)
    (hcounts : p₂.counts = p₁.counts) (hglobals : p₂.globals = p₁.globals)
    (hqueues : p₂.queues = p₁.queues) (hworkers : p₂.workers = p₀.workers)
    (hreached : l'.reached = []) (hyoung : l'.nursery = { bumps := q.layout.nursery.bumps })
    (hclear : ∀ a, p₁.heap.mature.contains a = true → Block.isMarked p₂.heap.memory a = false) :
    Tidy p₂ stopped l' { o | ∃ kind bytes, Room p₂.heap l' kind o bytes } := by
  obtain ⟨p', hflip, hs⟩ := ho.before
  have hmarks : p'.Alike (Collection.flipMarks p') := ⟨rfl, rfl, rfl, rfl⟩
  have halike := hmarks.trans hflip.toAlike
  have hconfig' : p₂.config = p'.config :=
    hconfig.trans (hc.config_eq.trans halike.config_eq)
  have hbuffer : p₂.buffer = p₀.buffer := by
    rw [Plan.buffer, hconfig, hc.config_eq, Plan.buffer]
  have hspace : ∀ a, p₂.heap.spaceOf? a = p'.heap.spaceOf? a := fun a => by
    rw [hleft.spaceOf?_eq, hc.toured.spaceOf?_eq]
    change p₀.heap.spaceOf? a = _
    rw [hflip.heap_eq]
    rfl
  exact {
    policy_eq := (congrArg Config.policy hconfig').trans hs.policy_eq
    counts_eq := hcounts.trans (hc.counts_eq.trans (hflip.counts_eq.trans hs.counts_eq))
    nursery := hnursery
    workers_eq := hworkers ▸ ho.workers_eq
    populated := hc.toured.populated_left ho.ready hleft
    reached_eq := hreached
    young := fun x bytes hx => by
      cases hx with
      | young hx =>
        rw [hyoung] at hx
        exact absurd hx List.not_mem_nil
    cells := fun a ha => hclear a (by
      rw [hleft.spaceOf?_eq] at ha
      obtain ⟨s, hspace, hin⟩ := contains_of_spaceOf? ha
      cases hspace
      exact hin)
    chunks := fun x bytes hx => by
      obtain ⟨hroom, hk⟩ := (hleft.room_iff _ _ _).mp hx
      have hpos := (hleft.sound.room_mem hx).2.2.1
      obtain ⟨chunk, hchunk, rfl⟩ := hk.2.2 rfl
      rw [hleft.word _ _ _ hx _ (le_refl _) (by omega), hleft.large_mark, hc.toured.markState_eq]
      have hroom₀ := (hc.toured.room_cases _ _ _ hroom).resolve_right fun hk => absurd hk.1 (by decide)
      exact (hc.toured.chunks _ _ hroom₀).mpr ((hc.toured.reached_iff chunk).mp hchunk).1
    owners := fun m hm => by
      obtain ⟨h1, -, h2⟩ := ho.stopped m hm
      rw [Mutator.Owns, h1, h2]
      exact ⟨trivial, CellAllocator.owns_fresh _⟩
    standard := by
      rw [hyoung, hc.toured.plots_eq.1]
      exact hs.standard
    bumps := by
      rw [hleft.plots_eq, hc.toured.plots_eq.2]
      exact hs.bumps
    queues := by
      rw [hqueues, hbuffer]
      exact hc.queues
    globals := fun slot hslot => by
      rw [hglobals, hc.globals_eq, halike.globals_eq] at hslot
      exact ⟨(hs.globals slot hslot).1, (hspace slot).trans (hs.globals slot hslot).2⟩
    threshold := hconfig' ▸ hs.threshold
    known_iff := fun o => Iff.rfl }

theorem Collection.release_closed {p p₀ : Plan} {stopped : List Mutator} {l l₀ : Layout}
    {known : Set Nat} {stats : TraceStats} {q : Progress} {c : Collection}
    (ho : Opened p p₀ stopped l l₀ known) (hc : Closed p₀ c.plan l₀ stats q) :
    ∃ c' l', c.release = .ok c' ∧ c'.metrics.scanned = c.metrics.scanned ∧
      c'.metrics.copied = c.metrics.copied ∧ c'.metrics.cycles = c.metrics.cycles ∧
      c'.metrics.freed + c'.plan.heap.liveCount = c.metrics.freed + c.plan.heap.liveCount ∧
      Released c.plan c'.plan stopped q.layout l' := by
  obtain ⟨c₁, henter, hnoted⟩ := enter_ok hc.toured.sound .release
  have hc₁ := hc.noted hnoted.toNoted
  obtain ⟨cells, hreset, hr, hspace⟩ := hc₁.toured.sound.resetWorkers hc₁.owners
  have ht := hc₁.toured.setCells hr hspace
  obtain ⟨p₁, hflip, hs⟩ := ho.before
  obtain ⟨s, hn⟩ : ∃ s, c₁.plan.heap.nursery = some s := by
    obtain ⟨s, hn⟩ := hs.nursery
    refine ⟨s, hc₁.toured.nursery_eq.trans ?_⟩
    change p₀.heap.nursery = some s
    rw [hflip.heap_eq]
    exact hn
  have hcounts : c₁.plan.counts = none := hc₁.counts_eq.trans ho.counts_eq
  obtain ⟨s', m₁, swept, cells', m₂, t, m₃, hrun₁, hused, hrun₂, hrun₃, hleft, hclear, hcount⟩ :=
    ht.sound.release (s := s) hn (by
      rw [ht.plots_eq.1]
      exact ho.bumps_fresh)
  have hleft' := hleft.of_rearranged hr
  simp only at hrun₁ hrun₂ hrun₃
  let freed := swept.freed + q.layout.unreached.length
  have hrun : c.release = .ok ((({ c₁ with plan :=
      { c₁.plan.setHeap { c₁.plan.heap with
          nursery := some s', memory := m₃, mature := cells', large := t } with
        workers := p₀.workers } }.freedMore freed).stopTimer .release).log
          (.phaseEnd .release ({ c₁ with plan := c₁.plan }.freedMore freed).metrics.freed)) := by
    simp only [Collection.release, henter, ok_bind, Plan.memory, hreset, releaseNursery, hn,
      Plan.setHeap, hrun₁, hcounts, sweep, hrun₂, hrun₃, hc₁.workers_eq]
    rfl
  have hreleased : Released c.plan { c₁.plan.setHeap { c₁.plan.heap with
      nursery := some s', memory := m₃, mature := cells', large := t } with workers := p₀.workers }
      stopped q.layout { q.layout with
        unreached := q.layout.reached, reached := []
        nursery := { bumps := q.layout.nursery.bumps } } := {
    left := hnoted.heap_eq ▸ hleft'
    nursery := ⟨s', rfl, hused⟩
    tidy := hc₁.tidy ho hleft' ⟨s', rfl⟩ rfl rfl rfl rfl rfl rfl rfl fun a ha => hclear a (by
      rw [Cells.contains] at ha ⊢
      exact (congrArg (·.contains a) hspace).trans ha) }
  have hlast : ∀ (c : Collection) (n : Nat) (e : Event),
      c.plan.Noted (((c.freedMore n).stopTimer .release).log e).plan := fun c n e =>
    ((noted_stopTimer (c.freedMore n) .release).trans (noted_log _ e)).toNoted
  have hmetrics := hnoted.metrics_eq
  have hscanned : c₁.metrics.scanned = c.metrics.scanned := congrArg _ hmetrics
  have hcopied : c₁.metrics.copied = c.metrics.copied := congrArg _ hmetrics
  have hcycles : c₁.metrics.cycles = c.metrics.cycles := congrArg _ hmetrics
  have hfreed : c₁.metrics.freed = c.metrics.freed := congrArg _ hmetrics
  have hbefore := hc₁.toured.sound.liveCount_congr hr.sound fun kind o bytes _ =>
    hr.room_iff kind o bytes
  have hheap : c₁.plan.heap.liveCount = c.plan.heap.liveCount := congrArg _ hnoted.heap_eq
  refine ⟨_, _, hrun, hscanned, hcopied, hcycles, ?_,
    hreleased.noted (hlast { c₁ with plan := _ } freed _)⟩
  change c₁.metrics.freed + freed + Heap.liveCount { c₁.plan.heap with
    nursery := some s', memory := m₃, mature := cells', large := t } = _
  simp only at hcount hbefore
  simp only [freed, hfreed]
  omega

-- What follows when the collectors have left the closure with `stats` done.
def Collection.conclude (c : Collection) (stats : TraceStats) (plan : Plan) : Except Fault Plan := do
  let c := { c with plan }.stopTimer .closure
  let c := { c with metrics := { c.metrics with
    roots := stats.roots.total, scanned := stats.scanned, copied := stats.copied } }
  let c ← (c.log (.phaseEnd .closure (stats.scanned + stats.increments))).logQueueDepths.processCounts
  (← c.release).finish

-- A collection leads up to the closure, runs it, and draws the conclusions.
theorem Plan.collect_eq (p : Plan) (mutators : List Mutator) : p.collect mutators =
    Collection.opened p mutators >>= fun (stopped, c) =>
      Collection.runClosure c.plan >>= fun (stats, plan) =>
        c.conclude stats plan >>= fun plan => .ok (stopped, plan) := by
  simp only [collect, Collection.run, Collection.opened, Collection.close, Collection.conclude]
  cases Collection.begin p with
  | error f => rfl
  | ok c =>
    simp only [ok_bind]
    cases c.prepare mutators with
    | error f => rfl
    | ok r =>
      simp only [ok_bind]
      cases Collection.enter { r.2 with metrics := { r.2.metrics with
        participants := Collection.participants r.2.plan } } .closure with
      | error f => rfl
      | ok c =>
        simp only [ok_bind]
        cases Collection.runClosure c.plan with
        | error f => rfl
        | ok r => simp only [ok_bind, bind_assoc]

-- Memory runs out in the closure of a collection: no buffers can be had, or there is no room for a copy.
def Plan.Starves (p : Plan) (mutators : List Mutator) : Prop :=
  ∃ stopped c idle mature f, Collection.opened p mutators = .ok (stopped, c) ∧
    Collection.resetWorkers c.plan.memory (c.plan.workers.drop (Collection.participants c.plan))
      c.plan.heap.mature = .ok (idle, mature) ∧ f.IsStarvation ∧
    Collection.traceAll (Collection.participants c.plan)
      (c.plan.workers.take (Collection.participants c.plan)) {}
      (c.plan.setHeap { c.plan.heap with mature }) = .error f

-- Then the collection has no result. One of several collectors only tells that it failed.
theorem Plan.Starves.collect_error {p : Plan} {mutators : List Mutator} (h : p.Starves mutators) :
    ∃ f, p.collect mutators = .error f ∧ (f = .fatal .collectorFailed ∨ f.IsStarvation) := by
  obtain ⟨stopped, c, idle, mature, f, hopened, hreset, hstarvation, hf⟩ := h
  have hrun : Collection.runClosure c.plan =
      .error (Collection.reportFault (Collection.participants c.plan) f) := by
    simp only [Collection.runClosure, hreset, ok_bind]
    change (Collection.traceAll _ (c.plan.workers.take _) {}
      (c.plan.setHeap { c.plan.heap with mature })).mapError _ >>= _ = _
    rw [hf]
    rfl
  refine ⟨Collection.reportFault (Collection.participants c.plan) f, ?_, ?_⟩
  · simp only [Plan.collect_eq, hopened, hrun, ok_bind]
    rfl
  · unfold Collection.reportFault
    split
    · exact Or.inl rfl
    · exact Or.inr hstarvation

-- A collection, from `p` to `p'`. The collectors found the plan as `p₀`, and left it as `p₁`.
structure Evacuated (p p₀ p₁ p' : Plan) (stopped : List Mutator) (l l₀ l' : Layout)
    (known : Set Nat) (stats : TraceStats) (q : Progress) : Prop where
  opened : Opened p p₀ stopped l l₀ known
  closed : Closed p₀ p₁ l₀ stats q
  released : Released p₁ p' stopped q.layout l'
  scanned_eq : p'.last.scanned = stats.scanned
  copied_eq : p'.last.copied = stats.copied
  freed_eq : p'.last.freed + p'.heap.liveCount = p₁.heap.liveCount
  cycles_eq : p'.last.cycles = {}

-- Whoever closed the closure, the collection ends.
theorem Closed.conclude {p p₁ : Plan} {stopped : List Mutator} {l l₀ : Layout} {known : Set Nat}
    {c : Collection} {stats : TraceStats} {q : Progress} (hc : Closed c.plan p₁ l₀ stats q)
    (ho : Opened p c.plan stopped l l₀ known) (hnew : c.Untold) :
    ∃ p₂ p' l', c.conclude stats p₁ = .ok p' ∧ p₂.heap = p₁.heap ∧
      Evacuated p c.plan p₂ p' stopped l l₀ l' known stats q := by
  let c₂ := { c with plan := p₁ }.stopTimer .closure
  let c₃ := Collection.log { c₂ with metrics := { c₂.metrics with
    roots := stats.roots.total, scanned := stats.scanned, copied := stats.copied } }
      (.phaseEnd .closure (stats.scanned + stats.increments))
  have h₂ := Collection.noted_stopTimer { c with plan := p₁ } .closure
  have h₃ : c₂.plan.Noted c₃.plan := ⟨⟨rfl, rfl, rfl, rfl⟩, rfl, rfl, rfl⟩
  have hlast := Collection.noted_logQueueDepths c₃
  have hmetrics := hlast.metrics_eq
  have hclosed := hc.noted ((h₂.toNoted.trans h₃).trans hlast.toNoted)
  have hcounts : c₃.logQueueDepths.plan.counts = none := hclosed.counts_eq.trans ho.counts_eq
  have hprocess : c₃.logQueueDepths.processCounts = .ok c₃.logQueueDepths := by
    rw [Collection.processCounts, hcounts]
  obtain ⟨c₄, l', hrelease, hscanned, hcopied, hcycles, hfreed, hreleased⟩ :=
    Collection.release_closed ho hclosed
  obtain ⟨p', hfinish, hnoted, hrecorded⟩ := Collection.finish_ok hreleased.left.sound
  have hbefore : c₃.logQueueDepths.metrics.freed = 0 := by
    rw [hmetrics]
    exact hnew.freed_eq
  have hrun : c.conclude stats p₁ = .ok p' := by
    change c₃.logQueueDepths.processCounts >>= _ = _
    simp only [hprocess, hrelease, hfinish, ok_bind]
  have hlive : p'.last.freed + p'.heap.liveCount = c₃.logQueueDepths.plan.heap.liveCount := by
    rw [hrecorded.freed_eq, hnoted.heap_eq, hfreed, hbefore, Nat.zero_add]
  have hheap : c₃.logQueueDepths.plan.heap = p₁.heap :=
    hlast.heap_eq.trans (h₃.heap_eq.trans h₂.heap_eq)
  exact ⟨c₃.logQueueDepths.plan, p', l', hrun, hheap, ho, hclosed, hreleased.noted hnoted,
    hrecorded.scanned_eq.trans (hscanned.trans (congrArg Metrics.scanned hmetrics)),
    hrecorded.copied_eq.trans (hcopied.trans (congrArg Metrics.copied hmetrics)), hlive,
    hrecorded.cycles_eq.trans (hcycles.trans ((congrArg Metrics.cycles hmetrics).trans hnew.cycles_eq))⟩

-- The closure of a collection comes to its end, unless memory runs out.
theorem Opened.closed_or_starves {p : Plan} {mutators stopped : List Mutator} {l l₀ : Layout}
    {known : Set Nat} {c : Collection} (ho : Opened p c.plan stopped l l₀ known)
    (hopened : Collection.opened p mutators = .ok (stopped, c))
    (hnumbered : ∀ t ∈ p.scheduler.threads, t.Numbered) :
    (∃ stats p₁ q, Collection.runClosure c.plan = .ok (stats, p₁) ∧ Closed c.plan p₁ l₀ stats q) ∨
      p.Starves mutators := by
  rcases ho.runClosure hnumbered with hclosed | ⟨f, hf, hstarved⟩
  · exact Or.inl hclosed
  · obtain ⟨n, hworkers⟩ := ho.workers_eq
    obtain ⟨-, -, hdrop⟩ := Collection.participants_split hworkers
    have hreset := Collection.resetWorkers_fresh c.plan.memory c.plan.heap.mature
      (List.range' (Collection.participants c.plan) (n + 1 - Collection.participants c.plan))
    rw [← hdrop] at hreset
    exact Or.inr ⟨stopped, c, _, _, f, hopened, hreset, hstarved, hf⟩

-- A collection has a result, unless memory runs out.
theorem Plan.collect_affords {p : Plan} {mutators : List Mutator} {l : Layout} {known : Set Nat}
    (hs : Tidy p mutators l known) (hc : p.Collectable known) :
    (∃ stopped p' p₀ p₁ l₀ l' stats q, p.collect mutators = .ok (stopped, p') ∧
      Evacuated p p₀ p₁ p' stopped l l₀ l' known stats q) ∨ p.Starves mutators := by
  obtain ⟨stopped, c, l₀, hopened, hnew, ho⟩ := Collection.opened_ok hs hc
  rcases ho.closed_or_starves hopened hc.numbered with ⟨stats, p₁, q, hrun, hclosed⟩ | hstarves
  · obtain ⟨p₂, p', l', hconclude, -, he⟩ := hclosed.conclude ho hnew
    refine Or.inl ⟨stopped, p', c.plan, p₂, l₀, l', stats, q, ?_, he⟩
    simp only [Plan.collect_eq, hopened, hrun, hconclude, ok_bind]
  · exact Or.inr hstarves

end Reclaim
