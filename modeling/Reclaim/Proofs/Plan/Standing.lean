import Reclaim.Plan.Collect
import Reclaim.Proofs.Heap.Extension
import Reclaim.Proofs.Plan.Islands
import Reclaim.Proofs.Roots

/-!
A plan that counts references, between two operations. What mutators do to it keeps the account: they
count a reference when they write it and leave the decrement of the one it replaces for later.
-/
namespace Reclaim

open CountedHeap Heap Queue Sizes

def Layout.immortals (l : Layout) : List Nat := l.immortal.rooms.map (·.1)

-- The blocks that an allocator has belong to the right size classes.
def StandardAllocator.Owns : StandardAllocator → Cells → Prop
  | .bump _, _ => True
  | .cells x, c => x.Owns c

namespace Mutator

def Owns (m : Mutator) (c : Cells) : Prop := m.standard.Owns c ∧ m.mature.Owns c

theorem Owns.mono {m : Mutator} {c c' : Cells} (hm : m.Owns c) (h : c.listing ⊆ c'.listing) :
    m.Owns c' := by
  refine ⟨?_, hm.2.mono h⟩
  have h1 := hm.1
  cases hs : m.standard with
  | bump b => exact trivial
  | cells x =>
    rw [hs] at h1
    exact CellAllocator.Owns.mono h1 h

end Mutator

-- What refers to counted objects from outside of them: immortal objects, the roots that the last
-- collection counted, and the decrements that wait.
def outside (h : Heap) (immortals : List Nat) (counts : CountState) (mutators : List Mutator) :
    List Nat :=
  immortals.flatMap h.refs ++ counts.oldRoots ++ counts.decrements.entries ++
    mutators.flatMap (·.decrements.held)

-- No collector has work to do. Buffers are all of one size.
structure TraceQueues.Idle (q : TraceQueues) (capacity : Nat) : Prop where
  values : q.values.Valid ∧ q.values.entries = [] ∧ q.values.Sized capacity 1
  locations : q.locations.Valid ∧ q.locations.entries = [] ∧ q.locations.Sized capacity 1
  interior : q.interior.Valid ∧ q.interior.entries = [] ∧ q.interior.Sized capacity 2

-- A slot outside of the spaces, where a root may be.
def Slot (h : Heap) (slot : Nat) : Prop := slot % wordBytes = 0 ∧ h.spaceOf? slot = none

-- The root leads to a known object, if anywhere.
def Root.Leads (h : Heap) (known : Set Nat) : Root → Prop
  | .location slot => Slot h slot ∧ (h.memory.read slot = 0 ∨ h.memory.read slot ∈ known)
  | .interior base slot => Slot h slot ∧ base ∈ known ∧ base ≤ h.memory.read slot ∧
    h.memory.read slot < Word.bound
  | .value o => o ∈ known

-- All roots that a collection of the plan scans.
def Plan.roots (p : Plan) : List Root :=
  p.globals.roots ++ p.scheduler.threads.flatMap (·.roots)

-- Entries of a buffer.
def Plan.buffer (p : Plan) : Nat := max p.config.queueBufferEntries 1

structure Plan.Rooted (p : Plan) (known : Set Nat) : Prop where
  leads : ∀ root ∈ p.roots, root.Leads p.heap known
  numbered : ∀ t ∈ p.scheduler.threads, t.Numbered

theorem Plan.Rooted.congr {p p' : Plan} {known known' : Set Nat} (hr : p.Rooted known)
    (hglobals : p'.globals = p.globals) (hscheduler : p'.scheduler = p.scheduler)
    (hspace : ∀ a, p'.heap.spaceOf? a = p.heap.spaceOf? a)
    (hmemory : ∀ a, p.heap.spaceOf? a = none → p'.heap.memory.read a = p.heap.memory.read a)
    (hknown : known ⊆ known') : p'.Rooted known' := by
  refine ⟨fun root hroot => ?_, by rw [hscheduler]; exact hr.numbered⟩
  rw [Plan.roots, hglobals, hscheduler] at hroot
  have hleads := hr.leads root hroot
  cases root with
  | location slot =>
    obtain ⟨⟨h1, h2⟩, h3⟩ := hleads
    refine ⟨⟨h1, (hspace slot).trans h2⟩, ?_⟩
    rw [hmemory slot h2]
    exact h3.imp_right fun h => hknown h
  | interior base slot =>
    obtain ⟨⟨h1, h2⟩, h3, h4⟩ := hleads
    refine ⟨⟨h1, (hspace slot).trans h2⟩, hknown h3, ?_⟩
    rwa [hmemory slot h2]
  | value o => exact hknown hleads

-- The counted objects are those of `r`. `hand` lists references that an operation under way has
-- counted or not yet given up, `known` are the objects that mutators may use.
structure Standing (p : Plan) (mutators : List Mutator) (counts : CountState) (l : Layout)
    (r : Finset Nat) (hand : List Nat) (known : Set Nat) : Prop where
  policy_eq : p.policy = .refcount
  counts_eq : p.counts = some counts
  nursery_eq : p.heap.nursery = none
  workers_eq : ∃ n, p.workers = (List.range (n + 1)).map fun i => { ordinal := i + 1 }
  populated : p.heap.Populated l
  aligned : p.heap.Aligned l
  reached_eq : l.reached = []
  roll : Roll p.heap l r
  -- References lead to counted objects or to immortal ones.
  inner : ∀ kind o bytes, Room p.heap l kind o bytes → ∀ x ∈ p.heap.refs o,
    p.heap.inCountedSpace x = true ∨ x ∈ l.immortals
  owners : ∀ m ∈ mutators, m.Owns p.heap.mature
  bumps : l.immortal.bumps.Perm (mutators.map (·.immortal))
  books : Books p.heap r (hand ++ outside p.heap l.immortals counts mutators) counts.cycles
  decrements : counts.decrements.Valid
  newRoots : counts.newRoots.Valid ∧ counts.newRoots.entries = [] ∧
    counts.newRoots.Sized p.buffer 1
  queues : p.queues.Idle p.buffer
  rooted : p.Rooted known
  tended : Tended p.heap r counts.cycles
  anchored : ∀ o ∈ known, o ∈ l.immortals ∨
    Anchored p.heap (hand ++ outside p.heap l.immortals counts mutators) o
  grain : counts.cycles.settings.visitGrain ≠ 0
  bound : counts.cycles.settings.visitBound ≠ 0
  filterBound : counts.cycles.settings.filterBound ≠ 0

namespace Standing

variable {p p' : Plan} {m m' : Mutator} {rest mutators : List Mutator} {counts : CountState}
variable {l : Layout} {r : Finset Nat} {hand : List Nat} {known : Set Nat} {o : Nat}

-- The mutators in any order.
theorem perm (hs : Standing p mutators counts l r hand known) {mutators' : List Mutator}
    (hp : mutators.Perm mutators') : Standing p mutators' counts l r hand known :=
  { hs with
    owners := fun m hm => hs.owners m (hp.mem_iff.mpr hm)
    bumps := hs.bumps.trans (hp.map _)
    books := hs.books.perm (((List.Perm.refl _).append (hp.flatMap_right _)).append_left _)
    anchored := fun o ho => (hs.anchored o ho).imp_right fun ha => ha.mono hs.books (fun _ ha => ha)
      (fun _ ha => (((List.Perm.refl _).append (hp.flatMap_right _)).append_left _).subset ha)
      (fun _ => rfl) fun _ _ => rfl }

theorem room_of_mem (hs : Standing p mutators counts l r hand known) (ho : o ∈ r) :
    ∃ kind bytes, kind.isCounted = true ∧ Room p.heap l kind o bytes := (hs.roll o).mp ho

theorem mem_immortals : o ∈ l.immortals ↔ ∃ bytes, Room p.heap l .immortal o bytes := by
  rw [Layout.immortals, List.mem_map]
  constructor
  · rintro ⟨⟨x, bytes⟩, hmem, rfl⟩
    exact ⟨bytes, .plot hmem⟩
  · rintro ⟨bytes, hr⟩
    cases hr with
    | plot hr => exact ⟨_, hr, rfl⟩

-- What mutators may use has a room, and a count if it is counted.
theorem of_known (hs : Standing p mutators counts l r hand known) (ho : o ∈ known) :
    (o ∈ r ∧ 0 < count p.heap o ∧ p.heap.inCountedSpace o = true) ∨
      o ∈ l.immortals ∧ p.heap.inCountedSpace o = false := by
  rcases hs.anchored o ho with hi | ha
  · obtain ⟨bytes, hr⟩ := (mem_immortals (p := p)).mp hi
    exact Or.inr ⟨hi, hs.populated.sound.inCountedSpace_room hr⟩
  · obtain ⟨hr, hpos⟩ := Counting.mem_live.mp (hs.books.live_of_anchored ha)
    obtain ⟨kind, bytes, hk, hroom⟩ := hs.room_of_mem hr
    exact Or.inl ⟨hr, hpos, (hs.populated.sound.inCountedSpace_room hroom).trans hk⟩

theorem room_of_known (hs : Standing p mutators counts l r hand known) (ho : o ∈ known) :
    ∃ kind bytes, Room p.heap l kind o bytes := by
  rcases hs.of_known ho with ⟨hr, -⟩ | ⟨hi, -⟩
  · obtain ⟨kind, bytes, -, hroom⟩ := hs.room_of_mem hr
    exact ⟨kind, bytes, hroom⟩
  · obtain ⟨bytes, hroom⟩ := (mem_immortals (p := p)).mp hi
    exact ⟨_, _, hroom⟩

theorem isCounted_eq (hs : Standing p mutators counts l r hand known) (x : Nat) :
    p.isCounted x = p.heap.inCountedSpace x := by
  rw [Plan.isCounted, hs.counts_eq]
  rfl

end Standing

theorem Plan.poll_ok {p p' : Plan} {must asked : Bool} {space : String}
    (h : p.poll must space = .ok (asked, p')) :
    ∃ requests events, p' = { p with requests, events } := by
  unfold Plan.poll at h
  split at h
  · cases h
    exact ⟨_, _, rfl⟩
  · obtain ⟨reserved, -, h⟩ := bind_eq_ok.mp h
    split at h
    · cases h
      exact ⟨_, _, rfl⟩
    · simp only [Plan.ask, Plan.log] at h
      split at h <;> cases h <;> exact ⟨_, _, rfl⟩

namespace Mutator

variable {p p' : Plan} {m m' : Mutator} {rest : List Mutator} {counts : CountState} {l : Layout}
variable {r : Finset Nat} {hand : List Nat} {known : Set Nat} {o bytes : Nat}

theorem allocCells_ok {x x' : CellAllocator} (hs : p.heap.Sound l) (hx : x.Owns p.heap.mature)
    {align : Nat} (h : allocCells p x bytes align = .ok (o, x', p')) :
    ∃ heap size, p' = { p with heap } ∧ bytes ≤ size ∧ x'.Owns heap.mature ∧
      Extended p.heap l .mature o size heap l ∧ Blank heap.memory o size := by
  obtain ⟨⟨a, x₁, c, memory⟩, halloc, h⟩ := bind_eq_ok.mp h
  cases h
  obtain ⟨size, hsize, hown, hext, hblank⟩ := hs.allocCell hx halloc
  exact ⟨_, size, rfl, hsize, hown, hext, hblank⟩

-- What an allocation leaves to a mutator among others.
structure Served (p : Plan) (m : Mutator) (rest : List Mutator) (l : Layout) (bytes : Nat)
    (o : Nat) (m' : Mutator) (p' : Plan) : Prop where
  room : ∃ heap requests events kind size l', p' = { p with heap, requests, events } ∧
    bytes ≤ size ∧ Extended p.heap l kind o size heap l' ∧ Blank heap.memory o size ∧
    l'.immortal.bumps.Perm (m'.immortal :: rest.map (·.immortal)) ∧
    l'.immortals = (if kind = .immortal then [o] else []) ++ l.immortals ∧ m'.Owns heap.mature ∧
    kind ≠ .nursery
  decrements_eq : m'.decrements = m.decrements

-- A request is served in the space that it names.
theorem allocIn_ok (hs : Standing p (m :: rest) counts l r hand known) (hpos : 0 < bytes)
    (hmod : bytes % wordBytes = 0) (hlt : bytes < Mapping.systemLimit) {semantics : Semantics}
    {space : String} (h : m.allocIn p bytes wordBytes semantics = .ok (o, space, m', p')) :
    Served p m rest l bytes o m' p' := by
  have hsound := hs.populated.sound
  have hown := hs.owners m List.mem_cons_self
  cases semantics with
  | standard =>
    simp only [allocIn] at h
    obtain ⟨⟨a, m₁, p₁⟩, halloc, h⟩ := bind_eq_ok.mp h
    cases h
    unfold allocStandard at halloc
    rw [hs.nursery_eq] at halloc
    split at halloc
    · rename_i hn
      cases hn
    · cases halloc
    · rename_i x hx
      obtain ⟨⟨a, x', p₁⟩, hcells, halloc⟩ := bind_eq_ok.mp halloc
      cases halloc
      have hxo := hown.1
      rw [hx] at hxo
      obtain ⟨heap, size, rfl, hsize, hx', hext, hblank⟩ := allocCells_ok hsound hxo hcells
      exact ⟨⟨heap, p.requests, p.events, .mature, size, l, rfl, hsize, hext, hblank, hs.bumps,
        rfl, ⟨hx', hown.2.mono hext.listing_subset⟩, nofun⟩, rfl⟩
  | mature =>
    simp only [allocIn] at h
    obtain ⟨⟨a, x', p₁⟩, hcells, h⟩ := bind_eq_ok.mp h
    cases h
    obtain ⟨heap, size, rfl, hsize, hx', hext, hblank⟩ := allocCells_ok hsound hown.2 hcells
    exact ⟨⟨heap, p.requests, p.events, .mature, size, l, rfl, hsize, hext, hblank, hs.bumps, rfl,
      ⟨(hown.mono hext.listing_subset).1, hx'⟩, nofun⟩, rfl⟩
  | large =>
    simp only [allocIn] at h
    obtain ⟨⟨a, t, memory⟩, halloc, h⟩ := bind_eq_ok.mp h
    cases h
    obtain ⟨chunk, size, hsize, hext, hblank⟩ := hsound.allocChunk hlt halloc
    exact ⟨⟨_, p.requests, p.events, .large, size, _, rfl, hsize, hext, hblank, hs.bumps, rfl,
      hown.mono hext.listing_subset, nofun⟩, rfl⟩
  | immortal =>
    simp only [allocIn] at h
    obtain ⟨⟨a, b, space'⟩, halloc, h⟩ := bind_eq_ok.mp h
    cases h
    obtain ⟨runs, hext, hblank⟩ := hsound.allocPlot hs.bumps hpos hmod hlt halloc
    exact ⟨⟨_, p.requests, p.events, .immortal, bytes, _, rfl, le_refl _, hext, hblank,
      List.Perm.refl _, rfl, hown.mono hext.listing_subset, nofun⟩, rfl⟩

theorem alloc_ok (hs : Standing p (m :: rest) counts l r hand known) (hpos : 0 < bytes)
    (hmod : bytes % wordBytes = 0) (hlt : bytes < Mapping.systemLimit) {semantics : Semantics}
    (h : m.alloc p bytes wordBytes semantics = .ok (o, m', p')) :
    Served p m rest l bytes o m' p' := by
  obtain ⟨⟨a, space, m₁, p₁⟩, halloc, h⟩ := bind_eq_ok.mp h
  obtain ⟨⟨asked, p₂⟩, hpoll, h⟩ := bind_eq_ok.mp h
  cases h
  obtain ⟨requests, events, rfl⟩ := Plan.poll_ok hpoll
  obtain ⟨⟨heap, requests₁, events₁, kind, size, l', rfl, hrest⟩, hdec⟩ :=
    allocIn_ok hs hpos hmod hlt halloc
  exact ⟨⟨heap, requests, events, kind, size, l', rfl, hrest⟩, hdec⟩

end Mutator

end Reclaim
