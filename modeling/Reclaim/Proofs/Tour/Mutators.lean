import Reclaim.Proofs.Plan.Mutations
import Reclaim.Proofs.Tour.Tidy

/-!
Mutators of a plan that copies. They come and go, give up their blocks ahead of a collection, and make
objects.
-/
namespace Reclaim

open Heap Queue Sizes

-- The bump allocators of all mutators.
def Layout.deal (l : Layout) (young plots : List Bump) : Layout :=
  { l with
    nursery := { l.nursery with bumps := young }
    immortal := { l.immortal with bumps := plots } }

@[simp]
theorem Layout.immortals_deal (l : Layout) (young plots : List Bump) :
    (l.deal young plots).immortals = l.immortals := rfl

theorem Heap.Sound.deal {h : Heap} {l : Layout} (hs : h.Sound l) {s : Space}
    (hn : h.nursery = some s) {young plots : List Bump}
    (hyoung : Plots s h.memory l.nursery.runs l.nursery.rooms young)
    (hplots : Plots h.immortal.space h.memory l.immortal.runs l.immortal.rooms plots) :
    Rearranged h l h (l.deal young plots) :=
  (hs.rearrangeYoung hn hyoung).trans ((hs.rearrangeYoung hn hyoung).sound.rearrangeBumps hplots)

-- A new object that is not counted has not moved.
theorem Status.initial_mod_four (mark : Bool) : initial mark .black 0 % 4 = 0 := by
  cases mark <;> rfl

-- A new large object changes no mark of a cell.
theorem Heap.Sound.isMarked_allocChunk {h : Heap} {l : Layout} (hs : h.Sound l) {bytes align a o : Nat}
    {t : Treadmill} {m : Memory} (hbytes : bytes < Mapping.systemLimit)
    (halloc : h.large.alloc h.memory bytes align = .ok (o, t, m))
    (ha : h.spaceOf? a = some .mature) : Block.isMarked m a = Block.isMarked h.memory a := by
  obtain ⟨chunk, -, -, hgrown⟩ := hs.large_alloc hbytes halloc
  obtain ⟨s, hspace, hin⟩ := contains_of_spaceOf? ha
  cases hspace
  exact hs.isMarked_of_other (show h.space? .large = some _ from rfl)
    (fun b hb => hgrown.frame b (Or.inl hb)) (by decide) hin

namespace Tidy

variable {p p' : Plan} {m m' : Mutator} {rest mutators mutators' : List Mutator} {l l' : Layout}
variable {known : Set Nat} {o : Nat}

-- A new mutator.
theorem bind (hs : Tidy p mutators l known) :
    ∃ l', l'.immortals = l.immortals ∧ Tidy p (.new p :: mutators) l' known := by
  obtain ⟨s, hn⟩ := hs.nursery
  have hsound := hs.populated.sound
  have hnew : Mutator.new p = { standard := .bump .fresh } := by
    rw [Mutator.new, hn]
    rfl
  have hall := hsound.deal hn (hsound.nursery s hn).bind hsound.immortal.bind
  refine ⟨l.deal _ _, l.immortals_deal _ _, hs.rearrange hall rfl (fun m hm => ?_) ?_ ?_⟩
  · rcases List.mem_cons.mp hm with rfl | hm
    · rw [hnew]
      exact ⟨trivial, CellAllocator.owns_fresh _⟩
    · exact hs.owners m hm
  · rw [hnew]
    exact hs.standard.cons _
  · rw [hnew]
    exact hs.bumps.cons _

-- What a mutator keeps that has given up its blocks.
structure Stopped (m : Mutator) : Prop where
  standard_eq : m.standard = .bump .fresh
  immortal_eq : m.immortal = .fresh
  mature_eq : m.mature = {}

theorem reset (hs : Tidy p (m :: rest) l known) :
    ∃ m' c l', m.reset p = .ok (m', p.setHeap { p.heap with mature := c }) ∧
      l'.immortals = l.immortals ∧ Rearranged p.heap l { p.heap with mature := c } l' ∧
      Tidy (p.setHeap { p.heap with mature := c }) (m' :: rest) l' known ∧ Stopped m' := by
  obtain ⟨s, hn⟩ := hs.nursery
  have hsound := hs.populated.sound
  obtain ⟨b, bs, hb, hperm, hrest⟩ := hs.standard_cons
  have hown := hs.owners m List.mem_cons_self
  obtain ⟨c, hreset, hc, hlist, hspace⟩ := CellAllocator.Owns.reset hown.2 hsound.mature
  have hmature := hsound.rearrangeMature hc hspace hlist
  have hplots : Plots p.heap.immortal.space p.heap.memory l.immortal.runs l.immortal.rooms
      (.fresh :: rest.map (·.immortal)) := (hsound.immortal.perm hs.bumps).reset
  have hall := hmature.trans
    (hmature.sound.deal hn ((hsound.nursery s hn).perm hperm).reset hplots)
  refine ⟨{ m with standard := .bump .fresh, mature := {}, immortal := .fresh }, c, l.deal _ _, ?_,
    l.immortals_deal _ _, hall,
    hs.rearrange hall rfl (fun m₁ hm₁ => ?_) ?_ (List.Perm.refl _), rfl, rfl, rfl⟩
  · simp only [Mutator.reset_eq, hb, StandardAllocator.reset, Plan.memory, ok_bind, hreset]
  · rcases List.mem_cons.mp hm₁ with rfl | hm₁
    · exact ⟨trivial, CellAllocator.owns_fresh _⟩
    · exact (hs.owners m₁ (List.mem_cons_of_mem _ hm₁)).mono (hlist ▸ List.Subset.refl _)
  · exact hrest.cons _

theorem prepare (hs : Tidy p (m :: rest) l known) :
    ∃ m' c l', m.prepare p = .ok (m', p.setHeap { p.heap with mature := c }) ∧
      l'.immortals = l.immortals ∧ Rearranged p.heap l { p.heap with mature := c } l' ∧
      Tidy (p.setHeap { p.heap with mature := c }) (m' :: rest) l' known ∧ Stopped m' := by
  obtain ⟨m', c, l', hrun, himm, hr, hs', hstopped⟩ := hs.reset
  refine ⟨m', c, l', ?_, himm, hr, hs', hstopped⟩
  have hflush : m'.flush (p.setHeap { p.heap with mature := c }) =
      (m', p.setHeap { p.heap with mature := c }) := by
    rw [Mutator.flush, hs'.counts_eq]
  simp only [Mutator.prepare, hrun, ok_bind, hflush]

-- A mutator that goes away.
theorem drop (hs : Tidy p (m :: rest) l known) : ∃ c l',
    m.drop p = .ok (p.setHeap { p.heap with mature := c }) ∧ l'.immortals = l.immortals ∧
      Tidy (p.setHeap { p.heap with mature := c }) rest l' known := by
  obtain ⟨m', c, l', hrun, himm, -, hs', -⟩ := hs.prepare
  obtain ⟨s, hn⟩ := hs'.nursery
  have hsound := hs'.populated.sound
  obtain ⟨b, bs, -, hperm, hrest⟩ := hs'.standard_cons
  have hall := hsound.deal hn ((hsound.nursery s hn).perm hperm).tail
    (hsound.immortal.perm hs'.bumps).tail
  refine ⟨c, l'.deal _ _, ?_, (l'.immortals_deal _ _).trans himm, hs'.rearrange hall rfl
    (fun m₁ hm₁ => hs'.owners m₁ (List.mem_cons_of_mem _ hm₁)) hrest (List.Perm.refl _)⟩
  simp only [Mutator.drop, hrun, ok_bind]

-- All mutators stop. `rest` are those that are stopped already.
theorem prepareAll (todo rest : List Mutator) (hs : Tidy p (todo ++ rest) l known) :
    ∃ stopped c l', Collection.prepareMutators todo p =
        .ok (stopped, p.setHeap { p.heap with mature := c }) ∧
      stopped.length = todo.length ∧ l'.immortals = l.immortals ∧
      Rearranged p.heap l { p.heap with mature := c } l' ∧
      Tidy (p.setHeap { p.heap with mature := c }) (stopped ++ rest) l' known ∧
      ∀ m ∈ stopped, Stopped m := by
  induction todo generalizing p l rest with
  | nil =>
    exact ⟨[], p.heap.mature, l, rfl, rfl, rfl, .refl hs.populated.sound, hs, nofun⟩
  | cons m todo ih =>
    obtain ⟨m', c, l₁, hrun, himm, hr, hs₁, hstopped⟩ := hs.prepare
    obtain ⟨stopped, c₂, l₂, hrun₂, hlength, himm₂, hr₂, hs₂, hall⟩ :=
      ih (m' :: rest) (hs₁.perm List.perm_middle.symm)
    refine ⟨m' :: stopped, c₂, l₂, ?_, by simp [hlength], himm₂.trans himm, hr.trans hr₂,
      hs₂.perm List.perm_middle, fun m₁ hm₁ => ?_⟩
    · simp only [Collection.prepareMutators, hrun, ok_bind, hrun₂]
      rfl
    · rcases List.mem_cons.mp hm₁ with rfl | hm₁
      · exact hstopped
      · exact hall m₁ hm₁

-- What an allocation leaves to a mutator among others.
structure Served (p : Plan) (m : Mutator) (rest : List Mutator) (l : Layout) (bytes : Nat)
    (o : Nat) (m' : Mutator) (heap : Heap) (kind : SpaceKind) (size : Nat) (l' : Layout) : Prop where
  le_size : bytes ≤ size
  extended : Extended p.heap l kind o size heap l'
  blank : Blank heap.memory o size
  nursery : ∃ s, heap.nursery = some s
  standard : (l'.nursery.bumps.map StandardAllocator.bump).Perm
    (m'.standard :: rest.map (·.standard))
  bumps : l'.immortal.bumps.Perm (m'.immortal :: rest.map (·.immortal))
  immortals : l'.immortals = (if kind = .immortal then [o] else []) ++ l.immortals
  owns : m'.Owns heap.mature
  young : kind = .nursery → size = bytes
  bits : ∀ a, p.heap.spaceOf? a = some .mature →
    Block.isMarked heap.memory a = Block.isMarked p.heap.memory a

-- A request is served in the space that it names.
theorem allocIn (hs : Tidy p (m :: rest) l known) {bytes : Nat} (hpos : 0 < bytes)
    (hmod : bytes % wordBytes = 0) (hlt : bytes < Mapping.systemLimit) {semantics : Semantics}
    {space : String} (h : m.allocIn p bytes wordBytes semantics = .ok (o, space, m', p')) :
    ∃ heap kind size l', p' = p.setHeap heap ∧ (kind = .nursery → semantics = .standard) ∧
      Served p m rest l bytes o m' heap kind size l' := by
  have hsound := hs.populated.sound
  have hown := hs.owners m List.mem_cons_self
  obtain ⟨s, hn⟩ := hs.nursery
  cases semantics with
  | standard =>
    simp only [Mutator.allocIn] at h
    obtain ⟨⟨a, m₁, p₁⟩, halloc, h⟩ := bind_eq_ok.mp h
    cases h
    obtain ⟨b, bs, hb, hperm, hrest⟩ := hs.standard_cons
    simp only [Mutator.allocStandard, hb, hn] at halloc
    obtain ⟨⟨a, b', s'⟩, hbump, halloc⟩ := bind_eq_ok.mp halloc
    cases halloc
    obtain ⟨runs, hext, hblank⟩ := hsound.allocYoung hn hperm hpos hmod hlt hbump
    exact ⟨_, .nursery, bytes, _, rfl, fun _ => rfl, {
      le_size := le_refl _
      extended := hext
      blank := hblank
      nursery := ⟨s', rfl⟩
      standard := hrest.cons _
      bumps := hs.bumps
      immortals := rfl
      owns := ⟨trivial, hown.2⟩
      young := fun _ => rfl
      bits := fun _ _ => rfl }⟩
  | mature =>
    simp only [Mutator.allocIn] at h
    obtain ⟨⟨a, x', p₁⟩, hcells, h⟩ := bind_eq_ok.mp h
    cases h
    obtain ⟨⟨a, x₁, c, memory⟩, halloc, hcells⟩ := bind_eq_ok.mp hcells
    cases hcells
    obtain ⟨size, hsize, hx', hext, hblank⟩ := hsound.allocCell hown.2 halloc
    exact ⟨_, .mature, size, l, rfl, fun hk => absurd hk (by decide), {
      le_size := hsize
      extended := hext
      blank := hblank
      nursery := ⟨s, hn⟩
      standard := hs.standard
      bumps := hs.bumps
      immortals := rfl
      owns := ⟨(hown.mono hext.listing_subset).1, hx'⟩
      young := fun hk => absurd hk (by decide)
      bits := fun a _ => hown.2.isMarked_alloc hsound.mature hsound.mature_extent_lt halloc a }⟩
  | large =>
    simp only [Mutator.allocIn] at h
    obtain ⟨⟨a, t, memory⟩, halloc, h⟩ := bind_eq_ok.mp h
    cases h
    obtain ⟨chunk, size, hsize, hext, hblank⟩ := hsound.allocChunk hlt halloc
    exact ⟨_, .large, size, _, rfl, fun hk => absurd hk (by decide), {
      le_size := hsize
      extended := hext
      blank := hblank
      nursery := ⟨s, hn⟩
      standard := hs.standard
      bumps := hs.bumps
      immortals := rfl
      owns := hown.mono hext.listing_subset
      young := fun hk => absurd hk (by decide)
      bits := fun a ha => hsound.isMarked_allocChunk hlt halloc ha }⟩
  | immortal =>
    simp only [Mutator.allocIn] at h
    obtain ⟨⟨a, b, space'⟩, halloc, h⟩ := bind_eq_ok.mp h
    cases h
    obtain ⟨runs, hext, hblank⟩ := hsound.allocPlot hs.bumps hpos hmod hlt halloc
    exact ⟨_, .immortal, bytes, _, rfl, fun hk => absurd hk (by decide), {
      le_size := le_refl _
      extended := hext
      blank := hblank
      nursery := ⟨s, hn⟩
      standard := hs.standard
      bumps := List.Perm.refl _
      immortals := rfl
      owns := hown.mono hext.listing_subset
      young := fun hk => absurd hk (by decide)
      bits := fun _ _ => rfl }⟩

-- An allocation.
theorem alloc (hs : Tidy p (m :: rest) l known) {bytes : Nat} (hpos : 0 < bytes)
    (hmod : bytes % wordBytes = 0) (hlt : bytes < Mapping.systemLimit) {semantics : Semantics}
    (h : m.alloc p bytes wordBytes semantics = .ok (o, m', p')) :
    ∃ heap requests events kind size l', p' = { p with heap, requests, events } ∧
      (kind = .nursery → bytes ≤ p.config.largeObjectThreshold) ∧
      Served p m rest l bytes o m' heap kind size l' := by
  obtain ⟨⟨a, space, m₁, p₁⟩, halloc, h⟩ := bind_eq_ok.mp h
  obtain ⟨⟨asked, p₂⟩, hpoll, h⟩ := bind_eq_ok.mp h
  cases h
  obtain ⟨heap, kind, size, l', rfl, hstandard, hserved⟩ := hs.allocIn hpos hmod hlt halloc
  obtain ⟨requests, events, rfl⟩ := Plan.poll_ok hpoll
  refine ⟨heap, requests, events, kind, size, l', rfl, fun hk => ?_, hserved⟩
  -- Standard requests above the threshold are redirected.
  have hredirect := hstandard hk
  cases semantics <;> simp only [Mutator.redirect] at hredirect
  · split_ifs at hredirect
    omega
  · split_ifs at hredirect
  · cases hredirect
  · cases hredirect

-- The new object of an allocation gets its header.
theorem create (hs : Tidy p (m :: rest) l known) {kind : SpaceKind} {bytes size s : Nat}
    {heap : Heap} {memory : Memory} (requests : Requests) (events : List Event)
    (hserved : Served p m rest l bytes o m' heap kind size l')
    (hsmall : kind = .nursery → bytes ≤ p.config.largeObjectThreshold)
    (hext : Extended p.heap l kind o size { heap with memory } l')
    (hp : Populated { heap with memory } l') (hstatus : memory.read o = s) (hs4 : s % 4 = 0)
    (hmarked : kind = .large → Status.isMarked s heap.large.markState = true)
    (hwords : ∀ a, a < o ∨ o + size ≤ a → memory.read a = heap.memory.read a) :
    Tidy { p with heap := { heap with memory }, requests, events } (m' :: rest) l'
      (insert o known) where
  policy_eq := hs.policy_eq
  counts_eq := hs.counts_eq
  nursery := hserved.nursery
  workers_eq := hs.workers_eq
  populated := hp
  reached_eq := hext.reached_eq.trans hs.reached_eq
  young x bytes' hx := by
    rcases (hext.room_iff _ _ _).mp hx with hr | ⟨hk, rfl, rfl⟩
    · rw [(hext.same hs.populated hr).2.2]
      exact hs.young _ _ hr
    · rw [hserved.young hk.symm]
      exact ⟨hstatus.symm ▸ hs4, hsmall hk.symm⟩
  cells a ha := by
    have ha' : p.heap.spaceOf? a = some .mature := (hserved.extended.spaceOf?_eq a) ▸ ha
    have hroom := hserved.extended.room
    refine (hserved.extended.sound.isMarked_eq ha fun b kind' hb hout => hwords b ?_).trans
      ((hserved.bits a ha').trans (hs.cells a ha'))
    by_contra hcon
    exact hout (hserved.extended.sound.inside_room hroom (by omega) (by omega) hb)
  chunks x bytes' hx := by
    rcases (hext.room_iff _ _ _).mp hx with hr | ⟨hk, rfl, rfl⟩
    · rw [(hext.same hs.populated hr).2.2, hext.large_mark]
      exact hs.chunks _ _ hr
    · change Status.isMarked (memory.read x) heap.large.markState = true
      rw [hstatus]
      exact hmarked hk.symm
  owners m₁ hm₁ := by
    rcases List.mem_cons.mp hm₁ with rfl | hm₁
    · exact hserved.owns
    · exact (hs.owners m₁ (List.mem_cons_of_mem _ hm₁)).mono hext.listing_subset
  standard := hserved.standard
  bumps := hserved.bumps
  queues := hs.queues
  globals slot hslot := ⟨(hs.globals slot hslot).1,
    (hext.spaceOf?_eq slot).trans (hs.globals slot hslot).2⟩
  threshold := hs.threshold
  known_iff x := by
    rw [Set.mem_insert_iff, hs.known_iff]
    constructor
    · rintro (rfl | ⟨kind', bytes', hr⟩)
      · exact ⟨kind, size, hext.room⟩
      · exact ⟨kind', bytes', (hext.room_iff _ _ _).mpr (Or.inl hr)⟩
    · rintro ⟨kind', bytes', hr⟩
      rcases (hext.room_iff _ _ _).mp hr with hr | ⟨-, rfl, -⟩
      · exact Or.inr ⟨kind', bytes', hr⟩
      · exact Or.inl rfl

-- The making of an object.
theorem newObject (hs : Tidy p (m :: rest) l known) {type length : Nat} {semantics : Semantics}
    (hfit : ∀ info bytes, p.heap.types.info type = .ok info →
      info.bytesRequired length = .ok bytes → bytes < Mapping.systemLimit)
    (h : m.newObject p type length semantics = .ok (o, m', p')) :
    ∃ kind size l', Extended p.heap l kind o size p'.heap l' ∧
      l'.immortals = (if kind = .immortal then [o] else []) ++ l.immortals ∧
      Tidy p' (m' :: rest) l' (insert o known) ∧
      ∃ info bytes, p.heap.types.info type = .ok info ∧ info.bytesRequired length = .ok bytes ∧
        Object.size p'.heap.types p'.memory o = .ok bytes := by
  obtain ⟨info, bytes, m₁, p₁, hinfo, hbytes, hpos, hmod, halloc, hpost⟩ :=
    Mutator.newObject_cases hs.populated.sound.types h
  obtain ⟨heap, requests, events, kind, size, l', rfl, hsmall, hserved⟩ :=
    hs.alloc hpos hmod (hfit _ _ hinfo hbytes) halloc
  have hext := hserved.extended
  have hcounted : ({ p with heap, requests, events } : Plan).isCounted o = false := by
    simp only [Plan.isCounted, hs.counts_eq]
    rfl
  rw [Mutator.postAlloc_eq m₁ hcounted (hext.types_eq ▸ hinfo)
    (hext.sound.room_mem hext.room).1] at hpost
  simp only [Bool.false_eq_true, if_false, Bool.false_and] at hpost
  cases hpost
  obtain ⟨hext', hpop, -, hstatus, hwords⟩ := hext.writeHeader hs.populated hserved.blank hinfo
    hbytes hserved.le_size (s := Status.initial (Mutator.newMark heap o) .black 0)
  have hspace : heap.spaceOf? o = some kind := by
    exact hext.sound.spaceOf?_start hext.room
  have htold := Object.size_writeHeader hext.sound.types (hext.types_eq.symm ▸ hinfo) hbytes
    (hpop.formed _ _ _ hext'.room)
  refine ⟨kind, size, l', hext', hserved.immortals, hs.create requests events hserved hsmall hext'
    hpop hstatus (Status.initial_mod_four _) (fun hk => ?_) hwords, info, bytes, hinfo, hbytes, htold⟩
  rw [hk] at hspace
  rw [Mutator.newMark, hspace]
  exact Immortal.isMarked_initial _ _ _

theorem room_of_known (hs : Tidy p mutators l known) (ho : o ∈ known) :
    ∃ kind bytes, Room p.heap l kind o bytes := (hs.known_iff o).mp ho

-- A reference is written into a field. The value does not matter before the next collection.
theorem writeReference (hs : Tidy p mutators l known) {index : Nat} {value : Option Nat}
    (ho : o ∈ known) (h : m.writeReference p o index value = .ok (m', p')) :
    m' = m ∧ ∃ memory, p' = p.setMemory memory ∧ Tidy p' mutators l known ∧
      ∀ kind x bytes, Room p.heap l kind x bytes →
        Object.size p.heap.types memory x = Object.size p.heap.types p.memory x := by
  obtain ⟨slot, hfield, h⟩ := bind_eq_ok.mp h
  simp only [hs.counts_eq, Option.isNone_none, if_true] at h
  obtain ⟨memory, hstore, h⟩ := bind_eq_ok.mp h
  cases h
  obtain ⟨kind, bytes, hr⟩ := hs.room_of_known ho
  have hformed := hs.populated.formed _ _ _ hr
  have hslot := Mutator.fieldSlot_mem hformed hfield
  unfold Memory.storeRef Memory.store at hstore
  split_ifs at hstore
  cases hstore
  obtain ⟨info, size, -, hinfo, -, hle, -, -, -, hmem, -⟩ := hformed.slotsOf_eq
  obtain ⟨-, h1, h2⟩ := hmem slot hslot
  have hheader := info.scalarHeaderBytes_le
  simp only [Types.scalarHeaderBytes, wordBytes] at hheader h2
  exact ⟨rfl, _, rfl, hs.writeWord hr (by omega) (by omega) (hformed.write_slot hslot _).1,
    fun _ _ _ hx => hs.populated.size_write hr hinfo h1 (by omega) _ hx⟩

-- A word of data in an object is written.
theorem writeData (hs : Tidy p mutators l known) (ho : o ∈ known)
    {info : TypeInfo} {bytes a : Nat} (hinfo : Object.info p.heap.types p.memory o = .ok info)
    (hsize : Object.size p.heap.types p.memory o = .ok bytes) (h1 : o + info.headerBytes ≤ a)
    (h2 : a < o + bytes) (hdata : a ∉ Object.slotsOf p.heap.types p.memory o) (w : Nat) :
    Tidy (p.setMemory (p.memory.write a w)) mutators l known := by
  obtain ⟨kind, size, hr⟩ := hs.room_of_known ho
  have hformed := hs.populated.formed _ _ _ hr
  have hfits : bytes ≤ size := by
    obtain ⟨size', h3, -, h4⟩ := hformed.size_ok
    obtain rfl := Except.ok.inj (h3.symm.trans hsize)
    exact h4
  have hheader := info.scalarHeaderBytes_le
  simp only [Types.scalarHeaderBytes] at hheader
  exact hs.writeWord hr (by omega) (by omega) (hformed.write_data hinfo h1 hdata w).1

end Tidy

end Reclaim
