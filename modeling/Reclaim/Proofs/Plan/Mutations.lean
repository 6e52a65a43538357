import Reclaim.Proofs.Plan.Standing

/-!
What mutators do between collections: they make objects, write references and data, change roots, name
candidates and come and go. Each keeps the plan in order.
-/
namespace Reclaim

open CountedHeap Heap Queue Sizes

namespace Standing

variable {p p' : Plan} {m m' : Mutator} {rest mutators : List Mutator} {counts : CountState}
variable {l : Layout} {r : Finset Nat} {hand hand' : List Nat} {known : Set Nat} {o : Nat}

-- A decrement is buffered.
theorem defer (hs : Standing p (m :: rest) counts l r (o :: hand) known)
    (h : m.defer p o = .ok (m', p')) :
    ∃ decrements chain, m' = { m with decrements } ∧
      p' = { p with counts := some { counts with decrements := chain } } ∧
      Standing p' (m' :: rest) { counts with decrements := chain } l r hand known := by
  simp only [Mutator.defer, hs.counts_eq] at h
  obtain ⟨_, -, h⟩ := bind_eq_ok.mp h
  cases h
  have hperm : (o :: hand ++ outside p.heap l.immortals counts (m :: rest)).Perm
      (hand ++ outside p.heap l.immortals
        { counts with decrements := (m.decrements.insert counts.decrements o).2 }
        ({ m with decrements := (m.decrements.insert counts.decrements o).1 } :: rest)) := by
    have hperm := Ends.insert_perm m.decrements counts.decrements o
    rw [List.perm_iff_count] at hperm ⊢
    intro x
    have hx := hperm x
    simp only [outside, List.flatMap_cons, List.count_append, List.count_cons] at hx ⊢
    omega
  refine ⟨_, _, rfl, rfl, { hs with
    counts_eq := rfl
    owners := fun m' hm' => ?_
    books := hs.books.perm hperm
    decrements := Ends.insert_valid _ _ hs.decrements
    rooted := hs.rooted.congr rfl rfl (fun _ => rfl) (fun _ _ => rfl) (Set.Subset.refl _)
    anchored := fun x hx => (hs.anchored x hx).imp_right fun ha => ha.mono hs.books (fun _ ha => ha)
      (fun a ha => hperm.subset ha) (fun _ => rfl) fun _ _ => rfl }⟩
  rcases List.mem_cons.mp hm' with rfl | hm'
  · exact hs.owners m List.mem_cons_self
  · exact hs.owners m' (List.mem_cons_of_mem _ hm')

-- A heap with one more object.
section Create

variable (hs : Standing p (m :: rest) counts l r [] known) {kind : SpaceKind} {size : Nat}
  {h₂ : Heap} {l' : Layout} (hext : Extended p.heap l kind o size h₂ l')
include hs hext

-- The counted objects that were there are as they were.
theorem kept_of_extended {x : Nat} (hx : x ∈ r) :
    status h₂ x = status p.heap x ∧ h₂.refs x = p.heap.refs x := by
  obtain ⟨kind', bytes, -, hr⟩ := hs.room_of_mem hx
  obtain ⟨-, hrefs, hstatus⟩ := hext.same hs.populated hr
  exact ⟨hstatus, hrefs⟩

theorem not_mem_of_extended : o ∉ r := fun ho => by
  obtain ⟨kind', bytes, -, hr⟩ := hs.room_of_mem ho
  exact hext.fresh _ _ hr

theorem roll_of_extended : Roll h₂ l' (if kind.isCounted then insert o r else r) := by
  intro x
  have hx : (∃ kind' bytes, kind'.isCounted = true ∧ Room h₂ l' kind' x bytes) ↔
      x ∈ r ∨ kind.isCounted = true ∧ x = o := by
    rw [hs.roll x]
    constructor
    · rintro ⟨kind', bytes, hk, hr⟩
      rcases (hext.room_iff _ _ _).mp hr with hr | ⟨rfl, rfl, rfl⟩
      · exact Or.inl ⟨kind', bytes, hk, hr⟩
      · exact Or.inr ⟨hk, rfl⟩
    · rintro (⟨kind', bytes, hk, hr⟩ | ⟨hk, rfl⟩)
      · exact ⟨kind', bytes, hk, (hext.room_iff _ _ _).mpr (Or.inl hr)⟩
      · exact ⟨kind, size, hk, hext.room⟩
  rw [hx]
  cases hk : kind.isCounted <;> simp [or_comm]

omit hs in
theorem inCountedSpace_of_extended : h₂.inCountedSpace o = kind.isCounted :=
  hext.sound.inCountedSpace_room hext.room

variable (hnone : h₂.refs o = [])
include hnone

-- The new object refers to nothing, so whoever refers to counted objects is as before.
theorem outside_of_extended
    (himm : l'.immortals = (if kind = .immortal then [o] else []) ++ l.immortals)
    (hdec : m'.decrements = m.decrements) : outside h₂ l'.immortals counts (m' :: rest) =
      outside p.heap l.immortals counts (m :: rest) := by
  have hflat : l'.immortals.flatMap h₂.refs = l.immortals.flatMap p.heap.refs := by
    rw [himm, List.flatMap_append, show (if kind = .immortal then [o] else []).flatMap h₂.refs = []
      by split_ifs <;> simp [hnone], List.nil_append]
    refine List.flatMap_congr fun x hx => ?_
    obtain ⟨bytes, hr⟩ := mem_immortals.mp hx
    exact (hext.same hs.populated hr).2.1
  rw [outside, outside, hflat, List.flatMap_cons, List.flatMap_cons, hdec]

-- A counted object is in the hand of its maker.
theorem books_of_extended
    (hcounted : kind.isCounted = true → Status.count (status h₂ o) = 1 ∧
      Status.isBuffered (status h₂ o) = false ∧ status h₂ o < Word.bound ∧
      Status.color (status h₂ o) ≠ .grey ∧ Status.color (status h₂ o) ≠ .white) :
    Books h₂ (if kind.isCounted then insert o r else r)
      ((if kind.isCounted then [o] else []) ++ outside p.heap l.immortals counts (m :: rest))
      counts.cycles := by
  have hstatus := fun x (hx : x ∈ r) => (hs.kept_of_extended hext hx).1
  have hrefs := fun x (hx : x ∈ r) => (hs.kept_of_extended hext hx).2
  have hspace := hext.inCountedSpace_eq
  cases hk : kind.isCounted with
  | true =>
    obtain ⟨h1, h2, h3, h4⟩ := hcounted hk
    exact hs.books.create (hs.not_mem_of_extended hext) hspace
      ((hspace o).symm.trans ((inCountedSpace_of_extended hext).trans hk)) hstatus hrefs h3 h4 h2 h1
      hnone
  | false =>
    refine hs.books.congr hspace hstatus (fun x hx y hy => Or.inl ?_) (fun x hx => Or.inl hx)
      fun x hx => ?_
    · rwa [← hrefs x (Counting.mem_live.mp hx).1]
    · exact congrArg (· + _) (Finset.sum_congr rfl fun y hy =>
        congrArg (List.count x) (hrefs y (Counting.mem_live.mp hy).1))

variable {out : List Nat}
  (hbooks : Books h₂ (if kind.isCounted then insert o r else r)
    ((if kind.isCounted then [o] else []) ++ out) counts.cycles)
include hbooks

omit hnone in
-- The new object is on no island.
theorem tended_of_extended :
    Tended h₂ (if kind.isCounted then insert o r else r) counts.cycles := by
  have hold : ∀ s, Island h₂ (if kind.isCounted then insert o r else r) s → ∀ x ∈ s, x ∈ r := by
    intro s hi x hx
    have hx' := (hi.mem hx).1
    cases hk : kind.isCounted with
    | true =>
      have ho : o ∉ s := hi.not_mem_of_anchored hbooks
        (.of_mem (by simp [hk]) ((inCountedSpace_of_extended hext).trans hk))
      rw [hk, if_pos rfl, Finset.mem_insert] at hx'
      exact hx'.resolve_left fun hxo => ho (hxo ▸ hx)
    | false => rwa [hk, if_neg Bool.false_ne_true] at hx'
  exact hs.tended.congr hold (fun s hi x hx => (hs.kept_of_extended hext (hold s hi x hx)).1)
    (fun s hi x hx => (hs.kept_of_extended hext (hold s hi x hx)).2) fun x hx => hx

end Create

-- The new object of an allocation gets its header.
theorem create (hs : Standing p (m :: rest) counts l r [] known) {kind : SpaceKind} {size : Nat}
    (heap : Heap) {h₂ : Heap} {l' : Layout} (requests : Requests) (events : List Event)
    (hext : Extended p.heap l kind o size h₂ l') (hp : h₂.Populated l') (hnone : h₂.refs o = [])
    (hmature : h₂.mature = heap.mature) {s : Nat} (hstatus : h₂.memory.read o = s)
    (hbumps : l'.immortal.bumps.Perm (m'.immortal :: rest.map (·.immortal)))
    (himm : l'.immortals = (if kind = .immortal then [o] else []) ++ l.immortals)
    (hown : m'.Owns heap.mature) (hdec : m'.decrements = m.decrements) (hkind : kind ≠ .nursery)
    (hcounted : kind.isCounted = true → Status.count s = 1 ∧ Status.isBuffered s = false ∧
      s < Word.bound ∧ Status.color s ≠ .grey ∧ Status.color s ≠ .white) :
    Standing { p with heap := h₂, requests, events } (m' :: rest) counts l'
      (if kind.isCounted then insert o r else r) (if kind.isCounted then [o] else [])
      (insert o known) := by
  subst hstatus
  have hspace := hext.inCountedSpace_eq
  have houtside := hs.outside_of_extended hext hnone himm hdec
  have hbooks := hs.books_of_extended hext hnone hcounted
  have htended := hs.tended_of_extended hext hbooks
  rw [← houtside] at hbooks
  -- A reference of an object is one that was there.
  have hrefs : ∀ kind' x bytes, Room h₂ l' kind' x bytes → ∀ y ∈ h₂.refs x,
      Room p.heap l kind' x bytes ∧ y ∈ p.heap.refs x := by
    intro kind' x bytes hr y hy
    rcases (hext.room_iff _ _ _).mp hr with hr | ⟨-, rfl, -⟩
    · exact ⟨hr, (hext.same hs.populated hr).2.1 ▸ hy⟩
    · rw [hnone] at hy
      exact absurd hy List.not_mem_nil
  exact {
    policy_eq := hs.policy_eq
    counts_eq := hs.counts_eq
    nursery_eq := hext.nursery_none hs.nursery_eq
    workers_eq := hs.workers_eq
    populated := hp
    aligned := fun kind' x bytes hr y hy hc => by
      obtain ⟨hr, hy⟩ := hrefs kind' x bytes hr y hy
      exact hs.aligned _ _ _ hr y hy (hspace y ▸ hc)
    reached_eq := hext.reached_eq.trans hs.reached_eq
    roll := hs.roll_of_extended hext
    inner := fun kind' x bytes hr y hy => by
      obtain ⟨hr, hy⟩ := hrefs kind' x bytes hr y hy
      exact (hs.inner _ _ _ hr y hy).imp (hspace y).trans fun hi =>
        himm ▸ List.mem_append_right _ hi
    owners := fun m₁ hm₁ => by
      rcases List.mem_cons.mp hm₁ with rfl | hm₁
      · exact hmature ▸ hown
      · exact (hs.owners m₁ (List.mem_cons_of_mem _ hm₁)).mono hext.listing_subset
    bumps := hbumps
    books := hbooks
    decrements := hs.decrements
    newRoots := hs.newRoots
    queues := hs.queues
    rooted := hs.rooted.congr rfl rfl hext.spaceOf?_eq hext.outside (Set.subset_insert _ _)
    tended := htended
    anchored := fun x hx => by
      rcases Set.mem_insert_iff.mp hx with rfl | hx
      · by_cases hk : kind = .immortal
        · exact Or.inl (by rw [himm, if_pos hk]; exact List.mem_append_left _ List.mem_cons_self)
        · have hk' : kind.isCounted = true := by cases kind <;> first | rfl | contradiction
          exact Or.inr (.of_mem (by simp [hk']) ((inCountedSpace_of_extended hext).trans hk'))
      · refine (hs.anchored x hx).imp (fun hi => himm ▸ List.mem_append_right _ hi) fun ha => ?_
        refine ha.mono hs.books (fun _ ha => ha) (fun a ha => ?_) hspace
          fun y hy => (hs.kept_of_extended hext hy).2
        rw [houtside]
        exact List.mem_append_right _ ha
    grain := hs.grain
    bound := hs.bound
    filterBound := hs.filterBound }

end Standing

namespace Mutator

variable {p p' : Plan} {m m' : Mutator} {rest : List Mutator} {counts : CountState} {l : Layout}
variable {r : Finset Nat} {known : Set Nat} {o : Nat}

-- What the making of an object comes to.
structure Created (p : Plan) (counts : CountState) (l : Layout) (r : Finset Nat) (o : Nat)
    (p' : Plan) (counts' : CountState) (l' : Layout) (r' : Finset Nat) : Prop where
  extended : ∃ kind size, Extended p.heap l kind o size p'.heap l' ∧
    l'.immortals = (if kind = .immortal then [o] else []) ++ l.immortals ∧
    r' = if kind.isCounted then insert o r else r
  cycles_eq : counts'.cycles = counts.cycles
  plan_eq : ∃ heap requests events, p' = { p with heap, requests, events, counts := some counts' }

-- The header of a new object is written, and the reference that counted objects start with will be
-- taken away.
theorem postAlloc_eq (m : Mutator) {p : Plan} {info : TypeInfo} {type : Nat} {counted : Bool}
    (hcounted : p.isCounted o = counted) (hinfo : p.heap.types.info type = .ok info)
    (ho : o % wordBytes = 0) (length : Nat) :
    m.postAlloc p o type length =
      let s := Status.initial (newMark p.heap o) (if counted && info.acyclic then .green else .black)
        (if counted then 1 else 0)
      let p := p.setMemory (Object.writeHeader p.memory info o s type length)
      if counted then m.defer p o else .ok (m, p) := by
  unfold postAlloc
  cases counted <;> simp [hcounted, hinfo, Object.check, ho]

-- Making an object allocates as many bytes as its type asks for, and writes its header.
theorem newObject_cases (htypes : p.heap.types.Sound) {type length : Nat} {semantics : Semantics}
    (h : m.newObject p type length semantics = .ok (o, m', p')) :
    ∃ info bytes m₁ p₁, p.heap.types.info type = .ok info ∧ info.bytesRequired length = .ok bytes ∧
      0 < bytes ∧ bytes % wordBytes = 0 ∧
      m.alloc p bytes wordBytes semantics = .ok (o, m₁, p₁) ∧
      m₁.postAlloc p₁ o type length = .ok (m', p') := by
  obtain ⟨info, hinfo, h⟩ := bind_eq_ok.mp h
  obtain ⟨bytes, hbytes, h⟩ := bind_eq_ok.mp h
  obtain ⟨⟨a, m₁, p₁⟩, halloc, h⟩ := bind_eq_ok.mp h
  obtain ⟨⟨m₂, p₂⟩, hpost, h⟩ := bind_eq_ok.mp h
  cases h
  obtain ⟨hmod, hheader, -⟩ := (htypes.info hinfo).1.bytesRequired_ok hbytes
  have h16 := info.scalarHeaderBytes_le
  simp only [Types.scalarHeaderBytes] at h16
  exact ⟨info, bytes, m₁, p₁, hinfo, hbytes, by omega, hmod, halloc, hpost⟩

-- A field that is found is a slot of its object.
theorem fieldSlot_mem {bytes index slot : Nat}
    (ho : Object.Formed p.heap.types p.heap.memory o bytes) (h : fieldSlot p o index = .ok slot) :
    slot ∈ Object.slotsOf p.heap.types p.heap.memory o := by
  obtain ⟨found, hfound, hfield⟩ := bind_eq_ok.mp h
  cases found with
  | none => cases hfield
  | some slot' =>
    cases hfield
    exact ho.slot?_some hfound

-- Making an object.
theorem newObject_ok (hs : Standing p (m :: rest) counts l r [] known) {type length : Nat}
    {semantics : Semantics}
    (hfit : ∀ info bytes, p.heap.types.info type = .ok info →
      info.bytesRequired length = .ok bytes → bytes < Mapping.systemLimit)
    (h : m.newObject p type length semantics = .ok (o, m', p')) :
    ∃ counts' l' r', Standing p' (m' :: rest) counts' l' r' [] (insert o known) ∧
      Created p counts l r o p' counts' l' r' ∧ p'.heap.refs o = [] := by
  obtain ⟨info, bytes, m₁, p₁, hinfo, hbytes, hpos, hmod, halloc, hpost⟩ :=
    newObject_cases hs.populated.sound.types h
  obtain ⟨⟨heap, requests, events, kind, size, l', rfl, hsize, hext, hblank, hbumps, himm, hown,
    hkind⟩, hdec⟩ := alloc_ok hs hpos hmod (hfit _ _ hinfo hbytes) halloc
  have hoc : heap.inCountedSpace o = kind.isCounted := hext.sound.inCountedSpace_room hext.room
  have hcounted : ({ p with heap, requests, events } : Plan).isCounted o = kind.isCounted := by
    rw [← hoc, Plan.isCounted, hs.counts_eq]
    rfl
  have htype : heap.types.info type = .ok info := hext.types_eq ▸ hinfo
  rw [postAlloc_eq m₁ hcounted htype (hext.sound.room_mem hext.room).1] at hpost
  generalize hgreen : (if kind.isCounted && info.acyclic then Color.green else .black) = color
    at hpost
  obtain ⟨hcolor, hbuffered, hcount, hword⟩ := Status.initial_fields (newMark heap o) color
    (n := if kind.isCounted then 1 else 0) (by split_ifs <;> decide)
  generalize Status.initial (newMark heap o) color (if kind.isCounted then 1 else 0) = s
    at hcolor hbuffered hcount hword hpost
  obtain ⟨hext', hpop, hnone, hstatus, -⟩ :=
    hext.writeHeader hs.populated hblank hinfo hbytes hsize (s := s)
  have hplain : Status.color s ≠ .grey ∧ Status.color s ≠ .white := by
    rw [hcolor, ← hgreen]
    split_ifs <;> decide
  have hmade := hs.create heap requests events hext' hpop hnone rfl hstatus hbumps himm hown hdec
    hkind fun hk => ⟨by rw [hcount, if_pos hk], hbuffered, hword, hplain⟩
  cases hk : kind.isCounted with
  | true =>
    simp only [hk, if_true] at hmade hpost
    obtain ⟨decrements, chain, rfl, rfl, hstand⟩ := hmade.defer hpost
    exact ⟨_, l', _, hstand, ⟨⟨kind, size, hext', himm, by rw [hk, if_pos rfl]⟩, rfl, _, requests,
      events, rfl⟩, hnone⟩
  | false =>
    simp only [hk, Bool.false_eq_true, if_false] at hmade hpost
    cases hpost
    exact ⟨counts, l', _, hmade, ⟨⟨kind, size, hext', himm, by simp [hk]⟩, rfl, _, requests, events, by
      rw [← hs.counts_eq]
      rfl⟩, hnone⟩

end Mutator

namespace Standing

variable {p p' : Plan} {m m' : Mutator} {rest mutators : List Mutator} {counts : CountState}
variable {l : Layout} {r : Finset Nat} {hand hand' : List Nat} {known : Set Nat} {o : Nat}

theorem aligned_of_known (hs : Standing p mutators counts l r hand known) (ho : o ∈ known) :
    o % wordBytes = 0 := by
  obtain ⟨kind, bytes, hr⟩ := hs.room_of_known ho
  exact (hs.populated.sound.room_mem hr).1

-- Memory changes, but no room does.
theorem setMemory (hs : Standing p mutators counts l r hand known) {memory : Memory}
    (hp : Populated { p.heap with memory } l)
    (hrooms : ∀ kind x bytes, Room { p.heap with memory } l kind x bytes ↔ Room p.heap l kind x bytes)
    (hinner : ∀ kind x bytes, Room p.heap l kind x bytes → ∀ y ∈ refs { p.heap with memory } x,
      y ∈ p.heap.refs x ∨ y ∈ known)
    (hbooks : Books { p.heap with memory } r
      (hand' ++ outside { p.heap with memory } l.immortals counts mutators) counts.cycles)
    (hrooted : (p.setMemory memory).Rooted known)
    (htended : Tended { p.heap with memory } r counts.cycles)
    (hanchored : ∀ x ∈ known, x ∈ l.immortals ∨ Anchored { p.heap with memory }
      (hand' ++ outside { p.heap with memory } l.immortals counts mutators) x) :
    Standing (p.setMemory memory) mutators counts l r hand' known := { hs with
  populated := hp
  aligned := fun kind x bytes hr y hy hc => by
    rcases hinner _ _ _ ((hrooms _ _ _).mp hr) y hy with hy | hy
    · exact hs.aligned _ _ _ ((hrooms _ _ _).mp hr) y hy hc
    · exact hs.aligned_of_known hy
  roll := fun x => (hs.roll x).trans (exists_congr fun kind => exists_congr fun bytes =>
    and_congr_right fun _ => (hrooms kind x bytes).symm)
  inner := fun kind x bytes hr y hy => by
    rcases hinner _ _ _ ((hrooms _ _ _).mp hr) y hy with hy | hy
    · exact hs.inner _ _ _ ((hrooms _ _ _).mp hr) y hy
    · rcases hs.of_known hy with ⟨-, -, hc⟩ | ⟨hi, -⟩
      · exact Or.inl hc
      · exact Or.inr hi
  books := hbooks
  rooted := hrooted
  tended := htended
  anchored := hanchored }

theorem outside_congr {h h' : Heap} {immortals : List Nat}
    (hrefs : ∀ x ∈ immortals, h'.refs x = h.refs x) :
    outside h' immortals counts mutators = outside h immortals counts mutators := by
  rw [outside, outside, List.flatMap_congr hrefs]

-- A reference to a known object is counted.
theorem retain (hs : Standing p mutators counts l r hand known) (ho : o ∈ known)
    (hc : p.heap.inCountedSpace o = true) (hmax : count p.heap o + 1 < 2 ^ 56) {memory : Memory}
    (hself : memory.read o = Status.increment (status p.heap o) ∨
      memory.read o = Status.setColor (Status.increment (status p.heap o)) .black ∧
        color p.heap o ≠ .green)
    (hother : ∀ a, a ≠ o → memory.read a = p.heap.memory.read a) :
    Standing (p.setMemory memory) mutators counts l r (o :: hand) known := by
  rcases hs.of_known ho with ⟨hr, hpos, -⟩ | ⟨-, hn⟩
  swap
  · rw [hc] at hn
    cases hn
  obtain ⟨kind, bytes, hk, hroom⟩ := hs.room_of_mem hr
  obtain ⟨hp, hrooms, hrefs⟩ := hs.populated.setHead hroom hother
  have hrefsMem : ∀ x ∈ r, refs { p.heap with memory } x = p.heap.refs x := fun x hx => by
    obtain ⟨kind', bytes', -, hx⟩ := hs.room_of_mem hx
    exact (hrefs _ _ _ hx).1
  have houtside : outside { p.heap with memory } l.immortals counts mutators =
      outside p.heap l.immortals counts mutators := outside_congr fun x hx => by
    obtain ⟨bytes', hx⟩ := (mem_immortals (p := p)).mp hx
    exact (hrefs _ _ _ hx).1
  have hstatus : ∀ x ∈ r, x ≠ o → status { p.heap with memory } x = status p.heap x :=
    fun x _ hx => hother x hx
  have hbooks : Books { p.heap with memory } r
      (o :: hand ++ outside { p.heap with memory } l.immortals counts mutators) counts.cycles := by
    rw [houtside]
    exact hs.books.retain hr hpos hmax hself hstatus (fun _ => rfl) hrefsMem
  have hfree : ∀ s, Island { p.heap with memory } r s → o ∉ s := fun s hi =>
    hi.not_mem_of_anchored hbooks (.of_mem List.mem_cons_self hc)
  refine hs.setMemory hp hrooms (fun kind' x bytes' hx y hy => Or.inl ?_) hbooks
    (hs.rooted.congr rfl rfl (fun _ => rfl) (fun a ha => hother a fun hao => ?_)
      (Set.Subset.refl _)) ?_ fun x hx => (hs.anchored x hx).imp_right fun ha =>
        ha.mono hs.books (fun _ ha => ha) (fun a ha => ?_) (fun _ => rfl) hrefsMem
  · rwa [(hrefs _ _ _ hx).1] at hy
  · rw [hao, hs.populated.sound.spaceOf?_start hroom] at ha
    cases ha
  · exact hs.tended.congr (fun s hi x hx => (hi.mem hx).1)
      (fun s hi x hx => hstatus x (hi.mem hx).1 fun hxo => hfree s hi (hxo ▸ hx))
      (fun s hi x hx => hrefsMem x (hi.mem hx).1) fun x hx => hx
  · rw [houtside]
    exact List.mem_cons_of_mem _ ha

end Standing

theorem Mutator.retain_eq {p : Plan} {o : Nat} (ho : o % wordBytes = 0) :
    ∃ memory, Mutator.retain p o = .ok (p.setMemory memory) ∧
      (memory.read o = Status.increment (status p.heap o) ∨
        memory.read o = Status.setColor (Status.increment (status p.heap o)) .black ∧
          color p.heap o ≠ .green) ∧
      ∀ a, a ≠ o → memory.read a = p.heap.memory.read a := by
  have hself : status (CountedHeap.increment p.heap o) o = Status.increment (status p.heap o) :=
    Memory.read_write_self _ _ _
  have hcolor : color (CountedHeap.increment p.heap o) o = color p.heap o := by
    rw [color, hself, Status.color_increment, color]
  simp only [Mutator.retain, Object.check, ho, if_true, ok_bind, hcolor]
  split_ifs with hg
  · exact ⟨_, rfl, Or.inl hself, fun a ha => Memory.read_write_of_ne ha _⟩
  · refine ⟨_, rfl, Or.inr ⟨?_, fun h => hg (beq_iff_eq.mpr h)⟩, fun a ha =>
      (Memory.read_write_of_ne ha _).trans (Memory.read_write_of_ne ha _)⟩
    exact (Memory.read_write_self _ _ _).trans (congrArg (Status.setColor · .black) hself)

end Reclaim
