import Reclaim.Proofs.Plan.Mutations

/-!
What else happens to a plan between collections: mutators come and go, publish their decrements, write
data and change roots, and name candidates. None of it touches a count.
-/
namespace Reclaim

open CountedHeap Heap Queue Sizes

variable {p p' : Plan} {m m' : Mutator} {rest mutators mutators' : List Mutator}
variable {counts : CountState} {l l' : Layout} {r : Finset Nat} {hand : List Nat} {known : Set Nat}
variable {h' : Heap} {o : Nat}

namespace Standing

-- Objects stay where they are and as they are.
theorem rearrange (hs : Standing p mutators counts l r hand known)
    (hr : Rearranged p.heap l h' l') (hown : ∀ m ∈ mutators', m.Owns p.heap.mature)
    (hbumps : l'.immortal.bumps.Perm (mutators'.map (·.immortal)))
    (hheld : mutators'.flatMap (·.decrements.held) = mutators.flatMap (·.decrements.held)) :
    Standing (p.setHeap h') mutators' counts l' r hand known := by
  have himm : l'.immortals = l.immortals := by
    rw [Layout.immortals, hr.rooms_eq, Layout.immortals]
  have houtside : outside h' l'.immortals counts mutators' =
      outside p.heap l.immortals counts mutators := by
    rw [outside, hheld, himm, List.flatMap_congr fun x _ => hr.refs_eq x, outside]
  exact { hs with
    nursery_eq := hr.nursery_eq.trans hs.nursery_eq
    populated := hr.populated hs.populated
    aligned := fun kind x bytes hx y hy hc => by
      change y ∈ h'.refs x at hy
      rw [hr.refs_eq] at hy
      exact hs.aligned _ _ _ ((hr.room_iff _ _ _).mp hx) y hy (hr.inCountedSpace_eq y ▸ hc)
    reached_eq := hr.reached_eq.trans hs.reached_eq
    roll := fun x => (hs.roll x).trans (exists_congr fun kind => exists_congr fun bytes =>
      and_congr_right fun _ => (hr.room_iff kind x bytes).symm)
    inner := fun kind x bytes hx y hy => by
      change y ∈ h'.refs x at hy
      rw [hr.refs_eq] at hy
      change h'.inCountedSpace y = true ∨ _
      rw [hr.inCountedSpace_eq, himm]
      exact hs.inner _ _ _ ((hr.room_iff _ _ _).mp hx) y hy
    owners := fun m hm => (hown m hm).mono (hr.listing_eq ▸ List.Subset.refl _)
    bumps := hbumps
    books := by
      change Books h' r (hand ++ outside h' l'.immortals counts mutators') counts.cycles
      rw [houtside]
      exact hs.books.congr hr.inCountedSpace_eq (fun x _ => hr.status_eq x)
        (fun x _ y hy => Or.inl (hr.refs_eq x ▸ hy)) (fun x hx => Or.inl hx) fun x _ =>
          congrArg (· + _) (Finset.sum_congr rfl fun y _ => congrArg (List.count x) (hr.refs_eq y))
    rooted := hs.rooted.congr rfl rfl hr.spaceOf?_eq
      (fun _ _ => congrArg (fun m => Memory.read m _) hr.memory_eq) (Set.Subset.refl _)
    tended := hs.tended.congr (fun s hi x hx => (hi.mem hx).1) (fun s _ x _ => hr.status_eq x)
      (fun s _ x _ => hr.refs_eq x) fun x hx => hx
    anchored := fun x hx => by
      change x ∈ l'.immortals ∨ Anchored h' (hand ++ outside h' l'.immortals counts mutators') x
      rw [himm, ← himm, houtside, himm]
      exact (hs.anchored x hx).imp_right fun ha => ha.mono hs.books (fun _ ha => ha)
        (fun _ ha => ha) hr.inCountedSpace_eq fun a _ => hr.refs_eq a }

-- Decrements change hands.
theorem redeal (hs : Standing p mutators counts l r hand known) {hand' : List Nat}
    {chain : Chain Nat} (hchain : chain.Valid) (hown : ∀ m ∈ mutators', m.Owns p.heap.mature)
    (hbumps : mutators'.map (·.immortal) = mutators.map (·.immortal))
    (hperm : (hand ++ outside p.heap l.immortals counts mutators).Perm (hand' ++
      outside p.heap l.immortals { counts with decrements := chain } mutators')) :
    Standing { p with counts := some { counts with decrements := chain } } mutators'
      { counts with decrements := chain } l r hand' known := { hs with
  counts_eq := rfl
  owners := hown
  bumps := hbumps ▸ hs.bumps
  books := hs.books.perm hperm
  decrements := hchain
  rooted := hs.rooted.congr rfl rfl (fun _ => rfl) (fun _ _ => rfl) (Set.Subset.refl _)
  anchored := fun x hx => (hs.anchored x hx).imp_right fun ha => ha.mono hs.books (fun _ ha => ha)
    (fun _ ha => hperm.subset ha) (fun _ => rfl) fun _ _ => rfl }

end Standing

namespace Standing

-- Words are written that are neither status words nor references, and roots and times change.
theorem unchanged (hs : Standing p mutators counts l r hand known) {memory : Memory}
    {scheduler : Scheduler} {timeCap : Nat} {clock : Clock}
    (hp : Populated { p.heap with memory } l)
    (hrooms : ∀ kind x bytes, Room { p.heap with memory } l kind x bytes ↔ Room p.heap l kind x bytes)
    (hsame : ∀ kind x bytes, Room p.heap l kind x bytes →
      refs { p.heap with memory } x = p.heap.refs x ∧ memory.read x = p.heap.memory.read x)
    (hrooted : Plan.Rooted
      { p with heap := { p.heap with memory }, scheduler, timeCap, clock } known) :
    Standing { p with heap := { p.heap with memory }, scheduler, timeCap, clock } mutators counts l r
      hand known := by
  have hmem : ∀ x ∈ r, refs { p.heap with memory } x = p.heap.refs x ∧
      status { p.heap with memory } x = status p.heap x := fun x hx => by
    obtain ⟨kind, bytes, -, hroom⟩ := hs.room_of_mem hx
    exact hsame _ _ _ hroom
  have houtside : outside { p.heap with memory } l.immortals counts mutators =
      outside p.heap l.immortals counts mutators := outside_congr fun x hx => by
    obtain ⟨bytes, hx⟩ := (mem_immortals (p := p)).mp hx
    exact (hsame _ _ _ hx).1
  exact { hs with
    populated := hp
    aligned := fun kind x bytes hx y hy => hs.aligned _ _ _ ((hrooms _ _ _).mp hx) y
      ((hsame _ _ _ ((hrooms _ _ _).mp hx)).1 ▸ hy)
    roll := fun x => (hs.roll x).trans (exists_congr fun kind => exists_congr fun bytes =>
      and_congr_right fun _ => (hrooms kind x bytes).symm)
    inner := fun kind x bytes hx y hy => hs.inner _ _ _ ((hrooms _ _ _).mp hx) y
      ((hsame _ _ _ ((hrooms _ _ _).mp hx)).1 ▸ hy)
    books := by
      rw [houtside]
      exact hs.books.congr (fun _ => rfl) (fun x hx => (hmem x hx).2)
        (fun x hx y hy => Or.inl ((hmem x (Counting.mem_live.mp hx).1).1 ▸ hy))
        (fun x hx => Or.inl hx) fun x _ => congrArg (· + _) (Finset.sum_congr rfl fun y hy =>
          congrArg (List.count x) (hmem y (Counting.mem_live.mp hy).1).1)
    rooted := hrooted
    tended := hs.tended.congr (fun s hi x hx => (hi.mem hx).1)
      (fun s hi x hx => (hmem x (hi.mem hx).1).2) (fun s hi x hx => (hmem x (hi.mem hx).1).1)
      fun x hx => hx
    anchored := fun x hx => by
      rw [houtside]
      exact (hs.anchored x hx).imp_right fun ha => ha.mono hs.books (fun _ ha => ha)
        (fun _ ha => ha) (fun _ => rfl) fun a ha => (hmem a ha).1 }

-- The roots change, in words outside of the spaces and on the stacks.
theorem reroot (hs : Standing p mutators counts l r hand known) {memory : Memory}
    {scheduler : Scheduler} {timeCap : Nat} {clock : Clock}
    (hm : ∀ a kind, p.heap.spaceOf? a = some kind → memory.read a = p.heap.memory.read a)
    (hrooted : Plan.Rooted
      { p with heap := { p.heap with memory }, scheduler, timeCap, clock } known) :
    Standing { p with heap := { p.heap with memory }, scheduler, timeCap, clock } mutators counts l r
      hand known :=
  have ⟨hp, hrooms, hsame⟩ := hs.populated.setOutside hm
  hs.unchanged hp hrooms hsame hrooted

-- A word of data in a known object is written.
theorem writeData (hs : Standing p mutators counts l r hand known) (ho : o ∈ known)
    {info : TypeInfo} {bytes a : Nat} (hinfo : Object.info p.heap.types p.memory o = .ok info)
    (hsize : Object.size p.heap.types p.memory o = .ok bytes) (h1 : o + info.headerBytes ≤ a)
    (h2 : a < o + bytes) (hdata : a ∉ Object.slotsOf p.heap.types p.memory o) (w : Nat) :
    Standing (p.setMemory (p.memory.write a w)) mutators counts l r hand known := by
  obtain ⟨kind, size, hroom⟩ := hs.room_of_known ho
  have hformed := hs.populated.formed _ _ _ hroom
  have hfits : bytes ≤ size := by
    obtain ⟨info', size', h3, h4, h5, h6⟩ := hformed.slotsOf_eq
    simp only [Object.size, Plan.memory, h4, ok_bind, h5, Except.ok.injEq] at hsize
    omega
  obtain ⟨hformed', -, hrefs⟩ := hformed.write_data hinfo h1 hdata w
  have hheader := info.scalarHeaderBytes_le
  simp only [Types.scalarHeaderBytes] at hheader
  obtain ⟨hp, hrooms, hother⟩ := hs.populated.write hroom (by omega) (by omega) hformed'
  refine hs.unchanged hp hrooms (fun kind' x bytes' hx => ?_) (hs.rooted.congr rfl rfl
    (fun _ => rfl) (fun b hb => Memory.read_write_of_ne (fun hba => ?_) w) (Set.Subset.refl _))
  · by_cases hxo : x = o
    · subst hxo
      exact ⟨hrefs, Memory.read_write_of_ne (by omega) w⟩
    · exact hother _ _ _ hx hxo
  · rw [hba, hs.populated.sound.spaceOf?_room hroom (by omega) (by omega)] at hb
    cases hb

-- A nomination replaces a status word and leaves a candidate.
theorem nominate_eq (c : Trial.Collector) (h : Heap) (o : Nat) :
    ∃ fresh c' memory, c.nominate h o = (fresh, c', { h with memory }) ∧
      (∀ a, a ≠ o → memory.read a = h.memory.read a) ∧
      Status.count (memory.read o) = count h o ∧ Status.color (memory.read o) = .purple ∧
      c'.settings = c.settings ∧ (∀ x ∈ c.queued, x ∈ c'.queued) ∧
      (isBuffered h o = false → o ∈ c'.queued) := by
  have hself : status (setColor h o .purple) o = Status.setColor (status h o) .purple :=
    Memory.read_write_self _ _ _
  have hbuf : isBuffered (setColor h o .purple) o = isBuffered h o := by
    rw [isBuffered, hself, Status.isBuffered_setColor, isBuffered]
  unfold Trial.Collector.nominate
  simp only [hbuf]
  split_ifs with hb
  · refine ⟨false, c, _, rfl, fun a ha => Memory.read_write_of_ne ha _, ?_, ?_, rfl,
      fun x hx => hx, fun hn => absurd hb (by rw [hn]; exact Bool.false_ne_true)⟩
    · exact (congrArg Status.count hself).trans (Status.count_setColor _ _)
    · exact (congrArg Status.color hself).trans (Status.color_setColor _ _)
  · have hself' : status (setBuffered (setColor h o .purple) o) o =
        Status.setBuffered (Status.setColor (status h o) .purple) :=
      (Memory.read_write_self _ _ _).trans (congrArg Status.setBuffered hself)
    have hqueued : ∀ x, x = o ∨ x ∈ c.queued →
        x ∈ ({ c with unfiltered := c.unfiltered.insert o } : Trial.Collector).queued := by
      intro x hx
      simp only [Trial.Collector.queued, Solo.contents_insert, List.mem_append,
        List.mem_singleton] at hx ⊢
      tauto
    refine ⟨true, _, _, rfl, fun a ha => (Memory.read_write_of_ne ha _).trans
      (Memory.read_write_of_ne ha _), ?_, ?_, rfl, fun x hx => hqueued x (Or.inr hx),
      fun _ => hqueued o (Or.inl rfl)⟩
    · exact (congrArg Status.count hself').trans
        ((Status.count_setBuffered _).trans (Status.count_setColor _ _))
    · exact (congrArg Status.color hself').trans
        ((Status.color_setBuffered _).trans (Status.color_setColor _ _))

theorem nominate (hs : Standing p mutators counts l r hand known) (ho : o ∈ known)
    (hc : p.heap.inCountedSpace o = true) (hg : color p.heap o ≠ .green) :
    ∃ fresh cycles memory, counts.cycles.nominate p.heap o =
        (fresh, cycles, { p.heap with memory }) ∧
      (∀ a, a ≠ o → memory.read a = p.heap.memory.read a) ∧
      Status.count (memory.read o) = count p.heap o ∧
      Standing { p with
        heap := { p.heap with memory }, counts := some { counts with cycles } } mutators
        { counts with cycles } l r hand known := by
  obtain ⟨hr, hpos, -⟩ := (hs.of_known ho).resolve_right fun h => by
    rw [hc] at h
    cases h.2
  obtain ⟨kind, bytes, -, hroom⟩ := hs.room_of_mem hr
  obtain ⟨fresh, cycles, memory, heq, hother, hcount, hpurple, hsettings, hqueued, hfresh⟩ :=
    nominate_eq counts.cycles p.heap o
  obtain ⟨hp, hrooms, hrefs⟩ := hs.populated.setHead hroom hother
  have hkept : ∀ x ∈ r, refs { p.heap with memory } x = p.heap.refs x := fun x hx => by
    obtain ⟨kind', bytes', -, hx⟩ := hs.room_of_mem hx
    exact (hrefs _ _ _ hx).1
  have houtside : outside { p.heap with memory } l.immortals { counts with cycles } mutators =
      outside p.heap l.immortals counts mutators := outside_congr fun x hx => by
    obtain ⟨bytes', hx⟩ := (mem_immortals (p := p)).mp hx
    exact (hrefs _ _ _ hx).1
  have hmem : o ∈ cycles.queued := by
    cases hb : isBuffered p.heap o with
    | true => exact hqueued o ((hs.books.candidates.flagged o hr).mp hb)
    | false => exact hfresh hb
  refine ⟨fresh, cycles, memory, heq, hother, hcount, { hs with
    counts_eq := rfl
    populated := hp
    aligned := fun kind' x bytes' hx y hy => hs.aligned _ _ _ ((hrooms _ _ _).mp hx) y
      ((hrefs _ _ _ ((hrooms _ _ _).mp hx)).1 ▸ hy)
    roll := fun x => (hs.roll x).trans (exists_congr fun kind => exists_congr fun bytes =>
      and_congr_right fun _ => (hrooms kind x bytes).symm)
    inner := fun kind' x bytes' hx y hy => hs.inner _ _ _ ((hrooms _ _ _).mp hx) y
      ((hrefs _ _ _ ((hrooms _ _ _).mp hx)).1 ▸ hy)
    books := ?_
    rooted := hs.rooted.congr rfl rfl (fun _ => rfl) (fun a ha => hother a fun hao => ?_)
      (Set.Subset.refl _)
    tended := fun s hi => ?_
    anchored := fun x hx => ?_
    grain := hsettings ▸ hs.grain
    bound := hsettings ▸ hs.bound
    filterBound := hsettings ▸ hs.filterBound }⟩
  · have hbooks := hs.books.nominate hr hpos hg fun h' htypes hm x hx => by
      obtain ⟨kind', bytes', -, hx⟩ := hs.room_of_mem hx
      have hsame := ((hs.populated.setHead hroom (m := h'.memory) hm).2.2 _ _ _ hx).1
      rw [refs, htypes]
      exact hsame
    rw [heq] at hbooks
    rw [houtside]
    exact hbooks
  · rw [hao, hs.populated.sound.spaceOf?_start hroom] at ha
    cases ha
  · by_cases hos : o ∈ s
    · exact ⟨o, hos, hpurple, hmem⟩
    · have hne : ∀ x ∈ s, x ≠ o := fun x hx hxo => hos (hxo ▸ hx)
      obtain ⟨x, hx, hxp, hxq⟩ := hs.tended s (hi.congr (fun x hx => (hi.mem hx).1)
        (fun x hx => hother x (hne x hx)) fun x hx => hkept x (hi.mem hx).1)
      exact ⟨x, hx, (Books.color_congr (hother x (hne x hx))).trans hxp, hqueued x hxq⟩
  · rw [houtside]
    exact (hs.anchored x hx).imp_right fun ha => ha.mono hs.books (fun _ ha => ha)
      (fun _ ha => ha) (fun _ => rfl) hkept

end Standing

-- An object in use becomes a candidate.
theorem Plan.enqueueForCycleCheck_ok (hs : Standing p mutators counts l r [] known) (ho : o ∈ known)
    {fresh : Bool} (h : p.enqueueForCycleCheck o = .ok (fresh, p')) :
    ∃ counts' memory, Standing p' mutators counts' l r [] known ∧
      p' = { p with heap := { p.heap with memory }, counts := some counts' } ∧
      (∀ a, a ≠ o → memory.read a = p.heap.memory.read a) ∧
      Status.count (memory.read o) = CountedHeap.count p.heap o := by
  have hsame : p' = p → ∃ counts' memory, Standing p' mutators counts' l r [] known ∧
      p' = { p with heap := { p.heap with memory }, counts := some counts' } ∧
      (∀ a, a ≠ o → memory.read a = p.heap.memory.read a) ∧
      Status.count (memory.read o) = CountedHeap.count p.heap o := by
    rintro rfl
    exact ⟨counts, p'.heap.memory, hs, by rw [← hs.counts_eq], fun _ _ => rfl, rfl⟩
  simp only [Plan.enqueueForCycleCheck, hs.counts_eq, hs.isCounted_eq] at h
  split at h
  · cases h
    exact hsame rfl
  rename_i hcounted
  obtain ⟨_, -, h⟩ := bind_eq_ok.mp h
  split at h
  · cases h
    exact hsame rfl
  rename_i hplain
  obtain ⟨found, hpropose, h⟩ := bind_eq_ok.mp h
  cases h
  have hg : color p.heap o ≠ .green := fun hgreen =>
    hplain (by rw [show Status.isGreen (Object.status p.memory o) = true from beq_iff_eq.mpr hgreen,
      Bool.true_or])
  obtain ⟨fresh', cycles, memory, hnominate, hother, hcount, hdone⟩ :=
    hs.nominate ho (by simpa using hcounted) hg
  obtain rfl : found = counts.cycles.nominate p.heap o := by
    unfold Trial.Collector.propose at hpropose
    split at hpropose
    · obtain ⟨_, -, h⟩ := bind_eq_ok.mp hpropose
      exact (Except.ok.inj h).symm
    · exact (Except.ok.inj hpropose).symm
  rw [hnominate]
  exact ⟨_, memory, hdone, rfl, hother, hcount⟩

-- The allocator behind standard requests gives up its blocks.
def StandardAllocator.reset (c : Cells) (memory : Memory) :
    StandardAllocator → Except Fault (StandardAllocator × Cells)
  | .bump _ => .ok (.bump .fresh, c)
  | .cells x => x.reset c memory >>= fun (x, c) => .ok (.cells x, c)

theorem StandardAllocator.Owns.reset {s : StandardAllocator} {c : Cells} {memory : Memory}
    (hs : s.Owns c) (hc : c.Sound memory) :
    ∃ s' c', s.reset c memory = .ok (s', c') ∧ c'.Sound memory ∧ c'.listing = c.listing ∧
      c'.space = c.space ∧ ∀ c, s'.Owns c := by
  cases s with
  | bump b => exact ⟨_, _, rfl, hc, rfl, rfl, fun _ => trivial⟩
  | cells x =>
    obtain ⟨c', hreset, hc', hlist, hspace⟩ := CellAllocator.Owns.reset hs hc
    refine ⟨.cells {}, c', ?_, hc', hlist, hspace, CellAllocator.owns_fresh⟩
    simp only [StandardAllocator.reset, hreset, ok_bind]

namespace Mutator

theorem reset_eq (m : Mutator) (p : Plan) : m.reset p =
    (m.standard.reset p.heap.mature p.memory >>= fun (standard, c) =>
      m.mature.reset c p.memory >>= fun (mature, c) =>
        .ok ({ m with standard, mature, immortal := .fresh },
          p.setHeap { p.heap with mature := c })) := by
  unfold reset StandardAllocator.reset
  cases m.standard with
  | bump b => rfl
  | cells x => simp only [bind_assoc, ok_bind]

-- A mutator that gives up its blocks.
theorem reset_ok (hs : Standing p (m :: rest) counts l r hand known) :
    ∃ m' h' l', m.reset p = .ok (m', p.setHeap h') ∧ Rearranged p.heap l h' l' ∧
      Standing (p.setHeap h') (m' :: rest) counts l' r hand known ∧ ∀ c, m'.Owns c := by
  have hsound := hs.populated.sound
  have hown := hs.owners m List.mem_cons_self
  obtain ⟨standard, c₁, hrun, hs₁, hlist₁, hspace₁, hown₁⟩ := hown.1.reset hsound.mature
  obtain ⟨c₂, hreset, hs₂, hlist₂, hspace₂⟩ :=
    CellAllocator.Owns.reset (hown.2.mono (hlist₁ ▸ List.Subset.refl _)) hs₁
  have hmature := hsound.rearrangeMature hs₂ (hspace₂.trans hspace₁) (hlist₂.trans hlist₁)
  have hplots : Plots p.heap.immortal.space p.heap.memory l.immortal.runs l.immortal.rooms
      (.fresh :: rest.map (·.immortal)) := (hsound.immortal.perm hs.bumps).reset
  have hbumps := hmature.sound.rearrangeBumps hplots
  have hall := hmature.trans hbumps
  have hfree : ∀ c, Owns { m with standard, mature := {}, immortal := .fresh } c := fun c =>
    ⟨hown₁ c, CellAllocator.owns_fresh c⟩
  refine ⟨{ m with standard, mature := {}, immortal := .fresh }, _, _, ?_, hall,
    hs.rearrange hall (fun m₁ hm₁ => ?_) (List.Perm.refl _) ?_, hfree⟩
  · simp only [reset_eq, Plan.memory, hrun, ok_bind, hreset]
  · rcases List.mem_cons.mp hm₁ with rfl | hm₁
    · exact hfree _
    · exact hs.owners m₁ (List.mem_cons_of_mem _ hm₁)
  · rfl

-- A mutator that publishes its decrements.
theorem flush_ok (hs : Standing p (m :: rest) counts l r hand known) :
    ∃ m' chain, m.flush p = (m', { p with counts := some { counts with decrements := chain } }) ∧
      m'.decrements = {} ∧ (∀ c, m.Owns c → m'.Owns c) ∧
      Standing { p with counts := some { counts with decrements := chain } } (m' :: rest)
        { counts with decrements := chain } l r hand known := by
  have hflush : m.flush p = ({ m with decrements := (m.decrements.flush counts.decrements).1 },
      { p with counts := some { counts with
        decrements := (m.decrements.flush counts.decrements).2 } }) := by
    unfold flush
    rw [hs.counts_eq]
  refine ⟨_, _, hflush, rfl, fun _ hown => hown, hs.redeal (Ends.flush_valid _ hs.decrements) ?_ rfl ?_⟩
  · intro m₁ hm₁
    rcases List.mem_cons.mp hm₁ with rfl | hm₁
    · exact hs.owners m List.mem_cons_self
    · exact hs.owners m₁ (List.mem_cons_of_mem _ hm₁)
  · have hperm := Ends.flush_perm m.decrements counts.decrements
    rw [List.perm_iff_count] at hperm ⊢
    intro x
    have hx := hperm x
    have hnone : (m.decrements.flush counts.decrements).1.held = [] := rfl
    simp only [outside, List.flatMap_cons, List.count_append, hnone, List.count_nil] at hx ⊢
    omega

-- What a mutator does ahead of a collection.
theorem prepare_ok (hs : Standing p (m :: rest) counts l r hand known) :
    ∃ m' h' l' chain, m.prepare p = .ok (m', { p with
        heap := h', counts := some { counts with decrements := chain } }) ∧
      Rearranged p.heap l h' l' ∧ m'.decrements = {} ∧ (∀ c, m'.Owns c) ∧
      Standing { p with heap := h', counts := some { counts with decrements := chain } }
        (m' :: rest) { counts with decrements := chain } l' r hand known := by
  obtain ⟨m₁, h', l', hreset, hr, hs₁, hfree⟩ := reset_ok hs
  obtain ⟨m₂, chain, hflush, hnone, hown, hs₂⟩ := flush_ok hs₁
  refine ⟨m₂, h', l', chain, ?_, hr, hnone, fun c => hown c (hfree c), hs₂⟩
  simp only [prepare, hreset, ok_bind, hflush]
  rfl

-- A mutator that goes away.
theorem drop_ok (hs : Standing p (m :: rest) counts l r hand known) :
    ∃ h' l' chain, m.drop p = .ok { p with
        heap := h', counts := some { counts with decrements := chain } } ∧
      Rearranged p.heap l h' l' ∧
      Standing { p with heap := h', counts := some { counts with decrements := chain } }
        rest { counts with decrements := chain } l' r hand known := by
  obtain ⟨m', h', l', chain, hprepare, hr, hnone, -, hs'⟩ := prepare_ok hs
  have hplots := (hs'.populated.sound.immortal.perm hs'.bumps).tail
  have hgone := hs'.populated.sound.rearrangeBumps hplots
  refine ⟨h', _, chain, ?_, hr.trans hgone, hs'.rearrange hgone
    (fun m₁ hm₁ => hs'.owners m₁ (List.mem_cons_of_mem _ hm₁)) (List.Perm.refl _) ?_⟩
  · simp only [drop, hprepare, ok_bind]
  · rw [List.flatMap_cons, hnone]
    rfl

-- A new mutator.
theorem new_ok (hs : Standing p mutators counts l r hand known) :
    ∃ l', Rearranged p.heap l p.heap l' ∧
      Standing p (new p :: mutators) counts l' r hand known := by
  have hplots := (hs.populated.sound.immortal.perm hs.bumps).bind
  have hr := hs.populated.sound.rearrangeBumps hplots
  have hnew : new p = { standard := .cells {} } := by
    rw [new, hs.nursery_eq]
    rfl
  refine ⟨_, hr, hs.rearrange hr (fun m hm => ?_) ?_ ?_⟩
  · rcases List.mem_cons.mp hm with rfl | hm
    · rw [hnew]
      exact ⟨CellAllocator.owns_fresh _, CellAllocator.owns_fresh _⟩
    · exact hs.owners m hm
  · rw [hnew]
    exact List.Perm.refl _
  · rw [hnew]
    rfl

end Mutator

end Reclaim
