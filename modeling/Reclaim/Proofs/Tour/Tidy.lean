import Reclaim.Proofs.Heap.Young
import Reclaim.Proofs.Plan.Operations
import Reclaim.Proofs.Tour.Toured

/-!
A plan that copies, between two operations. New objects lie in the nursery, no cell is marked, all large
objects show the mark of the last collection, and no collector has work to do.
-/
namespace Reclaim

open Heap Queue Sizes

-- `known` are the objects that there are.
structure Tidy (p : Plan) (mutators : List Mutator) (l : Layout) (known : Set Nat) : Prop where
  policy_eq : p.policy = .hybrid
  counts_eq : p.counts = none
  nursery : ∃ s, p.heap.nursery = some s
  workers_eq : ∃ n, p.workers = (List.range (n + 1)).map fun i => { ordinal := i + 1 }
  populated : p.heap.Populated l
  reached_eq : l.reached = []
  young : ∀ x bytes, Room p.heap l .nursery x bytes →
    p.heap.memory.read x % 4 = 0 ∧ bytes ≤ p.config.largeObjectThreshold
  cells : ∀ a, p.heap.spaceOf? a = some .mature → Block.isMarked p.heap.memory a = false
  chunks : ∀ x bytes, Room p.heap l .large x bytes →
    Status.isMarked (p.heap.memory.read x) p.heap.large.markState = true
  owners : ∀ m ∈ mutators, m.Owns p.heap.mature
  standard : (l.nursery.bumps.map StandardAllocator.bump).Perm (mutators.map (·.standard))
  bumps : l.immortal.bumps.Perm (mutators.map (·.immortal))
  queues : p.queues.Idle p.buffer
  globals : ∀ slot, .location slot ∈ p.globals.roots → Slot p.heap slot
  threshold : p.config.largeObjectThreshold ≤ SizeClass.largest
  known_iff : ∀ o, o ∈ known ↔ ∃ kind bytes, Room p.heap l kind o bytes

namespace Heap.Sound

variable {h : Heap} {l : Layout} (hs : h.Sound l)
include hs

-- What is written in rooms or outside of the spaces is no bit of a cell.
theorem isMarked_eq {m : Memory} {a : Nat} (ha : h.spaceOf? a = some .mature)
    (hm : ∀ a kind, h.spaceOf? a = some kind → ¬Inside h l a kind → m.read a = h.memory.read a) :
    Block.isMarked m a = Block.isMarked h.memory a := by
  obtain ⟨s, hspace, hin⟩ := contains_of_spaceOf? ha
  have hk := hspace
  cases hspace
  exact Block.isMarked_congr (hm _ .mature
    (hs.spaceOf?_eq_some hk (hs.mature.listed.contains_bitmapWord hin))
    (hs.mature.listed.bitmapWord_not_inside a))

-- The allocators of new objects change.
theorem rearrangeYoung {s : Space} (hn : h.nursery = some s) {bumps : List Bump}
    (hp : Plots s h.memory l.nursery.runs l.nursery.rooms bumps) :
    Rearranged h l h { l with nursery := { l.nursery with bumps } } where
  sound := { hs with nursery := fun _ hs' => Option.some.inj (hn.symm.trans hs') ▸ hp }
  types_eq := rfl
  memory_eq := rfl
  nursery_eq := rfl
  spaceOf?_eq _ := rfl
  listing_eq := rfl
  reached_eq := rfl
  rooms_eq := rfl
  room_iff := room_congr rfl rfl rfl rfl rfl

end Heap.Sound

namespace Tidy

variable {p p' : Plan} {m m' : Mutator} {rest mutators mutators' : List Mutator} {l l' : Layout}
variable {known : Set Nat} {o : Nat}

theorem perm (hs : Tidy p mutators l known) (hp : mutators.Perm mutators') :
    Tidy p mutators' l known :=
  { hs with
    owners := fun m hm => hs.owners m (hp.mem_iff.mpr hm)
    standard := hs.standard.trans (hp.map _)
    bumps := hs.bumps.trans (hp.map _) }

-- Reports, times and the roots on stacks change.
theorem congr (hs : Tidy p mutators l known) (hconfig : p'.config = p.config)
    (hglobals : p'.globals = p.globals) (hworkers : p'.workers = p.workers)
    (hqueues : p'.queues = p.queues) (hheap : p'.heap = p.heap) (hcounts : p'.counts = p.counts) :
    Tidy p' mutators l known := by
  have hpolicy : p'.policy = p.policy := congrArg Config.policy hconfig
  have hbuffer : p'.buffer = p.buffer := by rw [Plan.buffer, hconfig, Plan.buffer]
  exact {
    policy_eq := hpolicy.trans hs.policy_eq
    counts_eq := hcounts.trans hs.counts_eq
    nursery := hheap ▸ hs.nursery
    workers_eq := hworkers ▸ hs.workers_eq
    populated := hheap ▸ hs.populated
    reached_eq := hs.reached_eq
    young := hheap ▸ hconfig ▸ hs.young
    cells := hheap ▸ hs.cells
    chunks := hheap ▸ hs.chunks
    owners := hheap ▸ hs.owners
    standard := hs.standard
    bumps := hs.bumps
    queues := hqueues ▸ hbuffer ▸ hs.queues
    globals := hheap ▸ hglobals ▸ hs.globals
    threshold := hconfig ▸ hs.threshold
    known_iff := hheap ▸ hs.known_iff }

theorem noted (hs : Tidy p mutators l known) (h : p.Noted p') : Tidy p' mutators l known :=
  hs.congr h.config_eq h.globals_eq h.workers_eq h.queues_eq h.heap_eq h.counts_eq

-- Allocators change, but no object does.
theorem rearrange (hs : Tidy p mutators l known) {h' : Heap} (hr : Rearranged p.heap l h' l')
    (hmark : h'.large.markState = p.heap.large.markState)
    (hown : ∀ m ∈ mutators', m.Owns h'.mature)
    (hstandard : (l'.nursery.bumps.map StandardAllocator.bump).Perm (mutators'.map (·.standard)))
    (hbumps : l'.immortal.bumps.Perm (mutators'.map (·.immortal))) :
    Tidy (p.setHeap h') mutators' l' known where
  policy_eq := hs.policy_eq
  counts_eq := hs.counts_eq
  nursery := hr.nursery_eq.symm ▸ hs.nursery
  workers_eq := hs.workers_eq
  populated := hr.populated hs.populated
  reached_eq := hr.reached_eq.trans hs.reached_eq
  young x bytes hx := by
    change h'.memory.read x % 4 = 0 ∧ _
    rw [hr.memory_eq]
    exact hs.young x bytes ((hr.room_iff _ _ _).mp hx)
  cells a ha := by
    change Block.isMarked h'.memory a = false
    rw [hr.memory_eq]
    exact hs.cells a ((hr.spaceOf?_eq a).symm.trans ha)
  chunks x bytes hx := by
    change Status.isMarked (h'.memory.read x) h'.large.markState = true
    rw [hr.memory_eq, hmark]
    exact hs.chunks x bytes ((hr.room_iff _ _ _).mp hx)
  owners := hown
  standard := hstandard
  bumps := hbumps
  queues := hs.queues
  globals slot hslot := ⟨(hs.globals slot hslot).1,
    (hr.spaceOf?_eq slot).trans (hs.globals slot hslot).2⟩
  threshold := hs.threshold
  known_iff o := (hs.known_iff o).trans
    (exists_congr fun kind => exists_congr fun bytes => (hr.room_iff kind o bytes).symm)

-- The allocators of one mutator among others.
theorem standard_cons (hs : Tidy p (m :: rest) l known) : ∃ b bs, m.standard = .bump b ∧
    l.nursery.bumps.Perm (b :: bs) ∧
    (bs.map StandardAllocator.bump).Perm (rest.map (·.standard)) := by
  obtain ⟨b, hb, heq⟩ := List.mem_map.mp (hs.standard.mem_iff.mpr List.mem_cons_self)
  have hperm := List.perm_cons_erase hb
  refine ⟨b, l.nursery.bumps.erase b, heq.symm, hperm, ?_⟩
  have hall := (hperm.map StandardAllocator.bump).symm.trans hs.standard
  rw [List.map_cons, List.map_cons, heq] at hall
  exact hall.cons_inv

-- Memory changes in rooms behind the status words, or outside of the spaces.
theorem setMemory (hs : Tidy p mutators l known) {memory : Memory}
    (hp : Populated { p.heap with memory } l)
    (hrooms : ∀ kind x bytes, Room { p.heap with memory } l kind x bytes ↔ Room p.heap l kind x bytes)
    (hheads : ∀ kind x bytes, Room p.heap l kind x bytes → memory.read x = p.heap.memory.read x)
    (hfree : ∀ a kind, p.heap.spaceOf? a = some kind → ¬Inside p.heap l a kind →
      memory.read a = p.heap.memory.read a) :
    Tidy (p.setMemory memory) mutators l known := { hs with
  populated := hp
  young := fun x bytes hx => by
    have hx' := (hrooms _ _ _).mp hx
    change memory.read x % 4 = 0 ∧ _
    rw [hheads _ _ _ hx']
    exact hs.young x bytes hx'
  cells := fun a ha => (hs.populated.sound.isMarked_eq ha hfree).trans (hs.cells a ha)
  chunks := fun x bytes hx => by
    have hx' := (hrooms _ _ _).mp hx
    change Status.isMarked (memory.read x) _ = true
    rw [hheads _ _ _ hx']
    exact hs.chunks x bytes hx'
  known_iff := fun o => (hs.known_iff o).trans
    (exists_congr fun kind => exists_congr fun bytes => (hrooms kind o bytes).symm) }

-- A word of an object behind its status word is written.
theorem writeWord (hs : Tidy p mutators l known) {kind : SpaceKind} {bytes a : Nat}
    (hr : Room p.heap l kind o bytes) (h1 : o < a) (h2 : a < o + bytes) {v : Nat}
    (hformed : Object.Formed p.heap.types (p.heap.memory.write a v) o bytes) :
    Tidy (p.setMemory (p.heap.memory.write a v)) mutators l known := by
  have hsound := hs.populated.sound
  have hother : ∀ b, b ≠ a → (p.heap.memory.write a v).read b = p.heap.memory.read b := fun b hb =>
    Memory.read_write_of_ne hb _
  obtain ⟨hsound', hrooms⟩ := hsound.write hr (le_of_lt h1) h2 v
  obtain ⟨hp, -⟩ := hs.populated.write hr (le_of_lt h1) h2 hformed
  refine hs.setMemory hp hrooms (fun kind' x bytes' hx => hother x ?_) fun b kind' hb hout =>
    hother b ?_
  · have hne := hsound.head_ne hr hx (a := a - o) (by omega) (by omega)
    omega
  · rintro rfl
    exact hout (hsound.inside_room hr (le_of_lt h1) h2 hb)

-- Words outside of the spaces are written.
theorem writeOutside (hs : Tidy p mutators l known) {memory : Memory}
    (hm : ∀ a kind, p.heap.spaceOf? a = some kind → memory.read a = p.heap.memory.read a) :
    Tidy (p.setMemory memory) mutators l known := by
  have hsound := hs.populated.sound
  obtain ⟨-, hrooms⟩ := hsound.setOutside hm
  obtain ⟨hp, -⟩ := hs.populated.setOutside hm
  refine hs.setMemory hp hrooms (fun kind x bytes hx => ?_) fun a kind ha _ => hm a kind ha
  exact hm x kind (hsound.spaceOf?_start hx)

end Tidy

end Reclaim
