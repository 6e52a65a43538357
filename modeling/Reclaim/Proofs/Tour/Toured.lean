import Mathlib.Logic.Function.Basic
import Reclaim.Proofs.Plan.Collecting
import Reclaim.Proofs.Tour.Visits

/-!
How far a closure has come: which objects it has visited, where they are now, and what the words that
hold references show meanwhile. A visit and the update of a reference carry this on.
-/
namespace Reclaim

open Heap Sizes

-- The slot of a pointer into an object.
def Root.innerSlot? : Root → Option Nat
  | .interior _ slot => some slot
  | _ => none

-- What a closure starts from: the heap, how it is used, and the roots.
structure Ground where
  heap : Heap
  layout : Layout
  roots : List Root

namespace Ground

def IsRoom (g : Ground) (kind : SpaceKind) (x bytes : Nat) : Prop :=
  Room g.heap g.layout kind x bytes

def IsObject (g : Ground) (x : Nat) : Prop := ∃ kind bytes, g.IsRoom kind x bytes

def Young (g : Ground) (x : Nat) : Prop := g.heap.spaceOf? x = some .nursery

-- An immortal object that shows the mark before anybody has visited it. It is passed over.
def Stale (g : Ground) (x : Nat) : Prop :=
  g.heap.spaceOf? x = some .immortal ∧
    Status.isMarked (g.heap.memory.read x) g.heap.immortal.markState = true

-- The addresses of the references that an object holds.
def slots (g : Ground) (x : Nat) : List Nat := Object.slotsOf g.heap.types g.heap.memory x

def size (g : Ground) (x : Nat) : Except Fault Nat := Object.size g.heap.types g.heap.memory x

-- What a closure comes to: what roots lead to, and on from there.
inductive Traces (g : Ground) : Nat → Prop
  | root {root : Root} : root ∈ g.roots → root.target g.heap.memory ≠ 0 →
    g.Traces (root.target g.heap.memory)
  | field {x slot : Nat} : g.Traces x → ¬g.Stale x → slot ∈ g.slots x →
    g.heap.memory.read slot ≠ 0 → g.Traces (g.heap.memory.read slot)

-- A word that holds a reference, as a root or in one of some objects: where it was at first, and where
-- it is when `place` tells where the objects are.
inductive Site (g : Ground) (objects : Nat → Prop) (place : Nat → Nat) : Nat → Nat → Prop
  | root {slot : Nat} : .location slot ∈ g.roots → g.Site objects place slot slot
  | field {x slot : Nat} : objects x → slot ∈ g.slots x →
    g.Site objects place slot (slot - x + place x)

theorem Site.mono {g : Ground} {objects objects' : Nat → Prop} {place place' : Nat → Nat} {s s' : Nat}
    (hs : g.Site objects place s s') (h : ∀ x, objects x → objects' x ∧ place' x = place x) :
    g.Site objects' place' s s' := by
  cases hs with
  | root hroot => exact .root hroot
  | field hx hslot => exact (h _ hx).2 ▸ .field (h _ hx).1 hslot

-- What a closure takes for granted.
structure Ready (g : Ground) : Prop where
  populated : g.heap.Populated g.layout
  reached_eq : g.layout.reached = []
  young : ∀ x bytes, g.IsRoom .nursery x bytes →
    g.heap.memory.read x % 4 = 0 ∧ bytes ≤ SizeClass.largest
  cells : ∀ x bytes, g.IsRoom .mature x bytes → Block.isMarked g.heap.memory x = false
  chunks : ∀ x bytes, g.IsRoom .large x bytes →
    Status.isMarked (g.heap.memory.read x) g.heap.large.markState = false
  traced : ∀ x, g.Traces x → g.IsObject x
  locations : ∀ slot, .location slot ∈ g.roots → Slot g.heap slot
  -- A pointer into an object does not leave it.
  inner : ∀ base slot, .interior base slot ∈ g.roots → Slot g.heap slot ∧
    .location slot ∉ g.roots ∧ g.IsObject base ∧ ∃ n, g.size base = .ok n ∧
      base ≤ g.heap.memory.read slot ∧ g.heap.memory.read slot ≤ base + n
  inner_nodup : (g.roots.filterMap Root.innerSlot?).Nodup
  pinned : ∀ o, .value o ∈ g.roots → g.IsObject o ∧ ¬g.Young o

end Ground

-- Nobody visits `x` any more.
def Arrived (g : Ground) (seen : List Nat) (x : Nat) : Prop := x ∈ seen ∨ g.Stale x

-- A word that held `v` at first may show `w`.
def Shows (g : Ground) (seen : List Nat) (place : Nat → Nat) (v w : Nat) : Prop :=
  w = v ∨ Arrived g seen v ∧ w = place v

-- The objects of `seen` have been visited, and `place` tells where each object is.
structure Toured (g : Ground) (h : Heap) (l : Layout) (seen : List Nat) (place : Nat → Nat) :
    Prop where
  sound : h.Sound l
  types_eq : h.types = g.heap.types
  nursery_eq : h.nursery = g.heap.nursery
  immortal_eq : h.immortal = g.heap.immortal
  mature_eq : h.mature.space.mapping = g.heap.mature.space.mapping
  large_eq : h.large.space.mapping = g.heap.large.space.mapping
  markState_eq : h.large.markState = g.heap.large.markState
  listing_subset : g.heap.mature.listing ⊆ h.mature.listing
  plots_eq : l.nursery = g.layout.nursery ∧ l.immortal = g.layout.immortal
  reached_iff : ∀ chunk, chunk ∈ l.reached ↔
    Chunk.object chunk ∈ seen ∧ g.heap.spaceOf? (Chunk.object chunk) = some .large
  room : ∀ k o bytes, g.IsRoom k o bytes → Room h l k o bytes
  room_cases : ∀ k o bytes, Room h l k o bytes →
    g.IsRoom k o bytes ∨ k = .mature ∧ ∃ x ∈ seen, g.Young x ∧ o = place x
  nodup : seen.Nodup
  seen_room : ∀ x ∈ seen, g.IsObject x ∧ ¬g.Stale x
  still : ∀ x, (x ∈ seen → ¬g.Young x) → place x = x
  moved : ∀ x ∈ seen, g.Young x → h.memory.read x = Status.forwardedTo (place x) ∧
    (∀ k bytes, ¬g.IsRoom k (place x) bytes) ∧
    ∃ bytes n, Room h l .mature (place x) bytes ∧ g.size x = .ok n ∧ n ≤ bytes
  injective : ∀ x ∈ seen, ∀ y ∈ seen, place x = place y → x = y
  cells : ∀ o bytes, Room h l .mature o bytes →
    (Block.isMarked h.memory o = true ↔ ∃ x ∈ seen, o = place x)
  chunks : ∀ x bytes, g.IsRoom .large x bytes →
    (Status.isMarked (h.memory.read x) g.heap.large.markState = true ↔ x ∈ seen)
  plots : ∀ x bytes, g.IsRoom .immortal x bytes →
    (Status.isMarked (h.memory.read x) g.heap.immortal.markState = true ↔ x ∈ seen ∨ g.Stale x)
  young : ∀ x bytes, g.IsRoom .nursery x bytes → x ∉ seen →
    h.memory.read x = g.heap.memory.read x
  plain : ∀ k x bytes n a, g.IsRoom k x bytes → g.size x = .ok n →
    Object.Plain g.heap.types g.heap.memory x n a →
    h.memory.read (place x + a) = g.heap.memory.read (x + a)
  shows : ∀ s s', g.Site g.IsObject place s s' →
    Shows g seen place (g.heap.memory.read s) (h.memory.read s')

-- A word of an object is not the status word of any.
theorem Heap.Sound.head_ne {h : Heap} {l : Layout} {kind kind' : SpaceKind} {o x bytes bytes' a : Nat}
    (hs : h.Sound l) (hr : Room h l kind o bytes) (hr' : Room h l kind' x bytes') (h1 : 0 < a)
    (h2 : a < bytes) : o + a ≠ x := by
  rcases hs.room_apart hr hr' with ⟨-, rfl, -⟩ | h3 | h3 <;> omega

namespace Ground.Ready

variable {g : Ground} (hg : g.Ready)
include hg

theorem spaceOf?_eq {kind : SpaceKind} {x bytes : Nat} (hr : g.IsRoom kind x bytes) :
    g.heap.spaceOf? x = some kind := by
  exact hg.populated.sound.spaceOf?_start hr

theorem young_iff {kind : SpaceKind} {x bytes : Nat} (hr : g.IsRoom kind x bytes) :
    g.Young x ↔ kind = .nursery := by
  rw [Ground.Young, hg.spaceOf?_eq hr, Option.some.injEq]

theorem size_ok {kind : SpaceKind} {x bytes : Nat} (hr : g.IsRoom kind x bytes) :
    ∃ n, g.size x = .ok n ∧ n ≤ bytes :=
  let ⟨n, hsize, _, hle⟩ := (hg.populated.formed _ _ _ hr).size_ok
  ⟨n, hsize, hle⟩

-- A slot is a word of the object.
theorem slot_mem {kind : SpaceKind} {x bytes n slot : Nat} (hr : g.IsRoom kind x bytes)
    (hsize : g.size x = .ok n) (hslot : slot ∈ g.slots x) :
    slot % wordBytes = 0 ∧ x < slot ∧ slot < x + n := by
  obtain ⟨info, n', -, hread, hrequired, -, -, -, -, hslots, -⟩ :=
    (hg.populated.formed _ _ _ hr).slotsOf_eq
  have hsame : g.size x = .ok n' := by
    rw [Ground.size, Object.size, hread, ok_bind, hrequired]
  obtain rfl : n = n' := Except.ok.inj (hsize.symm.trans hsame)
  obtain ⟨hmod, h1, h2⟩ := hslots _ hslot
  have hlow := info.scalarHeaderBytes_le
  simp only [Types.scalarHeaderBytes, wordBytes] at hlow h2
  exact ⟨hmod, by omega, by omega⟩

-- Nothing has been visited yet.
theorem toured : Toured g g.heap g.layout [] id where
  sound := hg.populated.sound
  types_eq := rfl
  nursery_eq := rfl
  immortal_eq := rfl
  mature_eq := rfl
  large_eq := rfl
  markState_eq := rfl
  listing_subset := fun _ hb => hb
  plots_eq := ⟨rfl, rfl⟩
  reached_iff chunk := by simp only [hg.reached_eq, List.not_mem_nil, false_and]
  room _ _ _ hr := hr
  room_cases _ _ _ hr := Or.inl hr
  nodup := List.nodup_nil
  seen_room := nofun
  still _ _ := rfl
  moved := nofun
  injective := nofun
  cells o bytes hr := by simp only [hg.cells o bytes hr, List.not_mem_nil, false_and, exists_false,
    Bool.false_eq_true]
  chunks x bytes hr := by simp only [hg.chunks x bytes hr, List.not_mem_nil, Bool.false_eq_true]
  plots x bytes hr := by
    simp only [List.not_mem_nil, false_or, Ground.Stale, hg.spaceOf?_eq hr, true_and]
  young _ _ _ _ := rfl
  plain _ _ _ _ _ _ _ _ := rfl
  shows s s' hsite := by
    cases hsite with
    | root _ => exact Or.inl rfl
    | field hx hslot =>
      obtain ⟨kind, bytes, hr⟩ := hx
      obtain ⟨n, hsize, -⟩ := hg.size_ok hr
      have hlt := (hg.slot_mem hr hsize hslot).2.1
      refine Or.inl (congrArg _ ?_)
      simp only [id]
      omega

end Ground.Ready

namespace Toured

variable {g : Ground} {h : Heap} {l : Layout} {seen : List Nat} {place : Nat → Nat}
variable {kind kind' : SpaceKind} {x y bytes bytes' n n' a c : Nat}
variable (ht : Toured g h l seen place) (hg : g.Ready)
include ht

theorem spaceOf?_eq (a : Nat) : h.spaceOf? a = g.heap.spaceOf? a :=
  spaceOf?_congr (congrArg _ ht.nursery_eq) ht.mature_eq ht.large_eq
    (congrArg (·.space.mapping) ht.immortal_eq) a

include hg

-- Every object has a room where it is.
theorem home (hr : g.IsRoom kind x bytes) (hsize : g.size x = .ok n) :
    ∃ kind' bytes', Room h l kind' (place x) bytes' ∧ n ≤ bytes' := by
  by_cases hx : x ∈ seen ∧ g.Young x
  · obtain ⟨-, -, bytes', n', hroom, hsize', hle⟩ := ht.moved x hx.1 hx.2
    obtain rfl : n = n' := Except.ok.inj (hsize.symm.trans hsize')
    exact ⟨_, bytes', hroom, hle⟩
  · obtain ⟨n', hsize', hle⟩ := hg.size_ok hr
    obtain rfl : n = n' := Except.ok.inj (hsize.symm.trans hsize')
    rw [ht.still x fun h1 h2 => hx ⟨h1, h2⟩]
    exact ⟨kind, bytes, ht.room _ _ _ hr, hle⟩

omit hg in
-- No two objects are in the same place.
theorem place_inj (hr : g.IsRoom kind x bytes) (hr' : g.IsRoom kind' y bytes')
    (heq : place x = place y) : x = y := by
  by_cases hx : x ∈ seen ∧ g.Young x
  · by_cases hy : y ∈ seen ∧ g.Young y
    · exact ht.injective x hx.1 y hy.1 heq
    · rw [ht.still y fun h1 h2 => hy ⟨h1, h2⟩] at heq
      exact absurd (heq ▸ hr') ((ht.moved x hx.1 hx.2).2.1 _ _)
  · rw [ht.still x fun h1 h2 => hx ⟨h1, h2⟩] at heq
    by_cases hy : y ∈ seen ∧ g.Young y
    · exact absurd (heq ▸ hr) ((ht.moved y hy.1 hy.2).2.1 _ _)
    · rwa [ht.still y fun h1 h2 => hy ⟨h1, h2⟩] at heq

-- Words of different objects are different words.
theorem at_inj (hr : g.IsRoom kind x bytes) (hr' : g.IsRoom kind' y bytes')
    (hsize : g.size x = .ok n) (hsize' : g.size y = .ok n') (ha : a < n) (hc : c < n')
    (heq : place x + a = place y + c) : x = y ∧ a = c := by
  obtain ⟨k, b, hroom, hle⟩ := ht.home hg hr hsize
  obtain ⟨k', b', hroom', hle'⟩ := ht.home hg hr' hsize'
  rcases ht.sound.room_apart hroom hroom' with ⟨-, hplace, -⟩ | h1 | h1
  · exact ⟨ht.place_inj hr hr' hplace, by omega⟩
  · omega
  · omega

-- The words that hold references lie where the spaces let them.
theorem site_mem {s s' : Nat} (hsite : g.Site g.IsObject place s s') : s' % wordBytes = 0 ∧
    (.location s' ∈ g.roots ∧ s = s' ∧ h.spaceOf? s' = none ∨
      ∃ kind x bytes n, g.IsRoom kind x bytes ∧ g.size x = .ok n ∧ s ∈ g.slots x ∧
        x < s ∧ s < x + n ∧ s' = place x + (s - x)) := by
  cases hsite with
  | root hroot =>
    obtain ⟨hmod, hnone⟩ := hg.locations _ hroot
    exact ⟨hmod, Or.inl ⟨hroot, rfl, (ht.spaceOf?_eq _).trans hnone⟩⟩
  | @field x _ hx hslot =>
    obtain ⟨kind, bytes, hr⟩ := hx
    obtain ⟨n, hsize, -⟩ := hg.size_ok hr
    obtain ⟨hmod, h1, h2⟩ := hg.slot_mem hr hsize hslot
    obtain ⟨k, b, hroom, -⟩ := ht.home hg hr hsize
    have hplace := (ht.sound.room_mem hroom).1
    have hx := (hg.populated.sound.room_mem hr).1
    simp only [wordBytes] at hmod hplace hx ⊢
    exact ⟨by omega, Or.inr ⟨kind, x, bytes, n, hr, hsize, hslot, h1, h2, by omega⟩⟩

-- The same word has held the same reference.
theorem site_inj {s t s' : Nat} (hs : g.Site g.IsObject place s s') (ht' : g.Site g.IsObject place t s') : s = t := by
  obtain ⟨-, ⟨-, rfl, hnone⟩ | ⟨k, x, b, n, hr, hsize, -, h1, h2, rfl⟩⟩ := ht.site_mem hg hs
  · obtain ⟨-, ⟨-, rfl, -⟩ | ⟨k', y, b', n', hr', hsize', -, h3, h4, rfl⟩⟩ := ht.site_mem hg ht'
    · rfl
    · obtain ⟨k, b, hroom, hle⟩ := ht.home hg hr' hsize'
      rw [ht.sound.spaceOf?_room hroom (by omega) (by omega)] at hnone
      cases hnone
  · obtain ⟨-, ⟨-, rfl, hnone⟩ | ⟨k', y, b', n', hr', hsize', -, h3, h4, heq⟩⟩ := ht.site_mem hg ht'
    · obtain ⟨k, b, hroom, hle⟩ := ht.home hg hr hsize
      rw [ht.sound.spaceOf?_room hroom (by omega) (by omega)] at hnone
      cases hnone
    · obtain ⟨rfl, -⟩ := ht.at_inj hg hr hr' hsize hsize' (by omega) (by omega) heq
      omega

-- An object is where its place is as it was.
theorem formed (hr : g.IsRoom kind x bytes) (hsize : g.size x = .ok n) :
    ∃ kind' bytes', Room h l kind' (place x) bytes' ∧ n ≤ bytes' ∧
      Object.Formed h.types h.memory (place x) bytes' ∧
      Object.size h.types h.memory (place x) = .ok n ∧
      Object.slotsOf h.types h.memory (place x) = (g.slots x).map fun slot => slot - x + place x := by
  obtain ⟨k, b, hroom, hle⟩ := ht.home hg hr hsize
  have hformed := hg.populated.formed _ _ _ hr
  obtain ⟨htype, hlength⟩ := hformed.plain_header hsize
  obtain ⟨h1, h2, h3⟩ := hformed.relocate hsize (ht.sound.room_mem hroom).1
    (ht.sound.room_bound hroom).2 hle (ht.plain _ _ _ _ _ hr hsize htype)
    fun info hinfo harray => ht.plain _ _ _ _ _ hr hsize (hlength info hinfo harray)
  rw [ht.types_eq]
  exact ⟨k, b, hroom, hle, h1, h2, h3⟩

section Visit

variable {t : Nat} {h' : Heap} {l' : Layout} (hv : Visited h l kind x t h' l')
variable (hr : g.IsRoom kind x bytes) (hx : x ∉ seen)
include hv hr hx

-- A visit changes no word of an object but its status word.
theorem word_visit (hr' : g.IsRoom kind' y bytes') (hsize : g.size y = .ok n)
    (ha : a % wordBytes = 0) (h1 : 0 < a) (h2 : a < n) :
    h'.memory.read (Function.update place x t y + a) = h.memory.read (place y + a) := by
  have hroom := ht.room _ _ _ hr
  by_cases hyx : y = x
  · subst hyx
    rw [Function.update_self, ht.still y fun h3 => absurd h3 hx]
    by_cases hk : kind = .nursery
    · obtain ⟨-, -, b, n', -, hsize', -, hcopy⟩ := hv.copied hk
      obtain ⟨-, -, -, -, -, hsize₂, -⟩ := ht.formed hg hr' hsize
      rw [ht.still y fun h3 => absurd h3 hx] at hsize₂
      obtain rfl : n = n' := Except.ok.inj (hsize₂.symm.trans hsize')
      exact hcopy a ha h1 h2
    · obtain ⟨n', hsize', hle⟩ := hg.size_ok hr
      obtain rfl : n = n' := Except.ok.inj (hsize.symm.trans hsize')
      rw [hv.stays hk]
      exact hv.word _ _ _ hroom _ (by omega) (by omega) (by omega)
  · rw [Function.update_of_ne hyx]
    obtain ⟨k, b, hhome, hle⟩ := ht.home hg hr' hsize
    exact hv.word _ _ _ hhome _ (by omega) (by omega)
      (ht.sound.head_ne hhome hroom h1 (by omega))

omit ht hg hv hr in
-- Other objects stay where they are.
theorem update_place (hy : y ∈ seen) : Function.update place x t y = place y :=
  Function.update_of_ne (ne_of_mem_of_not_mem hy hx) _ _

omit ht hg hv hr in
-- What is where a visited object is.
theorem exists_place_cons {o : Nat} : (∃ y ∈ x :: seen, o = Function.update place x t y) ↔
    (∃ y ∈ seen, o = place y) ∨ o = t := by
  simp only [List.mem_cons, or_and_right, exists_or, exists_eq_left, Function.update_self]
  rw [or_comm]
  refine or_congr_left (exists_congr fun y => and_congr_right fun hy => ?_)
  rw [update_place hx hy]

-- The place of the object is new.
theorem place_ne (hy : y ∈ seen) : place y ≠ t := by
  rintro rfl
  obtain ⟨k, b, hry⟩ := (ht.seen_room y hy).1
  by_cases hk : kind = .nursery
  · obtain ⟨n, hsize, -⟩ := hg.size_ok hry
    obtain ⟨k', b', hhome, -⟩ := ht.home hg hry hsize
    exact (hv.copied hk).2.1 _ _ hhome
  · have hplace : place x = x := ht.still x fun h3 => absurd h3 hx
    have heq : place y = place x := (hv.stays hk).trans hplace.symm
    exact hx (ht.place_inj hry hr heq ▸ hy)

-- Then still no two visited objects are in the same place.
theorem update_injective : ∀ y ∈ x :: seen, ∀ z ∈ x :: seen,
    Function.update place x t y = Function.update place x t z → y = z := by
  intro y hy' z hz' heq
  rcases List.mem_cons.mp hy' with rfl | hy <;> rcases List.mem_cons.mp hz' with rfl | hz
  · rfl
  · rw [Function.update_self, update_place hx hz] at heq
    exact absurd heq.symm (ht.place_ne hg hv hr hx hz)
  · rw [Function.update_self, update_place hx hy] at heq
    exact absurd heq (ht.place_ne hg hv hr hx hy)
  · rw [update_place hx hy, update_place hx hz] at heq
    exact ht.injective y hy z hz heq

omit hr hx in
theorem read_root {slot : Nat} (hroot : .location slot ∈ g.roots) :
    h'.memory.read slot = h.memory.read slot := by
  refine hv.outside slot ?_
  rw [ht.spaceOf?_eq]
  exact (hg.locations _ hroot).2

-- The fields of an object move with it.
theorem read_field {slot : Nat} (hy : g.IsObject y) (hslot : slot ∈ g.slots y) :
    h'.memory.read (slot - y + Function.update place x t y) = h.memory.read (slot - y + place y) := by
  obtain ⟨k, b, hry⟩ := hy
  obtain ⟨n, hsize, -⟩ := hg.size_ok hry
  obtain ⟨hmod, h1, h2⟩ := hg.slot_mem hry hsize hslot
  have hmod' := (hg.populated.sound.room_mem hry).1
  rw [Nat.add_comm, Nat.add_comm _ (place y)]
  refine ht.word_visit hg hv hr hx hry hsize ?_ (by omega) (by omega)
  simp only [wordBytes] at hmod hmod' ⊢
  omega

-- A visit leaves the references alone that roots and visited objects hold.
theorem read_site {s s' : Nat} (hsite : g.Site (· ∈ seen) place s s') :
    h'.memory.read s' = h.memory.read s' := by
  cases hsite with
  | root hroot => exact ht.read_root hg hv hroot
  | @field y _ hy hslot =>
    have hfield := ht.read_field hg hv hr hx (ht.seen_room y hy).1 hslot
    rwa [update_place hx hy] at hfield

omit hr hx in
theorem head_visit {k : SpaceKind} {y b : Nat} (hry : g.IsRoom k y b) (hne : y ≠ x) :
    h'.memory.read y = h.memory.read y := by
  have hpos := (hg.populated.sound.room_mem hry).2.2.1
  exact hv.word _ _ _ (ht.room _ _ _ hry) y (le_refl _) (by omega) hne

-- Copies keep their places, and the new one gets its own.
theorem moved_visit {y : Nat} (hy : y ∈ x :: seen) (hyoung : g.Young y) :
    h'.memory.read y = Status.forwardedTo (Function.update place x t y) ∧
      (∀ k b, ¬g.IsRoom k (Function.update place x t y) b) ∧
      ∃ b n, Room h' l' .mature (Function.update place x t y) b ∧ g.size y = .ok n ∧ n ≤ b := by
  rcases List.mem_cons.mp hy with rfl | hy
  · obtain ⟨h1, h2, b, n, h3, h4, h5, -⟩ := hv.copied ((hg.young_iff hr).mp hyoung)
    obtain ⟨n', hsize, -⟩ := hg.size_ok hr
    obtain ⟨-, -, -, -, -, hsize', -⟩ := ht.formed hg hr hsize
    rw [ht.still y fun h3 => absurd h3 hx, h4] at hsize'
    cases hsize'
    rw [Function.update_self]
    exact ⟨h1, fun k b ho => h2 k b (ht.room _ _ _ ho), b, n, h3, hsize, h5⟩
  · obtain ⟨h1, h2, b, n, h3, h4, h5⟩ := ht.moved y hy hyoung
    obtain ⟨k, b', hry⟩ := (ht.seen_room y hy).1
    rw [update_place hx hy]
    exact ⟨(ht.head_visit hg hv hry fun heq => hx (heq ▸ hy)).trans h1, h2, b, n,
      hv.room _ _ _ h3, h4, h5⟩

-- A reference shows its object where it was, or where a visit has put it.
theorem shows_visit (hfresh : ¬g.Stale x) {s s' : Nat}
    (hsite : g.Site g.IsObject (Function.update place x t) s s') :
    Shows g (x :: seen) (Function.update place x t) (g.heap.memory.read s) (h'.memory.read s') := by
  have hold : ∃ s₁, g.Site g.IsObject place s s₁ ∧ h'.memory.read s' = h.memory.read s₁ := by
    cases hsite with
    | root hroot => exact ⟨s, .root hroot, ht.read_root hg hv hroot⟩
    | field hy hslot => exact ⟨_, .field hy hslot, ht.read_field hg hv hr hx hy hslot⟩
  obtain ⟨s₁, hsite₁, hread⟩ := hold
  rw [hread]
  rcases ht.shows s s₁ hsite₁ with hw | ⟨hv₁, hw⟩
  · exact Or.inl hw
  · refine Or.inr ⟨hv₁.imp_left (List.mem_cons_of_mem _), hw.trans ?_⟩
    rcases hv₁ with h1 | h1
    · exact (update_place hx h1).symm
    · exact (Function.update_of_ne (fun heq => hfresh (by rwa [← heq])) _ _).symm

theorem visit (hfresh : ¬g.Stale x) : Toured g h' l' (x :: seen) (Function.update place x t) := by
  have hspace := hg.spaceOf?_eq hr
  have hyoung := hg.young_iff hr
  exact {
    sound := hv.sound
    types_eq := hv.types_eq.trans ht.types_eq
    nursery_eq := hv.nursery_eq.trans ht.nursery_eq
    immortal_eq := hv.immortal_eq.trans ht.immortal_eq
    mature_eq := hv.mature_eq.trans ht.mature_eq
    large_eq := hv.large_eq.trans ht.large_eq
    markState_eq := hv.markState_eq.trans ht.markState_eq
    listing_subset := fun b hb => hv.listing_subset (ht.listing_subset hb)
    plots_eq := ⟨hv.plots_eq.1.trans ht.plots_eq.1, hv.plots_eq.2.trans ht.plots_eq.2⟩
    reached_iff := fun chunk => by
      rw [hv.reached_iff, ht.reached_iff, List.mem_cons]
      constructor
      · rintro (⟨h1, h2⟩ | ⟨rfl, rfl⟩)
        · exact ⟨Or.inr h1, h2⟩
        · exact ⟨Or.inl rfl, hspace⟩
      · rintro ⟨rfl | h1, h2⟩
        · exact Or.inr ⟨Option.some.inj (hspace.symm.trans h2), rfl⟩
        · exact Or.inl ⟨h1, h2⟩
    room := fun k o b ho => hv.room _ _ _ (ht.room _ _ _ ho)
    room_cases := fun k o b ho => by
      rcases hv.room_cases _ _ _ ho with ho | ⟨hk, rfl, rfl⟩
      · rcases ht.room_cases _ _ _ ho with ho | ⟨hk, y, hy, h1, h2⟩
        · exact Or.inl ho
        · exact Or.inr ⟨hk, y, List.mem_cons_of_mem _ hy, h1, h2.trans (update_place hx hy).symm⟩
      · exact Or.inr ⟨rfl, x, List.mem_cons_self, hyoung.mpr hk,
          by rw [Function.update_self]⟩
    nodup := List.nodup_cons.mpr ⟨hx, ht.nodup⟩
    seen_room := fun y hy => by
      rcases List.mem_cons.mp hy with rfl | hy
      · exact ⟨⟨_, _, hr⟩, hfresh⟩
      · exact ht.seen_room y hy
    still := fun y hy => by
      by_cases hyx : y = x
      · subst hyx
        rw [Function.update_self]
        exact hv.stays fun hk => hy List.mem_cons_self (hyoung.mpr hk)
      · rw [Function.update_of_ne hyx]
        exact ht.still y fun h1 => hy (List.mem_cons_of_mem _ h1)
    moved := fun y hy hyy => ht.moved_visit hg hv hr hx hy hyy
    injective := ht.update_injective hg hv hr hx
    cells := fun o b ho => by
      rw [hv.isMarked_iff o b ho, exists_place_cons hx]
      by_cases hot : o = t
      · exact iff_of_true (Or.inr hot) (Or.inr hot)
      · have ho' := (hv.room_cases _ _ _ ho).resolve_right fun hk => hot hk.2.2
        rw [or_iff_left hot, or_iff_left hot, ht.cells o b ho']
    chunks := fun y b hry => by
      by_cases hyx : y = x
      · subst hyx
        have hk : kind = .large := Option.some.inj (hspace.symm.trans (hg.spaceOf?_eq hry))
        rw [← ht.markState_eq]
        exact iff_of_true (hv.large hk) List.mem_cons_self
      · rw [ht.head_visit hg hv hry hyx, ht.chunks y b hry, List.mem_cons, or_iff_right hyx]
    plots := fun y b hry => by
      by_cases hyx : y = x
      · subst hyx
        have hk : kind = .immortal := Option.some.inj (hspace.symm.trans (hg.spaceOf?_eq hry))
        rw [← congrArg Immortal.markState ht.immortal_eq]
        exact iff_of_true (hv.immortal hk) (Or.inl List.mem_cons_self)
      · rw [ht.head_visit hg hv hry hyx, ht.plots y b hry, List.mem_cons, or_iff_right hyx]
    young := fun y b hry hy => by
      obtain ⟨hyx, hy⟩ := not_or.mp (mt List.mem_cons.mpr hy)
      exact (ht.head_visit hg hv hry hyx).trans (ht.young y b hry hy)
    plain := fun k y b n a hry hsize ha =>
      (ht.word_visit hg hv hr hx hry hsize ha.aligned ha.pos ha.lt).trans
        (ht.plain k y b n a hry hsize ha)
    shows := fun s s' hsite => ht.shows_visit hg hv hr hx hfresh hsite }

end Visit

section Write

variable {s' : Nat} (hin : h.spaceOf? s' = none ∨ ∃ s, g.Site g.IsObject place s s')
include hin

-- A word outside of the spaces, or one that holds a reference in an object.
theorem field_of_site : h.spaceOf? s' = none ∨ ∃ kind x bytes n, g.IsRoom kind x bytes ∧
    g.size x = .ok n ∧ ∃ s, s ∈ g.slots x ∧ x < s ∧ s < x + n ∧ s' = place x + (s - x) := by
  rcases hin with hnone | ⟨s, hsite⟩
  · exact Or.inl hnone
  · obtain ⟨-, ⟨-, -, hnone⟩ | ⟨kind, x, bytes, n, hr, hsize, hslot, h1, h2, h3⟩⟩ :=
      ht.site_mem hg hsite
    · exact Or.inl hnone
    · exact Or.inr ⟨kind, x, bytes, n, hr, hsize, s, hslot, h1, h2, h3⟩

theorem inside_of_site {k : SpaceKind} (hk : h.spaceOf? s' = some k) : Inside h l s' k := by
  rcases ht.field_of_site hg hin with hnone | ⟨kind, x, bytes, n, hr, hsize, s, -, h1, h2, rfl⟩
  · rw [hnone] at hk
    cases hk
  · obtain ⟨k', b, hhome, hle⟩ := ht.home hg hr hsize
    rw [ht.sound.spaceOf?_room hhome (by omega) (by omega)] at hk
    cases hk
    obtain ⟨-, -, -, _, _, hmem⟩ := ht.sound.room_mem hhome
    exact (hmem _ (by omega) (by omega)).2

theorem head_ne_site {o : Nat} (ho : Room h l kind o bytes) : o ≠ s' := by
  rintro rfl
  rcases ht.field_of_site hg hin with hnone | ⟨k, x, b, n, hr, hsize, s, -, h1, h2, heq⟩
  · rw [ht.sound.spaceOf?_start ho] at hnone
    cases hnone
  · obtain ⟨k', b', hhome, hle⟩ := ht.home hg hr hsize
    exact ht.sound.head_ne hhome ho (by omega) (by omega) heq.symm

theorem plain_ne_site (hr : g.IsRoom kind x bytes) (hsize : g.size x = .ok n)
    (ha : Object.Plain g.heap.types g.heap.memory x n a) : place x + a ≠ s' := by
  rintro rfl
  rcases ht.field_of_site hg hin with hnone | ⟨k, y, b, n', hry, hsize', s, hslot, h1, h2, heq⟩
  · obtain ⟨k', b', hhome, hle⟩ := ht.home hg hr hsize
    have hlt := ha.lt
    rw [ht.sound.spaceOf?_room hhome (by omega) (by omega)] at hnone
    cases hnone
  · obtain ⟨rfl, rfl⟩ := ht.at_inj hg hr hry hsize hsize' ha.lt (by omega) heq
    refine ha.not_slot ?_
    rwa [Nat.add_sub_cancel' (le_of_lt h1)]

-- A reference is written where it belongs, or a word outside of the spaces that holds none.
theorem write {w : Nat}
    (hw : ∀ s, g.Site g.IsObject place s s' → Shows g seen place (g.heap.memory.read s) w) :
    Toured g { h with memory := h.memory.write s' w } l seen place := by
  have hother : ∀ a, a ≠ s' → (h.memory.write s' w).read a = h.memory.read a :=
    fun a ha => Memory.read_write_of_ne ha _
  have hfree : ∀ a k, h.spaceOf? a = some k → ¬Inside h l a k →
      (h.memory.write s' w).read a = h.memory.read a := by
    intro a k ha hout
    refine hother a ?_
    rintro rfl
    exact hout (ht.inside_of_site hg hin ha)
  have hhead : ∀ k o b, Room h l k o b → (h.memory.write s' w).read o = h.memory.read o :=
    fun k o b ho => hother o (ht.head_ne_site hg hin ho)
  obtain ⟨hsound, hrooms⟩ := ht.sound.setMemory hfree
  exact {
    sound := hsound
    types_eq := ht.types_eq
    nursery_eq := ht.nursery_eq
    immortal_eq := ht.immortal_eq
    mature_eq := ht.mature_eq
    large_eq := ht.large_eq
    markState_eq := ht.markState_eq
    listing_subset := ht.listing_subset
    plots_eq := ht.plots_eq
    reached_iff := ht.reached_iff
    room := fun k o b ho => (hrooms _ _ _).mpr (ht.room _ _ _ ho)
    room_cases := fun k o b ho => ht.room_cases _ _ _ ((hrooms _ _ _).mp ho)
    nodup := ht.nodup
    seen_room := ht.seen_room
    still := ht.still
    moved := fun x hx hy => by
      obtain ⟨h1, h2, b, n, h3, h4⟩ := ht.moved x hx hy
      obtain ⟨k, b', hr⟩ := (ht.seen_room x hx).1
      exact ⟨(hhead _ _ _ (ht.room _ _ _ hr)).trans h1, h2, b, n, (hrooms _ _ _).mpr h3, h4⟩
    injective := ht.injective
    cells := fun o b ho => by
      have ho' := (hrooms _ _ _).mp ho
      rw [ht.sound.isMarked_congr ho' hfree]
      exact ht.cells o b ho'
    chunks := fun x b hr => by
      rw [hhead _ _ _ (ht.room _ _ _ hr)]
      exact ht.chunks x b hr
    plots := fun x b hr => by
      rw [hhead _ _ _ (ht.room _ _ _ hr)]
      exact ht.plots x b hr
    young := fun x b hr hx => (hhead _ _ _ (ht.room _ _ _ hr)).trans (ht.young x b hr hx)
    plain := fun k x b n a hr hsize ha =>
      (hother _ (ht.plain_ne_site hg hin hr hsize ha)).trans (ht.plain k x b n a hr hsize ha)
    shows := fun s t hsite => by
      by_cases hts : t = s'
      · subst hts
        rw [Memory.read_write_self]
        exact hw s hsite
      · rw [hother t hts]
        exact ht.shows s t hsite }

end Write

end Toured

end Reclaim
