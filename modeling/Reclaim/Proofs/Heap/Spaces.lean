import Reclaim.Proofs.Heap.Population

/-!
Changes to one space of a heap. As long as the space keeps its range and memory outside of it stays as
it is, the other spaces and what lies in them are as before.
-/
namespace Reclaim

open Sizes

-- Whatever can be mapped fits behind a space.
theorem Mapping.room_le {bytes : Nat} (h : bytes < systemLimit) :
    bytes + blockBytes + systemLimit ≤ Word.bound := by
  simp only [systemLimit, blockBytes, Word.bound] at h ⊢
  omega

namespace Heap

variable {h : Heap} {l : Layout} {kind : SpaceKind} {o bytes a : Nat} {m : Memory}

-- Where the spaces lie decides which one an address belongs to.
theorem spaceOf?_congr {h' : Heap} (hn : h'.nursery.map (·.mapping) = h.nursery.map (·.mapping))
    (hm : h'.mature.space.mapping = h.mature.space.mapping)
    (hl : h'.large.space.mapping = h.large.space.mapping)
    (hi : h'.immortal.space.mapping = h.immortal.space.mapping) (a : Nat) :
    h'.spaceOf? a = h.spaceOf? a := by
  have hnursery : h'.inNursery a = h.inNursery a := by
    unfold inNursery
    cases hn1 : h.nursery <;> cases hn2 : h'.nursery <;>
      simp only [hn1, hn2, Option.map_none, Option.map_some, Option.some.injEq, reduceCtorEq]
        at hn
    · rfl
    · simp only [Option.any_some, Space.contains_congr hn]
  have hmature : h'.mature.contains a = h.mature.contains a := Space.contains_congr hm a
  have hlarge : h'.large.contains a = h.large.contains a := Space.contains_congr hl a
  have himmortal : h'.immortal.contains a = h.immortal.contains a := Space.contains_congr hi a
  simp only [spaceOf?, hnursery, hmature, hlarge, himmortal]

theorem inCountedSpace_congr {h' : Heap}
    (hs : ∀ a, h'.spaceOf? a = h.spaceOf? a) (a : Nat) :
    h'.inCountedSpace a = h.inCountedSpace a := by
  rw [inCountedSpace_eq, inCountedSpace_eq, hs]

-- Ranges that are the same lie apart in the same way.
theorem ordered_congr {spaces spaces' : List Space}
    (hmap : spaces'.map (·.mapping) = spaces.map (·.mapping))
    (h : spaces.Pairwise fun s t => s.stop ≤ t.start) :
    spaces'.Pairwise fun s t => s.stop ≤ t.start := by
  have hiff : ∀ xs : List Space, (xs.Pairwise fun s t => s.stop ≤ t.start) ↔
      (xs.map (·.mapping)).Pairwise fun s t => s.start + s.length ≤ t.start := by
    intro xs
    rw [List.pairwise_map]
    rfl
  rw [hiff] at h ⊢
  rwa [hmap]

theorem extents_congr {spaces spaces' : List Space}
    (hmap : spaces'.map (·.mapping) = spaces.map (·.mapping)) {limit : Nat}
    (h : ∀ s ∈ spaces, s.extent < limit) : ∀ s ∈ spaces', s.extent < limit := by
  intro s hs
  obtain ⟨t, ht, heq⟩ := List.mem_map.mp (hmap ▸ List.mem_map_of_mem hs)
  rw [show s.extent = t.extent from congrArg (·.length) heq.symm]
  exact h t ht

namespace Sound

variable (hs : h.Sound l)
include hs

theorem not_mem_other {s t : Space} {kind kind' : SpaceKind} (hk : h.space? kind = some s)
    (hk' : h.space? kind' = some t) (hne : kind ≠ kind') (ha : s.contains a = true) :
    t.contains a = false := by
  rw [Bool.eq_false_iff]
  intro ha'
  rw [Space.contains_iff] at ha ha'
  rcases hs.apart hk hk' hne with h1 | h1 <;> omega

theorem contains_false_of_none {s : Space} (hk : h.space? kind = some s) (ha : h.spaceOf? a = none) :
    s.contains a = false := by
  rw [Bool.eq_false_iff]
  intro hin
  rw [hs.spaceOf?_eq_some hk hin] at ha
  cases ha

-- Spaces are far from the end of memory.
theorem extent_lt {s : Space} (hk : h.space? kind = some s) {n : Nat}
    (hn : n + Mapping.systemLimit ≤ Word.bound) : n + s.extent < Word.bound :=
  (Nat.add_lt_add_left (hs.extents s (mem_spaces hk)) n).trans_le hn

theorem mature_extent_lt : blockBytes + h.mature.space.extent < Word.bound :=
  hs.extent_lt (show h.space? .mature = some _ from rfl) (by decide)

section Frame

variable {s : Space} (hk : h.space? kind = some s)
  (hm : ∀ a, s.contains a = false → m.read a = h.memory.read a)
include hk hm

-- What changes in one space only leaves the other spaces and the rooms in them as they are.
theorem word_of_other {kind' : SpaceKind} (hr : Room h l kind' o bytes) (hne : kind' ≠ kind) (a : Nat)
    (h1 : o ≤ a) (h2 : a < o + bytes) : m.read a = h.memory.read a := by
  obtain ⟨-, -, -, t, ht, hin⟩ := hs.room_mem hr
  exact hm a (hs.not_mem_other ht hk hne (hin a h1 h2).1)

theorem read_of_other {kind' : SpaceKind} {t : Space} (ht : h.space? kind' = some t)
    (hne : kind' ≠ kind) (ha : t.contains a = true) : m.read a = h.memory.read a :=
  hm a (hs.not_mem_other ht hk hne ha)

theorem nursery_of_other (hne : .nursery ≠ kind) (t : Space) (hn : h.nursery = some t) :
    Plots t m l.nursery.runs l.nursery.rooms l.nursery.bumps :=
  (hs.nursery t hn).congr fun _ ha _ => hs.read_of_other hk hm (show h.space? .nursery = some t from hn) hne ha

theorem mature_of_other (hne : .mature ≠ kind) : h.mature.Sound m :=
  hs.mature.setMemory (hs.mature.listed.congr fun _ ha _ =>
    hs.read_of_other hk hm (show h.space? .mature = some _ from rfl) hne ha)

theorem large_of_other (hne : .large ≠ kind) : h.large.Sound m l.unreached l.reached :=
  hs.large.congr fun _ ha _ =>
    hs.read_of_other hk hm (show h.space? .large = some _ from rfl) hne ha

theorem immortal_of_other (hne : .immortal ≠ kind) :
    Plots h.immortal.space m l.immortal.runs l.immortal.rooms l.immortal.bumps :=
  hs.immortal.congr fun _ ha _ =>
    hs.read_of_other hk hm (show h.space? .immortal = some _ from rfl) hne ha

end Frame

-- The bits of cells lie in their space.
theorem isMarked_of_other {s : Space} (hk : h.space? kind = some s) {m₀ : Memory}
    (hm : ∀ a, s.contains a = false → m.read a = m₀.read a) (hne : .mature ≠ kind)
    (ha : h.mature.contains a = true) : Block.isMarked m a = Block.isMarked m₀ a :=
  Block.isMarked_congr (hm _ (hs.not_mem_other (show h.space? .mature = some _ from rfl) hk hne
    (hs.mature.listed.contains_bitmapWord ha)))

theorem room_of_other {s : Space} (hk : h.space? kind = some s) {h' : Heap} {l' : Layout}
    (hm : ∀ a, s.contains a = false → h'.memory.read a = h.memory.read a)
    (hyoung : kind ≠ .nursery → l'.nursery.rooms = l.nursery.rooms)
    (hlisting : kind ≠ .mature → h'.mature.listing = h.mature.listing)
    (hchunks : kind ≠ .large → l'.chunks = l.chunks)
    (hplots : kind ≠ .immortal → l'.immortal.rooms = l.immortal.rooms)
    (kind' : SpaceKind) (o bytes : Nat) (hne : kind' ≠ kind) :
    Room h' l' kind' o bytes ↔ Room h l kind' o bytes := by
  cases kind' with
  | nursery => rw [room_nursery_iff, room_nursery_iff, hyoung hne.symm]
  | immortal => rw [room_immortal_iff, room_immortal_iff, hplots hne.symm]
  | mature =>
    simp only [room_mature_iff, hlisting hne.symm, hs.mature.listed.used_congr fun _ ha _ =>
      hs.read_of_other hk hm (show h.space? .mature = some _ from rfl) hne ha]
  | large =>
    rw [room_large_iff, room_large_iff, hchunks hne.symm]
    refine exists_congr fun c => and_congr_right fun hc => ?_
    rw [hs.read_of_other hk hm (show h.space? .large = some _ from rfl) hne
      (hs.large.contains_header hc (Nat.le_add_right _ _) (Nat.add_lt_add_left (by decide) _))]

-- The pool of cells changes.
theorem setMature {c : Cells} (hc : c.Sound m)
    (hmapping : c.space.mapping = h.mature.space.mapping)
    (hm : ∀ a, h.mature.contains a = false → m.read a = h.memory.read a) :
    Sound { h with mature := c, memory := m } l ∧
      ∀ kind o bytes, kind ≠ .mature →
        (Room { h with mature := c, memory := m } l kind o bytes ↔ Room h l kind o bytes) := by
  have hk : h.space? .mature = some h.mature.space := rfl
  have hmap : ({ h with mature := c, memory := m } : Heap).spaces.map (·.mapping) =
      h.spaces.map (·.mapping) := by
    simp only [spaces, List.map_append, List.map_cons, hmapping]
  exact ⟨{
    types := hs.types
    nursery := hs.nursery_of_other hk hm (by decide)
    nursery_none := hs.nursery_none
    mature := hc
    large := hs.large_of_other hk hm (by decide)
    immortal := hs.immortal_of_other hk hm (by decide)
    ordered := ordered_congr hmap hs.ordered
    extents := extents_congr hmap hs.extents },
    hs.room_of_other hk hm (fun _ => rfl) (absurd rfl) (fun _ => rfl) fun _ => rfl⟩

-- The space of large objects changes.
theorem setLarge {t : Treadmill} {unreached reached : List Nat} (ht : t.Sound m unreached reached)
    (hmapping : t.space.mapping = h.large.space.mapping)
    (hm : ∀ a, h.large.contains a = false → m.read a = h.memory.read a) :
    Sound { h with large := t, memory := m } { l with unreached, reached } ∧
      ∀ kind o bytes, kind ≠ .large →
        (Room { h with large := t, memory := m } { l with unreached, reached } kind o bytes ↔
          Room h l kind o bytes) := by
  have hk : h.space? .large = some h.large.space := rfl
  have hmap : ({ h with large := t, memory := m } : Heap).spaces.map (·.mapping) =
      h.spaces.map (·.mapping) := by
    simp only [spaces, List.map_append, List.map_cons, hmapping]
  exact ⟨{
    types := hs.types
    nursery := hs.nursery_of_other hk hm (by decide)
    nursery_none := hs.nursery_none
    mature := hs.mature_of_other hk hm (by decide)
    large := ht
    immortal := hs.immortal_of_other hk hm (by decide)
    ordered := ordered_congr hmap hs.ordered
    extents := extents_congr hmap hs.extents },
    hs.room_of_other hk hm (fun _ => rfl) (fun _ => rfl) (absurd rfl) fun _ => rfl⟩

-- The space of large objects changes, but for the chunks `kept`.
theorem keepLarge {t : Treadmill} {unreached reached kept : List Nat}
    (ht : t.Sound m unreached reached) (hmapping : t.space.mapping = h.large.space.mapping)
    (hkept : Treadmill.Kept h.large.space h.memory kept m) (hold : kept ⊆ l.chunks)
    (hnew : kept ⊆ unreached ++ reached) :
    Sound { h with large := t, memory := m } { l with unreached, reached } ∧
      (∀ kind o bytes, (kind = .large → ∃ c ∈ kept, Chunk.object c = o) →
        (Room { h with large := t, memory := m } { l with unreached, reached } kind o bytes ↔
          Room h l kind o bytes)) ∧
      ∀ kind o bytes, Room h l kind o bytes → (kind = .large → ∃ c ∈ kept, Chunk.object c = o) →
        ∀ a, o ≤ a → a < o + bytes → m.read a = h.memory.read a := by
  have hm : ∀ a, h.large.space.contains a = false → m.read a = h.memory.read a :=
    fun a ha => hkept.frame a (Or.inl ha)
  obtain ⟨hsound, hother⟩ := hs.setLarge ht hmapping hm
  refine ⟨hsound, fun kind o bytes hin => ?_, fun kind o bytes hr hin a h1 h2 => ?_⟩
  · by_cases hk : kind = .large
    · subst hk
      obtain ⟨c, hc, rfl⟩ := hin rfl
      rw [room_chunk_iff, room_chunk_iff, hkept.pages_eq c hc]
      exact and_congr_left fun _ => iff_of_true (hnew hc) (hold hc)
    · exact hother _ _ _ hk
  · by_cases hk : kind = .large
    · subst hk
      obtain ⟨c, hc, rfl⟩ := hin rfl
      obtain ⟨-, rfl⟩ := room_chunk_iff.mp hr
      have hlow := hs.large.page_le (hold hc)
      refine hkept.frame a (Or.inr ⟨c, hc, h1, ?_⟩)
      simp only [Chunk.object, Chunk.headerBytes, pageBytes] at h2 hlow ⊢
      omega
    · exact hs.word_of_other (show h.space? .large = some _ from rfl) hm hr hk a h1 h2

-- The space of immortal objects changes.
theorem setImmortal {s : Space} {p : Plotting} (hp : Plots s h.memory p.runs p.rooms p.bumps)
    (hmapping : s.mapping = h.immortal.space.mapping) (markState : Bool) :
    Sound { h with immortal := { space := s, markState } } { l with immortal := p } ∧
      ∀ kind o bytes, kind ≠ .immortal →
        (Room { h with immortal := { space := s, markState } } { l with immortal := p } kind o
          bytes ↔ Room h l kind o bytes) := by
  have hmap : ({ h with immortal := { space := s, markState } } : Heap).spaces.map (·.mapping) =
      h.spaces.map (·.mapping) := by
    simp only [spaces, List.map_append, List.map_cons, hmapping]
  exact ⟨{ hs with
    immortal := hp
    ordered := ordered_congr hmap hs.ordered
    extents := extents_congr hmap hs.extents },
    hs.room_of_other (show h.space? .immortal = some _ from rfl) (fun _ _ => rfl) (fun _ => rfl)
      (fun _ => rfl) (fun _ => rfl) (absurd rfl)⟩

end Sound

-- What allocators and lists look like has changed, but nothing in memory and no room.
structure Rearranged (h : Heap) (l : Layout) (h' : Heap) (l' : Layout) : Prop where
  sound : h'.Sound l'
  types_eq : h'.types = h.types
  memory_eq : h'.memory = h.memory
  nursery_eq : h'.nursery = h.nursery
  spaceOf?_eq : ∀ a, h'.spaceOf? a = h.spaceOf? a
  listing_eq : h'.mature.listing = h.mature.listing
  reached_eq : l'.reached = l.reached
  rooms_eq : l'.immortal.rooms = l.immortal.rooms
  room_iff : ∀ kind o bytes, Room h' l' kind o bytes ↔ Room h l kind o bytes

namespace Rearranged

variable {h₁ h₂ : Heap} {l₁ l₂ : Layout}

theorem refl (hs : h.Sound l) : Rearranged h l h l where
  sound := hs
  types_eq := rfl
  memory_eq := rfl
  nursery_eq := rfl
  spaceOf?_eq _ := rfl
  listing_eq := rfl
  reached_eq := rfl
  rooms_eq := rfl
  room_iff _ _ _ := Iff.rfl

theorem trans (hr : Rearranged h l h₁ l₁) (hr' : Rearranged h₁ l₁ h₂ l₂) :
    Rearranged h l h₂ l₂ where
  sound := hr'.sound
  types_eq := hr'.types_eq.trans hr.types_eq
  memory_eq := hr'.memory_eq.trans hr.memory_eq
  nursery_eq := hr'.nursery_eq.trans hr.nursery_eq
  spaceOf?_eq a := (hr'.spaceOf?_eq a).trans (hr.spaceOf?_eq a)
  listing_eq := hr'.listing_eq.trans hr.listing_eq
  reached_eq := hr'.reached_eq.trans hr.reached_eq
  rooms_eq := hr'.rooms_eq.trans hr.rooms_eq
  room_iff _ _ _ := (hr'.room_iff _ _ _).trans (hr.room_iff _ _ _)

variable (hr : Rearranged h l h₁ l₁)
include hr

theorem inCountedSpace_eq (a : Nat) : h₁.inCountedSpace a = h.inCountedSpace a :=
  inCountedSpace_congr hr.spaceOf?_eq a

theorem refs_eq (o : Nat) : h₁.refs o = h.refs o := by
  rw [refs, hr.types_eq, hr.memory_eq, refs]

theorem status_eq (o : Nat) : CountedHeap.status h₁ o = CountedHeap.status h o := by
  rw [Heap.status_eq, hr.memory_eq, Heap.status_eq]

theorem populated (hp : h.Populated l) : h₁.Populated l₁ where
  sound := hr.sound
  formed kind o bytes hroom := by
    rw [hr.types_eq, hr.memory_eq]
    exact hp.formed _ _ _ ((hr.room_iff _ _ _).mp hroom)

end Rearranged

namespace Sound

variable (hs : h.Sound l)
include hs

-- The shelves of the pool of cells change.
theorem rearrangeMature {c : Cells} (hc : c.Sound h.memory) (hspace : c.space = h.mature.space)
    (hlisting : c.listing = h.mature.listing) : Rearranged h l { h with mature := c } l := by
  exact {
    sound := (hs.setMature hc (congrArg _ hspace) fun _ _ => rfl).1
    types_eq := rfl
    memory_eq := rfl
    nursery_eq := rfl
    spaceOf?_eq := spaceOf?_congr rfl (congrArg _ hspace) rfl rfl
    listing_eq := hlisting
    reached_eq := rfl
    rooms_eq := rfl
    room_iff := room_congr rfl hlisting rfl rfl rfl }

-- The allocators of immortal objects change.
theorem rearrangeBumps {bumps : List Bump}
    (hp : Plots h.immortal.space h.memory l.immortal.runs l.immortal.rooms bumps) :
    Rearranged h l h { l with immortal := { l.immortal with bumps } } where
  sound := { hs with immortal := hp }
  types_eq := rfl
  memory_eq := rfl
  nursery_eq := rfl
  spaceOf?_eq _ := rfl
  listing_eq := rfl
  reached_eq := rfl
  rooms_eq := rfl
  room_iff := room_congr rfl rfl rfl rfl rfl

-- Every object counts as unmarked.
theorem rearrangeMarks : Rearranged h l
    { h with large := h.large.prepare, immortal := h.immortal.prepare } l where
  sound := { hs with large := { hs.large with }, ordered := hs.ordered, extents := hs.extents }
  types_eq := rfl
  memory_eq := rfl
  nursery_eq := rfl
  spaceOf?_eq _ := rfl
  listing_eq := rfl
  reached_eq := rfl
  rooms_eq := rfl
  room_iff := room_congr rfl rfl rfl rfl rfl

end Sound

end Heap

end Reclaim
