import Reclaim.Heap
import Reclaim.Proofs.Bump
import Reclaim.Proofs.Cells.Pass
import Reclaim.Proofs.Object
import Reclaim.Proofs.Treadmill

/-!
The rooms of a heap. Every object lies in a cell, in a chunk of its own or in a part of a run that a
bump allocator took, and no two of them share memory. A write inside a room disturbs nothing else.
-/
namespace Reclaim

open Sizes

-- How a space of bump allocators is used: the runs that were handed out, the rooms in them, and the
-- allocators that own the rest.
structure Plotting where
  runs : List Run := []
  rooms : List (Nat × Nat) := []
  bumps : List Bump := []

-- How the spaces are used, as far as the heap itself does not tell.
structure Layout where
  -- The chunks on the two lists of large objects.
  unreached : List Nat := []
  reached : List Nat := []
  nursery : Plotting := {}
  immortal : Plotting := {}

def Layout.chunks (l : Layout) : List Nat := l.unreached ++ l.reached

namespace Heap

variable {h : Heap} {l : Layout} {m : Memory} {kind kind' : SpaceKind} {o o' bytes bytes' a : Nat}

def space? (h : Heap) : SpaceKind → Option Space
  | .nursery => h.nursery
  | .mature => some h.mature.space
  | .large => some h.large.space
  | .immortal => some h.immortal.space

-- So many bytes from `o` on hold an object, status word first.
inductive Room (h : Heap) (l : Layout) : SpaceKind → Nat → Nat → Prop
  | young {o bytes : Nat} : (o, bytes) ∈ l.nursery.rooms → Room h l .nursery o bytes
  | cell {size o : Nat} : Cells.Used h.memory h.mature.listing size o →
    Room h l .mature o (SizeClass.bytes size)
  | chunk {chunk : Nat} : chunk ∈ l.chunks →
    Room h l .large (Chunk.object chunk)
      (pageBytes * h.memory.read (chunk + 16) - Chunk.headerBytes)
  | plot {o bytes : Nat} : (o, bytes) ∈ l.immortal.rooms → Room h l .immortal o bytes

theorem room_nursery_iff : Room h l .nursery o bytes ↔ (o, bytes) ∈ l.nursery.rooms :=
  ⟨fun hr => by cases hr with | young hr => exact hr, .young⟩

theorem room_immortal_iff : Room h l .immortal o bytes ↔ (o, bytes) ∈ l.immortal.rooms :=
  ⟨fun hr => by cases hr with | plot hr => exact hr, .plot⟩

theorem room_mature_iff : Room h l .mature o bytes ↔
    ∃ size, Cells.Used h.memory h.mature.listing size o ∧ SizeClass.bytes size = bytes := by
  constructor
  · intro hr
    cases hr with
    | cell hu => exact ⟨_, hu, rfl⟩
  · rintro ⟨size, hu, rfl⟩
    exact .cell hu

theorem room_large_iff : Room h l .large o bytes ↔ ∃ c ∈ l.chunks, Chunk.object c = o ∧
    pageBytes * h.memory.read (c + 16) - Chunk.headerBytes = bytes := by
  constructor
  · intro hr
    cases hr with
    | chunk hc => exact ⟨_, hc, rfl, rfl⟩
  · rintro ⟨c, hc, rfl, rfl⟩
    exact .chunk hc

theorem room_chunk_iff {c : Nat} : Room h l .large (Chunk.object c) bytes ↔
    c ∈ l.chunks ∧ pageBytes * h.memory.read (c + 16) - Chunk.headerBytes = bytes := by
  rw [room_large_iff]
  constructor
  · rintro ⟨c', hc, ho, hb⟩
    obtain rfl : c' = c := Nat.add_right_cancel ho
    exact ⟨hc, hb⟩
  · exact fun ⟨hc, hb⟩ => ⟨c, hc, rfl, hb⟩

theorem Room.exists_chunk (hr : Room h l .large o bytes) : ∃ c ∈ l.chunks, Chunk.object c = o :=
  let ⟨c, hc, ho, _⟩ := room_large_iff.mp hr
  ⟨c, hc, ho⟩

-- What allocators and lists look like decides nothing about the rooms.
theorem room_congr {h' : Heap} {l' : Layout} (hm : h'.memory = h.memory)
    (hlisting : h'.mature.listing = h.mature.listing) (hchunks : l'.chunks = l.chunks)
    (hyoung : l'.nursery.rooms = l.nursery.rooms) (hplots : l'.immortal.rooms = l.immortal.rooms)
    (kind : SpaceKind) (o bytes : Nat) : Room h' l' kind o bytes ↔ Room h l kind o bytes := by
  cases kind with
  | nursery => rw [room_nursery_iff, room_nursery_iff, hyoung]
  | mature => rw [room_mature_iff, room_mature_iff, hm, hlisting]
  | large => rw [room_large_iff, room_large_iff, hm, hchunks]
  | immortal => rw [room_immortal_iff, room_immortal_iff, hplots]

-- Memory of a space that is not the space's own.
def Inside (h : Heap) (l : Layout) (a : Nat) : SpaceKind → Prop
  | .nursery => ∃ room ∈ l.nursery.rooms, InRoom room a
  | .mature => Cells.Inside h.mature.listing a
  | .large => Treadmill.Inside h.memory l.chunks a
  | .immortal => ∃ room ∈ l.immortal.rooms, InRoom room a

structure Sound (h : Heap) (l : Layout) : Prop where
  types : h.types.Sound
  nursery : ∀ s, h.nursery = some s →
    Plots s h.memory l.nursery.runs l.nursery.rooms l.nursery.bumps
  nursery_none : h.nursery = none → l.nursery.rooms = []
  mature : h.mature.Sound h.memory
  large : h.large.Sound h.memory l.unreached l.reached
  immortal : Plots h.immortal.space h.memory l.immortal.runs l.immortal.rooms l.immortal.bumps
  ordered : h.spaces.Pairwise fun s t => s.stop ≤ t.start
  extents : ∀ s ∈ h.spaces, s.extent < Mapping.systemLimit

theorem mem_spaces {s : Space} (hs : h.space? kind = some s) : s ∈ h.spaces := by
  cases kind <;> simp_all [space?, spaces]

namespace Sound

variable (hs : h.Sound l)
include hs

theorem apart {s t : Space} (hk : h.space? kind = some s) (ht : h.space? kind' = some t)
    (hne : kind ≠ kind') : s.stop ≤ t.start ∨ t.stop ≤ s.start := by
  have hord := hs.ordered
  cases hn : h.nursery <;>
    simp only [spaces, hn, Option.toList_none, Option.toList_some, List.nil_append,
      List.singleton_append, List.pairwise_cons, List.mem_cons, List.not_mem_nil, or_false,
      forall_eq_or_imp, forall_eq] at hord <;>
    cases kind <;> cases kind' <;> simp_all [space?]

-- The space of an address is the one that contains it.
theorem spaceOf?_eq_some {s : Space} (hk : h.space? kind = some s) (ha : s.contains a = true) :
    h.spaceOf? a = some kind := by
  have hother : ∀ kind' t, h.space? kind' = some t → t.contains a = true → kind' = kind := by
    intro kind' t ht hta
    by_contra hne
    rw [Space.contains_iff] at ha hta
    rcases hs.apart ht hk hne with h1 | h1 <;> omega
  unfold spaceOf? inNursery Cells.contains Treadmill.contains Immortal.contains
  split
  · rename_i hn
    obtain ⟨t, ht, hta⟩ := Option.any_eq_true _ _ |>.mp hn
    rw [hother .nursery t ht hta]
  split
  · rename_i hn
    rw [hother .mature _ rfl hn]
  split
  · rename_i hn
    rw [hother .large _ rfl hn]
  split
  · rename_i hn
    rw [hother .immortal _ rfl hn]
  · cases kind <;> simp_all [space?]

end Sound

theorem contains_of_spaceOf? (ha : h.spaceOf? a = some kind) :
    ∃ s, h.space? kind = some s ∧ s.contains a = true := by
  unfold spaceOf? inNursery Cells.contains Treadmill.contains Immortal.contains at ha
  split at ha
  · rename_i hn
    cases ha
    simpa [Option.any_eq_true, space?] using hn
  split at ha
  · cases ha
    exact ⟨_, rfl, ‹_›⟩
  split at ha
  · cases ha
    exact ⟨_, rfl, ‹_›⟩
  split at ha
  · cases ha
    exact ⟨_, rfl, ‹_›⟩
  · cases ha

-- A room lies in the space of its kind as a whole.
theorem Sound.room_mem (hs : h.Sound l) (hr : Room h l kind o bytes) :
    o % wordBytes = 0 ∧ bytes % wordBytes = 0 ∧ 0 < bytes ∧ ∃ s, h.space? kind = some s ∧
      ∀ a, o ≤ a → a < o + bytes → s.contains a = true ∧ Inside h l a kind := by
  cases hr with
  | young hr =>
    cases hn : h.nursery with
    | none =>
      rw [hs.nursery_none hn] at hr
      exact absurd hr List.not_mem_nil
    | some s =>
      obtain ⟨h1, h2, h3⟩ := (hs.nursery s hn).aligned _ hr
      exact ⟨h1, h2, h3, s, hn, fun a ha1 ha2 =>
        ⟨((hs.nursery s hn).room_in _ hr a ⟨ha1, ha2⟩).1, _, hr, ha1, ha2⟩⟩
  | cell hr =>
    obtain ⟨hsize, hmod, hin⟩ := hs.mature.listed.used_mem hr
    obtain ⟨h1, h2, -⟩ := SizeClass.bytes_mem hsize
    exact ⟨hmod, h1, by omega, _, rfl, fun a ha1 ha2 =>
      ⟨hs.mature.listed.contains_of_inside (hin a ha1 ha2), hin a ha1 ha2⟩⟩
  | @chunk chunk hr =>
    have hpos := hs.large.pages_pos hr
    have hmod := hs.large.aligned _ hr
    simp only [Chunk.object, Chunk.headerBytes, pageBytes, wordBytes] at hmod ⊢
    refine ⟨by omega, by omega, by omega, _, rfl, fun a ha1 ha2 => ⟨?_, chunk, hr, ?_, ?_⟩⟩
    · exact hs.large.contains_of_mem hr (by omega) (by simp only [pageBytes]; omega)
    · simp only [Chunk.headerBytes]
      omega
    · simp only [pageBytes]
      omega
  | plot hr =>
    obtain ⟨h1, h2, h3⟩ := hs.immortal.aligned _ hr
    exact ⟨h1, h2, h3, _, rfl, fun a ha1 ha2 =>
      ⟨(hs.immortal.room_in _ hr a ⟨ha1, ha2⟩).1, _, hr, ha1, ha2⟩⟩

theorem Sound.spaceOf?_room (hs : h.Sound l) (hr : Room h l kind o bytes) (h1 : o ≤ a)
    (h2 : a < o + bytes) : h.spaceOf? a = some kind := by
  obtain ⟨-, -, -, s, hk, hin⟩ := hs.room_mem hr
  exact hs.spaceOf?_eq_some hk (hin a h1 h2).1

theorem Sound.spaceOf?_start (hs : h.Sound l) (hr : Room h l kind o bytes) : h.spaceOf? o = some kind :=
  hs.spaceOf?_room hr (le_refl _) (Nat.lt_add_of_pos_right (hs.room_mem hr).2.2.1)

theorem Sound.inside_room (hs : h.Sound l) (hr : Room h l kind o bytes) (h1 : o ≤ a)
    (h2 : a < o + bytes) (hk : h.spaceOf? a = some kind') : Inside h l a kind' := by
  obtain ⟨-, -, -, _, _, hin⟩ := hs.room_mem hr
  rw [hs.spaceOf?_room hr h1 h2] at hk
  cases hk
  exact (hin a h1 h2).2

theorem Sound.contains_start {s : Space} (hs : h.Sound l) (hk : h.space? kind = some s)
    (hr : Room h l kind o bytes) : s.contains o = true := by
  obtain ⟨-, -, hpos, t, ht, hin⟩ := hs.room_mem hr
  cases hk.symm.trans ht
  exact (hin o (le_refl _) (by omega)).1

theorem Sound.inside_start (hs : h.Sound l) (hr : Room h l kind o bytes)
    (hk : h.spaceOf? o = some kind') : Inside h l o kind' :=
  hs.inside_room hr (le_refl _) (Nat.lt_add_of_pos_right (hs.room_mem hr).2.2.1) hk

theorem plots_apart {s : Space} {out : List Run} {rooms : List (Nat × Nat)} {bumps : List Bump}
    (hp : Plots s m out rooms bumps) (hr : (o, bytes) ∈ rooms) (hr' : (o', bytes') ∈ rooms) :
    (o = o' ∧ bytes = bytes') ∨ o + bytes ≤ o' ∨ o' + bytes' ≤ o := by
  by_cases heq : (o, bytes) = (o', bytes')
  · exact Or.inl (Prod.mk.inj heq)
  · have : Std.Symm fun p q : Nat × Nat => p.1 + p.2 ≤ q.1 ∨ q.1 + q.2 ≤ p.1 :=
      ⟨fun _ _ hpq => hpq.symm⟩
    exact Or.inr (hp.rooms_apart.forall hr hr' heq)

-- Rooms share no memory.
theorem Sound.room_apart (hs : h.Sound l) (hr : Room h l kind o bytes)
    (hr' : Room h l kind' o' bytes') :
    (kind = kind' ∧ o = o' ∧ bytes = bytes') ∨ o + bytes ≤ o' ∨ o' + bytes' ≤ o := by
  by_cases hkind : kind = kind'
  · subst hkind
    cases hr with
    | young hr =>
      cases hr' with
      | young hr' =>
        cases hn : h.nursery with
        | none =>
          rw [hs.nursery_none hn] at hr
          exact absurd hr List.not_mem_nil
        | some s => simpa only [true_and] using plots_apart (hs.nursery s hn) hr hr'
    | cell hr =>
      cases hr' with
      | cell hr' =>
        by_cases ho : o = o'
        · subst ho
          rw [hs.mature.listed.used_size hr hr']
          exact Or.inl ⟨rfl, rfl, rfl⟩
        · exact Or.inr (hs.mature.listed.used_disjoint hr hr' ho)
    | @chunk chunk hr =>
      cases hr' with
      | @chunk chunk' hr' =>
        by_cases ho : chunk = chunk'
        · subst ho
          exact Or.inl ⟨rfl, rfl, rfl⟩
        · have h1 := hs.large.disjoint hr hr' ho
          have h2 := hs.large.page_le hr
          have h3 := hs.large.page_le hr'
          simp only [Chunk.object, Chunk.headerBytes, pageBytes] at h1 h2 h3 ⊢
          omega
    | plot hr =>
      cases hr' with
      | plot hr' => simpa only [true_and] using plots_apart hs.immortal hr hr'
  · obtain ⟨-, -, hpos, s, hk, hin⟩ := hs.room_mem hr
    obtain ⟨-, -, hpos', t, hk', hin'⟩ := hs.room_mem hr'
    have h1 := (Space.contains_iff _ _).mp (hin o (le_refl _) (by omega)).1
    have h2 := (Space.contains_iff _ _).mp (hin (o + bytes - 1) (by omega) (by omega)).1
    have h3 := (Space.contains_iff _ _).mp (hin' o' (le_refl _) (by omega)).1
    have h4 := (Space.contains_iff _ _).mp (hin' (o' + bytes' - 1) (by omega) (by omega)).1
    rcases hs.apart hk hk' hkind with h5 | h5 <;> omega

theorem Sound.room_unique (hs : h.Sound l) (hr : Room h l kind o bytes)
    (hr' : Room h l kind' o bytes') : kind = kind' ∧ bytes = bytes' := by
  obtain ⟨-, -, hpos, -⟩ := hs.room_mem hr
  obtain ⟨-, -, hpos', -⟩ := hs.room_mem hr'
  rcases hs.room_apart hr hr' with ⟨h1, -, h2⟩ | h1 | h1
  · exact ⟨h1, h2⟩
  · omega
  · omega

theorem Sound.stop_lt {s : Space} (hs : h.Sound l) (hk : h.space? kind = some s) :
    s.stop < Word.bound := by
  cases kind with
  | nursery => exact (hs.nursery s hk).space.stop_lt
  | mature =>
    cases hk
    exact hs.mature.listed.space.stop_lt
  | large =>
    cases hk
    exact hs.large.space.stop_lt
  | immortal =>
    cases hk
    exact hs.immortal.space.stop_lt

theorem Sound.start_pos {s : Space} (hs : h.Sound l) (hk : h.space? kind = some s) :
    0 < s.start := by
  cases kind with
  | nursery => exact (hs.nursery s hk).space.start_pos
  | mature =>
    cases hk
    exact hs.mature.listed.space.start_pos
  | large =>
    cases hk
    exact hs.large.space.start_pos
  | immortal =>
    cases hk
    exact hs.immortal.space.start_pos

theorem Sound.room_bound (hs : h.Sound l) (hr : Room h l kind o bytes) :
    0 < o ∧ o + bytes < Word.bound := by
  obtain ⟨-, -, hpos, s, hk, hin⟩ := hs.room_mem hr
  have h1 := (Space.contains_iff _ _).mp (hin o (le_refl _) (by omega)).1
  have h2 := (Space.contains_iff _ _).mp (hin (o + bytes - 1) (by omega) (by omega)).1
  have h3 := hs.stop_lt hk
  have h4 := hs.start_pos hk
  omega

-- What is written in rooms, or outside of all spaces, is no concern of the spaces.
theorem Sound.setMemory (hs : h.Sound l)
    (hm : ∀ a kind, h.spaceOf? a = some kind → ¬Inside h l a kind →
      m.read a = h.memory.read a) :
    Sound { h with memory := m } l ∧
      ∀ kind o bytes, Room { h with memory := m } l kind o bytes ↔ Room h l kind o bytes := by
  have hsame : ∀ kind s, h.space? kind = some s → ∀ a, s.contains a = true →
      ¬Inside h l a kind → m.read a = h.memory.read a := fun kind s hk a ha hin =>
    hm a kind (hs.spaceOf?_eq_some hk ha) hin
  have hcells := hsame .mature _ rfl
  have hchunks := hsame .large _ rfl
  refine ⟨{ hs with
    nursery := fun s hn => (hs.nursery s hn).congr fun a ha hin =>
      hsame .nursery s hn a ha fun ⟨room, hr, hin'⟩ => hin room hr hin'
    mature := hs.mature.setMemory (hs.mature.listed.congr hcells)
    large := hs.large.congr hchunks
    immortal := hs.immortal.congr fun a ha hin =>
      hsame .immortal _ rfl a ha fun ⟨room, hr, hin'⟩ => hin room hr hin' }, ?_⟩
  have hpages : ∀ chunk ∈ l.chunks, m.read (chunk + 16) = h.memory.read (chunk + 16) := by
    intro chunk hc
    have hle := hs.large.page_le hc
    have hlt : chunk + 16 < chunk + Chunk.headerBytes := by simp only [Chunk.headerBytes]; omega
    simp only [pageBytes] at hle
    exact hchunks _ (hs.large.contains_of_mem hc (by omega) (by simp only [pageBytes]; omega))
      (hs.large.not_inside_header hc (by omega) hlt)
  intro kind o bytes
  constructor
  · intro hr
    cases hr with
    | young hr => exact .young hr
    | cell hr => exact .cell ((hs.mature.listed.used_congr hcells _ _).mp hr)
    | chunk hr =>
      simp only [hpages _ hr]
      exact .chunk hr
    | plot hr => exact .plot hr
  · intro hr
    cases hr with
    | young hr => exact .young hr
    | cell hr => exact .cell ((hs.mature.listed.used_congr hcells _ _).mpr hr)
    | chunk hr =>
      rw [← hpages _ hr]
      exact .chunk hr
    | plot hr => exact .plot hr

-- One word of a room is written.
theorem Sound.write (hs : h.Sound l) (hr : Room h l kind o bytes) (h1 : o ≤ a)
    (h2 : a < o + bytes) (v : Nat) :
    Sound { h with memory := h.memory.write a v } l ∧
      ∀ kind o bytes, Room { h with memory := h.memory.write a v } l kind o bytes ↔
        Room h l kind o bytes := by
  refine hs.setMemory fun b kind' hb hin => Memory.read_write_of_ne (fun hba => ?_) v
  subst hba
  obtain ⟨-, -, -, s, hk, hmem⟩ := hs.room_mem hr
  rw [hs.spaceOf?_room hr h1 h2] at hb
  cases hb
  exact hin (hmem _ h1 h2).2

-- Words outside of all spaces are written.
theorem Sound.setOutside (hs : h.Sound l)
    (hm : ∀ a kind, h.spaceOf? a = some kind → m.read a = h.memory.read a) :
    Sound { h with memory := m } l ∧
      ∀ kind o bytes, Room { h with memory := m } l kind o bytes ↔ Room h l kind o bytes :=
  hs.setMemory fun a kind ha _ => hm a kind ha

end Heap

end Reclaim
