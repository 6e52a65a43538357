import Reclaim.Proofs.Heap.Extension
import Reclaim.Proofs.Heap.Living
import Reclaim.Proofs.Treadmill.Turning

/-!
The space of new objects, and what a collection leaves of a heap. The space of new objects is emptied as
a whole; of the cells those stay that are marked, and of the large objects those that were reached.
-/
namespace Reclaim.Heap

open Sizes

variable {h : Heap} {l : Layout} {kind : SpaceKind} {o bytes a : Nat} {m : Memory}

namespace Sound

variable (hs : h.Sound l)
include hs

-- The space of new objects changes.
theorem setNursery {s s' : Space} {p : Plotting} (hn : h.nursery = some s)
    (hp : Plots s' m p.runs p.rooms p.bumps) (hmapping : s'.mapping = s.mapping)
    (hm : ∀ a, s.contains a = false → m.read a = h.memory.read a) :
    Sound { h with nursery := some s', memory := m } { l with nursery := p } ∧
      ∀ kind o bytes, kind ≠ .nursery →
        (Room { h with nursery := some s', memory := m } { l with nursery := p } kind o bytes ↔
          Room h l kind o bytes) := by
  have hk : h.space? .nursery = some s := hn
  have hmap : ({ h with nursery := some s', memory := m } : Heap).spaces.map (·.mapping) =
      h.spaces.map (·.mapping) := by
    simp only [spaces, List.map_append, List.map_cons, hn, Option.toList_some, hmapping]
  exact ⟨{
    types := hs.types
    nursery := fun t ht => by
      cases ht
      exact hp
    nursery_none := fun hnone => absurd hnone (Option.some_ne_none s')
    mature := hs.mature_of_other hk hm (by decide)
    large := hs.large_of_other hk hm (by decide)
    immortal := hs.immortal_of_other hk hm (by decide)
    ordered := ordered_congr hmap hs.ordered
    extents := extents_congr hmap hs.extents },
    hs.room_of_other hk hm (absurd rfl) (fun _ => rfl) (fun _ => rfl) fun _ => rfl⟩

-- A new object is put where a bump allocator of the space points to.
theorem allocYoung {b b' : Bump} {rest : List Bump} {s s' : Space} (hn : h.nursery = some s)
    (hb : l.nursery.bumps.Perm (b :: rest)) (hpos : 0 < bytes) (hmod : bytes % wordBytes = 0)
    (hbytes : bytes < Mapping.systemLimit)
    (halloc : b.alloc s bytes wordBytes = .ok (o, b', s')) :
    ∃ runs, Extended h l .nursery o bytes { h with nursery := some s' }
      { l with nursery := { runs, rooms := (o, bytes) :: l.nursery.rooms, bumps := b' :: rest } } ∧
      Blank h.memory o bytes := by
  have hk : h.space? .nursery = some s := hn
  obtain ⟨runs, hplots, hmapping, hblank⟩ := ((hs.nursery s hn).perm hb).alloc hpos hmod
    (hs.extent_lt hk (Mapping.room_le hbytes)) halloc
  obtain ⟨hsound, hother⟩ := hs.setNursery (m := h.memory)
    (p := { runs, rooms := (o, bytes) :: l.nursery.rooms, bumps := b' :: rest }) hn hplots hmapping
    fun _ _ => rfl
  have hspace : ∀ a, spaceOf? { h with nursery := some s' } a = h.spaceOf? a :=
    spaceOf?_congr (by simp only [hn, Option.map_some, hmapping]) rfl rfl rfl
  have hsame : ∀ y b, Room { h with nursery := some s' }
      { l with nursery := { runs, rooms := (o, bytes) :: l.nursery.rooms, bumps := b' :: rest } }
      .nursery y b ↔ Room h l .nursery y b ∨ y = o ∧ b = bytes := fun y b => by
    rw [room_nursery_iff, room_nursery_iff, List.mem_cons, Prod.mk.injEq, or_comm]
  refine ⟨runs, {
    sound := hsound
    types_eq := rfl
    spaceOf?_eq := hspace
    nursery_none := fun hnone => nomatch hn.symm.trans hnone
    large_mark := rfl
    immortal_mark := rfl
    reached_eq := rfl
    listing_subset := List.Subset.refl _
    room_iff := room_iff_of_one_more hother hsame
    fresh := hs.fresh_of_one_more hsound hspace (.young List.mem_cons_self) fun b hr =>
      hplots.not_mem_of_cons (room_nursery_iff.mp hr)
    kept := fun _ _ _ _ _ _ _ => rfl
    outside := fun _ _ => rfl }, fun a ha h1 h2 => hblank a ha ⟨h1, h2⟩⟩

end Sound

-- Of the rooms of `h` those are left that `keep` tells, with what is in them.
structure Left (h : Heap) (l : Layout) (keep : SpaceKind → Nat → Prop) (h' : Heap) (l' : Layout) :
    Prop where
  sound : h'.Sound l'
  types_eq : h'.types = h.types
  spaceOf?_eq : ∀ a, h'.spaceOf? a = h.spaceOf? a
  large_mark : h'.large.markState = h.large.markState
  immortal_eq : h'.immortal = h.immortal
  plots_eq : l'.immortal = l.immortal
  room_iff : ∀ kind o bytes, Room h' l' kind o bytes ↔ Room h l kind o bytes ∧ keep kind o
  word : ∀ kind o bytes, Room h' l' kind o bytes → ∀ a, o ≤ a → a < o + bytes →
    h'.memory.read a = h.memory.read a
  outside : ∀ a, h.spaceOf? a = none → h'.memory.read a = h.memory.read a

namespace Left

variable {h₁ h₂ : Heap} {l₁ l₂ : Layout} {keep keep' : SpaceKind → Nat → Prop}

theorem trans (hl : Left h l keep h₁ l₁) (hl' : Left h₁ l₁ keep' h₂ l₂)
    (keep'' : SpaceKind → Nat → Prop) (hkeep : ∀ kind o bytes, Room h l kind o bytes →
      (keep'' kind o ↔ keep kind o ∧ keep' kind o)) : Left h l keep'' h₂ l₂ where
  sound := hl'.sound
  types_eq := hl'.types_eq.trans hl.types_eq
  spaceOf?_eq a := (hl'.spaceOf?_eq a).trans (hl.spaceOf?_eq a)
  large_mark := hl'.large_mark.trans hl.large_mark
  immortal_eq := hl'.immortal_eq.trans hl.immortal_eq
  plots_eq := hl'.plots_eq.trans hl.plots_eq
  room_iff kind o bytes := by
    rw [hl'.room_iff, hl.room_iff, and_assoc]
    exact and_congr_right fun hr => (hkeep _ _ _ hr).symm
  word kind o bytes hr a h1 h2 :=
    (hl'.word _ _ _ hr a h1 h2).trans (hl.word _ _ _ ((hl'.room_iff _ _ _).mp hr).1 a h1 h2)
  outside a ha := (hl'.outside a ((hl.spaceOf?_eq a).trans ha)).trans (hl.outside a ha)

end Left

namespace Sound

variable (hs : h.Sound l)
include hs

-- The space of new objects is emptied. No allocator has room left in it.
theorem releaseNursery {s : Space} (hn : h.nursery = some s)
    (hbumps : ∀ b ∈ l.nursery.bumps, b = .fresh) :
    ∃ s' m', s.releaseAll h.memory = .ok (s', m') ∧ s'.used = 0 ∧ s'.name = s.name ∧
      Left h l (fun kind _ => kind ≠ .nursery) { h with nursery := some s', memory := m' }
        { l with nursery := { bumps := l.nursery.bumps } } ∧
      ∀ a, s.contains a = false → m'.read a = h.memory.read a := by
  have hplots := hs.nursery s hn
  obtain ⟨s', m', hrun, hspace, hmapping, hunit, hname, -, -, hzero, hframe⟩ :=
    hplots.space.releaseAll
  have hused : s'.used = 0 := by
    have := hspace.used_eq
    simpa using this
  have hnone : ∀ b ∈ l.nursery.bumps, ∀ a, ¬b.Owns a := fun b hb a => by
    rw [hbumps b hb]
    exact Bump.not_owns_fresh a
  have hp : Plots s' m' [] [] l.nursery.bumps := {
    space := hspace
    unit_eq := hunit.trans hplots.unit_eq
    aligned := nofun
    room_in := nofun
    rooms_apart := .nil
    owned_in := fun b hb a ha => absurd ha (hnone b hb a)
    owned_blank := fun b hb a ha => absurd ha (hnone b hb a)
    owned_apart := nofun
    bumps_apart := hplots.bumps_apart }
  have hk : h.space? .nursery = some s := hn
  obtain ⟨hsound, hother⟩ := hs.setNursery (p := { bumps := l.nursery.bumps }) hn hp hmapping hframe
  have hiff : ∀ kind o bytes, Room { h with nursery := some s', memory := m' }
      { l with nursery := { bumps := l.nursery.bumps } } kind o bytes ↔
        Room h l kind o bytes ∧ kind ≠ .nursery := by
    intro kind o bytes
    by_cases hk : kind = .nursery
    · subst hk
      rw [room_nursery_iff]
      exact iff_of_false List.not_mem_nil fun hr => hr.2 rfl
    · rw [hother _ _ _ hk, and_iff_left hk]
  exact ⟨s', m', hrun, hused, hname, {
    sound := hsound
    types_eq := rfl
    spaceOf?_eq := spaceOf?_congr (by simp only [hn, Option.map_some, hmapping]) rfl rfl rfl
    large_mark := rfl
    immortal_eq := rfl
    plots_eq := rfl
    room_iff := hiff
    word := fun kind o bytes hr =>
      hs.word_of_other hk hframe ((hiff _ _ _).mp hr).1 ((hiff _ _ _).mp hr).2
    outside := fun a ha => hframe a (hs.contains_false_of_none hk ha) }, hframe⟩

-- Cells that are not marked are given back, and all marks are cleared.
theorem sweep : ∃ stats c m', h.mature.sweep h.memory = .ok (stats, c, m') ∧
    Left h l (fun kind o => kind = .mature → Block.isMarked h.memory o = true)
      { h with mature := c, memory := m' } l ∧
    (∀ a, h.mature.contains a = true → Block.isMarked m' a = false) ∧
    (∀ a, h.mature.contains a = false → m'.read a = h.memory.read a) ∧
    stats.freed + liveCount { h with mature := c, memory := m' } = h.liveCount := by
  obtain ⟨stats, c, m', hrun, hpassed, hcount⟩ := hs.mature.pass Cells.settles_sweep
  have hframe : ∀ a, h.mature.contains a = false → m'.read a = h.memory.read a := fun a ha =>
    hpassed.frame a (Or.inl ha)
  obtain ⟨hsound, hother⟩ := hs.setMature hpassed.sound hpassed.mapping_eq hframe
  have hiff : ∀ size o, Cells.Used m' c.listing size o ↔
      Cells.Used h.memory h.mature.listing size o ∧ Block.isMarked h.memory o = true := by
    intro size o
    rw [hpassed.used_iff, Block.survives_sweep]
    refine and_congr_right fun hu => ?_
    rw [hu.choose_spec.2.2, Bool.true_and]
  have hmature : h.space? .mature = some h.mature.space := rfl
  refine ⟨stats, c, m', hrun, {
    sound := hsound
    types_eq := rfl
    spaceOf?_eq := spaceOf?_congr rfl hpassed.mapping_eq rfl rfl
    large_mark := rfl
    immortal_eq := rfl
    plots_eq := rfl
    room_iff := fun kind o bytes => ?room
    word := fun kind o bytes hr a h1 h2 => ?word
    outside := fun a ha => hframe a (hs.contains_false_of_none hmature ha) },
    hpassed.unmarked, hframe, by rw [liveCount, liveCount, ← hcount, Nat.add_assoc]⟩
  case room =>
    by_cases hk : kind = .mature
    · subst hk
      simp only [room_mature_iff, hiff, forall_const, ← exists_and_right]
      exact exists_congr fun _ => and_right_comm
    · rw [hother _ _ _ hk, and_iff_left fun h1 => absurd h1 hk]
  case word =>
    by_cases hk : kind = .mature
    · subst hk
      obtain ⟨size, hu, rfl⟩ := room_mature_iff.mp hr
      obtain ⟨hu', hmark⟩ := (hiff _ _).mp hu
      refine hpassed.frame a (Or.inr ⟨size, o, hu', ?_, h1, h2⟩)
      rw [Block.survives_sweep, hu'.choose_spec.2.2, hmark]
      rfl
    · exact hs.word_of_other hmature hframe ((hother _ _ _ hk).mp hr) hk a h1 h2

-- Large objects that were not reached are given back.
theorem releaseLarge : ∃ t m', h.large.release h.memory = .ok (l.unreached.length, t, m') ∧
    Left h l (fun kind o => kind = .large → ∃ chunk ∈ l.reached, Chunk.object chunk = o)
      { h with large := t, memory := m' } { l with unreached := l.reached, reached := [] } ∧
    (∀ a, h.large.contains a = false → m'.read a = h.memory.read a) ∧
    l.unreached.length + liveCount { h with large := t, memory := m' } = h.liveCount := by
  obtain ⟨t, m', hrun, ht, hmapping, hstate, hkept⟩ := hs.large.release
  have hframe : ∀ a, h.large.contains a = false → m'.read a = h.memory.read a := fun a ha =>
    hkept.frame a (Or.inl ha)
  obtain ⟨hsound, hrooms, hwords⟩ := hs.keepLarge ht hmapping hkept
    (List.subset_append_right _ _) (List.subset_append_left _ _)
  -- A large object that is left has been reached.
  have hleft : ∀ {kind o bytes}, Room { h with large := t, memory := m' }
      { l with unreached := l.reached, reached := [] } kind o bytes →
        kind = .large → ∃ chunk ∈ l.reached, Chunk.object chunk = o := by
    rintro kind o bytes hr rfl
    simpa only [Layout.chunks, List.append_nil] using hr.exists_chunk
  refine ⟨t, m', hrun, {
    sound := hsound
    types_eq := rfl
    spaceOf?_eq := spaceOf?_congr rfl rfl hmapping rfl
    large_mark := hstate
    immortal_eq := rfl
    plots_eq := rfl
    room_iff := fun kind o bytes =>
      ⟨fun hr => ⟨(hrooms _ _ _ (hleft hr)).mp hr, hleft hr⟩, fun hr => (hrooms _ _ _ hr.2).mpr hr.1⟩
    word := fun kind o bytes hr => hwords _ _ _ ((hrooms _ _ _ (hleft hr)).mp hr) (hleft hr)
    outside := fun a ha =>
      hframe a (hs.contains_false_of_none (show h.space? .large = some _ from rfl) ha) }, hframe, ?_⟩
  have hcells : cells { h with large := t, memory := m' } = h.cells := Set.ext fun o => by
    rw [mem_cells, mem_cells]
    exact exists_congr fun bytes => hrooms .mature o bytes fun hk => absurd hk (by decide)
  simp only [hsound.liveCount_eq_add, hs.liveCount_eq_add, hcells, Layout.chunks,
    List.length_append, List.length_nil]
  omega

-- All spaces but the immortal one give back what nobody needs any more.
theorem release {s : Space} (hn : h.nursery = some s) (hbumps : ∀ b ∈ l.nursery.bumps, b = .fresh) :
    ∃ s' m₁ stats c m₂ t m₃, s.releaseAll h.memory = .ok (s', m₁) ∧ s'.used = 0 ∧
      h.mature.sweep m₁ = .ok (stats, c, m₂) ∧ h.large.release m₂ = .ok (l.unreached.length, t, m₃) ∧
      Left h l (fun kind o => kind ≠ .nursery ∧
          (kind = .mature → Block.isMarked h.memory o = true) ∧
          (kind = .large → ∃ chunk ∈ l.reached, Chunk.object chunk = o))
        { h with nursery := some s', memory := m₃, mature := c, large := t }
        { l with unreached := l.reached, reached := [], nursery := { bumps := l.nursery.bumps } } ∧
      (∀ a, h.mature.contains a = true → Block.isMarked m₃ a = false) ∧
      stats.freed + l.unreached.length +
        liveCount { h with nursery := some s', memory := m₃, mature := c, large := t } =
          h.liveCount := by
  obtain ⟨s', m₁, hrun₁, hused, -, hleft₁, hframe₁⟩ := hs.releaseNursery hn hbumps
  obtain ⟨stats, c, m₂, hrun₂, hleft₂, hclear, -, hcount₂⟩ := hleft₁.sound.sweep
  obtain ⟨t, m₃, hrun₃, hleft₃, hframe₃, hcount₃⟩ := hleft₂.sound.releaseLarge
  have hcount₁ := hs.liveCount_congr hleft₁.sound fun kind o bytes hk => by
    rw [hleft₁.room_iff, and_iff_left]
    rintro rfl
    cases hk
  -- The space of cells keeps its bits when other spaces are emptied.
  have hmarks₁ : ∀ a, h.mature.contains a = true → Block.isMarked m₁ a = Block.isMarked h.memory a :=
    fun a ha => hs.isMarked_of_other (show h.space? .nursery = some s from hn) hframe₁ (by decide) ha
  have hmarks₃ : ∀ a, h.mature.contains a = true → Block.isMarked m₃ a = Block.isMarked m₂ a :=
    fun a ha => hs.isMarked_of_other (show h.space? .large = some _ from rfl) hframe₃ (by decide) ha
  have hleft₂₃ := hleft₂.trans hleft₃ (fun kind o => (kind = .mature → Block.isMarked m₁ o = true) ∧
    (kind = .large → ∃ chunk ∈ l.reached, Chunk.object chunk = o)) fun _ _ _ _ => Iff.rfl
  refine ⟨s', m₁, stats, c, m₂, t, m₃, hrun₁, hused, hrun₂, hrun₃,
    hleft₁.trans hleft₂₃ _ fun kind o bytes hr => ?_, fun a ha => ?_, ?_⟩
  · refine and_congr_right fun _ => and_congr_left fun _ => forall_congr' fun hk => ?_
    subst hk
    obtain ⟨-, -, hpos, _, hs₀, hin⟩ := hs.room_mem hr
    cases hs₀
    rw [hmarks₁ o (hin o (le_refl _) (by omega)).1]
  · rw [hmarks₃ a ha]
    exact hclear a ha
  · simp only at hcount₁ hcount₂ hcount₃ ⊢
    omega

end Sound

end Reclaim.Heap
