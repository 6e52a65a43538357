import Reclaim.Cells.Allocator
import Reclaim.Proofs.Heap.Spaces

/-!
Room for a new object. Whatever allocator finds it, it is blank, belongs to nobody else, and what lies
in the other rooms and outside of the spaces is as before.
-/
namespace Reclaim.Heap

open Sizes

-- `h'` has one more room than `h`.
structure Extended (h : Heap) (l : Layout) (kind : SpaceKind) (o bytes : Nat) (h' : Heap)
    (l' : Layout) : Prop where
  sound : h'.Sound l'
  types_eq : h'.types = h.types
  spaceOf?_eq : ∀ a, h'.spaceOf? a = h.spaceOf? a
  nursery_none : h.nursery = none → h'.nursery = none
  large_mark : h'.large.markState = h.large.markState
  immortal_mark : h'.immortal.markState = h.immortal.markState
  reached_eq : l'.reached = l.reached
  listing_subset : h.mature.listing ⊆ h'.mature.listing
  room_iff : ∀ kind' x bytes', Room h' l' kind' x bytes' ↔
    Room h l kind' x bytes' ∨ kind' = kind ∧ x = o ∧ bytes' = bytes
  fresh : ∀ kind' bytes', ¬Room h l kind' o bytes'
  kept : ∀ kind' x bytes', Room h l kind' x bytes' → ∀ a, x ≤ a → a < x + bytes' →
    h'.memory.read a = h.memory.read a
  outside : ∀ a, h.spaceOf? a = none → h'.memory.read a = h.memory.read a

-- Nothing was written there yet.
def Blank (m : Memory) (o bytes : Nat) : Prop :=
  ∀ a, a % wordBytes = 0 → o ≤ a → a < o + bytes → m.read a = 0

variable {h h' : Heap} {l l' : Layout} {kind : SpaceKind} {o bytes : Nat}

namespace Extended

theorem room (he : Extended h l kind o bytes h' l') : Room h' l' kind o bytes :=
  (he.room_iff _ _ _).mpr (Or.inr ⟨rfl, rfl, rfl⟩)

-- The old rooms lie apart from the new one.
theorem apart (he : Extended h l kind o bytes h' l') {kind' : SpaceKind} {x bytes' : Nat}
    (hr : Room h l kind' x bytes') : x ≠ o ∧ (o + bytes ≤ x ∨ x + bytes' ≤ o) := by
  have hne : x ≠ o := by
    rintro rfl
    exact he.fresh _ _ hr
  rcases he.sound.room_apart he.room ((he.room_iff _ _ _).mpr (Or.inl hr)) with ⟨-, h1, -⟩ | h1
  · exact absurd h1.symm hne
  · exact ⟨hne, h1⟩

theorem inCountedSpace_eq (he : Extended h l kind o bytes h' l') (a : Nat) :
    h'.inCountedSpace a = h.inCountedSpace a := inCountedSpace_congr he.spaceOf?_eq a

-- Whether a new object is immortal shows where it lies.
theorem immortals_eq (he : Extended h l kind o bytes h' l') (immortals : List Nat) :
    (if kind = .immortal then [o] else []) ++ immortals =
      if h'.spaceOf? o = some .immortal then o :: immortals else immortals := by
  rw [he.sound.spaceOf?_start he.room]
  cases kind <;> rfl

-- The old objects are as they were.
theorem same (he : Extended h l kind o bytes h' l') (hp : h.Populated l) {kind' : SpaceKind}
    {x bytes' : Nat} (hr : Room h l kind' x bytes') :
    Object.Formed h'.types h'.memory x bytes' ∧ h'.refs x = h.refs x ∧
      h'.memory.read x = h.memory.read x := by
  have hword : ∀ a, a % wordBytes = 0 → x < a → a < x + bytes' → h'.memory.read a = h.memory.read a :=
    fun a _ h1 h2 => he.kept _ _ _ hr a (by omega) h2
  have hcongr := (hp.formed _ _ _ hr).congr hword
  rw [refs, he.types_eq]
  exact ⟨hcongr.1, hcongr.2.2,
    he.kept _ _ _ hr x (le_refl _) (by have := (hp.sound.room_mem hr).2.2.1; omega)⟩

-- The header of the new object is written.
theorem writeHeader (he : Extended h l kind o bytes h' l') (hp : h.Populated l)
    (hblank : Blank h'.memory o bytes) {info : TypeInfo} {id length size s : Nat}
    (hinfo : h.types.info id = .ok info) (hsize : info.bytesRequired length = .ok size)
    (hle : size ≤ bytes) :
    let h₂ := { h' with memory := Object.writeHeader h'.memory info o s id length }
    Extended h l kind o bytes h₂ l' ∧ h₂.Populated l' ∧ h₂.refs o = [] ∧
      h₂.memory.read o = s ∧ ∀ a, a < o ∨ o + bytes ≤ a → h₂.memory.read a = h'.memory.read a := by
  intro h₂
  have hroom := he.room
  obtain ⟨haligned, -, hpos, _, -, hin⟩ := he.sound.room_mem hroom
  have htypes : h'.types.Sound := he.sound.types
  obtain ⟨hformed, hnone, hstatus, hother⟩ := Object.formed_writeHeader htypes
    (he.types_eq ▸ hinfo) hsize hle haligned (he.sound.room_bound hroom).2 hblank (s := s)
  have hheader : info.headerBytes ≤ bytes :=
    (((htypes.info (he.types_eq ▸ hinfo)).1.bytesRequired_ok hsize).2.1).trans hle
  -- The words of the header lie in the new room.
  have hwords : ∀ a, a < o ∨ o + bytes ≤ a → h₂.memory.read a = h'.memory.read a := by
    intro a ha
    have h16 := info.scalarHeaderBytes_le
    refine hother a ?_ ?_ fun harray => ?_
    · omega
    · simp only [Types.scalarHeaderBytes] at h16
      omega
    · simp only [TypeInfo.headerBytes, harray, if_true, Types.arrayHeaderBytes] at hheader
      omega
  obtain ⟨hsound, hrooms⟩ := he.sound.setMemory (m := h₂.memory) fun a kind' ha hnot =>
    hwords a (by
      by_contra hcon
      have hsame := he.sound.spaceOf?_room hroom (a := a) (by omega) (by omega)
      rw [hsame] at ha
      cases ha
      exact hnot (hin a (by omega) (by omega)).2)
  have hext : Extended h l kind o bytes h₂ l' := { he with
    sound := hsound
    room_iff := fun kind' x bytes' => (hrooms _ _ _).trans (he.room_iff _ _ _)
    kept := fun kind' x bytes' hr a h1 h2 =>
      (hwords a (by have := (he.apart hr).2; omega)).trans (he.kept _ _ _ hr a h1 h2)
    outside := fun a ha => (hwords a (by
      by_contra hcon
      have hsame := he.sound.spaceOf?_room hroom (a := a) (by omega) (by omega)
      rw [he.spaceOf?_eq, ha] at hsame
      cases hsame)).trans (he.outside a ha) }
  refine ⟨hext, ⟨hsound, fun kind' x bytes' hr => ?_⟩, hnone, hstatus, hwords⟩
  rcases (hext.room_iff _ _ _).mp hr with hr | ⟨rfl, rfl, rfl⟩
  · exact (hext.same hp hr).1
  · exact hformed

end Extended

-- One space has one more room, and the other spaces have theirs.
theorem room_iff_of_one_more (hother : ∀ k x b, k ≠ kind → (Room h' l' k x b ↔ Room h l k x b))
    (hsame : ∀ x b, Room h' l' kind x b ↔ Room h l kind x b ∨ x = o ∧ b = bytes)
    (k : SpaceKind) (x b : Nat) :
    Room h' l' k x b ↔ Room h l k x b ∨ k = kind ∧ x = o ∧ b = bytes := by
  by_cases hk : k = kind
  · subst hk
    rw [hsame, eq_self_iff_true, true_and]
  · rw [hother _ _ _ hk, or_iff_left fun hc => hk hc.1]

-- A room that is new to its space is new to the others, too.
theorem Sound.fresh_of_one_more (hs : h.Sound l) (hs' : h'.Sound l')
    (hspace : ∀ a, h'.spaceOf? a = h.spaceOf? a) (hr : Room h' l' kind o bytes)
    (hfresh : ∀ b, ¬Room h l kind o b) (k : SpaceKind) (b : Nat) : ¬Room h l k o b := by
  intro hold
  have hk := hs.spaceOf?_start hold
  rw [← hspace, hs'.spaceOf?_start hr] at hk
  cases hk
  exact hfresh _ hold

namespace Sound

variable (hs : h.Sound l)
include hs

-- A cell is taken into use.
theorem allocCell {x x' : CellAllocator} {c : Cells} {m : Memory} (hx : x.Owns h.mature)
    {align : Nat} (halloc : x.alloc h.mature h.memory bytes align = .ok (o, x', c, m)) :
    ∃ size, bytes ≤ size ∧ x'.Owns c ∧
      Extended h l .mature o size { h with mature := c, memory := m } l ∧ Blank m o size := by
  have hmature : h.space? .mature = some h.mature.space := rfl
  obtain ⟨size, m₁, hsize, hown, htaken, hc, hused, hread⟩ :=
    hx.alloc hs.mature hs.mature_extent_lt halloc
  have hnew : Cells.Used m c.listing size o :=
    (hused _ _).mpr ((htaken.used_iff _ _).mpr (Or.inr ⟨rfl, rfl⟩))
  have hin : ∀ a, o ≤ a → a < o + SizeClass.bytes size → h.mature.contains a = true :=
    fun a h1 h2 => by
      rw [Cells.contains, ← Space.contains_congr htaken.mapping_eq]
      exact hc.listed.contains_of_inside ((hc.listed.used_mem hnew).2.2 a h1 h2)
  have hframe : ∀ a, h.mature.contains a = false → m.read a = h.memory.read a := by
    intro a ha
    rw [hread, if_neg, htaken.frame a (Or.inl ha)]
    rintro ⟨-, h1, h2⟩
    rw [hin a h1 h2] at ha
    cases ha
  obtain ⟨hsound, hother⟩ := hs.setMature hc htaken.mapping_eq hframe
  have hspace : ∀ a, spaceOf? { h with mature := c, memory := m } a = h.spaceOf? a :=
    spaceOf?_congr rfl htaken.mapping_eq rfl rfl
  have hsame : ∀ y b, Room { h with mature := c, memory := m } l .mature y b ↔
      Room h l .mature y b ∨ y = o ∧ b = SizeClass.bytes size := by
    intro y b
    simp only [room_mature_iff, hused, htaken.used_iff, or_and_right, exists_or]
    refine or_congr_right ⟨?_, ?_⟩
    · rintro ⟨_, ⟨rfl, rfl⟩, rfl⟩
      exact ⟨rfl, rfl⟩
    · rintro ⟨rfl, rfl⟩
      exact ⟨_, ⟨rfl, rfl⟩, rfl⟩
  have hfresh := hs.fresh_of_one_more hsound hspace (.cell hnew) fun b hr => by
    obtain ⟨_, hu, -⟩ := room_mature_iff.mp hr
    exact htaken.fresh _ hu
  have hiff := room_iff_of_one_more hother hsame
  refine ⟨_, hsize, hown, {
    sound := hsound
    types_eq := rfl
    spaceOf?_eq := hspace
    nursery_none := id
    large_mark := rfl
    immortal_mark := rfl
    reached_eq := rfl
    listing_subset := htaken.listing_subset
    room_iff := hiff
    fresh := hfresh
    kept := fun kind' y b hr a h1 h2 => ?kept
    outside := fun a ha => hframe a (hs.contains_false_of_none hmature ha) }, fun a hmod h1 h2 => ?_⟩
  case kept =>
    by_cases hk : kind' = .mature
    · subst hk
      have hapart : ¬(a % wordBytes = 0 ∧ o ≤ a ∧ a < o + SizeClass.bytes size) := by
        rintro ⟨-, h3, h4⟩
        rcases hsound.room_apart (.cell hnew) ((hiff _ _ _).mpr (Or.inl hr)) with ⟨-, rfl, -⟩ | h5 | h5
        · exact hfresh _ _ hr
        · omega
        · omega
      rw [hread, if_neg hapart]
      cases hr with
      | cell hu => exact htaken.frame a (Or.inr ((hs.mature.listed.used_mem hu).2.2 a h1 h2))
    · exact hs.word_of_other hmature hframe hr hk a h1 h2
  rw [hread, if_pos ⟨hmod, h1, h2⟩]

theorem large_alloc (hbytes : bytes < Mapping.systemLimit) {align : Nat} {t : Treadmill} {m : Memory}
    (halloc : h.large.alloc h.memory bytes align = .ok (o, t, m)) :
    ∃ chunk, o = Chunk.object chunk ∧ t.Sound m (chunk :: l.unreached) l.reached ∧
      h.large.Grown h.memory l.chunks chunk bytes t m := by
  have hroom := Mapping.room_le hbytes
  have hpages : 2 * pageBytes ≤ blockBytes := by decide
  exact hs.large.alloc (hs.extent_lt (show h.space? .large = some _ from rfl) (by omega)) halloc

-- An object gets a chunk of its own.
theorem allocChunk {align : Nat} {t : Treadmill} {m : Memory} (hbytes : bytes < Mapping.systemLimit)
    (halloc : h.large.alloc h.memory bytes align = .ok (o, t, m)) :
    ∃ chunk size, bytes ≤ size ∧ Extended h l .large o size { h with large := t, memory := m }
      { l with unreached := chunk :: l.unreached } ∧ Blank m o size := by
  obtain ⟨chunk, rfl, ht, hgrown⟩ := hs.large_alloc hbytes halloc
  have hlarge : h.space? .large = some h.large.space := rfl
  obtain ⟨hsound, hrooms, hwords⟩ := hs.keepLarge ht hgrown.mapping_eq
    ⟨hgrown.pages_eq, hgrown.frame⟩ (List.Subset.refl _) (List.subset_cons_self chunk _)
  have hspace : ∀ a, spaceOf? { h with large := t, memory := m } a = h.spaceOf? a :=
    spaceOf?_congr rfl rfl hgrown.mapping_eq rfl
  have hsame : ∀ y b, Room { h with large := t, memory := m }
      { l with unreached := chunk :: l.unreached } .large y b ↔ Room h l .large y b ∨
        y = Chunk.object chunk ∧ b = pageBytes * m.read (chunk + 16) - Chunk.headerBytes := by
    intro y b
    constructor
    · intro hr
      obtain ⟨c, hc, rfl, rfl⟩ := room_large_iff.mp hr
      rcases List.mem_cons.mp hc with rfl | hc
      · exact Or.inr ⟨rfl, rfl⟩
      · exact Or.inl ((hrooms _ _ _ fun _ => ⟨c, hc, rfl⟩).mp hr)
    · rintro (hr | ⟨rfl, rfl⟩)
      · exact (hrooms _ _ _ fun _ => hr.exists_chunk).mpr hr
      · exact .chunk List.mem_cons_self
  have hsize := hgrown.room
  refine ⟨chunk, _, ?_, {
    sound := hsound
    types_eq := rfl
    spaceOf?_eq := hspace
    nursery_none := id
    large_mark := hgrown.markState_eq
    immortal_mark := rfl
    reached_eq := rfl
    listing_subset := List.Subset.refl _
    room_iff := room_iff_of_one_more (fun k y b hk => hrooms k y b fun hl => absurd hl hk) hsame
    fresh := hs.fresh_of_one_more hsound hspace (.chunk List.mem_cons_self) fun b hr =>
      hgrown.fresh (room_chunk_iff.mp hr).1
    kept := fun k y b hr => hwords k y b hr fun hk => (hk ▸ hr).exists_chunk
    outside := fun a ha => hgrown.frame a (Or.inl (hs.contains_false_of_none hlarge ha)) },
    fun a _ h1 h2 => hgrown.blank a h1 ?_⟩
  · omega
  · simp only [Chunk.object, Chunk.headerBytes] at h2 hsize ⊢
    omega

-- An object is put where a bump allocator points to.
theorem allocPlot {b b' : Bump} {rest : List Bump} {s : Space}
    (hb : l.immortal.bumps.Perm (b :: rest)) (hpos : 0 < bytes) (hmod : bytes % wordBytes = 0)
    (hbytes : bytes < Mapping.systemLimit)
    (halloc : b.alloc h.immortal.space bytes wordBytes = .ok (o, b', s)) :
    ∃ runs, Extended h l .immortal o bytes { h with immortal := { h.immortal with space := s } }
      { l with immortal :=
        { runs, rooms := (o, bytes) :: l.immortal.rooms, bumps := b' :: rest } } ∧
      Blank h.memory o bytes := by
  have himmortal : h.space? .immortal = some h.immortal.space := rfl
  obtain ⟨runs, hplots, hmapping, hblank⟩ := (hs.immortal.perm hb).alloc hpos hmod
    (hs.extent_lt himmortal (Mapping.room_le hbytes)) halloc
  obtain ⟨hsound, hother⟩ := hs.setImmortal
    (p := { runs, rooms := (o, bytes) :: l.immortal.rooms, bumps := b' :: rest }) hplots hmapping
    h.immortal.markState
  have hspace : ∀ a, spaceOf? { h with immortal := { h.immortal with space := s } } a =
      h.spaceOf? a := spaceOf?_congr rfl rfl rfl hmapping
  have hsame : ∀ y b, Room { h with immortal := { h.immortal with space := s } }
      { l with immortal := { runs, rooms := (o, bytes) :: l.immortal.rooms, bumps := b' :: rest } }
      .immortal y b ↔ Room h l .immortal y b ∨ y = o ∧ b = bytes := fun y b => by
    rw [room_immortal_iff, room_immortal_iff, List.mem_cons, Prod.mk.injEq, or_comm]
  refine ⟨runs, {
    sound := hsound
    types_eq := rfl
    spaceOf?_eq := hspace
    nursery_none := id
    large_mark := rfl
    immortal_mark := rfl
    reached_eq := rfl
    listing_subset := List.Subset.refl _
    room_iff := room_iff_of_one_more hother hsame
    fresh := hs.fresh_of_one_more hsound hspace (.plot List.mem_cons_self) fun b hr =>
      hplots.not_mem_of_cons (room_immortal_iff.mp hr)
    kept := fun _ _ _ _ _ _ _ => rfl
    outside := fun _ _ => rfl }, fun a ha h1 h2 => hblank a ha ⟨h1, h2⟩⟩

end Sound

end Reclaim.Heap
