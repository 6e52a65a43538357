import Reclaim.Cells.Allocator
import Reclaim.Proofs.Cells.Listing

/-!
What the operations on a pool of cells do to the cells in use. Allocation takes a free cell into use
and clears it, a free gives one cell back, and a pass over the blocks keeps what is in use.
-/
namespace Reclaim

open Sizes

namespace Cells

variable {c c' : Cells} {m m' : Memory} {size a : Nat}

def classBlocks (c : Cells) (size : Nat) : List (Nat × Nat) := (c.shelf size).blocks.map (size, ·)

-- All blocks with their size classes.
def listing (c : Cells) : List (Nat × Nat) := (List.range SizeClass.count).flatMap c.classBlocks

-- The blocks of the other size classes.
def others (c : Cells) (size : Nat) : List (Nat × Nat) :=
  ((List.range SizeClass.count).erase size).flatMap c.classBlocks

structure Sound (c : Cells) (m : Memory) : Prop where
  listed : Listed c.space m c.listing
  shelves_eq : c.shelves.length = SizeClass.count
  available : ∀ size, ∀ block ∈ (c.shelf size).available, block ∈ (c.shelf size).blocks

theorem mem_listing {block : Nat} :
    (size, block) ∈ c.listing ↔ size < SizeClass.count ∧ block ∈ (c.shelf size).blocks := by
  simp [listing, classBlocks]

theorem flatMap_blocks (c : Cells) :
    ((List.range SizeClass.count).flatMap fun size => (c.shelf size).blocks) =
      c.listing.map Prod.snd := by
  simp only [listing, classBlocks, List.map_flatMap, List.map_map, Function.comp_def, List.map_id']

-- A pool without blocks.
theorem shelf_new (s : Space) (size : Nat) : ({ space := s } : Cells).shelf size = {} := by
  unfold Cells.shelf
  rw [List.getD_eq_getElem?_getD, List.getElem?_replicate]
  split_ifs <;> rfl

theorem listing_new (s : Space) : ({ space := s } : Cells).listing = [] := by
  simp only [listing, classBlocks, shelf_new, List.map_nil, List.flatMap_eq_nil_iff, implies_true]

theorem sound_new {s : Space} (hs : s.Sound [] m) (hunit : s.unit = blockPages) :
    Sound { space := s } m where
  listed := by
    rw [listing_new]
    exact ⟨hs, hunit, nofun, nofun, nofun, nofun, nofun⟩
  shelves_eq := rfl
  available size := by
    rw [shelf_new]
    exact nofun

theorem shelf_setShelf (hs : size < c.shelves.length) (shelf : Shelf) (x : Nat) :
    (c.setShelf size shelf).shelf x = if x = size then shelf else c.shelf x := by
  unfold Cells.shelf setShelf
  by_cases hx : x = size
  · subst hx
    simp [List.getD_eq_getElem?_getD, hs]
  · have hx' : size ≠ x := fun h => hx h.symm
    simp [List.getD_eq_getElem?_getD, hx, hx']

theorem listing_congr (h : ∀ size, (c'.shelf size).blocks = (c.shelf size).blocks) :
    c'.listing = c.listing := by
  have hclass : c'.classBlocks = c.classBlocks := by
    funext size
    rw [classBlocks, h, classBlocks]
  rw [listing, hclass, listing]

theorem listing_perm (c : Cells) (hsize : size < SizeClass.count) :
    c.listing.Perm (c.classBlocks size ++ c.others size) := by
  have hperm := List.perm_cons_erase (List.mem_range.mpr hsize)
  have h := hperm.flatMap_right c.classBlocks
  rwa [List.flatMap_cons] at h

theorem others_setShelf (hs : c.shelves.length = SizeClass.count) (hsize : size < SizeClass.count)
    (shelf : Shelf) : (c.setShelf size shelf).others size = c.others size := by
  unfold others
  refine List.flatMap_congr fun x hx => ?_
  have hne : x ≠ size := (List.Nodup.mem_erase_iff List.nodup_range).mp hx |>.1
  rw [classBlocks, shelf_setShelf (hs ▸ hsize), if_neg hne, classBlocks]

theorem listing_setShelf (hs : c.shelves.length = SizeClass.count) (hsize : size < SizeClass.count)
    (shelf : Shelf) :
    (c.setShelf size shelf).listing.Perm (shelf.blocks.map (size, ·) ++ c.others size) := by
  have h := (c.setShelf size shelf).listing_perm hsize
  rwa [others_setShelf hs hsize, classBlocks, shelf_setShelf (hs ▸ hsize), if_pos rfl] at h

theorem Sound.lt_of_mem_blocks (hc : c.Sound m) {block : Nat} (hb : block ∈ (c.shelf size).blocks) :
    size < SizeClass.count := by
  by_contra hn
  rw [Cells.shelf, List.getD_eq_default _ _ (hc.shelves_eq ▸ not_lt.mp hn)] at hb
  cases hb

theorem Sound.shelves_blocks (hc : c.Sound m) :
    c.shelves.flatMap (·.blocks) = c.listing.map Prod.snd := by
  have hshelves : c.shelves = (List.range SizeClass.count).map c.shelf := by
    refine List.ext_getElem (by simp [hc.shelves_eq]) fun i h1 h2 => ?_
    rw [List.getElem_map, List.getElem_range, Cells.shelf, List.getD_eq_getElem _ _ h1]
  rw [← flatMap_blocks, hshelves, List.flatMap_map]

theorem Sound.blockCount_eq (hc : c.Sound m) : c.blockCount = c.listing.length := by
  rw [blockCount, hc.shelves_blocks, List.length_map]

-- Only the stack of a size class changes.
theorem Sound.setAvailable (hc : c.Sound m) (hsize : size < SizeClass.count) (available : List Nat)
    (h : ∀ block ∈ available, block ∈ (c.shelf size).blocks) :
    (c.setShelf size { c.shelf size with available }).Sound m ∧
      (c.setShelf size { c.shelf size with available }).listing = c.listing := by
  have hlen : size < c.shelves.length := hc.shelves_eq ▸ hsize
  have hblocks : ∀ x, ((c.setShelf size { c.shelf size with available }).shelf x).blocks =
      (c.shelf x).blocks := by
    intro x
    rw [shelf_setShelf hlen]
    split
    · rename_i hx
      rw [hx]
    · rfl
  have hlisting := listing_congr hblocks
  refine ⟨⟨?_, ?_, fun x block hb => ?_⟩, hlisting⟩
  · rw [hlisting]
    exact hc.listed
  · simp only [setShelf, List.length_set]
    exact hc.shelves_eq
  · rw [hblocks]
    rw [shelf_setShelf hlen] at hb
    split at hb
    · rename_i hx
      exact hx ▸ h block hb
    · exact hc.available x block hb

-- The pool may have grown, but the cells are as they were.
structure Steady (c : Cells) (m : Memory) (c' : Cells) (m' : Memory) : Prop where
  sound : c'.Sound m'
  mapping_eq : c'.space.mapping = c.space.mapping
  name_eq : c'.space.name = c.space.name
  listing_subset : c.listing ⊆ c'.listing
  used_iff : ∀ size a, Used m' c'.listing size a ↔ Used m c.listing size a
  isMarked_eq : ∀ a, Block.isMarked m' a = Block.isMarked m a
  frame : ∀ a, c.space.contains a = false ∨ Inside c.listing a → m'.read a = m.read a

theorem Inside.mono {B B' : List (Nat × Nat)} (h : B ⊆ B') (ha : Inside B a) : Inside B' a := by
  obtain ⟨b, hb, hin⟩ := ha
  exact ⟨b, h hb, hin⟩

theorem addBlock_ok {block : Nat} (h : c.addBlock m size = .ok (block, c', m')) :
    ∃ s, c.space.acquire blockPages = .ok (block, s) ∧
      c' = ({ c with space := s } : Cells).setShelf size
        { c.shelf size with blocks := block :: (c.shelf size).blocks } ∧
      m' = Block.format m block size := by
  simp only [addBlock, bind_eq_ok, Prod.exists] at h
  obtain ⟨_, s, hacquire, hlast⟩ := h
  cases hlast
  exact ⟨s, hacquire, rfl, rfl⟩

-- A new block joins the pool, with no cell in use.
theorem Sound.addBlock_steady (hc : c.Sound m) (hsize : size < SizeClass.count)
    (hroom : blockBytes + c.space.extent < Word.bound) {block : Nat}
    (h : c.addBlock m size = .ok (block, c', m')) :
    Steady c m c' m' ∧ (size, block) ∈ c'.listing := by
  obtain ⟨s, hacquire, rfl, rfl⟩ := addBlock_ok h
  obtain ⟨hlisted, hused, hmapping, hname, hframe⟩ := hc.listed.add hsize hacquire hroom
  have hlen : ({ c with space := s } : Cells).shelves.length = SizeClass.count := hc.shelves_eq
  have hperm : (({ c with space := s } : Cells).setShelf size
      { c.shelf size with blocks := block :: (c.shelf size).blocks }).listing.Perm
        ((size, block) :: c.listing) :=
    (listing_setShelf hlen hsize _).trans (((c.listing_perm hsize).cons _).symm)
  refine ⟨{
    sound := {
      listed := hlisted.perm hperm.symm
      shelves_eq := by
        simp only [setShelf, List.length_set]
        exact hc.shelves_eq
      available := fun x b hb => by
        rw [shelf_setShelf (hlen ▸ hsize)] at hb ⊢
        split
        · rename_i hx
          rw [if_pos hx] at hb
          exact List.mem_cons_of_mem _ (hc.available size b hb)
        · rename_i hx
          rw [if_neg hx] at hb
          exact hc.available x b hb }
    mapping_eq := hmapping
    name_eq := hname
    listing_subset := fun x hx => hperm.mem_iff.mpr (List.mem_cons_of_mem _ hx)
    used_iff := fun sz x => by
      rw [← hused]
      simp only [Used, hperm.mem_iff]
    isMarked_eq := fun a => Block.isMarked_congr
      (Block.read_format_bitmapWord m (hlisted.aligned _ List.mem_cons_self) size a)
    frame := hframe }, hperm.mem_iff.mpr List.mem_cons_self⟩

theorem Sound.takeBlock (hc : c.Sound m) (hsize : size < SizeClass.count)
    (hroom : blockBytes + c.space.extent < Word.bound) {block : Nat}
    (h : c.takeBlock m size = .ok (block, c', m')) :
    Steady c m c' m' ∧ (size, block) ∈ c'.listing := by
  unfold Cells.takeBlock at h
  cases hav : (c.shelf size).available with
  | cons top rest =>
    rw [hav] at h
    cases h
    obtain ⟨hs, hlisting⟩ := hc.setAvailable hsize rest fun b hb =>
      hc.available size b (by rw [hav]; exact List.mem_cons_of_mem _ hb)
    refine ⟨⟨hs, rfl, rfl, ?_, ?_, fun _ => rfl, fun _ _ => rfl⟩, ?_⟩
    · rw [hlisting]
      exact fun _ hx => hx
    · rw [hlisting]
      exact fun _ _ => Iff.rfl
    · rw [hlisting, mem_listing]
      exact ⟨hsize, hc.available size _ (by rw [hav]; exact List.mem_cons_self)⟩
  | nil =>
    rw [hav] at h
    exact hc.addBlock_steady hsize hroom h

-- One cell has been taken into use.
structure Taken (c : Cells) (m : Memory) (size a : Nat) (c' : Cells) (m' : Memory) : Prop where
  sound : c'.Sound m'
  mapping_eq : c'.space.mapping = c.space.mapping
  name_eq : c'.space.name = c.space.name
  listing_subset : c.listing ⊆ c'.listing
  used_iff : ∀ size' x, Used m' c'.listing size' x ↔
    Used m c.listing size' x ∨ size' = size ∧ x = a
  fresh : ∀ size', ¬Used m c.listing size' a
  isMarked_eq : ∀ x, Block.isMarked m' x = Block.isMarked m x
  frame : ∀ x, c.space.contains x = false ∨ Inside c.listing x → m'.read x = m.read x

theorem Steady.taken {c₁ : Cells} {m₁ : Memory} (h : Steady c m c₁ m₁)
    (h' : Taken c₁ m₁ size a c' m') : Taken c m size a c' m' where
  sound := h'.sound
  mapping_eq := h'.mapping_eq.trans h.mapping_eq
  name_eq := h'.name_eq.trans h.name_eq
  listing_subset := List.Subset.trans h.listing_subset h'.listing_subset
  used_iff size' x := by rw [h'.used_iff, h.used_iff]
  fresh size' hx := h'.fresh size' ((h.used_iff size' a).mpr hx)
  isMarked_eq x := (h'.isMarked_eq x).trans (h.isMarked_eq x)
  frame x hx := by
    refine (h'.frame x ?_).trans (h.frame x hx)
    rw [Space.contains_congr h.mapping_eq]
    exact hx.imp_right (Inside.mono h.listing_subset)

-- A cell is cleared behind the headers.
theorem Taken.zero (h : Taken c m size a c' m') :
    (∀ b, (m'.zero a (SizeClass.bytes size)).read b =
      if b % wordBytes = 0 ∧ a ≤ b ∧ b < a + SizeClass.bytes size then 0 else m'.read b) ∧
    ∀ b, c'.space.contains b = true → ¬Inside c'.listing b →
      (m'.zero a (SizeClass.bytes size)).read b = m'.read b := by
  have hcell : Used m' c'.listing size a := (h.used_iff size a).mpr (Or.inr ⟨rfl, rfl⟩)
  obtain ⟨hsize, hal, hinside⟩ := h.sound.listed.used_mem hcell
  have hread := m'.read_zero hal (SizeClass.bytes_mem hsize).1
  refine ⟨hread, fun b _ hn => ?_⟩
  rw [hread, if_neg fun hin => hn (hinside b hin.2.1 hin.2.2)]

theorem Sound.setMemory (hc : c.Sound m) (h : Listed c.space m' c.listing) : c.Sound m' :=
  { hc with listed := h }

theorem Sound.takeCell? (hc : c.Sound m) {cursor cursor' : CellCursor}
    (hb : (size, cursor.block) ∈ c.listing)
    (h : CellAllocator.takeCell? m cursor = .ok (some (a, cursor', m'))) :
    cursor'.block = cursor.block ∧ Taken c m size a c m' := by
  simp only [CellAllocator.takeCell?, bind_eq_ok] at h
  obtain ⟨found, hfind, h⟩ := h
  cases found with
  | none => cases h
  | some found =>
    obtain ⟨i, b⟩ := found
    cases h
    have hformed : Block.Formed m cursor.block size := hc.listed.formed _ hb
    obtain ⟨hi, rfl, hfree⟩ := hformed.findFree?_some hfind
    obtain ⟨hlisted, hused⟩ := hc.listed.setInUse hb hi
    refine ⟨rfl, hc.setMemory hlisted, rfl, rfl, fun _ hx => hx, hused, ?_,
      Block.isMarked_setInUse m _, fun x hx => ?_⟩
    · rintro size' ⟨block, -, -, hu⟩
      rw [hfree] at hu
      cases hu
    · exact Block.read_update_of_ne _ m (hc.listed.ne_bitmapWord hb (hc.listed.blockOf_cell hb hi) hx)

theorem Sound.takeShelved (hc : c.Sound m) (hsize : size < SizeClass.count)
    (hroom : blockBytes + c.space.extent < Word.bound) {fuel : Nat} {cursor : CellCursor}
    (h : CellAllocator.takeShelved c m size fuel = .ok (a, cursor, c', m')) :
    (size, cursor.block) ∈ c'.listing ∧ Taken c m size a c' m' := by
  induction fuel generalizing c m with
  | zero => cases h
  | succ fuel ih =>
    simp only [CellAllocator.takeShelved, bind_eq_ok, Prod.exists] at h
    obtain ⟨block, c₁, m₁, htake, found, hcell, h⟩ := h
    obtain ⟨hsteady, hb⟩ := hc.takeBlock hsize hroom htake
    cases found with
    | none =>
      have hroom' : blockBytes + c₁.space.extent < Word.bound := by
        rwa [(Space.range_congr hsteady.mapping_eq).2.1]
      obtain ⟨h1, h2⟩ := ih hsteady.sound hroom' h
      exact ⟨h1, hsteady.taken h2⟩
    | some found =>
      obtain ⟨b, cursor₁, m₂⟩ := found
      cases h
      obtain ⟨hblock, htaken⟩ := hsteady.sound.takeCell? hb hcell
      exact ⟨by rw [hblock]; exact hb, hsteady.taken htaken⟩

-- A cell in use can be freed.
theorem Sound.free (hc : c.Sound m) (ha : Used m c.listing size a) :
    ∃ c' m', c.free m a = .ok (c', m') ∧ c'.Sound m' ∧ c'.space = c.space ∧
      c'.listing = c.listing ∧
      (∀ size' x, Used m' c'.listing size' x ↔ Used m c.listing size' x ∧ x ≠ a) ∧
      ∀ x, c.space.contains x = false ∨ Inside c.listing x → m'.read x = m.read x := by
  obtain ⟨hlisted, hused⟩ := hc.listed.clear ha
  have hb := hc.listed.block_of_used ha
  have hu : Block.isInUse m a = true := ha.choose_spec.2.2
  refine ⟨{ c with cellsFreed := c.cellsFreed + 1 }, _, if_pos hu,
    ⟨hlisted, hc.shelves_eq, hc.available⟩, rfl, rfl, hused, fun x hx => ?_⟩
  exact Block.read_update_of_ne _ m (hc.listed.ne_bitmapWord hb rfl hx)

-- What the pool takes for an object in use is one.
theorem Sound.isAllocated_iff (hc : c.Sound m) (ha : a % wordBytes = 0) :
    c.isAllocated m a = true ↔ ∃ size, Used m c.listing size a := by
  simp only [isAllocated, Bool.and_eq_true, decide_eq_true_eq]
  constructor
  · rintro ⟨⟨hin, -⟩, hu⟩
    exact hc.listed.used_of_isInUse hin ha hu
  · rintro ⟨size, hused⟩
    have hb := hc.listed.block_of_used hused
    have hu : Block.isInUse m a = true := hused.choose_spec.2.2
    obtain ⟨-, hpos, -⟩ := SizeClass.bytes_mem (hc.listed.size_lt _ hb)
    obtain ⟨-, -, hinside⟩ := hc.listed.used_mem hused
    have hin := hc.listed.contains_of_inside (hinside a (le_refl _) (by simp only at hpos; omega))
    have hlast : a < c.space.start + c.space.highWater * pageBytes := by
      have hle := hc.listed.space.stop_le (List.mem_map_of_mem hb)
      have hstop := (hc.listed.run_first hb).2
      have hmul := Nat.mul_le_mul_left pageBytes hle
      have hof : a < blockOf a + blockBytes := by
        simp only [blockOf, blockBytes]
        omega
      rw [Nat.mul_comm c.space.highWater]
      simp only at hstop hmul
      omega
    have hmapped : pagesToBytes c.space.mapped = c.space.mapped * pageBytes := by
      have hfits := hc.listed.space.mapped_fits
      have hbound : c.space.start + c.space.extent < Word.bound := hc.listed.space.stop_lt
      exact Nat.mod_eq_of_lt (by omega)
    have hmono := Nat.mul_le_mul_right pageBytes hc.listed.space.highWater_le
    exact ⟨⟨hin, by omega⟩, hu⟩

end Cells

namespace CellAllocator

open Cells

variable {x x' : CellAllocator} {c c' : Cells} {m m' : Memory} {size a : Nat}

-- The allocator owns listed blocks of the right size classes.
def Owns (x : CellAllocator) (c : Cells) : Prop :=
  ∀ size cursor, x.current.getD size none = some cursor → (size, cursor.block) ∈ c.listing

theorem Owns.mono (hx : x.Owns c) (h : c.listing ⊆ c'.listing) : x.Owns c' :=
  fun size cursor hcursor => h (hx size cursor hcursor)

theorem owns_fresh (c : Cells) : Owns {} c := by
  intro size cursor h
  rw [List.getD_eq_getElem?_getD, List.getElem?_replicate] at h
  split at h <;> cases h

theorem Owns.take (hx : x.Owns c) (hc : c.Sound m) (hsize : size < SizeClass.count)
    (hroom : blockBytes + c.space.extent < Word.bound) {cursor : CellCursor}
    (h : x.take c m size = .ok (a, cursor, c', m')) :
    (size, cursor.block) ∈ c'.listing ∧ Taken c m size a c' m' := by
  unfold CellAllocator.take at h
  cases hcur : x.current.getD size none with
  | none =>
    simp only [hcur, ok_bind] at h
    exact hc.takeShelved hsize hroom h
  | some cursor₀ =>
    simp only [hcur, bind_eq_ok] at h
    obtain ⟨owned, howned, h⟩ := h
    cases owned with
    | none => exact hc.takeShelved hsize hroom h
    | some owned =>
      obtain ⟨b, cursor₁, m₁⟩ := owned
      cases h
      obtain ⟨hblock, htaken⟩ := hc.takeCell? (hx size cursor₀ hcur) howned
      exact ⟨by rw [hblock]; exact hx size cursor₀ hcur, htaken⟩

theorem Owns.set (hx : x.Owns c) {cursor : CellCursor} (hb : (size, cursor.block) ∈ c.listing) :
    Owns ⟨x.current.set size (some cursor)⟩ c := by
  intro size' cursor' hcur
  rw [List.getD_eq_getElem?_getD, List.getElem?_set] at hcur
  split at hcur
  · rename_i heq
    subst heq
    split at hcur
    · cases hcur
      exact hb
    · cases hcur
  · refine hx size' cursor' ?_
    rw [List.getD_eq_getElem?_getD]
    exact hcur

-- A request is served from its size class.
theorem alloc_ok {bytes align : Nat} (h : x.alloc c m bytes align = .ok (a, x', c', m')) :
    ∃ size cursor m₁, SizeClass.forBytes? bytes = some size ∧
      x.take c m size = .ok (a, cursor, c', m₁) ∧ x' = ⟨x.current.set size (some cursor)⟩ ∧
      m' = m₁.zero a (SizeClass.bytes size) := by
  simp only [CellAllocator.alloc] at h
  split at h
  · cases h
  cases hclass : SizeClass.forBytes? bytes with
  | none =>
    rw [hclass] at h
    cases h
  | some size =>
    rw [hclass] at h
    simp only [bind_eq_ok, Prod.exists] at h
    obtain ⟨b, cursor, c₁, m₁, htake, h⟩ := h
    cases h
    exact ⟨size, cursor, m₁, rfl, htake, rfl, rfl⟩

-- Allocation answers a cleared cell that was not in use.
theorem Owns.alloc (hx : x.Owns c) (hc : c.Sound m)
    (hroom : blockBytes + c.space.extent < Word.bound) {bytes align : Nat}
    (h : x.alloc c m bytes align = .ok (a, x', c', m')) :
    ∃ size m₁, bytes ≤ SizeClass.bytes size ∧ x'.Owns c' ∧ Taken c m size a c' m₁ ∧
      c'.Sound m' ∧ (∀ size' b, Used m' c'.listing size' b ↔ Used m₁ c'.listing size' b) ∧
      ∀ b, m'.read b = if b % wordBytes = 0 ∧ a ≤ b ∧ b < a + SizeClass.bytes size then 0
        else m₁.read b := by
  obtain ⟨size, cursor, m₁, hclass, htake, rfl, rfl⟩ := alloc_ok h
  obtain ⟨hsize, hbytes⟩ := SizeClass.forBytes?_some hclass
  obtain ⟨hb, htaken⟩ := hx.take hc hsize hroom htake
  obtain ⟨hread, hoff⟩ := htaken.zero
  exact ⟨size, m₁, hbytes, (hx.mono htaken.listing_subset).set hb, htaken,
    htaken.sound.setMemory (htaken.sound.listed.congr hoff), htaken.sound.listed.used_congr hoff,
    hread⟩

-- A block that is given up can be taken again.
theorem giveUp_ok (hc : c.Sound m) {cursor : CellCursor} (hb : (size, cursor.block) ∈ c.listing) :
    ∃ c', giveUp m c cursor = .ok c' ∧ c'.Sound m ∧ c'.listing = c.listing ∧ c'.space = c.space := by
  have hformed := hc.listed.formed _ hb
  have hsize := hc.listed.size_lt _ hb
  simp only at hformed hsize
  unfold giveUp
  split
  · obtain ⟨hs, hlisting⟩ := hc.setAvailable hsize
      (cursor.block :: (c.shelf size).available) fun block hblock => by
        rcases List.mem_cons.mp hblock with rfl | hblock
        · exact (mem_listing.mp hb).2
        · exact hc.available size block hblock
    refine ⟨_, ?_, hs, hlisting, rfl⟩
    unfold giveBack
    rw [hformed.size_eq]
    exact if_pos hsize
  · exact ⟨c, rfl, hc, rfl, rfl⟩

-- The blocks that an allocator has under way are blocks of the pool.
theorem Owns.mem_listing (hx : x.Owns c) {cursor : CellCursor} (h : cursor ∈ x.current.filterMap id) :
    ∃ size, (size, cursor.block) ∈ c.listing := by
  obtain ⟨owned, hmem, rfl⟩ := List.mem_filterMap.mp h
  obtain ⟨size, hlt, hget⟩ := List.mem_iff_getElem.mp hmem
  refine ⟨size, hx size cursor ?_⟩
  rw [List.getD_eq_getElem _ _ hlt, hget]

-- An allocator that was reset owns nothing.
theorem Owns.reset (hx : x.Owns c) (hc : c.Sound m) :
    ∃ c', x.reset c m = .ok ({}, c') ∧ c'.Sound m ∧ c'.listing = c.listing ∧ c'.space = c.space := by
  have hmem : ∀ cursor ∈ x.current.filterMap id, ∃ size, (size, cursor.block) ∈ c.listing :=
    fun _ => hx.mem_listing
  obtain ⟨c', hrun, -, hs, hlisting, hspace⟩ := foldlM_ok
    (fun rest (c₁ : Cells) => (∀ cursor ∈ rest, ∃ size, (size, cursor.block) ∈ c.listing) ∧
      c₁.Sound m ∧ c₁.listing = c.listing ∧ c₁.space = c.space)
    (fun cursor rest c₁ ⟨hrest, hs, hlisting, hspace⟩ => by
      obtain ⟨size, hb⟩ := hrest cursor List.mem_cons_self
      obtain ⟨c₂, hgive, hs₂, hlisting₂, hspace₂⟩ := giveUp_ok hs (by rw [hlisting]; exact hb)
      exact ⟨c₂, hgive, fun x hx => hrest x (List.mem_cons_of_mem _ hx), hs₂,
        hlisting₂.trans hlisting, hspace₂.trans hspace⟩)
    (x.current.filterMap id) c ⟨hmem, hc, rfl, rfl⟩
  exact ⟨c', by simp only [CellAllocator.reset, hrun, ok_bind], hs, hlisting, hspace⟩

end CellAllocator

end Reclaim
