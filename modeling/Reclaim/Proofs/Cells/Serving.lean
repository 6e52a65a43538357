import Reclaim.Proofs.Cells.Stacks
import Reclaim.Proofs.Cells.Supply

/-!
How far the free cells of a pool go. An allocator that no other one disturbs uses up the free cells of a
size class, those of its own block first, before it asks for a fresh block.
-/
namespace Reclaim

open Sizes

namespace Cells

variable {c c' : Cells} {s : Space} {m m' : Memory} {size block a : Nat} {B : List (Nat × Nat)}

-- The cells of a size class that are not in use.
def freeCells (c : Cells) (m : Memory) (size : Nat) : List Nat :=
  ((c.shelf size).blocks.flatMap fun block =>
    (List.range (SizeClass.perBlock size)).map (Block.cellAt block size)).filter fun a =>
      !Block.isInUse m a

theorem mem_freeCells : a ∈ c.freeCells m size ↔ ∃ block ∈ (c.shelf size).blocks,
    ∃ i < SizeClass.perBlock size, a = Block.cellAt block size i ∧ Block.isInUse m a = false := by
  simp only [freeCells, List.mem_filter, List.mem_flatMap, List.mem_map, List.mem_range,
    Bool.not_eq_true']
  constructor
  · rintro ⟨⟨block, hb, i, hi, rfl⟩, hu⟩
    exact ⟨block, hb, i, hi, rfl, hu⟩
  · rintro ⟨block, hb, i, hi, rfl, hu⟩
    exact ⟨⟨block, hb, i, hi, rfl⟩, hu⟩

theorem Sound.nodup_freeCells (hc : c.Sound m) (size : Nat) : (c.freeCells m size).Nodup := by
  refine List.Nodup.filter _ (List.nodup_flatMap.mpr ⟨fun block hb => ?_, ?_⟩)
  · exact nodup_cells (hc.lt_of_mem_blocks hb) block
  · have hnodup := hc.listed.nodup_blocks
    rw [← flatMap_blocks] at hnodup
    by_cases hsize : size < SizeClass.count
    · refine ((List.nodup_flatMap.mp hnodup).1 size (List.mem_range.mpr hsize)).imp_of_mem ?_
      intro block block' hb hb' hne a ha ha'
      obtain ⟨i, hi, rfl⟩ := List.mem_map.mp ha
      obtain ⟨j, hj, heq⟩ := List.mem_map.mp ha'
      have h1 := hc.listed.blockOf_cell (mem_listing.mpr ⟨hsize, hb⟩) (List.mem_range.mp hi)
      have h2 := hc.listed.blockOf_cell (mem_listing.mpr ⟨hsize, hb'⟩) (List.mem_range.mp hj)
      rw [heq] at h2
      exact hne (h1.symm.trans h2)
    · rw [Cells.shelf, List.getD_eq_default _ _ (hc.shelves_eq ▸ not_lt.mp hsize)]
      exact .nil

-- A cell that is taken into use is free no more.
theorem Sound.freeCells_taken (hc : c.Sound m) (hc' : c'.Sound m')
    (hblocks : ∀ x, (c'.shelf x).blocks = (c.shelf x).blocks)
    (hused : ∀ x b, Used m' c'.listing x b ↔ Used m c.listing x b ∨ x = size ∧ b = a) (x : Nat) :
    c'.freeCells m' x = (c.freeCells m x).filter fun b => ¬(x = size ∧ b = a) := by
  unfold freeCells
  rw [hblocks, List.filter_filter]
  refine List.filter_congr fun b hb => ?_
  obtain ⟨block, hmem, hb⟩ := List.mem_flatMap.mp hb
  obtain ⟨i, hi, rfl⟩ := List.mem_map.mp hb
  have hlisted := mem_listing.mpr ⟨hc.lt_of_mem_blocks hmem, hmem⟩
  have hiff : ∀ {c : Cells} {m : Memory}, (x, block) ∈ c.listing →
      (Block.isInUse m (Block.cellAt block x i) = true ↔ Used m c.listing x (Block.cellAt block x i)) :=
    fun h => ⟨fun hu => ⟨block, h, ⟨i, List.mem_range.mp hi, rfl⟩, hu⟩, fun hu => hu.choose_spec.2.2⟩
  have hmem' : block ∈ (c'.shelf x).blocks := by rwa [hblocks]
  have hlisted' := mem_listing.mpr ⟨hc'.lt_of_mem_blocks hmem', hmem'⟩
  have hbit := (@hiff c' m' hlisted').trans ((hused x _).trans (or_congr_left (hiff hlisted).symm))
  rw [Bool.eq_iff_iff]
  simp only [Bool.not_eq_true', Bool.and_eq_true, decide_eq_true_eq, Bool.eq_false_iff, Ne, hbit]
  tauto

end Cells

namespace CellAllocator

open Cells

variable {x x' : CellAllocator} {c c' : Cells} {m m' : Memory} {size a bytes : Nat}

-- A free cell that the allocator comes to: its block is stacked, or owned and searched no further.
def Reaches (c : Cells) (cursor : Option CellCursor) (size a : Nat) : Prop :=
  blockOf a ∈ (c.shelf size).available ∨
    ∃ owned i, cursor = some owned ∧ owned.next ≤ i ∧ i < SizeClass.perBlock size ∧
      a = Block.cellAt owned.block size i

-- An allocator that no other one disturbs.
structure Ready (x : CellAllocator) (c : Cells) (m : Memory) : Prop where
  cells : c.Sound m
  room : blockBytes + c.space.extent < Word.bound
  owns : x.Owns c
  length_eq : x.current.length = SizeClass.count
  nodup : (c.stacked ++ x.held).Nodup
  reaches : ∀ size, ∀ a ∈ c.freeCells m size, Reaches c (x.current.getD size none) size a
  -- Every stacked block has a free cell.
  stacked : ∀ size, ∀ block ∈ (c.shelf size).available, ∃ a ∈ c.freeCells m size, blockOf a = block

-- A cell is taken while some are free: no block is added, and the other free cells can still be reached.
structure Drawn (c : Cells) (m : Memory) (size a : Nat) (cursor : CellCursor) (c' : Cells) : Prop where
  space_eq : c'.space = c.space
  blocks_eq : ∀ x, (c'.shelf x).blocks = (c.shelf x).blocks
  others : ∀ x, x ≠ size → (c'.shelf x).available = (c.shelf x).available
  available : ∀ block ∈ (c'.shelf size).available, block ∈ (c.shelf size).available ∧ block ≠ blockOf a
  free : a ∈ c.freeCells m size
  reaches : ∀ b ∈ c.freeCells m size, b ≠ a → Reaches c' (some cursor) size b

namespace Ready

variable (h : x.Ready c m)
include h

theorem stacked_nodup (hsize : size < SizeClass.count) : (c.shelf size).available.Nodup :=
  (List.nodup_append.mp ((c.stacked_perm hsize).nodup_iff.mp (List.nodup_append.mp h.nodup).1)).1

theorem not_stacked (hsize : size < SizeClass.count) {cursor : CellCursor}
    (hcursor : x.current.getD size none = some cursor) : cursor.block ∉ (c.shelf size).available := by
  intro hmem
  have hstacked := (c.stacked_perm hsize).mem_iff.mpr (List.mem_append_left _ hmem)
  have hheld : cursor.block ∈ x.held := (held_perm hcursor).mem_iff.mpr List.mem_cons_self
  exact (List.nodup_append.mp h.nodup).2.2 _ hstacked _ hheld rfl

-- The next cell of a block that the allocator has at hand.
theorem drawn {block next j : Nat} (hb : (size, block) ∈ c.listing)
    (hj : j < SizeClass.perBlock size) (hc' : c'.space = c.space)
    (hblocks : ∀ x, (c'.shelf x).blocks = (c.shelf x).blocks)
    (hothers : ∀ x, x ≠ size → (c'.shelf x).available = (c.shelf x).available)
    (havailable : ∀ b ∈ (c'.shelf size).available, b ∈ (c.shelf size).available ∧ b ≠ block)
    (hfree : Block.isInUse m (Block.cellAt block size j) = false)
    (hbefore : ∀ k, next ≤ k → k < j → Block.isInUse m (Block.cellAt block size k) = true)
    (hreach : ∀ b ∈ c.freeCells m size, Reaches c' (some ⟨block, next⟩) size b) :
    Drawn c m size (Block.cellAt block size j) ⟨block, j + 1⟩ c' := by
  have hof := h.cells.listed.blockOf_cell hb hj
  refine ⟨hc', hblocks, hothers, fun b hmem => hof.symm ▸ havailable b hmem, ?_, fun b hb' hne => ?_⟩
  · exact mem_freeCells.mpr ⟨block, (mem_listing.mp hb).2, j, hj, rfl, hfree⟩
  · refine (hreach b hb').imp_right ?_
    rintro ⟨_, i, ⟨⟩, hi, hlt, rfl⟩
    refine ⟨_, i, rfl, ?_, hlt, rfl⟩
    -- what comes before it is in use
    obtain ⟨_, -, _, -, -, hu⟩ := mem_freeCells.mp hb'
    have hnot : ¬i < j := fun hij => by
      rw [hbefore i hi hij] at hu
      cases hu
    have hij : i ≠ j := fun heq => hne (heq ▸ rfl)
    show j + 1 ≤ i
    omega

-- A block is taken off the stack when the allocator has no free cell at hand.
theorem takeShelved_free (hsize : size < SizeClass.count) (hsome : c.freeCells m size ≠ [])
    (hreach : ∀ b ∈ c.freeCells m size, blockOf b ∈ (c.shelf size).available) (fuel : Nat) :
    ∃ a cursor c' m', takeShelved c m size (fuel + 1) = .ok (a, cursor, c', m') ∧
      Drawn c m size a cursor c' := by
  obtain ⟨b, hb⟩ := List.exists_mem_of_ne_nil _ hsome
  cases havailable : (c.shelf size).available with
  | nil =>
    have hmem := hreach b hb
    rw [havailable] at hmem
    cases hmem
  | cons top rest =>
    have hmem : top ∈ (c.shelf size).available := havailable ▸ List.mem_cons_self
    have hlisted := mem_listing.mpr ⟨hsize, h.cells.available size top hmem⟩
    have hnodup := h.stacked_nodup hsize
    rw [havailable] at hnodup
    obtain ⟨hnot, -⟩ := List.nodup_cons.mp hnodup
    have hlen : size < c.shelves.length := h.cells.shelves_eq ▸ hsize
    have hshelf := shelf_setShelf hlen { c.shelf size with available := rest }
    have htake : c.takeBlock m size =
        .ok (top, c.setShelf size { c.shelf size with available := rest }, m) := by
      rw [takeBlock, havailable]
    rcases h.cells.listed.takeCell?_first hlisted 0 with
      ⟨j, _, m', -, hj, rfl, hcell, hfree, hbefore⟩ | ⟨-, hall⟩
    · refine ⟨_, _, _, m', by simp only [takeShelved, htake, ok_bind, hcell]; rfl, ?_⟩
      refine h.drawn hlisted hj rfl (fun x => ?_) (fun x hx => ?_) (fun block hblock => ?_) hfree
        hbefore fun b' hb' => ?_
      · rw [hshelf]
        split
        · rename_i heq
          rw [heq]
        · rfl
      · rw [hshelf, if_neg hx]
      · rw [hshelf, if_pos rfl] at hblock
        rw [havailable]
        exact ⟨List.mem_cons_of_mem _ hblock, ne_of_mem_of_not_mem hblock hnot⟩
      · rw [Reaches, hshelf, if_pos rfl]
        have hin := hreach b' hb'
        rw [havailable] at hin
        rcases List.mem_cons.mp hin with htop | hrest
        · obtain ⟨block, hblock, i, hi, rfl, -⟩ := mem_freeCells.mp hb'
          rw [h.cells.listed.blockOf_cell (mem_listing.mpr ⟨hsize, hblock⟩) hi] at htop
          exact Or.inr ⟨_, i, rfl, Nat.zero_le i, hi, by rw [htop]⟩
        · exact Or.inl hrest
    · -- a stacked block has a free cell
      obtain ⟨b', hb', htop⟩ := h.stacked size top hmem
      obtain ⟨block, hblock, i, hi, rfl, hu⟩ := mem_freeCells.mp hb'
      rw [h.cells.listed.blockOf_cell (mem_listing.mpr ⟨hsize, hblock⟩) hi] at htop
      rw [htop, hall i (Nat.zero_le i) hi] at hu
      cases hu

-- The block that the allocator owns is searched first, then one is taken off the stack.
theorem take_free (hsize : size < SizeClass.count) (hsome : c.freeCells m size ≠ []) :
    ∃ a cursor c' m', x.take c m size = .ok (a, cursor, c', m') ∧ Drawn c m size a cursor c' := by
  have hreaches := h.reaches size
  unfold CellAllocator.take
  cases hcursor : x.current.getD size none with
  | none =>
    rw [hcursor] at hreaches
    refine h.takeShelved_free hsize hsome (fun b hb => (hreaches b hb).resolve_right ?_) _
    rintro ⟨_, _, hnone, -⟩
    cases hnone
  | some cursor =>
    obtain ⟨block, next⟩ := cursor
    have hb : (size, block) ∈ c.listing := h.owns size _ hcursor
    rw [hcursor] at hreaches
    rcases h.cells.listed.takeCell?_first hb next with
      ⟨j, _, m', hnext, hj, rfl, hcell, hfree, hbefore⟩ | ⟨hcell, hall⟩
    · simp only [hcell, ok_bind]
      refine ⟨_, _, c, m', rfl, h.drawn hb hj rfl (fun _ => rfl) (fun _ _ => rfl) (fun b hmem => ?_)
        hfree hbefore hreaches⟩
      exact ⟨hmem, ne_of_mem_of_not_mem hmem (h.not_stacked hsize hcursor)⟩
    · simp only [hcell, ok_bind]
      refine h.takeShelved_free hsize hsome (fun b hb' => (hreaches b hb').resolve_right ?_) _
      rintro ⟨_, i, ⟨⟩, hi, hlt, rfl⟩
      obtain ⟨_, -, _, -, -, hu⟩ := mem_freeCells.mp hb'
      rw [hall i hi hlt] at hu
      cases hu

-- A request takes one of the free cells of its size class.
theorem alloc_free (hclass : SizeClass.forBytes? bytes = some size) (hsome : c.freeCells m size ≠ []) :
    ∃ a x' c' m', x.alloc c m bytes wordBytes = .ok (a, x', c', m') ∧ x'.Ready c' m' ∧
      c'.space = c.space ∧ (∀ y, (c'.shelf y).blocks = (c.shelf y).blocks) ∧
      ∀ y, (c'.freeCells m' y).length + (if y = size then 1 else 0) = (c.freeCells m y).length := by
  obtain ⟨hsize, -⟩ := SizeClass.forBytes?_some hclass
  obtain ⟨a, cursor, c', m₁, htake, hdrawn⟩ := h.take_free hsize hsome
  have hrun : x.alloc c m bytes wordBytes =
      .ok (a, ⟨x.current.set size (some cursor)⟩, c', m₁.zero a (SizeClass.bytes size)) := by
    simp only [CellAllocator.alloc, lt_irrefl, if_false, hclass, htake, ok_bind]
  obtain ⟨hb, htaken⟩ := h.owns.take h.cells hsize h.room htake
  have hoff := htaken.zero.2
  have hsound : c'.Sound (m₁.zero a (SizeClass.bytes size)) :=
    htaken.sound.setMemory (htaken.sound.listed.congr hoff)
  have hcells := h.cells.freeCells_taken hsound hdrawn.blocks_eq fun y b =>
    (htaken.sound.listed.used_congr hoff y b).trans (htaken.used_iff y b)
  have hcurrent : ∀ y, (x.current.set size (some cursor)).getD y none =
      if y = size then some cursor else x.current.getD y none := fun y => by
    have hlt : size < x.current.length := h.length_eq ▸ hsize
    rw [List.getD_eq_getElem?_getD, List.getElem?_set, List.getD_eq_getElem?_getD]
    split_ifs <;> first | rfl | omega
  refine ⟨a, _, c', _, hrun, ?_, hdrawn.space_eq, hdrawn.blocks_eq, fun y => ?_⟩
  · refine ⟨hsound, hdrawn.space_eq ▸ h.room, (h.owns.mono htaken.listing_subset).set hb,
      (List.length_set ..).trans h.length_eq, ?_, fun y b hb' => ?_, fun y block hblock => ?_⟩
    · have hold : (c.stacked ++ (x.held ++ [])).Nodup := by
        rw [List.append_nil]
        exact h.nodup
      have hnone : ∀ block ∈ ([] : List Nat), block ∈ c.listing.map Prod.snd := fun _ hmem =>
        absurd hmem List.not_mem_nil
      have hnew := nodup_set (h.owns.take_nodup h.cells hsize h.room hold hnone htake)
      rwa [List.append_nil] at hnew
    · rw [hcells, List.mem_filter, decide_eq_true_eq] at hb'
      rw [hcurrent]
      split
      · rename_i hy
        subst hy
        exact hdrawn.reaches b hb'.1 fun heq => hb'.2 ⟨rfl, heq⟩
      · rename_i hy
        have hold := h.reaches y b hb'.1
        rwa [Reaches, ← hdrawn.others y hy] at hold
    · have hmem : block ∈ (c.shelf y).available ∧ (y = size → block ≠ blockOf a) := by
        by_cases hy : y = size
        · subst hy
          exact (hdrawn.available block hblock).imp_right fun hne _ => hne
        · exact ⟨hdrawn.others y hy ▸ hblock, fun heq => absurd heq hy⟩
      obtain ⟨b, hb', rfl⟩ := h.stacked y block hmem.1
      refine ⟨b, ?_, rfl⟩
      rw [hcells, List.mem_filter, decide_eq_true_eq]
      exact ⟨hb', fun h => hmem.2 h.1 (h.2 ▸ rfl)⟩
  · rw [hcells]
    split
    · rename_i hy
      subst hy
      have hpos := List.length_pos_of_mem hdrawn.free
      have herase := (h.cells.nodup_freeCells y).erase_eq_filter a
      have hlength := List.length_erase_of_mem hdrawn.free
      rw [herase] at hlength
      have hsame : (c.freeCells m y).filter (fun b => ¬(y = y ∧ b = a)) =
          (c.freeCells m y).filter (· != a) :=
        List.filter_congr fun b _ => by rw [Bool.eq_iff_iff]; simp
      rw [hsame]
      omega
    · rename_i hy
      have hall : ∀ b ∈ c.freeCells m y, (decide (¬(y = size ∧ b = a))) = true :=
        fun b _ => decide_eq_true fun h => hy h.1
      rw [List.filter_eq_self.mpr hall, Nat.add_zero]

-- With no cell of its size class left free, a request is served from a fresh block or not at all.
theorem alloc_full (hclass : SizeClass.forBytes? bytes = some size) (hnone : c.freeCells m size = []) :
    Affords (x.alloc c m bytes wordBytes) fun r =>
      ∃ block, (r.2.2.1.shelf size).blocks = block :: (c.shelf size).blocks := by
  obtain ⟨hsize, hbytes⟩ := SizeClass.forBytes?_some hclass
  have hlargest := (SizeClass.bytes_mem hsize).2.2
  refine (h.owns.alloc_affords h.cells h.room (hbytes.trans hlargest)).attach ?_
  rintro ⟨a, x', c', m'⟩ hrun -
  obtain ⟨size', cursor, m₁, hclass', htake, -, -⟩ := alloc_ok hrun
  rw [hclass] at hclass'
  cases hclass'
  have hempty : ∀ b, b ∉ c.freeCells m size := fun b hb => by
    rw [hnone] at hb
    cases hb
  have hempty' : (c.shelf size).available = [] := by
    refine List.eq_nil_iff_forall_not_mem.mpr fun block hblock => ?_
    obtain ⟨b, hb, -⟩ := h.stacked size block hblock
    exact hempty b hb
  -- so the block that the allocator owns has no free cell, and none is stacked
  have hshelved : takeShelved c m size ((c.shelf size).available.length + c.space.totalPages + 1) =
      .ok (a, cursor, c', m₁) := by
    unfold CellAllocator.take at htake
    cases hcursor : x.current.getD size none with
    | none =>
      rw [hcursor] at htake
      exact htake
    | some cursor₀ =>
      obtain ⟨block, next⟩ := cursor₀
      have hb : (size, block) ∈ c.listing := h.owns size _ hcursor
      rw [hcursor] at htake
      rcases h.cells.listed.takeCell?_first hb next with
        ⟨j, _, m₂, -, hj, -, -, hfree, -⟩ | ⟨hcell, -⟩
      · exact absurd (mem_freeCells.mpr ⟨block, (mem_listing.mp hb).2, j, hj, rfl, hfree⟩) (hempty _)
      · simpa only [hcell, ok_bind] using htake
  rw [takeShelved] at hshelved
  obtain ⟨⟨block, c₁, m₂⟩, hblock, hshelved⟩ := bind_eq_ok.mp hshelved
  rw [takeBlock, hempty'] at hblock
  obtain ⟨hsteady, hlisted⟩ := h.cells.takeBlock hsize h.room (by rw [takeBlock, hempty']; exact hblock)
  have hblocks : (c₁.shelf size).blocks = block :: (c.shelf size).blocks := by
    obtain ⟨⟨block', s⟩, -, hadd⟩ := bind_eq_ok.mp hblock
    cases hadd
    rw [shelf_setShelf (h.cells.shelves_eq ▸ hsize), if_pos rfl]
  rcases hsteady.sound.listed.takeCell?_first hlisted 0 with
    ⟨j, _, m₃, -, -, -, hcell, -⟩ | ⟨-, hall⟩
  · simp only [hcell, ok_bind] at hshelved
    cases hshelved
    exact ⟨block, hblocks⟩
  · have hpos := SizeClass.perBlock_pos hsize
    have hfree := h.cells.addBlock_free hsize h.room hblock hpos
    rw [hall 0 (le_refl 0) hpos] at hfree
    cases hfree

end Ready

-- Words are aligned enough for any request that asks for no more than that.
theorem alloc_align {align : Nat} (h : align ≤ wordBytes) :
    x.alloc c m bytes align = x.alloc c m bytes wordBytes := by
  simp only [CellAllocator.alloc, if_neg (not_lt.mpr h), lt_irrefl, if_false]

-- One request after another, each for some bytes and an alignment.
def serve (state : CellAllocator × Cells × Memory) (request : Nat × Nat) :
    Except Fault (CellAllocator × Cells × Memory) := do
  let (x, c, m) := state
  let (_, x, c, m) ← x.alloc c m request.1 request.2
  .ok (x, c, m)

-- How many of some requests a size class serves.
def demand (requests : List (Nat × Nat)) (size : Nat) : Nat :=
  requests.countP fun request => SizeClass.forBytes? request.1 = some size

-- A request that cells can serve.
def Servable (request : Nat × Nat) : Prop := request.1 ≤ SizeClass.largest ∧ request.2 ≤ wordBytes

-- Requests are served as long as no size class is asked for more than its free cells.
theorem Ready.serve_free (h : x.Ready c m) {requests : List (Nat × Nat)}
    (hservable : ∀ request ∈ requests, Servable request)
    (hdemand : ∀ size, demand requests size ≤ (c.freeCells m size).length) :
    ∃ x' c' m', requests.foldlM serve (x, c, m) = .ok (x', c', m') ∧ x'.Ready c' m' ∧
      c'.space = c.space ∧ (∀ size, (c'.shelf size).blocks = (c.shelf size).blocks) ∧
      ∀ size, (c'.freeCells m' size).length + demand requests size = (c.freeCells m size).length := by
  induction requests generalizing x c m with
  | nil => exact ⟨x, c, m, rfl, h, rfl, fun _ => rfl, fun _ => rfl⟩
  | cons request requests ih =>
    obtain ⟨⟨hbytes, halign⟩, hservable⟩ := List.forall_mem_cons.mp hservable
    obtain ⟨size, hsize⟩ := SizeClass.forBytes?_ok hbytes
    have hcons : ∀ y, demand (request :: requests) y = demand requests y + if y = size then 1 else 0 :=
      fun y => by simp [demand, List.countP_cons, hsize, eq_comm]
    have hsome : c.freeCells m size ≠ [] := fun hnil => by
      have hle := hdemand size
      rw [hcons, if_pos rfl, hnil, List.length_nil] at hle
      omega
    obtain ⟨a, x₁, c₁, m₁, hrun, hready, hspace, hblocks, hcells⟩ := h.alloc_free hsize hsome
    obtain ⟨x', c', m', hrest, hready', hspace', hblocks', hcells'⟩ := ih hready hservable fun y => by
      have hle := hdemand y
      have hstep := hcells y
      rw [hcons] at hle
      omega
    refine ⟨x', c', m', ?_, hready', hspace'.trans hspace, fun y => (hblocks' y).trans (hblocks y),
      fun y => ?_⟩
    · rw [List.foldlM_cons]
      simp only [serve, alloc_align halign, hrun, ok_bind]
      exact hrest
    · have hstep := hcells y
      have hrest := hcells' y
      rw [hcons]
      omega

-- An allocator uses up the free cells of every size class before a block is added for it.
def Exhausts (x : CellAllocator) (c : Cells) (m : Memory) : Prop :=
  ∀ requests : List (Nat × Nat), (∀ request ∈ requests, Servable request) →
    (∀ size, demand requests size ≤ (c.freeCells m size).length) →
    ∃ x' c' m', requests.foldlM serve (x, c, m) = .ok (x', c', m') ∧ c'.space = c.space ∧
      (∀ size, (c'.shelf size).blocks = (c.shelf size).blocks) ∧
      ∀ request size, Servable request → SizeClass.forBytes? request.1 = some size →
        demand requests size = (c.freeCells m size).length →
        Affords (x'.alloc c' m' request.1 request.2) fun r =>
          ∃ block, (r.2.2.1.shelf size).blocks = block :: (c.shelf size).blocks

theorem Ready.exhausts (h : x.Ready c m) : x.Exhausts c m := by
  intro requests hservable hdemand
  obtain ⟨x', c', m', hrun, hready, hspace, hblocks, hcells⟩ := h.serve_free hservable hdemand
  refine ⟨x', c', m', hrun, hspace, hblocks, fun request size hrequest hsize hall => ?_⟩
  have hnone := hcells size
  have hfull := hready.alloc_full hsize (List.length_eq_zero_iff.mp (by omega))
  rw [alloc_align hrequest.2]
  rwa [hblocks] at hfull

end CellAllocator

end Reclaim
