import Reclaim.Proofs.Cells.Pool

/-!
Where the blocks of a pool are: stacked on a shelf, held by an allocator, or neither. A block is in one
such place at most, wherever cells are taken and blocks are given up.
-/
namespace Reclaim

open Sizes

namespace Cells

variable {c c' : Cells} {m m' : Memory} {size block : Nat} {rest : List Nat}

-- All stacked blocks.
def stacked (c : Cells) : List Nat :=
  (List.range SizeClass.count).flatMap fun size => (c.shelf size).available

-- The stacked blocks of the other size classes.
def stackedElse (c : Cells) (size : Nat) : List Nat :=
  ((List.range SizeClass.count).erase size).flatMap fun size => (c.shelf size).available

theorem stacked_perm (c : Cells) (hsize : size < SizeClass.count) :
    c.stacked.Perm ((c.shelf size).available ++ c.stackedElse size) := by
  have hperm := List.perm_cons_erase (List.mem_range.mpr hsize)
  have h := hperm.flatMap_right fun size => (c.shelf size).available
  rwa [List.flatMap_cons] at h

theorem stacked_setShelf (hs : c.shelves.length = SizeClass.count) (hsize : size < SizeClass.count)
    (shelf : Shelf) : (c.setShelf size shelf).stacked.Perm (shelf.available ++ c.stackedElse size) := by
  have h := (c.setShelf size shelf).stacked_perm hsize
  have helse : (c.setShelf size shelf).stackedElse size = c.stackedElse size := by
    unfold stackedElse
    refine List.flatMap_congr fun x hx => ?_
    have hne : x ≠ size := (List.Nodup.mem_erase_iff List.nodup_range).mp hx |>.1
    rw [shelf_setShelf (hs ▸ hsize), if_neg hne]
  rwa [helse, shelf_setShelf (hs ▸ hsize), if_pos rfl] at h

theorem Sound.mem_of_stacked (hc : c.Sound m) (hb : block ∈ c.stacked) :
    block ∈ c.listing.map Prod.snd := by
  obtain ⟨size, hsize, hb⟩ := List.mem_flatMap.mp hb
  exact List.mem_map_of_mem
    (mem_listing.mpr ⟨List.mem_range.mp hsize, hc.available size block hb⟩)

section Take

variable (hc : c.Sound m) (hsize : size < SizeClass.count)
variable (hroom : blockBytes + c.space.extent < Word.bound)
variable (hn : (c.stacked ++ rest).Nodup) (hrest : ∀ b ∈ rest, b ∈ c.listing.map Prod.snd)
include hc hsize hroom hn hrest

-- A block that was taken is not stacked, nor one of the others.
theorem Sound.takeBlock_nodup (h : c.takeBlock m size = .ok (block, c', m')) :
    (block :: (c'.stacked ++ rest)).Nodup := by
  unfold Cells.takeBlock at h
  cases hav : (c.shelf size).available with
  | cons top available =>
    rw [hav] at h
    cases h
    have hold := c.stacked_perm hsize
    rw [hav, List.cons_append] at hold
    have hnew := stacked_setShelf hc.shelves_eq hsize { c.shelf size with available }
    rw [← List.cons_append, ((hnew.cons block).append_right rest).nodup_iff]
    exact (hold.append_right rest).nodup_iff.mp hn
  | nil =>
    rw [hav] at h
    obtain ⟨s, hacquire, rfl, rfl⟩ := addBlock_ok h
    obtain ⟨hlisted, -⟩ := hc.listed.add hsize hacquire hroom
    -- a fresh block was not listed before
    have hfresh : block ∉ c.listing.map Prod.snd := (List.nodup_cons.mp hlisted.nodup_blocks).1
    have hsame : (({ c with space := s } : Cells).setShelf size
        { c.shelf size with blocks := block :: (c.shelf size).blocks }).stacked.Perm c.stacked :=
      (stacked_setShelf (c := { c with space := s }) hc.shelves_eq hsize _).trans
        (c.stacked_perm hsize).symm
    refine List.nodup_cons.mpr ⟨fun hmem => hfresh ?_, ?_⟩
    · rw [(hsame.append_right rest).mem_iff, List.mem_append] at hmem
      exact hmem.elim hc.mem_of_stacked (hrest block)
    · exact (hsame.append_right rest).nodup_iff.mpr hn

theorem Sound.takeShelved_nodup {fuel a : Nat} {cursor : CellCursor}
    (h : CellAllocator.takeShelved c m size fuel = .ok (a, cursor, c', m')) :
    (cursor.block :: (c'.stacked ++ rest)).Nodup := by
  induction fuel generalizing c m with
  | zero => cases h
  | succ fuel ih =>
    simp only [CellAllocator.takeShelved, bind_eq_ok, Prod.exists] at h
    obtain ⟨block, c₁, m₁, htake, found, hcell, h⟩ := h
    have hnodup := hc.takeBlock_nodup hsize hroom hn hrest htake
    obtain ⟨hsteady, hb⟩ := hc.takeBlock hsize hroom htake
    cases found with
    | none =>
      have hroom' : blockBytes + c₁.space.extent < Word.bound := by
        rwa [(Space.range_congr hsteady.mapping_eq).2.1]
      exact ih hsteady.sound hroom' (List.nodup_cons.mp hnodup).2
        (fun b hb => List.map_subset _ hsteady.listing_subset (hrest b hb)) h
    | some found =>
      obtain ⟨b, cursor₁, m₂⟩ := found
      cases h
      obtain ⟨hblock, -⟩ := hsteady.sound.takeCell? hb hcell
      exact hblock ▸ hnodup

end Take

end Cells

namespace CellAllocator

open Cells

variable {x x' : CellAllocator} {c c' : Cells} {m m' : Memory} {size a : Nat} {rest : List Nat}

-- The blocks that an allocator owns.
def held (x : CellAllocator) : List Nat := (x.current.filterMap id).map (·.block)

-- Those of the other size classes.
def heldElse (x : CellAllocator) (size : Nat) : List Nat :=
  ((x.current.eraseIdx size).filterMap id).map (·.block)

theorem heldElse_sublist (x : CellAllocator) (size : Nat) : (x.heldElse size).Sublist x.held :=
  ((List.eraseIdx_sublist _ _).filterMap id).map _

theorem held_perm {cursor : CellCursor} (h : x.current.getD size none = some cursor) :
    x.held.Perm (cursor.block :: x.heldElse size) := by
  have hlt : size < x.current.length := by
    by_contra hn
    rw [List.getD_eq_default _ _ (not_lt.mp hn)] at h
    cases h
  rw [List.getD_eq_getElem _ _ hlt] at h
  have hperm := ((List.getElem_cons_eraseIdx_perm hlt).symm.filterMap id).map CellCursor.block
  rwa [h] at hperm

theorem held_set_perm (hlt : size < x.current.length) (cursor : CellCursor) :
    (held ⟨x.current.set size (some cursor)⟩).Perm (cursor.block :: x.heldElse size) :=
  ((List.set_perm_cons_eraseIdx hlt (some cursor)).filterMap id).map CellCursor.block

theorem Owns.mem_of_held (hx : x.Owns c) {block : Nat} (hb : block ∈ x.held) :
    ∃ size, (size, block) ∈ c.listing := by
  obtain ⟨cursor, hcursor, rfl⟩ := List.mem_map.mp hb
  exact hx.mem_listing hcursor

theorem Owns.take_nodup (hx : x.Owns c) (hc : c.Sound m) (hsize : size < SizeClass.count)
    (hroom : blockBytes + c.space.extent < Word.bound)
    (hn : (c.stacked ++ (x.held ++ rest)).Nodup) (hrest : ∀ b ∈ rest, b ∈ c.listing.map Prod.snd)
    {cursor : CellCursor} (h : x.take c m size = .ok (a, cursor, c', m')) :
    (cursor.block :: (c'.stacked ++ (x.heldElse size ++ rest))).Nodup := by
  have hothers : ∀ b ∈ x.heldElse size ++ rest, b ∈ c.listing.map Prod.snd := by
    intro b hb
    rcases List.mem_append.mp hb with hb | hb
    · obtain ⟨size', hb⟩ := hx.mem_of_held ((x.heldElse_sublist size).subset hb)
      exact List.mem_map_of_mem hb
    · exact hrest b hb
  have hn' : (c.stacked ++ (x.heldElse size ++ rest)).Nodup :=
    hn.sublist (((x.heldElse_sublist size).append_right rest).append_left c.stacked)
  unfold CellAllocator.take at h
  cases hcur : x.current.getD size none with
  | none =>
    simp only [hcur, ok_bind] at h
    exact hc.takeShelved_nodup hsize hroom hn' hothers h
  | some cursor₀ =>
    simp only [hcur, bind_eq_ok] at h
    obtain ⟨owned, howned, h⟩ := h
    cases owned with
    | none => exact hc.takeShelved_nodup hsize hroom hn' hothers h
    | some owned =>
      obtain ⟨b, cursor₁, m₁⟩ := owned
      cases h
      obtain ⟨hblock, -⟩ := hc.takeCell? (hx size cursor₀ hcur) howned
      rw [hblock, ← List.perm_middle.nodup_iff, ← List.cons_append]
      exact (((held_perm hcur).append_right rest).append_left c.stacked).nodup_iff.mp hn

-- The allocator owns what it took, and what it owned before in other size classes.
theorem nodup_set {cursor : CellCursor}
    (h : (cursor.block :: (c'.stacked ++ (x.heldElse size ++ rest))).Nodup) :
    (c'.stacked ++ (held ⟨x.current.set size (some cursor)⟩ ++ rest)).Nodup := by
  by_cases hlt : size < x.current.length
  · rw [(((held_set_perm hlt cursor).append_right rest).append_left c'.stacked).nodup_iff,
      List.cons_append, List.perm_middle.nodup_iff]
    exact h
  · have hle := not_lt.mp hlt
    rw [List.set_eq_of_length_le hle]
    have hsame : x.heldElse size = x.held := by
      unfold heldElse
      rw [List.eraseIdx_of_length_le hle, held]
    rw [← hsame]
    exact (List.nodup_cons.mp h).2

theorem giveUp_nodup {cursor : CellCursor} (hs : c.shelves.length = SizeClass.count)
    (hn : (c.stacked ++ cursor.block :: rest).Nodup) (h : giveUp m c cursor = .ok c') :
    c'.shelves.length = SizeClass.count ∧ (c'.stacked ++ rest).Nodup := by
  unfold giveUp at h
  split at h
  · simp only [giveBack] at h
    split at h
    · rename_i hsize
      cases h
      refine ⟨by simp only [setShelf, List.length_set]; exact hs, ?_⟩
      have hnew := stacked_setShelf hs hsize { c.shelf (Block.size m cursor.block) with
        available := cursor.block :: (c.shelf (Block.size m cursor.block)).available }
      have hold := (c.stacked_perm hsize).cons cursor.block
      rw [((hnew.trans hold.symm).append_right rest).nodup_iff, List.cons_append,
        ← List.perm_middle.nodup_iff]
      exact hn
    · cases h
  · cases h
    exact ⟨hs, hn.sublist ((List.sublist_cons_self _ _).append_left _)⟩

theorem reset_nodup (hs : c.shelves.length = SizeClass.count)
    (hn : (c.stacked ++ (x.held ++ rest)).Nodup) (h : x.reset c m = .ok (x', c')) :
    (c'.stacked ++ rest).Nodup := by
  obtain ⟨c₁, hrun, hlast⟩ := bind_eq_ok.mp h
  cases hlast
  unfold held at hn
  clear h
  generalize x.current.filterMap id = cursors at hn hrun
  induction cursors generalizing c with
  | nil =>
    cases hrun
    exact hn
  | cons cursor cursors ih =>
    rw [List.foldlM_cons] at hrun
    obtain ⟨c₂, hgive, hrun⟩ := bind_eq_ok.mp hrun
    rw [List.map_cons, List.cons_append] at hn
    obtain ⟨hs₂, hn₂⟩ := giveUp_nodup hs hn hgive
    exact ih hs₂ hn₂ hrun

end CellAllocator

end Reclaim
