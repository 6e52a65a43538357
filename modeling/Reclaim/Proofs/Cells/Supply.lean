import Reclaim.Proofs.Cells.Pool
import Reclaim.Proofs.Worklist

/-!
Allocation ends: it answers a cell unless the space is exhausted.
-/
namespace Reclaim

open Sizes

variable {α β : Type}

-- Memory has run out: no buffers can be had, or a space has no pages left for a request.
inductive Fault.IsStarvation : Fault → Prop
  | buffers : IsStarvation .capacityOverflow
  | pages {space : String} {pages used total : Nat} :
    IsStarvation (.fatal (.spaceExhausted space pages used total))

-- The computation has a result, unless memory runs out.
def Affords (x : Except Fault α) (P : α → Prop) : Prop :=
  (∃ a, x = .ok a ∧ P a) ∨ ∃ f, x = .error f ∧ f.IsStarvation

namespace Affords

variable {x : Except Fault α} {P : α → Prop} {Q : β → Prop}

theorem ok {a : α} (h : P a) : Affords (.ok a) P := Or.inl ⟨a, rfl, h⟩

theorem of_ok {a : α} (hx : x = .ok a) (h : P a) : Affords x P := Or.inl ⟨a, hx, h⟩

theorem mono (h : Affords x P) {P' : α → Prop} (hp : ∀ a, P a → P' a) : Affords x P' :=
  h.imp_left fun ⟨a, hx, ha⟩ => ⟨a, hx, hp a ha⟩

-- A result that there is has whatever properties follow from there being one.
theorem attach (h : Affords x P) {P' : α → Prop} (hp : ∀ a, x = .ok a → P a → P' a) :
    Affords x P' :=
  h.imp_left fun ⟨a, hx, ha⟩ => ⟨a, hx, hp a hx ha⟩

theorem bind {g : α → Except Fault β} (h : Affords x P) (hg : ∀ a, P a → Affords (g a) Q) :
    Affords (x >>= g) Q := by
  rcases h with ⟨a, rfl, ha⟩ | ⟨f, rfl, hf⟩
  · exact hg a ha
  · exact Or.inr ⟨f, rfl, hf⟩

theorem foldlM {f : β → α → Except Fault β} (inv : List α → β → Prop)
    (step : ∀ a rest b, inv (a :: rest) b → Affords (f b a) (inv rest))
    (xs : List α) (b : β) (h : inv xs b) : Affords (xs.foldlM f b) (inv []) := by
  induction xs generalizing b with
  | nil => exact ok h
  | cons a rest ih =>
    rw [List.foldlM_cons]
    exact (step a rest b h).bind fun b' hb' => ih b' hb'

end Affords

theorem Sizes.checkTable_affords (words : Nat) : Affords (checkTable words) fun _ => True := by
  unfold checkTable
  split
  · exact .ok trivial
  · exact Or.inr ⟨_, rfl, .buffers⟩

namespace Space

variable {s : Space} {out : List Run} {m : Memory}

-- The pages of a run that was taken can be committed.
theorem Taken.commit_ok {r : Run} {s' : Space} (h : s.Taken out r s') (hs : s.Sound out m) :
    s'.commit r.first r.pages = .ok () := by
  obtain ⟨hstart, hextent, hstop⟩ := range_congr h.mapping_eq
  have hbound := hs.stop_lt
  have hdvd := hs.extent_dvd
  have hfits := h.mapped_fits
  have hle := h.stop_le
  have hmapped := h.highWater_le
  simp only [Run.stop] at hle
  have htop : (r.first + r.pages) * pageBytes ≤ s.extent :=
    (Nat.mul_le_mul_right _ (hle.trans hmapped)).trans hfits
  simp only [stop, pageBytes, blockBytes] at hbound htop hdvd
  have hlt : (r.first + r.pages) * 4096 < Word.bound := by omega
  have hsum : Word.add r.first r.pages = .ok (r.first + r.pages) := Word.add_ok (by omega)
  have hfirst : pagesToBytes r.first = r.first * 4096 := by
    have hbelow : r.first * 4096 < Word.bound :=
      (Nat.mul_le_mul_right _ (Nat.le_add_right _ _)).trans_lt hlt
    rw [pagesToBytes, pageBytes, Nat.mod_eq_of_lt hbelow]
  have hbytes : pagesToBytes (r.first + r.pages) = (r.first + r.pages) * 4096 := by
    rw [pagesToBytes, pageBytes, Nat.mod_eq_of_lt hlt]
  have hnext : Word.nextMultiple ((r.first + r.pages) * 4096) pageBytes =
      .ok ((r.first + r.pages) * 4096) := Word.nextMultiple_self (Dvd.intro_left _ rfl)
  have hmin : min ((r.first + r.pages) * 4096) s'.extent = (r.first + r.pages) * 4096 := by
    rw [hextent]
    omega
  have hsub : Word.sub ((r.first + r.pages) * 4096) (r.first * 4096) = .ok (r.pages * 4096) := by
    rw [Word.sub_ok (Nat.mul_le_mul_right _ (Nat.le_add_right _ _)), Nat.add_mul,
      Nat.add_sub_cancel_left]
  have hlength : s'.mapping.length = s.extent := hextent
  have hrange : s'.mapping.Fits (r.first * 4096) (r.pages * 4096) := by
    rw [Nat.add_mul] at htop hlt
    exact ⟨Nat.dvd_mul_left _ _, Nat.dvd_mul_left _ _, hlength ▸ htop, hlt⟩
  simp only [commit, hsum, ok_bind, hbytes, hnext, hmin, hfirst, hsub, Mapping.commit,
    Mapping.checkRange_ok hrange]

theorem Sound.acquire_affords (hs : s.Sound out m) {pages rounded : Nat}
    (hround : s.roundPages (max pages 1) = .ok rounded)
    (hroom : rounded * pageBytes + s.extent < Word.bound) :
    Affords (s.acquire pages) fun _ => True := by
  obtain ⟨hle, -, hdvd⟩ := Word.nextMultiple_ok hs.unit_pos hround
  have hpos : 0 < rounded := by omega
  have htake : Affords (s.take rounded) fun _ => True := by
    unfold Space.take
    split
    · exact .ok trivial
    · have hfits := hs.fits
      simp only [pageBytes] at hfits hroom
      rw [Word.add_ok (by omega), ok_bind]
      split
      · exact Or.inr ⟨_, rfl, .pages⟩
      · exact .ok trivial
  rw [Space.acquire, hround, ok_bind]
  refine (htake.attach fun q hq _ => hs.take hpos hdvd hroom hq).bind fun q hq => ?_
  have hsmall := hq.pagesToBytes_first hs.stop_lt
  obtain ⟨hstart, hextent, -⟩ := range_congr hq.mapping_eq
  have hcommit := hq.commit_ok hs
  simp only at hcommit hsmall
  have haddress : Word.add q.2.start (pagesToBytes q.1) = .ok (s.start + pageBytes * q.1) := by
    have hstop := hq.stop_le
    have hmapped := hq.highWater_le
    have hfits := hq.mapped_fits
    have hbound := hs.stop_lt
    simp only [Run.stop, stop, pageBytes] at hstop hfits hbound ⊢
    rw [hsmall, hstart]
    exact Word.add_ok (by simp only [pageBytes]; omega)
  simp only [hcommit, ok_bind, haddress]
  exact .ok trivial

end Space

theorem SizeClass.forBytes?_ok {bytes : Nat} (h : bytes ≤ largest) :
    ∃ size, forBytes? bytes = some size := by
  rw [← Option.isSome_iff_exists, forBytes?, List.findIdx?_isSome, List.any_eq_true]
  exact ⟨largest, by decide, decide_eq_true h⟩

theorem SizeClass.perBlock_pos {size : Nat} (h : size < count) : 0 < perBlock size := by
  obtain ⟨-, h1, h2⟩ := bytes_mem h
  refine Nat.div_pos (h2.trans ?_) (by omega)
  decide

namespace Cells

variable {c : Cells} {m : Memory} {size block : Nat} {s : Space} {B : List (Nat × Nat)}

-- A search finds the first cell that is not in use.
theorem Listed.findFrom?_first (h : Listed s m B) (hb : (size, block) ∈ B) (cells i : Nat)
    (hi : i + cells ≤ SizeClass.perBlock size) :
    (∃ j, i ≤ j ∧ j < i + cells ∧
        Block.findFrom? m block i cells = .ok (some (j, Block.cellAt block size j)) ∧
        Block.isInUse m (Block.cellAt block size j) = false ∧ ∀ k, i ≤ k → k < j → Block.isInUse m (Block.cellAt block size k) = true) ∨
      Block.findFrom? m block i cells = .ok none ∧
        ∀ k, i ≤ k → k < i + cells → Block.isInUse m (Block.cellAt block size k) = true := by
  induction cells generalizing i with
  | zero => exact Or.inr ⟨rfl, fun k h1 h2 => absurd h2 (by omega)⟩
  | succ cells ih =>
    have hcell := h.cell_ok hb (show i < SizeClass.perBlock size by omega)
    have hmem := cell_mem block (show i < SizeClass.perBlock size by omega)
    have hpos := (SizeClass.bytes_mem (h.size_lt _ hb)).2.1
    simp only at hpos
    have hlt : ¬block + blockBytes ≤ Block.cellAt block size i := by omega
    simp only [Block.findFrom?, hcell, ok_bind, hlt, if_false]
    split
    · rename_i hu
      have hstep : ∀ {k}, i ≤ k → k ≠ i → i + 1 ≤ k := fun h1 h2 => by omega
      rcases ih (i + 1) (by omega) with
        ⟨j, h1, h2, hfind, hfree, hbefore⟩ | ⟨hfind, hall⟩
      · refine Or.inl ⟨j, by omega, by omega, hfind, hfree, fun k h3 h4 => ?_⟩
        by_cases hk : k = i
        · exact hk ▸ hu
        · exact hbefore k (hstep h3 hk) h4
      · refine Or.inr ⟨hfind, fun k h3 h4 => ?_⟩
        by_cases hk : k = i
        · exact hk ▸ hu
        · exact hall k (hstep h3 hk) (by omega)
    · rename_i hu
      exact Or.inl ⟨i, le_refl _, by omega, rfl, Bool.eq_false_iff.mpr hu,
        fun k h1 h2 => absurd h2 (by omega)⟩

-- Taking a cell of a block passes over no free cell.
theorem Listed.takeCell?_first (h : Listed s m B) (hb : (size, block) ∈ B) (next : Nat) :
    (∃ j cursor m', next ≤ j ∧ j < SizeClass.perBlock size ∧ cursor = ⟨block, j + 1⟩ ∧
        CellAllocator.takeCell? m ⟨block, next⟩ = .ok (some (Block.cellAt block size j, cursor, m')) ∧
        Block.isInUse m (Block.cellAt block size j) = false ∧ ∀ k, next ≤ k → k < j → Block.isInUse m (Block.cellAt block size k) = true) ∨
      CellAllocator.takeCell? m ⟨block, next⟩ = .ok none ∧
        ∀ k, next ≤ k → k < SizeClass.perBlock size →
          Block.isInUse m (Block.cellAt block size k) = true := by
  have hcount : Block.cellCount m block = SizeClass.perBlock size := (h.formed _ hb).cellCount_eq
  simp only [CellAllocator.takeCell?, Block.findFree?, hcount]
  by_cases hn : next ≤ SizeClass.perBlock size
  · rcases h.findFrom?_first hb (SizeClass.perBlock size - next) next (by omega) with
      ⟨j, h1, h2, hfind, hfirst⟩ | ⟨hfind, hall⟩
    · exact Or.inl ⟨j, _, _, h1, by omega, rfl, by rw [hfind]; rfl, hfirst⟩
    · exact Or.inr ⟨by rw [hfind]; rfl, fun k h1 h2 => hall k h1 (by omega)⟩
  · have hzero : SizeClass.perBlock size - next = 0 := by omega
    exact Or.inr ⟨by rw [hzero]; rfl, fun k h1 h2 => absurd h2 (by omega)⟩

theorem Listed.takeCell?_ok (h : Listed s m B) (hb : (size, block) ∈ B) (next : Nat) :
    ∃ found, CellAllocator.takeCell? m ⟨block, next⟩ = .ok found ∧ (found = none → next = 0 →
      ∀ j < SizeClass.perBlock size, Block.isInUse m (Block.cellAt block size j) = true) := by
  rcases h.takeCell?_first hb next with ⟨j, cursor, m', -, -, -, htake, -⟩ | ⟨htake, hall⟩
  · exact ⟨_, htake, fun hnone => absurd hnone (Option.some_ne_none _)⟩
  · exact ⟨none, htake, fun _ hzero k hk => hall k (by omega) hk⟩

theorem Sound.addBlock_affords (hc : c.Sound m) (hroom : blockBytes + c.space.extent < Word.bound)
    (size : Nat) : Affords (c.addBlock m size) fun _ => True := by
  have hround : c.space.roundPages (max blockPages 1) = .ok blockPages := by
    rw [Space.roundPages, hc.listed.unit_eq]
    rfl
  have hacquire := hc.listed.space.acquire_affords hround (by
    simp only [blockPages, blockBytes, pageBytes] at hroom ⊢
    omega)
  exact hacquire.bind fun _ _ => .ok trivial

-- No cell of a fresh block is in use.
theorem Sound.addBlock_free (hc : c.Sound m) (hsize : size < SizeClass.count)
    (hroom : blockBytes + c.space.extent < Word.bound) {c' : Cells} {m' : Memory}
    (h : c.addBlock m size = .ok (block, c', m')) {i : Nat} (hi : i < SizeClass.perBlock size) :
    Block.isInUse m' (Block.cellAt block size i) = false := by
  obtain ⟨s, hacquire, rfl, rfl⟩ := addBlock_ok h
  obtain ⟨hlisted, hused, -⟩ := hc.listed.add hsize hacquire hroom
  have hmem : (size, block) ∈ (size, block) :: c.listing := List.mem_cons_self
  refine Bool.eq_false_iff.mpr fun hu => ?_
  -- what is in use now was in use before, but the block was not listed
  have hold := hc.listed.block_of_used ((hused size _).mp ⟨block, hmem, ⟨i, hi, rfl⟩, hu⟩)
  rw [hlisted.blockOf_cell hmem hi] at hold
  exact (List.nodup_cons.mp hlisted.nodup_blocks).1 (List.mem_map_of_mem hold)

-- A fresh block has a free cell, so no more blocks are looked at than are stacked, and one.
theorem Sound.takeShelved_affords (hc : c.Sound m) (hsize : size < SizeClass.count)
    (hroom : blockBytes + c.space.extent < Word.bound) (fuel : Nat) (hfuel : (c.shelf size).available.length < fuel) :
    Affords (CellAllocator.takeShelved c m size fuel) fun _ => True := by
  induction fuel generalizing c m with
  | zero => omega
  | succ fuel ih =>
    have htake : Affords (c.takeBlock m size) fun q => c.takeBlock m size = .ok q := by
      unfold Cells.takeBlock
      split
      · exact .ok rfl
      · exact (hc.addBlock_affords hroom size).attach fun q hq _ => hq
    rw [CellAllocator.takeShelved]
    refine htake.bind ?_
    rintro ⟨block, c', m'⟩ hrun
    obtain ⟨hsteady, hmem⟩ := hc.takeBlock hsize hroom hrun
    obtain ⟨found, hfound, hfull⟩ := hsteady.sound.listed.takeCell?_ok hmem 0
    simp only [hfound, ok_bind]
    cases found with
    | some p => exact .ok trivial
    | none =>
      have hextent := (Space.range_congr hsteady.mapping_eq).2.1
      refine ih hsteady.sound (hextent ▸ hroom) ?_
      unfold Cells.takeBlock at hrun
      split at hrun
      · rename_i top rest havailable
        cases hrun
        rw [havailable, List.length_cons] at hfuel
        rw [shelf_setShelf (hc.shelves_eq ▸ hsize), if_pos rfl]
        exact Nat.lt_of_succ_lt_succ hfuel
      · have hpos := SizeClass.perBlock_pos hsize
        have hfree := hc.addBlock_free hsize hroom hrun hpos
        rw [hfull rfl rfl 0 hpos] at hfree
        cases hfree

end Cells

namespace CellAllocator

variable {x : CellAllocator} {c : Cells} {m : Memory} {bytes : Nat}

-- A request that some size class serves is answered, unless the space is exhausted.
theorem Owns.alloc_affords (hx : x.Owns c) (hc : c.Sound m)
    (hroom : blockBytes + c.space.extent < Word.bound) (hbytes : bytes ≤ SizeClass.largest) :
    Affords (x.alloc c m bytes wordBytes) fun _ => True := by
  obtain ⟨size, hclass⟩ := SizeClass.forBytes?_ok hbytes
  have hsize := (SizeClass.forBytes?_some hclass).1
  have htake : Affords (x.take c m size) fun _ => True := by
    have hshelved := hc.takeShelved_affords hsize hroom
      ((c.shelf size).available.length + c.space.totalPages + 1) (by omega)
    unfold CellAllocator.take
    cases hcurrent : x.current.getD size none with
    | none => exact hshelved
    | some cursor =>
      obtain ⟨found, hfound, -⟩ := hc.listed.takeCell?_ok (hx size cursor hcurrent) cursor.next
      simp only [hfound, ok_bind]
      cases found with
      | none => exact hshelved
      | some p => exact .ok trivial
  simp only [CellAllocator.alloc, lt_irrefl, if_false, hclass]
  exact htake.bind fun _ _ => .ok trivial

end CellAllocator

end Reclaim
