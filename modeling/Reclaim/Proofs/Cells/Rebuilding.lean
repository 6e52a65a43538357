import Reclaim.Proofs.Cells.Pass

/-!
The shelves after a pass. Blocks stay in order; those with a cell in use are kept, those among them with
a free cell are stacked, and all others are given back to the space.
-/
namespace Reclaim.Cells

open Sizes

-- The number of cells of a block that a pass leaves in use.
def leftIn (f : Nat → Nat) (m : Memory) (block : Nat) : Nat :=
  (Block.granules block).countP (Block.survives f m)

-- The shelf that a pass makes of some blocks of a size class.
def rebuilt (f : Nat → Nat) (m : Memory) (size : Nat) (blocks : List Nat) : Shelf where
  blocks := blocks.filter fun block => 0 < leftIn f m block
  available := blocks.filter fun block =>
    0 < leftIn f m block ∧ leftIn f m block < SizeClass.perBlock size

-- The number of blocks that a pass gives back.
def emptied (f : Nat → Nat) (m : Memory) (blocks : List Nat) : Nat :=
  blocks.countP fun block => leftIn f m block = 0

variable {f : Nat → Nat} {c c' : Cells} {s s' : Space} {m m' : Memory} {size block : Nat}

theorem Kept.live_settle_eq {todo : List Nat} {s : Space} {B : List (Nat × Nat)}
    (h : Kept f c m (block :: todo) s m' B) (hb : (size, block) ∈ B) :
    Block.live (Block.settle f m' block) block = leftIn f m block := by
  have hblock : block % blockBytes = 0 := h.listed.aligned _ hb
  rw [Block.live_eq_countP _ hblock, leftIn]
  refine List.countP_congr fun a ha => ?_
  have hof := ((Block.mem_granules hblock).mp ha).1
  have hword := h.words a (hof ▸ List.mem_cons_self)
  rw [Block.isInUse, Block.read_settle_bitmapWord f m' hblock, if_pos hof, hword, Block.survives]

-- What one visit does to the shelf that is rebuilt, and to the counts.
theorem Passing.visit_eq (hf : Settles f) {c₁ : Cells} {later rest : List Nat} {p p' : Pass}
    (h : Passing f c m c₁ size later (block :: rest) p) (hrun : p.visit f block = .ok p') :
    p'.shelf.blocks = (rebuilt f m size [block]).blocks ++ p.shelf.blocks ∧
      p'.shelf.available = (rebuilt f m size [block]).available ++ p.shelf.available ∧
      p'.stats.live = p.stats.live + leftIn f m block ∧
      p'.stats.released = p.stats.released + emptied f m [block] ∧
      p'.cells.space.highWater = p.cells.space.highWater := by
  have hb : (size, block) ∈ p.shelf.blocks.map (size, ·) ++ (block :: rest).map (size, ·) ++
      c₁.others size := by simp
  have hk := h.kept.settle hf hb
  have hcount : Block.cellCount (Block.settle f p.memory block) block = SizeClass.perBlock size :=
    (hk.listed.formed _ hb).cellCount_eq
  unfold Pass.visit at hrun
  simp only [h.kept.live_settle_eq hb, hcount] at hrun
  by_cases hzero : leftIn f m block = 0
  · rw [if_pos hzero] at hrun
    simp only [bind_eq_ok, Prod.exists] at hrun
    obtain ⟨s, m₁, hrelease, hrun⟩ := hrun
    cases hrun
    refine ⟨by simp [rebuilt, hzero], by simp [rebuilt, hzero], by simp [hzero],
      by simp [emptied, hzero], ?_⟩
    unfold Space.release at hrelease
    split at hrelease
    · cases hrelease
    · simp only [bind_eq_ok] at hrelease
      obtain ⟨_, -, m₂, -, hrelease⟩ := hrelease
      cases hrelease
      rfl
  · rw [if_neg hzero] at hrun
    cases hrun
    have hpos : 0 < leftIn f m block := Nat.pos_of_ne_zero hzero
    refine ⟨by simp [rebuilt, hpos], ?_, rfl, by simp [emptied, hzero], rfl⟩
    by_cases hlt : leftIn f m block < SizeClass.perBlock size <;> simp [rebuilt, hpos, hlt]

-- The shelf and the counts in the midst of the blocks of one size class, of which some are left.
structure Rebuilding (f : Nat → Nat) (m : Memory) (size : Nat) (shelf : Shelf)
    (live released highWater : Nat) (rest : List Nat) (p : Pass) : Prop where
  blocks : (rebuilt f m size rest.reverse).blocks ++ p.shelf.blocks = shelf.blocks
  available : (rebuilt f m size rest.reverse).available ++ p.shelf.available = shelf.available
  live : p.stats.live + (rest.map (leftIn f m)).sum = live
  released : p.stats.released + emptied f m rest = released
  highWater : p.cells.space.highWater = highWater

theorem Rebuilding.visit (hf : Settles f) {c₁ : Cells} {later rest : List Nat} {p p' : Pass}
    {shelf : Shelf} {live released highWater : Nat}
    (h : Passing f c m c₁ size later (block :: rest) p)
    (hr : Rebuilding f m size shelf live released highWater (block :: rest) p)
    (hrun : p.visit f block = .ok p') :
    Rebuilding f m size shelf live released highWater rest p' := by
  obtain ⟨hblocks, havailable, hlive, hreleased, hhigh⟩ := h.visit_eq hf hrun
  refine ⟨?_, ?_, ?_, ?_, hhigh.trans hr.highWater⟩
  · rw [hblocks, ← hr.blocks]
    simp only [rebuilt, List.reverse_cons, List.filter_append, List.append_assoc]
  · rw [havailable, ← hr.available]
    simp only [rebuilt, List.reverse_cons, List.filter_append, List.append_assoc]
  · rw [hlive, ← hr.live, List.map_cons, List.sum_cons, Nat.add_assoc]
  · rw [hreleased, ← hr.released, emptied, emptied, emptied, Nat.add_assoc, ← List.countP_append,
      List.singleton_append]

-- The shelves and the counts in the midst of a pass, with some size classes left.
structure Rebuilt (f : Nat → Nat) (c : Cells) (m : Memory) (sizes : List Nat) (p : Pass) : Prop where
  shelf : ∀ size < SizeClass.count, size ∉ sizes →
    p.cells.shelf size = rebuilt f m size (c.shelf size).blocks
  live : p.stats.live + ((sizes.flatMap fun size => (c.shelf size).blocks).map (leftIn f m)).sum =
    ((c.listing.map Prod.snd).map (leftIn f m)).sum
  released : p.stats.released + emptied f m (sizes.flatMap fun size => (c.shelf size).blocks) =
    emptied f m (c.listing.map Prod.snd)
  highWater : p.cells.space.highWater = c.space.highWater

theorem Rebuilt.visitShelf (hf : Settles f) {sizes : List Nat} (hsize : size < SizeClass.count)
    {p p' : Pass} (h : Between f c m (size :: sizes) p) (hr : Rebuilt f c m (size :: sizes) p)
    (hrun : p.visitShelf f size = .ok p') : Rebuilt f c m sizes p' := by
  have hsame := h.same size List.mem_cons_self
  have hlive := hr.live
  have hreleased := hr.released
  rw [List.flatMap_cons, List.map_append, List.sum_append] at hlive
  rw [List.flatMap_cons, emptied, List.countP_append] at hreleased
  have hstart : Rebuilding f m size (rebuilt f m size (c.shelf size).blocks)
      (p.stats.live + ((c.shelf size).blocks.map (leftIn f m)).sum)
      (p.stats.released + emptied f m (c.shelf size).blocks) c.space.highWater
      (p.cells.shelf size).blocks.reverse { p with shelf := {} } := by
    rw [hsame]
    refine ⟨?_, ?_, ?_, ?_, hr.highWater⟩
    · rw [List.reverse_reverse, List.append_nil]
    · rw [List.reverse_reverse, List.append_nil]
    · rw [List.map_reverse, List.sum_reverse]
    · rw [emptied, List.countP_reverse, emptied]
  obtain ⟨q, hfold, hpassing, hend⟩ := foldlM_ok
    (fun rest q => Passing f c m p.cells size (sizes.flatMap fun size => (c.shelf size).blocks) rest q ∧
      Rebuilding f m size _ _ _ _ rest q)
    (fun block rest q hq => by
      obtain ⟨q', hvisit, hq'⟩ := hq.1.visit hf
      exact ⟨q', hvisit, hq', hq.2.visit hf hq.1 hvisit⟩) _ _ ⟨h.enter hsize, hstart⟩
  simp only [Pass.visitShelf, hfold, ok_bind] at hrun
  cases hrun
  have hlen : q.cells.shelves.length = SizeClass.count := hpassing.shelves_eq ▸ h.shelves_eq
  refine ⟨fun x hx hmem => ?_, ?_, ?_, hend.highWater⟩
  · simp only
    rw [shelf_setShelf (hlen ▸ hsize)]
    split
    · rename_i heq
      have hblocks := hend.blocks
      have havailable := hend.available
      simp only [rebuilt, List.reverse_nil, List.filter_nil, List.nil_append] at hblocks havailable
      rw [heq, rebuilt, ← hblocks, ← havailable]
    · rename_i hne
      have hkeep : q.cells.shelf x = p.cells.shelf x := by
        rw [Cells.shelf, hpassing.shelves_eq, Cells.shelf]
      rw [hkeep]
      exact hr.shelf x hx fun hin => (List.mem_cons.mp hin).elim hne hmem
  · have hend := hend.live
    simp only [List.map_nil, List.sum_nil] at hend ⊢
    omega
  · have hend := hend.released
    simp only [emptied, List.countP_nil] at hend hreleased ⊢
    omega

-- A pass rebuilds every shelf.
theorem Sound.pass_rebuilt (hc : c.Sound m) (hf : Settles f) {stats : SweepStats}
    (hrun : c.pass f m = .ok (stats, c', m')) :
    (∀ size < SizeClass.count, c'.shelf size = rebuilt f m size (c.shelf size).blocks) ∧
      stats.live = ((c.listing.map Prod.snd).map (leftIn f m)).sum ∧
      stats.released = emptied f m (c.listing.map Prod.snd) ∧
      c'.space.highWater = c.space.highWater := by
  have hstart : Rebuilt f c m (List.range SizeClass.count) { cells := c, memory := m } := by
    refine ⟨fun size hsize hnot => absurd (List.mem_range.mpr hsize) hnot, ?_, ?_, rfl⟩
    · rw [flatMap_blocks, Nat.zero_add]
    · rw [flatMap_blocks, Nat.zero_add]
  obtain ⟨p, hfold, -, -, -, hend⟩ := foldlM_ok
    (fun rest p => (∀ size ∈ rest, size < SizeClass.count) ∧ rest.Nodup ∧ Between f c m rest p ∧
      Rebuilt f c m rest p)
    (fun size rest p h => by
      obtain ⟨hrest, hnodup, hp, hr⟩ := h
      obtain ⟨hnot, hnodup⟩ := List.nodup_cons.mp hnodup
      obtain ⟨p', hvisit, hp'⟩ := hp.visitShelf hf (hrest size List.mem_cons_self) hnot
      exact ⟨p', hvisit, fun x hx => hrest x (List.mem_cons_of_mem _ hx), hnodup, hp',
        hr.visitShelf hf (hrest size List.mem_cons_self) hp hvisit⟩)
    (List.range SizeClass.count) _
    ⟨fun size hsize => List.mem_range.mp hsize, List.nodup_range, hc.between f, hstart⟩
  simp only [Cells.pass, hfold, ok_bind] at hrun
  cases hrun
  refine ⟨fun size hsize => hend.shelf size hsize List.not_mem_nil, ?_, ?_, hend.highWater⟩
  · simpa using hend.live
  · simpa [emptied] using hend.released

-- The cells in use of a listed block.
theorem Listed.live_eq {s : Space} {B : List (Nat × Nat)} (h : Listed s m B) (hb : (size, block) ∈ B) :
    Block.live m block = (List.range (SizeClass.perBlock size)).countP fun i =>
      Block.isInUse m (Block.cellAt block size i) := by
  have hblock : block % blockBytes = 0 := h.aligned _ hb
  have hcells := nodup_cells (h.size_lt _ hb) block
  have hperm : ((Block.granules block).filter (Block.isInUse m)).Perm
      (((List.range (SizeClass.perBlock size)).map (Block.cellAt block size)).filter
        (Block.isInUse m)) := by
    refine (List.perm_ext_iff_of_nodup ((Block.nodup_granules block).filter _) (hcells.filter _)).mpr
      fun a => ?_
    simp only [List.mem_filter, Block.mem_granules hblock, List.mem_map, List.mem_range]
    refine and_congr_left fun hu => ⟨?_, ?_⟩
    · rintro ⟨hof, hmod⟩
      obtain ⟨i, hi, heq⟩ := h.cells _ hb a hof hmod hu
      exact ⟨i, hi, heq.symm⟩
    · rintro ⟨i, hi, rfl⟩
      exact ⟨h.blockOf_cell hb hi, cell_aligned hblock (h.size_lt _ hb)⟩
  rw [Block.live_eq_countP _ hblock, List.countP_eq_length_filter, hperm.length_eq,
    ← List.countP_eq_length_filter, List.countP_map]
  rfl

-- A block with a cell that is not in use.
theorem Listed.live_lt_iff {s : Space} {B : List (Nat × Nat)} (h : Listed s m B)
    (hb : (size, block) ∈ B) : Block.live m block < SizeClass.perBlock size ↔
      ∃ i < SizeClass.perBlock size, Block.isInUse m (Block.cellAt block size i) = false := by
  have hle := List.countP_le_length (l := List.range (SizeClass.perBlock size))
    (p := fun i => Block.isInUse m (Block.cellAt block size i))
  have hfull := List.countP_eq_length (l := List.range (SizeClass.perBlock size))
    (p := fun i => Block.isInUse m (Block.cellAt block size i))
  rw [List.length_range] at hle hfull
  rw [h.live_eq hb, Nat.lt_iff_le_and_ne, and_iff_right hle, Ne, hfull]
  simp

theorem sum_filter_pos {α : Type} (g : α → Nat) (l : List α) :
    ((l.filter fun x => 0 < g x).map g).sum = (l.map g).sum := by
  induction l with
  | nil => rfl
  | cons x l ih =>
    by_cases hx : 0 < g x
    · simp [hx, ih]
    · simp [ih, Nat.eq_zero_of_not_pos hx]

-- The cells in use of a pool, whatever their size classes.
def usedSet (c : Cells) (m : Memory) : Set Nat := { a | ∃ size, Used m c.listing size a }

-- All pages of a block are free, in one run.
def Spared (s : Space) (block : Nat) : Prop :=
  ∃ r ∈ s.free, s.start + pageBytes * r.first ≤ block ∧ block + blockBytes ≤ s.start + pageBytes * r.stop

-- What a pass does that leaves the cells in use of which `keeps` holds, and what it answers.
structure Settled (keeps : Nat → Prop) (c : Cells) (m : Memory) (stats : SweepStats) (c' : Cells)
    (m' : Memory) : Prop where
  used_iff : ∀ size a, Used m' c'.listing size a ↔ Used m c.listing size a ∧ keeps a
  unmarked : ∀ a, c'.contains a = true → Block.isMarked m' a = false
  live_eq : stats.live = (usedSet c' m').ncard
  freed_eq : stats.freed = (usedSet c m \ usedSet c' m').ncard
  -- The blocks that are left are those with a cell in use.
  listed : ∀ size block, (size, block) ∈ c'.listing ↔
    (size, block) ∈ c.listing ∧ ∃ a, Used m' c'.listing size a ∧ blockOf a = block
  returned : ∀ size block, (size, block) ∈ c.listing →
    (Spared c'.space block ↔ (size, block) ∉ c'.listing)
  released_eq : stats.released + c'.listing.length = c.listing.length
  nodup : ∀ size, (c'.shelf size).available.Nodup
  -- The blocks that are stacked are those with a cell that is not in use.
  stacked : ∀ size block, block ∈ (c'.shelf size).available ↔ (size, block) ∈ c'.listing ∧
    ∃ i < SizeClass.perBlock size, Block.isInUse m' (Block.cellAt block size i) = false

section Pass

variable (hc : c.Sound m) (hf : Settles f) (hp : Passed f c m c' m')
include hc hf hp

-- What stays in use of a block that was listed.
theorem Passed.isInUse_iff (hb : (size, block) ∈ c.listing) {a : Nat} (hof : blockOf a = block)
    (hmod : a % wordBytes = 0) : Block.isInUse m' a = true ↔ Block.survives f m a = true := by
  have hin : c.space.contains a = true := by
    have hmem := hc.listed.contains_of_mem hb (a := a)
    simp only [blockOf, blockBytes] at hof hmem
    exact hmem (by omega) (by omega)
  constructor
  · intro hu
    obtain ⟨size', hused⟩ := hp.sound.listed.used_of_isInUse
      ((Space.contains_congr hp.mapping_eq a).trans hin) hmod hu
    exact ((hp.used_iff size' a).mp hused).2
  · intro hs
    obtain ⟨size', hused⟩ :=
      hc.listed.used_of_isInUse hin hmod (hf.inUse _ _ (Block.place_lt a) hs)
    exact ((hp.used_iff size' a).mpr ⟨hused, hs⟩).choose_spec.2.2

theorem Passed.live_eq (hb : (size, block) ∈ c.listing) : Block.live m' block = leftIn f m block := by
  have hblock : block % blockBytes = 0 := hc.listed.aligned _ hb
  rw [Block.live_eq_countP _ hblock, leftIn]
  refine List.countP_congr fun a ha => ?_
  obtain ⟨hof, hmod⟩ := (Block.mem_granules hblock).mp ha
  exact hp.isInUse_iff hc hf hb hof hmod

-- A block is left with a cell in use.
theorem Passed.left_pos_iff (hb : (size, block) ∈ c.listing) : 0 < leftIn f m block ↔
    ∃ a, Used m' c'.listing size a ∧ blockOf a = block := by
  have hblock : block % blockBytes = 0 := hc.listed.aligned _ hb
  rw [leftIn, List.countP_pos_iff]
  constructor
  · rintro ⟨a, ha, hs⟩
    obtain ⟨hof, hmod⟩ := (Block.mem_granules hblock).mp ha
    have hu := hf.inUse _ _ (Block.place_lt a) hs
    obtain ⟨i, hi, heq⟩ := hc.listed.cells _ hb a hof hmod hu
    exact ⟨a, (hp.used_iff size a).mpr ⟨⟨block, hb, ⟨i, hi, heq⟩, hu⟩, hs⟩, hof⟩
  · rintro ⟨a, ha, hof⟩
    exact ⟨a, (Block.mem_granules hblock).mpr ⟨hof, (hp.sound.listed.used_mem ha).2.1⟩,
      ((hp.used_iff size a).mp ha).2⟩

end Pass

theorem listing_rebuilt
    (h : ∀ size < SizeClass.count, c'.shelf size = rebuilt f m size (c.shelf size).blocks) :
    c'.listing = c.listing.filter fun b => 0 < leftIn f m b.2 := by
  rw [listing, listing, List.filter_flatMap]
  refine List.flatMap_congr fun size hsize => ?_
  rw [classBlocks, h size (List.mem_range.mp hsize), classBlocks, List.filter_map]
  simp only [rebuilt, Function.comp_def]

theorem mem_listing_rebuilt
    (h : ∀ size < SizeClass.count, c'.shelf size = rebuilt f m size (c.shelf size).blocks) :
    (size, block) ∈ c'.listing ↔ (size, block) ∈ c.listing ∧ 0 < leftIn f m block := by
  rw [listing_rebuilt h, List.mem_filter, decide_eq_true_eq]

-- Pages below the high water mark that no listed block has are free.
theorem Listed.spared_iff {s : Space} {B B' : List (Nat × Nat)} (h : Listed s m B) (h' : Listed s' m' B')
    (hmapping : s'.mapping = s.mapping) (hhigh : s'.highWater = s.highWater)
    (hb : (size, block) ∈ B) : Spared s' block ↔ block ∉ B'.map Prod.snd := by
  obtain ⟨hfirst, -⟩ := h.run_first hb
  have hstart := (Space.range_congr hmapping).1
  have hbelow := h.space.stop_le (List.mem_map_of_mem hb)
  have hpage : s'.page block = (runOf s block).first := by rw [Space.page, hstart, runOf]
  have hcover := h'.space.cover_eq (s'.page block)
  have hpages : (runOf s block).pages = blockPages := rfl
  simp only [Run.stop, hpages, blockPages] at hfirst hbelow
  rw [if_pos (by omega)] at hcover
  constructor
  · rintro ⟨r, hr, h1, h2⟩ hmem
    obtain ⟨b, hb', rfl⟩ := List.mem_map.mp hmem
    have hpos : 0 < blockBytes := by decide
    obtain ⟨h3, h4⟩ : r.first ≤ s'.page b.2 ∧ s'.page b.2 < r.stop :=
      Space.page_of_run h1 (by omega)
    have hfree := Run.cover_pos hr h3 h4
    have hout := h'.cover_pos hb' (a := b.2) (le_refl _) (by omega)
    omega
  · intro hnot
    have hout : Run.cover (B'.map fun b => runOf s' b.2) (s'.page block) = 0 := by
      by_contra hpos
      obtain ⟨r, hr, h1, h2⟩ := Run.exists_of_cover_pos (Nat.pos_of_ne_zero hpos)
      obtain ⟨b, hb', rfl⟩ := List.mem_map.mp hr
      refine hnot (List.mem_map.mpr ⟨b, hb', ?_⟩)
      have hfirst' := (h'.run_first hb').1
      have h3 := h.aligned _ hb
      have h4 := h'.aligned _ hb'
      have hb'pages : (runOf s' b.2).pages = blockPages := rfl
      rw [hb'pages] at h2
      simp only [pageBytes, blockPages, blockBytes, hstart] at hfirst hfirst' h2 h3 h4
      omega
    have hpos : 0 < Run.cover s'.free (s'.page block) := by omega
    obtain ⟨r, hr, h1, h2⟩ := Run.exists_of_cover_pos hpos
    -- free runs are made of whole blocks
    have hfits := h'.space.runs r (Or.inl hr)
    rw [h'.unit_eq] at hfits
    have h3 := hfits.first_dvd
    have h4 := hfits.pages_dvd
    have h5 := h.aligned _ hb
    have h6 := Nat.mod_eq_zero_of_dvd h.space.start_dvd
    rw [hpage] at h1 h2
    refine ⟨r, hr, ?_, ?_⟩ <;>
    · simp only [hstart, Run.stop, pageBytes, blockPages, blockBytes] at hfirst h3 h4 h5 h6 ⊢
      omega

section Rebuilt

variable (hc : c.Sound m) (hf : Settles f) (hp : Passed f c m c' m')
variable (hshelf : ∀ size < SizeClass.count, c'.shelf size = rebuilt f m size (c.shelf size).blocks)
include hc hf hp hshelf

theorem Passed.liveIn_eq :
    liveIn m' c'.listing = ((c.listing.map Prod.snd).map (leftIn f m)).sum := by
  have hlisting := listing_rebuilt hshelf
  have hfilter := sum_filter_pos (fun b : Nat × Nat => leftIn f m b.2) c.listing
  rw [← hlisting] at hfilter
  rw [List.map_map, Function.comp_def, ← hfilter, liveIn]
  refine congrArg List.sum (List.map_congr_left fun b hb => ?_)
  rw [hlisting] at hb
  exact hp.live_eq hc hf (List.mem_of_mem_filter hb)

-- The blocks that a pass stacks have a cell to give.
theorem Passed.mem_available_iff : block ∈ (c'.shelf size).available ↔ (size, block) ∈ c'.listing ∧
    ∃ i < SizeClass.perBlock size, Block.isInUse m' (Block.cellAt block size i) = false := by
  have hlisted : (size, block) ∈ c'.listing ↔ _ := mem_listing_rebuilt hshelf
  by_cases hsize : size < SizeClass.count
  · rw [hshelf size hsize, hlisted]
    simp only [rebuilt, List.mem_filter, decide_eq_true_eq]
    constructor
    · rintro ⟨hb, hpos, hlt⟩
      have hmem := mem_listing.mpr ⟨hsize, hb⟩
      rw [← hp.live_eq hc hf hmem] at hlt
      exact ⟨⟨hmem, hpos⟩, (hp.sound.listed.live_lt_iff (hlisted.mpr ⟨hmem, hpos⟩)).mp hlt⟩
    · rintro ⟨⟨hmem, hpos⟩, hfree⟩
      have hlt := (hp.sound.listed.live_lt_iff (hlisted.mpr ⟨hmem, hpos⟩)).mpr hfree
      rw [hp.live_eq hc hf hmem] at hlt
      exact ⟨(mem_listing.mp hmem).2, hpos, hlt⟩
  · have hempty : (c'.shelf size).available = [] := by
      rw [Cells.shelf, List.getD_eq_default _ _ (hp.sound.shelves_eq ▸ not_lt.mp hsize)]
    rw [hempty, mem_listing]
    exact ⟨fun h => absurd h List.not_mem_nil, fun h => absurd h.1.1 hsize⟩

omit hc hf hshelf in
theorem Passed.nodup_available : (c'.shelf size).available.Nodup := by
  have hnodup := hp.sound.listed.nodup_blocks
  rw [← flatMap_blocks] at hnodup
  by_cases hsize : size < SizeClass.count
  · exact ((List.nodup_flatMap.mp hnodup).1 size (List.mem_range.mpr hsize)).sublist (hp.available size)
  · rw [Cells.shelf, List.getD_eq_default _ _ (hp.sound.shelves_eq ▸ not_lt.mp hsize)]
    exact List.nodup_nil

end Rebuilt

-- A pass settles a pool by what survives.
theorem Sound.pass_settled (hc : c.Sound m) (hf : Settles f) {stats : SweepStats}
    (hrun : c.pass f m = .ok (stats, c', m')) :
    Passed f c m c' m' ∧ Settled (fun a => Block.survives f m a = true) c m stats c' m' := by
  obtain ⟨stats', c₁, m₁, hpass, hp, hcount⟩ := hc.pass hf
  rw [hrun] at hpass
  cases hpass
  obtain ⟨hshelf, hlive, hreleased, hhigh⟩ := hc.pass_rebuilt hf hrun
  have hlisting := listing_rebuilt hshelf
  exact ⟨hp, {
    used_iff := hp.used_iff
    unmarked := fun a ha => hp.unmarked a ((Space.contains_congr hp.mapping_eq a).symm.trans ha)
    live_eq := by
      rw [hlive, ← hp.liveIn_eq hc hf hshelf, hp.sound.listed.liveIn_eq_ncard, usedSet]
    freed_eq := by
      rw [hp.sound.liveCount_eq, hc.liveCount_eq, hp.sound.listed.liveIn_eq_ncard,
        hc.listed.liveIn_eq_ncard] at hcount
      have hle : usedSet c' m' ⊆ usedSet c m := fun a ha =>
        ha.imp fun size hu => ((hp.used_iff size a).mp hu).1
      have hdiff := Set.ncard_sdiff_add_ncard_of_subset hle hc.listed.finite_used
      simp only [usedSet] at hdiff ⊢
      omega
    listed := fun size block => (mem_listing_rebuilt hshelf).trans
      (and_congr_right fun hb => hp.left_pos_iff hc hf hb)
    returned := fun size block hb => by
      rw [hc.listed.spared_iff hp.sound.listed hp.mapping_eq hhigh hb, not_iff_not, List.mem_map]
      constructor
      · rintro ⟨⟨size', _⟩, hb', rfl⟩
        have hmem := ((mem_listing_rebuilt hshelf).mp hb').1
        have heq := List.inj_on_of_nodup_map hc.listed.nodup_blocks hmem hb rfl
        exact heq ▸ hb'
      · exact fun hb' => ⟨_, hb', rfl⟩
    released_eq := by
      have hsplit := List.length_eq_countP_add_countP (l := c.listing) fun b => 0 < leftIn f m b.2
      rw [hreleased, emptied, hlisting, ← List.countP_eq_length_filter, hsplit, List.countP_map,
        Nat.add_comm]
      refine congrArg _ (List.countP_congr fun b _ => ?_)
      simp
    nodup := fun size => hp.nodup_available
    stacked := fun size block => hp.mem_available_iff hc hf hshelf }⟩

end Reclaim.Cells
