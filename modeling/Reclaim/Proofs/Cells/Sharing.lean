import Reclaim.Proofs.Cells.Pass
import Reclaim.Proofs.Cells.Stacks
import Reclaim.Proofs.Space.Tenancy

/-!
A pool of cells over time. Any number of allocators share it: they allocate and are reset, the cells in
use are written, marked and freed one by one, and a pass settles all blocks when no allocator owns one.
Whatever has happened, cells in use do not overlap, and no other cell is marked.
-/
namespace Reclaim

open Sizes Cells

structure SharedCells where
  cells : Cells
  memory : Memory := .empty
  allocators : List CellAllocator

namespace SharedCells

-- Allocators are named by their position.
inductive Op where
  | alloc (i bytes align : Nat)
  | allocCopy (i bytes : Nat)
  | reset (i : Nat)
  | mark (a : Nat)
  | free (a : Nat)
  | sweep
  | reclaim
  | write (a v : Nat)

-- The bytes that an operation asks for.
def Op.request? : Op → Option Nat
  | .alloc _ bytes _ | .allocCopy _ bytes => some bytes
  | _ => none

def allocator (s : SharedCells) (i : Nat) : Except Fault CellAllocator :=
  match s.allocators[i]? with
  | some x => .ok x
  | none => .error .indexOutOfBounds

-- The address that was allocated, if any, and the state that follows.
def perform (s : SharedCells) : Op → Except Fault (Option Nat × SharedCells)
  | .alloc i bytes align => do
    let (a, x, cells, memory) ← (← s.allocator i).alloc s.cells s.memory bytes align
    .ok (some a, { cells, memory, allocators := s.allocators.set i x })
  | .allocCopy i bytes => do
    let (a, x, cells, memory) ← (← s.allocator i).allocCopy s.cells s.memory bytes
    .ok (some a, { cells, memory, allocators := s.allocators.set i x })
  | .reset i => do
    let (x, cells) ← (← s.allocator i).reset s.cells s.memory
    .ok (none, { s with cells, allocators := s.allocators.set i x })
  | .mark a => .ok (none, { s with memory := (testAndMark s.memory a).2 })
  | .free a => do
    let (cells, memory) ← s.cells.free s.memory a
    .ok (none, { s with cells, memory })
  | .sweep => do
    let (_, cells, memory) ← s.cells.sweep s.memory
    .ok (none, { s with cells, memory })
  | .reclaim => do
    let (_, cells, memory) ← s.cells.reclaim s.memory
    .ok (none, { s with cells, memory })
  | .write a v => .ok (none, { s with memory := s.memory.write a v })

def InUse (s : SharedCells) (size a : Nat) : Prop := Used s.memory s.cells.listing size a

-- Only cells in use are marked and freed, passes wait until every allocator was reset, and what is
-- written lies in a cell in use or outside of the pool.
def Allowed (s : SharedCells) : Op → Prop
  | .alloc .. | .allocCopy .. | .reset _ => True
  | .mark a | .free a => ∃ size, s.InUse size a
  | .sweep | .reclaim => ∀ x ∈ s.allocators, x = {}
  | .write a _ => s.cells.contains a = false ∨
    ∃ size b, s.InUse size b ∧ b ≤ a ∧ a < b + SizeClass.bytes size

-- A new pool and its allocators. At first all words of its space are zero.
inductive Fresh : SharedCells → Prop
  | intro (name : String) (bytes n : Nat) {system : Nat → Option Nat} {space : Space}
    {memory : Memory} : Tenancy.Honest system →
    Space.reserve name bytes blockPages system = .ok space →
    (∀ a, space.contains a = true → memory.read a = 0) →
    Fresh { cells := { space }, memory, allocators := List.replicate n {} }

-- Operations in a row, each of them allowed.
inductive Steps (s : SharedCells) : List Op → SharedCells → Prop
  | nil : Steps s [] s
  | snoc {ops : List Op} {s₁ s₂ : SharedCells} {answer : Option Nat} (op : Op) : Steps s ops s₁ →
    s₁.Allowed op → s₁.perform op = .ok (answer, s₂) → Steps s (ops ++ [op]) s₂

-- Operations that take a cell out of use.
def Ends (s : SharedCells) (op : Op) (a : Nat) : Prop :=
  op = .free a ∨ op = .sweep ∧ Block.isMarked s.memory a = false

-- The blocks, the cells in use and the marks fit together.
structure InOrder (s : SharedCells) : Prop where
  inside : ∀ size a, s.InUse size a → a % wordBytes = 0 ∧ (size, blockOf a) ∈ s.cells.listing ∧
    blockOf a + Block.headerBytes ≤ a ∧ a + SizeClass.bytes size ≤ blockOf a + blockBytes
  disjoint : ∀ size a size' a', s.InUse size a → s.InUse size' a' → a ≠ a' →
    a + SizeClass.bytes size ≤ a' ∨ a' + SizeClass.bytes size' ≤ a
  marked : ∀ a, s.cells.contains a = true → a % wordBytes = 0 →
    Block.isMarked s.memory a = true → ∃ size, s.InUse size a
  -- No block is stacked twice, be it on one shelf or on two, and none that an allocator owns.
  stacked : (s.cells.stacked ++ s.allocators.flatMap (·.held)).Nodup
  -- A stacked block is listed on the same shelf and on no other.
  listed : ∀ size, ∀ block ∈ (s.cells.shelf size).available,
    ∀ size', block ∈ (s.cells.shelf size').blocks ↔ size' = size
  used_eq : s.cells.space.used = blockPages * s.cells.blockCount

-- A cell at `a` was taken into use for a request.
structure Granted (s : SharedCells) (bytes a : Nat) (s' : SharedCells) (size : Nat) : Prop where
  inUse : s'.InUse size a
  fits : bytes ≤ SizeClass.bytes size
  least : ∀ size' < SizeClass.count, bytes ≤ SizeClass.bytes size' →
    SizeClass.bytes size ≤ SizeClass.bytes size'
  aligned : a % wordBytes = 0
  blank : ∀ b, b % wordBytes = 0 → a ≤ b → b < a + SizeClass.bytes size → s'.memory.read b = 0
  block : ∃ block i, (size, block) ∈ s'.cells.listing ∧ i < Block.cellCount s'.memory block ∧
    Block.cell s'.memory block i = .ok a ∧ block + Block.headerBytes ≤ a ∧
    a + SizeClass.bytes size ≤ block + blockBytes
  apart : ∀ size' b, s.InUse size' b →
    a + SizeClass.bytes size ≤ b ∨ b + SizeClass.bytes size' ≤ a

-- What every operation keeps.
structure Sound (s : SharedCells) : Prop where
  cells : s.cells.Sound s.memory
  room : blockBytes + s.cells.space.extent < Word.bound
  owns : ∀ x ∈ s.allocators, x.Owns s.cells
  nodup : (s.cells.stacked ++ s.allocators.flatMap (·.held)).Nodup
  marked : ∀ a, s.cells.contains a = true → a % wordBytes = 0 →
    Block.isMarked s.memory a = true → ∃ size, s.InUse size a

variable {s s' : SharedCells} {ops : List Op} {op : Op} {size a : Nat}

theorem Fresh.sound (h : Fresh s) : s.Sound := by
  cases h with
  | @intro name bytes n system space memory hsystem hreserve hblank =>
    have ht := Tenancy.sound_reserve hsystem hreserve hblank
    have hspace : space.Sound [] memory := ht.space
    have hunit : space.unit = blockPages := Space.unit_of_reserve hreserve
    have hextent : space.extent ≤ Word.bound / 2 := ht.extent_lt
    refine ⟨sound_new hspace hunit, ?_, fun x hx => ?_, ?_, fun a hin _ hmark => ?_⟩
    · simp only [blockBytes, Word.bound] at hextent ⊢
      omega
    · rw [List.eq_of_mem_replicate hx]
      exact CellAllocator.owns_fresh _
    · have hheld : (List.replicate n ({} : CellAllocator)).flatMap (·.held) = [] := by
        refine List.flatMap_eq_nil_iff.mpr fun x hx => ?_
        rw [List.eq_of_mem_replicate hx]
        rfl
      simp only [hheld, stacked, shelf_new, List.append_nil]
      rw [List.flatMap_eq_nil_iff.mpr fun _ _ => rfl]
      exact List.nodup_nil
    · have hzero : memory.read (Block.bitmapWord a) = 0 :=
        (sound_new hspace hunit).listed.read_unlisted hin (by rw [listing_new]; exact List.not_mem_nil)
      simp only [Block.isMarked, Bitmap.isMarked, hzero, Nat.zero_testBit] at hmark
      cases hmark

-- An allocator and all others.
theorem perm_of_allocator {i : Nat} {x : CellAllocator} (hx : s.allocator i = .ok x) :
    x ∈ s.allocators ∧ ∃ rest : List CellAllocator, s.allocators.Perm (x :: rest) ∧
      ∀ x', (s.allocators.set i x').Perm (x' :: rest) := by
  unfold allocator at hx
  split at hx
  · rename_i y hget
    cases hx
    obtain ⟨hi, rfl⟩ := List.getElem?_eq_some_iff.mp hget
    exact ⟨List.getElem_mem hi, s.allocators.eraseIdx i, (List.getElem_cons_eraseIdx_perm hi).symm,
      List.set_perm_cons_eraseIdx hi⟩
  · cases hx

namespace Sound

variable (hs : s.Sound)
include hs

theorem mem_of_held {x : CellAllocator} {rest : List CellAllocator} (hp : s.allocators.Perm (x :: rest))
    {block : Nat} (hb : block ∈ rest.flatMap (·.held)) : block ∈ s.cells.listing.map Prod.snd := by
  obtain ⟨y, hy, hb⟩ := List.mem_flatMap.mp hb
  obtain ⟨size, hb⟩ := (hs.owns y (hp.mem_iff.mpr (List.mem_cons_of_mem _ hy))).mem_of_held hb
  exact List.mem_map_of_mem hb

theorem held_perm {x : CellAllocator} {rest : List CellAllocator} (hp : s.allocators.Perm (x :: rest)) :
    (s.cells.stacked ++ (x.held ++ rest.flatMap (·.held))).Nodup := by
  have h := (hp.flatMap_right (·.held)).append_left s.cells.stacked
  rw [List.flatMap_cons] at h
  exact h.nodup_iff.mp hs.nodup

-- What holds of a cell that was taken into use for a request.
theorem granted {s₀ : SharedCells} {bytes : Nat} (hclass : SizeClass.forBytes? bytes = some size)
    (hnew : s.InUse size a) (hkeep : ∀ size b, s₀.InUse size b → s.InUse size b)
    (hfresh : ∀ size, ¬s₀.InUse size a)
    (hblank : ∀ b, b % wordBytes = 0 → a ≤ b → b < a + SizeClass.bytes size →
      s.memory.read b = 0) : s₀.Granted bytes a s size := by
  have hl := hs.cells.listed
  refine ⟨hnew, (SizeClass.forBytes?_some hclass).2, fun size' => SizeClass.forBytes?_least hclass,
    (hl.used_mem hnew).2.1, hblank, ?_, fun size' b hu => ?_⟩
  · obtain ⟨block, hb, ⟨i, hi, rfl⟩, -⟩ := hnew
    have hformed := hl.formed _ hb
    refine ⟨block, i, hb, ?_, hl.cell_ok hb hi, cell_mem block hi⟩
    simp only at hformed
    rwa [hformed.cellCount_eq]
  · refine hl.used_disjoint hnew (hkeep size' b hu) ?_
    rintro rfl
    exact hfresh size' hu

-- An allocator takes a cell.
theorem alloc {i bytes align : Nat} {x x' : CellAllocator} {c : Cells} {m : Memory}
    (hx : s.allocator i = .ok x) (h : x.alloc s.cells s.memory bytes align = .ok (a, x', c, m)) :
    Sound ⟨c, m, s.allocators.set i x'⟩ ∧
      (∀ size b, s.InUse size b → InUse ⟨c, m, s.allocators.set i x'⟩ size b) ∧
      (∀ size, ¬s.InUse size a) ∧
      ∃ size, SizeClass.forBytes? bytes = some size ∧
        InUse ⟨c, m, s.allocators.set i x'⟩ size a ∧
        ∀ b, b % wordBytes = 0 → a ≤ b → b < a + SizeClass.bytes size → m.read b = 0 := by
  obtain ⟨hmem, rest, hp, hset⟩ := perm_of_allocator hx
  have hown := hs.owns x hmem
  obtain ⟨size, cursor, m₁, hclass, htake, rfl, rfl⟩ := CellAllocator.alloc_ok h
  obtain ⟨hsize, -⟩ := SizeClass.forBytes?_some hclass
  obtain ⟨hb, htaken⟩ := hown.take hs.cells hsize hs.room htake
  have hnodup := hown.take_nodup hs.cells hsize hs.room (hs.held_perm hp)
    (fun b => hs.mem_of_held hp) htake
  obtain ⟨hread, hoff⟩ := htaken.zero
  have hused : ∀ size' b, Used (m₁.zero a (SizeClass.bytes size)) c.listing size' b ↔
      s.InUse size' b ∨ size' = size ∧ b = a := fun size' b =>
    (htaken.sound.listed.used_congr hoff size' b).trans (htaken.used_iff size' b)
  refine ⟨⟨htaken.sound.setMemory (htaken.sound.listed.congr hoff), ?_, fun y hy => ?_, ?_,
    fun b hin hmod hmark => ?_⟩, fun size' b hu => (hused size' b).mpr (Or.inl hu), htaken.fresh,
    size, hclass, (hused size a).mpr (Or.inr ⟨rfl, rfl⟩), fun b hmod h1 h2 => ?_⟩
  · have hroom := hs.room
    rwa [← (Space.range_congr htaken.mapping_eq).2.1] at hroom
  · rcases List.mem_cons.mp ((hset _).mem_iff.mp hy) with rfl | hy
    · exact (hown.mono htaken.listing_subset).set hb
    · exact (hs.owns y (hp.mem_iff.mpr (List.mem_cons_of_mem _ hy))).mono htaken.listing_subset
  · rw [(((hset _).flatMap_right (·.held)).append_left c.stacked).nodup_iff, List.flatMap_cons]
    exact CellAllocator.nodup_set hnodup
  · have hmark' : Block.isMarked s.memory b = true := by
      rwa [← htaken.isMarked_eq, ← htaken.sound.listed.isMarked_congr hoff hin]
    obtain ⟨size', hu⟩ := hs.marked b ((Space.contains_congr htaken.mapping_eq b).symm.trans hin)
      hmod hmark'
    exact ⟨size', (hused size' b).mpr (Or.inl hu)⟩
  · rw [hread, if_pos ⟨hmod, h1, h2⟩]

-- A cell in use is marked.
theorem mark (ha : s.InUse size a) :
    Sound { s with memory := Block.setMarked s.memory a } ∧
      ∀ size' b, InUse { s with memory := Block.setMarked s.memory a } size' b ↔
        s.InUse size' b := by
  obtain ⟨hlisted, hused⟩ := hs.cells.listed.setMarked ha
  refine ⟨⟨hs.cells.setMemory hlisted, hs.room, hs.owns, hs.nodup, fun b hin hmod hmark => ?_⟩, hused⟩
  simp only [Block.isMarked_setMarked, Bool.or_eq_true, decide_eq_true_eq] at hmark
  rcases hmark with hsame | hmark
  · obtain ⟨-, hal, -⟩ := hs.cells.listed.used_mem ha
    have heq : b = a := by
      simp only [wordBytes, Block.granuleBytes] at hal hmod hsame
      omega
    exact ⟨size, (hused size b).mpr (heq ▸ ha)⟩
  · obtain ⟨size', hu⟩ := hs.marked b hin hmod hmark
    exact ⟨size', (hused size' b).mpr hu⟩

-- A cell in use is freed.
theorem free (ha : s.InUse size a) {c : Cells} {m : Memory}
    (h : s.cells.free s.memory a = .ok (c, m)) :
    Sound { s with cells := c, memory := m } ∧
      ∀ size' b, InUse { s with cells := c, memory := m } size' b ↔ s.InUse size' b ∧ b ≠ a := by
  obtain ⟨hlisted, hused⟩ := hs.cells.listed.clear ha
  unfold Cells.free at h
  split at h
  on_goal 2 => cases h
  cases h
  refine ⟨⟨⟨hlisted, hs.cells.shelves_eq, hs.cells.available⟩, hs.room, hs.owns, hs.nodup,
    fun b hin hmod hmark => ?_⟩, hused⟩
  simp only [Block.isMarked_clear, Bool.and_eq_true, Bool.not_eq_true', decide_eq_false_iff_not]
    at hmark
  obtain ⟨size', hu⟩ := hs.marked b hin hmod hmark.2
  refine ⟨size', (hused size' b).mpr ⟨hu, ?_⟩⟩
  rintro rfl
  exact hmark.1 rfl

-- An allocator gives up its blocks.
theorem reset {i : Nat} {x x' : CellAllocator} {c : Cells} (hx : s.allocator i = .ok x)
    (h : x.reset s.cells s.memory = .ok (x', c)) :
    Sound { s with cells := c, allocators := s.allocators.set i x' } ∧
      ∀ size b, InUse { s with cells := c, allocators := s.allocators.set i x' } size b ↔
        s.InUse size b := by
  obtain ⟨hmem, rest, hp, hset⟩ := perm_of_allocator hx
  obtain ⟨c', hreset, hc, hlisting, hspace⟩ := (hs.owns x hmem).reset hs.cells
  have hn := CellAllocator.reset_nodup hs.cells.shelves_eq (hs.held_perm hp) h
  rw [hreset] at h
  cases h
  have hused : ∀ size b, Used s.memory c.listing size b ↔ s.InUse size b := by
    rw [hlisting]
    exact fun _ _ => Iff.rfl
  refine ⟨⟨hc, ?_, fun y hy => ?_, ?_, fun b hin hmod hmark => ?_⟩, hused⟩
  · rw [hspace]
    exact hs.room
  · rcases List.mem_cons.mp ((hset _).mem_iff.mp hy) with rfl | hy
    · exact CellAllocator.owns_fresh c
    · refine (hs.owns y (hp.mem_iff.mpr (List.mem_cons_of_mem _ hy))).mono ?_
      rw [hlisting]
      exact List.Subset.refl _
  · rw [(((hset _).flatMap_right (·.held)).append_left c.stacked).nodup_iff, List.flatMap_cons]
    exact hn
  · simp only [Cells.contains, hspace] at hin
    obtain ⟨size, hu⟩ := hs.marked b hin hmod hmark
    exact ⟨size, (hused size b).mpr hu⟩

-- All blocks are settled while no allocator owns one.
theorem pass {f : Nat → Nat} (hf : Settles f) (hfree : ∀ x ∈ s.allocators, x = {})
    {stats : SweepStats} {c : Cells} {m : Memory} (h : s.cells.pass f s.memory = .ok (stats, c, m)) :
    Sound { s with cells := c, memory := m } ∧
      ∀ size b, InUse { s with cells := c, memory := m } size b ↔
        s.InUse size b ∧ Block.survives f s.memory b = true := by
  obtain ⟨stats', c', m', hrun, hp, -⟩ := hs.cells.pass hf
  rw [hrun] at h
  cases h
  have hheld : s.allocators.flatMap (·.held) = [] := List.flatMap_eq_nil_iff.mpr fun x hx => by
    rw [hfree x hx]
    rfl
  refine ⟨⟨hp.sound, ?_, fun x hx => ?_, ?_, fun b hin _ hmark => ?_⟩, hp.used_iff⟩
  · have hroom := hs.room
    rwa [← (Space.range_congr hp.mapping_eq).2.1] at hroom
  · rw [hfree x hx]
    exact CellAllocator.owns_fresh c
  · simp only [hheld, List.append_nil]
    exact hp.nodup_stacked
  · rw [hp.unmarked b ((Space.contains_congr hp.mapping_eq b).symm.trans hin)] at hmark
    cases hmark

-- A word of a cell in use is written, or one outside of the pool.
theorem write {v : Nat} (ha : s.Allowed (.write a v)) :
    Sound { s with memory := s.memory.write a v } ∧
      ∀ size b, InUse { s with memory := s.memory.write a v } size b ↔ s.InUse size b := by
  have hoff : ∀ b, s.cells.space.contains b = true → ¬Inside s.cells.listing b →
      (s.memory.write a v).read b = s.memory.read b := by
    intro b hin hnot
    refine Memory.read_write_of_ne ?_ v
    rintro rfl
    rcases ha with hout | ⟨size, d, hu, h1, h2⟩
    · rw [Cells.contains, hin] at hout
      cases hout
    · exact hnot ((hs.cells.listed.used_mem hu).2.2 b h1 h2)
  have hused := hs.cells.listed.used_congr hoff
  refine ⟨⟨hs.cells.setMemory (hs.cells.listed.congr hoff), hs.room, hs.owns, hs.nodup,
    fun b hin hmod hmark => ?_⟩, hused⟩
  rw [hs.cells.listed.isMarked_congr hoff hin] at hmark
  obtain ⟨size, hu⟩ := hs.marked b hin hmod hmark
  exact ⟨size, (hused size b).mpr hu⟩

-- Every operation keeps the pool in order and the cells in use that it does not end.
theorem perform {answer : Option Nat} (ha : s.Allowed op) (h : s.perform op = .ok (answer, s')) :
    s'.Sound ∧ (∀ size b, s.InUse size b → s'.InUse size b ∨ s.Ends op b) ∧
      ∀ bytes, op.request? = some bytes → ∃ a size, answer = some a ∧ s.Granted bytes a s' size := by
  cases op with
  | alloc i bytes align =>
    obtain ⟨x, hx, h⟩ := bind_eq_ok.mp h
    obtain ⟨⟨a, x', c, m⟩, halloc, hlast⟩ := bind_eq_ok.mp h
    cases hlast
    obtain ⟨hs', hkeep, hfresh, size, hclass, hnew, hblank⟩ := hs.alloc hx halloc
    refine ⟨hs', fun size b hu => Or.inl (hkeep size b hu), fun _ hb => ?_⟩
    cases hb
    exact ⟨a, size, rfl, hs'.granted hclass hnew hkeep hfresh hblank⟩
  | allocCopy i bytes =>
    obtain ⟨x, hx, h⟩ := bind_eq_ok.mp h
    obtain ⟨⟨a, x', c, m'⟩, hcopy, hlast⟩ := bind_eq_ok.mp h
    cases hlast
    obtain ⟨⟨b, y, d, m⟩, halloc, hlast⟩ := bind_eq_ok.mp hcopy
    cases hlast
    obtain ⟨hs₁, hkeep, hfresh, size, hclass, hnew, hblank⟩ := hs.alloc hx halloc
    -- the copy is marked before anyone sees it
    obtain ⟨hs', hused⟩ := hs₁.mark hnew
    have hkeep' := fun size b hu => (hused size b).mpr (hkeep size b hu)
    refine ⟨hs', fun size b hu => Or.inl (hkeep' size b hu), fun _ hb => ?_⟩
    cases hb
    refine ⟨a, size, rfl, hs'.granted hclass ((hused size a).mpr hnew) hkeep' hfresh fun b hmod h1 h2 => ?_⟩
    refine (Block.read_update_of_ne _ m ?_).trans (hblank b hmod h1 h2)
    rintro rfl
    exact hs₁.cells.listed.bitmapWord_not_inside a ((hs₁.cells.listed.used_mem hnew).2.2 _ h1 h2)
  | reset i =>
    obtain ⟨x, hx, h⟩ := bind_eq_ok.mp h
    obtain ⟨⟨x', c⟩, hreset, hlast⟩ := bind_eq_ok.mp h
    cases hlast
    obtain ⟨hs', hused⟩ := hs.reset hx hreset
    exact ⟨hs', fun size b hu => Or.inl ((hused size b).mpr hu), nofun⟩
  | mark a =>
    cases h
    obtain ⟨size, hu⟩ := ha
    obtain ⟨hs', hused⟩ := hs.mark hu
    exact ⟨hs', fun size b hu => Or.inl ((hused size b).mpr hu), nofun⟩
  | free a =>
    obtain ⟨⟨c, m⟩, hfree, hlast⟩ := bind_eq_ok.mp h
    cases hlast
    obtain ⟨size, hu⟩ := ha
    obtain ⟨hs', hused⟩ := hs.free hu hfree
    refine ⟨hs', fun size b hu => ?_, nofun⟩
    by_cases hb : b = a
    · exact Or.inr (Or.inl (hb ▸ rfl))
    · exact Or.inl ((hused size b).mpr ⟨hu, hb⟩)
  | sweep =>
    obtain ⟨⟨stats, c, m⟩, hpass, hlast⟩ := bind_eq_ok.mp h
    cases hlast
    obtain ⟨hs', hused⟩ := hs.pass settles_sweep ha hpass
    refine ⟨hs', fun size b hu => ?_, nofun⟩
    rw [hused, Block.survives_sweep, hu.choose_spec.2.2, Bool.true_and]
    cases hmark : Block.isMarked s.memory b with
    | false => exact Or.inr (Or.inr ⟨rfl, hmark⟩)
    | true => exact Or.inl ⟨hu, rfl⟩
  | reclaim =>
    obtain ⟨⟨stats, c, m⟩, hpass, hlast⟩ := bind_eq_ok.mp h
    cases hlast
    obtain ⟨hs', hused⟩ := hs.pass settles_clearMarks ha hpass
    refine ⟨hs', fun size b hu => Or.inl ?_, nofun⟩
    rw [hused, Block.survives_clearMarks]
    exact ⟨hu, hu.choose_spec.2.2⟩
  | write a v =>
    cases h
    obtain ⟨hs', hused⟩ := hs.write ha
    exact ⟨hs', fun size b hu => Or.inl ((hused size b).mpr hu), nofun⟩

theorem inOrder : s.InOrder where
  inside size a hu := by
    have hl := hs.cells.listed
    obtain ⟨-, hal, -⟩ := hl.used_mem hu
    have hb := hl.block_of_used hu
    obtain ⟨block, hb', ⟨i, hi, rfl⟩, -⟩ := hu
    rw [hl.blockOf_cell hb' hi] at hb ⊢
    exact ⟨hal, hb, cell_mem block hi⟩
  disjoint _ _ _ _ hu hu' := hs.cells.listed.used_disjoint hu hu'
  marked := hs.marked
  stacked := hs.nodup
  listed size block hb size' := by
    have hmem := hs.cells.available size block hb
    refine ⟨fun hmem' => ?_, fun heq => heq ▸ hmem⟩
    have h1 := mem_listing.mpr ⟨hs.cells.lt_of_mem_blocks hmem, hmem⟩
    have h2 := mem_listing.mpr ⟨hs.cells.lt_of_mem_blocks hmem', hmem'⟩
    exact congrArg Prod.fst (List.inj_on_of_nodup_map hs.cells.listed.nodup_blocks h2 h1 rfl)
  used_eq := by
    rw [hs.cells.listed.space.used_eq, hs.cells.blockCount_eq, List.map_map]
    have hconst : ((fun r : Run => r.pages) ∘ fun b : Nat × Nat => runOf s.cells.space b.2) =
        fun _ => blockPages := rfl
    rw [hconst, List.map_const', List.sum_replicate_nat, Nat.mul_comm]

end Sound

theorem Steps.sound (h : Steps s ops s') (hs : s.Sound) : s'.Sound := by
  induction h with
  | nil => exact hs
  | snoc op _ ha hrun ih => exact (ih.perform ha hrun).1

-- A cell that is in use no more was freed, or a sweep found it without a mark.
theorem Steps.ended (h : Steps s ops s') (hs : s.Sound) (hu : s.InUse size a) :
    s'.InUse size a ∨ ∃ before op after s₁, ops = before ++ op :: after ∧ Steps s before s₁ ∧
      s₁.InUse size a ∧ s₁.Ends op a := by
  induction h with
  | nil => exact Or.inl hu
  | snoc op hsteps ha hrun ih =>
    rcases ih with hkept | ⟨before, op', after, s₁, rfl, hends⟩
    · exact ((hsteps.sound hs).perform ha hrun).2.1 size a hkept |>.imp_right fun hends =>
        ⟨_, op, [], _, rfl, hsteps, hkept, hends⟩
    · refine Or.inr ⟨before, op', after ++ [op], s₁, ?_, hends⟩
      rw [List.append_assoc, List.cons_append]

-- Whatever allocators did with a pool: its blocks, cells and marks fit together, who asks for a cell
-- gets a blank one of the smallest class that serves the request, and cells stay in use until they are
-- freed or swept.
theorem Fresh.upholds (h₀ : Fresh s) (h : Steps s ops s') : s'.InOrder ∧
    (∀ op bytes answer s₁, op.request? = some bytes → s'.perform op = .ok (answer, s₁) →
      ∃ a size, answer = some a ∧ s'.Granted bytes a s₁ size) ∧
    ∀ later s₁ size a, Steps s' later s₁ → s'.InUse size a → s₁.InUse size a ∨
      ∃ before op after s₂, later = before ++ op :: after ∧ Steps s' before s₂ ∧
        s₂.InUse size a ∧ s₂.Ends op a := by
  have hs := h.sound h₀.sound
  refine ⟨hs.inOrder, fun op bytes answer s₁ hop hrun => ?_, fun _ _ _ _ hlater hu => hlater.ended hs hu⟩
  have ha : s'.Allowed op := by
    cases op with
    | alloc | allocCopy => trivial
    | _ => cases hop
  exact (hs.perform ha hrun).2.2 bytes hop

-- Two allocators that share a pool of four blocks: the first takes a cell, frees it and gives its
-- block up, and the second is served with the same cell.
namespace Pair

def fresh : SharedCells where
  cells := { space := (Space.reserve "cells" (4 * blockBytes) blockPages
    (Mapping.placeAt blockBytes)).toOption.get rfl }
  allocators := List.replicate 2 {}

def cell : Nat := blockBytes + Block.headerBytes

@[irreducible] def taken : Option Nat × SharedCells :=
  (fresh.perform (.alloc 0 20 8)).toOption.get (by decide +kernel)

@[irreducible] def freed : Option Nat × SharedCells :=
  (taken.2.perform (.free cell)).toOption.get (by decide +kernel)

@[irreducible] def given : Option Nat × SharedCells :=
  (freed.2.perform (.reset 0)).toOption.get (by decide +kernel)

@[irreducible] def served : Option Nat × SharedCells :=
  (given.2.perform (.alloc 1 17 8)).toOption.get (by decide +kernel)

theorem fresh_fresh : Fresh fresh :=
  .intro "cells" (4 * blockBytes) 2 (Tenancy.honest_placeAt (by decide) (by decide) (by decide))
    (eq_ok_get rfl) fun a _ => Memory.read_empty a

theorem perform_taken : fresh.perform (.alloc 0 20 8) = .ok taken := by
  unfold taken
  exact eq_ok_get _

theorem perform_freed : taken.2.perform (.free cell) = .ok freed := by
  unfold freed
  exact eq_ok_get _

theorem perform_given : freed.2.perform (.reset 0) = .ok given := by
  unfold given
  exact eq_ok_get _

theorem perform_served : given.2.perform (.alloc 1 17 8) = .ok served := by
  unfold served
  exact eq_ok_get _

end Pair

theorem upholds_pair : ∃ size,
    Steps Pair.fresh [.alloc 0 20 8, .free Pair.cell, .reset 0] Pair.given.2 ∧
    Pair.given.2.InOrder ∧ Pair.given.2.Granted 17 Pair.cell Pair.served.2 size := by
  have hcell : Pair.taken.1 = some Pair.cell := by decide +kernel
  have hagain : Pair.served.1 = some Pair.cell := by decide +kernel
  obtain ⟨a, size, ha, hgranted⟩ :=
    (Fresh.upholds Pair.fresh_fresh .nil).2.1 (.alloc 0 20 8) 20 _ _ rfl Pair.perform_taken
  obtain rfl := Option.some.inj (hcell.symm.trans ha)
  have h1 := Steps.nil.snoc (.alloc 0 20 8) trivial Pair.perform_taken
  have h2 := h1.snoc (.free Pair.cell) ⟨size, hgranted.inUse⟩ Pair.perform_freed
  have h3 := h2.snoc (.reset 0) trivial Pair.perform_given
  obtain ⟨horder, hserve, -⟩ := Fresh.upholds Pair.fresh_fresh h3
  obtain ⟨b, size', hb, hgranted'⟩ := hserve (.alloc 1 17 8) 17 _ _ rfl Pair.perform_served
  obtain rfl := Option.some.inj (hagain.symm.trans hb)
  exact ⟨size', h3, horder, hgranted'⟩

end SharedCells

end Reclaim
