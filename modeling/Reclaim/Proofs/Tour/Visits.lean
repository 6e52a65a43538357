import Reclaim.Proofs.Cells.Supply
import Reclaim.Proofs.Heap.Extension
import Reclaim.Proofs.Immortal
import Reclaim.Proofs.Tour.Relocation
import Reclaim.Proofs.Treadmill.Turning

/-!
Visits: a collector reaches an object for the first time. An object of the nursery is copied to a cell
that is born marked, and any other is marked where it is, each space in its own way. Nothing else that
lies in a room changes.
-/
namespace Reclaim

open Sizes

theorem CellAllocator.Owns.isMarked_alloc {x x' : CellAllocator} {c c' : Cells} {m m' : Memory}
    (hx : x.Owns c) (hc : c.Sound m) (hroom : blockBytes + c.space.extent < Word.bound)
    {bytes align o : Nat} (h : x.alloc c m bytes align = .ok (o, x', c', m')) (a : Nat) :
    Block.isMarked m' a = Block.isMarked m a := by
  obtain ⟨size, m₁, -, -, htaken, hc', hused, hread⟩ := hx.alloc hc hroom h
  have hcell : Cells.Used m' c'.listing size o :=
    (hused _ _).mpr ((htaken.used_iff _ _).mpr (Or.inr ⟨rfl, rfl⟩))
  rw [← htaken.isMarked_eq]
  refine Block.isMarked_congr ?_
  rw [hread, if_neg]
  rintro ⟨-, h1, h2⟩
  exact hc'.listed.bitmapWord_not_inside a ((hc'.listed.used_mem hcell).2.2 _ h1 h2)

namespace Heap

-- A visit has reached `x`, of the space of kind `kind`; `t` is where it is from now on.
structure Visited (h : Heap) (l : Layout) (kind : SpaceKind) (x t : Nat) (h' : Heap) (l' : Layout) :
    Prop where
  sound : h'.Sound l'
  types_eq : h'.types = h.types
  nursery_eq : h'.nursery = h.nursery
  immortal_eq : h'.immortal = h.immortal
  mature_eq : h'.mature.space.mapping = h.mature.space.mapping
  large_eq : h'.large.space.mapping = h.large.space.mapping
  markState_eq : h'.large.markState = h.large.markState
  listing_subset : h.mature.listing ⊆ h'.mature.listing
  plots_eq : l'.nursery = l.nursery ∧ l'.immortal = l.immortal
  reached_iff : ∀ chunk, chunk ∈ l'.reached ↔
    chunk ∈ l.reached ∨ kind = .large ∧ Chunk.object chunk = x
  room : ∀ k o bytes, Room h l k o bytes → Room h' l' k o bytes
  room_cases : ∀ k o bytes, Room h' l' k o bytes →
    Room h l k o bytes ∨ kind = .nursery ∧ k = .mature ∧ o = t
  word : ∀ k o bytes, Room h l k o bytes → ∀ a, o ≤ a → a < o + bytes → a ≠ x →
    h'.memory.read a = h.memory.read a
  outside : ∀ a, h.spaceOf? a = none → h'.memory.read a = h.memory.read a
  isMarked_iff : ∀ o bytes, Room h' l' .mature o bytes →
    (Block.isMarked h'.memory o = true ↔ Block.isMarked h.memory o = true ∨ o = t)
  stays : kind ≠ .nursery → t = x
  -- A copy takes a cell that was free.
  copied : kind = .nursery → h'.memory.read x = Status.forwardedTo t ∧
    (∀ k bytes, ¬Room h l k t bytes) ∧ ∃ bytes n, Room h' l' .mature t bytes ∧
      Object.size h.types h.memory x = .ok n ∧ n ≤ bytes ∧
      ∀ a, a % wordBytes = 0 → 0 < a → a < n → h'.memory.read (t + a) = h.memory.read (x + a)
  large : kind = .large → Status.isMarked (h'.memory.read x) h.large.markState = true
  immortal : kind = .immortal → Status.isMarked (h'.memory.read x) h.immortal.markState = true

variable {h : Heap} {l : Layout} {kind : SpaceKind} {x bytes : Nat}

theorem Visited.spaceOf?_eq {t : Nat} {h' : Heap} {l' : Layout} (hv : Visited h l kind x t h' l')
    (a : Nat) : h'.spaceOf? a = h.spaceOf? a :=
  spaceOf?_congr (congrArg _ hv.nursery_eq) hv.mature_eq hv.large_eq
    (congrArg (·.space.mapping) hv.immortal_eq) a

namespace Sound

variable (hs : h.Sound l)
include hs

-- A cell is marked beside its block.
theorem visitCell (hr : Room h l .mature x bytes) :
    Visited h l .mature x x { h with memory := Block.setMarked h.memory x } l := by
  have hmem := hs.room_mem hr
  cases hr with
  | @cell size x hu =>
    have hmature : h.space? .mature = some h.mature.space := rfl
    have hbits : h.mature.contains (Block.bitmapWord x) = true :=
      hs.mature.listed.contains_bitmapWord (hs.contains_start hmature (.cell hu))
    have hword : ∀ a, a ≠ Block.bitmapWord x → (Block.setMarked h.memory x).read a = h.memory.read a :=
      fun a ha => Block.read_update_of_ne _ _ ha
    have hframe : ∀ a, h.mature.contains a = false →
        (Block.setMarked h.memory x).read a = h.memory.read a := fun a ha => hword a fun heq => by
      rw [heq, hbits] at ha
      cases ha
    obtain ⟨hlisted, hused⟩ := hs.mature.listed.setMarked hu
    obtain ⟨hsound, hother⟩ := hs.setMature (hs.mature.setMemory hlisted) rfl hframe
    have hiff : ∀ k o bytes, Room { h with memory := Block.setMarked h.memory x } l k o bytes ↔
        Room h l k o bytes := by
      intro k o bytes
      by_cases hk : k = .mature
      · subst hk
        simp only [room_mature_iff, hused]
      · exact hother _ _ _ hk
    exact {
      sound := hsound
      types_eq := rfl
      nursery_eq := rfl
      immortal_eq := rfl
      mature_eq := rfl
      large_eq := rfl
      markState_eq := rfl
      listing_subset := List.Subset.refl _
      plots_eq := ⟨rfl, rfl⟩
      reached_iff := fun chunk => (or_iff_left fun hk => absurd hk.1 (by decide)).symm
      room := fun k o bytes => (hiff k o bytes).mpr
      room_cases := fun k o bytes hr => Or.inl ((hiff _ _ _).mp hr)
      word := fun k o bytes hr a h1 h2 _ => by
        by_cases hk : k = .mature
        · subst hk
          refine hword a fun heq => hs.mature.listed.bitmapWord_not_inside x ?_
          obtain ⟨-, -, -, _, -, hin⟩ := hs.room_mem hr
          exact heq ▸ (hin a h1 h2).2
        · exact hs.word_of_other hmature hframe hr hk a h1 h2
      outside := fun a ha => hframe a (hs.contains_false_of_none hmature ha)
      isMarked_iff := fun o bytes hr => by
        have ho := (hsound.room_mem hr).1
        have hx := hmem.1
        simp only [wordBytes] at ho hx
        have hsame : x / Block.granuleBytes = o / Block.granuleBytes ↔ o = x := by
          simp only [Block.granuleBytes]
          omega
        rw [Block.isMarked_setMarked, Bool.or_eq_true, decide_eq_true_eq, hsame, or_comm]
      stays := fun _ => rfl
      copied := fun hk => absurd hk (by decide)
      large := fun hk => absurd hk (by decide)
      immortal := fun hk => absurd hk (by decide) }

-- Bits lie in no room.
theorem isMarked_congr {m : Memory} {o size : Nat} (hr : Room h l .mature o size)
    (hm : ∀ a k, h.spaceOf? a = some k → ¬Inside h l a k → m.read a = h.memory.read a) :
    Block.isMarked m o = Block.isMarked h.memory o := by
  obtain ⟨-, -, hpos, _, hspace, hin⟩ := hs.room_mem hr
  have hk := hspace
  cases hspace
  have hbits := hs.mature.listed.contains_bitmapWord (hin o (le_refl _) (by omega)).1
  exact Block.isMarked_congr (hm _ .mature (hs.spaceOf?_eq_some hk hbits)
    (hs.mature.listed.bitmapWord_not_inside o))

-- A visit outside of the pool of cells changes no mark of a cell, and reaches none.
theorem isMarked_iff_of_other {s : Space} {m : Memory} (hk : h.space? kind = some s)
    (hr : Room h l kind x bytes) (hne : .mature ≠ kind)
    (hm : ∀ a, s.contains a = false → m.read a = h.memory.read a) {o size : Nat}
    (ho : Room h l .mature o size) :
    Block.isMarked m o = true ↔ Block.isMarked h.memory o = true ∨ o = x := by
  have hox : o ≠ x := by
    rintro rfl
    exact hne (hs.room_unique ho hr).1
  rw [hs.isMarked_of_other hk hm hne (hs.contains_start (show h.space? .mature = some _ from rfl) ho),
    or_iff_left hox]

-- A large object is marked in its status word, and its chunk moves to the reached list.
theorem visitChunk (hr : Room h l .large x bytes)
    (hmark : Status.isMarked (h.memory.read x) h.large.markState = false)
    (hnot : ∀ chunk ∈ l.reached, Chunk.object chunk ≠ x) :
    ∃ t m unreached reached, h.large.testAndMark h.memory x = .ok (true, t, m) ∧
      Visited h l .large x x { h with large := t, memory := m } { l with unreached, reached } := by
  have hlarge : h.space? .large = some h.large.space := rfl
  have hpos := (hs.room_mem hr).2.2.1
  obtain ⟨chunk, hc, rfl⟩ := hr.exists_chunk
  have hunreached : chunk ∈ l.unreached :=
    (List.mem_append.mp hc).resolve_right fun hin => hnot chunk hin rfl
  let flipped := Status.flipMark (h.memory.read (Chunk.object chunk))
  have hwrite : ∀ a, a ≠ Chunk.object chunk →
      (h.memory.write (Chunk.object chunk) flipped).read a = h.memory.read a :=
    fun a ha => Memory.read_write_of_ne ha _
  obtain ⟨hsound₁, hrooms₁⟩ := hs.write hr (le_refl _) (by omega) flipped
  obtain ⟨t, m, hrun, ht, hspace, hstate, -, hkept⟩ := hs.large.testAndMark_unmarked hunreached hmark
  have hmapping : t.space.mapping = h.large.space.mapping := congrArg _ hspace
  have hperm := Treadmill.perm_reach hunreached l.reached
  obtain ⟨hsound, hrooms, hwords⟩ :=
    hsound₁.keepLarge ht hmapping hkept (List.Subset.refl _) hperm.symm.subset
  -- All large objects are still there.
  have hiff : ∀ k o bytes, Room { h with large := t, memory := m }
      { l with unreached := l.unreached.erase chunk, reached := chunk :: l.reached } k o bytes ↔
      Room h l k o bytes := by
    intro k o bytes
    constructor
    · refine fun hr => (hrooms₁ _ _ _).mp ((hrooms _ _ _ fun hk => ?_).mp hr)
      obtain ⟨c, hc, ho⟩ := (hk ▸ hr).exists_chunk
      exact ⟨c, hperm.subset hc, ho⟩
    · exact fun hr => (hrooms _ _ _ fun hk => (hk ▸ hr).exists_chunk).mpr ((hrooms₁ _ _ _).mpr hr)
  have hin : ∀ k o bytes, Room h l k o bytes → ∀ a, o ≤ a → a < o + bytes →
      m.read a = (h.memory.write (Chunk.object chunk) flipped).read a := fun k o bytes hr =>
    hwords _ _ _ ((hrooms₁ _ _ _).mpr hr) fun hk => (hk ▸ hr).exists_chunk
  have hframe : ∀ a, h.large.space.contains a = false → m.read a = h.memory.read a := by
    refine fun a ha => (hkept.frame a (Or.inl ha)).trans (hwrite a ?_)
    rintro rfl
    exact Bool.false_ne_true (ha.symm.trans (hs.contains_start hlarge hr))
  exact ⟨t, m, _, _, hrun, {
    sound := hsound
    types_eq := rfl
    nursery_eq := rfl
    immortal_eq := rfl
    mature_eq := rfl
    large_eq := hmapping
    markState_eq := hstate
    listing_subset := List.Subset.refl _
    plots_eq := ⟨rfl, rfl⟩
    reached_iff := fun c => by
      simp only [List.mem_cons, true_and, Chunk.object, Nat.add_right_cancel_iff]
      exact or_comm
    room := fun k o bytes => (hiff k o bytes).mpr
    room_cases := fun k o bytes hr => Or.inl ((hiff _ _ _).mp hr)
    word := fun k o bytes hr a h1 h2 ha => (hin _ _ _ hr a h1 h2).trans (hwrite a ha)
    outside := fun a ha => hframe a (hs.contains_false_of_none hlarge ha)
    isMarked_iff := fun o bytes ho =>
      hs.isMarked_iff_of_other hlarge hr (by decide) hframe ((hiff _ _ _).mp ho)
    stays := fun _ => rfl
    copied := fun hk => absurd hk (by decide)
    large := fun _ => by
      change Status.isMarked (m.read (Chunk.object chunk)) _ = true
      rw [hin _ _ _ hr _ (le_refl _) (by omega), Memory.read_write_self, Immortal.isMarked_flipMark,
        hmark]
      rfl
    immortal := fun hk => absurd hk (by decide) }⟩

-- An immortal object is marked in its status word.
theorem visitPlot (hr : Room h l .immortal x bytes)
    (hmark : Status.isMarked (h.memory.read x) h.immortal.markState = false) :
    ∃ m, h.immortal.testAndMark h.memory x = .ok (true, m) ∧
      Visited h l .immortal x x { h with memory := m } l := by
  have himmortal : h.space? .immortal = some h.immortal.space := rfl
  obtain ⟨m, hrun, hmarked, hother⟩ := h.immortal.testAndMark_ok h.memory (hs.room_mem hr).1
  rw [Object.status, hmark] at hrun
  obtain ⟨hsound, hiff⟩ := hs.setMemory (m := m) fun a k ha hout => hother a fun heq => by
    subst heq
    exact hout (hs.inside_start hr ha)
  have hframe : ∀ a, h.immortal.space.contains a = false → m.read a = h.memory.read a := by
    refine fun a ha => hother a ?_
    rintro rfl
    exact Bool.false_ne_true (ha.symm.trans (hs.contains_start himmortal hr))
  exact ⟨m, hrun, {
    sound := hsound
    types_eq := rfl
    nursery_eq := rfl
    immortal_eq := rfl
    mature_eq := rfl
    large_eq := rfl
    markState_eq := rfl
    listing_subset := List.Subset.refl _
    plots_eq := ⟨rfl, rfl⟩
    reached_iff := fun chunk => (or_iff_left fun hk => absurd hk.1 (by decide)).symm
    room := fun k o bytes => (hiff k o bytes).mpr
    room_cases := fun k o bytes hr => Or.inl ((hiff _ _ _).mp hr)
    word := fun k o bytes hr a h1 h2 ha => hother a ha
    outside := fun a ha => hframe a (hs.contains_false_of_none himmortal ha)
    isMarked_iff := fun o bytes ho =>
      hs.isMarked_iff_of_other himmortal hr (by decide) hframe ((hiff _ _ _).mp ho)
    stays := fun _ => rfl
    copied := fun hk => absurd hk (by decide)
    large := fun hk => absurd hk (by decide)
    immortal := fun _ => hmarked }⟩

end Sound

namespace Extended

variable {h₁ h₂ h₃ : Heap} {t size : Nat}

-- A new cell is marked at once.
theorem visitCell (he : Extended h l .mature t size h₂ l) (hv : Visited h₂ l .mature t t h₃ l) :
    Extended h l .mature t size h₃ l := by
  have hiff : ∀ k o b, Room h₃ l k o b ↔ Room h₂ l k o b := fun k o b =>
    ⟨fun hr => (hv.room_cases _ _ _ hr).resolve_right fun hk => absurd hk.1 (by decide),
      hv.room _ _ _⟩
  refine ⟨hv.sound, hv.types_eq.trans he.types_eq,
    fun a => (hv.spaceOf?_eq a).trans (he.spaceOf?_eq a),
    fun hn => hv.nursery_eq.trans (he.nursery_none hn), hv.markState_eq.trans he.large_mark,
    (congrArg _ hv.immortal_eq).trans he.immortal_mark, he.reached_eq,
    fun b hb => hv.listing_subset (he.listing_subset hb),
    fun k o b => (hiff k o b).trans (he.room_iff k o b), he.fresh, fun k o b hr a h1 h2 => ?_,
    fun a ha => (hv.outside a ((he.spaceOf?_eq a).trans ha)).trans (he.outside a ha)⟩
  have hne : a ≠ t := by
    have := (he.apart hr).2
    have := (he.sound.room_mem he.room).2.2.1
    omega
  exact (hv.word _ _ _ ((he.room_iff _ _ _).mpr (Or.inl hr)) a h1 h2 hne).trans
    (he.kept _ _ _ hr a h1 h2)

-- The object `x` that `h₁` has claimed is copied to the new cell.
theorem moved (he : Extended h₁ l .mature t size h₃ l) (hs : h.Sound l)
    (hr : Room h l .nursery x bytes) (htypes : h₁.types = h.types)
    (hspace : ∀ a, h₁.spaceOf? a = h.spaceOf? a)
    (hrooms : ∀ k o b, Room h₁ l k o b ↔ Room h l k o b)
    (hword : ∀ a, a ≠ x → h₁.memory.read a = h.memory.read a)
    (hlisting : h₁.mature.listing = h.mature.listing)
    (hsame : h₃.nursery = h.nursery ∧ h₃.immortal = h.immortal ∧ h₃.large = h.large ∧
      h₃.mature.space.mapping = h.mature.space.mapping)
    (hmarks : ∀ o b, Room h₃ l .mature o b →
      (Block.isMarked h₃.memory o = true ↔ Block.isMarked h₁.memory o = true ∨ o = t))
    {m : Memory} {n : Nat} (hm : ∀ a, a ≠ x → a < t ∨ t + size ≤ a → m.read a = h₃.memory.read a)
    (hhead : m.read x = Status.forwardedTo t) (hsize : Object.size h.types h.memory x = .ok n)
    (hfits : n ≤ size) (hbody : ∀ a, a % wordBytes = 0 → 0 < a → a < n →
      m.read (t + a) = h.memory.read (x + a)) :
    Visited h l .nursery x t { h₃ with memory := m } l := by
  have hx := (he.room_iff _ _ _).mpr (Or.inl ((hrooms _ _ _).mpr hr))
  have hmem : ∀ a kind, h₃.spaceOf? a = some kind → ¬Inside h₃ l a kind →
      m.read a = h₃.memory.read a := by
    intro a kind ha hout
    refine hm a (fun heq => ?_) (by_contra fun hcon => ?_)
    · subst heq
      exact hout (he.sound.inside_start hx ha)
    · exact hout (he.sound.inside_room he.room (by omega) (by omega) ha)
  obtain ⟨hsound, hiff⟩ := he.sound.setMemory hmem
  have hold : ∀ k o b, Room { h₃ with memory := m } l k o b ↔
      Room h l k o b ∨ k = .mature ∧ o = t ∧ b = size := fun k o b =>
    (hiff k o b).trans ((he.room_iff k o b).trans (or_congr_left (hrooms k o b)))
  obtain ⟨hnursery, himmortal, hlarge, hmature⟩ := hsame
  exact {
    sound := hsound
    types_eq := he.types_eq.trans htypes
    nursery_eq := hnursery
    immortal_eq := himmortal
    mature_eq := hmature
    large_eq := congrArg (·.space.mapping) hlarge
    markState_eq := congrArg _ hlarge
    listing_subset := hlisting ▸ he.listing_subset
    plots_eq := ⟨rfl, rfl⟩
    room := fun k o b ho => (hold _ _ _).mpr (Or.inl ho)
    stays := fun hk => absurd rfl hk
    copied := fun _ => ⟨hhead, fun k b ho => he.fresh _ _ ((hrooms _ _ _).mpr ho), size, n,
      (hold _ _ _).mpr (Or.inr ⟨rfl, rfl, rfl⟩), hsize, hfits, hbody⟩
    large := fun hk => absurd hk (by decide)
    immortal := fun hk => absurd hk (by decide)
    reached_iff := fun c => ⟨Or.inl, fun hc => hc.resolve_right fun hk => absurd hk.1 (by decide)⟩
    room_cases := fun k o b ho => ((hold _ _ _).mp ho).imp_right fun hc => ⟨rfl, hc.1, hc.2.1⟩
    word := fun k o b ho a h1 h2 ha => by
      have ho₁ := (hrooms _ _ _).mpr ho
      have hap := (he.apart ho₁).2
      exact (hm a ha (by omega)).trans ((he.kept _ _ _ ho₁ a h1 h2).trans (hword a ha))
    outside := fun a ha => by
      have hax : a ≠ x := by
        rintro rfl
        rw [hs.spaceOf?_start hr] at ha
        cases ha
      have hnone : h₁.spaceOf? a = none := (hspace a).trans ha
      have hat : a < t ∨ t + size ≤ a := by
        by_contra hcon
        have hcell := he.sound.spaceOf?_room he.room (a := a) (by omega) (by omega)
        rw [he.spaceOf?_eq, hnone] at hcell
        cases hcell
      exact (hm a hax hat).trans ((he.outside a hnone).trans (hword a hax))
    isMarked_iff := fun o b ho => by
      have ho₃ := (hiff _ _ _).mp ho
      have hbits : Block.isMarked m o = Block.isMarked h₃.memory o := he.sound.isMarked_congr ho₃ hmem
      change Block.isMarked m o = true ↔ _
      rw [hbits, hmarks o b ho₃]
      refine or_congr_left' fun hne => ?_
      have ho₁ : Room h l .mature o b := ((hold _ _ _).mp ho).resolve_right fun hk => hne hk.2.1
      rw [hs.isMarked_congr ho₁ fun a kind ha hout => hword a fun heq => ?_]
      subst heq
      exact hout (hs.inside_start hr ha) }

end Extended

namespace Sound

variable (hs : h.Sound l)
include hs

-- A cell for a copy is new and marked.
theorem allocCopy_affords {y : CellAllocator} (hy : y.Owns h.mature) {n : Nat}
    (hn : n ≤ SizeClass.largest) :
    Affords (y.allocCopy h.mature h.memory n) fun q => ∃ size, n ≤ size ∧ q.2.1.Owns q.2.2.1 ∧
      q.2.2.1.space.mapping = h.mature.space.mapping ∧
      Extended h l .mature q.1 size { h with mature := q.2.2.1, memory := q.2.2.2 } l ∧
      ∀ o b, Room { h with mature := q.2.2.1, memory := q.2.2.2 } l .mature o b →
        (Block.isMarked q.2.2.2 o = true ↔ Block.isMarked h.memory o = true ∨ o = q.1) := by
  have halloc := hy.alloc_affords hs.mature hs.mature_extent_lt hn
  refine (halloc.attach fun q hq _ => hq).bind fun ⟨t, y', c, m⟩ hrun => .ok ?_
  obtain ⟨size, hfits, hown, hext, -⟩ := hs.allocCell hy hrun
  have hmarks := hy.isMarked_alloc hs.mature hs.mature_extent_lt hrun
  have hv := hext.sound.visitCell hext.room
  obtain ⟨_, _, -, -, htaken, -⟩ := hy.alloc hs.mature hs.mature_extent_lt hrun
  refine ⟨size, hfits, hown, htaken.mapping_eq, hext.visitCell hv, fun o b ho => ?_⟩
  rw [← hmarks]
  exact hv.isMarked_iff o b ho

-- An object that nobody has claimed is copied to a cell of its own.
theorem visitYoung (hr : Room h l .nursery x bytes)
    (hformed : Object.Formed h.types h.memory x bytes) (hle : bytes ≤ SizeClass.largest)
    (hfree : h.memory.read x % 4 = 0) {y : CellAllocator} (hy : y.Owns h.mature) :
    Affords (Nursery.forward h.types h.memory x fun m bytes => do
        let (a, y, mature, m) ← y.allocCopy h.mature m bytes
        .ok (a, (y, mature), m)) fun q => ∃ y' c, q.2.1 = some (y', c) ∧ y'.Owns c ∧
      Visited h l .nursery x q.1 { h with mature := c, memory := q.2.2 } l := by
  obtain ⟨hmod, -, hpos, -⟩ := hs.room_mem hr
  obtain ⟨hclaim, hclaimed⟩ := Status.claim?_ok hfree
  obtain ⟨n, hsize, hheader, hn⟩ := hformed.size_ok
  obtain ⟨hs₁, hrooms⟩ := hs.write hr (le_refl _) (by omega) (h.memory.read x + 1)
  have hword : ∀ a, a ≠ x → (h.memory.write x (h.memory.read x + 1)).read a = h.memory.read a :=
    fun a ha => Memory.read_write_of_ne ha _
  have hsize₁ : Object.size h.types (h.memory.write x (h.memory.read x + 1)) x = .ok n :=
    (hformed.size_congr fun a _ h1 _ => hword a (by omega)).trans hsize
  have halloc := hs₁.allocCopy_affords hy (hn.trans hle)
  simp only [Nursery.forward, Object.check, hmod, if_true, ok_bind, Object.status, hclaim,
    Object.setStatus, bind_assoc, hsize₁]
  refine halloc.bind ?_
  rintro ⟨t, y', c, m₃⟩ ⟨size, hfits, hown, hmapping, hext, hmarks⟩
  simp only at hown hmapping hext hmarks
  have hx := (hrooms _ _ _).mpr hr
  obtain ⟨htmod, -, htpos, -⟩ := hext.sound.room_mem hext.room
  have hapart := (hext.apart hx).2
  have hself : m₃.read x = h.memory.read x + 1 :=
    (hext.kept _ _ _ hx x (le_refl _) (by omega)).trans (Memory.read_write_self _ _ _)
  have hcopy := Memory.read_copy m₃ x t (hformed.size_mod hsize)
  have hstatus : ((m₃.copy x t n).write t (Status.forCopy (h.memory.read x))).read x =
      h.memory.read x + 1 := by
    rw [Memory.read_write_of_ne (by omega), hcopy, if_neg (by omega), hself]
  simp only [ok_bind, Nursery.evacuate, Object.check, htmod, if_true, Object.setStatus,
    Object.status, hstatus, hclaimed, Bool.not_true, Bool.false_eq_true, if_false]
  refine .ok ⟨y', c, rfl, hown, hext.moved hs hr rfl (fun _ => rfl) hrooms hword rfl
    ⟨rfl, rfl, rfl, hmapping⟩ hmarks (fun a hax hat => ?_) (Memory.read_write_self _ _ _) hsize hfits
    fun a ha h1 h2 => ?_⟩
  · rw [Memory.read_write_of_ne hax, Memory.read_write_of_ne (by omega), hcopy, if_neg (by omega)]
  · have haligned : (t + a) % wordBytes = t % wordBytes := by
      simp only [wordBytes] at ha htmod ⊢
      omega
    rw [Memory.read_write_of_ne (by omega), Memory.read_write_of_ne (by omega), hcopy,
      if_pos ⟨by omega, haligned, by omega⟩, Nat.add_sub_cancel_left]
    exact (hext.kept _ _ _ hx _ (by omega) (by omega)).trans (hword _ (by omega))

end Sound

end Heap

end Reclaim
