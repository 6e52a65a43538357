import Reclaim.Proofs.Counting.Confluence
import Reclaim.Proofs.Heap.Counted

/-!
What freed objects leave behind. The words of a cell stay as they are until the cell is taken again,
and pages that come back are blank. Either way an object that is gone has no count.
-/
namespace Reclaim.Heap

open Sizes Trial

variable {base h h' : Heap} {l₀ l : Layout} {kind : SpaceKind} {o a bytes : Nat} {r₀ r : Finset Nat}

namespace Trimmed

variable (ht : Trimmed base l₀ h l)
include ht

theorem chunks_eq : l.chunks = l.unreached := by rw [Layout.chunks, ht.reached_eq, List.append_nil]

-- No chunk lies where a large object is gone.
theorem read_gone (hb : base.Sound l₀) (hr : Room base l₀ .large o bytes)
    (hgone : ∀ bytes, ¬Room h l .large o bytes) : h.memory.read o = 0 := by
  have hlarge := ht.sound.large
  obtain ⟨-, -, hpos, _, hspace, hin⟩ := hb.room_mem hr
  cases hspace
  have ho := (hin o (le_refl _) (by omega)).1
  rw [← Space.contains_congr ht.large_eq] at ho
  refine hlarge.space.blank o ho (Nat.eq_zero_of_not_pos fun hcover => ?_)
  obtain ⟨run, hrun, h1, h2⟩ := Run.exists_of_cover_pos hcover
  obtain ⟨chunk, hchunk, rfl⟩ := List.mem_map.mp hrun
  obtain ⟨hfirst, hstop⟩ := hlarge.run_first hchunk
  have hroom : Room h l .large (Chunk.object chunk) _ := .chunk hchunk
  have haligned := hlarge.aligned chunk hchunk
  have hpages := hlarge.pages_pos hchunk
  -- the object would lie in the room of that chunk
  cases hr with
  | @chunk chunk₀ hchunk₀ =>
    have haligned₀ := hb.large.aligned chunk₀ hchunk₀
    have hinside : Chunk.object chunk ≤ Chunk.object chunk₀ ∧
        Chunk.object chunk₀ < chunk + pageBytes * h.memory.read (chunk + 16) := by
      have hstart := ((Space.contains_iff _ _).mp ho).1
      simp only [Space.page, Run.stop, Chunk.object, Chunk.headerBytes, pageBytes] at *
      omega
    rcases hb.room_apart (ht.room _ _ _ hroom) (.chunk hchunk₀) with ⟨-, heq, -⟩ | hapart | hapart
    · exact hgone _ (heq ▸ hroom)
    · simp only [Chunk.object, Chunk.headerBytes, pageBytes] at *
      omega
    · omega

end Trimmed

-- Blocks of cells stay, and so do the words of their cells.
structure Stays (h h' : Heap) : Prop where
  listing_eq : h'.mature.listing = h.mature.listing
  read_eq : ∀ a, Cells.Inside h.mature.listing a → h'.memory.read a = h.memory.read a

theorem Trimmed.free_stays (ht : Trimmed base l₀ h l) (hr : Room h l kind o bytes)
    (hk : kind.isCounted = true) (hfree : CountedHeap.free h o = .ok h') : Stays h h' := by
  have hspace := ht.sound.spaceOf?_start hr
  change Heap.free h o = _ at hfree
  rw [Heap.free, hspace] at hfree
  cases hr with
  | cell hu =>
    obtain ⟨c, m, hrun, -, -, hlisting, -, hframe⟩ := ht.sound.mature.free hu
    simp only [hrun, ok_bind] at hfree
    cases hfree
    exact ⟨hlisting, fun a ha => hframe a (Or.inr ha)⟩
  | @chunk chunk hchunk =>
    have hlarge := ht.sound.large
    obtain ⟨before, after, hsplit⟩ := List.append_of_mem (ht.chunks_eq ▸ hchunk)
    rw [ht.reached_eq, hsplit] at hlarge
    obtain ⟨t, m, hrun, -, -, -, -, hframe⟩ := hlarge.free
    simp only [hrun, ok_bind] at hfree
    cases hfree
    exact ⟨rfl, fun a ha => ht.sound.read_of_other (show h.space? .large = some _ from rfl)
      (fun b hb => hframe b (Or.inl hb)) (show h.space? .mature = some _ from rfl) (by decide)
      (ht.sound.mature.listed.contains_of_inside ha)⟩
  | young _ => cases hk
  | plot _ => cases hk

-- `h` is left of `base`, which had the objects `r₀`. What is gone of them has no count.
structure Remnant (base : Heap) (l₀ : Layout) (r₀ : Finset Nat) (h : Heap) (r : Finset Nat)
    (l : Layout) : Prop where
  shown : Shown base l₀ h (base.census r₀) r l
  roll : Roll base l₀ r₀
  subset : r ⊆ r₀
  listing_eq : h.mature.listing = base.mature.listing
  gone : ∀ x ∈ r₀, x ∉ r → CountedHeap.count h x = 0

namespace Remnant

variable (hl : Remnant base l₀ r₀ h r l)
include hl

theorem setStatus (ho : o ∈ r) (s : Nat) :
    Remnant base l₀ r₀ (CountedHeap.setStatus h o s) r l :=
  { hl with
    shown := hl.shown.setStatus ho s
    gone := fun x hx hxr => by
      have hne : x ≠ o := fun heq => hxr (heq ▸ ho)
      have hread : CountedHeap.status (CountedHeap.setStatus h o s) x = CountedHeap.status h x :=
        Memory.read_write_of_ne hne s
      rw [CountedHeap.count, hread]
      exact hl.gone x hx hxr }

theorem free (ho : o ∈ r) (hcount : CountedHeap.count h o = 0) : ∃ h' l', CountedHeap.free h o = .ok h' ∧
    Remnant base l₀ r₀ h' (r.erase o) l' ∧
    ∀ x ∈ r.erase o, CountedHeap.status h' x = CountedHeap.status h x := by
  obtain ⟨h', l', hfree, hshown, hstatus⟩ := hl.shown.free ho
  obtain ⟨kind, bytes, hk, hroom⟩ := hl.shown.exists_room ho
  have hstays := hl.shown.trimmed.free_stays hroom hk hfree
  refine ⟨h', l', hfree, ⟨hshown, hl.roll, (Finset.erase_subset _ _).trans hl.subset,
    hstays.listing_eq.trans hl.listing_eq, fun x hx hgone => ?_⟩, hstatus⟩
  obtain ⟨kind, bytes, hk, hroom⟩ := (hl.roll x).mp hx
  cases hroom with
  | cell hu =>
    have hread : CountedHeap.status h' x = CountedHeap.status h x := by
      refine hstays.read_eq x ?_
      rw [hl.listing_eq]
      obtain ⟨hsize, -, hin⟩ := hl.shown.populated.sound.mature.listed.used_mem hu
      exact hin x (le_refl _) (by have := (SizeClass.bytes_mem hsize).2.1; omega)
    rw [CountedHeap.count, hread]
    by_cases hxo : x = o
    · exact hxo ▸ hcount
    · exact hl.gone x hx fun hxr => hgone (Finset.mem_erase.mpr ⟨hxo, hxr⟩)
  | chunk hc =>
    have hread : CountedHeap.status h' (Chunk.object _) = 0 :=
      hshown.trimmed.read_gone hl.shown.populated.sound (.chunk hc) fun bytes hr =>
        hgone ((hshown.roll _).mpr ⟨.large, bytes, rfl, hr⟩)
    rw [CountedHeap.count, hread]
    rfl
  | young _ => cases hk
  | plot _ => cases hk

end Remnant

theorem Remnant.refl (hp : base.Populated l₀) (ha : base.Aligned l₀) (hreached : l₀.reached = [])
    (hr : Roll base l₀ r₀) : Remnant base l₀ r₀ base r₀ l₀ where
  shown := ⟨hp, ha, .refl hp.sound hreached, hr, fun _ _ => rfl, fun _ => rfl⟩
  roll := hr
  subset := Finset.Subset.refl _
  listing_eq := rfl
  gone _ hx hgone := absurd hx hgone

-- The heap as decrements wear it down.
def mortal (base : Heap) (l₀ : Layout) (r₀ : Finset Nat) :
    Counting.Mortal (lawful base l₀) (base.census r₀) where
  Keeps h r := ∃ l, Remnant base l₀ r₀ h r l
  shows := fun ⟨l, hl⟩ => ⟨l, hl.shown⟩
  subset := fun ⟨_, hl⟩ => hl.subset
  isCounted_ok := by
    rintro h r o ⟨l, hl⟩ ho
    obtain ⟨kind, bytes, hk, hroom⟩ := (hl.roll o).mp ho
    have hbase := hl.shown.populated.sound
    rw [hl.shown.isCounted_ok fun _ => (hbase.room_mem hroom).1, hl.shown.isCounted,
      hbase.inCountedSpace_room hroom, hk]
  keeps_setStatus := fun ⟨l, hl⟩ ho s => ⟨l, hl.setStatus ho s⟩
  free_ok := by
    rintro h r o ⟨l, hl⟩ ho hcount
    obtain ⟨h', l', hfree, hl', hstatus⟩ := hl.free ho hcount
    exact ⟨h', hfree, ⟨l', hl'⟩, hstatus⟩
  count_gone := fun ⟨_, hl⟩ hx hgone => hl.gone _ hx hgone
  status_other := by
    rintro h h' r r' x ⟨l, hl⟩ ⟨l', hl'⟩ hx
    rw [hl.shown.isCounted] at hx
    exact (hl.shown.trimmed.frame x hx).trans (hl'.shown.trimmed.frame x hx).symm

end Reclaim.Heap
