import Reclaim.Proofs.Cells.Living
import Reclaim.Proofs.Heap.Population

/-!
How many small and large objects there are. Bitmaps and lists tell that; it is the number of their rooms.
-/
namespace Reclaim.Heap

variable {h h' : Heap} {l l' : Layout}

-- The number of cells in use and of large objects.
def liveCount (h : Heap) : Nat := h.mature.liveCount h.memory + h.large.objectCount

-- The small and the large objects.
def lasting (h : Heap) (l : Layout) : Set Nat :=
  { o | ∃ kind bytes, kind.isCounted = true ∧ Room h l kind o bytes }

def cells (h : Heap) : Set Nat := { o | ∃ size, Cells.Used h.memory h.mature.listing size o }

theorem mem_cells {o : Nat} : o ∈ h.cells ↔ ∃ bytes, Room h l .mature o bytes := by
  constructor
  · rintro ⟨size, hu⟩
    exact ⟨_, .cell hu⟩
  · rintro ⟨bytes, hr⟩
    cases hr with
    | cell hu => exact ⟨_, hu⟩

theorem lasting_eq (h : Heap) (l : Layout) :
    h.lasting l = h.cells ∪ { o | ∃ chunk ∈ l.chunks, Chunk.object chunk = o } := by
  ext o
  constructor
  · rintro ⟨kind, bytes, hk, hr⟩
    cases hr with
    | young _ => cases hk
    | cell hu => exact Or.inl ⟨_, hu⟩
    | chunk hc => exact Or.inr ⟨_, hc, rfl⟩
    | plot _ => cases hk
  · rintro (⟨size, hu⟩ | ⟨chunk, hc, rfl⟩)
    · exact ⟨.mature, _, rfl, .cell hu⟩
    · exact ⟨.large, _, rfl, .chunk hc⟩

namespace Sound

variable (hs : h.Sound l)
include hs

theorem objectCount_eq : h.large.objectCount = l.chunks.length := by
  rw [Treadmill.objectCount, hs.large.unreached_valid.length_eq, hs.large.reached_valid.length_eq,
    Layout.chunks, List.length_append]

theorem liveCount_eq_add : h.liveCount = h.cells.ncard + l.chunks.length := by
  rw [liveCount, hs.objectCount_eq, hs.mature.liveCount_eq, hs.mature.listed.liveIn_eq_ncard, cells]

theorem finite_lasting : (h.lasting l).Finite := by
  rw [lasting_eq]
  refine hs.mature.listed.finite_used.union (Set.Finite.subset (l.chunks.map Chunk.object).toFinset.finite_toSet ?_)
  rintro o ⟨chunk, hc, rfl⟩
  exact List.mem_toFinset.mpr (List.mem_map_of_mem hc)

theorem liveCount_eq_ncard : h.liveCount = (h.lasting l).ncard := by
  have hnodup : (l.chunks.map Chunk.object).Nodup :=
    hs.large.nodup.map fun _ _ heq => Nat.add_right_cancel heq
  have hchunks : { o | ∃ chunk ∈ l.chunks, Chunk.object chunk = o } =
      ((l.chunks.map Chunk.object).toFinset : Set Nat) := by
    ext o
    rw [Finset.mem_coe, List.mem_toFinset, List.mem_map]
    rfl
  have hapart : Disjoint h.cells ((l.chunks.map Chunk.object).toFinset : Set Nat) := by
    rw [← hchunks, Set.disjoint_left]
    rintro o ⟨size, hu⟩ ⟨chunk, hc, rfl⟩
    cases (hs.room_unique (.cell hu) (.chunk hc)).1
  rw [lasting_eq, hchunks, Set.ncard_union_eq hapart hs.mature.listed.finite_used
    (Finset.finite_toSet _), Set.ncard_coe_finset, List.toFinset_card_of_nodup hnodup,
    List.length_map, hs.liveCount_eq_add]

-- Where the same objects are, there are as many.
theorem liveCount_congr (hs' : h'.Sound l')
    (hrooms : ∀ kind o bytes, kind.isCounted = true →
      (Room h' l' kind o bytes ↔ Room h l kind o bytes)) : h'.liveCount = h.liveCount := by
  rw [hs.liveCount_eq_ncard, hs'.liveCount_eq_ncard]
  refine congrArg Set.ncard (Set.ext fun o => exists_congr fun kind => exists_congr fun bytes => ?_)
  exact and_congr_right (hrooms kind o bytes)

end Sound

end Reclaim.Heap
