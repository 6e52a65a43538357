import Reclaim.Proofs.Session.Run
import Reclaim.Proofs.Tour.Closing

/-!
What a collection of a plan that copies leaves: all that can be reached, at another address if it was in
the nursery, and nothing else. References and roots follow the objects.
-/
namespace Reclaim

open Heap Queue Sizes

-- A null reference leads nowhere, wherever objects go.
def follow (f : Nat → Nat) (v : Nat) : Nat := if v = 0 then 0 else f v

namespace Opened

variable {p p₀ : Plan} {stopped : List Mutator} {l l₀ : Layout} {known : Set Nat} {x : Nat}
variable (ho : Opened p p₀ stopped l l₀ known)
include ho

theorem memory_eq : p₀.heap.memory = p.memory := ho.rearranged.memory_eq

theorem target_eq (root : Root) : root.target p₀.heap.memory = root.target p.memory := by
  rw [ho.memory_eq]

theorem roots_eq : (p₀.ground l₀).roots = p.roots := ho.alike.roots_eq

theorem size_eq (x : Nat) : (p₀.ground l₀).size x = Object.size p.heap.types p.memory x := by
  change Object.size p₀.heap.types p₀.heap.memory x = _
  rw [ho.rearranged.types_eq, ho.memory_eq]

-- What a closure has come to can tell its references.
theorem references_ok (hx : (p₀.ground l₀).Traces x) :
    p.heap.references x = .ok (p.heap.refs x) := by
  obtain ⟨kind, bytes, hr⟩ := ho.ready.traced x hx
  have hformed := ho.ready.populated.formed _ _ _ hr
  have hok : p₀.heap.references x = .ok (p₀.heap.refs x) := hformed.references_ok
  rw [references, ho.rearranged.types_eq, ho.rearranged.memory_eq, ho.rearranged.refs_eq] at hok
  exact hok

-- Immortal objects that can be reached were reached before, or are new.
variable (hmarks : ∀ x, p.Reaches [] x → p.heap.spaceOf? x = some .immortal →
  Status.isMarked (p.memory.read x) p.heap.immortal.markState = true)
include hmarks

end Opened

namespace Evacuated

variable {p p₀ p₁ p' : Plan} {stopped : List Mutator} {l l₀ l' : Layout} {known : Set Nat}
variable {stats : TraceStats} {q : Progress} {x n : Nat}
variable (he : Evacuated p p₀ p₁ p' stopped l l₀ l' known stats q)
include he

-- What was visited has a room where it is, and its words are as the closure left them.
theorem home (hx : x ∈ q.seen) (hsize : (p₀.ground l₀).size x = .ok n) :
    ∃ kind bytes, Room p'.heap l' kind (q.place x) bytes ∧ n ≤ bytes ∧
      Object.Formed p₁.heap.types p₁.memory (q.place x) bytes ∧
      Object.slotsOf p₁.heap.types p₁.memory (q.place x) =
        ((p₀.ground l₀).slots x).map (fun slot => slot - x + q.place x) ∧
      ∀ a, q.place x ≤ a → a < q.place x + bytes → p'.memory.read a = p₁.memory.read a := by
  obtain ⟨⟨kind₀, bytes₀, hr₀⟩, -⟩ := he.closed.toured.seen_room x hx
  obtain ⟨kind, bytes, hr, hle, hformed, -, hslots⟩ :=
    he.closed.toured.formed he.opened.ready hr₀ hsize
  have hr' := (he.released.left.room_iff _ _ _).mpr
    ⟨hr, he.closed.toured.keeps he.opened.ready hx hr⟩
  exact ⟨kind, bytes, hr', hle, hformed, hslots, he.released.left.word _ _ _ hr'⟩

theorem size_ok (hx : x ∈ q.seen) : ∃ n, (p₀.ground l₀).size x = .ok n :=
  let ⟨⟨_, _, hr⟩, _⟩ := he.closed.toured.seen_room x hx
  let ⟨n, hsize, _⟩ := he.opened.ready.size_ok hr
  ⟨n, hsize⟩

theorem mem_of_held {o : Nat} (ho : p'.heap.Holds o) : ∃ x ∈ q.seen, o = q.place x := by
  obtain ⟨kind, bytes, hr, hk⟩ :=
    (he.released.left.sound.isAllocated_iff ho.aligned ho.counted).mp ho.allocated
  obtain ⟨hr₁, hkeeps⟩ := (he.released.left.room_iff _ _ _).mp hr
  refine (he.closed.toured.visited_of_keeps hr₁ hkeeps).resolve_right ?_
  rintro rfl
  cases hk

theorem allocated (hx : x ∈ q.seen) : p'.heap.isAllocated (q.place x) = .ok true := by
  obtain ⟨n, hsize⟩ := he.size_ok hx
  obtain ⟨kind, bytes, hr, -⟩ := he.home hx hsize
  have hsound := he.released.left.sound
  have hmod := (hsound.room_mem hr).1
  by_cases hk : kind.isCounted = true
  · exact (hsound.isAllocated_iff hmod (hsound.inCountedSpace_room hr ▸ hk)).mpr
      ⟨kind, bytes, hr, hk⟩
  · rw [isAllocated, hsound.spaceOf?_start hr]
    cases kind <;> first | rfl | exact absurd rfl hk

end Evacuated

end Reclaim
