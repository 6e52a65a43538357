import Reclaim.Proofs.Heap.Rooms

/-!
Heaps whose rooms hold objects. The words behind its status word tell what an object is and what it
refers to, so an object changes only when a word of its own room is written.
-/
namespace Reclaim

open Sizes

-- The spaces whose objects are counted and freed one by one.
def SpaceKind.isCounted : SpaceKind → Bool
  | .mature | .large => true
  | .nursery | .immortal => false

namespace Heap

variable {h h' : Heap} {l : Layout} {kind : SpaceKind} {o o' bytes bytes' a : Nat}

-- The references that an object holds, one per slot that is not null.
def refs (h : Heap) (o : Nat) : List Nat := Object.refs h.types h.memory o

theorem status_eq (h : Heap) (o : Nat) : CountedHeap.status h o = h.memory.read o := rfl

theorem inCountedSpace_eq (h : Heap) (o : Nat) :
    h.inCountedSpace o = (h.spaceOf? o).any SpaceKind.isCounted := by
  unfold inCountedSpace
  cases h.spaceOf? o with
  | none => rfl
  | some kind => cases kind <;> rfl

namespace Sound

variable (hs : h.Sound l)
include hs

theorem inCountedSpace_room (hr : Room h l kind o bytes) :
    h.inCountedSpace o = kind.isCounted := by
  rw [inCountedSpace_eq, hs.spaceOf?_start hr, Option.any_some]

-- What looks like a counted object is one.
theorem isAllocated_iff (ho : o % wordBytes = 0) (hc : h.inCountedSpace o = true) :
    h.isAllocated o = .ok true ↔ ∃ kind bytes, Room h l kind o bytes ∧ kind.isCounted = true := by
  rw [inCountedSpace_eq, Option.any_eq_true] at hc
  obtain ⟨kind, hk, hcounted⟩ := hc
  have hkind : ∀ kind' bytes, Room h l kind' o bytes → kind' = kind := fun kind' bytes hr => by
    have hsame := hs.spaceOf?_start hr
    exact Option.some.inj (hsame.symm.trans hk)
  obtain ⟨s, hspace, hin⟩ := contains_of_spaceOf? hk
  cases kind with
  | mature =>
    simp only [isAllocated, hk, Except.ok.injEq, hs.mature.isAllocated_iff ho]
    constructor
    · rintro ⟨size, hu⟩
      exact ⟨_, _, .cell hu, rfl⟩
    · rintro ⟨kind', bytes, hr, -⟩
      cases hkind _ _ hr
      cases hr with
      | cell hu => exact ⟨_, hu⟩
  | large =>
    cases hspace
    rw [Space.contains_iff] at hin
    have hstart := hs.large.space.start_dvd
    have hpos := hs.large.space.start_pos
    have hge : Chunk.headerBytes ≤ o := by
      have := Nat.le_of_dvd hpos hstart
      simp only [blockBytes, Chunk.headerBytes] at this ⊢
      omega
    have hcontains : h.large.contains o = true := by
      rw [Treadmill.contains, Space.contains_iff]
      exact hin
    simp only [isAllocated, hk, Treadmill.containsObject, hcontains, Bool.not_true,
      Bool.false_eq_true, if_false, Chunk.ofObject, Word.sub_ok hge, ok_bind, Except.ok.injEq,
      hs.large.live_iff]
    constructor
    · intro hmem
      have hroom : Room h l .large (Chunk.object (o - Chunk.headerBytes)) _ := .chunk hmem
      rw [Chunk.object, Nat.sub_add_cancel hge] at hroom
      exact ⟨_, _, hroom, rfl⟩
    · rintro ⟨kind', bytes, hr, -⟩
      cases hkind _ _ hr
      cases hr with
      | chunk hmem =>
        rw [Chunk.object, Nat.add_sub_cancel]
        exact hmem
  | nursery => cases hcounted
  | immortal => cases hcounted

end Sound

-- Every room holds an object.
structure Populated (h : Heap) (l : Layout) : Prop where
  sound : h.Sound l
  formed : ∀ kind o bytes, Room h l kind o bytes → Object.Formed h.types h.memory o bytes

namespace Populated

variable (hp : h.Populated l)
include hp

theorem references_ok (hr : Room h l kind o bytes) : h.references o = .ok (h.refs o) :=
  (hp.formed _ _ _ hr).references_ok

-- A word of one room is written. What lies in the other rooms stays as it is.
theorem write (hr : Room h l kind o bytes) (h1 : o ≤ a) (h2 : a < o + bytes) {v : Nat}
    (hformed : Object.Formed h.types (h.memory.write a v) o bytes) :
    Populated { h with memory := h.memory.write a v } l ∧
      (∀ kind o bytes, Room { h with memory := h.memory.write a v } l kind o bytes ↔
        Room h l kind o bytes) ∧
      ∀ kind o' bytes', Room h l kind o' bytes' → o' ≠ o →
        refs { h with memory := h.memory.write a v } o' = h.refs o' ∧
          (h.memory.write a v).read o' = h.memory.read o' := by
  obtain ⟨hsound, hrooms⟩ := hp.sound.write hr h1 h2 v
  have hother : ∀ kind o' bytes', Room h l kind o' bytes' → o' ≠ o → ∀ b, o' ≤ b →
      b < o' + bytes' → (h.memory.write a v).read b = h.memory.read b := by
    intro kind' o' bytes' hr' hne b hb1 hb2
    refine Memory.read_write_of_ne (fun hba => ?_) v
    rcases hp.sound.room_apart hr hr' with ⟨-, heq, -⟩ | h3 | h3
    · exact hne heq.symm
    · omega
    · omega
  refine ⟨⟨hsound, fun kind' o' bytes' hr' => ?_⟩, hrooms, fun kind' o' bytes' hr' hne => ?_⟩
  · rw [hrooms] at hr'
    by_cases heq : o' = o
    · subst heq
      obtain ⟨rfl, rfl⟩ := hp.sound.room_unique hr hr'
      exact hformed
    · exact ((hp.formed _ _ _ hr').congr fun b _ hb1 hb2 =>
        hother _ _ _ hr' heq b (by omega) hb2).1
  · have hpos := (hp.sound.room_mem hr').2.2.1
    exact ⟨((hp.formed _ _ _ hr').congr fun b _ hb1 hb2 =>
      hother _ _ _ hr' hne b (by omega) hb2).2.2, hother _ _ _ hr' hne _ (le_refl _) (by omega)⟩

-- What is written behind the header of an object changes the size of none.
theorem size_write (hr : Room h l kind o bytes) {info : TypeInfo}
    (hinfo : Object.info h.types h.memory o = .ok info) (h1 : o + info.headerBytes ≤ a)
    (h2 : a < o + bytes) (v : Nat) {kind' : SpaceKind} {x bytes' : Nat} (hx : Room h l kind' x bytes') :
    Object.size h.types (h.memory.write a v) x = Object.size h.types h.memory x := by
  by_cases heq : x = o
  · subst heq
    exact (hp.formed _ _ _ hr).size_write hinfo h1 v
  · refine (hp.formed _ _ _ hx).size_congr fun b _ h3 h4 => Memory.read_write_of_ne (fun hba => ?_) v
    rcases hp.sound.room_apart hr hx with ⟨-, rfl, -⟩ | h5 | h5
    · exact heq rfl
    · omega
    · omega

-- The status word of one object changes.
theorem setHead (hr : Room h l kind o bytes) {m : Memory}
    (hm : ∀ a, a ≠ o → m.read a = h.memory.read a) :
    Populated { h with memory := m } l ∧
      (∀ kind x bytes, Room { h with memory := m } l kind x bytes ↔ Room h l kind x bytes) ∧
      ∀ kind x bytes, Room h l kind x bytes → refs { h with memory := m } x = h.refs x ∧
        Object.slotsOf h.types m x = Object.slotsOf h.types h.memory x := by
  obtain ⟨hsound, hrooms⟩ := hp.sound.setMemory fun a kind' ha hout => hm a fun hao => by
    subst hao
    exact hout (hp.sound.inside_start hr ha)
  have hsame : ∀ kind x bytes, Room h l kind x bytes →
      Object.Formed h.types m x bytes ∧ refs { h with memory := m } x = h.refs x ∧
        Object.slotsOf h.types m x = Object.slotsOf h.types h.memory x := by
    intro kind' x bytes' hr'
    have hword : ∀ b, b % wordBytes = 0 → x < b → b < x + bytes' → m.read b = h.memory.read b :=
        fun b _ hb1 hb2 => hm b fun hbo => by
      subst hbo
      rcases hp.sound.room_apart hr hr' with ⟨-, rfl, -⟩ | h3 | h3 <;> omega
    have hcongr := (hp.formed _ _ _ hr').congr hword
    exact ⟨hcongr.1, hcongr.2.2, hcongr.2.1⟩
  exact ⟨⟨hsound, fun kind' x bytes' hr' => (hsame _ _ _ ((hrooms _ _ _).mp hr')).1⟩, hrooms,
    fun kind' x bytes' hr' => (hsame _ _ _ hr').2⟩

-- Words outside of all spaces are written.
theorem setOutside {m : Memory}
    (hm : ∀ a kind, h.spaceOf? a = some kind → m.read a = h.memory.read a) :
    Populated { h with memory := m } l ∧
      (∀ kind o bytes, Room { h with memory := m } l kind o bytes ↔ Room h l kind o bytes) ∧
      ∀ kind o bytes, Room h l kind o bytes →
        refs { h with memory := m } o = h.refs o ∧ m.read o = h.memory.read o := by
  obtain ⟨hsound, hrooms⟩ := hp.sound.setOutside hm
  have hsame : ∀ kind o bytes, Room h l kind o bytes → ∀ b, o ≤ b → b < o + bytes →
      m.read b = h.memory.read b := fun kind o bytes hr b hb1 hb2 =>
    hm b kind (hp.sound.spaceOf?_room hr hb1 hb2)
  refine ⟨⟨hsound, fun kind o bytes hr => ?_⟩, hrooms, fun kind o bytes hr => ?_⟩
  · rw [hrooms] at hr
    exact ((hp.formed _ _ _ hr).congr fun b _ hb1 hb2 => hsame _ _ _ hr b (by omega) hb2).1
  · have hpos := (hp.sound.room_mem hr).2.2.1
    exact ⟨((hp.formed _ _ _ hr).congr fun b _ hb1 hb2 => hsame _ _ _ hr b (by omega) hb2).2.2,
      hsame _ _ _ hr _ (le_refl _) (by omega)⟩

end Populated

end Heap

end Reclaim
