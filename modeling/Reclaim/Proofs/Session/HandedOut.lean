import Reclaim.Proofs.Session.Survival

/-!
What a plan tells about addresses. An address that it takes for an object among the small or the large ones
lies in memory that is handed out. It says the same of every address in the nursery and among the immortal
objects, without a look at what is handed out there.
-/
namespace Reclaim

open Heap Sizes

-- By the books of the space, the page of the address is handed out.
def Space.handsOut (s : Space) (a : Nat) : Bool :=
  s.contains a && decide (s.page a < s.highWater) &&
    s.free.all fun r => !(decide (r.first ≤ s.page a) && decide (s.page a < r.stop))

def Heap.handsOut (h : Heap) (a : Nat) : Bool :=
  ((h.spaceOf? a).bind h.space?).any (·.handsOut a)

-- Each page below the high water mark is on the free list or in a run that somebody has.
theorem Space.Sound.handsOut_iff {s : Space} {out : List Run} {m : Memory} (hs : s.Sound out m)
    {a : Nat} (ha : s.contains a = true) : s.handsOut a = true ↔ 0 < Run.cover out (s.page a) := by
  have hcover := hs.cover_eq (s.page a)
  have hfree : (s.free.all fun r => !(decide (r.first ≤ s.page a) && decide (s.page a < r.stop))) =
      true ↔ Run.cover s.free (s.page a) = 0 := by
    rw [Run.cover, List.countP_eq_zero, List.all_eq_true]
    refine forall₂_congr fun r _ => ?_
    rw [Run.stop, ← Bool.decide_and, Bool.not_eq_true', decide_eq_false_iff_not, decide_eq_true_eq]
  rw [handsOut, ha, Bool.true_and, Bool.and_eq_true, decide_eq_true_eq, hfree]
  split at hcover
  · rename_i hlt
    exact ⟨fun h => by omega, fun h => ⟨hlt, by omega⟩⟩
  · rename_i hlt
    exact ⟨fun h => absurd h.1 hlt, fun h => by omega⟩

namespace Heap.Sound

variable {h : Heap} {l : Layout} {kind : SpaceKind} {o bytes a : Nat}

-- All of an object lies in memory that is handed out.
theorem handsOut_room (hs : h.Sound l) (hr : Room h l kind o bytes) (h1 : o ≤ a)
    (h2 : a < o + bytes) : h.handsOut a = true := by
  obtain ⟨-, -, -, s, hspace, hin⟩ := hs.room_mem hr
  obtain ⟨hcontains, hinside⟩ := hin a h1 h2
  have hspaceOf := hs.spaceOf?_room hr h1 h2
  rw [handsOut, hspaceOf, Option.bind_some, hspace, Option.any_some]
  cases hr with
  | young hr =>
    have hp := hs.nursery s hspace
    exact (hp.space.handsOut_iff hcontains).mpr (hp.room_in _ hr a ⟨h1, h2⟩).2
  | plot hr =>
    cases hspace
    exact (hs.immortal.space.handsOut_iff hcontains).mpr (hs.immortal.room_in _ hr a ⟨h1, h2⟩).2
  | cell hu =>
    cases hspace
    obtain ⟨b, hb, h3, h4⟩ := hinside
    exact (hs.mature.listed.space.handsOut_iff hcontains).mpr
      (hs.mature.listed.cover_pos hb (Nat.le_of_add_right_le h3) h4)
  | @chunk chunk hc =>
    cases hspace
    refine (hs.large.space.handsOut_iff hcontains).mpr ?_
    have hle := hs.large.page_le hc
    refine hs.large.cover_pos hc ?_ ?_ <;> (simp only [Chunk.object] at h1 h2; omega)

-- Small and large objects are looked for where they are.
theorem handsOut_of_isAllocated (hs : h.Sound l) (ho : o % wordBytes = 0)
    (h1 : h.isAllocated o = .ok true) (hc : h.inCountedSpace o = true) : h.handsOut o = true := by
  obtain ⟨kind, bytes, hr, -⟩ := (hs.isAllocated_iff ho hc).mp h1
  have hpos := (hs.room_mem hr).2.2.1
  exact hs.handsOut_room hr (le_refl _) (by omega)

end Heap.Sound

-- The address is in the nursery or among the immortal objects.
def Heap.InPlots (h : Heap) (o : Nat) : Prop :=
  h.spaceOf? o = some .nursery ∨ h.spaceOf? o = some .immortal

theorem Heap.isAllocated_of_inPlots {h : Heap} {o : Nat} (ho : h.InPlots o) :
    h.isAllocated o = .ok true := by
  unfold isAllocated
  rcases ho with ho | ho <;> rw [ho]

namespace Session

variable {s : Session}

theorem Run.sound_heap (hs : Run s ∨ Trail s) : ∃ l, s.plan.heap.Sound l := by
  rcases hs with hrun | ht
  · obtain ⟨counts, l, r, hs⟩ := hrun.sound
    exact ⟨l, hs.standing.populated.sound⟩
  · obtain ⟨l, hs⟩ := ht.inOrder
    exact ⟨l, hs.tidy.populated.sound⟩

-- An address that a plan takes for an object lies in memory that is handed out, unless it is in the nursery
-- or among the immortal objects. There the plan takes every address for one.
theorem isAllocated_handedOut (hs : Run s ∨ Trail s) :
    (∀ o, o % wordBytes = 0 → ¬s.plan.heap.InPlots o → s.plan.heap.isAllocated o = .ok true →
      s.plan.heap.handsOut o = true) ∧
    ∀ o, s.plan.heap.InPlots o → s.plan.heap.isAllocated o = .ok true := by
  obtain ⟨l, hsound⟩ := Run.sound_heap hs
  refine ⟨fun o ho hplots h1 => hsound.handsOut_of_isAllocated ho h1 ?_, fun o =>
    isAllocated_of_inPlots⟩
  cases hspace : s.plan.heap.spaceOf? o with
  | none => simp [isAllocated, hspace] at h1
  | some kind =>
    rw [inCountedSpace, hspace]
    cases kind with
    | nursery => exact absurd (Or.inl hspace) hplots
    | immortal => exact absurd (Or.inr hspace) hplots
    | mature => rfl
    | large => rfl

-- The object of a session that counts is where memory is handed out.
theorem isAllocated_handedOut_single : Single.rooted.plan.heap.isAllocated Single.object = .ok true ∧
    Single.rooted.plan.heap.handsOut Single.object = true := by
  have hplots : ¬Single.rooted.plan.heap.InPlots Single.object := by
    have hspace : Single.rooted.plan.heap.spaceOf? Single.object = some .mature := by decide +kernel
    rintro (h | h) <;>
    · rw [hspace] at h
      cases h
  have h1 : Single.rooted.plan.heap.isAllocated Single.object = .ok true := by decide +kernel
  exact ⟨h1, (isAllocated_handedOut (Or.inl Single.run_rooted)).1 _ (by decide) hplots h1⟩

namespace Youth

@[irreducible] def collected : List Mutator × Plan :=
  (rooted.plan.collect rooted.mutators).toOption.get (by decide +kernel)

theorem trail_collected : Trail (rooted.resume collected.1 collected.2) := by
  refine .collect trail_rooted (.refl _) collectable ?_
  unfold collected
  exact eq_ok_get _

end Youth

-- After a collection no page of the nursery is handed out, but the plan takes the old address of an object
-- for an object.
theorem not_handsOut_of_isAllocated : ¬∀ s, Run s ∨ Trail s → ∀ o, o % wordBytes = 0 →
    s.plan.heap.isAllocated o = .ok true → s.plan.heap.handsOut o = true := by
  intro h
  have h1 := h _ (Or.inr Youth.trail_collected) Youth.object (by decide) (by decide +kernel)
  have h2 : (Youth.rooted.resume Youth.collected.1 Youth.collected.2).plan.heap.handsOut Youth.object = false := by
    decide +kernel
  rw [h2] at h1
  cases h1

end Session

end Reclaim
