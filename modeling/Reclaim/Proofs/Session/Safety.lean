import Reclaim.Proofs.Plan.Harmless
import Reclaim.Proofs.Session.Steps

/-!
Whatever mutators have done, a collection keeps every object that can be reached from the roots or from
an immortal object, and no count is ever found damaged.
-/
namespace Reclaim

open CountedHeap Heap Queue Sizes

variable {h h' : Heap} {counts : CountState} {l l' : Layout} {r : Finset Nat} {kind : SpaceKind}
variable {o bytes : Nat}

namespace Heap

-- The object at `o` is still there, with all words but its status word as they were.
structure Kept (h h' : Heap) (o : Nat) : Prop where
  types_eq : h'.types = h.types
  before : h.isAllocated o = .ok true
  after : h'.isAllocated o = .ok true
  words : ∃ bytes, Object.size h.types h.memory o = .ok bytes ∧
    Object.size h'.types h'.memory o = .ok bytes ∧ Types.scalarHeaderBytes ≤ bytes ∧
    ∀ a, o < a → a < o + bytes → h'.memory.read a = h.memory.read a
  references_eq : h'.references o = h.references o

theorem Sound.isAllocated_room (hs : h.Sound l) (hr : Room h l kind o bytes) :
    h.isAllocated o = .ok true := by
  have hmod := (hs.room_mem hr).1
  have hspace := hs.spaceOf?_start hr
  by_cases hk : kind.isCounted = true
  · exact (hs.isAllocated_iff hmod ((hs.inCountedSpace_room hr).trans hk)).mpr ⟨kind, bytes, hr, hk⟩
  · unfold isAllocated
    rw [hspace]
    cases kind with
    | nursery => rfl
    | immortal => rfl
    | mature => exact absurd rfl hk
    | large => exact absurd rfl hk

end Heap

-- An object that has its room after a collection is the object that it was.
theorem Pruned.kept (hp : Pruned h l h' l') (hb : h.Populated l) (hb' : h'.Populated l')
    (hr' : Room h' l' kind o bytes) : Kept h h' o := by
  have hr := hp.room _ _ _ hr'
  have hf := hb.formed _ _ _ hr
  have hword := hp.word _ _ _ hr'
  have hsize' := hf.size_congr (fun a _ => hword a)
  obtain ⟨size, hsize, hheader, hle⟩ := hf.size_ok
  refine ⟨hp.types_eq, hb.sound.isAllocated_room hr, hb'.sound.isAllocated_room hr',
    ⟨size, hsize, ?_, hheader, fun a h1 h2 => hword a h1 (by omega)⟩, ?_⟩
  · rw [hp.types_eq, hsize', hsize]
  · rw [hb'.references_ok hr', hb.references_ok hr, (hp.same hb hr').2]

namespace Session

variable {s : Session} {op : Op}

theorem harmless_mutator (s : Session) (i : Nat) : Harmless (s.mutator i) := by
  unfold mutator
  split
  · exact .ok _
  · exact .error nofun

theorem Sound.harmless (hs : s.Sound counts l r) (ha : s.Allowed op) : Harmless (s.perform op) := by
  cases op with
  | bind => exact .ok _
  | drop i =>
    obtain ⟨s', counts', l', hrun, -⟩ := hs.drop ha
    rw [hrun]
    exact .ok _
  | create i type length semantics =>
    exact (s.harmless_mutator i).bind fun _ => (Mutator.harmless_newObject _ _ _ _ _).bind
      fun _ => .ok _
  | write i o index value =>
    exact (s.harmless_mutator i).bind fun _ => (Mutator.harmless_writeReference _ _ _ _ _).bind
      fun _ => .ok _
  | fill a w => exact .ok _
  | setGlobal index value => exact (Globals.harmless_set _ _ _ _).bind fun _ => .ok _
  | setStacks scheduler words => exact .ok _
  | suspect o => exact (Plan.harmless_enqueueForCycleCheck _ _).bind fun _ => .ok _
  | setTimeCap cap => exact .ok _
  | setClock clock => exact .ok _
  | collect mutators =>
    rcases hs.collect ha with ⟨s', hrun, -⟩ | ⟨-, f, hrun, hshort⟩
    · rw [hrun]
      exact .ok _
    · rw [hrun]
      rcases hshort with rfl | rfl <;> exact .error nofun

-- A collection ends, unless no buffers can be had, and what it can reach is there when it ends.
theorem Sound.collect_kept (hs : s.Sound counts l r) {mutators : List Mutator}
    (ha : s.Allowed (.collect mutators)) :
    Yields s.plan.Roomy (s.perform (.collect mutators)) fun s' =>
      ∀ o, s.plan.Reaches s.immortals o → Kept s.plan.heap s'.plan.heap o := by
  refine (hs.collect ha).mono fun s' ⟨counts', l', r', hs', hcol, _, hknown⟩ o ho => ?_
  have ho' : o ∈ s'.known := by
    rw [hknown]
    exact ho
  obtain ⟨kind, bytes, hr⟩ := hs'.standing.room_of_known ho'
  exact hcol.pruned.kept hs.standing.populated hs'.standing.populated hr

-- Whatever has happened, no operation finds a count damaged and no collection loses an object that it
-- can reach.
theorem Run.safe (hrun : Run s) : (∀ op, s.Allowed op → Harmless (s.perform op)) ∧
    ∀ mutators, s.Allowed (.collect mutators) →
      Yields s.plan.Roomy (s.perform (.collect mutators)) fun s' =>
        ∀ o, s.plan.Reaches s.immortals o → Kept s.plan.heap s'.plan.heap o := by
  obtain ⟨counts, l, r, hs⟩ := hrun.sound
  exact ⟨fun _ ha => hs.harmless ha, fun _ ha => hs.collect_kept ha⟩

-- A collection keeps an object that a global holds.
theorem safe_single : ∃ s s' o, Run s ∧ s.plan.Reaches s.immortals o ∧
    s.perform (.collect s.mutators) = .ok s' ∧ Kept s.plan.heap s'.plan.heap o := by
  have hsome : (Single.rooted.perform (.collect Single.rooted.mutators)).toOption.isSome = true := by
    decide +kernel
  obtain ⟨-, hcollect⟩ := Run.safe Single.run_rooted
  rcases hcollect _ Single.allowed_collect with ⟨s', hok, hkept⟩ | ⟨-, f, hf, -⟩
  · exact ⟨_, s', _, Single.run_rooted, Single.reaches_object, hok, hkept _ Single.reaches_object⟩
  · rw [hf] at hsome
    cases hsome

end Session

end Reclaim
