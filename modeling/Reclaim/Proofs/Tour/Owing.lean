import Reclaim.Proofs.Tour.Toured

/-!
What a closure still has to do. A task is a root to trace or an object to scan; an object that is
scanned leaves a task for every reference that it holds. When no task is left, all that roots lead to
has been visited and all references follow the objects.
-/
namespace Reclaim

open Heap Sizes

inductive Task where
  | root (r : Root)
  | scan (o : Nat)
deriving DecidableEq

namespace Task

-- The reference in a slot is to be traced.
abbrev edge (slot : Nat) : Task := .root (.location slot)

def scan? : Task → Option Nat
  | .root _ => none
  | .scan o => some o

def innerSlot? : Task → Option Nat
  | .root r => r.innerSlot?
  | .scan _ => none

-- A task that is not the first is one of the others.
theorem mem_or_of_ne {a b : Task} {rest : List Task} {P : Prop} (h : a ∈ b :: rest ∨ P)
    (hne : a ≠ b) : a ∈ rest ∨ P := h.imp_left fun hin => List.mem_of_ne_of_mem hne hin

end Task

-- How far a closure has come.
structure Progress where
  layout : Layout
  seen : List Nat := []
  place : Nat → Nat := id
  -- Where the objects are that have been scanned.
  scanned : List Nat := []

-- The object `x` has been visited and is at `t` from now on.
def Progress.visit (q : Progress) (layout : Layout) (x t : Nat) : Progress :=
  { q with layout, seen := x :: q.seen, place := Function.update q.place x t }

-- A word that held `v` at first shows where that is.
def Settled (g : Ground) (seen : List Nat) (place : Nat → Nat) (v w : Nat) : Prop :=
  (v = 0 ∨ Arrived g seen v) ∧ w = place v

structure Owing (g : Ground) (m : Memory) (q : Progress) (pending : List Task) : Prop where
  traced : ∀ x ∈ q.seen, g.Traces x
  scans : (q.scanned ++ pending.filterMap Task.scan?).Perm (q.seen.map q.place)
  edges : ∀ s', .edge s' ∈ pending → ∃ s, g.Site (· ∈ q.seen) q.place s s'
  roots : ∀ r, .root r ∈ pending → (∃ slot, r = .location slot) ∨ r ∈ g.roots
  inner_nodup : (pending.filterMap Task.innerSlot?).Nodup
  settled : ∀ s s', g.Site (fun x => x ∈ q.seen ∧ q.place x ∈ q.scanned) q.place s s' →
    .edge s' ∈ pending ∨ Settled g q.seen q.place (g.heap.memory.read s) (m.read s')
  inner : ∀ base slot, .interior base slot ∈ g.roots →
    if .root (.interior base slot) ∈ pending then m.read slot = g.heap.memory.read slot
    else Arrived g q.seen base ∧ m.read slot = q.place base + (g.heap.memory.read slot - base)
  pinned : ∀ o, .value o ∈ g.roots → .root (.value o) ∈ pending ∨ Arrived g q.seen o

namespace Ground

variable {g : Ground}

theorem Ready.inner_unique (hg : g.Ready) {base base' slot : Nat}
    (h : .interior base slot ∈ g.roots) (h' : .interior base' slot ∈ g.roots) : base = base' := by
  by_contra hne
  have hpair := List.pairwise_filterMap.mp hg.inner_nodup
  have hsymm : Std.Symm fun r r' : Root => ∀ slot, r.innerSlot? = some slot →
      ∀ slot', r'.innerSlot? = some slot' → slot ≠ slot' :=
    ⟨fun _ _ hrr b hb a ha => (hrr a ha b hb).symm⟩
  exact hpair.forall h h' (fun heq => hne (Root.interior.inj heq).1) slot rfl slot rfl rfl

theorem Ready.object_pos (hg : g.Ready) {x : Nat} (hx : g.IsObject x) : x ≠ 0 := by
  obtain ⟨kind, bytes, hr⟩ := hx
  exact (hg.populated.sound.room_bound hr).1.ne'

theorem Ready.traces_inner (hg : g.Ready) {base slot : Nat} (h : .interior base slot ∈ g.roots) :
    g.Traces base := .root h (hg.object_pos (hg.inner _ _ h).2.2.1)

theorem Ready.traces_pinned (hg : g.Ready) {o : Nat} (h : .value o ∈ g.roots) : g.Traces o :=
  .root h (hg.object_pos (hg.pinned _ h).1)

-- All roots are tasks, and there are no others.
theorem Ready.owing (hg : g.Ready) :
    Owing g g.heap.memory { layout := g.layout } (g.roots.map .root) where
  traced := nofun
  scans := by
    have hnone : (g.roots.map Task.root).filterMap Task.scan? = [] := by
      rw [List.filterMap_map]
      exact List.filterMap_eq_nil_iff.mpr fun _ _ => rfl
    simp only [hnone, List.append_nil, List.map_nil, List.Perm.refl]
  edges s' hs' := by
    obtain ⟨r, hr, heq⟩ := List.mem_map.mp hs'
    cases heq
    exact ⟨s', .root hr⟩
  roots r hr := by
    obtain ⟨r', hr', heq⟩ := List.mem_map.mp hr
    cases heq
    exact Or.inr hr'
  inner_nodup := by
    rw [List.filterMap_map]
    exact hg.inner_nodup
  settled s s' hsite := by
    cases hsite with
    | root hroot => exact Or.inl (List.mem_map_of_mem hroot)
    | field hx _ => exact absurd hx.1 List.not_mem_nil
  inner base slot h := by
    rw [if_pos (List.mem_map_of_mem h)]
  pinned o h := Or.inl (List.mem_map_of_mem h)

end Ground

namespace Owing

variable {g : Ground} {m m' : Memory} {q : Progress} {pending rest : List Task}
variable {h h' : Heap} {l' : Layout} {kind : SpaceKind} {x t bytes : Nat}

theorem perm (ho : Owing g m q pending) {pending' : List Task} (hp : pending.Perm pending') :
    Owing g m q pending' where
  traced := ho.traced
  scans := ((hp.filterMap _).symm.append_left _).trans ho.scans
  edges s' hs' := ho.edges s' (hp.mem_iff.mpr hs')
  roots r hr := ho.roots r (hp.mem_iff.mpr hr)
  inner_nodup := (hp.filterMap _).nodup_iff.mp ho.inner_nodup
  settled s s' hs := (ho.settled s s' hs).imp_left hp.mem_iff.mp
  inner base slot h := by
    simp only [← hp.mem_iff]
    exact ho.inner base slot h
  pinned o h := (ho.pinned o h).imp_left hp.mem_iff.mp

-- A visited object is to be scanned.
theorem visit (ho : Owing g h.memory q pending) (hg : g.Ready)
    (ht : Toured g h q.layout q.seen q.place) (hv : Visited h q.layout kind x t h' l')
    (hr : g.IsRoom kind x bytes) (hx : x ∉ q.seen) (hfresh : ¬g.Stale x) (htraces : g.Traces x) :
    Owing g h'.memory (q.visit l' x t) (.scan t :: pending) := by
  have hsame : ∀ y ∈ q.seen, Function.update q.place x t y = q.place y := fun y hy =>
    Toured.update_place hx hy
  have hkept : ∀ v, Arrived g q.seen v → Function.update q.place x t v = q.place v := by
    rintro v (hv | hv)
    · exact hsame v hv
    · exact Function.update_of_ne (fun heq => hfresh (by rwa [← heq])) _ _
  have hmap : (x :: q.seen).map (Function.update q.place x t) = t :: q.seen.map q.place := by
    rw [List.map_cons, Function.update_self, List.map_congr_left hsame]
  have harrived : ∀ v, Arrived g q.seen v → Arrived g (x :: q.seen) v := fun v =>
    Or.imp_left (List.mem_cons_of_mem _)
  -- The new object has not been scanned, so no slot of it is said to be settled.
  have hold : ∀ {s s'}, g.Site (fun y => y ∈ x :: q.seen ∧ Function.update q.place x t y ∈ q.scanned)
      (Function.update q.place x t) s s' →
      g.Site (fun y => y ∈ q.seen ∧ q.place y ∈ q.scanned) q.place s s' := fun hsite =>
    hsite.mono fun y ⟨hy, hscanned⟩ => by
      rcases List.mem_cons.mp hy with rfl | hy
      · rw [Function.update_self] at hscanned
        obtain ⟨z, hz, hzt⟩ := List.mem_map.mp (ho.scans.subset (List.mem_append_left _ hscanned))
        exact absurd hzt (ht.place_ne hg hv hr hx hz)
      · rw [hsame y hy] at hscanned ⊢
        exact ⟨⟨hy, hscanned⟩, rfl⟩
  exact {
    traced := fun y hy => by
      rcases List.mem_cons.mp hy with rfl | hy
      · exact htraces
      · exact ho.traced y hy
    scans := by
      change (q.scanned ++ t :: pending.filterMap Task.scan?).Perm
        ((x :: q.seen).map (Function.update q.place x t))
      rw [hmap]
      exact List.perm_middle.trans (ho.scans.cons t)
    edges := fun s' hs' => by
      obtain ⟨s, hs⟩ := ho.edges s' ((List.mem_cons.mp hs').resolve_left (by rintro ⟨⟩))
      exact ⟨s, hs.mono fun y hy => ⟨List.mem_cons_of_mem _ hy, hsame y hy⟩⟩
    roots := fun r hr' => ho.roots r ((List.mem_cons.mp hr').resolve_left (by rintro ⟨⟩))
    inner_nodup := ho.inner_nodup
    settled := fun s s' hsite => by
      refine (ho.settled s s' (hold hsite)).imp (List.mem_cons_of_mem _) fun ⟨hv', hw⟩ => ?_
      have hread := ht.read_site hg hv hr hx ((hold hsite).mono fun y hy => ⟨hy.1, rfl⟩)
      refine ⟨hv'.imp_right (harrived _), hread.trans (hw.trans ?_)⟩
      change q.place _ = Function.update q.place x t _
      rcases hv' with h0 | hv'
      · rw [h0, Function.update_of_ne]
        obtain ⟨kind', bytes', hr'⟩ := hg.traced x htraces
        exact (hg.object_pos ⟨_, _, hr'⟩).symm
      · exact (hkept _ hv').symm
    inner := fun base slot hroot => by
      have hread : h'.memory.read slot = h.memory.read slot :=
        hv.outside slot ((ht.spaceOf?_eq slot).trans (hg.inner _ _ hroot).1.2)
      have hin := ho.inner base slot hroot
      simp only [List.mem_cons, reduceCtorEq, false_or, hread]
      split at hin
      · rw [if_pos ‹_›]
        exact hin
      · rw [if_neg ‹_›]
        exact ⟨harrived _ hin.1, hin.2.trans (congrArg (· + _) (hkept _ hin.1).symm)⟩
    pinned := fun o hroot => (ho.pinned o hroot).imp (List.mem_cons_of_mem _) (harrived o) }

-- A reference has been traced, and its slot follows the object.
theorem settleEdge {s' : Nat} (ho : Owing g m q (.edge s' :: rest))
    (hsettled : ∀ s, g.Site (· ∈ q.seen) q.place s s' →
      Settled g q.seen q.place (g.heap.memory.read s) (m'.read s'))
    (hinner : ∀ base slot, .interior base slot ∈ g.roots → slot ≠ s')
    (hother : ∀ a, a ≠ s' → m'.read a = m.read a) : Owing g m' q rest where
  traced := ho.traced
  scans := ho.scans
  edges s hs := ho.edges s (List.mem_cons_of_mem _ hs)
  roots r hr := ho.roots r (List.mem_cons_of_mem _ hr)
  inner_nodup := ho.inner_nodup
  settled s t' hsite := by
    by_cases ht : t' = s'
    · exact Or.inr (ht ▸ hsettled s (ht ▸ hsite.mono fun y hy => ⟨hy.1, rfl⟩))
    · rw [hother t' ht]
      refine (ho.settled s t' hsite).imp_left fun hin => ?_
      exact (List.mem_cons.mp hin).resolve_left fun heq =>
        ht (Root.location.inj (Task.root.inj heq))
  inner base slot h := by
    have hin := ho.inner base slot h
    simp only [List.mem_cons, Task.root.injEq, reduceCtorEq, false_or] at hin
    rw [hother slot (hinner _ _ h)]
    exact hin
  pinned o h := Task.mem_or_of_ne (ho.pinned o h) nofun

-- The object that a pointer leads into has been traced, and the pointer follows it.
theorem settleInner {base slot : Nat} (hg : g.Ready)
    (ho : Owing g m q (.root (.interior base slot) :: rest)) (hbase : Arrived g q.seen base)
    (hself : m'.read slot = q.place base + (g.heap.memory.read slot - base))
    (hsites : ∀ s s', g.Site (· ∈ q.seen) q.place s s' → s' ≠ slot)
    (hother : ∀ a, a ≠ slot → m'.read a = m.read a) : Owing g m' q rest where
  traced := ho.traced
  scans := ho.scans
  edges s hs := ho.edges s (List.mem_cons_of_mem _ hs)
  roots r hr := ho.roots r (List.mem_cons_of_mem _ hr)
  inner_nodup := (List.nodup_cons.mp ho.inner_nodup).2
  settled s s' hsite := by
    rw [hother s' (hsites s s' (hsite.mono fun y hy => ⟨hy.1, rfl⟩))]
    exact Task.mem_or_of_ne (ho.settled s s' hsite) nofun
  inner base' slot' h := by
    by_cases hslot : slot' = slot
    · subst hslot
      have hroot : .interior base slot' ∈ g.roots :=
        (ho.roots _ List.mem_cons_self).resolve_left fun ⟨_, heq⟩ => by cases heq
      obtain rfl := hg.inner_unique h hroot
      rw [if_neg]
      · exact ⟨hbase, hself⟩
      · exact fun hin => (List.nodup_cons.mp ho.inner_nodup).1
          (List.mem_filterMap.mpr ⟨_, hin, rfl⟩)
    · have hin := ho.inner base' slot' h
      simp only [List.mem_cons, Task.root.injEq, Root.interior.injEq, hslot, and_false,
        false_or] at hin
      rw [hother slot' hslot]
      exact hin
  pinned o h := Task.mem_or_of_ne (ho.pinned o h) nofun

-- A reference that cannot be updated has been traced.
theorem settlePinned {o : Nat} (ho : Owing g m q (.root (.value o) :: rest))
    (harrived : Arrived g q.seen o) : Owing g m q rest where
  traced := ho.traced
  scans := ho.scans
  edges s hs := ho.edges s (List.mem_cons_of_mem _ hs)
  roots r hr := ho.roots r (List.mem_cons_of_mem _ hr)
  inner_nodup := ho.inner_nodup
  settled s s' hsite := Task.mem_or_of_ne (ho.settled s s' hsite) nofun
  inner base slot h := by
    have hin := ho.inner base slot h
    simp only [List.mem_cons, Task.root.injEq, reduceCtorEq, false_or] at hin
    exact hin
  pinned o' h := by
    rcases ho.pinned o' h with hin | h1
    · rcases List.mem_cons.mp hin with heq | hin
      · cases heq
        exact Or.inr harrived
      · exact Or.inl hin
    · exact Or.inr h1

-- An object leaves its references as tasks.
theorem openObject {o : Nat} (ho : Owing g m q (.scan o :: rest))
    (hinj : ∀ x ∈ q.seen, ∀ y ∈ q.seen, q.place x = q.place y → x = y) :
    ∃ x ∈ q.seen, q.place x = o ∧ Owing g m { q with scanned := o :: q.scanned }
      ((g.slots x).map (fun slot => .edge (slot - x + o)) ++ rest) := by
  have hmem : o ∈ q.seen.map q.place :=
    ho.scans.subset (List.mem_append_right _ (by simp only [List.filterMap_cons, Task.scan?,
      List.mem_cons_self]))
  obtain ⟨x, hx, rfl⟩ := List.mem_map.mp hmem
  have hnone : ((g.slots x).map fun slot => Task.edge (slot - x + q.place x)).filterMap
      Task.scan? = [] := by
    rw [List.filterMap_map]
    exact List.filterMap_eq_nil_iff.mpr fun _ _ => rfl
  have hnone' : ((g.slots x).map fun slot => Task.edge (slot - x + q.place x)).filterMap
      Task.innerSlot? = [] := by
    rw [List.filterMap_map]
    exact List.filterMap_eq_nil_iff.mpr fun _ _ => rfl
  have hrest : ∀ r : Root, .root r ∈ (g.slots x).map (fun slot => Task.edge (slot - x + q.place x))
      ++ rest → (∃ slot ∈ g.slots x, r = .location (slot - x + q.place x)) ∨ .root r ∈ rest := by
    intro r hr
    refine (List.mem_append.mp hr).imp_left fun hr => ?_
    obtain ⟨slot, hslot, heq⟩ := List.mem_map.mp hr
    exact ⟨slot, hslot, (Task.root.inj heq).symm⟩
  exact ⟨x, hx, rfl, {
    traced := ho.traced
    scans := by
      rw [List.filterMap_append, hnone, List.nil_append, List.cons_append]
      exact List.perm_middle.symm.trans ho.scans
    edges := fun s' hs' => by
      rcases hrest _ hs' with ⟨slot, hslot, heq⟩ | hs'
      · cases heq
        exact ⟨slot, .field hx hslot⟩
      · exact ho.edges s' (List.mem_cons_of_mem _ hs')
    roots := fun r hr => by
      rcases hrest _ hr with ⟨slot, hslot, rfl⟩ | hr
      · exact Or.inl ⟨_, rfl⟩
      · exact ho.roots r (List.mem_cons_of_mem _ hr)
    inner_nodup := by
      rw [List.filterMap_append, hnone', List.nil_append]
      exact ho.inner_nodup
    settled := fun s s' hsite => by
      cases hsite with
      | root hroot =>
        exact (Task.mem_or_of_ne (ho.settled s s (.root hroot)) nofun).imp_left
          (List.mem_append_right _)
      | @field y _ hy hslot =>
        rcases List.mem_cons.mp hy.2 with heq | hscanned
        · obtain rfl := hinj y hy.1 x hx heq
          exact Or.inl (List.mem_append_left _ (List.mem_map.mpr ⟨s, hslot, rfl⟩))
        · exact (Task.mem_or_of_ne (ho.settled s _ (.field ⟨hy.1, hscanned⟩ hslot)) nofun).imp_left
            (List.mem_append_right _)
    inner := fun base slot hroot => by
      have hin := ho.inner base slot hroot
      have hiff : .root (.interior base slot) ∈
          (g.slots x).map (fun slot => Task.edge (slot - x + q.place x)) ++ rest ↔
          Task.root (.interior base slot) ∈ Task.scan (q.place x) :: rest := by
        constructor
        · intro hin
          rcases hrest _ hin with ⟨_, _, heq⟩ | hin
          · cases heq
          · exact List.mem_cons_of_mem _ hin
        · exact fun hin => List.mem_append_right _
            ((List.mem_cons.mp hin).resolve_left (by rintro ⟨⟩))
      simp only [hiff]
      exact hin
    pinned := fun o hroot =>
      (Task.mem_or_of_ne (ho.pinned o hroot) nofun).imp_left (List.mem_append_right _) }⟩

end Owing

end Reclaim
