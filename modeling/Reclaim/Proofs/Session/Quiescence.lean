import Reclaim.Proofs.Session.Balance

/-!
When a collection leaves no candidate, everything that is still there can be reached. Otherwise the
objects that cannot be reached would hold each other, those that nobody holds but others of them would
lie on cycles, and one of these would be a candidate.
-/
namespace Reclaim

open CountedHeap Counting Heap Queue

variable {h : Heap} {counts : CountState} {l : Layout} {r u : Finset Nat} {ext : List Nat}
variable {c : Trial.Collector} {x o : Nat}

section Lost

-- Objects with a count that nothing refers to but others of them.
structure Lost (h : Heap) (r : Finset Nat) (ext : List Nat) (u : Finset Nat) : Prop where
  subset : u ⊆ live h r
  counted : ∀ x ∈ u, h.inCountedSpace x = true
  holders : ∀ x ∈ u, ∀ o ∈ live h r, x ∈ h.refs o → o ∈ u
  not_mem : ∀ x ∈ u, x ∉ ext

open Classical in
-- Those of `u` that references lead from to `z`.
noncomputable def sources (h : Heap) (u : Finset Nat) (z : Nat) : Finset Nat :=
  u.filter fun y => Relation.ReflTransGen (Leads h) y z

theorem mem_sources {y z : Nat} :
    y ∈ sources h u z ↔ y ∈ u ∧ Relation.ReflTransGen (Leads h) y z := by
  simp only [sources, Finset.mem_filter]

theorem sources_subset {y z : Nat} (hy : y ∈ sources h u z) : sources h u y ⊆ sources h u z := by
  intro w hw
  rw [mem_sources] at hw hy ⊢
  exact ⟨hw.1, hw.2.trans hy.2⟩

variable (hb : Books h r ext c) (hu : Lost h r ext u)
include hb hu

-- All references to an object of `u` come from the objects that lead to it.
theorem Lost.count_le {y z : Nat} (hy : y ∈ sources h u z) :
    count h y ≤ held (h.census r) (sources h u z) y := by
  obtain ⟨hyu, hpath⟩ := mem_sources.mp hy
  rw [hb.count_eq y (mem_live.mp (hu.subset hyu)).1, List.count_eq_zero.mpr (hu.not_mem y hyu),
    Nat.add_zero]
  apply Finset.sum_le_sum_of_ne_zero
  intro o ho hne
  have hrefs : y ∈ h.refs o := List.count_pos_iff.mp (Nat.pos_of_ne_zero hne)
  exact mem_sources.mpr ⟨hu.holders y hyu o ho hrefs, hpath.head ⟨hrefs, hu.counted y hyu⟩⟩

theorem Lost.exists_holder {z : Nat} (hz : z ∈ u) : ∃ o ∈ sources h u z, Leads h o z := by
  have hmem : z ∈ sources h u z := mem_sources.mpr ⟨hz, .refl⟩
  have hpos := (mem_live.mp (hu.subset hz)).2.trans_le (hu.count_le hb hmem)
  obtain ⟨o, ho, hne⟩ := Finset.exists_ne_zero_of_sum_ne_zero (Nat.ne_of_gt hpos)
  exact ⟨o, ho, List.count_pos_iff.mp (Nat.pos_of_ne_zero hne), hu.counted z hz⟩

-- Where as few objects as possible lead to, each of them lies on a cycle.
theorem Lost.exists_island (hne : u.Nonempty)
    (hgreen : ∀ x ∈ u, color h x = .green → ¬Relation.TransGen (Leads h) x x) :
    ∃ s ⊆ u, Island h r s := by
  obtain ⟨z, hz, hmin⟩ := Finset.exists_min_image u (fun z => (sources h u z).card) hne
  have hback : ∀ y ∈ sources h u z, Relation.ReflTransGen (Leads h) z y := by
    intro y hy
    have heq := Finset.eq_of_subset_of_card_le (sources_subset hy) (hmin y (mem_sources.mp hy).1)
    have hmem : z ∈ sources h u z := mem_sources.mpr ⟨hz, .refl⟩
    rw [← heq] at hmem
    exact (mem_sources.mp hmem).2
  have hcycle : ∀ y ∈ sources h u z, Relation.TransGen (Leads h) y y := by
    intro y hy
    obtain ⟨o, ho, hlead⟩ := hu.exists_holder hb hz
    have hz' : Relation.TransGen (Leads h) z z := .tail' (hback o ho) hlead
    exact (Relation.TransGen.trans_right (mem_sources.mp hy).2 hz').trans_left (hback y hy)
  have hsub : sources h u z ⊆ u := fun y hy => (mem_sources.mp hy).1
  refine ⟨sources h u z, hsub, ⟨z, mem_sources.mpr ⟨hz, .refl⟩⟩, hsub.trans hu.subset,
    fun y hy hg => hgreen y (hsub hy) hg (hcycle y hy), fun y hy => hu.count_le hb hy⟩

end Lost

namespace Heap

-- References lead from one of `roots` to the object.
inductive Reachable (h : Heap) (roots : List Nat) : Nat → Prop
  | root {o : Nat} : o ∈ roots → h.Reachable roots o
  | field {o x : Nat} {refs : List Nat} : h.Reachable roots o → h.references o = .ok refs →
    x ∈ refs → h.Reachable roots x

-- The object `a` holds a reference to `b`.
def Refers (h : Heap) (a b : Nat) : Prop := ∃ refs, h.references a = .ok refs ∧ b ∈ refs

end Heap

namespace Session

variable {s s' : Session}

open Classical in
-- The objects that cannot be reached.
noncomputable def unreached (s : Session) (counts : CountState) (r : Finset Nat) : Finset Nat :=
  r.filter fun o => ¬s.plan.heap.Reachable (counts.oldRoots ++ s.immortals) o

theorem mem_unreached : o ∈ s.unreached counts r ↔
    o ∈ r ∧ ¬s.plan.heap.Reachable (counts.oldRoots ++ s.immortals) o := by
  simp only [unreached, Finset.mem_filter]

-- Where no candidate and no decrement is left.
theorem Sound.lost (hs : s.Sound counts l r) (hdec : counts.decrements.entries = [])
    (hheld : ∀ m ∈ s.mutators, m.decrements = {}) (hquiet : counts.cycles.queued = []) :
    Lost s.plan.heap r (outside s.plan.heap l.immortals counts s.mutators)
      (s.unreached counts r) where
  subset x hx := by
    have hxr := (mem_unreached.mp hx).1
    refine mem_live.mpr ⟨hxr, Nat.pos_of_ne_zero fun hz => ?_⟩
    have hdead := hs.standing.books.dead x hxr hz
    rw [hquiet] at hdead
    exact List.not_mem_nil hdead
  counted x hx := hs.standing.counted_of_mem (mem_unreached.mp hx).1
  holders x hx o ho hrefs := by
    refine mem_unreached.mpr ⟨(mem_live.mp ho).1, fun hreach => ?_⟩
    exact (mem_unreached.mp hx).2 (hreach.field (hs.references_ok (Or.inl (mem_live.mp ho).1)) hrefs)
  not_mem x hx hmem := by
    have hempty : s.mutators.flatMap (·.decrements.held) = [] := by
      rw [List.flatMap_eq_nil_iff]
      intro m hm
      rw [hheld m hm]
      rfl
    simp only [outside, hdec, hempty, List.append_nil, List.mem_append, List.mem_flatMap] at hmem
    refine (mem_unreached.mp hx).2 ?_
    rcases hmem with ⟨o, ho, hrefs⟩ | hmem
    · rw [hs.immortals_eq] at ho
      exact (Reachable.root (List.mem_append_right _ ho)).field (hs.references_ok (Or.inr ho)) hrefs
    · exact .root (List.mem_append_left _ hmem)

theorem Sound.refers (hs : s.Sound counts l r) {a b : Nat} (ha : a ∈ r)
    (hl : Leads s.plan.heap a b) : s.plan.heap.Refers a b :=
  ⟨_, hs.references_ok (Or.inl ha), hl.1⟩

-- What leads from an object with a count to an object leads through objects with a count.
theorem Sound.refers_of_path (hs : s.Sound counts l r) {a b : Nat} (ha : a ∈ live s.plan.heap r)
    (hpath : Relation.TransGen (Leads s.plan.heap) a b) :
    Relation.TransGen s.plan.heap.Refers a b ∧ b ∈ live s.plan.heap r := by
  induction hpath with
  | single hl =>
    exact ⟨.single (hs.refers (mem_live.mp ha).1 hl), hs.standing.books.live_of_leads ha hl⟩
  | tail _ hl ih =>
    exact ⟨ih.1.tail (hs.refers (mem_live.mp ih.2).1 hl), hs.standing.books.live_of_leads ih.2 hl⟩

-- Without candidates and waiting decrements every counted object can be reached.
theorem Sound.reachable_of_queued (hs : s.Sound counts l r) (hdec : counts.decrements.entries = [])
    (hheld : ∀ m ∈ s.mutators, m.decrements = {}) (hquiet : counts.cycles.queued = [])
    (hgreen : ∀ x, s.plan.heap.Holds x → color s.plan.heap x = .green →
      ¬Relation.TransGen s.plan.heap.Refers x x) (ho : s.plan.heap.Holds o) :
    s.plan.heap.Reachable (counts.oldRoots ++ s.immortals) o := by
  by_contra hlost
  have hu := hs.lost hdec hheld hquiet
  have hne : (s.unreached counts r).Nonempty := ⟨o, mem_unreached.mpr ⟨hs.mem_iff.mpr ho, hlost⟩⟩
  obtain ⟨island, -, hisland⟩ := hu.exists_island hs.standing.books hne fun x hx hg hcycle =>
    hgreen x (hs.mem_iff.mp (mem_unreached.mp hx).1) hg (hs.refers_of_path (hu.subset hx) hcycle).1
  obtain ⟨x, -, -, hx⟩ := hs.standing.tended island hisland
  rw [hquiet] at hx
  exact List.not_mem_nil hx

-- A collection that leaves no candidate leaves nothing that cannot be reached from the roots that it
-- recorded or from immortal objects.
theorem Run.reachable_of_quiet (hrun : Run s) {mutators : List Mutator}
    (ha : s.Allowed (.collect mutators)) (h : s.perform (.collect mutators) = .ok s') :
    ∃ counts, s'.plan.counts = some counts ∧
      (counts.cycles.unfiltered.contents = [] → counts.cycles.mature.contents = [] →
        counts.cycles.filtered.contents = [] →
        (∀ x, s'.plan.heap.Holds x → color s'.plan.heap x = .green →
          ¬Relation.TransGen s'.plan.heap.Refers x x) →
        ∀ o, s'.plan.heap.Holds o →
          s'.plan.heap.Reachable (counts.oldRoots ++ s'.immortals) o) := by
  obtain ⟨counts, l, r, hs⟩ := hrun.sound
  rcases hs.collect ha with ⟨s'', hok, counts', l', r', hs', hcol, -⟩ | ⟨-, f, herror, -⟩
  · obtain rfl : s'' = s' := Except.ok.inj (hok.symm.trans h)
    refine ⟨counts', hs'.standing.counts_eq, fun h1 h2 h3 hgreen o ho => ?_⟩
    have hcand := hs'.standing.books.candidates
    have hquiet : counts'.cycles.queued = [] := by
      rw [Trial.Collector.queued, h1, h2, h3, hcand.cycleA_eq, hcand.cycleB_eq]
      rfl
    exact hs'.reachable_of_queued hcol.decrements hcol.held hquiet hgreen ho
  · rw [herror] at h
    cases h

-- The session of one object, after a collection.
@[irreducible] def Single.collected : Session :=
  (rooted.perform (.collect rooted.mutators)).toOption.get (by decide +kernel)

-- A collection leaves no candidate, and the object that a global holds can be reached.
theorem reachable_of_quiet_single : ∃ s s' o counts, Run s ∧
    s.perform (.collect s.mutators) = .ok s' ∧ s'.plan.counts = some counts ∧
    s'.plan.heap.Holds o ∧ s'.plan.heap.Reachable (counts.oldRoots ++ s'.immortals) o := by
  have hrun : Single.rooted.perform (.collect Single.rooted.mutators) = .ok Single.collected := by
    unfold Single.collected
    exact eq_ok_get _
  have hholds : Single.collected.plan.heap.Holds Single.object :=
    ⟨by decide, by decide +kernel, by decide +kernel⟩
  have hrefs : Single.collected.plan.heap.references Single.object = .ok [] := by decide +kernel
  have hquiet : Single.collected.plan.counts.all (fun counts =>
      counts.cycles.unfiltered.contents.isEmpty && counts.cycles.mature.contents.isEmpty &&
        counts.cycles.filtered.contents.isEmpty) = true := by decide +kernel
  obtain ⟨counts, hcounts, hreachable⟩ :=
    Run.reachable_of_quiet Single.run_rooted Single.allowed_collect hrun
  simp only [hcounts, Option.all_some, Bool.and_eq_true, List.isEmpty_iff] at hquiet
  obtain ⟨⟨h1, h2⟩, h3⟩ := hquiet
  refine ⟨_, _, _, counts, Single.run_rooted, hrun, hcounts, hholds,
    hreachable h1 h2 h3 (fun x hx _ hcycle => ?_) _ hholds⟩
  obtain rfl : x = Single.object := by
    rcases Single.run_rooted.held_or_made Single.allowed_collect hrun hx with hx | hmade
    · exact Single.eq_object_rooted hx
    · obtain ⟨o, -, ho⟩ := List.mem_map.mp hmade
      cases ho
  obtain ⟨y, ⟨refs, hy, hmem⟩, -⟩ := Relation.TransGen.head'_iff.mp hcycle
  rw [hrefs] at hy
  cases hy
  cases hmem

end Session

end Reclaim
