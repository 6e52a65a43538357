import Reclaim.Proofs.Trial.Round

/-!
Garbage is not forgotten. As long as everything that only holds itself has a candidate, every round of
trial deletion either finds it or leaves it a candidate, even when time runs out on the way.
-/
namespace Reclaim.Trial

open CountedHeap Queue

variable {σ : Type} [CountedHeap σ] {e : Scope σ} {gone grey white : Finset Nat}
variable {i i' : Increment σ} {k : Census} {c c' : Collector} {h h' : σ}

namespace Census

theorem held_union_le (s t : Finset Nat) (x : Nat) : k.held (s ∪ t) x ≤ k.held s x + k.held t x := by
  rw [held, held, held, ← Finset.sum_union_inter]
  exact Nat.le_add_right _ _

-- What only holds itself, apart from what is gone, has a candidate.
def Watched (k : Census) (gone : Finset Nat) (c : Collector) (h : σ) : Prop :=
  ∀ s ⊆ k.live, s.Nonempty → Disjoint s gone → k.Garbage (s ∪ gone) →
    ∃ x ∈ s, color h x = .purple ∧ x ∈ c.queued

theorem Watched.congr (hw : k.Watched gone c h)
    (hcolor : ∀ x ∈ k.live, x ∉ gone → color h' x = color h x)
    (hqueued : ∀ x ∈ k.live, x ∉ gone → color h x = .purple → x ∈ c.queued → x ∈ c'.queued) :
    k.Watched gone c' h' := by
  intro s hs hne hd hgar
  obtain ⟨x, hx, hp, hq⟩ := hw s hs hne hd hgar
  have hxg := Finset.disjoint_left.mp hd hx
  exact ⟨x, hx, (hcolor x (hs hx) hxg).trans hp, hqueued x (hs hx) hxg hp hq⟩

end Census

section Swept

variable {lost : Set Nat} {s : Finset Nat} (hs : Swept e gone grey white lost i i')
  (hk : e.census.Consistent) (hall : s ∪ (gone ∪ white) ⊆ e.census.live)
  (hgar : e.census.Garbage (s ∪ (gone ∪ white)))
include hs hk hall hgar

-- Nothing leads into garbage, so what leads from the root of an abandoned marking is none, unless the
-- root is garbage itself.
theorem Swept.not_mem_lost
    (hroot : ∀ o ∈ s, ¬(color i'.timed.heap o = .purple ∧ o ∈ i'.collector.ready)) {x : Nat}
    (hx : x ∈ s) : x ∉ lost := by
  intro hl
  rcases hs.rescued with hnone | ⟨o, ho, hog, heq, hready⟩
  · exact Set.notMem_empty x (hnone ▸ hl)
  · have hos : o ∉ s ∪ (gone ∪ white) := fun hm =>
      (Finset.mem_union.mp hm).elim (fun h => hroot o h hready) hog
    rw [heq] at hl
    exact hk.not_mem_of_reach hall hgar ho hos hl (Finset.mem_union_left _ hx)

-- An object that is held from outside leads to whatever was grey and is kept, so garbage that is kept was
-- not all grey.
theorem Swept.nonempty_sdiff (hless : white ⊆ grey) {a : Nat} (ha : a ∈ s) (haw : a ∉ white) :
    (s \ grey).Nonempty := by
  by_contra hne
  have hsub : s ⊆ grey :=
    Finset.sdiff_eq_empty_iff_subset.mp (Finset.not_nonempty_iff_eq_empty.mp hne)
  obtain ⟨y, hy, hreach, hlt⟩ := hs.excess a (hsub ha) haw
  have hyt : y ∈ s ∪ (gone ∪ white) := by
    by_contra hyn
    exact hk.not_mem_of_reach hall hgar (hs.grey_live hy) hyn hreach (Finset.mem_union_left _ ha)
  have hcover : s ∪ (gone ∪ white) ⊆ grey ∪ gone :=
    Finset.union_subset (hsub.trans Finset.subset_union_left)
      (Finset.union_subset Finset.subset_union_right (hless.trans Finset.subset_union_left))
  have hheld := hgar y hyt
  have hmono := e.census.held_mono hcover y
  have hsum := Census.held_union_le (k := e.census) grey gone y
  omega

omit hk hall in
-- What was not grey is held by nothing grey, so it was garbage before the round.
theorem Swept.garbage_before (hi : Settled e gone i) (hless : white ⊆ grey)
    (hlost : ∀ x ∈ s, x ∉ lost) : e.census.Garbage (s \ grey ∪ gone) := by
  intro x hx
  rcases Finset.mem_union.mp hx with hx | hx
  · obtain ⟨hxs, hxg⟩ := Finset.mem_sdiff.mp hx
    have hzero : e.census.held grey x = 0 :=
      Finset.sum_eq_zero fun g hg => List.count_eq_zero.mpr fun hc =>
        (hs.closed g hg x hc).elim hxg (hlost x hxs)
    have hcover : s ∪ (gone ∪ white) ⊆ (s \ grey ∪ gone) ∪ grey := by
      intro y hy
      have hyw := @hless y
      simp only [Finset.mem_union, Finset.mem_sdiff] at hy ⊢
      tauto
    have hheld := hgar x (Finset.mem_union_left _ hxs)
    have hmono := e.census.held_mono hcover x
    have hsum := Census.held_union_le (k := e.census) (s \ grey ∪ gone) grey x
    omega
  · exact (hi.garbage x hx).trans (e.census.held_mono Finset.subset_union_right x)

end Swept

-- What holds itself after a round held itself before, as far as the round did not turn it grey.
theorem Rounded.watched {deadline : Nat} {aborted : Bool}
    (hr : Rounded e gone grey white deadline aborted i i') (hi : Settled e gone i)
    (hk : e.census.Consistent) (hw : e.census.Watched gone i.collector i.timed.heap) :
    e.census.Watched (gone ∪ white) i'.collector i'.timed.heap := by
  intro s hlive ⟨a, ha⟩ hd hgar
  have hi' := hr.settled
  obtain ⟨lost, hs⟩ := hr.swept
  have hall : s ∪ (gone ∪ white) ⊆ e.census.live :=
    Finset.union_subset hlive hi'.ledger.gone_live
  have hkept : ∀ x ∈ s, x ∉ gone ∪ white := fun x hx => Finset.disjoint_left.mp hd hx
  by_cases hroot : ∃ o ∈ s, color i'.timed.heap o = .purple ∧ o ∈ i'.collector.ready
  · obtain ⟨o, ho, hp, hq⟩ := hroot
    exact ⟨o, ho, hp, hi'.mem_ready.mpr (Or.inr hq)⟩
  have hlost : ∀ x ∈ s, x ∉ lost := fun x hx =>
    hs.not_mem_lost hk hall hgar (fun o ho h => hroot ⟨o, ho, h⟩) hx
  have hne := hs.nonempty_sdiff hk hall hgar hr.less ha fun h =>
    hkept a ha (Finset.mem_union_right _ h)
  obtain ⟨x, hx, hp, hq⟩ := hw (s \ grey) (Finset.sdiff_subset.trans hlive) hne
    (hd.mono Finset.sdiff_subset Finset.subset_union_left) (hs.garbage_before hgar hi hr.less hlost)
  obtain ⟨hxs, hxg⟩ := Finset.mem_sdiff.mp hx
  have hxgone : x ∉ gone := fun h => hkept x hxs (Finset.mem_union_left _ h)
  have hxl := hlost x hxs
  refine ⟨x, hxs, ?_, hi'.mem_ready.mpr ?_⟩
  · rw [hs.same x (hi'.live_present (hlive hxs) (hkept x hxs)).1 hxg hxl]
    exact hp
  · rw [hi'.unfiltered_eq]
    refine (hi.mem_ready.mp hq).imp (fun hu => hi.unfiltered_eq ▸ hu) fun hready => ?_
    have htried := hs.tried x hready (hi.isPurple_live (hlive hxs) hxgone hp)
    exact (htried.resolve_left hxg).resolve_left hxl

end Reclaim.Trial
