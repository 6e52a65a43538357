import Reclaim.Proofs.Trial.Harvesting

/-!
Where the objects are that trial deletion is concerned with. Candidates wait in a queue with their
buffered bit set, dead objects are listed to be freed, and freed objects are listed too. Apart from
heaps that keep what was freed, each is in one place at most.
-/
namespace Reclaim.Trial

open CountedHeap

variable {σ : Type} [CountedHeap σ]

namespace Lawful

variable (L : Lawful σ) {k : Census} {r : Finset Nat}

-- What is left of some objects when those of a list were given back.
def left (r : Finset Nat) (freed : List Nat) : Finset Nat :=
  if L.keeps then r else r \ freed.toFinset

@[simp] theorem left_nil (r : Finset Nat) : L.left r [] = r := by simp [left]

theorem left_subset (r : Finset Nat) (freed : List Nat) : L.left r freed ⊆ r := by
  unfold left
  split
  · exact le_refl _
  · exact Finset.sdiff_subset

theorem left_left (r : Finset Nat) (freed more : List Nat) :
    L.left (L.left r freed) more = L.left r (more ++ freed) := by
  unfold left
  split
  · rfl
  · ext x
    simp only [Finset.mem_sdiff, List.mem_toFinset, List.mem_append, not_or]
    tauto

theorem left_cons (r : Finset Nat) (o : Nat) (rest : List Nat) :
    L.left (if L.keeps then r else r.erase o) rest = L.left r (o :: rest) := by
  unfold left
  split
  · rfl
  · ext x
    simp only [Finset.mem_sdiff, Finset.mem_erase, List.mem_toFinset, List.mem_cons, not_or]
    tauto

theorem left_congr (r : Finset Nat) {xs ys : List Nat} (h : ∀ x, x ∈ xs ↔ x ∈ ys) :
    L.left r xs = L.left r ys := by
  have hxs : xs.toFinset = ys.toFinset := by
    ext x
    simp [h]
  rw [left, left, hxs]

theorem mem_left_or (freed : List Nat) {x : Nat} (hx : x ∈ r) : x ∈ L.left r freed ∨ x ∈ freed := by
  unfold left
  split
  · exact Or.inl hx
  · by_cases hf : x ∈ freed
    · exact Or.inr hf
    · exact Or.inl (by simp [hx, hf])

-- Objects that are there can be freed one after the other.
theorem freeAll_ok {dead : List Nat} {h : σ} (hs : L.Shows h k r) (hmem : ∀ o ∈ dead, o ∈ r)
    (honce : L.keeps = true ∨ dead.Nodup) :
    ∃ h', dead.foldlM CountedHeap.free h = .ok h' ∧ L.Shows h' k (L.left r dead) ∧
      ∀ x ∈ L.left r dead, status h' x = status h x := by
  induction dead generalizing h r with
  | nil => exact ⟨h, rfl, by simpa using hs, fun _ _ => rfl⟩
  | cons o rest ih =>
    obtain ⟨h1, hfree, hs1, hstatus1⟩ := L.free_ok hs (hmem o List.mem_cons_self)
    have hmem1 : ∀ x ∈ rest, x ∈ if L.keeps then r else r.erase o := by
      intro x hx
      have hxr := hmem x (List.mem_cons_of_mem _ hx)
      split
      · exact hxr
      · rename_i hk
        have hn := (List.nodup_cons.mp (honce.resolve_left hk)).1
        exact Finset.mem_erase.mpr ⟨fun he => hn (he ▸ hx), hxr⟩
    obtain ⟨h2, hrest, hs2, hstatus2⟩ :=
      ih hs1 hmem1 (honce.imp_right fun hn => (List.nodup_cons.mp hn).2)
    rw [L.left_cons] at hs2 hstatus2
    refine ⟨h2, by rw [List.foldlM_cons, hfree]; exact hrest, hs2, fun x hx => ?_⟩
    have hx1 : x ∈ if L.keeps then r else r.erase o := L.left_subset _ rest (by rwa [L.left_cons])
    exact (hstatus2 x hx).trans (hstatus1 x hx1)

end Lawful

variable {L : Lawful σ} {k : Census} {h : σ} {gone : Finset Nat}

-- Freeing what was found to be garbage, and candidates that had no count, changes no account.
theorem Ledger.release {r : Finset Nat} (hl : Ledger L k h r gone) (ht : tinted h r = ∅)
    {dead : List Nat} {h' : σ} (hs : L.Shows h' k (L.left r dead))
    (hstatus : ∀ x ∈ L.left r dead, status h' x = status h x)
    (hdead : ∀ x ∈ dead, x ∈ gone ∨ (k.count x = 0 ∧ k.isGreen x = false)) :
    Ledger L k h' (L.left r dead) gone ∧ tinted h' (L.left r dead) = ∅ := by
  have hsub := L.left_subset r dead
  have hcolor : ∀ x ∈ L.left r dead, color h' x = color h x := fun x hx => by
    simp only [color, hstatus x hx]
  have htint : tinted h' (L.left r dead) = ∅ := by
    rw [tinted_congr hcolor]
    apply Finset.subset_empty.mp
    rw [← ht]
    exact Finset.filter_subset_filter _ hsub
  exact ⟨{
    shows := hs
    subset := hsub.trans hl.subset
    kept := fun x hx => by
      rcases hl.kept x hx with hr | hg
      · exact (L.mem_left_or dead hr).imp_right (hdead x)
      · exact Or.inr hg
    word := fun x hx => hstatus x hx ▸ hl.word x (hsub hx)
    green_iff := fun x hx => by
      rw [hcolor x hx]
      exact hl.green_iff x (hsub hx)
    gone_live := hl.gone_live
    tinted_live := by simp [htint]
    disjoint := by simp [htint]
    count_eq := fun x hx => by
      have heq := hl.count_eq x (hsub hx)
      rw [ht] at heq
      rw [htint]
      simp only [CountedHeap.count, hstatus x hx] at heq ⊢
      exact heq }, htint⟩

-- The lists of one increment that found `waiting` in its queues. `exact` tells whether each
-- candidate was found in one queue only.
structure Roster (L : Lawful σ) (k : Census) (waiting : List Nat) (exact : Prop) (h : σ)
    (gone : Finset Nat) (queued dead freed deferred : List Nat) : Prop where
  ledger : Ledger L k h (L.left k.objects freed) gone
  listed : ∀ x, x ∈ queued ∨ x ∈ dead → x ∈ L.left k.objects freed ∧ k.isGreen x = false
  awaited : ∀ x ∈ queued, x ∈ waiting
  found : ∀ x, x ∈ dead ∨ x ∈ freed → x ∈ gone ∨ (k.count x = 0 ∧ x ∈ waiting)
  deferred_eq : ∀ x, deferred.count x = ∑ z ∈ gone, (k.greens z).count x
  once : exact → ∀ x, queued.count x + dead.count x + freed.count x ≤ 1
  flagged : exact → ∀ x ∈ L.left k.objects freed, isBuffered h x = true ↔ x ∈ queued
  placed : exact → ∀ x, x ∈ gone ∨ (k.count x = 0 ∧ x ∈ waiting) →
    x ∈ queued ∨ x ∈ dead ∨ x ∈ freed

namespace Roster

variable {waiting queued dead freed deferred : List Nat} {exact : Prop}

-- A step that moves candidates between queues.
theorem congr (hr : Roster L k waiting exact h gone queued dead freed deferred) {h' : σ}
    {queued' : List Nat} (hl : Ledger L k h' (L.left k.objects freed) gone)
    (hb : ∀ x ∈ L.left k.objects freed, isBuffered h' x = isBuffered h x)
    (hq : queued'.Perm queued) :
    Roster L k waiting exact h' gone queued' dead freed deferred where
  ledger := hl
  listed x hx := hr.listed x (hx.imp_left hq.mem_iff.mp)
  awaited x hx := hr.awaited x (hq.mem_iff.mp hx)
  found := hr.found
  deferred_eq := hr.deferred_eq
  once he x := by rw [hq.count_eq]; exact hr.once he x
  flagged he x hx := by rw [hb x hx, hr.flagged he x hx, hq.mem_iff]
  placed he x hx := (hr.placed he x hx).imp_left hq.mem_iff.mpr

section Settle

variable (hr : Roster L k waiting exact h gone queued dead freed deferred) {o : Nat}
variable {queued' : List Nat} (hq : queued.Perm (o :: queued'))
include hr hq

-- The bit of a candidate that leaves its queue is cleared.
theorem flagged_settle (he : exact) {x : Nat} (hx : x ∈ L.left k.objects freed) :
    isBuffered (clearBuffered h o) x = true ↔ x ∈ queued' := by
  have hor := (hr.listed o (Or.inl (hq.mem_iff.mpr List.mem_cons_self))).1
  rw [L.isBuffered_clearBuffered hr.ledger.shows hor hx]
  have hno : o ∉ queued' := List.count_eq_zero.mp (by
    have honce := hr.once he o
    rw [hq.count_eq, List.count_cons_self] at honce
    omega)
  split
  · rename_i hxo
    simp [hxo, hno]
  · rename_i hxo
    rw [hr.flagged he x hx, hq.mem_iff, List.mem_cons]
    simp [hxo]

-- A candidate leaves its queue, to be listed as dead or to be none any more.
theorem settle {dead' : List Nat}
    (hdead : dead' = dead ∧ o ∉ gone ∧ k.count o ≠ 0 ∨
      dead' = o :: dead ∧ (o ∈ gone ∨ k.count o = 0)) :
    Roster L k waiting exact (clearBuffered h o) gone queued' dead' freed deferred := by
  have hoq : o ∈ queued := hq.mem_iff.mpr List.mem_cons_self
  have hor := (hr.listed o (Or.inl hoq)).1
  have hsub : ∀ x, x ∈ queued' → x ∈ queued := fun x hx => hq.mem_iff.mpr (List.mem_cons_of_mem _ hx)
  have honce : exact → ∀ x, (o :: queued').count x + dead.count x + freed.count x ≤ 1 :=
    fun he x => hq.count_eq x ▸ hr.once he x
  rcases hdead with ⟨rfl, hng, hnz⟩ | ⟨rfl, hg⟩
  · exact {
      ledger := hr.ledger.clearBuffered hor
      listed := fun x hx => hr.listed x (hx.imp_left (hsub x))
      awaited := fun x hx => hr.awaited x (hsub x hx)
      found := hr.found
      deferred_eq := hr.deferred_eq
      once := fun he x => by
        have h1 := honce he x
        rw [List.count_cons] at h1
        omega
      flagged := fun he x => hr.flagged_settle hq he
      placed := fun he x hx => (hr.placed he x hx).imp_left fun hm =>
        (List.mem_cons.mp (hq.mem_iff.mp hm)).resolve_left fun hxo => by
          subst hxo
          exact hx.elim hng fun hz => hnz hz.1 }
  · exact {
      ledger := hr.ledger.clearBuffered hor
      listed := fun x hx => by
        rcases hx with hx | hx
        · exact hr.listed x (Or.inl (hsub x hx))
        · rcases List.mem_cons.mp hx with rfl | hx
          · exact hr.listed x (Or.inl hoq)
          · exact hr.listed x (Or.inr hx)
      awaited := fun x hx => hr.awaited x (hsub x hx)
      found := fun x hx => by
        rw [List.mem_cons, or_assoc] at hx
        rcases hx with rfl | hx
        · exact hg.imp_right fun hz => ⟨hz, hr.awaited x hoq⟩
        · exact hr.found x hx
      deferred_eq := hr.deferred_eq
      once := fun he x => by
        have h1 := honce he x
        rw [List.count_cons] at h1 ⊢
        omega
      flagged := fun he x => hr.flagged_settle hq he
      placed := fun he x hx => by
        have hm := hr.placed he x hx
        rw [hq.mem_iff, List.mem_cons] at hm
        rw [List.mem_cons]
        tauto }

end Settle

-- What a collection of white objects found.
theorem harvest (hr : Roster L k waiting exact h gone queued dead freed deferred)
    {time : Nat → Nat → Nat} {o : Nat} {s : Harvest σ}
    (hs : Reaping L k (L.left k.objects freed) gone h time o dead deferred [] s) :
    Roster L k waiting exact s.timed.heap
      (gone ∪ (tinted h (L.left k.objects freed) \ tinted s.timed.heap (L.left k.objects freed)))
      queued s.dead freed s.deferred := by
  obtain ⟨new, hdead, hnodup, hnew⟩ := hs.listed
  have htint : ∀ x ∈ new, x ∈ tinted h (L.left k.objects freed) := fun x hx =>
    (Finset.mem_sdiff.mp ((hnew x).mp hx).1).1
  have hgone : ∀ x ∈ new, x ∉ gone ∧ k.count x ≠ 0 := by
    intro x hx
    have hpos := (Census.mem_live.mp (hr.ledger.tinted_live (htint x hx))).2.2
    exact ⟨Finset.disjoint_left.mp hr.ledger.disjoint (htint x hx), by omega⟩
  have hfresh : ∀ x ∈ new, x ∉ dead ∧ x ∉ freed := by
    intro x hx
    obtain ⟨h1, h2⟩ := hgone x hx
    have hn : ¬(x ∈ dead ∨ x ∈ freed) := fun hm => by simpa [h1, h2] using hr.found x hm
    exact ⟨fun hm => hn (Or.inl hm), fun hm => hn (Or.inr hm)⟩
  rw [hdead]
  exact {
    ledger := hs.ledger
    listed := fun x hx => by
      rw [List.mem_append] at hx
      rcases hx with hx | hx | hx
      · exact hr.listed x (Or.inl hx)
      · have ht := htint x hx
        exact ⟨Ledger.tinted_subset ht, (Census.mem_live.mp (hr.ledger.tinted_live ht)).2.1⟩
      · exact hr.listed x (Or.inr hx)
    awaited := hr.awaited
    found := fun x hx => by
      rw [List.mem_append, or_assoc] at hx
      rcases hx with hx | hx
      · exact Or.inl (Finset.mem_union_right _ ((hnew x).mp hx).1)
      · exact (hr.found x hx).imp_left (Finset.mem_union_left _)
    deferred_eq := fun x => by
      have hdisj : Disjoint gone (tinted h (L.left k.objects freed) \
          tinted s.timed.heap (L.left k.objects freed)) :=
        Finset.disjoint_of_subset_right Finset.sdiff_subset hr.ledger.disjoint.symm
      rw [hs.deferred_eq, hr.deferred_eq, Finset.sum_union hdisj]
    once := fun he x => by
      have hone := hr.once he x
      rw [List.count_append]
      by_cases hx : x ∈ new
      · obtain ⟨hxd, hxf⟩ := hfresh x hx
        have hxq : x ∉ queued := fun hq => by
          have hb := (hr.flagged he x (Ledger.tinted_subset (htint x hx))).mpr hq
          simp [((hnew x).mp hx).2] at hb
        have h1 := List.nodup_iff_count_le_one.mp hnodup x
        rw [List.count_eq_zero.mpr hxd, List.count_eq_zero.mpr hxf, List.count_eq_zero.mpr hxq]
        omega
      · rw [List.count_eq_zero.mpr hx]
        omega
    flagged := fun he x hx => by
      rw [hs.buffered x hx]
      exact hr.flagged he x hx
    placed := fun he x hx => by
      rw [Finset.mem_union, or_assoc] at hx
      simp only [List.mem_append]
      have hold : x ∈ gone ∨ (k.count x = 0 ∧ x ∈ waiting) →
          x ∈ queued ∨ (x ∈ new ∨ x ∈ dead) ∨ x ∈ freed := fun hm =>
        (hr.placed he x hm).imp_right (Or.imp_left Or.inr)
      rcases hx with hx | hx | hx
      · exact hold (Or.inl hx)
      · have hxr := Ledger.tinted_subset (Finset.mem_sdiff.mp hx).1
        cases hb : isBuffered h x with
        | true => exact Or.inl ((hr.flagged he x hxr).mp hb)
        | false => exact Or.inr (Or.inl (Or.inl ((hnew x).mpr ⟨hx, hb⟩)))
      · exact hold (Or.inr hx) }

-- The dead objects are freed.
theorem release (hr : Roster L k waiting exact h gone queued dead freed deferred)
    (hmode : L.keeps = true ∨ exact) (ht : tinted h (L.left k.objects freed) = ∅) :
    ∃ h', dead.foldlM CountedHeap.free h = .ok h' ∧
      Roster L k waiting exact h' gone queued [] (dead.reverse ++ freed) deferred ∧
      tinted h' (L.left k.objects (dead.reverse ++ freed)) = ∅ ∧
      ∀ x ∈ L.left k.objects (dead.reverse ++ freed), status h' x = status h x := by
  have hnodup : exact → dead.Nodup := fun he =>
    List.nodup_iff_count_le_one.mpr fun x => by
      have h1 := hr.once he x
      omega
  obtain ⟨h', hfree, hs, hstatus⟩ := L.freeAll_ok hr.ledger.shows
    (fun o ho => (hr.listed o (Or.inr ho)).1) (hmode.imp_right hnodup)
  have hdead : ∀ x ∈ dead, x ∈ gone ∨ (k.count x = 0 ∧ k.isGreen x = false) := by
    intro x hx
    refine (hr.found x (Or.inl hx)).imp_right fun hz => ⟨hz.1, ?_⟩
    exact (hr.listed x (Or.inr hx)).2
  obtain ⟨hl, htint⟩ := hr.ledger.release ht hs hstatus hdead
  have hleft : L.left (L.left k.objects freed) dead = L.left k.objects (dead.reverse ++ freed) := by
    rw [L.left_left]
    exact L.left_congr _ fun x => by simp
  have hsub : L.left k.objects (dead.reverse ++ freed) ⊆ L.left k.objects freed := by
    rw [← hleft]
    exact L.left_subset _ _
  rw [hleft] at hl htint hstatus
  exact ⟨h', hfree, {
    ledger := hl
    listed := fun x hx => by
      have hxq : x ∈ queued := hx.resolve_right List.not_mem_nil
      obtain ⟨hxr, hxg⟩ := hr.listed x (Or.inl hxq)
      refine ⟨?_, hxg⟩
      rw [← hleft]
      rcases L.mem_left_or dead hxr with hm | hm
      · exact hm
      · -- a candidate that is dead as well is kept by the heap
        rcases hmode with hk | he
        · rw [Lawful.left, if_pos hk]
          exact hxr
        · have h1 := hr.once he x
          have h2 := List.count_pos_iff.mpr hxq
          have h3 := List.count_pos_iff.mpr hm
          omega
    awaited := hr.awaited
    found := fun x hx => by
      rcases List.mem_append.mp (hx.resolve_left List.not_mem_nil) with hx | hx
      · exact hr.found x (Or.inl (List.mem_reverse.mp hx))
      · exact hr.found x (Or.inr hx)
    deferred_eq := hr.deferred_eq
    once := fun he x => by
      have h1 := hr.once he x
      simp only [List.count_nil, List.count_append, List.count_reverse]
      omega
    flagged := fun he x hx => by
      rw [← hr.flagged he x (hsub hx)]
      simp only [isBuffered, hstatus x hx]
    placed := fun he x hx => by
      simpa [or_assoc] using hr.placed he x hx }, htint, hstatus⟩

end Roster

end Reclaim.Trial
