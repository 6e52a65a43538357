import Reclaim.Proofs.Counting
import Reclaim.Proofs.Trial.Figures

/-!
What an increment of cycle collection does to the account. The objects that it finds to be garbage
give up the references that they hold, those to acyclic objects as decrements that are still to be
applied.
-/
namespace Reclaim.Counting

open CountedHeap Queue Trial

variable {σ : Type} [CountedHeap σ] {L : Lawful σ} {k : Census} {ext : Nat → Nat} {r : Finset Nat}
variable {h h' : σ} {c : Collector}

-- The census of the objects `r` as they stand.
def census (k : Census) (r : Finset Nat) (h : σ) : Census :=
  { k with objects := r, count := count h }

theorem mem_live_census {x : Nat} :
    x ∈ (census k r h).live ↔ x ∈ live h r ∧ k.isGreen x = false := by
  rw [Census.mem_live, mem_live]
  simp only [census]
  tauto

theorem live_census_subset : (census k r h).live ⊆ live h r :=
  fun _ hx => (mem_live_census.mp hx).1

-- Trial deletion follows no references to acyclic objects.
theorem census_held (s : Finset Nat) {x : Nat} (hc : k.isCounted x = true) :
    (census k r h).held s x = if k.isGreen x then 0 else held k s x := by
  cases hg : k.isGreen x with
  | true => exact Census.held_green s hg
  | false =>
    rw [Census.held_eq, if_pos (by simp [Census.follows, census, hc, hg])]
    rfl

theorem sum_greens (s : Finset Nat) {x : Nat} (hc : k.isCounted x = true) :
    ∑ z ∈ s, ((census k r h).greens z).count x = if k.isGreen x then held k s x else 0 := by
  rw [Census.sum_greens, census, hc, Bool.true_and]
  rfl

theorem held_mono {s t : Finset Nat} (hst : s ⊆ t) (x : Nat) : held k s x ≤ held k t x :=
  Finset.sum_le_sum_of_subset hst

theorem held_sdiff {s t : Finset Nat} (hst : s ⊆ t) (x : Nat) :
    held k (t \ s) x + held k s x = held k t x :=
  Finset.sum_sdiff hst

namespace Tally

variable (ht : Tally L k ext r h c [])
include ht

theorem consistent : (census k r h).Consistent where
  held_le x hx := by
    have hx : x ∈ r := hx
    have heq := ht.account.count_eq x hx
    have hle := held_mono (k := k) (live_census_subset (k := k) (r := r) (h := h)) x
    change _ ≤ count h x
    rw [census_held _ (ht.account.isCounted_of_mem hx)]
    split_ifs <;> omega
  closed o ho x hx hcount := ht.account.closed o (mem_live_census.mp ho).1 x hx hcount
  word x hx := (Status.lt_bound_iff _).mp (ht.account.word x hx)

theorem ready : Ready L (census k r h) True c h where
  shows := L.recount ht.account.shows _ _
  word := ht.account.word
  count_eq _ _ := rfl
  green_iff := ht.account.green_iff
  plain := ht.account.plain
  valid := ht.candidates.valid
  candidates := ht.candidates.mem
  filtered_eq := ht.candidates.filtered_eq
  cycleA_eq := ht.candidates.cycleA_eq
  cycleB_eq := ht.candidates.cycleB_eq
  once _ := ht.candidates.once
  flagged _ := ht.candidates.flagged

theorem census_held_le (s : Finset Nat) {x : Nat} (hx : x ∈ r) :
    (census k r h).held s x ≤ held k s x := by
  rw [census_held _ (ht.account.isCounted_of_mem hx)]
  split_ifs
  · exact Nat.zero_le _
  · exact le_refl _

end Tally

-- What an increment left.
def kept (L : Lawful σ) (r : Finset Nat) (out : Outcome σ) : Finset Nat :=
  L.left r out.freed.reverse

theorem kept_subset {out : Outcome σ} : kept L r out ⊆ r := L.left_subset _ _

variable {settings : Settings} {gone : Finset Nat} {out : Outcome σ}
variable (hf : Finished L (census k r h) c.queued True settings gone out)
include hf

theorem gone_subset : gone ⊆ live h r :=
  hf.roster.ledger.gone_live.trans live_census_subset

theorem tinted_kept : tinted out.timed.heap (kept L r out) = ∅ := by
  have hsame : ∀ x, x ∈ out.freed.reverse ↔ x ∈ out.freed := fun _ => List.mem_reverse
  rw [kept, L.left_congr r hsame]
  exact hf.plain

theorem mem_deferred {x : Nat} (hx : x ∈ out.deferred) :
    ∃ z ∈ gone, x ∈ k.references z ∧ k.isCounted x = true ∧ k.isGreen x = true := by
  have hpos : 0 < out.deferred.reverse.count x := List.count_pos_iff.mpr (List.mem_reverse.mpr hx)
  rw [hf.roster.deferred_eq] at hpos
  obtain ⟨z, hz, hcount⟩ := Finset.exists_ne_zero_of_sum_ne_zero hpos.ne'
  have hmem := List.count_pos_iff.mp (Nat.pos_of_ne_zero hcount)
  exact ⟨z, hz, Census.mem_greens.mp hmem⟩

namespace Tally

variable (ht : Tally L k ext r h c [])
include ht

-- What garbage alone does not hold is kept.
theorem mem_kept {x : Nat} (hx : x ∈ r) (hheld : held k gone x < count h x) : x ∈ kept L r out := by
  refine (L.mem_left_or out.freed.reverse hx).resolve_right fun hfreed => ?_
  rcases hf.roster.found x (Or.inr hfreed) with hgone | ⟨hz, -⟩
  · have hle := hf.garbage x hgone
    have hle' := ht.census_held_le gone hx
    change count h x ≤ _ at hle
    omega
  · change count h x = 0 at hz
    omega

theorem count_kept {x : Nat} (hx : x ∈ kept L r out) :
    count out.timed.heap x + (if k.isGreen x then 0 else held k gone x) = count h x := by
  have heq := hf.roster.ledger.count_eq x hx
  have hxr := kept_subset hx
  have htint : tinted out.timed.heap (L.left (census k r h).objects out.freed.reverse) = ∅ :=
    tinted_kept hf
  rwa [htint, Census.held_empty, Nat.add_zero, census_held _ (ht.account.isCounted_of_mem hxr)] at heq

theorem live_kept : live out.timed.heap (kept L r out) = live h r \ gone := by
  ext x
  rw [mem_live, Finset.mem_sdiff]
  constructor
  · rintro ⟨hx, hpos⟩
    have heq := ht.count_kept hf hx
    refine ⟨mem_live.mpr ⟨kept_subset hx, by omega⟩, fun hgone => ?_⟩
    have hg := (mem_live_census.mp (hf.roster.ledger.gone_live hgone)).2
    have hle := hf.garbage x hgone
    rw [census_held _ (ht.account.isCounted_of_mem (kept_subset hx))] at hle
    change count h x ≤ _ at hle
    simp only [hg, Bool.false_eq_true, if_false] at heq hle
    omega
  · rintro ⟨hx, hgone⟩
    have hxr := (mem_live.mp hx).1
    have hpos := (mem_live.mp hx).2
    have hkept : x ∈ kept L r out := by
      refine (L.mem_left_or out.freed.reverse hxr).resolve_right fun hfreed => ?_
      rcases hf.roster.found x (Or.inr hfreed) with hg | ⟨hz, -⟩
      · exact hgone hg
      · exact hpos.ne' hz
    have heq := ht.count_kept hf hkept
    refine ⟨hkept, ?_⟩
    cases hg : k.isGreen x with
    | true =>
      simp only [hg, if_true] at heq
      omega
    | false =>
      have hlt := hf.complete x (mem_live_census.mpr ⟨hx, hg⟩) hgone
      rw [census_held _ (ht.account.isCounted_of_mem hxr)] at hlt
      change _ < count h x at hlt
      simp only [hg, Bool.false_eq_true, if_false] at heq hlt
      omega

theorem account_kept : Account L k ext (kept L r out) out.timed.heap out.deferred := by
  have hl := hf.roster.ledger
  have ha := ht.account
  have hgone := gone_subset hf
  exact {
    shows := L.recount hl.shows k.objects k.count
    word := hl.word
    green_iff := hl.green_iff
    plain := fun x hx => by
      have hnot : x ∉ tinted out.timed.heap (kept L r out) := by simp [tinted_kept hf]
      rw [mem_tinted, not_and_or, not_or] at hnot
      exact hnot.resolve_left (not_not_intro hx)
    closed := fun o ho x hx hc => by
      -- a live object that is not garbage holds it
      rw [ht.live_kept hf, Finset.mem_sdiff] at ho
      have hxr := ha.closed o ho.1 x hx hc
      have heq := ha.count_eq x hxr
      have hsum := held_sdiff (k := k) hgone x
      have hle := le_held (k := k) (Finset.mem_sdiff.mpr ho) x
      have hpos := List.count_pos_iff.mpr hx
      exact ht.mem_kept hf hxr (by omega)
    pending := fun x hx hc => by
      obtain ⟨z, hz, hxz, hcx, hg⟩ := mem_deferred hf hx
      have hxr := ha.closed z (hgone hz) x hxz hcx
      refine (L.mem_left_or out.freed.reverse hxr).resolve_right fun hfreed => ?_
      rcases hf.roster.found x (Or.inr hfreed) with hxgone | ⟨hzero, -⟩
      · have hn := (mem_live_census.mp (hl.gone_live hxgone)).2
        rw [hg] at hn
        cases hn
      · have heq := ha.count_eq x hxr
        have hle := le_held (k := k) (hgone hz) x
        have hpos := List.count_pos_iff.mpr hxz
        change count h x = 0 at hzero
        omega
    anchored := fun x hc hpos => by
      have hxr := ha.anchored x hc hpos
      have heq := ha.count_eq x hxr
      have hle := held_mono (k := k) hgone x
      exact ht.mem_kept hf hxr (by omega)
    count_eq := fun x hx => by
      have heq := ha.count_eq x (kept_subset hx)
      have hcount := ht.count_kept hf hx
      have hsum := held_sdiff (k := k) hgone x
      have hdef := hf.roster.deferred_eq x
      rw [List.count_reverse, sum_greens _ (ha.isCounted_of_mem (kept_subset hx))] at hdef
      rw [ht.live_kept hf, hdef]
      rw [List.count_nil] at heq
      split_ifs at hcount ⊢ <;> omega }

-- An object without a count was garbage or waited already.
theorem gone_or_waited {x : Nat} (hx : x ∈ kept L r out) (hz : count out.timed.heap x = 0) :
    x ∈ gone ∨ count h x = 0 ∧ x ∈ c.queued := by
  by_cases hgone : x ∈ gone
  · exact Or.inl hgone
  · have hxr := kept_subset hx
    have hnot : x ∉ live out.timed.heap (kept L r out) := fun hm => (mem_live.mp hm).2.ne' hz
    rw [ht.live_kept hf, Finset.mem_sdiff, not_and_or] at hnot
    have hnot := hnot.resolve_right (not_not_intro hgone)
    have hzero : count h x = 0 := by
      by_contra hne
      exact hnot (mem_live.mpr ⟨hxr, Nat.pos_of_ne_zero hne⟩)
    exact Or.inr ⟨hzero, ht.dead x hxr hzero⟩

theorem finished (hkeeps : L.keeps = false) : Tally L k ext (kept L r out) out.timed.heap out.collector out.deferred := by
  exact {
    account := ht.account_kept hf
    candidates := {
      valid := hf.valid
      once := List.nodup_iff_count_le_one.mpr fun x => by
        have h1 := hf.roster.once trivial x
        omega
      mem := fun x hx => hf.roster.listed x (Or.inl hx)
      flagged := hf.roster.flagged trivial
      filtered_eq := hf.filtered_eq
      cycleA_eq := hf.cycleA_eq
      cycleB_eq := hf.cycleB_eq }
    dead := fun x hx hz => by
      have hfreed : x ∉ out.freed.reverse := by
        unfold kept Lawful.left at hx
        rw [hkeeps] at hx
        exact fun hm => (Finset.mem_sdiff.mp hx).2 (List.mem_toFinset.mpr hm)
      rcases hf.roster.placed trivial x (ht.gone_or_waited hf hx hz) with hq | hd | hm
      · exact hq
      · cases hd
      · exact absurd hm hfreed }

-- Each object that the increment freed was there, and is freed once.
theorem parted_kept (hkeeps : L.keeps = false) : Parted r (kept L r out) out.freed := by
  have hmem : ∀ x ∈ out.freed, x ∈ r := fun x hx => by
    rcases hf.roster.found x (Or.inr (List.mem_reverse.mpr hx)) with hg | ⟨-, hw⟩
    · exact (mem_live.mp (gone_subset hf hg)).1
    · exact (ht.candidates.mem x hw).1
  have hnodup : out.freed.Nodup := List.nodup_iff_count_le_one.mpr fun x => by
    have honce := hf.roster.once trivial x
    rw [List.count_reverse] at honce
    omega
  have hkept : kept L r out = r \ out.freed.toFinset := by
    rw [kept, Lawful.left, hkeeps, List.toFinset_reverse]
    rfl
  rw [Parted, hkept, Finset.sdiff_val, List.toFinset_val, hnodup.dedup]
  exact (Multiset.sub_add_cancel ((Multiset.le_iff_subset (Multiset.coe_nodup.mpr hnodup)).mpr
    fun x hx => hmem x (Multiset.mem_coe.mp hx))).symm

-- Garbage that the increment left would have been garbage before.
theorem tended_kept (hw : (census k r h).Watched ∅ c h →
      (census k r h).Watched gone out.collector out.timed.heap)
    (htended : Tended k h r c) : Tended k out.timed.heap (kept L r out) out.collector := by
  have hheld : ∀ s x, x ∈ r → k.isGreen x = false → (census k r h).held s x = held k s x :=
    fun s x hx hg => by
      rw [census_held s (ht.account.isCounted_of_mem hx), hg]
      rfl
  have hstart : (census k r h).Watched ∅ c h := by
    intro s hs hne _ hgar
    rw [Finset.union_empty] at hgar
    refine htended s ⟨hne, hs.trans live_census_subset, fun x hx => (mem_live_census.mp (hs hx)).2,
      fun x hx => ?_⟩
    obtain ⟨hlive, hg⟩ := mem_live_census.mp (hs hx)
    rw [← hheld s x (mem_live.mp hlive).1 hg]
    exact hgar x hx
  intro s hi
  have hsub : s ⊆ live h r \ gone := ht.live_kept hf ▸ hi.subset
  have hlive : ∀ x ∈ s, x ∈ (census k r h).live := fun x hx =>
    mem_live_census.mpr ⟨(Finset.mem_sdiff.mp (hsub hx)).1, hi.cyclic x hx⟩
  have hd : Disjoint s gone :=
    Finset.disjoint_left.mpr fun x hx => (Finset.mem_sdiff.mp (hsub hx)).2
  refine hw hstart s hlive hi.nonempty hd fun x hx => ?_
  rcases Finset.mem_union.mp hx with hx | hx
  · have hg := hi.cyclic x hx
    have hxr := (mem_live.mp (mem_live_census.mp (hlive x hx)).1).1
    have hcount := ht.count_kept hf (mem_live.mp (hi.subset hx)).1
    have hle := hi.count_le x hx
    simp only [hg, Bool.false_eq_true, if_false] at hcount
    rw [Census.held_union hd, hheld s x hxr hg, hheld gone x hxr hg]
    change count h x ≤ _
    omega
  · exact (hf.garbage x hx).trans (Census.held_mono Finset.subset_union_right x)

omit hf in
-- An increment ends, whatever the clock shows, and keeps the account.
theorem runUntil (hkeeps : L.keeps = false) (clock : Clock) (hgrain : c.settings.visitGrain ≠ 0)
    (hbound : c.settings.visitBound ≠ 0) (hfilter : c.settings.filterBound ≠ 0)
    (available collection deadline : Nat) :
    ∃ out r', c.runUntil available collection deadline ⟨h, clock⟩ = .ok out ∧
      Parted r r' out.freed ∧ out.collector.stats.freed = out.freed.length ∧
      Tally L k ext r' out.timed.heap out.collector out.deferred ∧
      out.collector.settings = c.settings ∧
      (Tended k h r c → Tended k out.timed.heap r' out.collector) := by
  obtain ⟨out, gone, hrun, hf, hw⟩ := Collector.runUntil_watched (t := ⟨h, clock⟩) ht.ready
    ⟨ht.consistent, Or.inr trivial, hgrain, hbound, hfilter⟩ available collection deadline
  exact ⟨out, kept L r out, hrun, ht.parted_kept hf hkeeps, Increment.freed_of_runUntil hrun,
    ht.finished hf hkeeps, hf.settings_eq, ht.tended_kept hf hw⟩

end Tally

end Reclaim.Counting
