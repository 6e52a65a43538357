import Reclaim.Proofs.Trial.Safety

/-!
Exactness of an increment that is not pressed for time: it frees all that its candidates lead to and
that nothing else refers to, however its filter passes split the candidates into rounds.

A round may turn black, or bury, candidates of later rounds. What it leaves is still pursued: an
object that it turned black is held from outside of what it turned grey, by an object that is to be
freed as well, and so by one that a candidate of a later round leads to.
-/
namespace Reclaim.Trial

open CountedHeap Queue

namespace Census

variable (k : Census)

open Classical in
-- What some objects lead to.
noncomputable def within (roots : Nat → Prop) : Finset Nat :=
  k.live.filter fun x => ∃ a, roots a ∧ k.Reach a x

open Classical in
-- What is held by `s` alone, along with all that leads to it in `s`.
noncomputable def doomed (s : Finset Nat) : Finset Nat :=
  s.filter fun d => ∀ x ∈ s, k.held s x < k.count x → ¬k.Reach x d

variable {k}

theorem mem_within {roots : Nat → Prop} {x : Nat} :
    x ∈ k.within roots ↔ x ∈ k.live ∧ ∃ a, roots a ∧ k.Reach a x := by
  simp [within]

theorem mem_doomed {s : Finset Nat} {d : Nat} :
    d ∈ k.doomed s ↔ d ∈ s ∧ ∀ x ∈ s, k.held s x < k.count x → ¬k.Reach x d := by
  simp [doomed]

theorem doomed_of_reach {s : Finset Nat} {u d : Nat} (hu : u ∈ s) (hd : d ∈ k.doomed s)
    (h : k.Reach u d) : u ∈ k.doomed s := by
  obtain ⟨-, hd⟩ := mem_doomed.mp hd
  refine mem_doomed.mpr ⟨hu, fun x hx hlt hxu => hd x hx hlt (hxu.trans h)⟩

theorem Garbage.subset_doomed (hk : k.Consistent) {gone s : Finset Nat} (hs : s ⊆ k.live)
    (hgs : gone ⊆ s) (hgar : k.Garbage gone) : gone ⊆ k.doomed s := by
  intro z hz
  refine mem_doomed.mpr ⟨hgs hz, fun x hx hlt hxz => ?_⟩
  have hxg : x ∉ gone := fun hxg => by
    have hle := (hgar x hxg).trans (k.held_mono hgs x)
    omega
  exact hk.not_mem_of_reach (hgs.trans hs) hgar (hs hx) hxg hxz hz

end Census

variable {σ : Type} [CountedHeap σ] {e : Scope σ} {gone : Finset Nat} {g h : σ}

-- What is to be freed of `s` and is not gone yet is what candidates lead to that the next rounds
-- will try. The increment started in heap `g`.
structure Pursued (e : Scope σ) (g : σ) (s gone : Finset Nat) (freed : List Nat) (c : Collector)
    (h : σ) : Prop where
  subset : gone ⊆ s
  filtered_eq : c.filtered.contents = []
  purple : ∀ x ∈ e.law.left e.census.objects freed, isPurple h x = true → isPurple g x = true
  pursued : ∀ d ∈ e.census.doomed s, d ∉ gone →
    ∃ p ∈ c.mature.contents, isPurple h p = true ∧ e.census.Reach p d

-- An object that a round turned black is held by something that the round did not come across.
theorem Round.exists_holder {grey white s : Finset Nat} {deadline : Nat} {i i' : Increment σ}
    (hr : Round e gone grey white deadline i i') (hgrey : grey ⊆ s) (hgone : gone ⊆ s)
    (hdisj : Disjoint grey gone) {d : Nat} (hd : d ∈ e.census.doomed s) (hdg : d ∈ grey)
    (hdw : d ∉ white) : ∃ u ∈ e.census.doomed s, u ∉ grey ∧ u ∉ gone ∧ e.census.Reach u d := by
  obtain ⟨y, hy, hyd, hlt⟩ := hr.excess d hdg hdw
  have hle : e.census.count y ≤ e.census.held s y := by
    by_contra hn
    exact (Census.mem_doomed.mp hd).2 y (hgrey hy) (Nat.lt_of_not_le hn) hyd
  have hsplit := Finset.sum_sdiff (f := fun o => (e.census.traced o).count y)
    (Finset.union_subset hgrey hgone)
  have hunion := e.census.held_union hdisj y
  have hpos : 0 < e.census.held (s \ (grey ∪ gone)) y := by
    simp only [Census.held] at hlt hle hunion ⊢
    omega
  obtain ⟨u, hu, hyu⟩ := Census.exists_holder hpos
  simp only [Finset.mem_sdiff, Finset.mem_union, not_or] at hu
  have hud : e.census.Reach u d := Relation.ReflTransGen.head hyu hyd
  exact ⟨u, Census.doomed_of_reach hu.1 hd hud, hu.2.1, hu.2.2, hud⟩

-- A round leaves what it does not free to the candidates of later rounds.
section Pursuit

variable {grey white : Finset Nat} {deadline : Nat} {freed : List Nat} {aborted : Bool}
  {i i' : Increment σ} (hi : Settled { e with freed } gone i)
  (hr : Rounded { e with freed } gone grey white deadline aborted i i')
include hi hr

-- What a round turns grey is live, not gone and led to by a candidate that was purple.
theorem Pursued.grey_within {c : Collector} {s : Finset Nat}
    (hp : Pursued e g s gone freed c i.timed.heap) (hk : e.census.Consistent) {x : Nat}
    (hx : x ∈ grey) :
    x ∉ gone ∧ x ∈ e.census.within fun a => a ∈ e.waiting ∧ isPurple g a = true := by
  obtain ⟨a, ha, har, hap, hax⟩ := hr.rooted x hx
  obtain ⟨halive, hagone⟩ := hi.ledger.live_of_isPurple hi.garbage har hap
  exact ⟨hk.not_mem_of_reach hi.ledger.gone_live hi.garbage halive hagone hax,
    Census.mem_within.mpr ⟨hk.mem_live_of_reach halive hax, a, ⟨ha, hp.purple a har hap⟩, hax⟩⟩

-- A candidate that the round did not come across waits for a later one.
theorem Rounded.mature_of_not_grey (hround : Round { e with freed } gone grey white deadline i i')
    (hfiltered : i'.collector.filtered.contents = []) {p : Nat}
    (hpm : p ∈ i.collector.mature.contents) (hpp : isPurple i.timed.heap p = true) (hpg : p ∉ grey) :
    p ∈ i'.collector.mature.contents ∧ isPurple i'.timed.heap p = true := by
  have hpr := hi.mem_present_of_ready (List.mem_append_left _ hpm)
  obtain ⟨hplive, hpgone⟩ := hi.ledger.live_of_isPurple hi.garbage hpr hpp
  have hready := (hround.tried p (List.mem_append_left _ hpm) hpp).resolve_left hpg
  have hpgone' : p ∉ gone ∪ white := by
    rw [Finset.mem_union, not_or]
    exact ⟨hpgone, fun hw => hpg (hr.less hw)⟩
  have hcolor := hround.same p (hr.settled.mem_present_of_ready hready) hpg
  refine ⟨?_, hr.settled.isPurple_live hplive hpgone' (hcolor.trans (isPurple_iff.mp hpp).2)⟩
  simpa only [Collector.ready, hfiltered, List.append_nil] using hready

-- What is purple after a round and has a count was so before it.
theorem Rounded.isPurple_before (hround : Round { e with freed } gone grey white deadline i i')
    {x : Nat} (hx : x ∈ e.law.left e.census.objects i'.freed) (hxp : isPurple i'.timed.heap x = true) :
    isPurple i.timed.heap x = true := by
  obtain ⟨hxlive, hxgone⟩ := hr.settled.ledger.live_of_isPurple hr.settled.garbage hx hxp
  have hcolor := (isPurple_iff.mp hxp).2
  have hxg : x ∉ grey := by
    intro hxg
    have hblack := hround.black x hx hxg fun hw => hxgone (Finset.mem_union_right _ hw)
    simp [hcolor] at hblack
  exact hi.isPurple_live hxlive (fun h => hxgone (Finset.mem_union_left _ h))
    ((hround.same x hx hxg).symm.trans hcolor)

theorem Pursued.round
    (hp : Pursued e g (e.census.within fun a => a ∈ e.waiting ∧ isPurple g a = true) gone freed
      i.collector i.timed.heap)
    (hlate : ¬e.Late deadline) (hk : e.census.Consistent) :
    Pursued e g (e.census.within fun a => a ∈ e.waiting ∧ isPurple g a = true) (gone ∪ white)
      i'.freed i'.collector i'.timed.heap := by
  have hdone : aborted = false := by
    rw [Bool.eq_false_iff]
    exact fun ha => hlate (hr.late ha)
  have hround := hr.round hdone
  have hgrey := fun x (hx : x ∈ grey) => hp.grey_within hi hr hk hx
  have hfiltered : i'.collector.filtered.contents = [] := hround.ended.resolve_right hlate
  have hstay := fun p => hr.mature_of_not_grey hi hround hfiltered (p := p)
  refine ⟨Finset.union_subset hp.subset fun x hx => (hgrey x (hr.less hx)).2, hfiltered,
    fun x hx hxp => hp.purple x (hround.subset hx) (hr.isPurple_before hi hround hx hxp),
    fun d hd hdg => ?_⟩
  rw [Finset.mem_union, not_or] at hdg
  obtain ⟨p, hpm, hpp, hpd⟩ := hp.pursued d hd hdg.1
  have hreach : ∀ a ∈ grey, ∀ x, e.census.Reach a x → x ∈ grey := by
    intro a ha x hx
    induction hx with
    | refl => exact ha
    | tail _ he ih => exact hround.closed _ ih _ he
  by_cases hpg : p ∈ grey
  · obtain ⟨u, hu, hug, hugone, hud⟩ := hround.exists_holder (fun x hx => (hgrey x hx).2) hp.subset
      (Finset.disjoint_left.mpr fun x hx => (hgrey x hx).1) hd (hreach p hpg d hpd) hdg.2
    obtain ⟨q, hqm, hqp, hqu⟩ := hp.pursued u hu hugone
    obtain ⟨hq, hq'⟩ := hstay q hqm hqp fun hqg => hug (hreach q hqg u hqu)
    exact ⟨q, hq, hq', hqu.trans hud⟩
  · obtain ⟨hq, hq'⟩ := hstay p hpm hpp hpg
    exact ⟨p, hq, hq', hpd⟩

end Pursuit

-- Before the first round all that is to be freed is pursued by a candidate that was new.
theorem Pursued.start {i i1 i2 : Increment σ} {front : List Nat}
    (hi2 : Settled { e with unfiltered := i1.collector.unfiltered, freed := i2.freed } ∅ i2)
    (hwaiting : ∀ x ∈ e.waiting, x ∈ front) (hcollector : i2.collector = i1.collector)
    (hfiltered : i1.collector.filtered.contents = [])
    (hmature : i1.collector.mature.contents = front.filter (isPurple i.timed.heap))
    (hsub : e.law.left e.census.objects i2.freed ⊆ e.present)
    (hstatus : ∀ x ∈ e.law.left e.census.objects i2.freed,
      status i2.timed.heap x = status i1.timed.heap x)
    (hsame : ∀ x ∈ e.present, color i1.timed.heap x = color i.timed.heap x ∧
      count i1.timed.heap x = count i.timed.heap x) :
    Pursued e i.timed.heap
      (e.census.within fun a => a ∈ e.waiting ∧ isPurple i.timed.heap a = true) ∅ i2.freed
      i2.collector i2.timed.heap := by
  have hpurple : ∀ x ∈ e.law.left e.census.objects i2.freed,
      isPurple i2.timed.heap x = isPurple i.timed.heap x := by
    intro x hx
    obtain ⟨hcolor, hcount⟩ := hsame x (hsub hx)
    apply isPurple_congr
    · rw [← hcolor]
      simp only [color, hstatus x hx]
    · rw [← hcount]
      simp only [CountedHeap.count, hstatus x hx]
  refine ⟨by simp, by rw [hcollector]; exact hfiltered, fun x hx hxp => hpurple x hx ▸ hxp, ?_⟩
  intro d hd _
  obtain ⟨-, a, ⟨haw, hap⟩, had⟩ := Census.mem_within.mp (Census.mem_doomed.mp hd).1
  have ham : a ∈ i2.collector.mature.contents := by
    rw [hcollector, hmature]
    exact List.mem_filter.mpr ⟨hwaiting a haw, hap⟩
  have har := (hi2.mem_present (x := a) (by simp [Collector.queued, ham])).1
  exact ⟨a, ham, (hpurple a har).trans hap, had⟩

-- Rounds with time for all candidates free all that is to be freed.
theorem Settled.detect_exact {i : Increment σ} (hi : Settled e ∅ i) (he : e.Sound)
    (hdead : i.dead = []) (deadline steps : Nat) (hlate : ¬e.Late deadline)
    (htime : ∀ reads visits, cycleShare e.settings.timeCap < deadline - e.time reads visits)
    (hp : Pursued e g (e.census.within fun a => a ∈ e.waiting ∧ isPurple g a = true) ∅ e.freed
      i.collector i.timed.heap) (hsteps : i.collector.ready.length < steps) :
    ∃ i', i.detect deadline steps = .ok (false, i') ∧
      Settled { e with freed := i'.freed }
        (e.census.doomed (e.census.within fun a => a ∈ e.waiting ∧ isPurple g a = true)) i' ∧
      i'.dead = [] ∧ i'.collector.mature.contents = [] ∧ i'.collector.filtered.contents = [] := by
  obtain ⟨aborted, i', gone, hrun, hi', hdead', hp', hab, hdone⟩ := hi.detect he deadline
    (fun gone freed c h => Pursued e g
      (e.census.within fun a => a ∈ e.waiting ∧ isPurple g a = true) gone freed c h)
    (fun _ _ _ _ _ _ _ hi hp hr => hp.round hi hr hlate he.consistent)
    steps hdead hp hsteps
  cases aborted with
  | true => exact absurd (hab rfl) hlate
  | false =>
    have hlast := hdone rfl
    have hmature : i'.collector.mature.contents = [] := by
      refine hlast.resolve_right ?_
      rintro ⟨reads, visits, hl⟩
      exact absurd (htime reads visits) (Nat.not_lt.mpr hl)
    have hgone : gone = e.census.doomed
        (e.census.within fun a => a ∈ e.waiting ∧ isPurple g a = true) := by
      apply Finset.Subset.antisymm
      · refine Census.Garbage.subset_doomed he.consistent ?_ hp'.subset hi'.garbage
        intro x hx
        exact (Census.mem_within.mp hx).1
      · intro d hd
        by_contra hn
        obtain ⟨p, hpm, -⟩ := hp'.pursued d hd hn
        rw [hmature] at hpm
        exact List.not_mem_nil hpm
    exact ⟨i', hrun, hgone ▸ hi', hdead', hmature, hp'.filtered_eq⟩

section Entry

variable {L : Lawful σ} {k : Census} {c : Collector} {t : Timed σ}

-- With time for it and room in the filter, the first pass takes all candidates.
theorem Ready.filter_all (hr : Ready L k True c t.heap) (he : (Scope.entry L k True c t).Sound)
    (hmature : c.mature.contents = []) (hlimit : c.unfiltered.contents.length ≤ c.settings.filterLimit)
    (limit : Nat) (htime : ∀ reads visits, t.clock.time reads visits < limit) :
    ∃ (front : List Nat) (i : Increment σ), { { timed := t, collector := c : Increment σ }.now.2 with
        stage := .filter }.filterNew limit = .ok i ∧
      Settled { Scope.entry L k True c t with unfiltered := i.collector.unfiltered } ∅ i ∧
      (∀ x ∈ (Scope.entry L k True c t).present, color i.timed.heap x = color t.heap x ∧
        count i.timed.heap x = count t.heap x) ∧
      i.collector.unfiltered.contents = [] ∧
      i.collector.mature.contents = front.filter (isPurple t.heap) ∧
      i.collector.filtered.contents = [] ∧ ∀ x ∈ c.queued, x ∈ front := by
  have hread : Settled (.entry L k True c t) ∅
      { { timed := t, collector := c : Increment σ }.now.2 with stage := .filter } :=
    { hr.settled with }
  obtain ⟨front, i, hpass, hi, hsame, hsource, htarget, hfiltered, hlast⟩ :=
    hread.filterNew he limit
  change c.unfiltered.contents = _ at hsource
  change _ = c.mature.contents ++ front.filter (isPurple t.heap) at htarget
  rw [hmature, List.nil_append] at htarget
  have hempty : i.collector.unfiltered.contents = [] := by
    rcases hlast with hl | ⟨reads, visits, hl⟩ | hl
    · exact hl
    · exact absurd (htime reads visits) (Nat.not_lt.mpr hl)
    · change c.settings.filterLimit ≤ _ at hl
      have hlen := congrArg List.length hsource
      rw [List.length_append] at hlen
      exact List.length_eq_zero_iff.mp (by omega)
  refine ⟨front, i, hpass, hi, hsame, hempty, htarget, hfiltered ▸ hr.filtered_eq, fun x hx => ?_⟩
  simp only [Collector.queued, hmature, hr.filtered_eq, hr.cycleA_eq, hr.cycleB_eq,
    List.append_nil] at hx
  rwa [hsource, hempty, List.append_nil] at hx

-- An increment with time for all rounds leaves no candidate, and what is gone is what was to be
-- freed.
theorem Collector.runUntil_exact (hr : Ready L k True c t.heap)
    (he : (Scope.entry L k True c t).Sound) (hmature : c.mature.contents = [])
    (hlimit : c.unfiltered.contents.length ≤ c.settings.filterLimit)
    {available collection deadline now : Nat}
    (hfilter : shouldAct available c.settings.filterPages collection = true)
    (hdetect : shouldAct available c.settings.detectionPages collection = true)
    (hstill : ∀ reads visits, t.clock.time reads visits = now) (hspan : 3 ≤ deadline - now)
    (hcap : filterShare c.settings.timeCap < deadline - now) :
    ∃ out, c.runUntil available collection deadline t = .ok out ∧
      Finished L k c.queued True c.settings
        (k.doomed (k.within fun a => a ∈ c.queued ∧ isPurple t.heap a = true)) out ∧
      out.collector.queued = [] ∧ out.aborted = false ∧ out.progress = .complete := by
  have hnow : { timed := t, collector := c : Increment σ }.now.1 = now := hstill _ _
  have hlate : ¬(Scope.entry L k True c t).Late deadline := by
    rintro ⟨reads, visits, reads', visits', hl⟩
    change t.clock.time reads visits + markGreyShare (deadline - t.clock.time reads visits) ≤
      t.clock.time reads' visits' at hl
    rw [hstill, hstill] at hl
    simp only [markGreyShare] at hl
    omega
  obtain ⟨front, i1, hpass, hi1, hsame1, hempty, htarget, hf1, hwaiting⟩ :=
    hr.filter_all he hmature hlimit ({ timed := t, collector := c : Increment σ }.now.1 +
      filterShare (deadline - { timed := t, collector := c : Increment σ }.now.1))
      fun reads visits => by
        rw [hnow, hstill]
        simp only [filterShare]
        omega
  obtain ⟨i2, hfree, hi2, hdead2, hcollector2, -, hsub2, hstatus2⟩ := hi1.processFree { he with }
  have hp2 := Pursued.start (e := .entry L k True c t) (i := { timed := t, collector := c }) hi2
    hwaiting hcollector2 hf1 htarget hsub2 hstatus2 hsame1
  obtain ⟨i3, hrun, hi3, hdead3, hm3, hf3⟩ := Settled.detect_exact (g := t.heap)
    (e := { Scope.entry L k True c t with
      unfiltered := i1.collector.unfiltered, freed := i2.freed })
    (i := { i2 with stats := { i2.stats with detected := true } }) { hi2 with } { he with } hdead2
    deadline (i2.collector.mature.length + i2.collector.filtered.length + 1) hlate
    (fun reads visits => by
      change cycleShare c.settings.timeCap < deadline - t.clock.time reads visits
      rw [hstill]
      simp only [cycleShare, filterShare] at hcap ⊢
      omega)
    { hp2 with }
    (by
      simp only [Collector.ready, List.length_append, Solo.length_eq]
      exact Nat.lt_succ_self _)
  obtain ⟨hi4, hf4, hperm⟩ := hi3.putBack
  have hqueued3 : i3.collector.queued = [] := by
    simp only [Collector.queued, hi3.unfiltered_eq, hempty, hm3, hf3, hi3.cycleA_eq, hi3.cycleB_eq,
      List.append_nil]
  have hqueued : (Increment.putBack (i3.collector.filtered.length + 1) i3.collector).queued = [] :=
    (hqueued3 ▸ hperm).eq_nil
  refine ⟨.ofIncrement false
    (i3.onCollector (Increment.putBack (i3.collector.filtered.length + 1))), ?_,
    Finished.of_settled hi4 hdead3 hf4 false, hqueued, rfl, ?_⟩
  · have htime : ¬deadline - { timed := t, collector := c : Increment σ }.now.1 ≤
        filterShare c.settings.timeCap := by
      rw [hnow]
      omega
    rw [Collector.runUntil, Increment.act_of_filtered hfilter htime hpass hfree]
    simp only [hdetect, Bool.not_true, Bool.false_eq_true, if_false, hrun, ok_bind]
  · have hnone := Collector.hasCandidates_eq_false hi4.valid hqueued
    exact if_neg (by simp [hnone])

end Entry

namespace Graph

variable {g : Graph} {c : Collector}

open Classical in
-- The tracked objects that candidates lead to, if they are purple and have a count.
noncomputable def suspects (g : Graph) (c : Collector) : Finset Nat :=
  (Finset.range g.nodes.size).filter fun x =>
    g.Tracked x ∧ ∃ a ∈ c.unfiltered.contents, isPurple g a = true ∧ g.Leads a x

-- The references to `x` that the objects of `s` hold.
def held (g : Graph) (s : Finset Nat) (x : Nat) : Nat := ∑ o ∈ s, (g.references o).count x

open Classical in
-- The suspects that no suspect leads to which is referenced from outside of the suspects.
noncomputable def doomed (g : Graph) (c : Collector) : Finset Nat :=
  (g.suspects c).filter fun d => ∀ x ∈ g.suspects c, g.held (g.suspects c) x < count g x →
    ¬g.Leads x d

-- All candidates are new, each is queued once, and one filter pass may take them all.
structure Fresh (g : Graph) (c : Collector) : Prop where
  once : c.unfiltered.contents.Nodup
  flagged : ∀ o < g.nodes.size, isBuffered g o = true → o ∈ c.unfiltered.contents
  mature_eq : c.mature.contents = []
  limit : c.unfiltered.contents.length ≤ c.settings.filterLimit

theorem held_census (s : Finset Nat) {x : Nat} (hx : g.Tracked x) :
    g.census.held s x = g.held s x := by
  rw [Census.held_eq, if_pos (follows_of_tracked hx)]
  rfl

-- References to acyclic objects are not followed.
theorem held_census_eq (s : Finset Nat) {x : Nat} (hx : x < g.nodes.size)
    (hcount : (g.node x).counted = true) :
    g.census.held s x = if color g x = .green then 0 else g.held s x := by
  split
  · rename_i hgreen
    exact Census.held_green s (by simp [census, hgreen])
  · rename_i hgreen
    exact held_census s ⟨hx, hcount, hgreen⟩

-- They are counted apart.
theorem sum_greens (s : Finset Nat) (x : Nat) : ∑ o ∈ s, (g.census.greens o).count x =
    if (g.node x).counted = true ∧ color g x = .green then g.held s x else 0 := by
  simp only [Census.sum_greens, census, Bool.and_eq_true, beq_iff_eq]
  rfl

namespace Coherent

variable (hg : g.Coherent c)
include hg

theorem leads_of_reach {a x : Nat} (ha : a ∈ g.census.live) (h : g.census.Reach a x) :
    g.Leads a x := by
  induction h with
  | refl => exact .refl
  | tail hr he ih =>
    obtain ⟨hobj, hgreen, -⟩ := Census.mem_live.mp (hg.consistent.mem_live_of_reach ha hr)
    exact ih.tail ⟨tracked_iff.mpr ⟨hobj, hgreen⟩, (Census.mem_traced.mp he).1⟩

theorem queued_eq (hf : g.Fresh c) : c.queued = c.unfiltered.contents := by
  simp only [Collector.queued, hf.mature_eq, hg.filtered_eq, hg.cycleA_eq, hg.cycleB_eq,
    List.append_nil]

theorem suspects_eq (hf : g.Fresh c) : g.suspects c =
    g.census.within fun a => a ∈ c.queued ∧ isPurple g a = true := by
  have hlive : ∀ a ∈ c.unfiltered.contents, isPurple g a = true → a ∈ g.census.live := by
    intro a ha hp
    rw [← hg.queued_eq hf] at ha
    obtain ⟨hobj, hgreen⟩ := tracked_iff.mp (hg.candidates a ha).1
    exact Census.mem_live.mpr ⟨hobj, hgreen, (isPurple_iff.mp hp).1⟩
  ext x
  rw [Census.mem_within]
  simp only [suspects, Finset.mem_filter, Finset.mem_range, hg.queued_eq hf]
  constructor
  · rintro ⟨-, hx, a, ha, hp, hax⟩
    have hreach := hax.reach hx
    exact ⟨hg.consistent.mem_live_of_reach (hlive a ha hp) hreach, a, ⟨ha, hp⟩, hreach⟩
  · rintro ⟨hx, a, ⟨ha, hp⟩, hax⟩
    obtain ⟨hobj, hgreen, -⟩ := Census.mem_live.mp hx
    exact ⟨(mem_objects.mp hobj).1, tracked_iff.mpr ⟨hobj, hgreen⟩, a, ha, hp,
      hg.leads_of_reach (hlive a ha hp) hax⟩

theorem doomed_eq (hf : g.Fresh c) : g.doomed c =
    g.census.doomed (g.census.within fun a => a ∈ c.queued ∧ isPurple g a = true) := by
  have hs := hg.suspects_eq hf
  have hmem : ∀ x ∈ g.suspects c, x ∈ g.census.live ∧ g.Tracked x := by
    intro x hx
    have hlive := (Census.mem_within.mp (hs ▸ hx)).1
    obtain ⟨hobj, hgreen, -⟩ := Census.mem_live.mp hlive
    exact ⟨hlive, tracked_iff.mpr ⟨hobj, hgreen⟩⟩
  ext d
  rw [Census.mem_doomed, ← hs]
  simp only [doomed, Finset.mem_filter]
  refine and_congr_right fun hd => forall₂_congr fun x hx => ?_
  obtain ⟨hlive, htracked⟩ := hmem x hx
  rw [held_census _ htracked]
  refine imp_congr_right fun _ => not_congr ⟨fun h => h.reach (hmem d hd).2, fun h => ?_⟩
  exact hg.leads_of_reach hlive h

-- An increment with time for all rounds frees what is doomed and the candidates without a count, each
-- once. It defers the references of what is doomed to acyclic objects and takes its other references
-- off the counts of what stays.
theorem freed_iff_doomed (hf : g.Fresh c) (hgrain : c.settings.visitGrain ≠ 0)
    (hbound : c.settings.visitBound ≠ 0) (hbatch : c.settings.filterBound ≠ 0)
    {available collection deadline now : Nat} {clock : Clock}
    (hfilter : shouldAct available c.settings.filterPages collection = true)
    (hdetect : shouldAct available c.settings.detectionPages collection = true)
    (hstill : ∀ reads visits, clock.time reads visits = now) (hspan : 3 ≤ deadline - now)
    (hcap : c.settings.timeCap / 3 < deadline - now) :
    ∃ out, c.runUntil available collection deadline ⟨g, clock⟩ = .ok out ∧
      out.progress = .complete ∧ out.aborted = false ∧ out.freed.Nodup ∧
      (∀ o, o ∈ out.freed ↔ o ∈ g.doomed c ∨ (o ∈ c.unfiltered.contents ∧ count g o = 0)) ∧
      (∀ x, out.deferred.count x = if (g.node x).counted = true ∧ color g x = .green then
        g.held (g.doomed c) x else 0) ∧
      ∀ o < g.nodes.size, (g.node o).counted = true →
        color out.timed.heap o ≠ .grey ∧ color out.timed.heap o ≠ .white ∧
        isBuffered out.timed.heap o = false ∧
        count out.timed.heap o + (if color g o = .green then 0 else g.held (g.doomed c) o) =
          count g o := by
  have hqueued := hg.queued_eq hf
  have hready : Ready lawful g.census True c g := by
    refine hg.ready (fun _ => hqueued ▸ hf.once) fun _ x hx => ⟨fun hb => ?_, fun hx => ?_⟩
    · rw [hqueued]
      exact hf.flagged x (mem_objects.mp hx).1 hb
    · exact (hg.candidates x hx).2
  obtain ⟨out, hrun, hout, hnone, haborted, hprogress⟩ := Collector.runUntil_exact
    (t := ⟨g, clock⟩) hready ⟨hg.consistent, Or.inl rfl, hgrain, hbound, hbatch⟩ hf.mature_eq hf.limit
    hfilter hdetect hstill hspan hcap
  rw [← hg.doomed_eq hf] at hout
  have hleft : ∀ freed, lawful.left g.census.objects freed = g.census.objects := fun _ => rfl
  refine ⟨out, hrun, hprogress, haborted, ?_, ?_, ?_, ?_⟩
  · rw [List.nodup_iff_count_le_one]
    intro x
    have h1 := hout.roster.once trivial x
    rw [List.count_reverse] at h1
    omega
  · intro o
    rw [← List.mem_reverse, ← hqueued]
    constructor
    · intro ho
      exact (hout.roster.found o (Or.inr ho)).imp_right And.symm
    · intro ho
      rcases hout.roster.placed trivial o (ho.imp_right And.symm) with hm | hm | hm
      · rw [hnone] at hm
        exact absurd hm List.not_mem_nil
      · exact absurd hm List.not_mem_nil
      · exact hm
  · intro x
    have hd := hout.roster.deferred_eq x
    rw [List.count_reverse] at hd
    rw [hd, sum_greens]
  · intro o ho hcount
    have hobj : o ∈ g.census.objects := mem_objects.mpr ⟨ho, hcount⟩
    have hplain := hout.plain
    rw [hleft] at hplain
    have hnot : o ∉ tinted out.timed.heap g.census.objects := by simp [hplain]
    rw [mem_tinted, not_and, not_or] at hnot
    have heq := hout.roster.ledger.count_eq o hobj
    rw [hleft, hplain, Census.held_empty] at heq
    refine ⟨(hnot hobj).1, (hnot hobj).2, ?_, ?_⟩
    · rw [Bool.eq_false_iff, ne_eq, hout.roster.flagged trivial o hobj, hnone]
      exact List.not_mem_nil
    · rwa [held_census_eq _ ho hcount] at heq

end Coherent

end Graph

theorem fresh_rings : rings.Fresh ringCollector where
  once := by decide
  flagged := by decide
  mature_eq := rfl
  limit := by decide

theorem freed_iff_doomed_rings : ∃ out,
    ringCollector.runUntil 0 0 300 ⟨rings, .still 0⟩ = .ok out ∧
      out.progress = .complete ∧ out.aborted = false ∧ out.freed.Nodup ∧
      (∀ o, o ∈ out.freed ↔ o ∈ rings.doomed ringCollector ∨
        (o ∈ ringCollector.unfiltered.contents ∧ count rings o = 0)) ∧
      (∀ x, out.deferred.count x = if (rings.node x).counted = true ∧ color rings x = .green then
        rings.held (rings.doomed ringCollector) x else 0) ∧
      ∀ o < rings.nodes.size, (rings.node o).counted = true →
        color out.timed.heap o ≠ .grey ∧ color out.timed.heap o ≠ .white ∧
        isBuffered out.timed.heap o = false ∧
        count out.timed.heap o + (if color rings o = .green then 0
          else rings.held (rings.doomed ringCollector) o) = count rings o :=
  coherent_rings.freed_iff_doomed fresh_rings (by decide) (by decide) (by decide) (by decide)
    (by decide) (fun _ _ => rfl) (by decide) (by decide)

end Reclaim.Trial
