import Reclaim.Proofs.Trial.WhitePhase

/-!
One round of trial deletion. It adds what its scan left white to what is gone, and leaves everything
else with the counts of the references that other objects hold.
-/
namespace Reclaim.Trial

open CountedHeap Queue

variable {σ : Type} [CountedHeap σ] {e : Scope σ} {gone : Finset Nat} {i j : Increment σ}

-- Some reading of the clock shows that a marking phase that starts at another is to end.
def Scope.Late (e : Scope σ) (deadline : Nat) : Prop :=
  ∃ reads visits reads' visits', e.time reads visits +
    markGreyShare (deadline - e.time reads visits) ≤ e.time reads' visits'

-- Candidates that a round may try.
def Collector.ready (c : Collector) : List Nat := c.mature.contents ++ c.filtered.contents

namespace Settled

theorem mem_ready (hi : Settled e gone i) {x : Nat} :
    x ∈ i.collector.queued ↔ x ∈ i.collector.unfiltered.contents ∨ x ∈ i.collector.ready := by
  simp only [Collector.queued, Collector.ready, hi.cycleA_eq, hi.cycleB_eq, List.append_nil,
    List.mem_append, or_assoc]

theorem mem_present_of_ready (hi : Settled e gone i) {x : Nat} (hx : x ∈ i.collector.ready) :
    x ∈ e.present := (hi.mem_present (hi.mem_ready.mpr (Or.inr hx))).1

-- What is live and not gone is still there and has a count.
theorem live_present (hi : Settled e gone i) {x : Nat} (hx : x ∈ e.census.live) (hg : x ∉ gone) :
    x ∈ e.present ∧ 0 < count i.timed.heap x := by
  have hr := hi.ledger.mem_of_live hx hg
  have heq := hi.count_eq hr
  have hlt := hi.complete x hx hg
  exact ⟨hr, by omega⟩

theorem isPurple_live (hi : Settled e gone i) {x : Nat} (hx : x ∈ e.census.live) (hg : x ∉ gone)
    (hp : color i.timed.heap x = .purple) : isPurple i.timed.heap x = true :=
  isPurple_iff.mpr ⟨(hi.live_present hx hg).2, hp⟩

-- A filter pass over new candidates, after which other candidates are new.
theorem filterNew (hi : Settled e gone i) (he : e.Sound) (limit : Nat) :
    ∃ front i', i.filterNew limit = .ok i' ∧
      Settled { e with unfiltered := i'.collector.unfiltered } gone i' ∧
      (∀ x ∈ e.present, color i'.timed.heap x = color i.timed.heap x ∧
        count i'.timed.heap x = count i.timed.heap x) ∧
      i.collector.unfiltered.contents = front ++ i'.collector.unfiltered.contents ∧
      i'.collector.mature.contents =
        i.collector.mature.contents ++ front.filter (isPurple i.timed.heap) ∧
      i'.collector.filtered = i.collector.filtered ∧
      (i'.collector.unfiltered.contents = [] ∨ (∃ reads visits, limit ≤ e.time reads visits) ∨
        e.settings.filterLimit ≤ front.length) := by
  have hperm : ∀ source target : Solo Nat,
      ({ i.collector with unfiltered := source, mature := target } : Collector).queued.Perm
        (source.contents ++ target.contents ++ (i.collector.filtered.contents ++
          i.collector.cycleA.contents ++ i.collector.cycleB.contents)) := by
    intro source target
    rw [List.perm_iff_count]
    intro x
    simp only [Collector.queued, List.count_append]
    omega
  obtain ⟨front, s, hrun, hs, -, hlast⟩ := filterQueue_ok i.collector.settings
    (hi.settings_eq ▸ he.filterBound) limit hi.garbage hi.complete hi.plain
    (hi.roster.congr hi.ledger (fun _ _ => rfl) (hperm _ _).symm) hi.valid.unfiltered
    hi.valid.mature
  have htint := tinted_congr fun x hx => (hs.same x hx).1
  have hpass : i.filterNew limit = .ok ({ i with
      collector := { i.collector with unfiltered := s.source, mature := s.target }
      timed := s.timed
      dead := s.dead }.countFiltered s.taken) := by
    simp only [Increment.filterNew, hrun, ok_bind]
  rw [hi.settings_eq, hi.time_eq] at hlast
  exact ⟨front, _, hpass, { hi with
    roster := hs.roster.congr hs.roster.ledger (fun _ _ => rfl) (hperm _ _)
    valid := { hi.valid with unfiltered := hs.source_valid, mature := hs.target_valid }
    time_eq := hs.time_eq.trans hi.time_eq
    unfiltered_eq := rfl
    plain := htint.trans hi.plain }, hs.same, hs.source_eq, hs.target_eq, rfl, hlast⟩

-- A filter pass over mature candidates.
theorem filterMature (hi : Settled e gone i) (he : e.Sound) (limit : Nat) :
    ∃ front i', i.filterMature limit = .ok i' ∧ Settled e gone i' ∧
      (∀ x ∈ e.present, color i'.timed.heap x = color i.timed.heap x ∧
        count i'.timed.heap x = count i.timed.heap x) ∧
      i.collector.mature.contents = front ++ i'.collector.mature.contents ∧
      i'.collector.filtered.contents =
        i.collector.filtered.contents ++ front.filter (isPurple i.timed.heap) ∧
      (i.collector.mature.contents ≠ [] → front ≠ []) := by
  have hperm : ∀ source target : Solo Nat,
      ({ i.collector with mature := source, filtered := target } : Collector).queued.Perm
        (source.contents ++ target.contents ++ (i.collector.unfiltered.contents ++
          i.collector.cycleA.contents ++ i.collector.cycleB.contents)) := by
    intro source target
    rw [List.perm_iff_count]
    intro x
    simp only [Collector.queued, List.count_append]
    omega
  obtain ⟨front, s, hrun, hs, hmore, -⟩ := filterQueue_ok i.collector.settings
    (hi.settings_eq ▸ he.filterBound) limit hi.garbage hi.complete hi.plain
    (hi.roster.congr hi.ledger (fun _ _ => rfl) (hperm _ _).symm) hi.valid.mature
    hi.valid.filtered
  have htint := tinted_congr fun x hx => (hs.same x hx).1
  have hpass : i.filterMature limit = .ok ({ i with
      timed := s.timed
      dead := s.dead
      collector := { i.collector with mature := s.source, filtered := s.target } }.countFiltered
        s.taken) := by
    simp only [Increment.filterMature, hrun, ok_bind]
  refine ⟨front, _, hpass, { hi with
    roster := hs.roster.congr hs.roster.ledger (fun _ _ => rfl) (hperm _ _)
    valid := { hi.valid with mature := hs.source_valid, filtered := hs.target_valid }
    time_eq := hs.time_eq.trans hi.time_eq
    plain := htint.trans hi.plain }, hs.same, hs.source_eq, hs.target_eq, ?_⟩
  · rintro hne rfl
    have hlt := hmore hne
    have hlen := congrArg List.length hs.source_eq
    rw [List.nil_append] at hlen
    omega

-- Before the first candidate is tried.
theorem greying (hi : Settled e gone i) : Greying e gone i.timed.heap i := by
  have hnone : ∀ x, x ∉ tinted i.timed.heap e.present := by simp [hi.plain]
  exact {
    toRunning := hi.toRunning
    grey := fun x hx => absurd hx (hnone x)
    rooted := fun x hx => absurd hx (hnone x)
    roots := by simp [hi.cycleA_eq]
    ordered := by simp [hi.cycleA_eq]
    guarded := fun x =>
      guarded_of_closed hi.ledger hi.complete fun g hg => absurd hg (hnone g)
    cycleB_eq := hi.cycleB_eq
    closed := fun x hx => absurd hx (hnone x)
    kept := by simp [hi.cycleA_eq]
    same := fun _ _ _ => rfl }

end Settled

-- After the last root what was white is gone, and nothing else is.
theorem Collected.settled {g : Increment σ} {h : σ} (hi : Collected e gone j i)
    (hj : Scanned e gone h g j) (hA : j.collector.cycleA.contents = [])
    (hB : i.collector.cycleB.contents = []) (hgar : e.census.Garbage gone) :
    Settled e (gone ∪ tinted j.timed.heap e.present) i := by
  have hnone : tinted i.timed.heap e.present = ∅ := by
    rw [Finset.eq_empty_iff_forall_notMem]
    intro x hx
    obtain ⟨b, hb, -⟩ := hi.linked x hx
    rw [hB] at hb
    exact List.not_mem_nil hb
  have hrun := hi.toRunning
  rw [hnone, Finset.sdiff_empty] at hrun
  refine ⟨hrun, ?_, ?_, hnone, hi.cycleA_eq, hB⟩
  · intro z hz
    rcases Finset.mem_union.mp hz with hz | hz
    · exact (hgar z hz).trans (e.census.held_mono Finset.subset_union_left z)
    · have hwhite := (Collected.start hj hA).white z hz
      have hzero := (hj.white z (mem_painted.mpr ⟨Ledger.tinted_subset hz, hwhite⟩)).1
      have heq := hj.ledger.count_eq z (Ledger.tinted_subset hz)
      rw [e.census.held_union hj.ledger.disjoint.symm]
      omega
  · intro x hx hn
    rw [Finset.mem_union, not_or] at hn
    have hpos := hj.guarded x hx hn.1 hn.2
    have hxr := hj.ledger.mem_of_live hx hn.1
    have heq := hrun.ledger.count_eq x hxr
    rw [hnone, Census.held_empty, hi.counts x hxr] at heq
    omega

-- What a round comes to that turned `grey` grey, found `white` to be garbage and abandoned no marking.
structure Round (e : Scope σ) (gone grey white : Finset Nat) (deadline : Nat)
    (i i' : Increment σ) : Prop where
  subset : e.law.left e.census.objects i'.freed ⊆ e.present
  closed : ∀ g ∈ grey, ∀ c ∈ e.census.traced g, c ∈ grey
  excess : ∀ x ∈ grey, x ∉ white → ∃ y ∈ grey, e.census.Reach y x ∧
    e.census.held grey y + e.census.held gone y < e.census.count y
  black : ∀ x ∈ e.law.left e.census.objects i'.freed, x ∈ grey → x ∉ white →
    color i'.timed.heap x = .black
  same : ∀ x ∈ e.law.left e.census.objects i'.freed, x ∉ grey →
    color i'.timed.heap x = color i.timed.heap x
  tried : ∀ o ∈ i.collector.ready, isPurple i.timed.heap o = true →
    o ∈ grey ∨ o ∈ i'.collector.ready
  ended : i'.collector.filtered.contents = [] ∨ e.Late deadline

-- The state in which the marking phase of a round finds its candidates.
structure Refilled (e : Scope σ) (gone : Finset Nat) (i i' : Increment σ) : Prop where
  settled : Settled e gone i'
  same : ∀ x ∈ e.present, color i'.timed.heap x = color i.timed.heap x ∧
    count i'.timed.heap x = count i.timed.heap x
  tried : ∀ o ∈ i.collector.ready, isPurple i.timed.heap o = true → o ∈ i'.collector.ready
  length_le : i'.collector.ready.length ≤ i.collector.ready.length
  length_lt : i'.collector.filtered.contents = [] → i.collector.mature.contents ≠ [] →
    i'.collector.ready.length < i.collector.ready.length

theorem Refilled.isPurple_eq {i' : Increment σ} (hr : Refilled e gone i i') {x : Nat}
    (hx : x ∈ e.present) : isPurple i'.timed.heap x = isPurple i.timed.heap x :=
  isPurple_congr (hr.same x hx).1 (hr.same x hx).2

-- The candidates of the next marking phase.
theorem Settled.refill (hi : Settled e gone i) (he : e.Sound) :
    ∃ i', (if i.collector.filtered.isEmpty then i.now.2.filterMature i.now.1 else .ok i) =
        .ok i' ∧ Refilled e gone i i' := by
  by_cases hf : i.collector.filtered.contents = []
  · have hread : Settled e gone i.now.2 := { hi with }
    obtain ⟨front, i', hrun, hi', hsame, hmature, hfiltered, hmore⟩ :=
      hread.filterMature he i.now.1
    change i.collector.mature.contents = _ at hmature
    change _ = i.collector.filtered.contents ++ front.filter (isPurple i.timed.heap) at hfiltered
    change i.collector.mature.contents ≠ [] → _ at hmore
    rw [hf, List.nil_append] at hfiltered
    have hlen : (front.filter (isPurple i.timed.heap)).length ≤ front.length :=
      List.length_filter_le _ _
    refine ⟨i', ?_, hi', hsame, ?_, ?_, ?_⟩
    · rw [if_pos (hi.valid.filtered.isEmpty_iff.mpr hf)]
      exact hrun
    · intro o ho hp
      simp only [Collector.ready, hmature, hf, hfiltered, List.append_nil, List.mem_append,
        List.mem_filter] at ho ⊢
      tauto
    · simp only [Collector.ready, hmature, hf, hfiltered, List.append_nil, List.length_append]
      omega
    · intro hempty hne
      have hpos := List.length_pos_iff.mpr (hmore hne)
      simp only [Collector.ready, hempty, hmature, hf, List.append_nil, List.length_append]
      omega
  · refine ⟨i, ?_, hi, fun _ _ => ⟨rfl, rfl⟩, fun _ ho _ => ho, le_refl _, fun hx => absurd hx hf⟩
    rw [if_neg fun hx => hf (hi.valid.filtered.isEmpty_iff.mp hx)]

-- The phases behind the marking: what they find to be garbage is what `white` says.
structure Cleared (e : Scope σ) (gone white : Finset Nat) (h : σ) (j i : Increment σ) : Prop where
  settled : Settled { e with freed := i.freed } (gone ∪ white) i
  dead_eq : i.dead = []
  mature_eq : i.collector.mature = j.collector.mature
  filtered_eq : i.collector.filtered = j.collector.filtered
  subset : e.law.left e.census.objects i.freed ⊆ e.present
  less : white ⊆ tinted j.timed.heap e.present
  excess : ∀ x ∈ tinted j.timed.heap e.present, x ∉ white →
    ∃ y ∈ tinted j.timed.heap e.present, e.census.Reach y x ∧
      e.census.held (tinted j.timed.heap e.present) y + e.census.held gone y < e.census.count y
  black : ∀ x ∈ e.law.left e.census.objects i.freed, x ∈ tinted j.timed.heap e.present →
    x ∉ white → color i.timed.heap x = .black
  same : ∀ x ∈ e.law.left e.census.objects i.freed, x ∉ tinted j.timed.heap e.present →
    color i.timed.heap x = color j.timed.heap x

theorem Greyed.clear {h : σ} (hj : Greyed e gone h j) (he : e.Sound)
    (hgar : e.census.Garbage gone) :
    ∃ i4 i5 i white,
      { j with stage := .scan }.scanPhase (j.collector.cycleA.length + 1) = .ok i4 ∧
      { i4 with stage := .collect }.collectPhase (i4.collector.cycleB.length + 1) = .ok i5 ∧
      Settled e (gone ∪ white) { i5 with stage := .free } ∧
      { i5 with stage := .free }.processFree = .ok i ∧ Cleared e gone white h j i := by
  have hj0 : Greyed e gone h { j with stage := .scan } := { hj with }
  obtain ⟨i4, hscan, hi4, hA4⟩ := (Scanned.start hj0).scanPhase he.consistent hgar
    (j.collector.cycleA.length + 1) (Solo.length_contents_lt _)
  have hi4' : Scanned e gone h { j with stage := .scan } { i4 with stage := .collect } :=
    { hi4 with }
  have hchild : ∀ y ∈ tinted i4.timed.heap e.present, ∀ c ∈ e.census.references y,
      e.census.isCounted c = true → c ∈ e.present := fun y hy c hc hcount =>
    hi4.ledger.child_mem he.consistent hgar (hi4.ledger.tinted_live hy)
      (Finset.disjoint_left.mp hi4.ledger.disjoint hy) hc hcount
  obtain ⟨i5, hcollect, hi5, hB5⟩ := Collected.collectPhase
    (j := { i4 with stage := .collect }) hchild (i4.collector.cycleB.length + 1)
    (Collected.start hi4' hA4) (Solo.length_contents_lt _)
  have hi5' := hi5.settled hi4' hA4 hB5 hgar
  have hi6 : Settled e (gone ∪ tinted i4.timed.heap e.present) { i5 with stage := .free } :=
    { hi5' with }
  obtain ⟨i6, hfree, hi7, hdead, hcollector, -, hsub, hstatus⟩ := hi6.processFree he
  have hlast : ∀ x ∈ e.law.left e.census.objects i6.freed, x ∉ tinted i4.timed.heap e.present →
      color i6.timed.heap x = color i4.timed.heap x := by
    intro x hx hn
    have h6 : color i6.timed.heap x = color i5.timed.heap x := by
      simp only [color, hstatus x hx]
    exact h6.trans (hi5.same x (hsub hx) hn)
  refine ⟨i4, i5, i6, tinted i4.timed.heap e.present, hscan, hcollect, hi6, hfree, hi7, hdead, ?_,
    ?_, hsub, hi4.less, fun x hx hn => (hi4.black x hx hn).2, ?_, ?_⟩
  · rw [hcollector]
    exact hi5.mature_eq.trans hi4.mature_eq
  · rw [hcollector]
    exact hi5.filtered_eq.trans hi4.filtered_eq
  · intro x hx ht hn
    rw [hlast x hx hn]
    exact (hi4.black x ht hn).1
  · intro x hx hn
    rw [hlast x hx fun hm => hn (hi4.less hm)]
    exact hi4.same x (hsub hx) hn

-- What a round comes to that turned `grey` grey and found `white` to be garbage. `lost` is what leads
-- from the root of a marking that it abandoned, if there was one.
structure Swept (e : Scope σ) (gone grey white : Finset Nat) (lost : Set Nat)
    (i i' : Increment σ) : Prop where
  grey_live : grey ⊆ e.census.live
  closed : ∀ g ∈ grey, ∀ c ∈ e.census.traced g, c ∈ grey ∨ c ∈ lost
  excess : ∀ x ∈ grey, x ∉ white → ∃ y ∈ grey, e.census.Reach y x ∧
    e.census.held grey y + e.census.held gone y < e.census.count y
  same : ∀ x ∈ e.law.left e.census.objects i'.freed, x ∉ grey → x ∉ lost →
    color i'.timed.heap x = color i.timed.heap x
  tried : ∀ o ∈ i.collector.ready, isPurple i.timed.heap o = true →
    o ∈ grey ∨ o ∈ lost ∨ o ∈ i'.collector.ready
  rescued : lost = ∅ ∨ ∃ o ∈ e.census.live, o ∉ gone ∪ white ∧ lost = { x | e.census.Reach o x } ∧
    color i'.timed.heap o = .purple ∧ o ∈ i'.collector.ready

theorem Round.swept {grey white : Finset Nat} {deadline : Nat} {i' : Increment σ}
    (hr : Round e gone grey white deadline i i') (hgrey : grey ⊆ e.census.live) :
    Swept e gone grey white ∅ i i' where
  grey_live := hgrey
  closed g hg c hc := Or.inl (hr.closed g hg c hc)
  excess := hr.excess
  same x hx hn _ := hr.same x hx hn
  tried o ho hp := (hr.tried o ho hp).imp_right Or.inr
  rescued := Or.inl rfl

section Ways

variable {i1 i3 i4 : Increment σ} {white : Finset Nat} (hi : Settled e gone i)
  (hf : Refilled e gone i i1) (hc : Cleared e gone white i1.timed.heap i3 i4)
include hi hf hc

-- A round whose marking phase started in `i1` and was not abandoned.
theorem Round.of_marked {start deadline : Nat} (hstart : ∃ reads visits, e.time reads visits = start)
    (hm : Marked e gone i1.timed.heap (start + markGreyShare (deadline - start)) i1.collector
      i1.timed.heap i3) :
    Round e gone (tinted i3.timed.heap e.present) white deadline i i4 where
  subset := hc.subset
  closed := hm.greying.closed
  excess := hc.excess
  black := hc.black
  same x hx hn := by
    have hxr := hc.subset hx
    rw [hc.same x hx hn, hm.greying.same x hxr hn]
    exact (hf.same x hxr).1
  tried o ho hp := by
    have hp1 := (hf.isPurple_eq (hi.mem_present_of_ready ho)).trans hp
    simp only [Collector.ready, hc.mature_eq, hc.filtered_eq, hm.mature_eq, List.mem_append]
    rcases List.mem_append.mp (hf.tried o ho hp) with ho1 | ho1
    · exact Or.inr (Or.inl ho1)
    · exact (hm.tried o ho1 hp1).imp_right Or.inr
  ended := by
    obtain ⟨reads, visits, rfl⟩ := hstart
    rw [hc.filtered_eq]
    refine hm.ended.imp_right ?_
    rintro ⟨reads', visits', hl⟩
    exact ⟨reads, visits, reads', visits', hl⟩

-- A round that abandoned the marking from `o`.
theorem Swept.of_broken {o : Nat}
    (hb : Broken e gone i1.timed.heap i1.collector i1.timed.heap o i3) :
    Swept e gone (tinted i3.timed.heap e.present) white { x | e.census.Reach o x } i i4 := by
  have ha := hb.abandoned
  have hplain : o ∉ tinted i3.timed.heap e.present := fun hm => by
    have := ha.grey o hm
    rw [ha.purple] at this
    cases this
  have hwhite : o ∉ gone ∪ white := fun hm =>
    (Finset.mem_union.mp hm).elim ha.not_gone fun hw => hplain (hc.less hw)
  have hpresent := hc.settled.ledger.mem_of_live ha.live hwhite
  exact {
    grey_live := ha.ledger.tinted_live
    closed := ha.closed
    excess := hc.excess
    same := fun x hx hn hl => by
      have hxr := hc.subset hx
      rw [hc.same x hx hn, ha.same x hxr hn hl]
      exact (hf.same x hxr).1
    tried := fun x hx hp => by
      have hp1 := (hf.isPurple_eq (hi.mem_present_of_ready hx)).trans hp
      simp only [Collector.ready, hc.mature_eq, hc.filtered_eq, List.mem_append]
      rcases List.mem_append.mp (hf.tried x hx hp) with h1 | h1
      · exact Or.inr (Or.inr (Or.inl (hb.mature_subset h1)))
      · exact (hb.tried x h1 hp1).imp_right fun h2 => h2.imp_right Or.inr
    rescued := by
      refine Or.inr ⟨o, ha.live, hwhite, rfl, (hc.same o hpresent hplain).trans ha.purple, ?_⟩
      simp only [Collector.ready, hc.mature_eq, List.mem_append]
      exact Or.inl hb.waits }

omit hi in
-- A round that tried its first candidate, if its marking phase had any, has fewer candidates left.
theorem Round.ready_lt {limit : Nat} (hm : Marked e gone i1.timed.heap limit i1.collector i1.timed.heap i3)
    (hless : i1.collector.filtered.contents ≠ [] →
      i3.collector.filtered.contents.length < i1.collector.filtered.contents.length)
    (hne : i.collector.mature.contents ≠ []) :
    i4.collector.ready.length < i.collector.ready.length := by
  have hshort := hm.shorter
  have hle := hf.length_le
  have hready : i4.collector.ready.length =
      i1.collector.mature.contents.length + i3.collector.filtered.contents.length := by
    rw [Collector.ready, hc.mature_eq, hc.filtered_eq, hm.mature_eq, List.length_append]
  have hready1 : i1.collector.ready.length =
      i1.collector.mature.contents.length + i1.collector.filtered.contents.length :=
    List.length_append
  by_cases hempty : i1.collector.filtered.contents = []
  · have hlt := hf.length_lt hempty hne
    omega
  · have hlt := hless hempty
    omega

end Ways

-- What a round comes to.
structure Rounded (e : Scope σ) (gone grey white : Finset Nat) (deadline : Nat) (aborted : Bool)
    (i i' : Increment σ) : Prop where
  settled : Settled { e with freed := i'.freed } (gone ∪ white) i'
  dead_eq : i'.dead = []
  less : white ⊆ grey
  rooted : ∀ x ∈ grey, ∃ a ∈ e.waiting, a ∈ e.present ∧ isPurple i.timed.heap a = true ∧
    e.census.Reach a x
  late : aborted = true → e.Late deadline
  swept : ∃ lost, Swept e gone grey white lost i i'
  round : aborted = false → Round e gone grey white deadline i i'
  ready_lt : aborted = false → i.collector.mature.contents ≠ [] →
    i'.collector.ready.length < i.collector.ready.length

theorem Increment.collectSome_of_tryRoots {deadline : Nat} {aborted : Bool} {i' : Increment σ}
    (htry : i.tryRoots deadline = .ok (aborted, j)) (hfree : j.processFree = .ok i') :
    i.collectSome deadline = .ok (aborted, i') :=
  bind_eq_ok.mpr ⟨(aborted, j), htry, bind_eq_ok.mpr ⟨i', hfree, rfl⟩⟩

-- One round of trial deletion.
theorem Settled.collectSome (hi : Settled e gone i) (he : e.Sound) (deadline : Nat) :
    ∃ aborted j i' grey white, i.tryRoots deadline = .ok (aborted, j) ∧ Settled e (gone ∪ white) j ∧
      j.processFree = .ok i' ∧ Rounded e gone grey white deadline aborted i i' := by
  have hi0 : Settled e gone { i with stage := .matureFilter } := { hi with }
  obtain ⟨i1, hrefill, hf⟩ := hi0.refill he
  have hf : Refilled e gone i i1 := { hf with }
  have hi2 : Settled e gone { i1 with stage := .markGrey, visits := 0 }.now.2 := { hf.settled with }
  have hstart : ∃ reads visits, e.time reads visits = i1.timed.clock.present :=
    ⟨_, _, by rw [Clock.present, hf.settled.time_eq]⟩
  obtain ⟨aborted, i3, hmark, hi3, hlate, hdone, hless⟩ := hi2.greying.markGreyPhase he hi2.ledger
    hi2.garbage hi2.complete
    (i1.timed.clock.present + markGreyShare (deadline - i1.timed.clock.present))
    (i1.collector.filtered.length + 1) (Solo.length_contents_lt _)
  obtain ⟨i4, i5, i6, white, hscan, hcollect, hready, hfree, hclear⟩ := hi3.clear he hi.garbage
  have hround (ha : aborted = false) := Round.of_marked hi hf hclear hstart (hdone ha)
  refine ⟨aborted, { i5 with stage := .free }, i6, tinted i3.timed.heap e.present, white, ?run, hready,
    hfree, hclear.settled, hclear.dead_eq, hclear.less, ?rooted, fun ha => ?late, ?swept, hround,
    fun ha => Round.ready_lt hf hclear (hdone ha) (hless ha (Nat.pos_of_ne_zero he.bound))⟩
  case run =>
    have hbranch : ∀ f : Increment σ → Except Fault (Bool × Increment σ),
        (if i.collector.filtered.isEmpty then
          (Increment.filterMature { i with stage := .matureFilter }.now.1
            { i with stage := .matureFilter }.now.2) >>= f
        else (.ok { i with stage := .matureFilter }) >>= f) = f i1 := by
      intro f
      rw [← apply_ite (· >>= f)]
      exact congrArg (· >>= f) hrefill
    refine (hbranch _).trans ?_
    refine bind_eq_ok.mpr ⟨(aborted, i3), hmark, ?_⟩
    refine bind_eq_ok.mpr ⟨i4, hscan, ?_⟩
    exact bind_eq_ok.mpr ⟨i5, hcollect, rfl⟩
  case rooted =>
    intro x hx
    obtain ⟨b, hb, hbx⟩ := hi3.rooted x hx
    obtain ⟨hblive, hbgone, hbcolor⟩ := hi3.roots b hb
    have hbr : b ∈ e.present := hi3.ledger.mem_of_live hblive hbgone
    exact ⟨b, hi3.roster.awaited b (by simp [Collector.queued, hb]), hbr,
      hi.isPurple_live hblive hbgone ((hf.same b hbr).1 ▸ hbcolor), hbx.reach⟩
  case late =>
    obtain ⟨⟨reads, visits, hl⟩, -⟩ := hlate ha
    obtain ⟨reads', visits', hstart⟩ := hstart
    rw [← hstart] at hl
    exact ⟨reads', visits', reads, visits, hl.le⟩
  case swept =>
    cases aborted with
    | true =>
      obtain ⟨-, o, hb⟩ := hlate rfl
      exact ⟨_, Swept.of_broken hi hf hclear hb⟩
    | false => exact ⟨_, (hround rfl).swept hi3.ledger.tinted_live⟩

end Reclaim.Trial
