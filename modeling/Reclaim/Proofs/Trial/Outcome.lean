import Reclaim.Proofs.Trial.Watching

/-!
A whole increment. It never fails, whatever the clock shows: it ends between two rounds, with nothing
left to be freed and all candidates in the queues that are kept.
-/
namespace Reclaim.Trial

open CountedHeap Queue

variable {σ : Type} [CountedHeap σ] {e : Scope σ} {gone : Finset Nat} {i : Increment σ}

namespace Settled

-- Rounds are made until the candidates or the time run out. What every round keeps up holds at the end.
theorem detect (he : e.Sound) (deadline : Nat) (P : Finset Nat → List Nat → Collector → σ → Prop)
    (hround : ∀ freed gone i i' aborted grey white, Settled { e with freed } gone i →
      P gone freed i.collector i.timed.heap →
      Rounded { e with freed } gone grey white deadline aborted i i' →
        P (gone ∪ white) i'.freed i'.collector i'.timed.heap)
    (steps : Nat) (hi : Settled e gone i) (hdead : i.dead = []) (hp : P gone e.freed i.collector i.timed.heap)
    (hsteps : i.collector.ready.length < steps) :
    ∃ aborted i' gone', i.detect deadline steps = .ok (aborted, i') ∧
      Settled { e with freed := i'.freed } gone' i' ∧ i'.dead = [] ∧
      P gone' i'.freed i'.collector i'.timed.heap ∧ (aborted = true → e.Late deadline) ∧
      (aborted = false → i'.collector.mature.contents = [] ∨
        ∃ reads visits, deadline - e.time reads visits ≤ cycleShare e.settings.timeCap) := by
  induction steps generalizing e gone i with
  | zero => omega
  | succ steps ih =>
    have hself : Settled { e with freed := i.freed } gone i := by
      rw [hi.freed_eq]
      exact hi
    by_cases hm : i.collector.mature.contents = []
    · refine ⟨false, i, gone, ?_, hself, hdead, ?_, by simp, fun _ => Or.inl hm⟩
      · rw [Increment.detect, if_pos (hi.valid.mature.isEmpty_iff.mpr hm)]
      · rw [hi.freed_eq]
        exact hp
    · have hne : ¬i.collector.mature.isEmpty = true := fun hx =>
        hm (hi.valid.mature.isEmpty_iff.mp hx)
      have hread : Settled e gone i.now.2 := { hi with }
      by_cases htime : cycleShare e.settings.timeCap < deadline - i.now.1
      · obtain ⟨aborted, j, i1, grey, white, htry, -, hfree, hr⟩ := hread.collectSome he deadline
        have hrun := Increment.collectSome_of_tryRoots htry hfree
        have hp1 := hround e.freed gone i.now.2 i1 aborted grey white hread hp hr
        have htime' : cycleShare i.now.2.collector.settings.timeCap < deadline - i.now.1 := by
          rw [hread.settings_eq]
          exact htime
        cases aborted with
        | true =>
          refine ⟨true, i1, gone ∪ white, ?_, hr.settled, hr.dead_eq, hp1, hr.late, by simp⟩
          rw [Increment.detect, if_neg hne]
          refine (if_pos htime').trans ?_
          exact bind_eq_ok.mpr ⟨(true, i1), hrun, rfl⟩
        | false =>
          have hlt : i1.collector.ready.length < i.collector.ready.length := hr.ready_lt rfl hm
          obtain ⟨aborted, i', gone', hrest, hi', hdead', hp', hlate', hdone'⟩ :=
            ih (e := { e with freed := i1.freed })
              { he with }
              (fun freed => hround freed) hr.settled hr.dead_eq hp1 (by omega)
          refine ⟨aborted, i', gone', ?_, hi', hdead', hp', hlate', hdone'⟩
          rw [Increment.detect, if_neg hne]
          refine (if_pos htime').trans ?_
          exact bind_eq_ok.mpr ⟨(false, i1), hrun, hrest⟩
      · refine ⟨false, i.now.2, gone, ?_, ?_, hdead, ?_, by simp, fun _ => Or.inr ?_⟩
        · have htime' : ¬cycleShare i.now.2.collector.settings.timeCap < deadline - i.now.1 := by
            rw [hread.settings_eq]
            exact htime
          rw [Increment.detect, if_neg hne]
          exact if_neg htime'
        · exact { hself with }
        · rw [← hi.freed_eq] at hp
          exact hp
        · refine ⟨i.timed.clock.reads, i.timed.clock.visits, ?_⟩
          rw [← hi.time_eq]
          exact Nat.le_of_not_lt htime

end Settled

-- What an increment does once it has filtered the new candidates.
theorem Increment.act_of_filtered {i1 i2 : Increment σ} {available count deadline : Nat}
    (hact : shouldAct available i.collector.settings.filterPages count = true)
    (htime : ¬deadline - i.now.1 ≤ filterShare i.collector.settings.timeCap)
    (hfilter : { i.now.2 with stage := .filter }.filterNew
      (i.now.1 + filterShare (deadline - i.now.1)) = .ok i1)
    (hfree : i1.processFree = .ok i2) :
    i.act available count deadline =
      if !shouldAct available i.collector.settings.detectionPages count then .ok (false, i2)
      else (do
        let (aborted, i) ← Increment.detect deadline
          (i2.collector.mature.length + i2.collector.filtered.length + 1)
          { i2 with stats := { i2.stats with detected := true } }
        .ok (aborted, i.onCollector (Increment.putBack (i.collector.filtered.length + 1)))) := by
  simp only [Increment.act, hact, Bool.not_true, Bool.false_eq_true, if_false]
  refine (if_neg htime).trans ?_
  refine (congrArg (· >>= _) hfilter).trans ?_
  simp only [ok_bind, hfree]

-- Filtered candidates are put back, whatever queue they came from.
theorem putBack_ok (steps : Nat) (c : Collector) (hc : c.Valid)
    (hsteps : c.filtered.contents.length < steps) :
    (Increment.putBack steps c).queued.Perm c.queued ∧ (Increment.putBack steps c).Valid ∧
      (Increment.putBack steps c).filtered.contents = [] ∧
      (Increment.putBack steps c).cycleA = c.cycleA ∧ (Increment.putBack steps c).cycleB = c.cycleB ∧
      (Increment.putBack steps c).settings = c.settings ∧
      (Increment.putBack steps c).unfiltered = c.unfiltered := by
  induction steps generalizing c with
  | zero => omega
  | succ steps ih =>
    cases hs : c.filtered.contents with
    | nil =>
      obtain ⟨q, hpop, hq, hempty⟩ := hc.filtered.pop_nil hs
      have hrun : Increment.putBack (steps + 1) c = { c with filtered := q } := by
        rw [Increment.putBack, hpop]
      rw [hrun]
      refine ⟨?_, { hc with filtered := hq }, hempty, rfl, rfl, rfl, rfl⟩
      simp only [Collector.queued, hempty, hs]
      exact .refl _
    | cons o rest =>
      obtain ⟨q, hpop, hq, hrest⟩ := hc.filtered.pop_cons hs
      have hrun : Increment.putBack (steps + 1) c =
          Increment.putBack steps { c with filtered := q, mature := c.mature.push o } := by
        rw [Increment.putBack, hpop]
      obtain ⟨hperm, hvalid, hf, hA, hB, hset, hu⟩ :=
        ih { c with filtered := q, mature := c.mature.push o }
          { hc with mature := hc.mature.push o, filtered := hq } (by
            rw [hs, List.length_cons] at hsteps
            change q.contents.length < steps
            rw [hrest]
            omega)
      rw [hrun]
      refine ⟨hperm.trans ?_, hvalid, hf, hA, hB, hset, hu⟩
      rw [List.perm_iff_count]
      intro x
      simp only [Collector.queued, Solo.contents_push, hs, hrest, List.count_append,
        List.count_cons]
      omega

namespace Settled

theorem self (hi : Settled e gone i) :
    Settled { e with unfiltered := i.collector.unfiltered, freed := i.freed } gone i := by
  rw [hi.freed_eq, hi.unfiltered_eq]
  exact hi

theorem putBack (hi : Settled e gone i) :
    Settled e gone (i.onCollector (Increment.putBack (i.collector.filtered.length + 1))) ∧
      (Increment.putBack (i.collector.filtered.length + 1) i.collector).filtered.contents = [] ∧
      (Increment.putBack (i.collector.filtered.length + 1) i.collector).queued.Perm
        i.collector.queued := by
  obtain ⟨hperm, hvalid, hf, hA, hB, hset, hu⟩ :=
    putBack_ok (i.collector.filtered.length + 1) i.collector hi.valid
      (Solo.length_contents_lt _)
  refine ⟨⟨⟨hi.roster.congr hi.ledger (fun _ _ => rfl) hperm, hvalid, hset.trans hi.settings_eq,
    hi.time_eq, hu.trans hi.unfiltered_eq, hi.freed_eq⟩, hi.garbage, hi.complete, hi.plain, ?_, ?_⟩,
    hf, hperm⟩
  · change (Increment.putBack _ i.collector).cycleA.contents = []
    rw [hA]
    exact hi.cycleA_eq
  · change (Increment.putBack _ i.collector).cycleB.contents = []
    rw [hB]
    exact hi.cycleB_eq

-- New candidates that are filtered stay candidates as long as they are garbage.
theorem filterNew_watched (hi : Settled e gone i) {i1 : Increment σ} {front : List Nat}
    (hsame : ∀ x ∈ e.present, color i1.timed.heap x = color i.timed.heap x ∧
      count i1.timed.heap x = count i.timed.heap x)
    (hsource : i.collector.unfiltered.contents = front ++ i1.collector.unfiltered.contents)
    (htarget : i1.collector.mature.contents =
      i.collector.mature.contents ++ front.filter (isPurple i.timed.heap))
    (hfiltered : i1.collector.filtered = i.collector.filtered)
    (hw : e.census.Watched gone i.collector i.timed.heap) :
    e.census.Watched gone i1.collector i1.timed.heap := by
  refine hw.congr (fun x hx hg => (hsame x (hi.live_present hx hg).1).1) fun x hx hg hp hq => ?_
  have hp := hi.isPurple_live hx hg hp
  simp only [Collector.queued, hi.cycleA_eq, hi.cycleB_eq, hsource, List.append_nil,
    List.mem_append] at hq
  simp only [Collector.queued, htarget, hfiltered, List.mem_append, List.mem_filter]
  tauto

-- An increment ends between two rounds.
theorem act (hi : Settled e gone i) (he : e.Sound) (hdead : i.dead = [])
    (hfiltered : i.collector.filtered.contents = []) (available count deadline : Nat) :
    ∃ aborted i' gone', i.act available count deadline = .ok (aborted, i') ∧
      Settled { e with unfiltered := i'.collector.unfiltered, freed := i'.freed } gone' i' ∧
      i'.dead = [] ∧ i'.collector.filtered.contents = [] ∧
      (e.census.Watched gone i.collector i.timed.heap →
        e.census.Watched gone' i'.collector i'.timed.heap) := by
  by_cases hact : shouldAct available i.collector.settings.filterPages count = true
  · have hread : Settled e gone { i.now.2 with stage := .filter } := { hi with }
    by_cases htime : deadline - i.now.1 ≤ filterShare i.collector.settings.timeCap
    · refine ⟨false, i.now.2, gone, ?_, { hi.self with }, hdead, hfiltered, id⟩
      simp only [Increment.act, hact, Bool.not_true, Bool.false_eq_true, if_false]
      exact if_pos htime
    · obtain ⟨front, i1, hfilter, hi1, hsame1, hsource1, htarget1, hf1, -⟩ :=
        hread.filterNew he (i.now.1 + filterShare (deadline - i.now.1))
      have he1 : Scope.Sound { e with unfiltered := i1.collector.unfiltered } :=
        { he with }
      obtain ⟨i2, hfree, hi2, hdead2, hcollector2, -, hsub2, hstatus2⟩ := hi1.processFree he1
      have hi2' := hi2.self
      have he2 : Scope.Sound { e with unfiltered := i2.collector.unfiltered, freed := i2.freed } :=
        { he with }
      have hw2 (hw : e.census.Watched gone i.collector i.timed.heap) :
          e.census.Watched gone i2.collector i2.timed.heap := by
        refine (hread.filterNew_watched hsame1 hsource1 htarget1 hf1 hw).congr (fun x hx hg => ?_)
          fun x _ _ _ hq => hcollector2 ▸ hq
        rw [color, hstatus2 x (hi2.live_present hx hg).1, color]
      by_cases hdetect : shouldAct available i.collector.settings.detectionPages count = true
      · have hi3 : Settled { e with unfiltered := i2.collector.unfiltered, freed := i2.freed } gone
            { i2 with stats := { i2.stats with detected := true } } := { hi2' with }
        obtain ⟨aborted, i4, gone', hrun, hi4, hdead4, hw4, -⟩ := hi3.detect he2 deadline
          (fun gone' _ c h => e.census.Watched gone i.collector i.timed.heap →
            e.census.Watched gone' c h)
          (fun _ _ _ _ _ _ _ hj hw hr h => hr.watched hj he.consistent (hw h))
          (i2.collector.mature.length + i2.collector.filtered.length + 1) hdead2 hw2 (by
            simp only [Collector.ready, List.length_append, Solo.length_eq]
            exact Nat.lt_succ_self _)
        obtain ⟨hi5, hf5, hperm5⟩ := hi4.putBack
        refine ⟨aborted, i4.onCollector (Increment.putBack (i4.collector.filtered.length + 1)), gone',
          ?_, hi5.self, hdead4, hf5, fun hw => (hw4 hw).congr (fun _ _ _ => rfl)
            fun x _ _ _ hq => hperm5.mem_iff.mpr hq⟩
        rw [Increment.act_of_filtered hact htime hfilter hfree]
        simp only [hdetect, Bool.not_true, Bool.false_eq_true, if_false, hrun, ok_bind]
      · refine ⟨false, i2, gone, ?_, hi2', hdead2, ?_, hw2⟩
        · rw [Increment.act_of_filtered hact htime hfilter hfree]
          simp only [hdetect, Bool.not_false, if_true]
        · rw [hcollector2, hf1]
          exact hfiltered
  · refine ⟨false, i, gone, ?_, hi.self, hdead, hfiltered, id⟩
    simp only [Increment.act, hact, Bool.not_false, if_true]

end Settled

-- A heap and a collector as an increment may find them. `exact` adds that each candidate is queued
-- once and that the buffered bits show it.
structure Ready (L : Lawful σ) (k : Census) (exact : Prop) (c : Collector) (h : σ) : Prop where
  shows : L.Shows h k k.objects
  word : ∀ x ∈ k.objects, status h x < Word.bound
  count_eq : ∀ x ∈ k.objects, count h x = k.count x
  green_iff : ∀ x ∈ k.objects, color h x = .green ↔ k.isGreen x = true
  plain : ∀ x ∈ k.objects, color h x ≠ .grey ∧ color h x ≠ .white
  valid : c.Valid
  candidates : ∀ x ∈ c.queued, x ∈ k.objects ∧ k.isGreen x = false
  filtered_eq : c.filtered.contents = []
  cycleA_eq : c.cycleA.contents = []
  cycleB_eq : c.cycleB.contents = []
  once : exact → c.queued.Nodup
  flagged : exact → ∀ x ∈ k.objects, isBuffered h x = true ↔ x ∈ c.queued

-- The scope of an increment that starts with `c` and `t`.
def Scope.entry (L : Lawful σ) (k : Census) (exact : Prop) (c : Collector) (t : Timed σ) : Scope σ where
  law := L
  census := k
  waiting := c.queued
  exact
  settings := c.settings
  time := t.clock.time
  unfiltered := c.unfiltered
  freed := []

namespace Ready

variable {L : Lawful σ} {k : Census} {exact : Prop} {c : Collector} {t : Timed σ}

theorem settled (hr : Ready L k exact c t.heap) :
    Settled (.entry L k exact c t) ∅ { timed := t, collector := c } := by
  have htint : tinted t.heap k.objects = ∅ := by
    rw [Finset.eq_empty_iff_forall_notMem]
    intro x hx
    obtain ⟨hxo, hc⟩ := mem_tinted.mp hx
    rcases hc with hc | hc
    · exact (hr.plain x hxo).1 hc
    · exact (hr.plain x hxo).2 hc
  have hpresent : (Scope.entry L k exact c t).present = k.objects := L.left_nil _
  have hledger : Ledger L k t.heap k.objects ∅ := {
    shows := hr.shows
    subset := le_refl _
    kept := fun x hx => Or.inl hx
    word := hr.word
    green_iff := hr.green_iff
    gone_live := Finset.empty_subset _
    tinted_live := by simp [htint]
    disjoint := Finset.disjoint_empty_right _
    count_eq := fun x hx => by simp [htint, hr.count_eq x hx] }
  have hroster : Roster L k c.queued exact t.heap ∅ c.queued [] [] [] := {
    ledger := by rwa [L.left_nil]
    listed := fun x hx => by
      rw [L.left_nil]
      exact hr.candidates x (hx.resolve_right List.not_mem_nil)
    awaited := fun x hx => hx
    found := fun x hx => absurd (or_self_iff.mp hx) List.not_mem_nil
    deferred_eq := fun x => by simp
    once := fun he x => List.nodup_iff_count_le_one.mp (hr.once he) x
    flagged := fun he x hx => hr.flagged he x (by rwa [L.left_nil] at hx)
    placed := fun _ x hx => Or.inl (hx.resolve_left (Finset.notMem_empty x)).2 }
  exact {
    roster := hroster
    valid := hr.valid
    settings_eq := rfl
    time_eq := rfl
    unfiltered_eq := rfl
    freed_eq := rfl
    garbage := fun z hz => absurd hz (Finset.notMem_empty z)
    complete := fun x hx _ => by
      rw [Census.held_empty]
      exact (Census.mem_live.mp hx).2.2
    plain := hpresent ▸ htint
    cycleA_eq := hr.cycleA_eq
    cycleB_eq := hr.cycleB_eq }

end Ready

-- What an increment leaves that found `waiting` in the queues and `gone` to be garbage.
structure Finished (L : Lawful σ) (k : Census) (waiting : List Nat) (exact : Prop)
    (settings : Settings) (gone : Finset Nat) (out : Outcome σ) : Prop where
  roster : Roster L k waiting exact out.timed.heap gone out.collector.queued [] out.freed.reverse
    out.deferred.reverse
  valid : out.collector.Valid
  settings_eq : out.collector.settings = settings
  garbage : k.Garbage gone
  complete : k.Complete gone
  plain : tinted out.timed.heap (L.left k.objects out.freed) = ∅
  filtered_eq : out.collector.filtered.contents = []
  cycleA_eq : out.collector.cycleA.contents = []
  cycleB_eq : out.collector.cycleB.contents = []

theorem Finished.of_settled (hi : Settled e gone i) (hdead : i.dead = [])
    (hf : i.collector.filtered.contents = []) (aborted : Bool) :
    Finished e.law e.census e.waiting e.exact e.settings gone (.ofIncrement aborted i) := by
  have hleft : e.law.left e.census.objects i.freed.reverse = e.present := by
    rw [Scope.present, ← hi.freed_eq]
    exact e.law.left_congr _ fun x => by simp
  have hr := hi.roster
  rw [hdead, ← hi.freed_eq] at hr
  refine ⟨?_, { hi.valid with }, hi.settings_eq, hi.garbage, hi.complete, ?_, hf, hi.cycleA_eq, hi.cycleB_eq⟩
  · simp only [Outcome.ofIncrement, List.reverse_reverse]
    exact hr
  · change tinted i.timed.heap (e.law.left e.census.objects i.freed.reverse) = ∅
    rw [hleft]
    exact hi.plain

-- Nothing is left to be done when no candidate is.
theorem Collector.hasCandidates_eq_false {c : Collector} (hc : c.Valid) (h : c.queued = []) :
    c.hasCandidates = false := by
  simp only [Collector.queued, List.append_eq_nil_iff] at h
  simp only [Collector.hasCandidates, hc.unfiltered.isEmpty_iff.mpr h.1.1.1.1,
    hc.mature.isEmpty_iff.mpr h.1.1.1.2, hc.filtered.isEmpty_iff.mpr h.1.1.2, Bool.and_true,
    Bool.not_true]

-- An increment ends, whatever the clock shows, and forgets no garbage.
theorem Collector.runUntil_watched {L : Lawful σ} {k : Census} {exact : Prop} {c : Collector}
    {t : Timed σ} (hr : Ready L k exact c t.heap) (he : (Scope.entry L k exact c t).Sound)
    (available count deadline : Nat) :
    ∃ out gone, c.runUntil available count deadline t = .ok out ∧
      Finished L k c.queued exact c.settings gone out ∧
      (k.Watched ∅ c t.heap → k.Watched gone out.collector out.timed.heap) := by
  obtain ⟨aborted, i, gone, hrun, hi, hdead, hf, hw⟩ :=
    hr.settled.act he rfl hr.filtered_eq available count deadline
  refine ⟨_, gone, ?_, Finished.of_settled hi hdead hf aborted, hw⟩
  simp only [Collector.runUntil, hrun, ok_bind]

theorem Collector.runUntil_ok {L : Lawful σ} {k : Census} {exact : Prop} {c : Collector}
    {t : Timed σ} (hr : Ready L k exact c t.heap) (he : (Scope.entry L k exact c t).Sound)
    (available count deadline : Nat) :
    ∃ out gone, c.runUntil available count deadline t = .ok out ∧
      Finished L k c.queued exact c.settings gone out := by
  obtain ⟨out, gone, hrun, hf, -⟩ := runUntil_watched hr he available count deadline
  exact ⟨out, gone, hrun, hf⟩

end Reclaim.Trial
