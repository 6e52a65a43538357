import Mathlib.Tactic.IntervalCases
import Reclaim.Proofs.Cycles
import Reclaim.Proofs.Trial.Agenda
import Reclaim.Proofs.Trial.Graph

/-!
Markings that run out of time. A root that is given up takes along the objects that its marking turned
grey, and also those of earlier markings that it led to; these were waiting for the scan. What is
still grey was left by an earlier root that is still grey itself, and counts lack what grey objects
hold, just as if the root had never been tried.
-/
namespace Reclaim.Trial

open CountedHeap Counting Queue

variable {σ : Type} [CountedHeap σ]

-- The grey objects among `r`.
def greys (h : σ) (r : Finset Nat) : Finset Nat := r.filter fun x => color h x = .grey

theorem mem_greys {h : σ} {r : Finset Nat} {x : Nat} : x ∈ greys h r ↔ x ∈ r ∧ color h x = .grey := by
  simp [greys]

-- While nothing is white.
theorem tinted_eq_greys {h : σ} {r : Finset Nat} (hw : ∀ x ∈ r, color h x ≠ .white) :
    tinted h r = greys h r := by
  ext x
  rw [mem_tinted, mem_greys]
  exact and_congr_right fun hx => or_iff_left (hw x hx)

-- A round that started in heap `h` is in the middle of marking. All that the roots marked so far lead to
-- is grey, nothing else is, and counts lack what grey objects hold. The census is the one of `h`.
structure Midway (L : Lawful σ) (k : Census) (h : σ) (i : Increment σ) : Prop where
  consistent : k.Consistent
  start : ∀ x ∈ k.objects, k.count x = count h x
  shows : L.Shows i.timed.heap k k.objects
  word : ∀ x ∈ k.objects, status i.timed.heap x < Word.bound
  green_iff : ∀ x ∈ k.objects, color i.timed.heap x = .green ↔ k.isGreen x = true
  not_white : ∀ x ∈ k.objects, color i.timed.heap x ≠ .white
  roots : ∀ a ∈ i.collector.cycleA.contents, a ∈ k.live
  closed : ∀ g ∈ greys i.timed.heap k.objects, ∀ c ∈ k.traced g, c ∈ greys i.timed.heap k.objects
  rooted : ∀ x ∈ greys i.timed.heap k.objects, ∃ a ∈ i.collector.cycleA.contents,
    k.Linked (greys i.timed.heap k.objects) a x
  count_eq : ∀ x ∈ k.objects,
    count i.timed.heap x + k.held (greys i.timed.heap k.objects) x = count h x
  valid : i.collector.filtered.Valid
  candidates : ∀ x ∈ i.collector.filtered.contents,
    x ∈ k.objects ∧ isBuffered i.timed.heap x = true

-- What is left of the marking from `o` when time ran out. It and the blackening that undid it emptied
-- their lists. The root waits behind the mature candidates, and nowhere else.
structure Undone (k : Census) (h : σ) (limit o : Nat) (i i' : Increment σ) : Prop where
  drained : ∃ (m : Marking σ) (t : Timed σ),
    markGrey i.collector.settings.visitGrain limit o
      { timed := i.timed, visits := i.visits, greyed := i.stats.greyed } = .ok m ∧
    m.aborted = true ∧ scanBlack o m.timed = .ok t ∧
    (marking σ i.collector.settings.visitGrain limit).Steps
      ⟨[o], [], { timed := i.timed, visits := i.visits, greyed := i.stats.greyed }⟩ ⟨[], [], m⟩ ∧
    (blackening σ).Steps ⟨[o], [], m.timed⟩ ⟨[], [], t⟩ ∧
    i'.timed = t.onHeap (setColor · o .purple) ∧
    ∀ x ∈ greys m.timed.heap k.objects, x ∉ greys i.timed.heap k.objects →
      x ∉ greys i'.timed.heap k.objects
  less : greys i'.timed.heap k.objects ⊆ greys i.timed.heap k.objects
  rooted : ∀ x ∈ greys i'.timed.heap k.objects, ∃ a ∈ i'.collector.cycleA.contents,
    k.Linked (greys i'.timed.heap k.objects) a x
  count_eq : ∀ x ∈ k.objects,
    count i'.timed.heap x + k.held (greys i'.timed.heap k.objects) x = count h x
  purple : color i'.timed.heap o = .purple
  buffered : isBuffered i'.timed.heap o = true
  count_root : count i'.timed.heap o = count h o
  requeued : i.visits < i.collector.settings.visitBound → ∀ steps,
    i.markGreyPhase limit (steps + 1) = .ok (true, i'.requeue o)
  mature_eq : (i'.requeue o).collector.mature.contents = i.collector.mature.contents ++ [o]
  queued : (i'.requeue o).collector.queued.Perm i.collector.queued

namespace Midway

variable {L : Lawful σ} {k : Census} {h : σ} {i : Increment σ}

theorem tinted_eq (hi : Midway L k h i) :
    tinted i.timed.heap k.objects = greys i.timed.heap k.objects := tinted_eq_greys hi.not_white

theorem ledger (hi : Midway L k h i) : Ledger L k i.timed.heap k.objects ∅ where
  shows := hi.shows
  subset := le_refl _
  kept x hx := Or.inl hx
  word := hi.word
  green_iff := hi.green_iff
  gone_live := Finset.empty_subset _
  tinted_live x hx := by
    rw [hi.tinted_eq] at hx
    obtain ⟨a, ha, hax⟩ := hi.rooted x hx
    exact hi.consistent.mem_live_of_reach (hi.roots a ha) hax.reach
  disjoint := Finset.disjoint_empty_right _
  count_eq x hx := by
    rw [hi.tinted_eq, Census.held_empty, hi.start x hx]
    exact hi.count_eq x hx

-- The heap after a marking from `o` was abandoned and undone.
section Abandoned

variable {o limit : Nat} {m : Marking σ} {t : Timed σ} (hi : Midway L k h i) (ho : o ∈ k.objects)
  (hpurple : color i.timed.heap o = .purple)
  (hspread : Spreading L k k.objects ∅ i.timed.heap i.timed.clock.time limit o [] m)
  (hrecede : Receding L k k.objects ∅ m.timed.heap m.timed.clock.time o [] t)
include hi ho hpurple hspread hrecede

theorem greys_eq_tinted :
    greys (setColor t.heap o .purple) k.objects = tinted t.heap k.objects := by
  have htint := (hrecede.setColor_purple ho (hi.ledger.isGreen_of_purple ho hpurple)).2
  rw [← htint]
  refine (tinted_eq_greys fun x hx hw => ?_).symm
  have hxt : x ∈ tinted t.heap k.objects := htint ▸ mem_tinted.mpr ⟨hx, Or.inr hw⟩
  have hxo : x ≠ o := fun hxo => hrecede.start_not_mem (hxo ▸ hxt)
  rw [L.color_setColor hrecede.ledger.shows ho hx, if_neg hxo,
    color_eq_of_undone hspread hrecede hxt] at hw
  exact hi.not_white x hx hw

theorem greys_subset :
    greys (setColor t.heap o .purple) k.objects ⊆ greys i.timed.heap k.objects := by
  rw [hi.greys_eq_tinted ho hpurple hspread hrecede, ← hi.tinted_eq]
  exact tinted_subset_of_undone hspread hrecede

theorem linked_greys {a x : Nat} (hax : k.Linked (greys i.timed.heap k.objects) a x)
    (hx : x ∈ greys (setColor t.heap o .purple) k.objects) :
    k.Linked (greys (setColor t.heap o .purple) k.objects) a x := by
  rw [hi.greys_eq_tinted ho hpurple hspread hrecede] at hx ⊢
  rw [← hi.tinted_eq] at hax
  exact linked_of_undone hspread hrecede hax hx

theorem count_add_held {x : Nat} (hx : x ∈ k.objects) : count (setColor t.heap o .purple) x +
    k.held (greys (setColor t.heap o .purple) k.objects) x = count h x := by
  obtain ⟨hl, htint⟩ := hrecede.setColor_purple ho (hi.ledger.isGreen_of_purple ho hpurple)
  have heq := hl.count_eq x hx
  rw [Census.held_empty, htint, hi.start x hx] at heq
  rw [hi.greys_eq_tinted ho hpurple hspread hrecede]
  exact heq

-- Nothing grey holds the root, which was not grey itself.
theorem count_root_eq : count (setColor t.heap o .purple) o = count h o := by
  have hzero : k.held (greys (setColor t.heap o .purple) k.objects) o = 0 := by
    refine Finset.sum_eq_zero fun g hg => List.count_eq_zero.mpr fun hc => ?_
    have hg' := hi.greys_subset ho hpurple hspread hrecede hg
    have hgrey := (mem_greys.mp (hi.closed g hg' o hc)).2
    rw [hpurple] at hgrey
    cases hgrey
  have heq := hi.count_add_held ho hpurple hspread hrecede ho
  rw [hzero] at heq
  exact heq

end Abandoned

-- Whatever the clock shows, a marking that is given up is undone.
theorem undone (hi : Midway L k h i) (hgrain : i.collector.settings.visitGrain ≠ 0) {o : Nat}
    {q : Solo Nat} (hpop : i.collector.filtered.pop = (some o, q))
    (hpurple : color i.timed.heap o = .purple) (hpos : count i.timed.heap o ≠ 0) (limit : Nat) :
    ∃ finished i', (i.onCollector fun c => { c with filtered := q }).processGrey limit o =
        .ok (finished, i') ∧ (finished = false → Undone k h limit o i i') := by
  have hs := hi.valid.contents_of_pop hpop
  obtain ⟨ho, hbuffered⟩ := hi.candidates o (hs ▸ List.mem_cons_self)
  have hl := hi.ledger
  have hgar : k.Garbage ∅ := fun x hx => absurd hx (Finset.notMem_empty x)
  have hlive := (hl.live_of_isPurple hgar ho (isPurple_iff.mpr ⟨Nat.pos_of_ne_zero hpos, hpurple⟩)).1
  have htry : (color i.timed.heap o == .purple && isLive i.timed.heap o) = true := by
    rw [hpurple, (isLive_iff _ _).mpr (Nat.pos_of_ne_zero hpos)]
    rfl
  obtain ⟨m, hmark, hspread⟩ := markGrey_ok hgrain limit hi.consistent hgar
    (m := { timed := i.timed, visits := i.visits, greyed := i.stats.greyed }) hl hi.not_white hlive
    (Finset.notMem_empty o) (by rw [hi.tinted_eq]; exact hi.closed)
  cases hm : m.aborted with
  | false =>
    refine ⟨true, { i with
      timed := m.timed
      visits := m.visits
      stats := { i.stats with greyed := m.greyed }
      collector := { i.collector with filtered := q, cycleA := i.collector.cycleA.push o } }, ?_,
      fun hf => by cases hf⟩
    simp only [Increment.processGrey, Increment.onCollector, htry, if_true, hmark, ok_bind, hm,
      Bool.false_eq_true, if_false]
  | true =>
    obtain ⟨t, hback, hrecede⟩ := scanBlack_ok hi.consistent hgar hspread.ledger ho
    have hrun : (i.onCollector fun c => { c with filtered := q }).processGrey limit o = .ok (false,
        { i with
          timed := t.onHeap (setColor · o .purple)
          visits := m.visits
          stats := { i.stats with greyed := m.greyed }
          collector := { i.collector with filtered := q } }) := by
      simp only [Increment.processGrey, Increment.onCollector, htry, if_true, hmark, ok_bind, hm,
        Increment.undoGrey, hback]
    have hless := hi.greys_subset ho hpurple hspread hrecede
    refine ⟨false, _, hrun, fun _ => ?_⟩
    exact {
      drained := ⟨m, t, hmark, hm, hback, markGrey_steps hmark,
        scanBlack_steps hspread.ledger hi.consistent hgar ho hback, rfl,
        fun x _ hx hxm => hx (hless hxm)⟩
      less := hless
      rooted := fun x hx => by
        obtain ⟨a, ha, hax⟩ := hi.rooted x (hless hx)
        exact ⟨a, ha, hi.linked_greys ho hpurple hspread hrecede hax hx⟩
      count_eq := fun x hx => hi.count_add_held ho hpurple hspread hrecede hx
      purple := (L.color_setColor hrecede.ledger.shows ho ho _).trans (if_pos rfl)
      buffered := (L.isBuffered_setColor hrecede.ledger.shows ho ho _).trans
        ((isBuffered_eq_of_undone hspread hrecede ho).trans hbuffered)
      count_root := hi.count_root_eq ho hpurple hspread hrecede
      requeued := fun hv steps => by
        have hv' : ¬i.collector.settings.visitBound ≤ i.visits := Nat.not_le.mpr hv
        rw [Increment.markGreyPhase]
        simp only [if_pos hv, hv', false_and, if_false, hpop, hrun, ok_bind, Bool.false_eq_true]
      mature_eq := Solo.contents_insert _ _
      queued := by
        refine List.Perm.trans ?_ (i.collector.queued_filtered hs rfl).symm
        rw [List.perm_iff_count]
        intro x
        simp only [Increment.requeue, Collector.queued, Solo.contents_insert, List.count_append,
          List.count_cons, List.count_nil]
        omega }

end Midway

section Phase

variable {e : Scope σ} {gone : Finset Nat} {j i : Increment σ}

-- The census of what is left when a round starts.
theorem Settled.mem_live_present (hj : Settled e gone j) {x : Nat} :
    x ∈ (census e.census e.present j.timed.heap).live ↔ x ∈ e.census.live ∧ x ∉ gone := by
  rw [Census.mem_live]
  change x ∈ e.present ∧ e.census.isGreen x = false ∧ 0 < count j.timed.heap x ↔ _
  constructor
  · rintro ⟨hx, hg, hpos⟩
    exact ⟨hj.ledger.mem_live_of_count_pos hx hg hpos,
      hj.ledger.not_mem_gone_of_count_pos hj.garbage hx hpos⟩
  · rintro ⟨hx, hg⟩
    have hxr := hj.ledger.mem_of_live hx hg
    have heq := hj.count_eq hxr
    have hlt := hj.complete x hx hg
    exact ⟨hxr, (Census.mem_live.mp hx).2.1, by omega⟩

theorem Settled.consistent_present (hj : Settled e gone j) (hk : e.census.Consistent) :
    (census e.census e.present j.timed.heap).Consistent where
  held_le x hx := by
    have hx : x ∈ e.present := hx
    have hsub : (census e.census e.present j.timed.heap).live ⊆ e.census.live :=
      fun y hy => (hj.mem_live_present.mp hy).1
    have hdisj : Disjoint (census e.census e.present j.timed.heap).live gone :=
      Finset.disjoint_left.mpr fun y hy => (hj.mem_live_present.mp hy).2
    have hle := hk.held_add_le hsub hj.ledger.gone_live hdisj (hj.ledger.subset hx)
    have heq := hj.count_eq hx
    change e.census.held _ x ≤ count j.timed.heap x
    omega
  closed o ho c hc hcount := by
    obtain ⟨hlive, hgone⟩ := hj.mem_live_present.mp ho
    exact hj.ledger.child_mem hk hj.garbage hlive hgone hc hcount
  word x hx := (Status.lt_bound_iff _).mp (hj.ledger.word x hx)

-- Every state of a marking phase in which no marking was abandoned is such a state.
theorem Greying.midway (hi : Greying e gone j.timed.heap i) (hj : Settled e gone j)
    (hk : e.census.Consistent) (hexact : e.exact) :
    Midway e.law (census e.census e.present j.timed.heap) j.timed.heap i := by
  have hgreys : greys i.timed.heap e.present = tinted i.timed.heap e.present :=
    (tinted_eq_greys hi.not_white).symm
  exact {
    consistent := hj.consistent_present hk
    start := fun _ _ => rfl
    shows := e.law.recount hi.ledger.shows _ _
    word := hi.ledger.word
    green_iff := hi.ledger.green_iff
    not_white := hi.not_white
    valid := hi.valid.filtered
    roots := fun a ha => by
      obtain ⟨hlive, hgone, -⟩ := hi.roots a ha
      exact hj.mem_live_present.mpr ⟨hlive, hgone⟩
    closed := hgreys ▸ hi.closed
    rooted := hgreys ▸ hi.rooted
    count_eq := fun x hx => by
      have h1 := hi.ledger.count_eq x hx
      have h2 := hj.count_eq hx
      change count i.timed.heap x + e.census.held (greys i.timed.heap e.present) x = _
      rw [hgreys]
      omega
    candidates := fun x hx => by
      have hq : x ∈ i.collector.queued := by simp [Collector.queued, hx]
      have hxr := (hi.mem_present hq).1
      exact ⟨hxr, (hi.roster.flagged hexact x hxr).mpr hq⟩ }

end Phase

-- Two rings that were marked in a round, and a candidate of a third that leads to the first one.
namespace Crossing

-- The graph with these colours and counts.
def graph (first : Color) (counts : Fin 6 → Nat) : Graph where
  nodes := #[
    { status := Status.setBuffered (Status.initial false first (counts 0)), fields := [some 1] },
    { status := Status.initial false first (counts 1), fields := [some 0] },
    { status := Status.setBuffered (Status.initial false first (counts 2)), fields := [some 3] },
    { status := Status.initial false first (counts 3), fields := [some 2] },
    { status := Status.setBuffered (Status.initial false .purple (counts 4)),
      fields := [some 1, some 5] },
    { status := Status.initial false .black (counts 5), fields := [some 4] }]

def start : Graph := graph .purple ![1, 2, 1, 1, 1, 1]

def increment : Increment Graph where
  timed := ⟨graph .grey ![0, 1, 0, 0, 1, 1], .still 10⟩
  collector :=
    let c := Collector.new {
      timeCap := 300, filterPages := 0, detectionPages := 0, filterLimit := 8, visitGrain := 2,
      visitBound := 8, filterBound := 1, bufferEntries := 1 }
    { c with filtered := c.filtered.insert 4, cycleA := (c.cycleA.push 0).push 2 }

theorem midway : Midway Graph.lawful start.census start increment where
  consistent := by
    refine ⟨by decide, by decide, by decide⟩
  start _ _ := rfl
  shows := by
    refine ⟨by decide, fun o => ?_⟩
    by_cases ho : o < 6
    · interval_cases o <;> rfl
    · have hmiddle : ¬o < increment.timed.heap.nodes.size := ho
      have hstart : ¬o < start.nodes.size := ho
      simp only [Graph.census, Graph.node, Array.getD, hmiddle, hstart, dif_neg, not_false_eq_true]
  word := by decide
  green_iff := by decide
  not_white := by decide
  roots := by decide
  closed := by decide
  rooted x hx := by
    have hfirst := Census.Linked.refl (k := start.census) (o := 0)
      (show 0 ∈ greys increment.timed.heap start.census.objects by decide)
    have hsecond := Census.Linked.refl (k := start.census) (o := 2)
      (show 2 ∈ greys increment.timed.heap start.census.objects by decide)
    have hx' : x ∈ ({0, 1, 2, 3} : Finset Nat) :=
      (show greys increment.timed.heap start.census.objects = {0, 1, 2, 3} by decide) ▸ hx
    simp only [Finset.mem_insert, Finset.mem_singleton] at hx'
    rcases hx' with rfl | rfl | rfl | rfl
    · exact ⟨0, by decide, hfirst⟩
    · exact ⟨0, by decide, hfirst.tail (by decide) hx⟩
    · exact ⟨2, by decide, hsecond⟩
    · exact ⟨2, by decide, hsecond.tail (by decide) hx⟩
  count_eq := by decide
  valid := (Solo.Valid.new _ _).insert 4
  candidates := by decide

end Crossing

-- The first ring is given up with the candidate, the other one stays grey.
theorem undone_crossing : ∃ q i', Crossing.increment.collector.filtered.pop = (some 4, q) ∧
    (Crossing.increment.onCollector fun c => { c with filtered := q }).processGrey 5 4 =
      .ok (false, i') ∧ Undone Crossing.start.census Crossing.start 5 4 Crossing.increment i' ∧
    greys i'.timed.heap Crossing.start.census.objects = {2, 3} := by
  obtain ⟨finished, i', hrun, hundone⟩ := Crossing.midway.undone (by decide) (o := 4)
    (q := Crossing.increment.collector.filtered.pop.2) rfl (by decide) (by decide) 5
  have hfigures : ((Crossing.increment.onCollector fun c =>
      { c with filtered := Crossing.increment.collector.filtered.pop.2 }).processGrey 5 4).toOption.map
      (fun p => (p.1, greys p.2.timed.heap Crossing.start.census.objects)) =
        some (false, {2, 3}) := by decide +kernel
  rw [hrun] at hfigures
  obtain ⟨rfl, hgreys⟩ := Prod.mk.inj (Option.some.inj hfigures)
  exact ⟨_, i', rfl, hrun, hundone rfl, hgreys⟩

end Reclaim.Trial
