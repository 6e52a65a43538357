import Reclaim.Proofs.Trial.GreyPhase

/-!
The scanning and the collecting phase of a round. The roots are scanned from the last marked to the
first and collected from the first to the last, so that a root is collected before any other root
that leads to it.
-/
namespace Reclaim.Trial

open CountedHeap Queue

variable {σ : Type} [CountedHeap σ] {e : Scope σ} {gone : Finset Nat} {h : σ} {i j : Increment σ}

-- The scanning phase, which started in `j`.
structure Scanned (e : Scope σ) (gone : Finset Nat) (h : σ) (j i : Increment σ) : Prop extends
    Running e gone i where
  mature_eq : i.collector.mature = j.collector.mature
  filtered_eq : i.collector.filtered = j.collector.filtered
  guarded : ∀ x ∈ e.census.live, x ∉ gone → x ∉ tinted i.timed.heap e.present →
    0 < count i.timed.heap x
  grey : ∀ x ∈ painted .grey i.timed.heap e.present, ∃ a ∈ i.collector.cycleA.contents,
    e.census.Linked (painted .grey i.timed.heap e.present) a x
  white : ∀ x ∈ painted .white i.timed.heap e.present, count i.timed.heap x = 0 ∧
    ∃ b ∈ i.collector.cycleB.contents,
      e.census.Linked (painted .white i.timed.heap e.present) b x
  roots : ∀ a, a ∈ i.collector.cycleA.contents ∨ a ∈ i.collector.cycleB.contents →
    a ∈ e.census.live ∧ a ∉ gone ∧ color h a = .purple
  ordered : (i.collector.cycleB.contents.reverse ++ i.collector.cycleA.contents).Pairwise
    fun b a => ¬e.census.Reach a b
  less : tinted i.timed.heap e.present ⊆ tinted j.timed.heap e.present
  out : ∀ y ∈ tinted j.timed.heap e.present, y ∉ tinted i.timed.heap e.present →
    ∀ c ∈ e.census.traced y, c ∉ tinted i.timed.heap e.present
  black : ∀ x ∈ tinted j.timed.heap e.present, x ∉ tinted i.timed.heap e.present →
    color i.timed.heap x = .black ∧ ∃ y ∈ tinted j.timed.heap e.present, e.census.Reach y x ∧
      e.census.held (tinted j.timed.heap e.present) y + e.census.held gone y < e.census.count y
  same : ∀ x ∈ e.present, x ∉ tinted j.timed.heap e.present →
    color i.timed.heap x = color j.timed.heap x

namespace Scanned

-- Nothing was scanned yet.
theorem start (hj : Greyed e gone h j) : Scanned e gone h j j where
  toRunning := hj.toRunning
  mature_eq := rfl
  filtered_eq := rfl
  guarded := hj.guarded
  grey x hx := by
    have hgrey : painted .grey j.timed.heap e.present = tinted j.timed.heap e.present := by
      ext y
      exact ⟨fun hy => painted_subset_tinted (Or.inl rfl) hy, fun hy =>
        mem_painted.mpr ⟨Ledger.tinted_subset hy, hj.grey y hy⟩⟩
    rw [hgrey] at hx ⊢
    exact hj.rooted x hx
  white x hx := by
    obtain ⟨-, hw⟩ := mem_painted.mp hx
    have hg := hj.grey x (painted_subset_tinted (Or.inr rfl) hx)
    simp [hw] at hg
  roots a ha := by
    rw [hj.cycleB_eq] at ha
    exact hj.roots a (ha.resolve_right List.not_mem_nil)
  ordered := by
    rw [hj.cycleB_eq]
    exact hj.ordered
  less := le_refl _
  out y hy hn := absurd hy hn
  black x hx hn := absurd hx hn
  same _ _ _ := rfl

-- Scanning the subgraph of one root.
theorem step (hi : Scanned e gone h j i) {o : Nat} {q : Solo Nat} (hq : q.Valid)
    (hs : i.collector.cycleA.contents = o :: q.contents) {t : Timed σ}
    (hsift : Sifting e.law e.census e.present gone i.timed.heap i.timed.clock.time o [] t) :
    Scanned e gone h j { i with
      timed := t
      collector := { i.collector with
        cycleA := q, cycleB := i.collector.cycleB.push o } } where
  roster := by
    refine hi.roster.congr hsift.ledger hsift.buffered ?_
    rw [List.perm_iff_count]
    intro x
    simp only [Collector.queued, Solo.contents_push, hs, List.count_append, List.count_cons]
    omega
  valid := { hi.valid with cycleA := hq, cycleB := hi.valid.cycleB.push o }
  settings_eq := hi.settings_eq
  time_eq := hsift.time_eq.trans hi.time_eq
  unfiltered_eq := hi.unfiltered_eq
  freed_eq := hi.freed_eq
  mature_eq := hi.mature_eq
  filtered_eq := hi.filtered_eq
  guarded x hx hg ht := by
    by_cases hxi : x ∈ tinted i.timed.heap e.present
    · exact (hsift.black x (Finset.mem_sdiff.mpr ⟨hxi, ht⟩)).2.1
    · have hxr := hsift.ledger.mem_of_live hx hg
      exact (hi.guarded x hx hg hxi).trans_le (hsift.count_le hi.ledger hxr)
  grey x hx := by
    have hout : ∀ y ∈ painted .grey i.timed.heap e.present, y ∉ painted .grey t.heap e.present →
        ∀ c ∈ e.census.traced y, c ∉ painted .grey t.heap e.present := fun y hy hyt c hc hct =>
      List.not_mem_nil (hsift.closed y hy hyt c hc hct)
    obtain ⟨a, ha, hax⟩ := hi.grey x (hsift.grey hx)
    have hax' := hax.shrink hout hx
    rcases List.mem_cons.mp (hs ▸ ha) with rfl | ha
    · exact absurd (hsift.started hax'.1) List.not_mem_nil
    · exact ⟨a, ha, hax'⟩
  white x hx := by
    obtain ⟨hz, hold | hlink⟩ := hsift.white x hx
    · obtain ⟨-, b, hb, hbx⟩ := hi.white x hold
      exact ⟨hz, b, by simp [hb], hsift.linked_white hbx hx⟩
    · exact ⟨hz, o, by simp, hlink⟩
  roots a ha := by
    apply hi.roots a
    simp only [Solo.contents_push, hs, List.mem_cons] at ha ⊢
    tauto
  ordered := by
    have ho := hi.ordered
    simpa [hs] using ho
  less := hsift.less.trans hi.less
  out y hy hyt c hc hct := by
    by_cases hyi : y ∈ tinted i.timed.heap e.present
    · exact hsift.out y hyi hyt c hc hct
    · exact hi.out y hy hyi c hc (hsift.less hct)
  black x hx hxt := by
    by_cases hxi : x ∈ tinted i.timed.heap e.present
    · obtain ⟨hcolor, -, y, hy, hyx, hlt⟩ := hsift.black x (Finset.mem_sdiff.mpr ⟨hxi, hxt⟩)
      -- What is black by now holds nothing that is still grey or white.
      have hheld := e.census.held_eq_of_subset hi.less fun b hb hbi hc => hi.out b hb hbi y hc hy
      exact ⟨hcolor, y, hi.less hy, hyx, hheld ▸ hlt⟩
    · obtain ⟨hcolor, hex⟩ := hi.black x hx hxi
      exact ⟨(hsift.same x (Ledger.tinted_subset hx) hxi).trans hcolor, hex⟩
  same x hx hn := (hsift.same x hx fun hm => hn (hi.less hm)).trans (hi.same x hx hn)

-- No root is left to be scanned.
theorem finish (hi : Scanned e gone h j i) {q : Solo Nat} (hq : q.Valid)
    (hs : i.collector.cycleA.contents = []) (hempty : q.contents = []) :
    Scanned e gone h j (i.onCollector fun c => { c with cycleA := q }) := by
  have hsame : q.contents = i.collector.cycleA.contents := hempty.trans hs.symm
  refine { hi with
    toRunning := hi.onCollector (by simp only [Collector.queued, hsame])
      { hi.valid with cycleA := hq } rfl rfl
    grey := ?_, roots := ?_, ordered := ?_ }
  all_goals
    dsimp only [Increment.onCollector]
    rw [hsame]
  · exact hi.grey
  · exact hi.roots
  · exact hi.ordered

theorem scanPhase (hk : e.census.Consistent) (hgar : e.census.Garbage gone) (steps : Nat)
    (hi : Scanned e gone h j i) (hsteps : i.collector.cycleA.contents.length < steps) :
    ∃ i', i.scanPhase steps = .ok i' ∧ Scanned e gone h j i' ∧
      i'.collector.cycleA.contents = [] := by
  induction steps generalizing i with
  | zero => omega
  | succ steps ih =>
    cases hs : i.collector.cycleA.contents with
    | nil =>
      obtain ⟨q, hpop, hq, hempty⟩ := hi.valid.cycleA.pop_nil hs
      exact ⟨_, by rw [Increment.scanPhase, hpop], hi.finish hq hs hempty, hempty⟩
    | cons o rest =>
      obtain ⟨q, hpop, hq, rfl⟩ := hi.valid.cycleA.pop_cons hs
      obtain ⟨holive, hogone, -⟩ := hi.roots o (Or.inl (by simp [hs]))
      obtain ⟨t, hscan, hsift⟩ := scan_ok hk hgar hi.ledger
        (hi.ledger.mem_of_live holive hogone) fun x hx => (hi.white x hx).1
      obtain ⟨i', hrun, hi', hend⟩ := ih (hi.step hq hs hsift) (by
        rw [hs, List.length_cons] at hsteps
        exact Nat.lt_of_succ_lt_succ hsteps)
      refine ⟨i', ?_, hi', hend⟩
      rw [Increment.scanPhase, hpop]
      simp only [hscan, ok_bind]
      exact hrun

end Scanned

-- The collecting phase, which started in `j`.
structure Collected (e : Scope σ) (gone : Finset Nat) (j i : Increment σ) : Prop extends
    Running e (gone ∪ (tinted j.timed.heap e.present \ tinted i.timed.heap e.present)) i where
  mature_eq : i.collector.mature = j.collector.mature
  filtered_eq : i.collector.filtered = j.collector.filtered
  cycleA_eq : i.collector.cycleA.contents = []
  white : ∀ x ∈ tinted i.timed.heap e.present, color i.timed.heap x = .white
  less : tinted i.timed.heap e.present ⊆ tinted j.timed.heap e.present
  linked : ∀ x ∈ tinted i.timed.heap e.present, ∃ b ∈ i.collector.cycleB.contents,
    e.census.Linked (tinted i.timed.heap e.present) b x
  roots : ∀ b ∈ i.collector.cycleB.contents, b ∈ e.census.live ∧
    b ∉ gone ∪ (tinted j.timed.heap e.present \ tinted i.timed.heap e.present)
  ordered : i.collector.cycleB.contents.Pairwise fun a b => ¬e.census.Reach a b
  counts : ∀ x ∈ e.present, count i.timed.heap x = count j.timed.heap x
  same : ∀ x ∈ e.present, x ∉ tinted j.timed.heap e.present →
    color i.timed.heap x = color j.timed.heap x

namespace Collected

-- Nothing was collected yet.
theorem start {g : Increment σ} (hj : Scanned e gone h g j)
    (hA : j.collector.cycleA.contents = []) : Collected e gone j j := by
  have hwhite : painted .white j.timed.heap e.present = tinted j.timed.heap e.present := by
    ext x
    refine ⟨fun hx => painted_subset_tinted (Or.inr rfl) hx, fun hx => ?_⟩
    obtain ⟨hxr, hg | hw⟩ := mem_tinted.mp hx
    · obtain ⟨a, ha, -⟩ := hj.grey x (mem_painted.mpr ⟨hxr, hg⟩)
      rw [hA] at ha
      exact absurd ha List.not_mem_nil
    · exact mem_painted.mpr ⟨hxr, hw⟩
  exact { hj with
    mature_eq := rfl
    filtered_eq := rfl
    cycleA_eq := hA
    less := le_refl _
    counts := fun _ _ => rfl
    same := fun _ _ _ => rfl
    roster := by
      simpa using hj.roster
    white := fun x hx => by
      rw [← hwhite] at hx
      exact (mem_painted.mp hx).2
    linked := fun x hx => by
      rw [← hwhite] at hx ⊢
      exact (hj.white x hx).2
    roots := fun b hb => by
      obtain ⟨hlive, hgone, -⟩ := hj.roots b (Or.inr hb)
      exact ⟨hlive, by simpa using hgone⟩
    ordered := by
      have ho := hj.ordered
      rw [hA, List.append_nil, List.pairwise_reverse] at ho
      exact ho }

-- Collecting the white subgraph of one root, which is no candidate any more.
theorem step (hi : Collected e gone j i) {o : Nat} {q : Solo Nat} (hq : q.Valid)
    (hs : i.collector.cycleB.contents = o :: q.contents) {s : Harvest σ}
    (hreap : Reaping e.law e.census e.present
      (gone ∪ (tinted j.timed.heap e.present \ tinted i.timed.heap e.present))
      (clearBuffered i.timed.heap o) i.timed.clock.time o i.dead i.deferred [] s) :
    Collected e gone j { i with
      timed := s.timed, dead := s.dead, deferred := s.deferred
      collector := { i.collector with cycleB := q } } := by
  have hperm : i.collector.queued.Perm (o :: { i.collector with cycleB := q }.queued) := by
    rw [List.perm_iff_count]
    intro x
    simp only [Collector.queued, hs, List.count_append, List.count_cons]
    omega
  obtain ⟨holive, hogone⟩ := hi.roots o (by simp [hs])
  obtain ⟨hor, -⟩ := hi.mem_present (hperm.mem_iff.mpr List.mem_cons_self)
  obtain ⟨hord, hords⟩ := List.pairwise_cons.mp (hs ▸ hi.ordered)
  have hcolor : ∀ x ∈ e.present, color (clearBuffered i.timed.heap o) x = color i.timed.heap x :=
    fun x hx => e.law.color_clearBuffered hi.ledger.shows hor hx
  have htint : tinted (clearBuffered i.timed.heap o) e.present = tinted i.timed.heap e.present :=
    tinted_congr hcolor
  have hroster := (hi.roster.settle hperm
    (Or.inl ⟨rfl, hogone, (Census.mem_live.mp holive).2.2.ne'⟩)).harvest hreap
  have hlinked := fun x => hreap.linked_not_mem (x := x)
  obtain ⟨-, htime, -, hcounts, hless, hsame, -, -, hreached, -, hclosed, -⟩ := hreap
  change Roster _ _ _ _ _ (gone ∪ (tinted j.timed.heap e.present \ tinted i.timed.heap e.present) ∪
    (tinted (clearBuffered i.timed.heap o) e.present \ tinted s.timed.heap e.present)) _ _ _ _
    at hroster
  have hmoved : gone ∪ (tinted j.timed.heap e.present \ tinted i.timed.heap e.present) ∪
      (tinted i.timed.heap e.present \ tinted s.timed.heap e.present) =
      gone ∪ (tinted j.timed.heap e.present \ tinted s.timed.heap e.present) := by
    rw [htint] at hless
    rw [Finset.union_assoc, Finset.sdiff_union_sdiff_cancel hi.less hless]
  rw [htint] at hroster hless hsame hreached hclosed hlinked
  rw [hmoved] at hroster
  have hkeep : ∀ x ∈ tinted s.timed.heap e.present, color s.timed.heap x = color i.timed.heap x := by
    intro x hx
    have hxr : x ∈ e.present := Ledger.tinted_subset hx
    exact (hsame x hxr fun hm => (Finset.mem_sdiff.mp hm).2 hx).trans (hcolor x hxr)
  exact {
    roster := hroster
    valid := { hi.valid with cycleB := hq }
    settings_eq := hi.settings_eq
    time_eq := htime.trans hi.time_eq
    unfiltered_eq := hi.unfiltered_eq
    freed_eq := hi.freed_eq
    mature_eq := hi.mature_eq
    filtered_eq := hi.filtered_eq
    cycleA_eq := hi.cycleA_eq
    white := fun x hx => (hkeep x hx).trans (hi.white x (hless hx))
    less := hless.trans hi.less
    linked := fun x hx => by
      obtain ⟨b, hb, hbx⟩ := hi.linked x (hless hx)
      rcases List.mem_cons.mp (hs ▸ hb) with rfl | hb
      · exact absurd hx (hlinked x hbx)
      · refine ⟨b, hb, hbx.shrink (fun y hy hyt c hc hct => ?_) hx⟩
        exact List.not_mem_nil (hclosed y (Finset.mem_sdiff.mpr ⟨hy, hyt⟩) c hc hct)
    roots := fun b hb => by
      obtain ⟨hblive, hbgone⟩ := hi.roots b (hs ▸ List.mem_cons_of_mem _ hb)
      refine ⟨hblive, ?_⟩
      change b ∉ gone ∪ (tinted j.timed.heap e.present \ tinted s.timed.heap e.present)
      rw [← hmoved, Finset.mem_union, not_or]
      -- Otherwise `o` would lead to a root that was marked after it.
      exact ⟨hbgone, fun hbm => hord b hb (hreached b hbm)⟩
    ordered := hords
    counts := fun x hx => (hcounts x hx).trans
      ((e.law.count_clearBuffered hi.ledger.shows hor hx).trans (hi.counts x hx))
    same := fun x hx hn => (hsame x hx fun hm => hn (hi.less (Finset.mem_sdiff.mp hm).1)).trans
      ((hcolor x hx).trans (hi.same x hx hn)) }

-- No root is left to be collected.
theorem finish (hi : Collected e gone j i) {q : Solo Nat} (hq : q.Valid)
    (hs : i.collector.cycleB.contents = []) (hempty : q.contents = []) :
    Collected e gone j (i.onCollector fun c => { c with cycleB := q }) := by
  have hsame : q.contents = i.collector.cycleB.contents := hempty.trans hs.symm
  refine { hi with
    toRunning := hi.onCollector (by simp only [Collector.queued, hsame])
      { hi.valid with cycleB := hq } rfl rfl
    linked := ?_, roots := ?_, ordered := ?_ }
  all_goals
    dsimp only [Increment.onCollector]
    rw [hsame]
  · exact hi.linked
  · exact hi.roots
  · exact hi.ordered

theorem collectPhase (hchild : ∀ y ∈ tinted j.timed.heap e.present, ∀ c ∈ e.census.references y,
      e.census.isCounted c = true → c ∈ e.present) (steps : Nat)
    (hi : Collected e gone j i) (hsteps : i.collector.cycleB.contents.length < steps) :
    ∃ i', i.collectPhase steps = .ok i' ∧ Collected e gone j i' ∧
      i'.collector.cycleB.contents = [] := by
  induction steps generalizing i with
  | zero => omega
  | succ steps ih =>
    cases hs : i.collector.cycleB.contents with
    | nil =>
      obtain ⟨q, hpop, hq, hempty⟩ := hi.valid.cycleB.pop_nil hs
      exact ⟨_, by rw [Increment.collectPhase, hpop], hi.finish hq hs hempty, hempty⟩
    | cons o rest =>
      obtain ⟨q, hpop, hq, rfl⟩ := hi.valid.cycleB.pop_cons hs
      obtain ⟨holive, hogone⟩ := hi.roots o (by simp [hs])
      have hor := hi.ledger.mem_of_live holive hogone
      have hcolor : ∀ x ∈ e.present,
          color (clearBuffered i.timed.heap o) x = color i.timed.heap x :=
        fun x hx => e.law.color_clearBuffered hi.ledger.shows hor hx
      have htint := tinted_congr hcolor
      obtain ⟨s, hrun, hreap⟩ := collectWhite_ok (o := o)
        (s := { timed := ⟨clearBuffered i.timed.heap o, i.timed.clock⟩
                dead := i.dead, deferred := i.deferred })
        (hi.ledger.clearBuffered hor)
        (fun x hx => (hcolor x (Ledger.tinted_subset hx)).trans (hi.white x (htint ▸ hx)))
        (fun y hy => hchild y (hi.less (htint ▸ hy))) hor
      obtain ⟨i', hloop, hi', hend⟩ := ih (hi.step hq hs hreap) (by
        rw [hs, List.length_cons] at hsteps
        exact Nat.lt_of_succ_lt_succ hsteps)
      refine ⟨i', ?_, hi', hend⟩
      rw [Increment.collectPhase, hpop]
      simp only [Increment.onHeap, Timed.onHeap, hrun, ok_bind]
      exact hloop

end Collected

end Reclaim.Trial
