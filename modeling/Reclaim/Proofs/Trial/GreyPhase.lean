import Reclaim.Proofs.Trial.Running

/-!
The marking phase of a round. Each candidate that is still purple and has a count is turned grey with
all that it leads to. The candidates marked so far are not reachable from ones marked before them.
When a marking is abandoned, what it turned grey turns black again, together with what earlier
markings shared with it.
-/
namespace Reclaim.Trial

open CountedHeap Queue

variable {σ : Type} [CountedHeap σ] {e : Scope σ} {gone : Finset Nat} {h : σ} {i : Increment σ}

-- After the marking phase of a round that started in heap `h`.
structure Greyed (e : Scope σ) (gone : Finset Nat) (h : σ) (i : Increment σ) : Prop extends
    Running e gone i where
  grey : ∀ x ∈ tinted i.timed.heap e.present, color i.timed.heap x = .grey
  rooted : ∀ x ∈ tinted i.timed.heap e.present, ∃ a ∈ i.collector.cycleA.contents,
    e.census.Linked (tinted i.timed.heap e.present) a x
  roots : ∀ a ∈ i.collector.cycleA.contents,
    a ∈ e.census.live ∧ a ∉ gone ∧ color h a = .purple
  ordered : i.collector.cycleA.contents.Pairwise fun b a => ¬e.census.Reach a b
  guarded : ∀ x ∈ e.census.live, x ∉ gone → x ∉ tinted i.timed.heap e.present →
    0 < count i.timed.heap x
  cycleB_eq : i.collector.cycleB.contents = []

-- The marking phase while no marking has been abandoned.
structure Greying (e : Scope σ) (gone : Finset Nat) (h : σ) (i : Increment σ) : Prop extends
    Greyed e gone h i where
  closed : ∀ g ∈ tinted i.timed.heap e.present, ∀ c ∈ e.census.traced g,
    c ∈ tinted i.timed.heap e.present
  kept : ∀ a ∈ i.collector.cycleA.contents, a ∈ tinted i.timed.heap e.present
  same : ∀ x ∈ e.present, x ∉ tinted i.timed.heap e.present → color i.timed.heap x = color h x

-- After a marking from `o` was abandoned. What `o` leads to is as good as not marked.
structure Abandoned (e : Scope σ) (gone : Finset Nat) (h : σ) (o : Nat) (i : Increment σ) : Prop
    extends Greyed e gone h i where
  live : o ∈ e.census.live
  not_gone : o ∉ gone
  purple : color i.timed.heap o = .purple
  closed : ∀ g ∈ tinted i.timed.heap e.present, ∀ c ∈ e.census.traced g,
    c ∈ tinted i.timed.heap e.present ∨ e.census.Reach o c
  same : ∀ x ∈ e.present, x ∉ tinted i.timed.heap e.present → ¬e.census.Reach o x →
    color i.timed.heap x = color h x

namespace Greying

theorem not_white (hi : Greying e gone h i) : ∀ x ∈ e.present, color i.timed.heap x ≠ .white := by
  intro x hx hw
  have hg := hi.grey x (mem_tinted.mpr ⟨hx, Or.inr hw⟩)
  simp [hw] at hg

theorem reach (hi : Greying e gone h i) {a x : Nat} (ha : a ∈ tinted i.timed.heap e.present)
    (hx : e.census.Reach a x) : x ∈ tinted i.timed.heap e.present := by
  induction hx with
  | refl => exact ha
  | tail _ he ih => exact hi.closed _ ih _ he

-- What is not grey is not held by anything grey, now or when less is grey.
theorem held_eq_zero (hi : Greying e gone h i) {s : Finset Nat} {x : Nat}
    (hs : s ⊆ tinted i.timed.heap e.present) (hx : x ∉ tinted i.timed.heap e.present) :
    e.census.held s x = 0 :=
  Finset.sum_eq_zero fun g hg => List.count_eq_zero.mpr fun hc => hx (hi.closed g (hs hg) x hc)

end Greying

-- With all that grey objects lead to grey, every other count is as it was before.
theorem guarded_of_closed {L : Lawful σ} {k : Census} {r : Finset Nat}
    (hl : Ledger L k h r gone) (hcomplete : k.Complete gone)
    (hclosed : ∀ g ∈ tinted h r, ∀ c ∈ k.traced g, c ∈ tinted h r) {x : Nat} (hx : x ∈ k.live)
    (hg : x ∉ gone) (ht : x ∉ tinted h r) : 0 < count h x := by
  have hzero : k.held (tinted h r) x = 0 :=
    Finset.sum_eq_zero fun g hm => List.count_eq_zero.mpr fun hc => ht (hclosed g hm x hc)
  have heq := hl.count_eq x (hl.mem_of_live hx hg)
  have hlt := hcomplete x hx hg
  omega

-- With another heap that shows the same, and no root lost, the phase is as far as it was.
theorem Greying.congr (hi : Greying e gone h i) {i' : Increment σ} (hrun : Running e gone i')
    (hcolor : ∀ x ∈ e.present, color i'.timed.heap x = color i.timed.heap x)
    (hcount : ∀ x ∈ e.present, count i'.timed.heap x = count i.timed.heap x)
    (hA : i'.collector.cycleA = i.collector.cycleA) (hB : i'.collector.cycleB = i.collector.cycleB) :
    Greying e gone h i' := by
  have htint := tinted_congr hcolor
  exact {
    toRunning := hrun
    grey := fun x hx => by
      rw [htint] at hx
      exact (hcolor x (Ledger.tinted_subset hx)).trans (hi.grey x hx)
    rooted := by
      rw [htint, hA]
      exact hi.rooted
    roots := hA ▸ hi.roots
    ordered := hA ▸ hi.ordered
    guarded := fun x hx hg ht => by
      rw [htint] at ht
      exact (hcount x (hi.ledger.mem_of_live hx hg)).symm ▸ hi.guarded x hx hg ht
    cycleB_eq := hB ▸ hi.cycleB_eq
    closed := htint ▸ hi.closed
    kept := by
      rw [htint, hA]
      exact hi.kept
    same := fun x hx ht => by
      rw [htint] at ht
      exact (hcolor x hx).trans (hi.same x hx ht) }

-- Marking from the first of the candidates. The other ones are in `q`.
section Marking

variable (hi : Greying e gone h i) (hcomplete : e.census.Complete gone) {o : Nat} {q : Solo Nat}
  (hq : q.Valid) (hs : i.collector.filtered.contents = o :: q.contents)
  (hpurple : color i.timed.heap o = .purple) {limit : Nat} {m : Marking σ}
  (hspread : Spreading e.law e.census e.present gone i.timed.heap i.timed.clock.time limit o [] m)
include hi hcomplete hq hs hpurple hspread

-- A marking in time adds its root and all that it leads to.
theorem Greying.mark (hm : m.aborted = false) (visits : Nat) (stats : Stats) :
    Greying e gone h { i with
        timed := m.timed, visits, stats
        collector := { i.collector with filtered := q, cycleA := i.collector.cycleA.push o } } ∧
      o ∈ tinted m.timed.heap e.present := by
  have hoq : o ∈ i.collector.queued := by simp [Collector.queued, hs]
  obtain ⟨hor, hog⟩ := hi.mem_present hoq
  have hot : o ∉ tinted i.timed.heap e.present := by simp [mem_tinted, hpurple]
  have hclosed : ∀ g ∈ tinted m.timed.heap e.present, ∀ c ∈ e.census.traced g,
      c ∈ tinted m.timed.heap e.present := fun g hg c hc =>
    (hspread.closed hm g hg c hc).resolve_right List.not_mem_nil
  have hstart : o ∈ tinted m.timed.heap e.present :=
    (hspread.started hm).resolve_right List.not_mem_nil
  have hkeep : ∀ x ∈ tinted i.timed.heap e.present, color m.timed.heap x = color i.timed.heap x :=
    fun x hx => hspread.same x (Ledger.tinted_subset hx) fun hn => (Finset.mem_sdiff.mp hn).2 hx
  have hcontents : ∀ a ∈ (i.collector.cycleA.push o).contents, a = o ∨ a ∈ i.collector.cycleA.contents :=
    fun a ha => List.mem_cons.mp (Solo.contents_push _ _ ▸ ha)
  refine ⟨{ roster := ?roster, valid := ?valid, settings_eq := hi.settings_eq
            time_eq := hspread.time_eq.trans hi.time_eq, unfiltered_eq := hi.unfiltered_eq
            freed_eq := hi.freed_eq, grey := ?grey, rooted := ?rooted, roots := ?roots
            ordered := ?ordered, guarded := fun x hx hg ht =>
              guarded_of_closed hspread.ledger hcomplete hclosed hx hg ht
            cycleB_eq := hi.cycleB_eq, closed := hclosed, kept := ?kept, same := ?same }, hstart⟩
  case roster =>
    refine hi.roster.congr hspread.ledger hspread.buffered ?_
    refine List.Perm.trans ?_ (i.collector.queued_filtered hs rfl).symm
    rw [List.perm_iff_count]
    intro x
    simp only [Collector.queued, Solo.contents_push, List.count_append, List.count_cons]
    omega
  case valid =>
    exact { hi.valid with filtered := hq, cycleA := hi.valid.cycleA.push o }
  case grey =>
    intro x hx
    by_cases hxi : x ∈ tinted i.timed.heap e.present
    · exact (hkeep x hxi).trans (hi.grey x hxi)
    · exact (hspread.fresh x (Finset.mem_sdiff.mpr ⟨hx, hxi⟩)).1
  case rooted =>
    intro x hx
    simp only [Solo.contents_push, List.mem_cons, exists_eq_or_imp]
    by_cases hxi : x ∈ tinted i.timed.heap e.present
    · obtain ⟨a, ha, hax⟩ := hi.rooted x hxi
      exact Or.inr ⟨a, ha, hax.mono hspread.grown⟩
    · exact Or.inl ((hspread.fresh x (Finset.mem_sdiff.mpr ⟨hx, hxi⟩)).2.mono Finset.sdiff_subset)
  case roots =>
    intro a ha
    rcases hcontents a ha with rfl | ha
    · exact ⟨hspread.ledger.tinted_live hstart,
        Finset.disjoint_left.mp hspread.ledger.disjoint hstart, hi.same a hor hot ▸ hpurple⟩
    · exact hi.roots a ha
  case ordered =>
    simp only [Solo.contents_push, List.pairwise_cons]
    exact ⟨fun a ha hr => hot (hi.reach (hi.kept a ha) hr), hi.ordered⟩
  case kept =>
    intro a ha
    rcases hcontents a ha with rfl | ha
    · exact hstart
    · exact hspread.grown (hi.kept a ha)
  case same =>
    intro x hx ht
    have hxi : x ∉ tinted i.timed.heap e.present := fun hm => ht (hspread.grown hm)
    exact (hspread.same x hx fun hn => ht (Finset.mem_sdiff.mp hn).1).trans (hi.same x hx hxi)

-- The marking was abandoned, and its root scanned black.
variable {t : Timed σ}
  (hrecede : Receding e.law e.census e.present gone m.timed.heap m.timed.clock.time o [] t)
include hrecede

omit hi hcomplete hq hs hpurple hspread in
theorem reach_of_lost {x : Nat} (hx : x ∈ tinted m.timed.heap e.present)
    (hn : x ∉ tinted t.heap e.present) : e.census.Reach o x :=
  (hrecede.black x (Finset.mem_sdiff.mpr ⟨hx, hn⟩)).2.1.reach

omit hq hs in
-- Whatever turned black on the way has a count, like all that was not grey.
theorem Greying.guarded_of_undone (hk : e.census.Consistent) {x : Nat} (hx : x ∈ e.census.live)
    (hg : x ∉ gone) (ht : x ∉ tinted t.heap e.present) : 0 < count t.heap x := by
  by_cases hxi : x ∈ tinted i.timed.heap e.present
  · have hxo : x ≠ o := by
      rintro rfl
      simp [mem_tinted, hpurple] at hxi
    exact hrecede.count_pos hk (Finset.mem_sdiff.mpr ⟨hspread.grown hxi, ht⟩) hxo hspread.ledger
  · have heq := hrecede.ledger.count_eq x (hrecede.ledger.mem_of_live hx hg)
    have hlt := hcomplete x hx hg
    rw [hi.held_eq_zero (tinted_subset_of_undone hspread hrecede) hxi] at heq
    omega

omit hcomplete hq hs hpurple in
-- What the root does not lead to was not come across.
theorem Greying.same_of_undone {x : Nat} (hx : x ∈ e.present) (ht : x ∉ tinted t.heap e.present)
    (hr : ¬e.census.Reach o x) : color t.heap x = color h x := by
  have hxm : x ∉ tinted m.timed.heap e.present := fun hm => hr (reach_of_lost hrecede hm ht)
  have hxi : x ∉ tinted i.timed.heap e.present := fun hm => hxm (hspread.grown hm)
  calc color t.heap x
      = color m.timed.heap x := hrecede.same x hx fun hn => hxm (Finset.mem_sdiff.mp hn).1
    _ = color i.timed.heap x := hspread.same x hx fun hn => hxm (Finset.mem_sdiff.mp hn).1
    _ = color h x := hi.same x hx hxi

-- An abandoned marking is undone, and its root is a candidate again.
theorem Greying.abandon (hk : e.census.Consistent) (hlive : o ∈ e.census.live) (hgone : o ∉ gone)
    (visits : Nat) (stats : Stats) :
    Abandoned e gone h o { i with
        timed := t.onHeap (setColor · o .purple), visits, stats
        collector := { i.collector with
          filtered := q, mature := i.collector.mature.insert o } } ∧
      ∀ x ∈ tinted i.timed.heap e.present,
        x ∈ tinted (setColor t.heap o .purple) e.present ∨ e.census.Reach o x := by
  have hoq : o ∈ i.collector.queued := by simp [Collector.queued, hs]
  obtain ⟨hor, hog⟩ := hi.mem_present hoq
  have hsh := hrecede.ledger.shows
  obtain ⟨hl', htint⟩ := hrecede.setColor_purple hor hog
  have hback := tinted_subset_of_undone hspread hrecede
  have hcolor : ∀ x ∈ e.present, x ≠ o → color (setColor t.heap o .purple) x = color t.heap x :=
    fun x hx hxo => (e.law.color_setColor hsh hor hx _).trans (if_neg hxo)
  have hkept : ∀ x ∈ tinted i.timed.heap e.present,
      x ∈ tinted (setColor t.heap o .purple) e.present ∨ e.census.Reach o x := fun x hx => by
    rw [htint]
    exact or_iff_not_imp_left.mpr (reach_of_lost hrecede (hspread.grown hx))
  refine ⟨{ roster := hi.roster.congr hl' ?buffered ?queued, valid := ?valid
            settings_eq := hi.settings_eq
            time_eq := hrecede.time_eq.trans (hspread.time_eq.trans hi.time_eq)
            unfiltered_eq := hi.unfiltered_eq, freed_eq := hi.freed_eq
            grey := fun x hx => ?grey, rooted := fun x hx => ?rooted, roots := hi.roots
            ordered := hi.ordered, guarded := fun x hx hg ht => ?guarded, cycleB_eq := hi.cycleB_eq
            live := hlive, not_gone := hgone
            purple := (e.law.color_setColor hsh hor hor _).trans (if_pos rfl)
            closed := fun g hg c hc => ?closed, same := fun x hx ht hr => ?same }, hkept⟩
  case buffered =>
    intro x hx
    exact (e.law.isBuffered_setColor hsh hor hx _).trans (isBuffered_eq_of_undone hspread hrecede hx)
  case queued =>
    refine List.Perm.trans ?_ (i.collector.queued_filtered hs rfl).symm
    rw [List.perm_iff_count]
    intro x
    simp only [Collector.queued, Solo.contents_insert, List.count_append, List.count_cons,
      List.count_nil]
    omega
  case valid =>
    exact { hi.valid with mature := hi.valid.mature.insert o, filtered := hq }
  all_goals dsimp only [Timed.onHeap] at *
  case grey =>
    rw [htint] at hx
    have hxo : x ≠ o := ne_of_mem_of_not_mem hx hrecede.start_not_mem
    calc color (setColor t.heap o .purple) x
        = color t.heap x := hcolor x (Ledger.tinted_subset hx) hxo
      _ = color i.timed.heap x := color_eq_of_undone hspread hrecede hx
      _ = .grey := hi.grey x (hback hx)
  case rooted =>
    rw [htint] at hx ⊢
    obtain ⟨a, ha, hax⟩ := hi.rooted x (hback hx)
    exact ⟨a, ha, linked_of_undone hspread hrecede hax hx⟩
  case guarded =>
    rw [htint] at ht
    rw [e.law.count_setColor hsh hor (hrecede.ledger.mem_of_live hx hg)]
    exact hi.guarded_of_undone hcomplete hpurple hspread hrecede hk hx hg ht
  case closed =>
    rw [htint] at hg
    exact hkept c (hi.closed g (hback hg) c hc)
  case same =>
    rw [htint] at ht
    have hxo : x ≠ o := fun hxo => hr (hxo ▸ .refl)
    exact (hcolor x hx hxo).trans (hi.same_of_undone hspread hrecede hx ht hr)

end Marking

-- A candidate that is no longer purple, or has no count, is none any more.
theorem Greying.dismiss (hi : Greying e gone h i) (hgar : e.census.Garbage gone) {o : Nat}
    {q : Solo Nat} (hq : q.Valid) (hs : i.collector.filtered.contents = o :: q.contents)
    {dead : List Nat}
    (hdead : dead = i.dead ∧ (0 < count i.timed.heap o ∨ o ∈ tinted i.timed.heap e.present) ∨
      dead = o :: i.dead ∧ count i.timed.heap o = 0 ∧ o ∉ tinted i.timed.heap e.present) :
    Greying e gone h { i with
      timed := i.timed.onHeap (clearBuffered · o), dead
      collector := { i.collector with filtered := q } } := by
  have hoq : o ∈ i.collector.queued := by simp [Collector.queued, hs]
  obtain ⟨hor, hog⟩ := hi.mem_present hoq
  refine hi.congr ⟨?_, ?_, hi.settings_eq, hi.time_eq, hi.unfiltered_eq, hi.freed_eq⟩
    (fun x hx => e.law.color_clearBuffered hi.ledger.shows hor hx)
    (fun x hx => e.law.count_clearBuffered hi.ledger.shows hor hx) rfl rfl
  · apply hi.roster.settle (i.collector.queued_filtered hs rfl)
    rcases hdead with ⟨hd, hp | ht⟩ | ⟨hd, hz, ht⟩
    · exact Or.inl ⟨hd, hi.ledger.not_mem_gone_of_count_pos hgar hor hp,
        hi.ledger.count_ne_zero_of_pos hor hp⟩
    · exact Or.inl ⟨hd, Finset.disjoint_left.mp hi.ledger.disjoint ht,
        (Census.mem_live.mp (hi.ledger.tinted_live ht)).2.2.ne'⟩
    · refine Or.inr ⟨hd, ?_⟩
      by_contra hn
      obtain ⟨hgone, hne⟩ := not_or.mp hn
      have hlive : o ∈ e.census.live :=
        Census.mem_live.mpr ⟨hi.ledger.subset hor, hog, Nat.pos_of_ne_zero hne⟩
      exact (hi.guarded o hlive hgone ht).ne' hz
  · exact { hi.valid with filtered := hq }

-- What the marking phase comes to when it starts with the queues of `c` in heap `g` and the marking from
-- `o` is abandoned.
structure Broken (e : Scope σ) (gone : Finset Nat) (h : σ) (c : Collector) (g : σ) (o : Nat)
    (i : Increment σ) : Prop where
  abandoned : Abandoned e gone h o i
  waits : o ∈ i.collector.mature.contents
  mature_subset : c.mature.contents ⊆ i.collector.mature.contents
  kept : ∀ x ∈ tinted g e.present, x ∈ tinted i.timed.heap e.present ∨ e.census.Reach o x
  tried : ∀ x ∈ c.filtered.contents, isPurple h x = true → x ∈ tinted i.timed.heap e.present ∨
    e.census.Reach o x ∨ x ∈ i.collector.filtered.contents

-- What trying the first candidate comes to. The other ones are in `q`.
structure Tried (e : Scope σ) (gone : Finset Nat) (h : σ) (i : Increment σ) (limit o : Nat)
    (q : Solo Nat) (finished : Bool) (i' : Increment σ) : Prop where
  filtered_eq : i'.collector.filtered = q
  done : finished = true → Greying e gone h i' ∧ i'.collector.mature = i.collector.mature ∧
    tinted i.timed.heap e.present ⊆ tinted i'.timed.heap e.present ∧
    (isPurple h o = true → o ∈ tinted i'.timed.heap e.present)
  broken : finished = false → Broken e gone h i.collector i.timed.heap o (i'.requeue o) ∧
    ∃ reads visits, limit < e.time reads visits

section Trying

variable (hi : Greying e gone h i) (he : e.Sound) (hgar : e.census.Garbage gone) {o : Nat}
  {q : Solo Nat} (hq : q.Valid) (hs : i.collector.filtered.contents = o :: q.contents) (limit : Nat)
include hi hgar hq hs

include he in
-- The candidate is marked.
theorem Greying.processGrey_purple (hcomplete : e.census.Complete gone)
    (hpurple : color i.timed.heap o = .purple) (hlive : isLive i.timed.heap o = true) :
    ∃ finished i', (i.onCollector fun c => { c with filtered := q }).processGrey limit o =
        .ok (finished, i') ∧ Tried e gone h i limit o q finished i' := by
  have hoq : o ∈ i.collector.queued := by simp [Collector.queued, hs]
  have hor := (hi.mem_present hoq).1
  obtain ⟨holive, hogone⟩ := hi.ledger.live_of_isPurple hgar hor
    (isPurple_iff.mpr ⟨(isLive_iff _ _).mp hlive, hpurple⟩)
  have hgrain : i.collector.settings.visitGrain ≠ 0 := hi.settings_eq ▸ he.grain
  obtain ⟨m, hmark, hspread⟩ := markGrey_ok hgrain limit he.consistent hgar
    (m := { timed := i.timed, visits := i.visits, greyed := i.stats.greyed }) hi.ledger
    hi.not_white holive hogone hi.closed
  cases hm : m.aborted with
  | false =>
    obtain ⟨hnext, hstart⟩ := hi.mark hcomplete hq hs hpurple hspread hm m.visits
      { i.stats with greyed := m.greyed }
    refine ⟨true, _, ?_, rfl, fun _ => ⟨hnext, rfl, hspread.grown, fun _ => hstart⟩, by simp⟩
    simp only [Increment.processGrey, Increment.onCollector, hpurple, hlive, beq_self_eq_true,
      Bool.and_self, if_true, hmark, ok_bind, hm, Bool.false_eq_true, if_false]
  | true =>
    obtain ⟨t, hback, hrecede⟩ := scanBlack_ok he.consistent hgar hspread.ledger hor
    obtain ⟨hnext, hkept⟩ := hi.abandon hcomplete hq hs hpurple hspread hrecede he.consistent holive
      hogone m.visits { i.stats with greyed := m.greyed, requeued := i.stats.requeued + 1 }
    refine ⟨false, { i with
        timed := t.onHeap (setColor · o .purple)
        visits := m.visits
        stats := { i.stats with greyed := m.greyed }
        collector := { i.collector with filtered := q } }, ?_, rfl, by simp,
      fun _ => ⟨⟨hnext, ?_, fun x hx => ?_, hkept, fun x hx _ => ?_⟩, ?_⟩⟩
    · simp only [Increment.processGrey, Increment.onCollector, hpurple, hlive, beq_self_eq_true,
        Bool.and_self, if_true, hmark, ok_bind, hm, Increment.undoGrey, hback]
    · exact Solo.contents_insert _ _ ▸ List.mem_append_right _ (List.mem_singleton_self o)
    · exact Solo.contents_insert _ _ ▸ List.mem_append_left _ hx
    · rcases List.mem_cons.mp (hs ▸ hx) with rfl | hx
      · exact Or.inr (Or.inl .refl)
      · exact Or.inr (Or.inr hx)
    · exact hi.time_eq ▸ hspread.late hm

-- The candidate is dropped, and listed as dead if nothing else will free it.
theorem Greying.processGrey_plain (hh : Ledger e.law e.census h e.present gone)
    (htry : ¬(color i.timed.heap o = .purple ∧ isLive i.timed.heap o = true)) :
    ∃ finished i', (i.onCollector fun c => { c with filtered := q }).processGrey limit o =
        .ok (finished, i') ∧ Tried e gone h i limit o q finished i' := by
  have hoq : o ∈ i.collector.queued := by simp [Collector.queued, hs]
  have hor := (hi.mem_present hoq).1
  have htry' : (color i.timed.heap o == .purple && isLive i.timed.heap o) = false := by
    rw [Bool.eq_false_iff]
    simpa using htry
  have hlost : isPurple h o = true → o ∈ tinted i.timed.heap e.present := by
    intro hp
    by_contra ht
    obtain ⟨holive, hogone⟩ := hh.live_of_isPurple hgar hor hp
    exact htry ⟨(hi.same o hor ht).trans (isPurple_iff.mp hp).2,
      (isLive_iff _ _).mpr (hi.guarded o holive hogone ht)⟩
  have hmarked : (!isLive i.timed.heap o && !isGreyOrWhite i.timed.heap o) = true ↔
      count i.timed.heap o = 0 ∧ o ∉ tinted i.timed.heap e.present := by
    rw [Bool.and_eq_true, Bool.not_eq_true', Bool.not_eq_true', isLive_eq_false_iff,
      Bool.eq_false_iff, ne_eq, isGreyOrWhite_iff, mem_tinted]
    simp [hor]
  have htint : tinted (clearBuffered i.timed.heap o) e.present = tinted i.timed.heap e.present :=
    tinted_congr fun x hx => e.law.color_clearBuffered hi.ledger.shows hor hx
  have hrun : (i.onCollector fun c => { c with filtered := q }).processGrey limit o =
      .ok (true, { i with
        timed := i.timed.onHeap (clearBuffered · o)
        dead := if !isLive i.timed.heap o && !isGreyOrWhite i.timed.heap o then o :: i.dead else i.dead
        collector := { i.collector with filtered := q } }) := by
    simp only [Increment.processGrey, Increment.onCollector, htry', if_false, Bool.false_eq_true]
    by_cases hd : (!isLive i.timed.heap o && !isGreyOrWhite i.timed.heap o) = true
    · rw [if_pos hd]
      exact if_pos hd
    · rw [if_neg hd]
      exact if_neg hd
  refine ⟨true, _, hrun, rfl, fun _ => ⟨hi.dismiss hgar hq hs ?_, rfl, htint.ge, fun hp =>
    htint.ge (hlost hp)⟩, by simp⟩
  by_cases hdead : count i.timed.heap o = 0 ∧ o ∉ tinted i.timed.heap e.present
  · exact Or.inr ⟨if_pos (hmarked.mpr hdead), hdead⟩
  · refine Or.inl ⟨if_neg (mt hmarked.mp hdead), ?_⟩
    rcases not_and_or.mp hdead with hpos | ht
    · exact Or.inl (Nat.pos_of_ne_zero hpos)
    · exact Or.inr (not_not.mp ht)

-- Trying one candidate.
include he in
theorem Greying.processGrey (hh : Ledger e.law e.census h e.present gone)
    (hcomplete : e.census.Complete gone) :
    ∃ finished i', (i.onCollector fun c => { c with filtered := q }).processGrey limit o =
        .ok (finished, i') ∧ Tried e gone h i limit o q finished i' := by
  by_cases htry : color i.timed.heap o = .purple ∧ isLive i.timed.heap o = true
  · exact hi.processGrey_purple he hgar hq hs limit hcomplete htry.1 htry.2
  · exact hi.processGrey_plain hgar hq hs limit hh htry

end Trying

-- What the marking phase comes to when it starts with the queues of `c` in heap `g` and no marking is
-- abandoned.
structure Marked (e : Scope σ) (gone : Finset Nat) (h : σ) (limit : Nat) (c : Collector) (g : σ)
    (i : Increment σ) : Prop where
  greying : Greying e gone h i
  mature_eq : i.collector.mature = c.mature
  grown : tinted g e.present ⊆ tinted i.timed.heap e.present
  tried : ∀ o ∈ c.filtered.contents, isPurple h o = true →
    o ∈ tinted i.timed.heap e.present ∨ o ∈ i.collector.filtered.contents
  shorter : i.collector.filtered.contents.length ≤ c.filtered.contents.length
  ended : i.collector.filtered.contents = [] ∨ ∃ reads visits, limit ≤ e.time reads visits

-- How the phase ends that starts with `i`.
structure Phased (e : Scope σ) (gone : Finset Nat) (h : σ) (limit : Nat) (i : Increment σ)
    (aborted : Bool) (i' : Increment σ) : Prop where
  greyed : Greyed e gone h i'
  broken : aborted = true → (∃ reads visits, limit < e.time reads visits) ∧
    ∃ o, Broken e gone h i.collector i.timed.heap o i'
  marked : aborted = false → Marked e gone h limit i.collector i.timed.heap i'
  less : aborted = false → i.visits < e.settings.visitBound → i.collector.filtered.contents ≠ [] →
    i'.collector.filtered.contents.length < i.collector.filtered.contents.length

-- A candidate that was tried before the rest of the phase.
theorem Tried.phased {limit o : Nat} {q : Solo Nat} {i₁ i' : Increment σ} {aborted : Bool}
    (hs : i.collector.filtered.contents = o :: q.contents)
    (ht : Tried e gone h i limit o q true i₁) (hp : Phased e gone h limit i₁ aborted i') :
    Phased e gone h limit i aborted i' := by
  obtain ⟨-, hmature, hgrown, hmarked⟩ := ht.done rfl
  have hmem : ∀ x ∈ i.collector.filtered.contents, x = o ∨ x ∈ i₁.collector.filtered.contents :=
    fun x hx => List.mem_cons.mp (by rwa [ht.filtered_eq, ← hs])
  refine ⟨hp.greyed, fun ha => ?broken, fun ha => ?marked, fun ha _ _ => ?less⟩
  case broken =>
    obtain ⟨hlate, b, hb⟩ := hp.broken ha
    refine ⟨hlate, b, hb.abandoned, hb.waits, hmature ▸ hb.mature_subset,
      fun x hx => hb.kept x (hgrown hx), fun x hx hpurple => ?_⟩
    rcases hmem x hx with rfl | hx
    · exact (hb.kept x (hmarked hpurple)).imp_right Or.inl
    · exact hb.tried x hx hpurple
  all_goals
    have hm := hp.marked ha
    have hshort := hm.shorter
    rw [ht.filtered_eq] at hshort
    have hlen := congrArg List.length hs
    rw [List.length_cons] at hlen
  case marked =>
    refine ⟨hm.greying, hm.mature_eq.trans hmature, hgrown.trans hm.grown, fun x hx hpurple => ?_,
      by omega, hm.ended⟩
    rcases hmem x hx with rfl | hx
    · exact Or.inl (hm.grown (hmarked hpurple))
    · exact hm.tried x hx hpurple
  case less => omega

namespace Greying

-- Reading the clock, or starting to count visits again, changes nothing else.
theorem read (hi : Greying e gone h i) (clock : Clock) (hc : clock.time = i.timed.clock.time)
    (visits : Nat) : Greying e gone h { i with timed := { i.timed with clock }, visits } :=
  { hi with time_eq := hc.trans hi.time_eq }

-- No candidate is left.
theorem finish (hi : Greying e gone h i) {q : Solo Nat} (hq : q.Valid)
    (hs : i.collector.filtered.contents = []) (hempty : q.contents = []) :
    Greying e gone h (i.onCollector fun c => { c with filtered := q }) :=
  hi.congr (hi.onCollector (by simp only [Collector.queued, hempty, hs])
    { hi.valid with filtered := hq } rfl rfl)
    (fun _ _ => rfl) (fun _ _ => rfl) rfl rfl

-- A loop that may go on counts visits from zero again.
theorem markGreyPhase_resume (i : Increment σ) (hb : i.collector.settings.visitBound ≠ 0)
    (hv : i.collector.settings.visitBound ≤ i.visits) {limit : Nat}
    (hl : ¬limit ≤ i.timed.clock.now.1) (steps : Nat) :
    i.markGreyPhase limit (steps + 1) =
      { i.now.2 with visits := 0 }.markGreyPhase limit (steps + 1) := by
  have hv1 : ¬i.visits < i.collector.settings.visitBound := by omega
  have hv2 : ¬i.now.2.visits < i.collector.settings.visitBound := hv1
  have hpos : 0 < i.now.2.collector.settings.visitBound := Nat.pos_of_ne_zero hb
  have hpos' : ¬i.now.2.collector.settings.visitBound ≤ 0 := by omega
  rw [Increment.markGreyPhase, Increment.markGreyPhase]
  simp only [if_neg hv1, if_neg hv2, if_pos hpos, hpos', false_and, if_false]
  exact if_neg fun hx => hl hx.2

section Phase

variable (he : e.Sound) (hh : Ledger e.law e.census h e.present gone)
  (hgar : e.census.Garbage gone) (hcomplete : e.census.Complete gone) {limit : Nat}
include he hh hgar hcomplete

-- The loop before it looks at the clock.
theorem markGreyPhase_try {steps : Nat} (hi : Greying e gone h i)
    (hv : i.visits < i.collector.settings.visitBound)
    (hrest : ∀ j, Greying e gone h j → j.collector.filtered.contents.length + 1 =
        i.collector.filtered.contents.length →
      ∃ aborted i', j.markGreyPhase limit steps = .ok (aborted, i') ∧
        Phased e gone h limit j aborted i') :
    ∃ aborted i', i.markGreyPhase limit (steps + 1) = .ok (aborted, i') ∧
      Phased e gone h limit i aborted i' := by
  have hv' : ¬i.collector.settings.visitBound ≤ i.visits := not_le.mpr hv
  rw [Increment.markGreyPhase]
  simp only [if_pos hv, hv', false_and, if_false]
  cases hs : i.collector.filtered.contents with
  | nil =>
    obtain ⟨q, hpop, hq, hempty⟩ := hi.valid.filtered.pop_nil hs
    have hnext := hi.finish hq hs hempty
    refine ⟨false, _, by rw [hpop], hnext.toGreyed, by simp, fun _ => ?_, fun _ _ hne => absurd hs hne⟩
    refine ⟨hnext, rfl, le_refl _, by simp [hs], ?_, Or.inl hempty⟩
    change q.contents.length ≤ _
    simp [hempty]
  | cons o rest =>
    obtain ⟨q, hpop, hq, rfl⟩ := hi.valid.filtered.pop_cons hs
    obtain ⟨finished, i₁, hgrey, ht⟩ := hi.processGrey he hgar hq hs limit hh hcomplete
    rw [hpop]
    simp only [hgrey, ok_bind]
    cases finished with
    | false =>
      obtain ⟨hbroken, hlate⟩ := ht.broken rfl
      exact ⟨true, _, rfl, hbroken.abandoned.toGreyed, fun _ => ⟨hlate, o, hbroken⟩, by simp, by simp⟩
    | true =>
      obtain ⟨aborted, i', hrun, hp⟩ := hrest i₁ (ht.done rfl).1 (by
        rw [ht.filtered_eq, hs, List.length_cons])
      exact ⟨aborted, i', hrun, ht.phased hs hp⟩

-- The marking phase ends with the last candidate, at the time limit or with an abandoned marking.
theorem markGreyPhase (limit steps : Nat) (hi : Greying e gone h i)
    (hsteps : i.collector.filtered.contents.length < steps) :
    ∃ aborted i', i.markGreyPhase limit steps = .ok (aborted, i') ∧
      Phased e gone h limit i aborted i' := by
  induction steps generalizing i with
  | zero => omega
  | succ steps ih =>
    have hrest : ∀ j, Greying e gone h j → j.collector.filtered.contents.length + 1 =
        i.collector.filtered.contents.length → _ := fun j hj hlen => ih hj (by omega)
    by_cases hv : i.visits < i.collector.settings.visitBound
    · exact hi.markGreyPhase_try he hh hgar hcomplete hv hrest
    · have hv' : i.collector.settings.visitBound ≤ i.visits := not_lt.mp hv
      have hslow : ¬i.visits < e.settings.visitBound := hi.settings_eq ▸ hv
      have hread := hi.read i.timed.clock.now.2 rfl
      by_cases hl : limit ≤ i.timed.clock.now.1
      · refine ⟨false, _, ?_, (hread i.visits).toGreyed, by simp, fun _ => ?_,
          fun _ hx => absurd hx hslow⟩
        · rw [Increment.markGreyPhase]
          simp only [if_neg hv]
          exact if_pos ⟨hv', hl⟩
        · refine ⟨hread i.visits, rfl, le_refl _, fun o ho _ => Or.inr ho, le_refl _, Or.inr ?_⟩
          exact ⟨i.timed.clock.reads, i.timed.clock.visits, hi.time_eq ▸ hl⟩
      · have hb : i.collector.settings.visitBound ≠ 0 := hi.settings_eq ▸ he.bound
        obtain ⟨aborted, i', hrun, hp⟩ := (hread 0).markGreyPhase_try he hh hgar hcomplete
          (Nat.pos_of_ne_zero hb) hrest
        rw [markGreyPhase_resume i hb hv' hl]
        exact ⟨aborted, i', hrun, hp.greyed, hp.broken, hp.marked, fun _ hx => absurd hx hslow⟩

end Phase

end Greying

end Reclaim.Trial
