import Reclaim.Proofs.Trial.Recoloring
import Reclaim.Proofs.Trial.Safety

/-!
Increments end on every graph. Filter passes and phases work queues off; a round that is not given up
leaves fewer mature and filtered candidates than it found, so there are at most as many rounds as these.
-/
namespace Reclaim.Trial

open CountedHeap Queue Trial.Graph

variable {E : Fault → Prop} {g : Graph} {settings : Settings} {limit : Nat}

-- A filter pass under way in graph `g` that takes candidates from `source` and adds them to `target`.
structure Sifted (source target : List Nat) (g : Graph) (s : Sieve Graph) : Prop where
  source_valid : s.source.Valid
  target_valid : s.target.Valid
  heap : Recolored [] g s.timed.heap
  mem : ∀ x ∈ s.source.contents ++ s.target.contents, x ∈ source ++ target
  length_eq : s.source.contents.length + s.taken = source.length
  length_le : s.target.contents.length ≤ target.length + s.taken

namespace Sifted

variable {source target : List Nat} {s : Sieve Graph} (hi : Sifted source target g s)
include hi

theorem settle {o : Nat} {rest : List Nat} {q : Solo Nat} (hq : q.Valid)
    (hs : s.source.contents = o :: rest) (hrest : q.contents = rest) :
    Sifted source target g ({ s with source := q, taken := s.taken + 1 }.settle o) := by
  have hmem : ∀ x, x = o ∨ x ∈ q.contents ++ s.target.contents → x ∈ source ++ target := fun x hx =>
    hi.mem x (by rw [hs, ← hrest]; simpa using hx)
  have hlength : q.contents.length + (s.taken + 1) = source.length := by
    rw [← hi.length_eq, hs, hrest, List.length_cons]
    omega
  have hle := hi.length_le
  have hcleared := hi.heap.trans (recolored_clearBuffered s.timed.heap o)
  unfold Sieve.settle
  split
  · exact ⟨hq, hi.target_valid, hcleared, fun x hx => hmem x (Or.inr hx), hlength, by simp only; omega⟩
  · split
    · refine ⟨hq, hi.target_valid.insert o, hi.heap, fun x hx => hmem x ?_, hlength, ?_⟩
      · simp only [Solo.contents_insert, List.mem_append, List.mem_singleton] at hx ⊢
        tauto
      · simp only [Solo.contents_insert, List.length_append, List.length_singleton]
        omega
    · exact ⟨hq, hi.target_valid, hcleared, fun x hx => hmem x (Or.inr hx), hlength, by simp only; omega⟩

variable (hgreen : ∀ o ∈ source ++ target, color g o = .green → E .assertion)
include hgreen

theorem batch (n : Nat) : Concludes E (Sieve.batch n s) fun r => Sifted source target g r.2 ∧
    (r.1 = true → r.2.source.contents = []) ∧ (r.1 = false → r.2.taken = s.taken + n) := by
  induction n generalizing s with
  | zero => exact .ok ⟨hi, fun h => absurd h Bool.false_ne_true, fun _ => rfl⟩
  | succ n ih =>
    rw [Sieve.batch]
    cases hs : s.source.contents with
    | nil =>
      obtain ⟨q, hpop, hq, hempty⟩ := hi.source_valid.pop_nil hs
      rw [hpop]
      refine .ok ⟨⟨hq, hi.target_valid, hi.heap, fun x hx => hi.mem x ?_, ?_, hi.length_le⟩,
        fun _ => hempty, fun h => absurd h.symm Bool.false_ne_true⟩
      · rwa [hs, ← hempty]
      · rw [hempty, ← hs]
        exact hi.length_eq
    | cons o rest =>
      obtain ⟨q, hpop, hq, hrest⟩ := hi.source_valid.pop_cons hs
      have hnext := hi.settle hq hs hrest
      have htaken : ({ s with source := q, taken := s.taken + 1 }.settle o).taken = s.taken + 1 := by
        unfold Sieve.settle
        split <;> [skip; split] <;> rfl
      rw [hpop]
      simp only
      split
      · rename_i hcolor
        refine .error (hgreen o (hi.mem o ?_) (hi.heap.green List.not_mem_nil (beq_iff_eq.mp hcolor)))
        rw [hs]
        exact List.mem_append_left _ List.mem_cons_self
      · refine (ih hnext).mono fun r hr => ⟨hr.1, hr.2.1, fun hf => ?_⟩
        rw [hr.2.2 hf, htaken]
        omega

theorem run (hbound : settings.filterBound ≠ 0) (limit steps : Nat)
    (hsteps : s.source.contents.length < steps) :
    Concludes E (Sieve.run settings limit steps s) fun s' => Sifted source target g s' ∧
      (s'.source.contents = [] ∨ s.taken < s'.taken) := by
  induction steps generalizing s with
  | zero => omega
  | succ steps ih =>
    rw [Sieve.run]
    refine (hi.batch hgreen settings.filterBound).bind ?_
    rintro ⟨exhausted, s₁⟩ ⟨h₁, hend, hmore⟩
    cases exhausted with
    | true => exact .ok ⟨h₁, Or.inl (hend rfl)⟩
    | false =>
      have htaken := hmore rfl
      have hread : Sifted source target g { s₁ with timed := s₁.timed.now.2 } := { h₁ with }
      have hlength := hi.length_eq
      have hlength₁ := h₁.length_eq
      simp only at htaken hlength₁
      simp only [Bool.false_eq_true, if_false]
      split
      · exact .ok ⟨hread, Or.inr (by simp only; omega)⟩
      · refine (ih hread ?_).mono fun s' h' => ⟨h'.1, h'.2.imp_right fun hlt => ?_⟩
        · simp only
          omega
        · simp only at hlt
          omega

end Sifted

-- A filter pass takes some candidate, unless it was given none.
theorem filterQueue_ends (hbound : settings.filterBound ≠ 0) (limit : Nat) {source target : Solo Nat}
    (hsource : source.Valid) (htarget : target.Valid) (dead : List Nat) (t : Timed Graph)
    (hgreen : ∀ o ∈ source.contents ++ target.contents, color t.heap o = .green → E .assertion) :
    Concludes E (filterQueue settings limit source target dead t) fun s =>
      Sifted source.contents target.contents t.heap s ∧ (s.source.contents = [] ∨ 0 < s.taken) := by
  have hi : Sifted source.contents target.contents t.heap { source, target, dead, timed := t } :=
    ⟨hsource, htarget, .refl [] _, fun _ hx => hx, rfl, le_refl _⟩
  exact hi.run hgreen hbound limit _ source.length_contents_lt

-- An increment under way, with some candidates in no queue. If a candidate is green, `E` holds of a
-- failed assertion.
structure Underway (E : Fault → Prop) (settings : Settings) (hand : List Nat) (i : Increment Graph) :
    Prop where
  valid : i.collector.Valid
  settings_eq : i.collector.settings = settings
  green : ∀ o ∈ hand ++ i.collector.queued, color i.timed.heap o = .green → E .assertion

namespace Underway

variable {hand hand' : List Nat} {i i' : Increment Graph} {tints : List Color}

-- Objects turn to colours other than green, and candidates are moved or dropped.
theorem next (hi : Underway E settings hand i) (hvalid : i'.collector.Valid)
    (hset : i'.collector.settings = i.collector.settings)
    (hheap : Recolored tints i.timed.heap i'.timed.heap) (htints : .green ∉ tints)
    (hmem : ∀ x ∈ hand' ++ i'.collector.queued, x ∈ hand ++ i.collector.queued) :
    Underway E settings hand' i' where
  valid := hvalid
  settings_eq := hset.trans hi.settings_eq
  green o ho hcolor := hi.green o (hmem o ho) (hheap.green htints hcolor)

-- Looking at the clock, and keeping count, is not much of a change.
theorem look (hi : Underway E settings hand i) (hcollector : i'.collector = i.collector)
    (hheap : i'.timed.heap = i.timed.heap) : Underway E settings hand i' := by
  have hsame : Recolored [] i.timed.heap i'.timed.heap := hheap ▸ .refl [] _
  refine hi.next (hcollector ▸ hi.valid) (by rw [hcollector]) hsame List.not_mem_nil fun x hx => ?_
  rwa [hcollector] at hx

section Filter

variable (hi : Underway E settings [] i) (hfilter : settings.filterBound ≠ 0)
include hi hfilter

theorem filterNew (limit : Nat) : Concludes E (i.filterNew limit) fun i' =>
    Underway E settings [] i' ∧ i'.collector.filtered = i.collector.filtered := by
  rw [Increment.filterNew]
  refine (filterQueue_ends (hi.settings_eq ▸ hfilter) limit hi.valid.unfiltered hi.valid.mature i.dead
    i.timed fun o ho => hi.green o ?_).bind ?_
  · simp only [Collector.queued, List.nil_append, List.mem_append] at ho ⊢
    tauto
  rintro s ⟨hs, -⟩
  refine .ok ⟨hi.next ?_ rfl hs.heap List.not_mem_nil fun x hx => ?_, rfl⟩
  · exact { hi.valid with unfiltered := hs.source_valid, mature := hs.target_valid }
  · have hmem := hs.mem x
    simp only [Increment.countFiltered, Collector.queued, List.nil_append, List.mem_append] at hx hmem ⊢
    tauto

-- Some candidate passes the filter, unless fewer candidates are left.
theorem filterMature (limit : Nat) : Concludes E (i.filterMature limit) fun i' =>
    Underway E settings [] i' ∧ i'.collector.ready.length ≤ i.collector.ready.length ∧
      (i.collector.mature.contents ≠ [] → i'.collector.filtered.contents ≠ [] ∨
        i'.collector.ready.length < i.collector.ready.length) := by
  rw [Increment.filterMature]
  refine (filterQueue_ends (hi.settings_eq ▸ hfilter) limit hi.valid.mature hi.valid.filtered i.dead
    i.timed fun o ho => hi.green o ?_).bind ?_
  · simp only [Collector.queued, List.nil_append, List.mem_append] at ho ⊢
    tauto
  rintro s ⟨hs, htaken⟩
  refine .ok ⟨hi.next ?_ rfl hs.heap List.not_mem_nil fun x hx => ?_, ?_, fun hne => ?_⟩
  · exact { hi.valid with mature := hs.source_valid, filtered := hs.target_valid }
  · have hmem := hs.mem x
    simp only [Increment.countFiltered, Collector.queued, List.nil_append, List.mem_append] at hx hmem ⊢
    tauto
  · have heq := hs.length_eq
    have hle := hs.length_le
    simp only [Increment.countFiltered, Collector.ready, List.length_append]
    omega
  · have heq := hs.length_eq
    have hpos := List.length_pos_iff.mpr hne
    rw [← List.length_pos_iff]
    simp only [Increment.countFiltered, Collector.ready, List.length_append]
    rcases htaken with hnil | hlt
    · rw [hnil, List.length_nil] at heq
      rw [hnil, List.length_nil]
      omega
    · omega

end Filter

-- Nodes of graphs stay where they are.
theorem processFree (hi : Underway E settings hand i) : ∃ i', i.processFree = .ok i' ∧
    Underway E settings hand i' ∧ i'.collector = i.collector := by
  obtain ⟨g, hfree, rfl⟩ := foldlM_ok (f := CountedHeap.free) (fun _ g => g = i.timed.heap)
    (fun _ _ g hg => ⟨g, rfl, hg⟩) i.dead i.timed.heap rfl
  exact ⟨_, bind_eq_ok.mpr ⟨_, hfree, rfl⟩, hi.look rfl rfl, rfl⟩

-- A candidate is taken from the filtered queue.
theorem take {o : Nat} {q : Solo Nat} (hi : Underway E settings [] i) (hq : q.Valid)
    (hs : i.collector.filtered.contents = o :: q.contents) :
    Underway E settings [o] (i.onCollector fun c => { c with filtered := q }) := by
  have hv := hi.valid
  refine hi.next { hv with filtered := hq } rfl (.refl [] _) List.not_mem_nil
    fun x hx => ?_
  simp only [Increment.onCollector, Collector.queued, hs, List.nil_append, List.mem_append,
    List.mem_cons] at hx ⊢
  tauto

section Mark

variable (hunderflow : ∀ f, Fault.IsUnderflow f → E f) (hgrain : settings.visitGrain ≠ 0)
include hunderflow hgrain

theorem processGrey {o : Nat} (hi : Underway E settings [o] i) (limit : Nat) :
    Concludes E (i.processGrey limit o) fun r => Underway E settings [o] r.2 ∧
      r.2.collector.mature = i.collector.mature ∧ r.2.collector.filtered = i.collector.filtered := by
  have hv := hi.valid
  rw [Increment.processGrey]
  simp only
  split
  · have hmark := markGrey_ends (hi.settings_eq ▸ hgrain) limit o
      { timed := i.timed, visits := i.visits, greyed := i.stats.greyed }
    refine (hmark.mono_fault hunderflow).bind fun m hgrey => ?_
    split
    · obtain ⟨t, hback, hblack⟩ := scanBlack_ends o m.timed
      refine .of_ok (bind_eq_ok.mpr ⟨_, bind_eq_ok.mpr ⟨t, hback, rfl⟩, rfl⟩) ⟨?_, rfl, rfl⟩
      have hheap : Recolored [.grey, .black, .purple] i.timed.heap (setColor t.heap o .purple) :=
        (hgrey.mono (by simp)).trans ((hblack.mono (by simp)).trans (recolored_setColor _ o (by simp)))
      exact hi.next hv rfl hheap (by decide) fun _ hx => hx
    · refine .ok ⟨hi.next { hv with cycleA := hv.cycleA.push o } rfl hgrey
        (by decide) fun x hx => ?_, rfl, rfl⟩
      simp only [Increment.onCollector, Collector.queued, Solo.contents_push, List.mem_append,
        List.mem_cons, List.not_mem_nil, or_false] at hx ⊢
      tauto
  · have hcleared : Recolored [] i.timed.heap (clearBuffered i.timed.heap o) :=
      recolored_clearBuffered i.timed.heap o
    split
    · exact .ok ⟨hi.next hv rfl hcleared List.not_mem_nil fun _ hx => hx, rfl, rfl⟩
    · exact .ok ⟨hi.next hv rfl hcleared List.not_mem_nil fun _ hx => hx, rfl, rfl⟩

-- The next candidate is taken from the filtered queue, and put back only if it is given up.
theorem attempt (hi : Underway E settings [] i) (limit : Nat)
    {next : Increment Graph → Except Fault (Bool × Increment Graph)}
    (hnext : ∀ j, Underway E settings [] j →
      j.collector.filtered.contents.length < i.collector.filtered.contents.length →
      Concludes E (next j) fun r => Underway E settings [] r.2 ∧
        (r.1 = false → r.2.collector.ready.length ≤ j.collector.ready.length)) :
    Concludes E (match i.collector.filtered.pop with
      | (none, q) => .ok (false, i.onCollector fun c => { c with filtered := q })
      | (some o, q) => do
        let (finished, i) ← (i.onCollector fun c => { c with filtered := q }).processGrey limit o
        if finished then next i else .ok (true, i.requeue o))
    fun r => Underway E settings [] r.2 ∧ (r.1 = false →
      r.2.collector.ready.length ≤ i.collector.ready.length ∧
      (i.collector.filtered.contents ≠ [] →
        r.2.collector.ready.length < i.collector.ready.length)) := by
  have hv := hi.valid
  cases hs : i.collector.filtered.contents with
  | nil =>
    obtain ⟨q, hpop, hq, hempty⟩ := hv.filtered.pop_nil hs
    rw [hpop]
    refine .ok ⟨hi.next { hv with filtered := hq } rfl (.refl [] _)
      List.not_mem_nil fun x hx => ?_, fun _ => ⟨?_, fun hne => absurd rfl hne⟩⟩
    · simpa only [Increment.onCollector, Collector.queued, hempty, hs] using hx
    · simp only [Increment.onCollector, Collector.ready, hempty, hs, le_refl]
  | cons o rest =>
    obtain ⟨q, hpop, hq, rfl⟩ := hv.filtered.pop_cons hs
    rw [hpop]
    refine ((hi.take hq hs).processGrey hunderflow hgrain limit).bind ?_
    rintro ⟨finished, j⟩ ⟨hj, hmature, hfiltered⟩
    have hless : j.collector.ready.length < i.collector.ready.length := by
      rw [Collector.ready, hmature, hfiltered, Collector.ready, hs]
      simp only [Increment.onCollector, List.length_append, List.length_cons]
      omega
    cases finished with
    | true =>
      have hj' : Underway E settings [] j := hj.next hj.valid rfl (.refl [] _) List.not_mem_nil
        fun x hx => List.mem_append_right _ hx
      refine (hnext j hj' ?_).mono fun r hr => ⟨hr.1, fun hf => ?_⟩
      · rw [hs, hfiltered]
        exact Nat.lt_succ_self _
      · exact ⟨(hr.2 hf).trans hless.le, fun _ => (hr.2 hf).trans_lt hless⟩
    | false =>
      have hv := hj.valid
      refine .ok ⟨hj.next { hv with mature := hv.mature.insert o } rfl
        (.refl [] _) List.not_mem_nil fun x hx => ?_, fun h => absurd h.symm Bool.false_ne_true⟩
      simp only [Increment.requeue, Collector.queued, Solo.contents_insert, List.nil_append,
        List.mem_append, List.mem_cons, List.not_mem_nil, or_false] at hx ⊢
      tauto

theorem markGreyPhase (hi : Underway E settings [] i) (limit steps : Nat)
    (hsteps : i.collector.filtered.contents.length < steps) :
    Concludes E (i.markGreyPhase limit steps) fun r => Underway E settings [] r.2 ∧
      (r.1 = false → r.2.collector.ready.length ≤ i.collector.ready.length ∧
        (i.visits < settings.visitBound → i.collector.filtered.contents ≠ [] →
          r.2.collector.ready.length < i.collector.ready.length)) := by
  induction steps generalizing i with
  | zero => omega
  | succ steps ih =>
    have hnext : ∀ j, Underway E settings [] j →
        j.collector.filtered.contents.length < i.collector.filtered.contents.length →
        Concludes E (j.markGreyPhase limit steps) fun r => Underway E settings [] r.2 ∧
          (r.1 = false → r.2.collector.ready.length ≤ j.collector.ready.length) := fun j hj hlt =>
      (ih hj (by omega)).mono fun r hr => ⟨hr.1, fun hf => (hr.2 hf).1⟩
    rw [Increment.markGreyPhase]
    by_cases hvisits : i.visits < settings.visitBound
    · have hnot : ¬(settings.visitBound ≤ i.visits ∧ limit ≤ 0) := fun h =>
        absurd hvisits (not_lt.mpr h.1)
      simp only [hi.settings_eq, if_pos hvisits, if_neg hnot]
      exact (hi.attempt hunderflow hgrain limit hnext).mono fun r hr =>
        ⟨hr.1, fun hf => (hr.2 hf).imp_right fun hlt _ => hlt⟩
    · have hread : Underway E settings [] { i.now.2 with visits := 0 } := hi.look rfl rfl
      simp only [hi.settings_eq, if_neg hvisits]
      split
      · exact .ok ⟨hi.look rfl rfl, fun _ => ⟨le_refl _, fun h => absurd h hvisits⟩⟩
      · have hnot : ¬i.now.2.visits < settings.visitBound := hvisits
        rw [if_neg hnot]
        exact (hread.attempt hunderflow hgrain limit hnext).mono fun r hr =>
          ⟨hr.1, fun hf => (hr.2 hf).imp_right fun hlt _ => hlt⟩

end Mark

-- What is scanned and what is collected is in no queue of candidates.
theorem scanPhase (hi : Underway E settings [] i) (steps : Nat)
    (hsteps : i.collector.cycleA.contents.length < steps) :
    ∃ i', i.scanPhase steps = .ok i' ∧ Underway E settings [] i' ∧
      i'.collector.ready = i.collector.ready := by
  have hv := hi.valid
  induction steps generalizing i with
  | zero => omega
  | succ steps ih =>
    rw [Increment.scanPhase]
    cases hs : i.collector.cycleA.contents with
    | nil =>
      obtain ⟨q, hpop, hq, hempty⟩ := hv.cycleA.pop_nil hs
      rw [hpop]
      refine ⟨_, rfl, hi.next { hv with cycleA := hq } rfl (.refl [] _)
        List.not_mem_nil fun x hx => ?_, rfl⟩
      simpa only [Increment.onCollector, Collector.queued, hempty, hs] using hx
    | cons o rest =>
      obtain ⟨q, hpop, hq, rfl⟩ := hv.cycleA.pop_cons hs
      obtain ⟨t, hscan, hheap⟩ := scan_ends o i.timed
      have hnext : Underway E settings [] { i with
          timed := t
          collector := { i.collector with cycleA := q, cycleB := i.collector.cycleB.push o } } := by
        refine hi.next { hv with cycleA := hq, cycleB := hv.cycleB.push o } rfl hheap
          (by decide) fun x hx => ?_
        simp only [Collector.queued, Solo.contents_push, hs, List.nil_append, List.mem_append,
          List.mem_cons] at hx ⊢
        tauto
      rw [hs, List.length_cons] at hsteps
      obtain ⟨i', hrun, hi', hready⟩ := ih hnext (Nat.lt_of_succ_lt_succ hsteps) hnext.valid
      rw [hpop]
      exact ⟨i', bind_eq_ok.mpr ⟨t, hscan, hrun⟩, hi', hready⟩

theorem collectPhase (hi : Underway E settings [] i) (steps : Nat)
    (hsteps : i.collector.cycleB.contents.length < steps) :
    ∃ i', i.collectPhase steps = .ok i' ∧ Underway E settings [] i' ∧
      i'.collector.ready = i.collector.ready := by
  have hv := hi.valid
  induction steps generalizing i with
  | zero => omega
  | succ steps ih =>
    rw [Increment.collectPhase]
    cases hs : i.collector.cycleB.contents with
    | nil =>
      obtain ⟨q, hpop, hq, hempty⟩ := hv.cycleB.pop_nil hs
      rw [hpop]
      refine ⟨_, rfl, hi.next { hv with cycleB := hq } rfl (.refl [] _)
        List.not_mem_nil fun x hx => ?_, rfl⟩
      simpa only [Increment.onCollector, Collector.queued, hempty, hs] using hx
    | cons o rest =>
      obtain ⟨q, hpop, hq, rfl⟩ := hv.cycleB.pop_cons hs
      obtain ⟨s, hcollect, hblack⟩ := collectWhite_ends o
        { timed := i.timed.onHeap (clearBuffered · o), dead := i.dead, deferred := i.deferred }
      have hheap : Recolored [.black] i.timed.heap s.timed.heap :=
        (recolored_clearBuffered i.timed.heap o).trans hblack
      have hnext : Underway E settings [] { i with
          timed := s.timed, dead := s.dead, deferred := s.deferred
          collector := { i.collector with cycleB := q } } := by
        refine hi.next { hv with cycleB := hq } rfl hheap (by decide)
          fun x hx => ?_
        simp only [Collector.queued, hs, List.nil_append, List.mem_append, List.mem_cons] at hx ⊢
        tauto
      rw [hs, List.length_cons] at hsteps
      obtain ⟨i', hrun, hi', hready⟩ := ih hnext (Nat.lt_of_succ_lt_succ hsteps) hnext.valid
      rw [hpop]
      exact ⟨i', bind_eq_ok.mpr ⟨s, hcollect, hrun⟩, hi', hready⟩

section Round

variable (hunderflow : ∀ f, Fault.IsUnderflow f → E f) (hgrain : settings.visitGrain ≠ 0)
  (hvisits : settings.visitBound ≠ 0)
include hunderflow hgrain hvisits

-- The phases of a round, after the filtered queue was filled.
theorem phases (hi : Underway E settings [] i) (deadline : Nat) :
    Concludes E (do
      let (start, i) := { i with stage := .markGrey, visits := 0 }.now
      let limit := start + markGreyShare (deadline - start)
      let (aborted, i) ← i.markGreyPhase limit (i.collector.filtered.length + 1)
      let i := { i with stage := .scan }
      let i ← i.scanPhase (i.collector.cycleA.length + 1)
      let i := { i with stage := .collect }
      let i ← i.collectPhase (i.collector.cycleB.length + 1)
      .ok (aborted, { i with stage := .free })) fun r => Underway E settings [] r.2 ∧
        (r.1 = false → r.2.collector.ready.length ≤ i.collector.ready.length ∧
          (i.collector.filtered.contents ≠ [] →
            r.2.collector.ready.length < i.collector.ready.length)) := by
  have hstart : Underway E settings [] { i with stage := .markGrey, visits := 0 }.now.2 :=
    hi.look rfl rfl
  refine (hstart.markGreyPhase hunderflow hgrain _ _ (Solo.length_contents_lt _)).bind ?_
  rintro ⟨aborted, j⟩ ⟨hj, hless⟩
  have hj : Underway E settings [] { j with stage := .scan } := hj.look rfl rfl
  obtain ⟨j₁, hscan, hj₁, hready₁⟩ := hj.scanPhase _ j.collector.cycleA.length_contents_lt
  have hj₁ : Underway E settings [] { j₁ with stage := .collect } := hj₁.look rfl rfl
  obtain ⟨j₂, hcollect, hj₂, hready₂⟩ := hj₁.collectPhase _ j₁.collector.cycleB.length_contents_lt
  refine .of_ok (bind_eq_ok.mpr ⟨j₁, hscan, bind_eq_ok.mpr ⟨j₂, hcollect, rfl⟩⟩)
    ⟨hj₂.look rfl rfl, fun hf => ?_⟩
  have hready : j₂.collector.ready = j.collector.ready := hready₂.trans hready₁
  rw [hready]
  exact (hless hf).imp_right fun hlt => hlt (Nat.pos_of_ne_zero hvisits)

variable (hfilter : settings.filterBound ≠ 0)
include hfilter

-- A round that is not given up uses up a candidate.
theorem tryRoots (hi : Underway E settings [] i) (deadline : Nat) :
    Concludes E (i.tryRoots deadline) fun r => Underway E settings [] r.2 ∧
      (r.1 = false → i.collector.mature.contents ≠ [] →
        r.2.collector.ready.length < i.collector.ready.length) := by
  rw [Increment.tryRoots]
  simp only
  split
  · have hread : Underway E settings [] { i with stage := .matureFilter }.now.2 := hi.look rfl rfl
    refine (hread.filterMature hfilter _).bind ?_
    rintro j ⟨hj, hle, hmore⟩
    refine (hj.phases hunderflow hgrain hvisits deadline).mono fun r hr => ⟨hr.1, fun hf hne => ?_⟩
    obtain ⟨hle', hlt⟩ := hr.2 hf
    rcases hmore hne with hsome | hfewer
    · exact (hlt hsome).trans_le hle
    · exact hle'.trans_lt hfewer
  · rename_i hsome
    have hready : Underway E settings [] { i with stage := .matureFilter } := hi.look rfl rfl
    exact (hready.phases hunderflow hgrain hvisits deadline).mono fun r hr =>
      ⟨hr.1, fun hf _ => (hr.2 hf).2 fun hnil => hsome (hi.valid.filtered.isEmpty_iff.mpr hnil)⟩

theorem collectSome (hi : Underway E settings [] i) (deadline : Nat) :
    Concludes E (i.collectSome deadline) fun r => Underway E settings [] r.2 ∧
      (r.1 = false → i.collector.mature.contents ≠ [] →
        r.2.collector.ready.length < i.collector.ready.length) := by
  refine (hi.tryRoots hunderflow hgrain hvisits hfilter deadline).bind ?_
  rintro ⟨aborted, j⟩ ⟨hj, hless⟩
  obtain ⟨j', hfree, hj', hcollector⟩ := hj.processFree
  exact .of_ok (bind_eq_ok.mpr ⟨j', hfree, rfl⟩) ⟨hj', fun hf hne => hcollector ▸ hless hf hne⟩

-- There are no more rounds than candidates.
theorem detect (hi : Underway E settings [] i) (deadline steps : Nat)
    (hsteps : i.collector.ready.length < steps) :
    Concludes E (i.detect deadline steps) fun r => Underway E settings [] r.2 := by
  induction steps generalizing i with
  | zero => omega
  | succ steps ih =>
    rw [Increment.detect]
    split
    · exact .ok hi
    · rename_i hempty
      have hread : Underway E settings [] i.now.2 := hi.look rfl rfl
      have hne : i.collector.mature.contents ≠ [] := fun hnil =>
        hempty (hi.valid.mature.isEmpty_iff.mpr hnil)
      simp only
      split
      · refine (hread.collectSome hunderflow hgrain hvisits hfilter deadline).bind ?_
        rintro ⟨aborted, j⟩ ⟨hj, hless⟩
        cases aborted with
        | true => exact .ok hj
        | false => exact ih hj ((hless rfl hne).trans_le (Nat.le_of_lt_succ hsteps))
      · exact .ok hread

-- An increment that began without filtered candidates leaves none.
theorem act (hi : Underway E settings [] i) (available count deadline : Nat) :
    Concludes E (i.act available count deadline) fun r => i.collector.filtered.contents = [] →
      r.2.collector.filtered.contents = [] := by
  rw [Increment.act]
  simp only
  split
  · exact .ok id
  split
  · exact .ok id
  have hread : Underway E settings [] { i.now.2 with stage := .filter } := hi.look rfl rfl
  refine (hread.filterNew hfilter _).bind ?_
  rintro j ⟨hj, hfiltered⟩
  obtain ⟨j', hfree, hj', hcollector⟩ := hj.processFree
  simp only [hfree, ok_bind]
  split
  · refine .ok fun hnil => ?_
    rw [hcollector, hfiltered]
    exact hnil
  · have hstart : Underway E settings [] { j' with stats := { j'.stats with detected := true } } :=
      hj'.look rfl rfl
    refine (hstart.detect hunderflow hgrain hvisits hfilter deadline _ ?_).bind ?_
    · simp only [Collector.ready, List.length_append, Solo.length_eq]
      exact Nat.lt_succ_self _
    · rintro ⟨aborted, k⟩ hk
      obtain ⟨-, -, hempty, -⟩ := putBack_ok _ k.collector hk.valid
        k.collector.filtered.length_contents_lt
      exact .ok fun _ => hempty

end Round

end Underway

namespace Graph

-- The faults that an increment may end with: a count is lower than the references to an object, or a
-- candidate is green.
def Breaks (c : Collector) (g : Graph) (f : Fault) : Prop :=
  f.IsUnderflow ∨ f = .assertion ∧ ∃ o ∈ c.queued, color g o = .green

theorem underway {i : Increment Graph} (hv : i.collector.Valid) :
    Underway (Breaks i.collector i.timed.heap) i.collector.settings [] i :=
  ⟨hv, rfl, fun o ho hcolor => Or.inr ⟨rfl, o, by simpa using ho, hcolor⟩⟩

-- Whatever the colours and the counts of a graph are and whatever the clock shows: the traversals
-- end, a round that is not given up leaves fewer candidates to be tried, and an increment ends, with
-- a fault only if the graph and the queues are not as increments leave them.
theorem increments_end (settings : Settings) (hgrain : settings.visitGrain ≠ 0)
    (hvisits : settings.visitBound ≠ 0) (hfilter : settings.filterBound ≠ 0) :
    (∀ (m : Marking Graph) limit o,
      Concludes Fault.IsUnderflow (markGrey settings.visitGrain limit o m) fun _ => True) ∧
    (∀ (t : Timed Graph) o, (∃ t', scan o t = .ok t') ∧ (∃ t', scanBlack o t = .ok t') ∧
      ∀ dead deferred, ∃ s', collectWhite o { timed := t, dead, deferred } = .ok s') ∧
    (∀ (i : Increment Graph) deadline, i.collector.Valid → i.collector.settings = settings →
      Concludes (Breaks i.collector i.timed.heap) (i.collectSome deadline) fun r => r.1 = false →
        i.collector.mature.contents ≠ [] →
        r.2.collector.ready.length < i.collector.ready.length) ∧
    ∀ (c : Collector) (t : Timed Graph) available count deadline, c.Valid → c.settings = settings →
      Concludes (fun f => Breaks c t.heap f ∧ ¬t.heap.Coherent c) (c.runUntil available count deadline t)
        fun out => c.filtered.contents = [] → out.collector.filtered.contents = [] := by
  refine ⟨fun m limit o => (markGrey_ends hgrain limit o m).mono fun _ _ => trivial,
    fun t o => ⟨(scan_ends o t).imp fun _ h => h.1, (scanBlack_ends o t).imp fun _ h => h.1,
      fun dead deferred => (collectWhite_ends o _).imp fun _ h => h.1⟩, ?_, ?_⟩
  · rintro i deadline hv rfl
    exact ((underway hv).collectSome (fun _ => Or.inl) hgrain hvisits hfilter deadline).mono
      fun _ hr => hr.2
  · rintro c t available count deadline hv rfl
    have hact := (underway (i := { timed := t, collector := c }) hv).act (fun _ => Or.inl) hgrain hvisits
      hfilter available count deadline
    have hends : Concludes (Breaks c t.heap) (c.runUntil available count deadline t)
        fun out => c.filtered.contents = [] → out.collector.filtered.contents = [] :=
      hact.bind fun _ hnil => .ok hnil
    by_cases hg : t.heap.Coherent c
    · -- with the counts in order no increment fails
      have hready : Ready lawful t.heap.census False c t.heap := hg.ready nofun nofun
      obtain ⟨out, -, hrun, -⟩ := Collector.runUntil_ok hready
        ⟨hg.consistent, Or.inl rfl, hgrain, hvisits, hfilter⟩ available count deadline
      rw [hrun] at hends ⊢
      exact hends.imp_right fun h => by cases h.choose_spec.1
    · exact hends.mono_fault fun f hf => ⟨hf, hg⟩

end Graph

theorem increments_end_rings : ∃ out, ringCollector.runUntil 0 0 300 ⟨rings, .still 0⟩ = .ok out ∧
    out.collector.filtered.contents = [] := by
  obtain ⟨-, -, -, hends⟩ :=
    Graph.increments_end ringCollector.settings (by decide) (by decide) (by decide)
  rcases hends ringCollector ⟨rings, .still 0⟩ 0 0 300 coherent_rings.valid rfl with
    ⟨out, hrun, hempty⟩ | ⟨f, -, -, hnot⟩
  · exact ⟨out, hrun, hempty rfl⟩
  · exact absurd coherent_rings hnot

end Reclaim.Trial
