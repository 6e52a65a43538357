import Reclaim.Proofs.Worklist
import Reclaim.Trial.Increment

/-!
The figures of an increment. Only freeing adds to the number of freed objects, and it adds as many as it
frees.
-/
namespace Reclaim.Trial.Increment

open CountedHeap Queue

variable {σ : Type} {i j k : Increment σ} {limit deadline steps : Nat} {b : Bool}

-- From `i` to `j` nothing is freed.
structure Spares (i j : Increment σ) : Prop where
  freed_eq : j.freed = i.freed
  count_eq : j.stats.freed = i.stats.freed

-- The number of freed objects is told right.
def Tallied (i : Increment σ) : Prop := i.stats.freed = i.freed.length

theorem Spares.trans (h : i.Spares j) (h' : j.Spares k) : i.Spares k :=
  ⟨h'.freed_eq.trans h.freed_eq, h'.count_eq.trans h.count_eq⟩

theorem Tallied.of_spares (hi : i.Tallied) (h : i.Spares j) : j.Tallied := by
  rw [Tallied, h.count_eq, h.freed_eq]
  exact hi

variable [CountedHeap σ]

theorem spares_filterNew (h : i.filterNew limit = .ok j) : i.Spares j := by
  obtain ⟨s, -, h⟩ := bind_eq_ok.mp h
  cases h
  exact ⟨rfl, rfl⟩

theorem spares_filterMature (h : i.filterMature limit = .ok j) : i.Spares j := by
  obtain ⟨s, -, h⟩ := bind_eq_ok.mp h
  cases h
  exact ⟨rfl, rfl⟩

theorem spares_processGrey {o : Nat} (h : i.processGrey limit o = .ok (b, j)) : i.Spares j := by
  unfold processGrey at h
  simp only at h
  split at h
  · obtain ⟨m, -, h⟩ := bind_eq_ok.mp h
    split at h
    · obtain ⟨i', hundo, h⟩ := bind_eq_ok.mp h
      obtain ⟨timed, -, hundo⟩ := bind_eq_ok.mp hundo
      cases hundo
      cases h
      exact ⟨rfl, rfl⟩
    · cases h
      exact ⟨rfl, rfl⟩
  · split at h <;>
    · cases h
      exact ⟨rfl, rfl⟩

theorem spares_markGreyPhase (h : i.markGreyPhase limit steps = .ok (b, j)) : i.Spares j := by
  induction steps generalizing i with
  | zero => cases h
  | succ steps ih =>
    rw [markGreyPhase] at h
    -- looking at the clock and popping a candidate free nothing
    have hread : i.Spares (if i.visits < i.collector.settings.visitBound then (0, i) else i.now).2 := by
      split <;> exact ⟨rfl, rfl⟩
    simp only at h
    generalize (if i.visits < i.collector.settings.visitBound then (0, i) else i.now) = read at h hread
    split at h
    · cases h
      exact hread
    · have hturn : read.2.Spares
          (if read.2.visits < i.collector.settings.visitBound then read.2
            else { read.2 with visits := 0 }) := by
        split <;> exact ⟨rfl, rfl⟩
      generalize (if read.2.visits < i.collector.settings.visitBound then read.2
        else { read.2 with visits := 0 }) = turn at h hturn
      split at h
      · cases h
        exact (hread.trans hturn).trans ⟨rfl, rfl⟩
      · rename_i o filtered _
        obtain ⟨⟨finished, i'⟩, hgrey, h⟩ := bind_eq_ok.mp h
        have htried := (hread.trans hturn).trans
          ((⟨rfl, rfl⟩ : turn.Spares (turn.onCollector fun c => { c with filtered })).trans
            (spares_processGrey hgrey))
        split at h
        · exact htried.trans (ih h)
        · cases h
          exact htried.trans ⟨rfl, rfl⟩

theorem spares_scanPhase (h : i.scanPhase steps = .ok j) : i.Spares j := by
  induction steps generalizing i with
  | zero => cases h
  | succ steps ih =>
    rw [scanPhase] at h
    split at h
    · cases h
      exact ⟨rfl, rfl⟩
    · obtain ⟨timed, -, h⟩ := bind_eq_ok.mp h
      have hrest := ih h
      exact ⟨hrest.freed_eq, hrest.count_eq⟩

theorem spares_collectPhase (h : i.collectPhase steps = .ok j) : i.Spares j := by
  induction steps generalizing i with
  | zero => cases h
  | succ steps ih =>
    rw [collectPhase] at h
    split at h
    · cases h
      exact ⟨rfl, rfl⟩
    · obtain ⟨s, -, h⟩ := bind_eq_ok.mp h
      have hrest := ih h
      exact ⟨hrest.freed_eq, hrest.count_eq⟩

theorem spares_tryRoots (h : i.tryRoots deadline = .ok (b, j)) : i.Spares j := by
  let i₀ : Increment σ := { i with stage := .matureFilter }
  have hbranch : ∀ f : Increment σ → Except Fault (Bool × Increment σ),
      (if i.collector.filtered.isEmpty then filterMature i₀.now.1 i₀.now.2 >>= f
        else (.ok i₀) >>= f) =
      (if i.collector.filtered.isEmpty then filterMature i₀.now.1 i₀.now.2 else .ok i₀) >>= f :=
    fun f => (apply_ite (· >>= f) _ _ _).symm
  obtain ⟨i₁, hfilter, h⟩ := bind_eq_ok.mp ((hbranch _).symm.trans h)
  obtain ⟨⟨aborted, i₂⟩, hmark, h⟩ := bind_eq_ok.mp h
  obtain ⟨i₃, hscan, h⟩ := bind_eq_ok.mp h
  obtain ⟨i₄, hcollect, h⟩ := bind_eq_ok.mp h
  cases h
  have h₁ : i.Spares i₁ := by
    split at hfilter
    · have hrest := spares_filterMature hfilter
      exact ⟨hrest.freed_eq, hrest.count_eq⟩
    · cases hfilter
      exact ⟨rfl, rfl⟩
  have h₂ := spares_markGreyPhase hmark
  have h₃ := spares_scanPhase hscan
  have h₄ := spares_collectPhase hcollect
  exact ⟨h₄.freed_eq.trans (h₃.freed_eq.trans (h₂.freed_eq.trans h₁.freed_eq)),
    h₄.count_eq.trans (h₃.count_eq.trans (h₂.count_eq.trans h₁.count_eq))⟩

namespace Tallied

theorem processFree (hi : i.Tallied) (h : i.processFree = .ok j) : j.Tallied := by
  obtain ⟨heap, -, h⟩ := bind_eq_ok.mp h
  cases h
  rw [Tallied] at hi ⊢
  simp only [hi, List.length_append, List.length_reverse]
  exact Nat.add_comm _ _

theorem collectSome (hi : i.Tallied) (h : i.collectSome deadline = .ok (b, j)) : j.Tallied := by
  obtain ⟨⟨aborted, i₁⟩, htry, h⟩ := bind_eq_ok.mp h
  obtain ⟨i₂, hfree, h⟩ := bind_eq_ok.mp h
  cases h
  exact (hi.of_spares (spares_tryRoots htry)).processFree hfree

theorem detect (hi : i.Tallied) (h : i.detect deadline steps = .ok (b, j)) : j.Tallied := by
  induction steps generalizing i with
  | zero => cases h
  | succ steps ih =>
    rw [Increment.detect] at h
    split at h
    · cases h
      exact hi
    · simp only at h
      split at h
      · obtain ⟨⟨aborted, i'⟩, hsome, h⟩ := bind_eq_ok.mp h
        have hread : i.now.2.Tallied := hi
        have hi' := hread.collectSome hsome
        cases aborted with
        | true =>
          cases h
          exact hi'
        | false => exact ih hi' h
      · cases h
        exact hi

theorem act (hi : i.Tallied) {available count : Nat}
    (h : i.act available count deadline = .ok (b, j)) : j.Tallied := by
  unfold Increment.act at h
  simp only at h
  split at h
  · cases h
    exact hi
  · split at h
    · cases h
      exact hi
    · obtain ⟨i₁, hfilter, h⟩ := bind_eq_ok.mp h
      obtain ⟨i₂, hfree, h⟩ := bind_eq_ok.mp h
      have hread : Tallied { i.now.2 with stage := .filter } := hi
      have hi₂ := (hread.of_spares (spares_filterNew hfilter)).processFree hfree
      split at h
      · cases h
        exact hi₂
      · obtain ⟨⟨aborted, i₃⟩, hdetect, h⟩ := bind_eq_ok.mp h
        cases h
        have hset : Tallied { i₂ with stats := { i₂.stats with detected := true } } := hi₂
        have hdone : i₃.Tallied := hset.detect hdetect
        exact hdone

end Tallied

-- An increment tells how many objects it has freed.
theorem freed_of_runUntil {c : Collector} {available count : Nat} {t : Timed σ} {out : Outcome σ}
    (h : c.runUntil available count deadline t = .ok out) :
    out.collector.stats.freed = out.freed.length := by
  obtain ⟨⟨aborted, i⟩, hact, h⟩ := bind_eq_ok.mp h
  cases h
  have hi : i.Tallied := Tallied.act (rfl : Tallied { timed := t, collector := c }) hact
  exact hi.trans List.length_reverse.symm

end Reclaim.Trial.Increment
