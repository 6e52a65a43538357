import Reclaim.Proofs.Queue
import Reclaim.Proofs.Trial.Roster
import Reclaim.Trial.Increment

/-!
Filter passes. A pass takes candidates off the front of one queue, moves those that are purple and
have a count to another in their order, lists those without a count as dead and drops the rest. It
changes nothing but buffered bits.
-/
namespace Reclaim.Trial

open CountedHeap Queue

variable {σ : Type} [CountedHeap σ] {L : Lawful σ} {k : Census} {h : σ} {gone : Finset Nat}

namespace Ledger

variable {r : Finset Nat}

-- While nothing is grey or white, only garbage lacks a count that it had.
theorem gone_or_of_count_eq_zero (hl : Ledger L k h r gone) (ht : tinted h r = ∅)
    (hcomplete : k.Complete gone) {x : Nat} (hx : x ∈ r) (hg : k.isGreen x = false)
    (hz : count h x = 0) : x ∈ gone ∨ k.count x = 0 := by
  by_contra hn
  simp only [not_or] at hn
  have heq := hl.count_eq x hx
  have hlive : x ∈ k.live := Census.mem_live.mpr ⟨hl.subset hx, hg, by omega⟩
  have hlt := hcomplete x hlive hn.1
  rw [ht, Census.held_empty] at heq
  omega

theorem count_ne_zero_of_pos (hl : Ledger L k h r gone) {x : Nat} (hx : x ∈ r)
    (hp : 0 < count h x) : k.count x ≠ 0 := by
  have heq := hl.count_eq x hx
  omega

end Ledger

-- Candidates that pass a filter.
def isPurple (h : σ) (o : Nat) : Bool := isLive h o && color h o == .purple

theorem isPurple_iff {o : Nat} : isPurple h o = true ↔ 0 < count h o ∧ color h o = .purple := by
  rw [isPurple, Bool.and_eq_true, beq_iff_eq, isLive_iff]

theorem isPurple_congr {h' : σ} {o : Nat} (hcolor : color h' o = color h o)
    (hcount : count h' o = count h o) : isPurple h' o = isPurple h o := by
  rw [Bool.eq_iff_iff, isPurple_iff, isPurple_iff, hcolor, hcount]

theorem Ledger.isGreen_of_purple {r : Finset Nat} (hl : Ledger L k h r gone) {x : Nat} (hx : x ∈ r)
    (hp : color h x = .purple) : k.isGreen x = false := by
  rw [Bool.eq_false_iff, ne_eq, ← hl.green_iff x hx, hp]
  simp

-- A candidate that passes is live and not gone.
theorem Ledger.live_of_isPurple {r : Finset Nat} (hl : Ledger L k h r gone) (hgar : k.Garbage gone)
    {x : Nat} (hx : x ∈ r) (hp : isPurple h x = true) : x ∈ k.live ∧ x ∉ gone := by
  obtain ⟨hpos, hpurple⟩ := isPurple_iff.mp hp
  exact ⟨hl.mem_live_of_count_pos hx (hl.isGreen_of_purple hx hpurple) hpos,
    hl.not_mem_gone_of_count_pos hgar hx hpos⟩

-- A filter pass under way in heap `h` that has taken `front`. The candidates of `others` are in
-- queues that it does not touch.
structure Sieving (L : Lawful σ) (k : Census) (waiting : List Nat) (exact : Prop) (h : σ)
    (gone : Finset Nat) (time : Nat → Nat → Nat)
    (others freed deferred source target front : List Nat) (s : Sieve σ) : Prop where
  roster : Roster L k waiting exact s.timed.heap gone
    (s.source.contents ++ s.target.contents ++ others) s.dead freed deferred
  source_valid : s.source.Valid
  target_valid : s.target.Valid
  time_eq : s.timed.clock.time = time
  same : ∀ x ∈ L.left k.objects freed, color s.timed.heap x = color h x ∧
    count s.timed.heap x = count h x
  source_eq : source = front ++ s.source.contents
  target_eq : s.target.contents = target ++ front.filter (isPurple h)
  taken_eq : s.taken = front.length

namespace Sieving

variable {waiting others freed deferred source target front : List Nat} {exact : Prop}
  {time : Nat → Nat → Nat} {s : Sieve σ}

-- One candidate is taken off the front of the source and settled.
theorem settle (hi : Sieving L k waiting exact h gone time others freed deferred source target
      front s) (hgar : k.Garbage gone) (hcomplete : k.Complete gone)
    (ht : tinted h (L.left k.objects freed) = ∅) {o : Nat} {rest : List Nat} {q : Solo Nat}
    (hq : q.Valid) (hs : s.source.contents = o :: rest) (hrest : q.contents = rest) :
    Sieving L k waiting exact h gone time others freed deferred source target (front ++ [o])
      ({ s with source := q, taken := s.taken + 1 }.settle o) := by
  have hperm : (s.source.contents ++ s.target.contents ++ others).Perm
      (o :: (q.contents ++ s.target.contents ++ others)) := by
    rw [hs, hrest]
    exact .refl _
  have hoq : o ∈ s.source.contents ++ s.target.contents ++ others := by simp [hs]
  obtain ⟨hor, hog⟩ := hi.roster.listed o (Or.inl hoq)
  obtain ⟨hcolor, hcount⟩ := hi.same o hor
  have ht' : tinted s.timed.heap (L.left k.objects freed) = ∅ :=
    (tinted_congr fun x hx => (hi.same x hx).1).trans ht
  have hsource : source = (front ++ [o]) ++ q.contents := by
    rw [hi.source_eq, hs, hrest]
    simp
  have htaken : s.taken + 1 = (front ++ [o]).length := by simp [hi.taken_eq]
  have hcleared : ∀ x ∈ L.left k.objects freed,
      color (clearBuffered s.timed.heap o) x = color h x ∧
        count (clearBuffered s.timed.heap o) x = count h x := by
    intro x hx
    rw [L.color_clearBuffered hi.roster.ledger.shows hor hx,
      L.count_clearBuffered hi.roster.ledger.shows hor hx]
    exact hi.same x hx
  have hlive : isLive h o = isLive s.timed.heap o := by
    rw [Bool.eq_iff_iff, isLive_iff, isLive_iff, hcount]
  unfold Sieve.settle
  cases hl : isLive s.timed.heap o with
  | false =>
    have hz : count s.timed.heap o = 0 := (isLive_eq_false_iff _ _).mp hl
    have hor' := hi.roster.ledger.gone_or_of_count_eq_zero ht' hcomplete hor hog hz
    have hpurple : isPurple h o = false := by simp [isPurple, hlive, hl]
    refine ⟨?_, hq, hi.target_valid, hi.time_eq, hcleared, hsource, ?_, htaken⟩
    · exact hi.roster.settle hperm (Or.inr ⟨rfl, hor'⟩)
    · simpa [hpurple] using hi.target_eq
  | true =>
    have hp : 0 < count s.timed.heap o := (isLive_iff _ _).mp hl
    simp only [Bool.not_true, Bool.false_eq_true, if_false]
    by_cases hc : color s.timed.heap o = .purple
    · have hpurple : isPurple h o = true := by simp [isPurple, hlive, hl, ← hcolor, hc]
      simp only [hc, beq_self_eq_true, if_true]
      refine ⟨?_, hq, hi.target_valid.insert o, hi.time_eq, hi.same, hsource, ?_, htaken⟩
      · refine hi.roster.congr hi.roster.ledger (fun _ _ => rfl) (List.Perm.trans ?_ hperm.symm)
        simp only [Solo.contents_insert, List.append_assoc]
        exact (List.perm_append_left_iff _).mpr List.perm_middle |>.trans List.perm_middle
      · simp [hi.target_eq, hpurple]
    · have hpurple : isPurple h o = false := by simp [isPurple, ← hcolor, hc]
      simp only [beq_iff_eq, hc, if_false]
      refine ⟨?_, hq, hi.target_valid, hi.time_eq, hcleared, hsource, ?_, htaken⟩
      · exact hi.roster.settle hperm (Or.inl ⟨rfl,
          hi.roster.ledger.not_mem_gone_of_count_pos hgar hor hp,
          hi.roster.ledger.count_ne_zero_of_pos hor hp⟩)
      · simpa [hpurple] using hi.target_eq

section Pass

variable (hgar : k.Garbage gone) (hcomplete : k.Complete gone)
  (ht : tinted h (L.left k.objects freed) = ∅)
include hgar hcomplete ht

theorem batch (n : Nat) (hi : Sieving L k waiting exact h gone time others freed deferred source
      target front s) :
    ∃ exhausted front' s', Sieve.batch n s = .ok (exhausted, s') ∧
      Sieving L k waiting exact h gone time others freed deferred source target front' s' ∧
      (exhausted = true → s'.source.contents = []) ∧ s.taken ≤ s'.taken ∧
      (0 < n → exhausted = true ∧ s.source.contents = [] ∨ s.taken < s'.taken) := by
  induction n generalizing front s with
  | zero => exact ⟨false, front, s, rfl, hi, by simp, le_refl _, by simp⟩
  | succ n ih =>
    cases hs : s.source.contents with
    | nil =>
      obtain ⟨q, hpop, hq, hempty⟩ := hi.source_valid.pop_nil hs
      have hcontents : q.contents = s.source.contents := hempty.trans hs.symm
      refine ⟨true, front, { s with source := q }, by simp [Sieve.batch, hpop], { hi with
        roster := hcontents ▸ hi.roster
        source_valid := hq
        source_eq := hcontents ▸ hi.source_eq }, fun _ => hempty, le_refl _,
        fun _ => Or.inl ⟨rfl, rfl⟩⟩
    | cons o rest =>
      obtain ⟨q, hpop, hq, hrest⟩ := hi.source_valid.pop_cons hs
      have hnext := hi.settle hgar hcomplete ht hq hs hrest
      obtain ⟨exhausted, front', s', hrun, hi', hend, hmore, -⟩ := ih hnext
      obtain ⟨hor, hog⟩ := hi.roster.listed o (Or.inl (by simp [hs]))
      have hne : color s.timed.heap o ≠ .green := fun hc => by
        simp [(hi.roster.ledger.green_iff o hor).mp hc] at hog
      have htaken : ({ s with source := q, taken := s.taken + 1 }.settle o).taken = s.taken + 1 := by
        rw [hnext.taken_eq, hi.taken_eq]
        simp
      refine ⟨exhausted, front', s', ?_, hi', hend, by omega, fun _ => Or.inr (by omega)⟩
      simp [Sieve.batch, hpop, hne, hrun]

theorem run {settings : Settings} (hbound : settings.filterBound ≠ 0) (limit steps : Nat)
    (hi : Sieving L k waiting exact h gone time others freed deferred source target front s)
    (hsteps : s.source.contents.length < steps) :
    ∃ front' s', Sieve.run settings limit steps s = .ok s' ∧
      Sieving L k waiting exact h gone time others freed deferred source target front' s' ∧
      s.taken ≤ s'.taken ∧ (s.source.contents ≠ [] → s.taken < s'.taken) ∧
      (s'.source.contents = [] ∨ (∃ reads visits, limit ≤ time reads visits) ∨
        settings.filterLimit ≤ s'.taken) := by
  induction steps generalizing front s with
  | zero => omega
  | succ steps ih =>
    obtain ⟨exhausted, front1, s1, hbatch, hi1, hend, hle, hmore⟩ :=
      hi.batch hgar hcomplete ht settings.filterBound
    have hmore := hmore (Nat.pos_of_ne_zero hbound)
    have hgrow : s.source.contents ≠ [] → s.taken < s1.taken := fun hne =>
      hmore.resolve_left fun hx => hne hx.2
    cases exhausted with
    | true =>
      refine ⟨front1, s1, by simp [Sieve.run, hbatch], hi1, hle, hgrow, Or.inl (hend rfl)⟩
    | false =>
      have hlt : s.taken < s1.taken := hmore.resolve_left (by simp)
      have hi2 : Sieving L k waiting exact h gone time others freed deferred source target front1
          { s1 with timed := s1.timed.now.2 } := { hi1 with }
      by_cases hstop : limit ≤ s1.timed.now.1 ∨ settings.filterLimit ≤ s1.taken
      · refine ⟨front1, { s1 with timed := s1.timed.now.2 }, ?_, hi2, hle, hgrow, ?_⟩
        · simp only [Sieve.run, hbatch, ok_bind, Bool.false_eq_true, if_false, if_pos hstop]
        · refine Or.inr (hstop.imp_left fun hl => ?_)
          refine ⟨s1.timed.clock.reads, s1.timed.clock.visits, ?_⟩
          rw [← hi1.time_eq]
          exact hl
      · have hlen : s.source.contents.length = s1.source.contents.length + (s1.taken - s.taken) := by
          have h1 := congrArg List.length hi.source_eq
          have h2 := congrArg List.length hi1.source_eq
          rw [List.length_append, ← hi.taken_eq] at h1
          rw [List.length_append, ← hi1.taken_eq] at h2
          omega
        obtain ⟨front', s', hrun, hi', hle', -, hlast⟩ := ih hi2 (by
          change s1.source.contents.length < steps
          omega)
        have hle'' : s1.taken ≤ s'.taken := hle'
        refine ⟨front', s', ?_, hi', by omega, fun _ => by omega, hlast⟩
        simp only [Sieve.run, hbatch, ok_bind, Bool.false_eq_true, if_false, if_neg hstop, hrun]

end Pass

end Sieving

-- What a filter pass does to the queues and to the account.
theorem filterQueue_ok {waiting others freed deferred dead : List Nat} {exact : Prop}
    (settings : Settings) (hbound : settings.filterBound ≠ 0) (limit : Nat)
    {source target : Solo Nat} {t : Timed σ} (hgar : k.Garbage gone) (hcomplete : k.Complete gone)
    (ht : tinted t.heap (L.left k.objects freed) = ∅)
    (hr : Roster L k waiting exact t.heap gone (source.contents ++ target.contents ++ others) dead
      freed deferred) (hsource : source.Valid) (htarget : target.Valid) :
    ∃ front s, filterQueue settings limit source target dead t = .ok s ∧
      Sieving L k waiting exact t.heap gone t.clock.time others freed deferred source.contents
        target.contents front s ∧
      (source.contents ≠ [] → s.source.contents.length < source.contents.length) ∧
      (s.source.contents = [] ∨ (∃ reads visits, limit ≤ t.clock.time reads visits) ∨
        settings.filterLimit ≤ front.length) := by
  have hi : Sieving L k waiting exact t.heap gone t.clock.time others freed deferred
      source.contents target.contents [] { source, target, dead, timed := t } :=
    ⟨hr, hsource, htarget, rfl, fun _ _ => ⟨rfl, rfl⟩, rfl, by simp, rfl⟩
  obtain ⟨front, s, hrun, hi', -, hmore, hlast⟩ := hi.run hgar hcomplete ht hbound limit
    (source.length + 1) (Solo.length_contents_lt _)
  refine ⟨front, s, hrun, hi', fun hne => ?_, ?_⟩
  · have h1 := congrArg List.length hi'.source_eq
    have h2 := hmore hne
    rw [List.length_append, ← hi'.taken_eq] at h1
    omega
  · rw [← hi'.taken_eq]
    exact hlast

end Reclaim.Trial
