import Mathlib.Data.List.Basic
import Reclaim.Proofs.Queue
import Reclaim.Proofs.Trial.Agenda
import Reclaim.Proofs.Trial.GreyPhase
import Reclaim.Trial.Graph
import Reclaim.Trial.Increment

/-!
How late the marking phase can be. It looks at the clock every so many visits inside a traversal, and
every so many visits between two candidates, and all of them share one counter. The phase is taken
apart into moments, so that the clock can be seen at any of them, also where the phase does not look.
-/
namespace Reclaim

-- The same clock, after more readings and visits.
structure Clock.Later (c c' : Clock) : Prop where
  time_eq : c'.time = c.time
  reads_le : c.reads ≤ c'.reads
  visits_le : c.visits ≤ c'.visits

namespace Clock.Later

variable {c c' c'' : Clock}

theorem refl (c : Clock) : c.Later c := ⟨rfl, le_refl _, le_refl _⟩

theorem now (c : Clock) : c.Later c.now.2 := ⟨rfl, Nat.le_succ _, le_refl _⟩

theorem visit (c : Clock) : c.Later c.visit := ⟨rfl, le_refl _, Nat.le_succ _⟩

theorem trans (h : c.Later c') (h' : c'.Later c'') : c.Later c'' :=
  ⟨h'.time_eq.trans h.time_eq, h.reads_le.trans h'.reads_le, h.visits_le.trans h'.visits_le⟩

end Clock.Later

namespace Trial

open CountedHeap Queue

namespace Increment

variable {σ : Type} [CountedHeap σ]

-- The increment after the traversal of a candidate.
def adopt (i : Increment σ) (m : Marking σ) : Increment σ :=
  { i with timed := m.timed, visits := m.visits, stats := { i.stats with greyed := m.greyed } }

-- The candidate is tried, and not just dropped.
def Tries (i : Increment σ) (o : Nat) : Prop :=
  (color i.timed.heap o == .purple && isLive i.timed.heap o) = true

variable {i i' : Increment σ} {limit o : Nat} {finished : Bool}

-- What is dropped leaves the queues, the counters and the clock alone.
theorem processGrey_drop (h : i.processGrey limit o = .ok (finished, i')) (htries : ¬i.Tries o) :
    i'.collector = i.collector ∧ i'.stats = i.stats ∧ i'.visits = i.visits ∧
      i'.timed.clock = i.timed.clock := by
  rw [Tries] at htries
  simp only [processGrey, if_neg htries] at h
  split at h <;>
  · cases h
    exact ⟨rfl, rfl, rfl, rfl⟩

-- Undoing a marking takes time, and changes objects only.
theorem undoGrey_later (h : i.undoGrey o = .ok i') : i'.collector = i.collector ∧ i'.stats = i.stats ∧
    i.timed.clock.Later i'.timed.clock := by
  obtain ⟨t, hblack, h⟩ := bind_eq_ok.mp h
  cases h
  refine ⟨rfl, rfl, ?_⟩
  refine Traversal.of_worklist (P := fun _ s => i.timed.clock.Later s.clock)
    (fun x work s found s' hs hvisit => ?_) hblack (.refl _)
  unfold blacken at hvisit
  split at hvisit
  · obtain ⟨⟨children, t'⟩, hrefs, hvisit⟩ := bind_eq_ok.mp hvisit
    obtain ⟨⟨refs, t''⟩, hload, hrefs⟩ := bind_eq_ok.mp hrefs
    obtain ⟨refs', -, hload⟩ := bind_eq_ok.mp hload
    obtain ⟨traced, -, hrefs⟩ := bind_eq_ok.mp hrefs
    cases hload
    cases hrefs
    cases hvisit
    exact hs.trans (.visit _)
  · cases hvisit
    exact hs

end Increment

-- A visit counts itself, and looks at the clock when it is its turn to.
theorem Marking.arrive_eq_ok {σ : Type} {grain limit : Nat} {m m' : Marking σ}
    (h : m.arrive grain limit = .ok m') : m'.visits = m.visits + 1 ∧
      m.timed.clock.Later m'.timed.clock ∧
      m'.aborted = (m.aborted || decide ((m.visits + 1) % grain = 0 ∧ limit < m.timed.clock.present)) := by
  obtain ⟨left, hleft, h⟩ := bind_eq_ok.mp h
  unfold Word.mod at hleft
  split at hleft
  · cases hleft
  cases hleft
  split at h
  · rename_i hturn
    cases h
    refine ⟨rfl, .now _, ?_⟩
    rw [show (m.visits + 1) % grain = 0 from hturn]
    simp only [true_and]
    rfl
  · rename_i hturn
    cases h
    refine ⟨rfl, .refl _, ?_⟩
    rw [decide_eq_false fun h => hturn h.1, Bool.or_false]

namespace GreyPhase

-- What can be seen of the phase.
inductive Event
  | take (candidate : Nat)
  | grey (o : Nat)

-- The candidates that were taken, in order.
def taken (events : List Event) : List Nat :=
  events.filterMap fun | .take o => some o | .grey _ => none

-- The objects that were turned grey, in order.
def greyed (events : List Event) : List Nat :=
  events.filterMap fun | .take _ => none | .grey o => some o

@[simp] theorem taken_append (a b : List Event) : taken (a ++ b) = taken a ++ taken b :=
  List.filterMap_append

-- Where the phase stands.
inductive Moment (σ : Type)
  -- Between two candidates.
  | between (i : Increment σ)
  -- Between two visits of the marking from `root`.
  | marking (i : Increment σ) (root : Nat) (work : List Nat) (m : Marking σ)
  -- Within the visit of `o`: it was counted, and the clock was looked at if it was time to.
  | visiting (i : Increment σ) (root o : Nat) (work : List Nat) (m : Marking σ)
  | ended (aborted : Bool) (i : Increment σ)

namespace Moment

variable {σ : Type}

-- The increment, of which a marking under way only changes objects and the clock.
def increment : Moment σ → Increment σ
  | between i | marking i _ _ _ | visiting i _ _ _ _ | ended _ i => i

def clock : Moment σ → Clock
  | between i | ended _ i => i.timed.clock
  | marking _ _ _ m | visiting _ _ _ _ m => m.timed.clock

-- The candidate whose marking is under way.
def root : Moment σ → List Nat
  | between _ | ended _ _ => []
  | marking _ root _ _ | visiting _ root _ _ _ => [root]

-- The object whose visit is under way.
def inHand : Moment σ → List Nat
  | between _ | marking _ _ _ _ | ended _ _ => []
  | visiting _ _ o _ _ => [o]

def grain (a : Moment σ) : Nat := a.increment.collector.settings.visitGrain

-- Once it is too late, no more objects are turned grey.
def left (grain : Nat) : Moment σ → Nat
  | between i => grain - 1 - i.visits % grain
  | marking _ _ _ m => if m.aborted then 0 else grain - 1 - m.visits % grain
  | visiting _ _ _ _ m => if m.aborted then 0 else grain - m.visits % grain
  | ended _ _ => 0

end Moment

section Steps

variable {σ : Type} [CountedHeap σ]

inductive Step (limit : Nat) : Moment σ → List Event → Moment σ → Prop
  | look {i : Increment σ} : i.collector.settings.visitBound ≤ i.visits → ¬limit ≤ i.now.1 →
    Step limit (.between i) [] (.between { i.now.2 with visits := 0 })
  | late {i : Increment σ} : i.collector.settings.visitBound ≤ i.visits → limit ≤ i.now.1 →
    Step limit (.between i) [] (.ended false i.now.2)
  | exhausted {i : Increment σ} {filtered : Solo Nat} :
    i.visits < i.collector.settings.visitBound → i.collector.filtered.pop = (none, filtered) →
    Step limit (.between i) [] (.ended false (i.onCollector fun c => { c with filtered }))
  | drop {i i' : Increment σ} {o : Nat} {filtered : Solo Nat} :
    i.visits < i.collector.settings.visitBound → i.collector.filtered.pop = (some o, filtered) →
    ¬i.Tries o → (i.onCollector fun c => { c with filtered }).processGrey limit o = .ok (true, i') →
    Step limit (.between i) [.take o] (.between i')
  | start {i : Increment σ} {o : Nat} {filtered : Solo Nat} :
    i.visits < i.collector.settings.visitBound → i.collector.filtered.pop = (some o, filtered) →
    i.Tries o → Step limit (.between i) [.take o]
      (.marking (i.onCollector fun c => { c with filtered }) o [o]
        { timed := i.timed, visits := i.visits, greyed := i.stats.greyed })
  | arrive {i : Increment σ} {root o : Nat} {work : List Nat} {m m' : Marking σ} :
    m.arrive i.collector.settings.visitGrain limit = .ok m' →
    Step limit (.marking i root (o :: work) m) [] (.visiting i root o work m')
  | pass {i : Increment σ} {root o : Nat} {work : List Nat} {m : Marking σ} :
    (m.aborted || color m.timed.heap o == .grey) = true →
    Step limit (.visiting i root o work m) [] (.marking i root work m)
  | shade {i : Increment σ} {root o : Nat} {work found : List Nat} {m : Marking σ} {timed : Timed σ} :
    (m.aborted || color m.timed.heap o == .grey) = false → Marking.shade m.timed o = .ok (found, timed) →
    Step limit (.visiting i root o work m) [.grey o]
      (.marking i root (found.reverse ++ work) { m with timed })
  | finish {i : Increment σ} {root : Nat} {m : Marking σ} : m.aborted = false →
    Step limit (.marking i root [] m) []
      (.between ((i.adopt m).onCollector fun c => { c with cycleA := c.cycleA.push root }))
  | giveUp {i i' : Increment σ} {root : Nat} {m : Marking σ} : m.aborted = true →
    (i.adopt m).undoGrey root = .ok i' →
    Step limit (.marking i root [] m) [] (.ended true (i'.requeue root))

inductive Run (limit : Nat) : Moment σ → List Event → Moment σ → Prop
  | refl (a : Moment σ) : Run limit a [] a
  | head {a b c : Moment σ} {events more : List Event} : Step limit a events b → Run limit b more c →
    Run limit a (events ++ more) c

variable {limit : Nat} {a b c : Moment σ} {events more : List Event}

theorem Run.single (h : Step limit a events b) : Run limit a events b :=
  List.append_nil events ▸ .head h (.refl b)

theorem Run.trans (h : Run limit a events b) (h' : Run limit b more c) :
    Run limit a (events ++ more) c := by
  induction h with
  | refl => exact h'
  | head hstep _ ih =>
    rw [List.append_assoc]
    exact .head hstep (ih h')

-- Nothing happens after the end.
theorem Run.of_ended {aborted : Bool} {i : Increment σ} (h : Run limit (.ended aborted i) events b) :
    events = [] ∧ b = .ended aborted i := by
  cases h with
  | refl => exact ⟨rfl, rfl⟩
  | head hstep _ => cases hstep

theorem shade_later {t t' : Timed σ} {o : Nat} {found : List Nat}
    (h : Marking.shade t o = .ok (found, t')) : t.clock.Later t'.clock := by
  obtain ⟨⟨children, t₁⟩, hrefs, h⟩ := bind_eq_ok.mp h
  obtain ⟨refs, -, hrefs⟩ := bind_eq_ok.mp hrefs
  obtain ⟨⟨taken, heap⟩, -, h⟩ := bind_eq_ok.mp h
  cases hrefs
  cases h
  exact .visit _

-- The clock only goes on, and the settings stay.
theorem Step.later (h : Step limit a events b) : a.clock.Later b.clock ∧ b.grain = a.grain := by
  cases h with
  | look => exact ⟨.now _, rfl⟩
  | late => exact ⟨.now _, rfl⟩
  | exhausted => exact ⟨.refl _, rfl⟩
  | drop _ _ htries hgrey =>
    obtain ⟨hcollector, -, -, hclock⟩ := Increment.processGrey_drop hgrey htries
    simp only [Moment.clock, Moment.grain, Moment.increment, hcollector, hclock]
    exact ⟨.refl _, rfl⟩
  | start => exact ⟨.refl _, rfl⟩
  | arrive harrive => exact ⟨(Marking.arrive_eq_ok harrive).2.1, rfl⟩
  | pass => exact ⟨.refl _, rfl⟩
  | shade _ hshade => exact ⟨shade_later hshade, rfl⟩
  | finish => exact ⟨.refl _, rfl⟩
  | giveUp _ hundo =>
    obtain ⟨hcollector, -, hlater⟩ := Increment.undoGrey_later hundo
    simp only [Moment.clock, Moment.grain, Moment.increment, Increment.requeue, hcollector]
    exact ⟨hlater, rfl⟩

theorem Run.later (h : Run limit a events b) : a.clock.Later b.clock ∧ b.grain = a.grain := by
  induction h with
  | refl => exact ⟨.refl _, rfl⟩
  | head hstep _ ih =>
    exact ⟨hstep.later.1.trans ih.1, ih.2.trans hstep.later.2⟩

-- Candidates leave the queue at its front.
theorem Step.filtered (h : Step limit a events b) (hvalid : a.increment.collector.filtered.Valid) :
    b.increment.collector.filtered.Valid ∧ a.increment.collector.filtered.contents =
      taken events ++ b.increment.collector.filtered.contents := by
  cases h with
  | look => exact ⟨hvalid, rfl⟩
  | late => exact ⟨hvalid, rfl⟩
  | @exhausted i filtered _ hpop =>
    cases hc : i.collector.filtered.contents with
    | nil =>
      obtain ⟨q, hq, hqvalid, hempty⟩ := hvalid.pop_nil hc
      cases hpop.symm.trans hq
      exact ⟨hqvalid, hc.trans hempty.symm⟩
    | cons o rest =>
      obtain ⟨q, hq, -⟩ := hvalid.pop_cons hc
      cases hpop.symm.trans hq
  | drop _ hpop htries hgrey =>
    obtain ⟨hcollector, -⟩ := Increment.processGrey_drop hgrey htries
    have hc := hvalid.contents_of_pop hpop
    obtain ⟨q, hq, hqvalid, -⟩ := hvalid.pop_cons hc
    cases hpop.symm.trans hq
    simp only [Moment.increment, hcollector]
    exact ⟨hqvalid, hc⟩
  | start _ hpop =>
    have hc := hvalid.contents_of_pop hpop
    obtain ⟨q, hq, hqvalid, -⟩ := hvalid.pop_cons hc
    cases hpop.symm.trans hq
    exact ⟨hqvalid, hc⟩
  | arrive => exact ⟨hvalid, rfl⟩
  | pass => exact ⟨hvalid, rfl⟩
  | shade => exact ⟨hvalid, rfl⟩
  | finish => exact ⟨hvalid, rfl⟩
  | giveUp _ hundo =>
    obtain ⟨hcollector, -⟩ := Increment.undoGrey_later hundo
    simp only [Moment.increment, Increment.requeue, hcollector]
    exact ⟨hvalid, rfl⟩

theorem Run.filtered (h : Run limit a events b) (hvalid : a.increment.collector.filtered.Valid) :
    a.increment.collector.filtered.contents =
      taken events ++ b.increment.collector.filtered.contents := by
  induction h with
  | refl => rfl
  | head hstep _ ih =>
    obtain ⟨hnext, hfirst⟩ := hstep.filtered hvalid
    rw [taken_append, List.append_assoc, ← ih hnext]
    exact hfirst

-- Until the end nothing is put back, and the candidate at work is the last one that was taken.
theorem Step.kept (h : Step limit a events b) : (∃ aborted i, b = .ended aborted i) ∨
    b.increment.collector.mature = a.increment.collector.mature ∧
      b.increment.stats.requeued = a.increment.stats.requeued ∧
      ∃ before, a.root ++ taken events = before ++ b.root := by
  cases h with
  | late => exact Or.inl ⟨_, _, rfl⟩
  | exhausted => exact Or.inl ⟨_, _, rfl⟩
  | giveUp => exact Or.inl ⟨_, _, rfl⟩
  | drop _ _ htries hgrey =>
    obtain ⟨hcollector, hstats, -⟩ := Increment.processGrey_drop hgrey htries
    refine Or.inr ⟨?_, ?_, _, (List.append_nil _).symm⟩
    · simp only [Moment.increment, hcollector, Increment.onCollector]
    · simp only [Moment.increment, hstats, Increment.onCollector]
  | look => exact Or.inr ⟨rfl, rfl, _, (List.append_nil _).symm⟩
  | start => exact Or.inr ⟨rfl, rfl, [], rfl⟩
  | arrive => exact Or.inr ⟨rfl, rfl, [], rfl⟩
  | pass => exact Or.inr ⟨rfl, rfl, [], rfl⟩
  | shade => exact Or.inr ⟨rfl, rfl, [], rfl⟩
  | finish => exact Or.inr ⟨rfl, rfl, _, (List.append_nil _).symm⟩

-- One candidate is put back, the last one that was taken, as the last mature one.
structure Requeued (a : Moment σ) (events : List Event) (i : Increment σ) (o : Nat) : Prop where
  last : (a.root ++ taken events).getLast? = some o
  mature_eq : i.collector.mature.contents = a.increment.collector.mature.contents ++ [o]
  counted : i.stats.requeued = a.increment.stats.requeued + 1

theorem Step.giveUp_requeued {i : Increment σ} (h : Step limit a events (.ended true i)) :
    ∃ o, Requeued a events i o := by
  cases h with
  | @giveUp _ i' root _ _ hundo =>
    obtain ⟨hcollector, hstats, -⟩ := Increment.undoGrey_later hundo
    refine ⟨root, rfl, ?_, ?_⟩
    · simp only [Increment.requeue, Solo.contents_insert, hcollector]
      rfl
    · simp only [Increment.requeue, hstats]
      rfl

theorem Run.requeued {i : Increment σ} (h : Run limit a events (.ended true i)) :
    a = .ended true i ∨ ∃ o, Requeued a events i o := by
  generalize hend : Moment.ended true i = e at h
  induction h with
  | refl => exact Or.inl rfl
  | @head a b _ events more hstep hrest ih =>
    subst hend
    refine Or.inr ?_
    rcases hstep.kept with ⟨aborted, j, rfl⟩ | ⟨hmature, hcount, before, hbefore⟩
    · obtain ⟨rfl, hended⟩ := hrest.of_ended
      cases hended
      rw [List.append_nil]
      exact hstep.giveUp_requeued
    · rcases ih rfl with rfl | ⟨o, ho⟩
      · obtain ⟨rfl, -⟩ := hrest.of_ended
        rw [List.append_nil]
        exact hstep.giveUp_requeued
      · refine ⟨o, ?_, hmature ▸ ho.mature_eq, hcount ▸ ho.counted⟩
        rw [taken_append, ← List.append_assoc, hbefore, List.append_assoc, List.getLast?_append,
          ho.last]
        rfl

end Steps

-- A chain of four objects that starts with a candidate, and one more candidate. Time is up when the
-- second object is visited.
namespace Chain

def increment : Increment Graph where
  timed := ⟨{ nodes := #[
    { status := Status.setBuffered (Status.initial false .purple 1), fields := [some 1] },
    { status := Status.initial false .black 1, fields := [some 2] },
    { status := Status.initial false .black 1, fields := [some 3] },
    { status := Status.initial false .black 1, fields := [] },
    { status := Status.setBuffered (Status.initial false .purple 1), fields := [] }] },
    .jumping 0 [(2, 10)]⟩
  collector :=
    let c := Collector.new {
      timeCap := 300, filterPages := 0, detectionPages := 0, filterLimit := 8, visitGrain := 2,
      visitBound := 1, filterBound := 1, bufferEntries := 1 }
    { c with filtered := (c.filtered.insert 0).insert 4 }

-- The second object was turned grey.
theorem late : ∃ before a, Run 5 (.between increment) before a ∧ 5 < a.clock.present ∧ a.inHand = [] := by
  have hfirst : Run 5 (.between increment) _ _ :=
    .head (.start (by decide) rfl rfl) (.head (.arrive rfl) (.single (.shade rfl rfl)))
  have hsecond := hfirst.trans (.head (.arrive rfl) (.single (.shade rfl rfl)))
  exact ⟨_, _, hsecond, by decide, rfl⟩

end Chain

end GreyPhase

end Trial

end Reclaim
