import Reclaim.Proofs.Heap.Mortality
import Reclaim.Proofs.Session.Steps

/-!
The order of decrements in a session. Mutators leave them in no particular order, and the cascades that
they set off come in between. It makes no difference to what a collection comes to.
-/
namespace Reclaim

open CountedHeap Counting Heap Trial

variable {l : Layout} {r : Finset Nat} {work work' : List Nat}

-- Decrements of the counted objects `r`, and maybe of others that no one counts.
structure Heap.Due (h : Heap) (l : Layout) (r : Finset Nat) (work : List Nat) : Prop where
  populated : h.Populated l
  aligned : h.Aligned l
  reached_eq : l.reached = []
  roll : Roll h l r
  closed : ∀ o ∈ live h r, ∀ x ∈ h.refs o, h.inCountedSpace x = true → x ∈ r
  pending : ∀ x ∈ work, h.inCountedSpace x = true → x ∈ r

-- The decrements of an account are due.
theorem Counting.Account.due {base h : Heap} {l₀ : Layout} {k : Census} {ext : Nat → Nat}
    (ha : Account (lawful base l₀) k ext r h work) : ∃ l, h.Due l r work := by
  obtain ⟨l, hs⟩ := ha.shows
  have hcounted : ∀ x, h.inCountedSpace x = k.isCounted x := fun x => by
    rw [hs.trimmed.inCountedSpace_eq, hs.isCounted]
  refine ⟨l, hs.trimmed.populated hs.populated, fun kind o bytes hr x hx hc => ?_,
    hs.trimmed.reached_eq, hs.roll, fun o ho x hx hc => ?_, fun x hx hc => ?_⟩
  · rw [(hs.trimmed.same hs.populated hr).2] at hx
    exact hs.aligned _ _ _ (hs.trimmed.room _ _ _ hr) x hx (hs.trimmed.inCountedSpace_eq x ▸ hc)
  · rw [hs.refs_eq (mem_live.mp ho).1] at hx
    exact ha.closed o ho x hx (hcounted x ▸ hc)
  · exact ha.pending x hx (hcounted x ▸ hc)

-- So are those that a collection applies.
theorem Settling.due {base p : Plan} {l₀ : Layout} {k : Census} {ext : List Nat} {roots : Queue.Chain Nat}
    {counts : CountState} (hs : Settling base l₀ k ext roots p counts r work) :
    ∃ l, p.heap.Due l r work := hs.tally.account.due

-- If one order takes no reference away that is not there, then all orders come to an end, however
-- the decrements that they find mix with those that wait. They free the same objects, nominate the
-- same candidates and leave the same status words.
theorem Heap.Due.decrements_confluent {t : Timed Heap} {c : Collector} (hdue : t.heap.Due l r work)
    (hperm : work'.Perm work)
    (hflow : ∀ o, Counting.apply work c t ≠ .error (.fatal (.countUnderflow o))) :
    ∃ d d', Counting.apply work c t = .ok d ∧ Counting.apply work' c t = .ok d' ∧
      Agree (t.heap.census r) c d d' ∧
      ∀ n pending e, Applying work { timed := t, collector := c } n pending e →
        n + pending.length ≤ work.length + CountedHeap.extent t.heap ∧
        (∀ o ∈ pending, ∃ found e', decrement o e = .ok (found, e')) ∧
        (pending = [] → Agree (t.heap.census r) c d e) :=
  apply_confluent (M := mortal t.heap l r)
    ⟨l, .refl hdue.populated hdue.aligned hdue.reached_eq hdue.roll⟩
    (fun o ho hpos => hdue.closed o (mem_live.mpr ⟨ho, hpos⟩)) hdue.pending hperm hflow

namespace Session

-- Whatever has happened, such decrements are due.
theorem Sound.due {s : Session} {counts : CountState} (hs : s.Sound counts l r)
    (hwork : ∀ x ∈ work, s.plan.heap.inCountedSpace x = true → s.plan.heap.Holds x) :
    s.plan.heap.Due l r work where
  populated := hs.standing.populated
  aligned := hs.standing.aligned
  reached_eq := hs.standing.reached_eq
  roll := hs.standing.roll
  closed := hs.standing.books.closed
  pending x hx hc := hs.mem_iff.mpr (hwork x hx hc)

-- A session with two objects. The first refers to the second.
namespace Pair

-- A cycle may be expected.
def types : Types := ⟨[⟨"pair", none, [Types.scalarHeaderBytes], 32, false⟩]⟩

def config : Config := { policy := .refcount, globalRootSlots := 1 }

@[irreducible] def plan : Plan :=
  (Plan.new Sizes.blockBytes config types {}).toOption.get (by decide +kernel)

def first : Nat := Sizes.blockBytes + 1056

def second : Nat := Sizes.blockBytes + 1088

def bound : Session := { plan, mutators := [.new plan] }

@[irreducible] def single : Session :=
  (bound.perform (.create 0 0 0 .standard)).toOption.get (by decide +kernel)

@[irreducible] def both : Session :=
  (single.perform (.create 0 0 0 .standard)).toOption.get (by decide +kernel)

@[irreducible] def linked : Session :=
  (both.perform (.write 0 first 0 (some second))).toOption.get (by decide +kernel)

theorem new_plan : Plan.new Sizes.blockBytes config types {} = .ok plan := by
  unfold plan
  exact eq_ok_get _

theorem perform_single : bound.perform (.create 0 0 0 .standard) = .ok single := by
  unfold single
  exact eq_ok_get _

theorem perform_both : single.perform (.create 0 0 0 .standard) = .ok both := by
  unfold both
  exact eq_ok_get _

theorem perform_linked : both.perform (.write 0 first 0 (some second)) = .ok linked := by
  unfold linked
  exact eq_ok_get _

theorem types_registered : types.Registered := by
  have hscalar : ({} : Types).registerScalar "pair" 2 [0] = .ok (0, types) := rfl
  exact .scalar .empty (by decide) (by decide) hscalar

-- What the session comes to, all computed at once.
theorem figures : bound.plan.heap.types.info 0 = .ok ⟨"pair", none, [Types.scalarHeaderBytes], 32, false⟩ ∧
    single.plan.heap.types.info 0 = .ok ⟨"pair", none, [Types.scalarHeaderBytes], 32, false⟩ ∧
    bound.changes (.create 0 0 0 .standard) = [.made first] ∧
    single.changes (.create 0 0 0 .standard) = [.made second] ∧ 0 < single.mutators.length ∧
    0 < both.mutators.length ∧ count both.plan.heap second = 1 ∧
    linked.plan.heap.inCountedSpace 0 = false ∧
    linked.plan.heap.inCountedSpace first = true ∧ linked.plan.heap.isAllocated first = .ok true ∧
    linked.plan.heap.inCountedSpace second = true ∧ linked.plan.heap.isAllocated second = .ok true := by
  decide +kernel

theorem allowed_create {s : Session} (hm : 0 < s.mutators.length) (htype : s.plan.heap.types.info 0 =
    .ok ⟨"pair", none, [Types.scalarHeaderBytes], 32, false⟩) : s.Allowed (.create 0 0 0 .standard) := by
  refine ⟨hm, fun info bytes hinfo hbytes => ?_⟩
  obtain rfl := Except.ok.inj (htype.symm.trans hinfo)
  obtain rfl : 32 = bytes := Except.ok.inj hbytes
  decide

theorem run_both : Run both := by
  obtain ⟨htype, htype', -, -, hm, -⟩ := figures
  have hstart : Run { plan } :=
    .start new_plan rfl ⟨by decide, by decide, by decide⟩ types_registered nofun nofun
  have hbound : Run bound := hstart.step (show Session.Allowed _ .bind from trivial) rfl
  have hsingle : Run single := hbound.step (allowed_create (by decide) htype) perform_single
  exact hsingle.step (allowed_create hm htype') perform_both

theorem known_both : first ∈ both.known ∧ second ∈ both.known := by
  obtain ⟨-, -, hfirst, hsecond, -⟩ := figures
  have hold : first ∈ single.known := mem_known_of_made perform_single (hfirst ▸ List.mem_cons_self)
  have hnew : second ∈ both.known := mem_known_of_made perform_both (hsecond ▸ List.mem_cons_self)
  obtain ⟨m, -, h⟩ := bind_eq_ok.mp perform_both
  obtain ⟨⟨o, m', plan⟩, -, h⟩ := bind_eq_ok.mp h
  exact ⟨(Except.ok.inj h) ▸ Or.inr hold, hnew⟩

theorem run_linked : Run linked := by
  obtain ⟨-, -, -, -, -, hm, hcount, -⟩ := figures
  have hallowed : both.Allowed (.write 0 first 0 (some second)) := by
    refine ⟨hm, known_both.1, fun v hv => ?_⟩
    cases hv
    refine ⟨known_both.2, fun _ => ?_⟩
    rw [hcount]
    decide
  exact run_both.step hallowed perform_linked

-- A decrement for each new object waits.
def decrements : List Nat := [first, second, 0]

def cycles : Collector := (linked.plan.counts.get (by decide +kernel)).cycles

def timed : Timed Heap := ⟨linked.plan.heap, linked.plan.clock⟩

@[irreducible] def settled : Decrements Heap :=
  (Counting.apply decrements cycles timed).toOption.get (by decide +kernel)

theorem apply_decrements : Counting.apply decrements cycles timed = .ok settled := by
  unfold settled
  exact eq_ok_get _

theorem due : ∃ l r, timed.heap.Due l r decrements := by
  obtain ⟨-, -, -, -, -, -, -, hzero, hfirst, hfirst', hsecond, hsecond'⟩ := figures
  obtain ⟨counts, l, r, hs⟩ := run_linked.sound
  refine ⟨l, r, hs.due fun x hx hc => ?_⟩
  simp only [decrements, List.mem_cons, List.not_mem_nil, or_false] at hx
  rcases hx with rfl | rfl | rfl
  · exact ⟨by decide, hfirst, hfirst'⟩
  · exact ⟨by decide, hsecond, hsecond'⟩
  · rw [hzero] at hc
    cases hc

end Pair

-- The first object is freed. The second waits for the cycle collector, whether the reference that the
-- first one held is taken away before the other decrement or after it.
theorem decrements_confluent_pair : ∃ l r, Pair.timed.heap.Due l r Pair.decrements ∧
    ∃ d d', Counting.apply Pair.decrements Pair.cycles Pair.timed = .ok d ∧
      Counting.apply [Pair.second, 0, Pair.first] Pair.cycles Pair.timed = .ok d' ∧
      Agree (Pair.timed.heap.census r) Pair.cycles d d' ∧ d.freed = [Pair.first] ∧ d.applied = 3 := by
  obtain ⟨l, r, hdue⟩ := Pair.due
  have hfreed : Pair.settled.freed = [Pair.first] ∧ Pair.settled.applied = 3 := by decide +kernel
  have hperm : [Pair.second, 0, Pair.first].Perm Pair.decrements := by decide
  have hflow : ∀ o, Counting.apply Pair.decrements Pair.cycles Pair.timed ≠
      .error (.fatal (.countUnderflow o)) := fun o h => by
    rw [Pair.apply_decrements] at h
    cases h
  obtain ⟨d, d', hrun, hrun', hagree, -⟩ := Heap.Due.decrements_confluent hdue hperm hflow
  obtain rfl := Except.ok.inj (Pair.apply_decrements.symm.trans hrun)
  exact ⟨l, r, hdue, _, d', hrun, hrun', hagree, hfreed⟩

end Session

end Reclaim
