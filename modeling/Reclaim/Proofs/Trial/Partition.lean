import Reclaim.Heap
import Reclaim.Proofs.Trial.Filtering
import Reclaim.Proofs.Trial.Graph

/-!
What a filter pass does to its candidates, whatever else the heap holds. Each candidate that it takes
goes where its status word says and keeps its place among those that go there with it. The pass stops
after the first batch after which the time is up or enough candidates were taken, unless the queue
runs out before.
-/
namespace Reclaim

-- Objects whose status words can be set one by one.
structure Headed (σ : Type) [CountedHeap σ] where
  Has : σ → Nat → Prop
  has_setStatus : ∀ {h : σ} {o x : Nat} (s : Nat), Has h o → Has h x → Has (CountedHeap.setStatus h o s) x
  status_setStatus : ∀ {h : σ} {o : Nat} (s x : Nat), Has h o →
    CountedHeap.status (CountedHeap.setStatus h o s) x = if x = o then s else CountedHeap.status h x

-- Every address has a word of its own.
def Heap.headed : Headed Heap where
  Has _ _ := True
  has_setStatus _ _ _ := trivial
  status_setStatus _ _ _ := (Memory.read_write _ _ _ _).trans (if_congr eq_comm rfl rfl)

-- The nodes of a graph have one each.
def Trial.Graph.headed : Headed Trial.Graph where
  Has g o := o < g.nodes.size
  has_setStatus _ _ hx := hx.trans_eq Array.size_modify.symm
  status_setStatus s x ho := by
    change ((setStatus _ _ s).node x).status = _
    rw [node_setStatus ho]
    split <;> rfl

namespace Trial

open CountedHeap Queue

variable {σ : Type} [CountedHeap σ] {H : Headed σ} {h : σ} {source target dead front : List Nat}
  {s : Sieve σ} {settings : Settings} {limit : Nat} {c : Clock}

-- A filter pass over `source` under way, after it took `front`; it began in heap `h`, with `target` and
-- `dead` as they were then.
structure Parting (H : Headed σ) (h : σ) (source target dead front : List Nat) (s : Sieve σ) : Prop where
  source_valid : s.source.Valid
  target_valid : s.target.Valid
  source_eq : source = front ++ s.source.contents
  target_eq : s.target.contents = target ++ front.filter (isPurple h)
  dead_eq : s.dead = (front.filter fun o => !isLive h o).reverse ++ dead
  -- The buffered bit is cleared of all that do not move on, and no other bit changes.
  status_eq : ∀ o, status s.timed.heap o =
    if o ∈ front ∧ isPurple h o = false then Status.clearBuffered (status h o) else status h o
  has : ∀ o ∈ source, H.Has s.timed.heap o
  taken_eq : s.taken = front.length

-- After batch `n`, counted from zero, the pass looks at the clock and at what it has taken so far.
def stopsAfter (settings : Settings) (limit : Nat) (c : Clock) (n : Nat) : Prop :=
  limit ≤ c.time (c.reads + n) c.visits ∨ settings.filterLimit ≤ (n + 1) * settings.filterBound

namespace Parting

section Status

variable (hi : Parting H h source target dead front s)
include hi

theorem color_eq (o : Nat) : color s.timed.heap o = color h o := by
  rw [color, hi.status_eq]
  split
  · exact Status.color_clearBuffered _
  · rfl

theorem isLive_eq (o : Nat) : isLive s.timed.heap o = isLive h o := by
  rw [isLive, hi.status_eq]
  split
  · rw [Status.isLive, Status.count_clearBuffered]
    rfl
  · rfl

-- Only candidates that the pass took and did not move on lose their bit.
theorem isBuffered_eq (o : Nat) (hb : isBuffered h o = true) :
    isBuffered s.timed.heap o = true ↔ o ∈ front → isPurple h o = true := by
  rw [isBuffered, hi.status_eq]
  split
  · rename_i hn
    rw [Status.isBuffered_clearBuffered]
    simp [hn.1, hn.2]
  · rename_i hn
    refine ⟨fun _ hmem => ?_, fun _ => hb⟩
    by_contra hp
    exact hn ⟨hmem, Bool.eq_false_of_not_eq_true hp⟩

end Status

-- What the status words come to when a candidate that does not move on was taken.
theorem status_clear {x o : Nat} (hi : Parting H h source target dead front s) (ho : H.Has s.timed.heap o)
    (hp : isPurple h o = false) : status (clearBuffered s.timed.heap o) x =
      if x ∈ front ++ [o] ∧ isPurple h x = false then Status.clearBuffered (status h x)
      else status h x := by
  have hidem : Status.clearBuffered (Status.clearBuffered (status h o)) =
      Status.clearBuffered (status h o) := by
    rw [Status.clearBuffered, if_neg (by rw [Status.isBuffered_clearBuffered]; exact Bool.false_ne_true)]
  rw [clearBuffered, H.status_setStatus _ _ ho]
  by_cases hx : x = o
  · subst hx
    rw [if_pos rfl, if_pos ⟨List.mem_append_right _ (List.mem_singleton_self x), hp⟩, hi.status_eq]
    split
    · exact hidem
    · rfl
  · rw [if_neg hx, hi.status_eq]
    simp only [List.mem_append, List.mem_singleton, hx, or_false]

-- One candidate is taken off the front of the source and settled.
theorem settle (hi : Parting H h source target dead front s) {o : Nat} {rest : List Nat} {q : Solo Nat}
    (hq : q.Valid) (hs : s.source.contents = o :: rest) (hrest : q.contents = rest) :
    Parting H h source target dead (front ++ [o])
      ({ s with source := q, taken := s.taken + 1 }.settle o) := by
  have hsource : source = front ++ [o] ++ q.contents := by
    rw [hi.source_eq, hs, hrest, List.append_assoc, List.singleton_append]
  have ho : H.Has s.timed.heap o := hi.has o (by simp [hsource])
  have htaken : s.taken + 1 = (front ++ [o]).length := by simp [hi.taken_eq]
  have hhas : ∀ x ∈ source, H.Has (clearBuffered s.timed.heap o) x :=
    fun x hx => H.has_setStatus _ ho (hi.has x hx)
  have hlive := hi.isLive_eq o
  have hcolor := hi.color_eq o
  unfold Sieve.settle
  cases hl : isLive h o with
  | false =>
    have hp : isPurple h o = false := by simp [isPurple, hl]
    simp only [hlive, hl, Bool.not_false, if_true]
    refine ⟨hq, hi.target_valid, hsource, ?_, ?_, fun x => hi.status_clear ho hp, hhas, htaken⟩
    · simp [hi.target_eq, hp]
    · simp [hi.dead_eq, hl]
  | true =>
    simp only [hlive, hl, Bool.not_true, Bool.false_eq_true, if_false]
    by_cases hc : color h o = .purple
    · have hp : isPurple h o = true := by simp [isPurple, hl, hc]
      simp only [hcolor, hc, beq_self_eq_true, if_true]
      refine ⟨hq, hi.target_valid.insert o, hsource, ?_, ?_, fun x => ?_, hi.has, htaken⟩
      · simp [hi.target_eq, hp]
      · simp [hi.dead_eq, hl]
      · rw [hi.status_eq]
        refine if_congr (and_congr_left fun hn => ?_) rfl rfl
        have hx : x ≠ o := by
          rintro rfl
          exact absurd hp (by simp [hn])
        simp [hx]
    · have hp : isPurple h o = false := by simp [isPurple, hc]
      simp only [hcolor, beq_iff_eq, hc, if_false]
      refine ⟨hq, hi.target_valid, hsource, ?_, ?_, fun x => hi.status_clear ho hp, hhas, htaken⟩
      · simp [hi.target_eq, hp]
      · simp [hi.dead_eq, hl]

variable (hplain : ∀ o ∈ source, color h o ≠ .green)
include hplain

-- A batch takes so many candidates, or fewer and the source runs out.
theorem batch (n : Nat) (hi : Parting H h source target dead front s) :
    ∃ exhausted front' s', Sieve.batch n s = .ok (exhausted, s') ∧
      Parting H h source target dead front' s' ∧ s'.timed.clock = s.timed.clock ∧
      (exhausted = true ∧ s'.source.contents = [] ∧ s'.taken < s.taken + n ∨
        exhausted = false ∧ s'.taken = s.taken + n) := by
  induction n generalizing front s with
  | zero => exact ⟨false, front, s, rfl, hi, rfl, Or.inr ⟨rfl, rfl⟩⟩
  | succ n ih =>
    cases hs : s.source.contents with
    | nil =>
      obtain ⟨q, hpop, hq, hempty⟩ := hi.source_valid.pop_nil hs
      have hcontents : q.contents = s.source.contents := hempty.trans hs.symm
      exact ⟨true, front, { s with source := q }, by simp [Sieve.batch, hpop], { hi with
        source_valid := hq
        source_eq := hcontents ▸ hi.source_eq }, rfl,
        Or.inl ⟨rfl, hempty, Nat.lt_add_of_pos_right (Nat.succ_pos n)⟩⟩
    | cons o rest =>
      obtain ⟨q, hpop, hq, hrest⟩ := hi.source_valid.pop_cons hs
      have hnext := hi.settle hq hs hrest
      have hgreen : color s.timed.heap o ≠ .green := by
        rw [hi.color_eq]
        exact hplain o (by rw [hi.source_eq, hs]; simp)
      have hsettled : ({ s with source := q, taken := s.taken + 1 }.settle o).timed.clock =
          s.timed.clock ∧ ({ s with source := q, taken := s.taken + 1 }.settle o).taken = s.taken + 1 := by
        unfold Sieve.settle
        split
        · exact ⟨rfl, rfl⟩
        · split <;> exact ⟨rfl, rfl⟩
      obtain ⟨exhausted, front', s', hrun, hi', hclock, hend⟩ := ih hnext
      refine ⟨exhausted, front', s', ?_, hi', hclock.trans hsettled.1, ?_⟩
      · simp [Sieve.batch, hpop, hgreen, hrun]
      · rw [hsettled.2] at hend
        exact hend.imp (fun h => ⟨h.1, h.2.1, by omega⟩) fun h => ⟨h.1, by omega⟩

-- From the start of batch `n` on, if the pass did not stop before.
theorem run (hbound : 0 < settings.filterBound) (hi : Parting H h source target dead front s)
    {n steps : Nat} (hclock : s.timed.clock = { c with reads := c.reads + n })
    (htaken : s.taken = n * settings.filterBound) (hgoing : ∀ j < n, ¬stopsAfter settings limit c j)
    (hsteps : s.source.contents.length < steps) :
    ∃ front' s' n', Sieve.run settings limit steps s = .ok s' ∧
      Parting H h source target dead front' s' ∧ (∀ j < n', ¬stopsAfter settings limit c j) ∧
      (s'.source.contents = [] ∧ s'.taken < (n' + 1) * settings.filterBound ∨
        stopsAfter settings limit c n' ∧ s'.taken = (n' + 1) * settings.filterBound) := by
  induction steps generalizing front s n with
  | zero => omega
  | succ steps ih =>
    obtain ⟨exhausted, front₁, s₁, hbatch, hi₁, hclock₁, hend⟩ := hi.batch hplain settings.filterBound
    have hmul : (n + 1) * settings.filterBound = n * settings.filterBound + settings.filterBound :=
      Nat.succ_mul _ _
    rcases hend with ⟨rfl, hempty, hlt⟩ | ⟨rfl, htaken₁⟩
    · refine ⟨front₁, s₁, n, by simp [Sieve.run, hbatch], hi₁, hgoing, Or.inl ⟨hempty, by omega⟩⟩
    · have htime : s₁.timed.now.1 = c.time (c.reads + n) c.visits := by
        rw [Timed.now, hclock₁, hclock]
        rfl
      have hclock₂ : s₁.timed.now.2.clock = { c with reads := c.reads + (n + 1) } := by
        rw [Timed.now, hclock₁, hclock]
        rfl
      have hi₂ : Parting H h source target dead front₁ { s₁ with timed := s₁.timed.now.2 } :=
        { hi₁ with }
      have hstops : (limit ≤ s₁.timed.now.1 ∨ settings.filterLimit ≤ s₁.taken) ↔
          stopsAfter settings limit c n := by
        rw [htime, htaken₁, htaken, ← hmul]
        rfl
      by_cases hstop : stopsAfter settings limit c n
      · refine ⟨front₁, { s₁ with timed := s₁.timed.now.2 }, n, ?_, hi₂, hgoing,
          Or.inr ⟨hstop, (htaken₁.trans (by rw [htaken])).trans hmul.symm⟩⟩
        simp only [Sieve.run, hbatch, ok_bind, Bool.false_eq_true, if_false, if_pos (hstops.mpr hstop)]
      · have hshorter : s₁.source.contents.length < s.source.contents.length := by
          have h1 := congrArg List.length hi.source_eq
          have h2 := congrArg List.length hi₁.source_eq
          rw [List.length_append, ← hi.taken_eq] at h1
          rw [List.length_append, ← hi₁.taken_eq] at h2
          omega
        obtain ⟨front', s', n', hrun, hi', hlast⟩ := ih hi₂ hclock₂
          (htaken₁.trans (by rw [htaken, hmul]))
          (fun j hj => (Nat.lt_succ_iff_lt_or_eq.mp hj).elim (hgoing j) fun hjn => hjn ▸ hstop)
          (by change s₁.source.contents.length < steps; omega)
        refine ⟨front', s', n', ?_, hi', hlast⟩
        simp only [Sieve.run, hbatch, ok_bind, Bool.false_eq_true, if_false,
          if_neg (hstops.not.mpr hstop), hrun]

end Parting

-- A pass that stops as soon as it may takes less than a batch too many.
theorem taken_le_of_going {n taken : Nat} (hgoing : ∀ j < n, ¬stopsAfter settings limit c j)
    (htaken : taken ≤ (n + 1) * settings.filterBound) :
    taken ≤ max settings.filterLimit 1 + settings.filterBound - 1 := by
  rw [Nat.succ_mul] at htaken
  cases n with
  | zero => omega
  | succ n =>
    have hlimit : (n + 1) * settings.filterBound < settings.filterLimit :=
      Nat.lt_of_not_le fun hle => hgoing n (Nat.lt_succ_self n) (Or.inr hle)
    omega

-- A filter pass takes candidates off the front of the source, moves the live purple ones to the target
-- as they are, lists those without a count as dead, and clears the buffered bit of all that it does not
-- move. It leaves nothing unless, after some batch, the time is up or enough candidates were taken.
theorem filterQueue_parts (H : Headed σ) (hbound : 0 < settings.filterBound) (limit : Nat)
    {source target : Solo Nat} (hsource : source.Valid) (htarget : target.Valid) (dead : List Nat)
    {t : Timed σ} (hcandidates : ∀ o ∈ source.contents,
      H.Has t.heap o ∧ isBuffered t.heap o = true ∧ color t.heap o ≠ .green) :
    ∃ front s, filterQueue settings limit source target dead t = .ok s ∧
      Parting H t.heap source.contents target.contents dead front s ∧
      (∀ o ∈ source.contents, isBuffered s.timed.heap o = true ↔ o ∈ front → isPurple t.heap o = true) ∧
      s.taken ≤ max settings.filterLimit 1 + settings.filterBound - 1 ∧
      (s.source.contents = [] ∨ ∃ n, s.taken = (n + 1) * settings.filterBound ∧
        stopsAfter settings limit t.clock n ∧ ∀ j < n, ¬stopsAfter settings limit t.clock j) := by
  have hi : Parting H t.heap source.contents target.contents dead [] { source, target, dead, timed := t } :=
    ⟨hsource, htarget, rfl, by simp, rfl, fun _ => by simp, fun o ho => (hcandidates o ho).1, rfl⟩
  obtain ⟨front, s, n, hrun, hi', hgoing, hend⟩ := hi.run (n := 0) (c := t.clock)
    (fun o ho => (hcandidates o ho).2.2) hbound rfl (Nat.zero_mul _).symm (fun j hj => absurd hj j.not_lt_zero)
    (Solo.length_contents_lt source)
  refine ⟨front, s, hrun, hi', fun o ho => hi'.isBuffered_eq o (hcandidates o ho).2.1, ?_, ?_⟩
  · exact taken_le_of_going hgoing (hend.elim (fun h => h.2.le) fun h => h.2.le)
  · exact hend.imp (fun h => h.1) fun h => ⟨n, h.2, h.1, hgoing⟩

-- Five candidates in buffers for two: the first and the fourth are purple, the third has no count.
namespace Blend

def graph : Graph where
  nodes := #[
    { status := Status.setBuffered (Status.initial false .purple 1), fields := [] },
    { status := Status.setBuffered (Status.initial false .black 1), fields := [] },
    { status := Status.setBuffered (Status.initial false .purple 0), fields := [] },
    { status := Status.setBuffered (Status.initial false .purple 2), fields := [] },
    { status := Status.setBuffered (Status.initial false .black 1), fields := [] }]

def limits : Settings :=
  { timeCap := 300, filterPages := 0, detectionPages := 0, filterLimit := 3, visitGrain := 1,
    visitBound := 1, filterBound := 2, bufferEntries := 2 }

def queue : Solo Nat := [0, 1, 2, 3, 4].foldl Solo.insert (.new "unfiltered" 2)

def mature : Solo Nat := .new "mature" 2

end Blend

-- The second batch reaches the limit, and the last candidate stays.
theorem filterQueue_parts_blend : ∃ s,
    filterQueue Blend.limits 1 Blend.queue Blend.mature [] ⟨Blend.graph, .still 0⟩ = .ok s ∧
      s.target.contents = [0, 3] ∧ s.dead = [2] ∧ s.source.contents = [4] ∧
      isBuffered s.timed.heap 3 = true ∧ ¬isBuffered s.timed.heap 1 = true := by
  have hvalid : Blend.queue.Valid :=
    (((((Solo.Valid.new "unfiltered" 2).insert 0).insert 1).insert 2).insert 3).insert 4
  have hcandidates : ∀ o ∈ Blend.queue.contents, o < Blend.graph.nodes.size ∧
      isBuffered Blend.graph o = true ∧ color Blend.graph o ≠ .green := by decide
  have hbound : 0 < Blend.limits.filterBound := by decide
  obtain ⟨front, s, hrun, hi, hbuffered, -, -⟩ := filterQueue_parts Graph.headed hbound 1 hvalid
    (Solo.Valid.new "mature" 2) [] (t := ⟨Blend.graph, .still 0⟩) hcandidates
  have htaken : (filterQueue Blend.limits 1 Blend.queue Blend.mature []
      ⟨Blend.graph, .still 0⟩).toOption.map (·.taken) = some 4 := by decide +kernel
  have hlength : [0, 1, 2, 3].length = front.length :=
    hi.taken_eq ▸ (Option.some.inj ((congrArg (·.toOption.map (·.taken)) hrun).symm.trans htaken)).symm
  have hsplit : [0, 1, 2, 3] ++ [4] = front ++ s.source.contents := hi.source_eq
  obtain ⟨rfl, hrest⟩ := List.append_inj hsplit hlength
  refine ⟨s, hrun, hi.target_eq, hi.dead_eq, hrest.symm, ?_, ?_⟩
  · exact (hbuffered 3 (by decide)).mpr fun _ => by decide
  · exact (hbuffered 1 (by decide)).not.mpr (by decide)

end Trial

end Reclaim
