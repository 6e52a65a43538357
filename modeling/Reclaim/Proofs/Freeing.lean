import Reclaim.Proofs.Cycles

/-!
The moments at which objects are given back: when a decrement took the last reference to an object
away, and when an increment of cycle collection gives back what it found dead. At each of them the
object is no candidate any more.
-/
namespace Reclaim

open CountedHeap Queue Trial

variable {σ : Type} [CountedHeap σ]

-- An object that is about to be given back, with the heap and the collector at that moment.
structure Moment (σ : Type) where
  object : Nat
  heap : σ
  collector : Collector

-- The object's memory can be given back, and it waits in no queue.
structure Moment.Clear (m : Moment σ) : Prop where
  unbuffered : isBuffered m.heap m.object = false
  not_mem : m.object ∉ m.collector.queued

namespace Counting

-- The decrement of `o` takes its last reference away and gives it back from the heap `h`.
structure FreesAt (o : Nat) (d : Decrements σ) (h : σ) : Prop where
  counted : isCounted d.timed.heap o = .ok true
  last : ∃ heap, decrement? d.timed.heap o = some (0, heap) ∧ h = setColor heap o .black
  unbuffered : isBuffered h o = false
  free_ok : ∃ h', CountedHeap.free h o = .ok h'

-- Applying the decrements in `work` comes to the moment.
def Frees (work : List Nat) (c : Collector) (t : Timed σ) (m : Moment σ) : Prop :=
  ∃ d, Visits decrement work.reverse { timed := t, collector := c } m.object d ∧
    FreesAt m.object d m.heap ∧ m.collector = d.collector

theorem freed_suspect (o : Nat) (d : Decrements σ) : (suspect o d).freed = d.freed := by
  unfold suspect
  split <;> rfl

variable {o : Nat} {d d' : Decrements σ} {work found : List Nat}

-- The references that the object held are taken away in turn.
theorem references_of_release (h : release o d = .ok (found, d')) :
    CountedHeap.references d.timed.heap o = .ok found := by
  obtain ⟨⟨children, timed⟩, hrefs, h⟩ := bind_eq_ok.mp h
  obtain ⟨refs, hread, hrefs⟩ := bind_eq_ok.mp hrefs
  cases hrefs
  change (if isBuffered (setColor d.timed.heap o .black) o = true then _ else _) = _ at h
  split at h
  · cases h
    exact hread
  · obtain ⟨h', -, h⟩ := bind_eq_ok.mp h
    cases h
    exact hread

theorem freed_release (h : release o d = .ok (found, d')) : d'.freed = d.freed ∨
    d'.freed = o :: d.freed ∧ isBuffered (setColor d.timed.heap o .black) o = false ∧
      ∃ h', CountedHeap.free (setColor d.timed.heap o .black) o = .ok h' := by
  obtain ⟨⟨children, timed⟩, hrefs, h⟩ := bind_eq_ok.mp h
  obtain ⟨refs, -, hrefs⟩ := bind_eq_ok.mp hrefs
  cases hrefs
  change (if isBuffered (setColor d.timed.heap o .black) o = true then _ else _) = _ at h
  by_cases hb : isBuffered (setColor d.timed.heap o .black) o = true
  · rw [if_pos hb] at h
    cases h
    exact Or.inl rfl
  · rw [if_neg hb] at h
    obtain ⟨h', hfree, h⟩ := bind_eq_ok.mp h
    cases h
    exact Or.inr ⟨rfl, Bool.eq_false_iff.mpr hb, h', hfree⟩

theorem freed_decrement (h : decrement o d = .ok (found, d')) :
    d'.freed = d.freed ∨ d'.freed = o :: d.freed ∧ ∃ h', FreesAt o d h' := by
  obtain ⟨counted, hcounted, h⟩ := bind_eq_ok.mp h
  cases counted with
  | false =>
    cases h
    exact Or.inl rfl
  | true =>
    simp only [Bool.not_true, Bool.false_eq_true, if_false] at h
    cases hdec : decrement? d.timed.heap o with
    | none =>
      rw [hdec] at h
      cases h
    | some next =>
      obtain ⟨count, heap⟩ := next
      rw [hdec] at h
      simp only at h
      split at h
      · rename_i hz
        subst hz
        exact (freed_release h).imp_right fun ⟨heq, hb, hfree⟩ =>
          ⟨heq, _, hcounted, ⟨heap, hdec, rfl⟩, hb, hfree⟩
      · cases h
        exact Or.inl (freed_suspect _ _)

theorem freed_worklist (fuel : Nat) (h : worklist decrement fuel work d = .ok d')
    (ho : o ∈ d'.freed) : o ∈ d.freed ∨
      ∃ d₁ h', Visits decrement work d o d₁ ∧ FreesAt o d₁ h' := by
  induction fuel generalizing work d with
  | zero =>
    cases work with
    | nil =>
      cases h
      exact Or.inl ho
    | cons x work => cases h
  | succ fuel ih =>
    cases work with
    | nil =>
      cases h
      exact Or.inl ho
    | cons x work =>
      obtain ⟨⟨found, d₁⟩, hstep, hrest⟩ := bind_eq_ok.mp h
      rcases ih hrest with hd | ⟨d₂, h', hvisits, hfrees⟩
      · rcases freed_decrement hstep with heq | ⟨heq, h', hfrees⟩
        · exact Or.inl (heq ▸ hd)
        · rw [heq] at hd
          rcases List.mem_cons.mp hd with rfl | hd
          · exact Or.inr ⟨d, h', .here, hfrees⟩
          · exact Or.inl hd
      · exact Or.inr ⟨d₂, h', .later hstep hvisits, hfrees⟩

-- All that was freed was freed at some moment.
theorem frees_of_mem {c : Collector} {t : Timed σ} (h : Counting.apply work c t = .ok d)
    (ho : o ∈ d.freed) : ∃ m, Frees work c t m ∧ m.object = o := by
  rcases freed_worklist _ h ho with hd | ⟨d₁, h', hvisits, hfrees⟩
  · cases hd
  · exact ⟨⟨o, h', d₁.collector⟩, ⟨d₁, hvisits, hfrees, rfl⟩, rfl⟩

variable {L : Lawful σ} {k : Census} {ext : Nat → Nat} {r : Finset Nat} {c : Collector}
variable {m : Moment σ}

-- An object that is freed when its last reference goes is no candidate.
theorem Tally.clear_of_freesAt {rest : List Nat} {h : σ}
    (ht : Tally L k ext r d.timed.heap d.collector (o :: rest)) (hf : FreesAt o d h) :
    o ∉ d.collector.queued := by
  have hcounted := ht.account.isCounted_ok List.mem_cons_self
  rw [hf.counted] at hcounted
  have ho := ht.account.pending o List.mem_cons_self (Except.ok.inj hcounted).symm
  obtain ⟨heap, hdec, hh⟩ := hf.last
  obtain ⟨s, hs, heq⟩ := Option.map_eq_some_iff.mp hdec
  obtain rfl : setStatus d.timed.heap o s = heap := congrArg Prod.snd heq
  have hpos : 0 < count d.timed.heap o := by
    have heq := ht.account.count_eq o ho
    rw [List.count_cons_self] at heq
    omega
  obtain ⟨s', hs', hl, hb⟩ := Account.Lowered.decrement ht.account ho hpos
  obtain rfl : s = s' := Option.some.inj (hs.symm.trans hs')
  intro hq
  have hflag := (ht.candidates.flagged o ho).mpr hq
  have hclear := hf.unbuffered
  rw [hh, L.isBuffered_setColor hl.shows ho ho, hb, hflag] at hclear
  cases hclear

theorem Tally.clear_of_frees (hkeeps : L.keeps = false) {t : Timed σ}
    (ht : Tally L k ext r t.heap c work) (hm : Frees work c t m) : m.Clear := by
  obtain ⟨d, hvisits, hfrees, hcollector⟩ := hm
  obtain ⟨rest, r', ht'⟩ := hvisits.invariant
    (P := fun work d => ∃ r', Tally L k ext r' d.timed.heap d.collector work)
    (fun o work d found d' ⟨r', hd⟩ hstep => by
      obtain ⟨found', d'', r'', hrun, -, ht'', -⟩ := hd.decrement hkeeps
      obtain ⟨rfl, rfl⟩ : found' = found ∧ d'' = d' := by
        rw [hrun] at hstep
        cases hstep
        exact ⟨rfl, rfl⟩
      exact ⟨r'', ht''⟩)
    ⟨r, ht.perm work.reverse_perm.symm⟩
  exact ⟨hfrees.unbuffered, hcollector ▸ ht'.clear_of_freesAt hfrees⟩

end Counting

namespace Trial

namespace Increment

-- Rounds of trial deletion from `i` on come to free the dead objects of `j`.
inductive Rounds (deadline : Nat) : Increment σ → Increment σ → Prop
  | here {i j : Increment σ} {aborted : Bool} :
    i.now.2.tryRoots deadline = .ok (aborted, j) → Rounds deadline i j
  | later {i j k : Increment σ} :
    i.now.2.collectSome deadline = .ok (false, k) → Rounds deadline k j → Rounds deadline i j

-- The filter pass with which an increment begins.
def filterFirst (deadline : Nat) (i : Increment σ) : Except Fault (Increment σ) :=
  { i.now.2 with stage := .filter }.filterNew (i.now.1 + filterShare (deadline - i.now.1))

-- An increment that starts as `i` comes to free the dead objects of `j`.
inductive Clears (deadline : Nat) (i : Increment σ) : Increment σ → Prop
  | filter {j : Increment σ} : i.filterFirst deadline = .ok j → Clears deadline i j
  | round {j k l : Increment σ} : i.filterFirst deadline = .ok k → k.processFree = .ok l →
    Rounds deadline { l with stats := { l.stats with detected := true } } j → Clears deadline i j

-- An increment that starts as `i` comes to the moment.
def Frees (deadline : Nat) (i : Increment σ) (m : Moment σ) : Prop :=
  ∃ j before after, i.Clears deadline j ∧ j.dead = before ++ m.object :: after ∧
    before.foldlM CountedHeap.free j.timed.heap = .ok m.heap ∧
    (∃ h', CountedHeap.free m.heap m.object = .ok h') ∧ m.collector = j.collector

variable {i j k : Increment σ} {deadline : Nat} {o : Nat}

theorem processFree_eq_ok (h : j.processFree = .ok k) :
    (∃ heap, j.dead.foldlM CountedHeap.free j.timed.heap = .ok heap) ∧
      k.freed = j.dead.reverse ++ j.freed := by
  obtain ⟨heap, hfree, h⟩ := bind_eq_ok.mp h
  cases h
  exact ⟨⟨heap, hfree⟩, rfl⟩

-- All dead objects that are cleared are freed at some moment.
theorem Clears.frees (hc : i.Clears deadline j) (h : j.processFree = .ok k) (ho : o ∈ j.dead) :
    ∃ m, i.Frees deadline m ∧ m.object = o := by
  obtain ⟨⟨heap, hfree⟩, -⟩ := processFree_eq_ok h
  obtain ⟨before, after, hdead⟩ := List.append_of_mem ho
  rw [hdead, List.foldlM_append] at hfree
  obtain ⟨h₁, hbefore, hfree⟩ := bind_eq_ok.mp hfree
  rw [List.foldlM_cons] at hfree
  obtain ⟨h₂, hlast, -⟩ := bind_eq_ok.mp hfree
  exact ⟨⟨o, h₁, j.collector⟩, ⟨j, before, after, hc, hdead, hbefore, ⟨h₂, hlast⟩, rfl⟩, rfl⟩

end Increment

variable {e : Scope σ} {gone : Finset Nat} {i j k : Increment σ} {deadline : Nat} {o : Nat}
variable {m : Moment σ}

namespace Settled

-- Dead objects are no candidates while they are freed one after the other.
theorem clear_of_dead (hj : Settled e gone j) (hexact : e.exact) (hkeeps : e.law.keeps = false)
    {before after : List Nat} (hdead : j.dead = before ++ o :: after) {h : σ}
    (hfree : before.foldlM CountedHeap.free j.timed.heap = .ok h) :
    isBuffered h o = false ∧ o ∉ j.collector.queued := by
  have hr := hj.roster
  have hmem : ∀ x ∈ before ++ o :: after, x ∈ e.present := fun x hx =>
    (hr.listed x (Or.inr (hdead ▸ hx))).1
  have hnodup : (before ++ o :: after).Nodup := hdead ▸ List.nodup_iff_count_le_one.mpr fun x => by
    have honce := hr.once hexact x
    omega
  have hfirst := List.nodup_append.mp hnodup
  obtain ⟨h', hrun, -, hstatus⟩ := e.law.freeAll_ok (r := e.present) hr.ledger.shows
    (fun x hx => hmem x (List.mem_append_left _ hx)) (Or.inr hfirst.1)
  obtain rfl : h' = h := Except.ok.inj (hrun.symm.trans hfree)
  have ho : o ∈ e.present := hmem o (by simp)
  have hleft : o ∈ e.law.left e.present before := by
    rw [Lawful.left, hkeeps]
    refine Finset.mem_sdiff.mpr ⟨ho, fun hb => ?_⟩
    exact hfirst.2.2 o (List.mem_toFinset.mp hb) o List.mem_cons_self rfl
  have hqueued : o ∉ j.collector.queued := by
    have honce := hr.once hexact o
    have hpos : 0 < j.dead.count o := List.count_pos_iff.mpr (by simp [hdead])
    exact List.count_eq_zero.mp (by omega)
  refine ⟨?_, hqueued⟩
  rw [isBuffered, hstatus o hleft]
  exact Bool.eq_false_iff.mpr fun hb => hqueued ((hr.flagged hexact o ho).mp hb)

-- Every round frees between two settled states.
theorem of_rounds (hr : Increment.Rounds deadline i j) (hi : Settled e gone i) (he : e.Sound) :
    ∃ freed gone', Settled { e with freed } gone' j := by
  induction hr generalizing e gone with
  | @here i j aborted h =>
    have hread : Settled e gone i.now.2 := { hi with }
    obtain ⟨a, j', i', grey, white, htry, hj, -⟩ := hread.collectSome he deadline
    rw [h] at htry
    cases htry
    exact ⟨e.freed, gone ∪ white, hj⟩
  | @later i j k h _ ih =>
    have hread : Settled e gone i.now.2 := { hi with }
    obtain ⟨a, j', i', grey, white, htry, -, hfree, hround⟩ := hread.collectSome he deadline
    have hrun := Increment.collectSome_of_tryRoots htry hfree
    rw [h] at hrun
    cases hrun
    exact ih (e := { e with freed := k.freed }) hround.settled
      { he with }

theorem filterFirst (hi : Settled e gone i) (he : e.Sound) (deadline : Nat) :
    ∃ j, i.filterFirst deadline = .ok j ∧
      Settled { e with unfiltered := j.collector.unfiltered } gone j := by
  have hread : Settled e gone { i.now.2 with stage := .filter } := { hi with }
  obtain ⟨front, j, hfilter, hj, -⟩ :=
    hread.filterNew he (i.now.1 + filterShare (deadline - i.now.1))
  exact ⟨j, hfilter, hj⟩

-- What an increment frees is no candidate.
theorem clear_of_frees (hi : Settled e gone i) (he : e.Sound) (hexact : e.exact)
    (hkeeps : e.law.keeps = false) (hm : i.Frees deadline m) : m.Clear := by
  obtain ⟨j, before, after, hclears, hdead, hfree, -, hcollector⟩ := hm
  obtain ⟨j', hfirst, hj'⟩ := hi.filterFirst he deadline
  have he' : Scope.Sound { e with unfiltered := j'.collector.unfiltered } :=
    { he with }
  obtain ⟨e', gone', hj, hexact', hkeeps'⟩ : ∃ (e' : Scope σ) (gone' : Finset Nat),
      Settled e' gone' j ∧ e'.exact ∧ e'.law.keeps = false := by
    cases hclears with
    | filter h =>
      obtain rfl : j' = j := Except.ok.inj (hfirst.symm.trans h)
      exact ⟨_, gone, hj', hexact, hkeeps⟩
    | @round k l h hprocess hrounds =>
      obtain rfl := Except.ok.inj (hfirst.symm.trans h)
      obtain ⟨l', hprocess', hl, -⟩ := hj'.processFree he'
      obtain rfl : l' = l := Except.ok.inj (hprocess'.symm.trans hprocess)
      have hl' : Settled { e with unfiltered := j'.collector.unfiltered, freed := l'.freed } gone
          { l' with stats := { l'.stats with detected := true } } := { hl with }
      obtain ⟨freed, gone', hj⟩ := of_rounds hrounds hl'
        { he with }
      exact ⟨_, gone', hj, hexact, hkeeps⟩
  obtain ⟨hb, hq⟩ := hj.clear_of_dead hexact' hkeeps' hdead hfree
  exact ⟨hb, hcollector ▸ hq⟩

-- What the rounds of an increment freed was dead before one of them ended.
theorem freed_detect (hi : Settled e gone i) (he : e.Sound) (steps : Nat) {aborted : Bool}
    (h : i.detect deadline steps = .ok (aborted, k)) (ho : o ∈ k.freed) :
    o ∈ i.freed ∨ ∃ j l, Increment.Rounds deadline i j ∧ j.processFree = .ok l ∧ o ∈ j.dead := by
  induction steps generalizing e gone i with
  | zero => cases h
  | succ steps ih =>
    rw [Increment.detect] at h
    split at h
    · cases h
      exact Or.inl ho
    · change (if cycleShare i.now.2.collector.settings.timeCap < deadline - i.now.1 then _ else _) = _
        at h
      split at h
      · have hread : Settled e gone i.now.2 := { hi with }
        obtain ⟨a, j, l, grey, white, htry, hj, hfree, hl⟩ := hread.collectSome he deadline
        have hrun := Increment.collectSome_of_tryRoots htry hfree
        obtain ⟨q, hround, h⟩ := bind_eq_ok.mp h
        obtain rfl : (a, l) = q := Except.ok.inj (hrun.symm.trans hround)
        have hfreed : l.freed = j.dead.reverse ++ i.freed := by
          rw [(Increment.processFree_eq_ok hfree).2, hj.freed_eq, hi.freed_eq]
        have hlast : o ∈ l.freed → o ∈ i.freed ∨
            ∃ j l, Increment.Rounds deadline i j ∧ j.processFree = .ok l ∧ o ∈ j.dead := fun hol => by
          rw [hfreed, List.mem_append, List.mem_reverse] at hol
          exact hol.symm.imp_right fun hd => ⟨j, l, .here htry, hfree, hd⟩
        cases a with
        | true =>
          cases h
          exact hlast ho
        | false =>
          rcases ih hl.settled { he with } h with
            hol | ⟨j', l', hrounds, hprocess, hd⟩
          · exact hlast hol
          · exact Or.inr ⟨j', l', .later hrun hrounds, hprocess, hd⟩
      · cases h
        exact Or.inl ho

-- All that an increment freed was freed at some moment.
theorem frees_of_mem (hi : Settled e gone i) (he : e.Sound) (hfreed : i.freed = [])
    {available count : Nat} {aborted : Bool}
    (h : i.act available count deadline = .ok (aborted, k)) (ho : o ∈ k.freed) :
    ∃ m, i.Frees deadline m ∧ m.object = o := by
  by_cases hact : shouldAct available i.collector.settings.filterPages count = true
  · by_cases htime : deadline - i.now.1 ≤ filterShare i.collector.settings.timeCap
    · simp only [Increment.act, hact, Bool.not_true, Bool.false_eq_true, if_false] at h
      have h := (if_pos htime).symm.trans h
      cases h
      rw [show i.now.2.freed = i.freed from rfl, hfreed] at ho
      cases ho
    · obtain ⟨j, hfirst, hj⟩ := hi.filterFirst he deadline
      have he' : Scope.Sound { e with unfiltered := j.collector.unfiltered } :=
        { he with }
      obtain ⟨l, hfree, hl, -⟩ := hj.processFree he'
      have hjfreed : j.freed = [] := hj.freed_eq.trans (hi.freed_eq.symm.trans hfreed)
      have hfilter : o ∈ l.freed → ∃ m, i.Frees deadline m ∧ m.object = o := fun hol => by
        rw [(Increment.processFree_eq_ok hfree).2, hjfreed, List.append_nil, List.mem_reverse] at hol
        exact (Increment.Clears.filter hfirst).frees hfree hol
      rw [Increment.act_of_filtered hact htime hfirst hfree] at h
      split at h
      · cases h
        exact hfilter ho
      · obtain ⟨⟨a, k'⟩, hdetect, h⟩ := bind_eq_ok.mp h
        cases h
        have hl' : Settled { e with unfiltered := j.collector.unfiltered, freed := l.freed } gone
            { l with stats := { l.stats with detected := true } } := { hl with }
        rcases hl'.freed_detect { he with } _
          hdetect ho with hol | ⟨j', l', hrounds, hprocess, hd⟩
        · exact hfilter hol
        · exact (Increment.Clears.round hfirst hfree hrounds).frees hprocess hd
  · simp only [Increment.act, hact, Bool.not_false, if_true] at h
    cases h
    rw [hfreed] at ho
    cases ho

end Settled

end Trial

-- What an increment of cycle collection frees is no candidate, and it leaves nothing to be freed.
namespace Counting.Tally

variable {L : Lawful σ} {k : Census} {ext : Nat → Nat} {r : Finset Nat} {h : σ} {c : Collector}
variable {m : Moment σ} {deadline : Nat}
variable (ht : Tally L k ext r h c []) (hgrain : c.settings.visitGrain ≠ 0)
variable (hbound : c.settings.visitBound ≠ 0) (hfilter : c.settings.filterBound ≠ 0) (clock : Clock)
include ht hgrain hbound hfilter

theorem entry_sound : (Scope.entry L (census k r h) True c ⟨h, clock⟩).Sound :=
  ⟨ht.consistent, Or.inr trivial, hgrain, hbound, hfilter⟩

theorem clear_of_increment (hkeeps : L.keeps = false)
    (hm : Increment.Frees deadline { timed := ⟨h, clock⟩, collector := c } m) : m.Clear :=
  Settled.clear_of_frees (ht.ready.settled (t := ⟨h, clock⟩))
    (ht.entry_sound hgrain hbound hfilter clock) trivial hkeeps hm

theorem frees_of_increment {available count : Nat} {out : Outcome σ} {o : Nat}
    (hrun : c.runUntil available count deadline ⟨h, clock⟩ = .ok out) (ho : o ∈ out.freed) :
    ∃ m, Increment.Frees deadline { timed := ⟨h, clock⟩, collector := c } m ∧ m.object = o := by
  obtain ⟨⟨aborted, i⟩, hact, hout⟩ := bind_eq_ok.mp hrun
  cases hout
  exact Settled.frees_of_mem (ht.ready.settled (t := ⟨h, clock⟩))
    (ht.entry_sound hgrain hbound hfilter clock) rfl hact (List.mem_reverse.mp ho)

theorem dead_of_act {available count : Nat} {aborted : Bool} {i : Increment σ}
    (hact : Increment.act available count deadline { timed := ⟨h, clock⟩, collector := c } =
      .ok (aborted, i)) : i.dead = [] := by
  obtain ⟨aborted', i', gone, hrun, -, hdead, -⟩ :=
    (ht.ready.settled (t := ⟨h, clock⟩)).act (ht.entry_sound hgrain hbound hfilter clock) rfl
      ht.ready.filtered_eq available count deadline
  rw [hact] at hrun
  cases hrun
  exact hdead

end Counting.Tally

end Reclaim
