import Reclaim.Proofs.Trial.Blackening

/-!
Marking and blackening with their lists in the open. Both keep what they still have to visit in a list
of its own, and the references of the object visited last in one that they share. A traversal that
comes to its end, in time or not, leaves these lists as it found them: empty.
-/
namespace Reclaim.Trial

open CountedHeap

-- A traversal takes up one object after the other. It looks at the references it loads from an object
-- one by one, and some of these it is to visit in turn.
structure Traversal (τ : Type) where
  load : Nat → τ → Except Fault (List Nat × τ)
  follow : Nat → τ → Except Fault (Bool × τ)

-- What is still to be visited, the next one first, and the references that were not looked at yet.
structure Agenda (τ : Type) where
  pending : List Nat
  children : List Nat
  state : τ

namespace Traversal

variable {τ : Type} (v : Traversal τ)

inductive Step : Agenda τ → Agenda τ → Prop
  | load {o : Nat} {pending children : List Nat} {s s' : τ} : v.load o s = .ok (children, s') →
    Step ⟨o :: pending, [], s⟩ ⟨pending, children, s'⟩
  | push {c : Nat} {pending children : List Nat} {s s' : τ} : v.follow c s = .ok (true, s') →
    Step ⟨pending, c :: children, s⟩ ⟨c :: pending, children, s'⟩
  | pass {c : Nat} {pending children : List Nat} {s s' : τ} : v.follow c s = .ok (false, s') →
    Step ⟨pending, c :: children, s⟩ ⟨pending, children, s'⟩

def Steps : Agenda τ → Agenda τ → Prop := Relation.ReflTransGen v.Step

variable {v}

-- What visits keep up holds when nothing is left to visit.
theorem of_worklist {visit : Nat → τ → Except Fault (List Nat × τ)} {P : List Nat → τ → Prop}
    (step : ∀ o work s found s', P (o :: work) s → visit o s = .ok (found, s') →
      P (found.reverse ++ work) s')
    {fuel : Nat} {work : List Nat} {s s' : τ} (h : worklist visit fuel work s = .ok s')
    (hi : P work s) : P [] s' := by
  induction fuel generalizing work s with
  | zero =>
    cases work with
    | nil =>
      cases h
      exact hi
    | cons o work => cases h
  | succ fuel ih =>
    cases work with
    | nil =>
      cases h
      exact hi
    | cons o work =>
      obtain ⟨⟨found, s₁⟩, hvisit, h⟩ := bind_eq_ok.mp h
      exact ih h (step _ _ _ _ _ hi hvisit)

end Traversal

variable {σ : Type} [CountedHeap σ]

-- Marking takes one count off each reference that it follows.
def marking (σ : Type) [CountedHeap σ] (grain limit : Nat) : Traversal (Marking σ) where
  load o m := do
    let m ← m.arrive grain limit
    if m.aborted || color m.timed.heap o == .grey then .ok ([], m)
    else
      let (children, timed) ← (m.timed.onHeap fun h => setColor h o .grey).references o
      .ok (children, { m with timed })
  follow c m := do
    if ← isTraced m.timed.heap c then
      match decrement? m.timed.heap c with
      | none => .error (.fatal (.greyUnderflow c))
      | some (_, heap) => .ok (true, { m with timed := { m.timed with heap } })
    else .ok (false, m)

-- Blackening gives one count back to each reference that it follows, and goes on to what is grey or
-- white.
def blackening (σ : Type) [CountedHeap σ] : Traversal (Timed σ) where
  load o t :=
    if isGreyOrWhite t.heap o then (t.onHeap fun h => setColor h o .black).references o
    else .ok ([], t)
  follow c t := do
    if ← isTraced t.heap c then
      let t := t.onHeap (increment · c)
      .ok (isGreyOrWhite t.heap c, t)
    else .ok (false, t)

section Marking

variable {grain limit : Nat}

theorem marking_follow {m : Marking σ} {cs found pending : List Nat} {h h' : σ}
    (htake : Marking.takeCounts h cs = .ok (found, h')) :
    (marking σ grain limit).Steps ⟨pending, cs, { m with timed := { m.timed with heap := h } }⟩
      ⟨found.reverse ++ pending, [], { m with timed := { m.timed with heap := h' } }⟩ := by
  induction cs generalizing h found pending with
  | nil =>
    cases htake
    exact .refl
  | cons c rest ih =>
    obtain ⟨traced, htraced, htake⟩ := bind_eq_ok.mp htake
    cases traced with
    | false =>
      refine .head (.pass ?_) (ih htake)
      simp only [marking, htraced, ok_bind, Bool.false_eq_true, if_false]
    | true =>
      cases hdec : decrement? h c with
      | none =>
        simp only [hdec, if_true] at htake
        cases htake
      | some p =>
        obtain ⟨n, h₁⟩ := p
        simp only [hdec, if_true] at htake
        obtain ⟨⟨more, h₂⟩, hrest, htake⟩ := bind_eq_ok.mp htake
        cases htake
        rw [List.reverse_cons, List.append_assoc, List.singleton_append]
        refine .head (.push ?_) (ih hrest)
        simp only [marking, htraced, ok_bind, if_true, hdec]

theorem marking_visit {o : Nat} {m m' : Marking σ} {found pending : List Nat}
    (hvisit : Marking.visit grain limit o m = .ok (found, m')) :
    (marking σ grain limit).Steps ⟨o :: pending, [], m⟩ ⟨found.reverse ++ pending, [], m'⟩ := by
  obtain ⟨m₁, harrive, hvisit⟩ := bind_eq_ok.mp hvisit
  by_cases hstop : (m₁.aborted || color m₁.timed.heap o == .grey) = true
  · rw [if_pos hstop] at hvisit
    cases hvisit
    refine .single (.load ?_)
    simp only [marking, harrive, ok_bind, hstop, if_true]
  · rw [if_neg hstop] at hvisit
    obtain ⟨⟨children, t⟩, hshade, hvisit⟩ := bind_eq_ok.mp hvisit
    cases hvisit
    obtain ⟨⟨refs, t₁⟩, hrefs, hshade⟩ := bind_eq_ok.mp hshade
    obtain ⟨⟨taken, h'⟩, htake, hshade⟩ := bind_eq_ok.mp hshade
    cases hshade
    refine .head (.load ?_) (marking_follow (m := { m₁ with timed := t₁ }) htake)
    simp only [marking, harrive, ok_bind, hstop, hrefs]
    rfl

-- A marking empties its lists, even when time runs out on the way.
theorem markGrey_steps {o : Nat} {m m' : Marking σ} (h : markGrey grain limit o m = .ok m') :
    (marking σ grain limit).Steps ⟨[o], [], { m with aborted := false }⟩ ⟨[], [], m'⟩ :=
  Traversal.of_worklist (P := fun work s =>
      (marking σ grain limit).Steps ⟨[o], [], { m with aborted := false }⟩ ⟨work, [], s⟩)
    (fun _ _ _ _ _ hi hvisit => hi.trans (marking_visit hvisit)) h .refl

end Marking

section Blackening

variable {L : Lawful σ} {k : Census} {r gone : Finset Nat}

-- Giving a count back changes no colour, so it does not matter when one looks.
theorem color_increment {h : σ} {c x : Nat} (hs : L.Shows h k r) (hc : c ∈ r) (hx : x ∈ r) :
    color (increment h c) x = color h x := by
  simp only [color, increment, L.status_setStatus hs hc hx]
  split
  · rename_i hxc
    rw [Status.color_increment, hxc]
  · rfl

theorem isGreyOrWhite_increment {h : σ} {c x : Nat} (hs : L.Shows h k r) (hc : c ∈ r) (hx : x ∈ r) :
    isGreyOrWhite (increment h c) x = isGreyOrWhite h x := by
  simp only [isGreyOrWhite, color_increment hs hc hx]

theorem isGreyOrWhite_increments {h : σ} {cs : List Nat} {x : Nat} (hs : L.Shows h k r)
    (hcs : ∀ c ∈ cs, c ∈ r) (hx : x ∈ r) :
    isGreyOrWhite (cs.foldl increment h) x = isGreyOrWhite h x := by
  induction cs generalizing h with
  | nil => rfl
  | cons c rest ih =>
    have hcr : c ∈ r := hcs c List.mem_cons_self
    exact (ih (L.shows_setStatus hs hcr _) fun y hy => hcs y (List.mem_cons_of_mem _ hy)).trans
      (isGreyOrWhite_increment hs hcr hx)

theorem blackening_follow {o : Nat} {cs pending : List Nat} {t : Timed σ}
    (hs : L.Shows t.heap k r) (ho : o ∈ r)
    (hgreen : ∀ x ∈ r, color t.heap x = .green ↔ k.isGreen x = true)
    (hcs : ∀ c ∈ cs, c ∈ k.references o ∧ (k.isCounted c = true → c ∈ r)) :
    (blackening σ).Steps ⟨pending, cs, t⟩
      ⟨((cs.filter k.follows).filter (isGreyOrWhite t.heap)).reverse ++ pending, [],
        { t with heap := (cs.filter k.follows).foldl increment t.heap }⟩ := by
  induction cs generalizing t pending with
  | nil => exact .refl
  | cons c rest ih =>
    have hrest : ∀ x ∈ rest, x ∈ k.references o ∧ (k.isCounted x = true → x ∈ r) :=
      fun x hx => hcs x (List.mem_cons_of_mem _ hx)
    obtain ⟨href, hmem⟩ := hcs c List.mem_cons_self
    have htraced := isTraced_eq hs ho hgreen href hmem
    cases hf : k.follows c with
    | false =>
      rw [List.filter_cons_of_neg (by simp [hf])]
      refine .head (.pass ?_) (ih hs hgreen hrest)
      simp only [blackening, htraced, hf, ok_bind, Bool.false_eq_true, if_false]
    | true =>
      have hcr : c ∈ r := hmem (by simp only [Census.follows, Bool.and_eq_true] at hf; exact hf.1)
      have htint := fun x (hx : x ∈ r) => isGreyOrWhite_increment hs hcr hx
      have hlater : (rest.filter k.follows).filter (isGreyOrWhite (increment t.heap c)) =
          (rest.filter k.follows).filter (isGreyOrWhite t.heap) := by
        refine List.filter_congr fun x hx => htint x ?_
        obtain ⟨hx, hfx⟩ := List.mem_filter.mp hx
        simp only [Census.follows, Bool.and_eq_true] at hfx
        exact (hrest x hx).2 hfx.1
      have hsteps (pending : List Nat) : (blackening σ).Steps ⟨pending, rest, t.onHeap (increment · c)⟩ _ :=
        ih (L.shows_setStatus hs hcr _) (fun x hx => by
          rw [← hgreen x hx, Timed.onHeap, color_increment hs hcr hx]) hrest
      have hfollow : (blackening σ).follow c t =
          .ok (isGreyOrWhite t.heap c, t.onHeap (increment · c)) := by
        simp only [blackening, htraced, hf, ok_bind, if_true]
        exact congrArg (fun b => Except.ok (b, _)) (htint c hcr)
      rw [List.filter_cons_of_pos hf, List.foldl_cons]
      cases hgrey : isGreyOrWhite t.heap c with
      | false =>
        rw [List.filter_cons_of_neg (by simp [hgrey]), ← hlater]
        exact .head (.pass (hgrey ▸ hfollow)) (hsteps pending)
      | true =>
        rw [List.filter_cons_of_pos hgrey, List.reverse_cons, List.append_assoc,
          List.singleton_append, ← hlater]
        exact .head (.push (hgrey ▸ hfollow)) (hsteps (c :: pending))

theorem blackening_visit {o : Nat} {t t' : Timed σ} {found pending : List Nat}
    (hl : Ledger L k t.heap r gone) (hk : k.Consistent) (hgar : k.Garbage gone) (ho : o ∈ r)
    (hvisit : blacken o t = .ok (found, t')) :
    (blackening σ).Steps ⟨o :: pending, [], t⟩ ⟨found.reverse ++ pending, [], t'⟩ := by
  cases hgw : isGreyOrWhite t.heap o with
  | false =>
    simp only [blacken, hgw, Bool.false_eq_true, if_false] at hvisit
    cases hvisit
    refine .single (.load ?_)
    simp only [blackening, hgw, Bool.false_eq_true, if_false]
  | true =>
    have ht : o ∈ tinted t.heap r := mem_tinted.mpr ⟨ho, (isGreyOrWhite_iff _ _).mp hgw⟩
    have hlive := hl.tinted_live ht
    have hgone := Finset.disjoint_left.mp hl.disjoint ht
    have hs := L.shows_setColor hl.shows ho .black
    have hgreen : ∀ x ∈ r, color (setColor t.heap o .black) x = .green ↔ k.isGreen x = true := by
      intro x hx
      rw [L.color_setColor hl.shows ho hx]
      split
      · rename_i hxo
        simp [hxo, (Census.mem_live.mp hlive).2.1]
      · exact hl.green_iff x hx
    have hchild := fun c (hc : c ∈ k.references o) => hl.child_mem hk hgar hlive hgone hc
    have htraced : ∀ c ∈ k.traced o, c ∈ r :=
      fun c hc => hchild c (Census.mem_traced.mp hc).1 (Census.mem_traced.mp hc).2.1
    have hset : (t.onHeap fun h => setColor h o .black).tracedReferences o =
        .ok (k.traced o, ⟨setColor t.heap o .black, t.clock.visit⟩) :=
      tracedReferences_ok hs ho hgreen hchild
    have hload : (blackening σ).load o t =
        .ok (k.references o, ⟨setColor t.heap o .black, t.clock.visit⟩) := by
      simp only [blackening, hgw, if_true, Timed.references, Timed.onHeap, L.references_eq hs ho,
        ok_bind]
    simp only [blacken, hgw, if_true, hset, ok_bind] at hvisit
    cases hvisit
    have hsame : (k.traced o).filter
          (isGreyOrWhite ((k.traced o).foldl increment (setColor t.heap o .black))) =
        (k.traced o).filter (isGreyOrWhite (setColor t.heap o .black)) :=
      List.filter_congr fun c hc => isGreyOrWhite_increments hs htraced (htraced c hc)
    rw [hsame]
    exact .head (.load hload)
      (blackening_follow hs ho hgreen fun c hc => ⟨hc, hchild c hc⟩)

theorem scanBlack_steps {o : Nat} {t t' : Timed σ} (hl : Ledger L k t.heap r gone)
    (hk : k.Consistent) (hgar : k.Garbage gone) (ho : o ∈ r) (h : scanBlack o t = .ok t') :
    (blackening σ).Steps ⟨[o], [], t⟩ ⟨[], [], t'⟩ := by
  refine (Traversal.of_worklist (P := fun work s => Receding L k r gone t.heap t.clock.time o work s ∧
    (blackening σ).Steps ⟨[o], [], t⟩ ⟨work, [], s⟩) ?_ h ⟨.start hl ho, .refl⟩).2
  rintro w work s found s' ⟨hi, hsteps⟩ hvisit
  obtain ⟨found', s₁, hvisit', hnext, -⟩ := hi.visit hk hgar
  cases hvisit.symm.trans hvisit'
  have hwr := (hi.pending w List.mem_cons_self).1
  exact ⟨hnext, hsteps.trans (blackening_visit hi.ledger hk hgar hwr hvisit)⟩

end Blackening

end Reclaim.Trial
