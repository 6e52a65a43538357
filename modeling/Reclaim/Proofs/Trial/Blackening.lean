import Reclaim.Proofs.Trial.Marking

/-!
Blackening: what is grey or white and linked to the object it starts from turns black and gets back
what marking took off. Whatever it turns black, apart from its start, is held by something black, so
its count is positive again.
-/
namespace Reclaim.Trial

open CountedHeap

theorem filterAuxM_ok {α : Type} {p : α → Except Fault Bool} {q : α → Bool} (xs acc : List α)
    (h : ∀ x ∈ xs, p x = .ok (q x)) :
    xs.filterAuxM p acc = .ok ((xs.filter q).reverse ++ acc) := by
  induction xs generalizing acc with
  | nil => rfl
  | cons x rest ih =>
    have hrest : ∀ y ∈ rest, p y = .ok (q y) := fun y hy => h y (List.mem_cons_of_mem _ hy)
    rw [List.filterAuxM, h x List.mem_cons_self]
    simp only [ok_bind]
    rw [ih _ hrest]
    cases hq : q x <;> simp [hq]

theorem filterM_ok {α : Type} {p : α → Except Fault Bool} {q : α → Bool} {xs : List α}
    (h : ∀ x ∈ xs, p x = .ok (q x)) : xs.filterM p = .ok (xs.filter q) := by
  rw [List.filterM, filterAuxM_ok xs [] h]
  simp only [ok_bind, List.append_nil, List.reverse_reverse]
  rfl

variable {σ : Type} [CountedHeap σ] {L : Lawful σ} {k : Census} {r gone : Finset Nat}

-- Giving counts back, as long as none reaches the end of the count field.
theorem increments_ok (cs : List Nat) (h : σ) (hs : L.Shows h k r) (hcs : ∀ c ∈ cs, c ∈ r)
    (hroom : ∀ x ∈ r, count h x + cs.count x < 2 ^ 56) :
    L.Shows (cs.foldl increment h) k r ∧ ∀ x ∈ r,
      count (cs.foldl increment h) x = count h x + cs.count x ∧
      color (cs.foldl increment h) x = color h x ∧
      isBuffered (cs.foldl increment h) x = isBuffered h x := by
  induction cs generalizing h with
  | nil => exact ⟨hs, fun x _ => by simp⟩
  | cons c rest ih =>
    have hcr : c ∈ r := hcs c List.mem_cons_self
    have hfree : count h c + 1 < 2 ^ 56 := by
      have hc := hroom c hcr
      simp only [List.count_cons_self] at hc
      omega
    have hset := fun x (hx : x ∈ r) =>
      L.status_setStatus hs hcr hx (Status.increment (status h c))
    have hone : ∀ x ∈ r, count (increment h c) x = count h x + (if c = x then 1 else 0) ∧
        color (increment h c) x = color h x ∧ isBuffered (increment h c) x = isBuffered h x := by
      intro x hx
      simp only [CountedHeap.count, color, isBuffered, increment, hset x hx]
      by_cases hxc : x = c
      · subst hxc
        simp only [if_true]
        exact ⟨Status.count_increment hfree, Status.color_increment _,
          Status.isBuffered_increment hfree⟩
      · simp [hxc, Ne.symm hxc]
    have hroom' : ∀ x ∈ r, count (increment h c) x + rest.count x < 2 ^ 56 := by
      intro x hx
      have hx' := hroom x hx
      simp only [List.count_cons, beq_iff_eq] at hx'
      rw [(hone x hx).1]
      omega
    obtain ⟨hs', hafter⟩ := ih (increment h c) (L.shows_setStatus hs hcr _)
      (fun x hx => hcs x (List.mem_cons_of_mem _ hx)) hroom'
    refine ⟨hs', fun x hx => ?_⟩
    obtain ⟨h1, h2, h3⟩ := hafter x hx
    obtain ⟨g1, g2, g3⟩ := hone x hx
    simp only [List.foldl_cons, List.count_cons, beq_iff_eq]
    exact ⟨by omega, h2.trans g2, h3.trans g3⟩

-- Visiting an object for the references that are followed.
theorem tracedReferences_ok {t : Timed σ} {o : Nat} (hs : L.Shows t.heap k r) (ho : o ∈ r)
    (hgreen : ∀ x ∈ r, color t.heap x = .green ↔ k.isGreen x = true)
    (hchild : ∀ c ∈ k.references o, k.isCounted c = true → c ∈ r) :
    t.tracedReferences o = .ok (k.traced o, { t with clock := t.clock.visit }) := by
  have hfilter : (k.references o).filterM (isTraced t.heap) = .ok (k.traced o) :=
    filterM_ok fun c hc => isTraced_eq hs ho hgreen hc (hchild c hc)
  simp only [Timed.tracedReferences, Timed.references, L.references_eq hs ho, ok_bind, hfilter]

-- Turning one grey or white object black moves the counts it gave back to its children.
theorem blacken_ok {t : Timed σ} {o : Nat} (hl : Ledger L k t.heap r gone) (hk : k.Consistent)
    (hgar : k.Garbage gone) (ht : o ∈ tinted t.heap r) :
    ∃ t', blacken o t = .ok ((k.traced o).filter (isGreyOrWhite t'.heap), t') ∧
      Ledger L k t'.heap r gone ∧ tinted t'.heap r = (tinted t.heap r).erase o ∧
      Turned r .black o t t' := by
  have hr : o ∈ r := Ledger.tinted_subset ht
  have ho : o ∈ k.live := hl.tinted_live ht
  have hog : o ∉ gone := Finset.disjoint_left.mp hl.disjoint ht
  have hs := L.shows_setColor hl.shows hr .black
  have hgreen := green_iff_setColor hl.shows hl.green_iff hr (Census.mem_live.mp ho).2.1
    (c := .black) (by simp)
  have hroom : ∀ x ∈ r,
      count (setColor t.heap o .black) x + (k.traced o).count x < 2 ^ 56 := by
    intro x hx
    rw [L.count_setColor hl.shows hr hx]
    have heq := hl.count_eq x hx
    have herase := k.held_erase ht x
    have hword := hk.word x (hl.subset hx)
    omega
  obtain ⟨hs', hafter⟩ := increments_ok (k.traced o) _ hs
    (fun c hc => (hl.traced_mem hk hgar ho hog hc).2.2) hroom
  have htint : tinted ((k.traced o).foldl increment (setColor t.heap o .black)) r =
      (tinted t.heap r).erase o := by
    rw [← tinted_setColor_plain L hl.shows hr (c := .black) (by simp) (by simp)]
    exact tinted_congr fun x hx => (hafter x hx).2.1
  have hsub : (tinted t.heap r).erase o ⊆ tinted t.heap r := Finset.erase_subset _ _
  have hset : (t.onHeap fun h => setColor h o .black).tracedReferences o =
      .ok (k.traced o, ⟨setColor t.heap o .black, t.clock.visit⟩) :=
    tracedReferences_ok hs hr hgreen fun c hc => hl.child_mem hk hgar ho hog hc
  refine ⟨⟨(k.traced o).foldl increment (setColor t.heap o .black), t.clock.visit⟩, ?_,
    hl.rebalance hs' ?word ?green (htint ▸ hsub.trans hl.tinted_live)
      (htint ▸ Finset.disjoint_of_subset_left hsub hl.disjoint) ?balance, htint,
    turned_of_setColor hl.shows hr rfl (fun x hx => (hafter x hx).2.1) fun x hx => (hafter x hx).2.2⟩
  · have hgw : isGreyOrWhite t.heap o = true :=
      (isGreyOrWhite_iff _ _).mpr (mem_tinted.mp ht).2
    simp only [blacken, hgw, if_true, hset, ok_bind]
  case word =>
    intro x hx
    have hc : count _ x < 2 ^ 56 := (hafter x hx).1 ▸ hroom x hx
    exact (Status.lt_bound_iff _).mpr hc
  case green =>
    intro x hx
    rw [(hafter x hx).2.1, hgreen x hx, hl.green_iff x hx]
  case balance =>
    intro x hx
    have herase := k.held_erase ht x
    rw [(hafter x hx).1, L.count_setColor hl.shows hr hx, htint]
    omega

-- A blackening under way that started at `o` in heap `h`, with `work` still to be visited.
structure Receding (L : Lawful σ) (k : Census) (r gone : Finset Nat) (h : σ)
    (time : Nat → Nat → Nat) (o : Nat) (work : List Nat) (t : Timed σ) : Prop where
  ledger : Ledger L k t.heap r gone
  time_eq : t.clock.time = time
  buffered : ∀ x ∈ r, isBuffered t.heap x = isBuffered h x
  less : tinted t.heap r ⊆ tinted h r
  same : ∀ x ∈ r, x ∉ tinted h r \ tinted t.heap r → color t.heap x = color h x
  black : ∀ x ∈ tinted h r \ tinted t.heap r, color t.heap x = .black ∧
    k.Linked (tinted h r) o x ∧ (x = o ∨ ∃ p ∈ tinted h r \ tinted t.heap r, x ∈ k.traced p)
  pending : ∀ w ∈ work, w ∈ r ∧ (w = o ∨ ∃ p ∈ tinted h r \ tinted t.heap r, w ∈ k.traced p)
  closed : ∀ b ∈ tinted h r \ tinted t.heap r, ∀ c ∈ k.traced b,
    c ∈ tinted t.heap r → c ∈ work
  started : o ∈ tinted t.heap r → o ∈ work

namespace Receding

variable {h : σ} {time : Nat → Nat → Nat} {o : Nat}

theorem skip {w : Nat} {work : List Nat} {t : Timed σ}
    (hi : Receding L k r gone h time o (w :: work) t) (hw : w ∉ tinted t.heap r) :
    Receding L k r gone h time o work t where
  ledger := hi.ledger
  time_eq := hi.time_eq
  buffered := hi.buffered
  less := hi.less
  same := hi.same
  black := hi.black
  pending x hx := hi.pending x (List.mem_cons_of_mem _ hx)
  closed b hb c hc ht := List.mem_of_ne_of_mem (ne_of_mem_of_not_mem ht hw) (hi.closed b hb c hc ht)
  started ht := List.mem_of_ne_of_mem (ne_of_mem_of_not_mem ht hw) (hi.started ht)

-- A visit that turns an object black has those of its children still to be visited that are not.
theorem blacken (hk : k.Consistent) (hgar : k.Garbage gone) {w : Nat} {work : List Nat}
    {t t' : Timed σ} (hi : Receding L k r gone h time o (w :: work) t) (hw : w ∈ tinted t.heap r)
    (hl' : Ledger L k t'.heap r gone) (htint : tinted t'.heap r = (tinted t.heap r).erase w)
    (hturn : Turned r .black w t t') :
    Receding L k r gone h time o
      (((k.traced w).filter (isGreyOrWhite t'.heap)).reverse ++ work) t' := by
  obtain ⟨hwr, hwo⟩ := hi.pending w List.mem_cons_self
  have hwh : w ∈ tinted h r := hi.less hw
  have hblack : tinted h r \ tinted t'.heap r = insert w (tinted h r \ tinted t.heap r) := by
    rw [htint, Finset.sdiff_erase hwh]
  have hwb : w ∈ tinted h r \ tinted t'.heap r := hblack ▸ Finset.mem_insert_self _ _
  have hsub : tinted h r \ tinted t.heap r ⊆ tinted h r \ tinted t'.heap r :=
    hblack ▸ Finset.subset_insert _ _
  exact {
    ledger := hl'
    time_eq := hturn.time_eq.trans hi.time_eq
    buffered := fun x hx => (hturn.buffered x hx).trans (hi.buffered x hx)
    less := htint.trans_subset ((Finset.erase_subset _ _).trans hi.less)
    same := fun x hx hn => (hturn.color_ne x hx (ne_of_mem_of_not_mem hwb hn).symm).trans
      (hi.same x hx fun hb => hn (hsub hb))
    black := by
      intro x hx
      have hxr : x ∈ r := Ledger.tinted_subset (Finset.mem_sdiff.mp hx).1
      by_cases hxw : x = w
      · subst hxw
        refine ⟨hturn.color_self, ?_⟩
        rcases hwo with rfl | ⟨p, hp, hpx⟩
        · exact ⟨.refl hwh, Or.inl rfl⟩
        · exact ⟨(hi.black p hp).2.1.tail hpx hwh, Or.inr ⟨p, hsub hp, hpx⟩⟩
      · obtain ⟨hcolor, hlink, hfrom⟩ := hi.black x (Finset.mem_of_mem_insert_of_ne (hblack ▸ hx) hxw)
        refine ⟨(hturn.color_ne x hxr hxw).trans hcolor, hlink, hfrom.imp_right ?_⟩
        rintro ⟨p, hp, hpx⟩
        exact ⟨p, hsub hp, hpx⟩
    pending := by
      intro x hx
      rcases List.mem_append.mp hx with hx | hx
      · have hxt : x ∈ k.traced w := (List.mem_filter.mp (List.mem_reverse.mp hx)).1
        have hwl := hi.ledger.tinted_live hw
        have hwg := Finset.disjoint_left.mp hi.ledger.disjoint hw
        exact ⟨(hi.ledger.traced_mem hk hgar hwl hwg hxt).2.2, Or.inr ⟨w, hwb, hxt⟩⟩
      · obtain ⟨hxr, hxo⟩ := hi.pending x (List.mem_cons_of_mem _ hx)
        refine ⟨hxr, hxo.imp_right ?_⟩
        rintro ⟨p, hp, hpx⟩
        exact ⟨p, hsub hp, hpx⟩
    closed := by
      intro b hb c hc ht
      rcases Finset.mem_insert.mp (hblack ▸ hb) with rfl | hb
      · refine List.mem_append_left _ (List.mem_reverse.mpr (List.mem_filter.mpr ⟨hc, ?_⟩))
        exact (isGreyOrWhite_iff _ _).mpr (mem_tinted.mp ht).2
      · obtain ⟨hcw, ht⟩ := Finset.mem_erase.mp (htint ▸ ht)
        exact List.mem_append_right _ (List.mem_of_ne_of_mem hcw (hi.closed b hb c hc ht))
    started := by
      intro ht
      obtain ⟨how, ht⟩ := Finset.mem_erase.mp (htint ▸ ht)
      exact List.mem_append_right _ (List.mem_of_ne_of_mem how (hi.started ht)) }

theorem visit (hk : k.Consistent) (hgar : k.Garbage gone) {w : Nat} {work : List Nat}
    {t : Timed σ} (hi : Receding L k r gone h time o (w :: work) t) :
    ∃ found t', Trial.blacken w t = .ok (found, t') ∧
      Receding L k r gone h time o (found.reverse ++ work) t' ∧
      found.length + ∑ x ∈ tinted t'.heap r, (k.references x).length ≤
        ∑ x ∈ tinted t.heap r, (k.references x).length := by
  obtain ⟨hwr, -⟩ := hi.pending w List.mem_cons_self
  by_cases hw : w ∈ tinted t.heap r
  · obtain ⟨t', hrun, hl', htint, hturn⟩ := blacken_ok hi.ledger hk hgar hw
    refine ⟨_, t', hrun, hi.blacken hk hgar hw hl' htint hturn, ?_⟩
    have hlen : ((k.traced w).filter (isGreyOrWhite t'.heap)).length ≤
        (k.references w).length := (List.length_filter_le _ _).trans (k.length_traced_le w)
    have hsum := Finset.sum_erase_add _ (fun x => (k.references x).length) hw
    rw [htint]
    omega
  · refine ⟨[], t, ?_, hi.skip hw, by simp⟩
    have hgw : isGreyOrWhite t.heap w = false := by
      rw [Bool.eq_false_iff]
      intro ht
      exact hw (mem_tinted.mpr ⟨hwr, (isGreyOrWhite_iff _ _).mp ht⟩)
    simp only [Trial.blacken, hgw, Bool.false_eq_true, if_false]

-- Nothing that is still grey or white is held by what turned black.
theorem not_mem_of_black {t : Timed σ} (hi : Receding L k r gone h time o [] t) {b c : Nat}
    (hb : b ∈ tinted h r \ tinted t.heap r) (hc : c ∈ k.traced b) : c ∉ tinted t.heap r :=
  fun ht => List.not_mem_nil (hi.closed b hb c hc ht)

theorem start_not_mem {t : Timed σ} (hi : Receding L k r gone h time o [] t) :
    o ∉ tinted t.heap r := fun ht => List.not_mem_nil (hi.started ht)

-- All that is linked to the start has turned black.
theorem linked_not_mem {t : Timed σ} (hi : Receding L k r gone h time o [] t) {x : Nat}
    (hx : k.Linked (tinted h r) o x) : x ∉ tinted t.heap r := by
  intro ht
  have hout : ∀ y ∈ tinted h r, y ∉ tinted t.heap r → ∀ c ∈ k.traced y, c ∉ tinted t.heap r :=
    fun y hy hyt c hc => hi.not_mem_of_black (Finset.mem_sdiff.mpr ⟨hy, hyt⟩) hc
  exact hi.start_not_mem (hx.shrink hout ht).1

-- Counts of what is still grey or white are as they were.
theorem count_eq {t : Timed σ} (hi : Receding L k r gone h time o [] t)
    (hl : Ledger L k h r gone) {x : Nat} (hx : x ∈ tinted t.heap r) :
    count t.heap x = count h x := by
  have hxr : x ∈ r := Ledger.tinted_subset hx
  have hheld := k.held_eq_of_subset hi.less fun b hb hbt hc =>
    hi.not_mem_of_black (Finset.mem_sdiff.mpr ⟨hb, hbt⟩) hc hx
  have hbefore := hl.count_eq x hxr
  have hafter := hi.ledger.count_eq x hxr
  omega

-- Blackening takes no count off.
theorem count_le {t : Timed σ} (hi : Receding L k r gone h time o [] t) (hl : Ledger L k h r gone)
    {x : Nat} (hx : x ∈ r) : count h x ≤ count t.heap x := by
  have hbefore := hl.count_eq x hx
  have hafter := hi.ledger.count_eq x hx
  have hheld := k.held_mono hi.less x
  omega

-- Whatever turned black, but for the start, has a count again.
theorem count_pos {t : Timed σ} (hi : Receding L k r gone h time o [] t) (hk : k.Consistent)
    {x : Nat} (hx : x ∈ tinted h r \ tinted t.heap r) (hxo : x ≠ o) (hl : Ledger L k h r gone) :
    0 < count t.heap x := by
  obtain ⟨p, hp, hpx⟩ := (hi.black x hx).2.2.resolve_left hxo
  obtain ⟨hph, hpt⟩ := Finset.mem_sdiff.mp hp
  have hxr : x ∈ r := Ledger.tinted_subset (Finset.mem_sdiff.mp hx).1
  have hpg : p ∉ gone := Finset.disjoint_left.mp hl.disjoint hph
  have hle := hk.held_add_le (Finset.insert_subset (hl.tinted_live hph) hi.ledger.tinted_live)
    hl.gone_live (Finset.disjoint_insert_left.mpr ⟨hpg, hi.ledger.disjoint⟩) (hl.subset hxr)
  rw [k.held_insert hpt] at hle
  have hpos : 0 < (k.traced p).count x := List.count_pos_iff.mpr hpx
  have heq := hi.ledger.count_eq x hxr
  omega

-- The start is made a candidate again.
theorem setColor_purple {t : Timed σ} (hi : Receding L k r gone h time o [] t) (hor : o ∈ r)
    (hog : k.isGreen o = false) : Ledger L k (setColor t.heap o .purple) r gone ∧
      tinted (setColor t.heap o .purple) r = tinted t.heap r := by
  have hl := hi.ledger
  have hstart := hi.start_not_mem
  have hplain : color t.heap o ≠ .green := fun hc => by simp [(hl.green_iff o hor).mp hc] at hog
  have htint : tinted (setColor t.heap o .purple) r = tinted t.heap r := by
    rw [tinted_setColor_plain L hl.shows hor (by simp) (by simp), Finset.erase_eq_of_notMem hstart]
  exact ⟨hl.recolor hor htint (by simp [hplain]), htint⟩

end Receding

theorem Receding.start {o : Nat} {t : Timed σ} (hl : Ledger L k t.heap r gone) (ho : o ∈ r) :
    Receding L k r gone t.heap t.clock.time o [o] t := by
  refine ⟨hl, rfl, fun _ _ => rfl, le_refl _, fun _ _ _ => rfl, ?_, ?_, ?_, ?_⟩
  · intro x hx
    simp at hx
  · intro w hw
    rw [List.mem_singleton.mp hw]
    exact ⟨ho, Or.inl rfl⟩
  · intro b hb
    simp at hb
  · intro _
    exact List.mem_cons_self

theorem scanBlack_ok {o : Nat} {t : Timed σ} (hk : k.Consistent) (hgar : k.Garbage gone)
    (hl : Ledger L k t.heap r gone) (ho : o ∈ r) :
    ∃ t', scanBlack o t = .ok t' ∧ Receding L k r gone t.heap t.clock.time o [] t' := by
  apply worklist_ok (Receding L k r gone t.heap t.clock.time o)
    (fun t => ∑ x ∈ tinted t.heap r, (k.references x).length)
  · intro w work s hs
    exact hs.visit hk hgar
  · exact .start hl ho
  · have hle := (Finset.sum_le_sum_of_subset (f := fun x => (k.references x).length)
      (Ledger.tinted_subset (h := t.heap) (r := r))).trans (L.sum_le_extent hl.shows)
    simp only [List.length_cons, List.length_nil, steps]
    omega

-- An abandoned marking that started at `o` in heap `h` was turned black again from its root.
section Undoing

variable {h : σ} {time : Nat → Nat → Nat} {limit o : Nat} {m : Marking σ} {t : Timed σ}
  (hspread : Spreading L k r gone h time limit o [] m)
  (hrecede : Receding L k r gone m.timed.heap m.timed.clock.time o [] t)
include hspread hrecede

-- What the marking turned grey is linked to its root, so none of it stays grey.
theorem tinted_subset_of_undone : tinted t.heap r ⊆ tinted h r := by
  intro x hx
  by_contra hxh
  have hlink := (hspread.fresh x (Finset.mem_sdiff.mpr ⟨hrecede.less hx, hxh⟩)).2
  exact hrecede.linked_not_mem (hlink.mono Finset.sdiff_subset) hx

theorem color_eq_of_undone {x : Nat} (hx : x ∈ tinted t.heap r) : color t.heap x = color h x := by
  have hxr : x ∈ r := Ledger.tinted_subset hx
  have hxh := tinted_subset_of_undone hspread hrecede hx
  exact (hrecede.same x hxr fun hn => (Finset.mem_sdiff.mp hn).2 hx).trans
    (hspread.same x hxr fun hn => (Finset.mem_sdiff.mp hn).2 hxh)

theorem isBuffered_eq_of_undone {x : Nat} (hx : x ∈ r) :
    isBuffered t.heap x = isBuffered h x :=
  (hrecede.buffered x hx).trans (hspread.buffered x hx)

-- What turned black takes along all that it led to, so the chains to what is still grey are kept.
theorem linked_of_undone {a x : Nat} (hax : k.Linked (tinted h r) a x) (hx : x ∈ tinted t.heap r) :
    k.Linked (tinted t.heap r) a x := by
  refine hax.shrink (fun y hy hyt c hc => ?_) hx
  exact hrecede.not_mem_of_black (Finset.mem_sdiff.mpr ⟨hspread.grown hy, hyt⟩) hc

end Undoing

end Reclaim.Trial
