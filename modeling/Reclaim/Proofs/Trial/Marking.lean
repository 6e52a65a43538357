import Reclaim.Proofs.Trial.Ledger
import Reclaim.Proofs.Worklist

/-!
Marking: what it turns grey is linked to the object it started from, it takes off exactly the counts
that grey objects gave, and it finds every count it takes off. Unless it is abandoned, no followed
reference leads from a grey object to one that is not.
-/
namespace Reclaim.Trial

open CountedHeap

variable {σ : Type} [CountedHeap σ] {L : Lawful σ} {k : Census} {r gone : Finset Nat}

theorem isTraced_eq {h : σ} {o c : Nat} (hs : L.Shows h k r) (ho : o ∈ r)
    (hgreen : ∀ x ∈ r, color h x = .green ↔ k.isGreen x = true)
    (hc : c ∈ k.references o) (hr : k.isCounted c = true → c ∈ r) :
    isTraced h c = .ok (k.follows c) := by
  simp only [isTraced, L.isCounted_eq hs ho hc, ok_bind, Census.follows]
  cases hcount : k.isCounted c with
  | false => rfl
  | true =>
    have hg := hgreen c (hr hcount)
    cases hgc : k.isGreen c with
    | false =>
      have hne : color h c ≠ .green := fun he => by simp [hg.mp he] at hgc
      simp [hne]
    | true => simp [hg.mpr hgc]

namespace Marking

-- Taking off counts, as long as there are enough of them.
theorem takeCounts_ok {o : Nat} (ho : o ∈ r) (cs : List Nat) (h : σ) (hs : L.Shows h k r)
    (hgreen : ∀ x ∈ r, color h x = .green ↔ k.isGreen x = true)
    (hcs : ∀ c ∈ cs, c ∈ k.references o ∧ (k.isCounted c = true → c ∈ r))
    (hcount : ∀ x ∈ r, (cs.filter k.follows).count x ≤ count h x) :
    ∃ h', takeCounts h cs = .ok (cs.filter k.follows, h') ∧ L.Shows h' k r ∧
      ∀ x ∈ r, count h' x + (cs.filter k.follows).count x = count h x ∧
        color h' x = color h x ∧ isBuffered h' x = isBuffered h x ∧ status h' x ≤ status h x := by
  induction cs generalizing h with
  | nil => exact ⟨h, rfl, hs, fun x _ => by simp⟩
  | cons c rest ih =>
    have hrest : ∀ c ∈ rest, c ∈ k.references o ∧ (k.isCounted c = true → c ∈ r) :=
      fun x hx => hcs x (List.mem_cons_of_mem _ hx)
    obtain ⟨href, hmem⟩ := hcs c List.mem_cons_self
    have htraced := isTraced_eq hs ho hgreen href hmem
    cases hf : k.follows c with
    | false =>
      have hfilter : (c :: rest).filter k.follows = rest.filter k.follows := by simp [hf]
      rw [hfilter] at hcount ⊢
      obtain ⟨h', htake, hafter⟩ := ih h hs hgreen hrest hcount
      exact ⟨h', by rw [takeCounts, htraced, hf]; exact htake, hafter⟩
    | true =>
      have hcr : c ∈ r := hmem (by simp only [Census.follows, Bool.and_eq_true] at hf; exact hf.1)
      have hfilter : (c :: rest).filter k.follows = c :: rest.filter k.follows := by simp [hf]
      rw [hfilter] at hcount ⊢
      have hpos : 0 < Status.count (status h c) := by
        have hle := hcount c hcr
        simp only [List.count_cons_self, CountedHeap.count] at hle
        omega
      obtain ⟨t, hdec, htcount, htcolor, htbuf, htle⟩ := Status.decrement?_of_pos hpos
      have hset := fun x (hx : x ∈ r) => L.status_setStatus hs hcr hx t
      have hgreen' : ∀ x ∈ r, color (setStatus h c t) x = .green ↔ k.isGreen x = true := by
        intro x hx
        rw [← hgreen x hx]
        simp only [color, hset x hx]
        split
        · rename_i hxc
          rw [htcolor, hxc]
        · rfl
      have hcount' : ∀ x ∈ r, (rest.filter k.follows).count x ≤ count (setStatus h c t) x := by
        intro x hx
        have hle := hcount x hx
        simp only [CountedHeap.count, hset x hx, List.count_cons, beq_iff_eq] at hle ⊢
        split
        · rename_i hxc
          subst hxc
          simp only [if_true] at hle
          omega
        · omega
      obtain ⟨h', htake, hs', hafter⟩ := ih _ (L.shows_setStatus hs hcr t) hgreen' hrest hcount'
      refine ⟨h', ?_, hs', ?_⟩
      · rw [takeCounts, htraced, hf]
        simp only [ok_bind, if_true, CountedHeap.decrement?, hdec, Option.map_some, htake]
      · intro x hx
        obtain ⟨hc1, hc2, hc3, hc4⟩ := hafter x hx
        simp only [CountedHeap.count, color, isBuffered, hset x hx, List.count_cons,
          beq_iff_eq] at hc1 hc2 hc3 hc4 ⊢
        by_cases hxc : x = c
        · subst hxc
          simp only [if_true] at hc1 hc2 hc3 hc4 ⊢
          exact ⟨by omega, hc2.trans htcolor, hc3.trans htbuf, hc4.trans htle⟩
        · simp only [hxc, if_false, Ne.symm hxc] at hc1 hc2 hc3 hc4 ⊢
          exact ⟨hc1, hc2, hc3, hc4⟩

-- Turning one more object grey moves the counts it gave from its children to the account.
theorem shade_ok {t : Timed σ} {o : Nat} (hl : Ledger L k t.heap r gone) (hk : k.Consistent)
    (hgar : k.Garbage gone) (ho : o ∈ k.live) (hog : o ∉ gone) (ht : o ∉ tinted t.heap r) :
    ∃ t', shade t o = .ok (k.traced o, t') ∧ Ledger L k t'.heap r gone ∧
      tinted t'.heap r = insert o (tinted t.heap r) ∧ Turned r .grey o t t' := by
  have hr : o ∈ r := hl.mem_of_live ho hog
  have hs := L.shows_setColor hl.shows hr .grey
  have hgreen := green_iff_setColor hl.shows hl.green_iff hr (Census.mem_live.mp ho).2.1
    (c := .grey) (by simp)
  have hroom : ∀ x ∈ r, (k.traced o).count x ≤ count (setColor t.heap o .grey) x := by
    intro x hx
    rw [L.count_setColor hl.shows hr hx]
    have heq := hl.count_eq x hx
    have hle := hk.held_add_le (Finset.insert_subset ho hl.tinted_live) hl.gone_live
      (Finset.disjoint_insert_left.mpr ⟨hog, hl.disjoint⟩) (hl.subset hx)
    rw [k.held_insert ht] at hle
    omega
  obtain ⟨h', htake, hs', hafter⟩ := takeCounts_ok hr (k.references o) _ hs hgreen
    (fun c hc => ⟨hc, hl.child_mem hk hgar ho hog hc⟩) hroom
  have htint : tinted h' r = insert o (tinted t.heap r) := by
    rw [← tinted_setColor_tint L hl.shows hr (Or.inl rfl)]
    exact tinted_congr fun x hx => (hafter x hx).2.1
  refine ⟨⟨h', t.clock.visit⟩, ?_, hl.rebalance hs' ?word ?green
    (htint ▸ Finset.insert_subset ho hl.tinted_live)
    (htint ▸ Finset.disjoint_insert_left.mpr ⟨hog, hl.disjoint⟩) ?balance, htint,
    turned_of_setColor hl.shows hr rfl (fun x hx => (hafter x hx).2.1) fun x hx => (hafter x hx).2.2.1⟩
  · simp only [shade, Timed.references, Timed.onHeap, L.references_eq hs hr, ok_bind, htake]
    rfl
  case word =>
    intro x hx
    exact (hafter x hx).2.2.2.trans_lt (L.status_setColor_lt hl.shows hr hx _ (hl.word x hx))
  case green =>
    intro x hx
    rw [(hafter x hx).2.1, hgreen x hx, hl.green_iff x hx]
  case balance =>
    intro x hx
    have hc := (hafter x hx).1
    rw [L.count_setColor hl.shows hr hx] at hc
    change count h' x + (k.traced o).count x = count t.heap x at hc
    change count h' x + k.held (tinted h' r) x = _
    rw [htint, k.held_insert ht]
    omega

omit [CountedHeap σ] in
theorem arrive_ok {grain : Nat} (hgrain : grain ≠ 0) (limit : Nat) (m : Marking σ) :
    ∃ m', arrive grain limit m = .ok m' ∧ m'.timed.heap = m.timed.heap ∧
      m'.timed.clock.time = m.timed.clock.time ∧ (m.aborted = true → m'.aborted = true) ∧
      (m'.aborted = true → m.aborted = true ∨ ∃ reads visits,
        limit < m.timed.clock.time reads visits) := by
  simp only [arrive, Word.mod, hgrain, if_false, ok_bind]
  split
  · refine ⟨_, rfl, rfl, rfl, ?_, ?_⟩
    · intro h
      simp [h]
    · intro h
      simp only [Bool.or_eq_true, decide_eq_true_eq] at h
      rcases h with h | h
      · exact Or.inl h
      · exact Or.inr ⟨_, _, h⟩
  · exact ⟨_, rfl, rfl, rfl, id, Or.inl⟩

end Marking

-- A marking under way that started at `o` in heap `h`, with `work` still to be visited.
structure Spreading (L : Lawful σ) (k : Census) (r gone : Finset Nat) (h : σ)
    (time : Nat → Nat → Nat) (limit o : Nat) (work : List Nat) (m : Marking σ) : Prop where
  ledger : Ledger L k m.timed.heap r gone
  time_eq : m.timed.clock.time = time
  late : m.aborted = true → ∃ reads visits, limit < time reads visits
  buffered : ∀ x ∈ r, isBuffered m.timed.heap x = isBuffered h x
  grown : tinted h r ⊆ tinted m.timed.heap r
  same : ∀ x ∈ r, x ∉ tinted m.timed.heap r \ tinted h r → color m.timed.heap x = color h x
  fresh : ∀ x ∈ tinted m.timed.heap r \ tinted h r,
    color m.timed.heap x = .grey ∧ k.Linked (tinted m.timed.heap r \ tinted h r) o x
  pending : ∀ w ∈ work, w ∈ k.live ∧ w ∉ gone ∧
    (w = o ∨ ∃ p ∈ tinted m.timed.heap r \ tinted h r, w ∈ k.traced p)
  closed : m.aborted = false → ∀ g ∈ tinted m.timed.heap r, ∀ c ∈ k.traced g,
    c ∈ tinted m.timed.heap r ∨ c ∈ work
  started : m.aborted = false → o ∈ tinted m.timed.heap r ∨ o ∈ work

-- References that grey objects may still be found to hold.
def unshaded (k : Census) (r : Finset Nat) (h : σ) : Nat :=
  ∑ x ∈ r \ tinted h r, (k.references x).length

namespace Spreading

variable {h : σ} {time : Nat → Nat → Nat} {limit o : Nat}

theorem arrive {grain : Nat} (hgrain : grain ≠ 0) {work : List Nat} {m : Marking σ}
    (hi : Spreading L k r gone h time limit o work m) : ∃ m', Marking.arrive grain limit m = .ok m' ∧
      m'.timed.heap = m.timed.heap ∧ Spreading L k r gone h time limit o work m' := by
  obtain ⟨m', harrive, hheap, htime, hkeep, hlate⟩ := Marking.arrive_ok hgrain limit m
  have hnot : m'.aborted = false → m.aborted = false := by
    intro h1
    cases hm : m.aborted with
    | false => rfl
    | true => simp [hkeep hm] at h1
  refine ⟨m', harrive, hheap, ?_⟩
  obtain ⟨hledger, htime', hlate', hbuffered, hgrown, hsame, hfresh, hpending, hclosed, hstarted⟩ := hi
  rw [← hheap] at hledger hbuffered hgrown hsame hfresh hpending hclosed hstarted
  refine ⟨hledger, htime.trans htime', fun h1 => ?_, hbuffered, hgrown, hsame, hfresh, hpending,
    fun h1 => hclosed (hnot h1), fun h1 => hstarted (hnot h1)⟩
  rcases hlate h1 with h2 | h2
  · exact hlate' h2
  · exact htime' ▸ h2

variable {w : Nat} {work : List Nat} {m : Marking σ}
variable (hi : Spreading L k r gone h time limit o (w :: work) m)
include hi

-- A visit that turns nothing grey.
theorem pass (hw : m.aborted = false → w ∈ tinted m.timed.heap r) :
    Spreading L k r gone h time limit o work m where
  ledger := hi.ledger
  time_eq := hi.time_eq
  late := hi.late
  buffered := hi.buffered
  grown := hi.grown
  same := hi.same
  fresh := hi.fresh
  pending x hx := hi.pending x (List.mem_cons_of_mem _ hx)
  closed h1 g hg c hc := by
    rcases hi.closed h1 g hg c hc with ht | hmem
    · exact Or.inl ht
    · rcases List.mem_cons.mp hmem with rfl | hmem
      · exact Or.inl (hw h1)
      · exact Or.inr hmem
  started h1 := by
    rcases hi.started h1 with ht | hmem
    · exact Or.inl ht
    · rcases List.mem_cons.mp hmem with rfl | hmem
      · exact Or.inl (hw h1)
      · exact Or.inr hmem

-- What is not grey was not tinted from the start.
theorem not_mem_tinted (hwhite : ∀ x ∈ r, color h x ≠ .white) (hw : color m.timed.heap w ≠ .grey) :
    w ∉ tinted m.timed.heap r := by
  intro ht
  obtain ⟨hwr, hg | hwt⟩ := mem_tinted.mp ht
  · exact hw hg
  · by_cases hf : w ∈ tinted m.timed.heap r \ tinted h r
    · exact hw (hi.fresh w hf).1
    · exact hwhite w hwr (hi.same w hwr hf ▸ hwt)

-- A visit that turns an object grey has its children still to be visited.
theorem shade (hk : k.Consistent) (hgar : k.Garbage gone) (hgo : m.aborted = false)
    (hw : w ∉ tinted m.timed.heap r) : ∃ t, Marking.shade m.timed w = .ok (k.traced w, t) ∧
      tinted t.heap r = insert w (tinted m.timed.heap r) ∧
      Spreading L k r gone h time limit o ((k.traced w).reverse ++ work) { m with timed := t } := by
  obtain ⟨hwl, hwg, hwo⟩ := hi.pending w List.mem_cons_self
  have hwr : w ∈ r := hi.ledger.mem_of_live hwl hwg
  obtain ⟨t, hshade, hlt, htint, hturn⟩ := Marking.shade_ok hi.ledger hk hgar hwl hwg hw
  have hfresh : tinted t.heap r \ tinted h r = insert w (tinted m.timed.heap r \ tinted h r) := by
    rw [htint, Finset.insert_sdiff_of_notMem _ fun hmem => hw (hi.grown hmem)]
  have hwf : w ∈ tinted t.heap r \ tinted h r := hfresh ▸ Finset.mem_insert_self _ _
  have hsub : tinted m.timed.heap r \ tinted h r ⊆ tinted t.heap r \ tinted h r :=
    hfresh ▸ Finset.subset_insert _ _
  have hwork : ∀ x ∈ w :: work, x ∈ tinted t.heap r ∨ x ∈ (k.traced w).reverse ++ work := by
    intro x hx
    rcases List.mem_cons.mp hx with rfl | hx
    · exact Or.inl (htint ▸ Finset.mem_insert_self _ _)
    · exact Or.inr (List.mem_append_right _ hx)
  have hmore : tinted m.timed.heap r ⊆ tinted t.heap r := htint ▸ Finset.subset_insert _ _
  refine ⟨t, hshade, htint, ?_⟩
  exact {
    ledger := hlt
    time_eq := hturn.time_eq.trans hi.time_eq
    late := hi.late
    buffered := fun x hx => (hturn.buffered x hx).trans (hi.buffered x hx)
    grown := hi.grown.trans hmore
    same := fun x hx hnf => (hturn.color_ne x hx (ne_of_mem_of_not_mem hwf hnf).symm).trans
      (hi.same x hx fun hf => hnf (hsub hf))
    fresh := by
      intro x hx
      rcases Finset.mem_insert.mp (hfresh ▸ hx) with rfl | hold
      · refine ⟨hturn.color_self, ?_⟩
        rcases hwo with rfl | ⟨p, hp, hpx⟩
        · exact .refl hwf
        · exact ((hi.fresh p hp).2.mono hsub).tail hpx hwf
      · obtain ⟨hcolor, hlink⟩ := hi.fresh x hold
        have hxt := (Finset.mem_sdiff.mp hold).1
        exact ⟨(hturn.color_ne x (Ledger.tinted_subset hxt) (ne_of_mem_of_not_mem hxt hw)).trans hcolor,
          hlink.mono hsub⟩
    pending := by
      intro x hx
      rcases List.mem_append.mp hx with hx | hx
      · have hxt : x ∈ k.traced w := List.mem_reverse.mp hx
        obtain ⟨hxl, hxg, -⟩ := hi.ledger.traced_mem hk hgar hwl hwg hxt
        exact ⟨hxl, hxg, Or.inr ⟨w, hwf, hxt⟩⟩
      · obtain ⟨hxl, hxg, hxo⟩ := hi.pending x (List.mem_cons_of_mem _ hx)
        refine ⟨hxl, hxg, hxo.imp_right ?_⟩
        rintro ⟨p, hp, hpx⟩
        exact ⟨p, hsub hp, hpx⟩
    closed := by
      intro _ g hg c hc
      rcases Finset.mem_insert.mp (htint ▸ hg) with rfl | hg
      · exact Or.inr (List.mem_append_left _ (List.mem_reverse.mpr hc))
      · rcases hi.closed hgo g hg c hc with ht | hmem
        · exact Or.inl (hmore ht)
        · exact hwork c hmem
    started := by
      intro _
      rcases hi.started hgo with ht | hmem
      · exact Or.inl (hmore ht)
      · exact hwork o hmem }

omit hi in
-- An object that turns grey takes its references off what is left to be found.
theorem unshaded_insert {h' : σ} (hwr : w ∈ r) (hw : w ∉ tinted h r)
    (htint : tinted h' r = insert w (tinted h r)) :
    unshaded k r h' + (k.references w).length = unshaded k r h := by
  have herase : r \ tinted h' r = (r \ tinted h r).erase w := by
    rw [htint, Finset.sdiff_insert]
  rw [unshaded, herase]
  exact Finset.sum_erase_add _ _ (Finset.mem_sdiff.mpr ⟨hwr, hw⟩)

theorem visit {grain : Nat} (hgrain : grain ≠ 0) (hk : k.Consistent) (hgar : k.Garbage gone)
    (hwhite : ∀ x ∈ r, color h x ≠ .white) : ∃ found m',
      Marking.visit grain limit w m = .ok (found, m') ∧
      Spreading L k r gone h time limit o (found.reverse ++ work) m' ∧
      found.length + unshaded k r m'.timed.heap ≤ unshaded k r m.timed.heap := by
  obtain ⟨hwl, hwg, -⟩ := hi.pending w List.mem_cons_self
  have hwr : w ∈ r := hi.ledger.mem_of_live hwl hwg
  obtain ⟨m₁, harrive, hheap, hi₁⟩ := hi.arrive hgrain
  rw [← hheap]
  by_cases hstop : (m₁.aborted || color m₁.timed.heap w == .grey) = true
  · refine ⟨[], m₁, ?_, hi₁.pass fun h1 => ?_, by simp⟩
    · simp only [Marking.visit, harrive, ok_bind, hstop, if_true]
    · simp only [h1, Bool.false_or, beq_iff_eq] at hstop
      exact mem_tinted.mpr ⟨hwr, Or.inl hstop⟩
  · obtain ⟨hgo, hgrey⟩ : m₁.aborted = false ∧ color m₁.timed.heap w ≠ .grey := by simpa using hstop
    have hwt := hi₁.not_mem_tinted hwhite hgrey
    obtain ⟨t, hshade, htint, hi'⟩ := hi₁.shade hk hgar hgo hwt
    refine ⟨k.traced w, { m₁ with timed := t }, ?_, hi', ?_⟩
    · simp only [Marking.visit, harrive, ok_bind, hstop, Bool.false_eq_true, if_false, hshade]
    · have hleft := unshaded_insert (k := k) hwr hwt htint
      have hlen := k.length_traced_le w
      change (k.traced w).length + unshaded k r t.heap ≤ _
      omega

end Spreading

theorem unshaded_le (h : σ) (hs : L.Shows h k r) : unshaded k r h ≤ extent h :=
  (Finset.sum_le_sum_of_subset Finset.sdiff_subset).trans (L.sum_le_extent hs)

-- A marking from a live object that is not grey yet.
theorem markGrey_ok {grain o : Nat} {m : Marking σ} (hgrain : grain ≠ 0) (limit : Nat)
    (hk : k.Consistent) (hgar : k.Garbage gone) (hl : Ledger L k m.timed.heap r gone)
    (hwhite : ∀ x ∈ r, color m.timed.heap x ≠ .white) (ho : o ∈ k.live) (hog : o ∉ gone)
    (hclosed : ∀ g ∈ tinted m.timed.heap r, ∀ c ∈ k.traced g, c ∈ tinted m.timed.heap r) :
    ∃ m', markGrey grain limit o m = .ok m' ∧
      Spreading L k r gone m.timed.heap m.timed.clock.time limit o [] m' := by
  apply worklist_ok (Spreading L k r gone m.timed.heap m.timed.clock.time limit o)
    (fun m => unshaded k r m.timed.heap)
  · intro w work s hs
    exact hs.visit hgrain hk hgar hwhite
  · refine ⟨hl, rfl, by simp, fun _ _ => rfl, le_refl _, fun _ _ _ => rfl, ?_, ?_, ?_, ?_⟩
    · intro x hx
      simp at hx
    · intro w hw
      rw [List.mem_singleton.mp hw]
      exact ⟨ho, hog, Or.inl rfl⟩
    · intro _ g hg c hc
      exact Or.inl (hclosed g hg c hc)
    · intro _
      exact Or.inr List.mem_cons_self
  · have hle := unshaded_le m.timed.heap hl.shows
    simp only [List.length_cons, List.length_nil, steps]
    omega

end Reclaim.Trial
