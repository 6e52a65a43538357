import Reclaim.Proofs.Trial.Blackening

/-!
Scanning: grey objects without a count turn white, and what is linked to one with a count turns
black. Nothing grey is left that its start was linked to, what stays white has no count, and what
turned black is held from outside of all that was grey or white before.
-/
namespace Reclaim.Trial

open CountedHeap

variable {σ : Type} [CountedHeap σ] {L : Lawful σ} {k : Census} {r gone : Finset Nat}

-- The objects among `r` that have a colour.
def painted (c : Color) (h : σ) (r : Finset Nat) : Finset Nat := r.filter fun o => color h o = c

theorem mem_painted {c : Color} {h : σ} {o : Nat} : o ∈ painted c h r ↔ o ∈ r ∧ color h o = c := by
  simp [painted]

theorem painted_subset_tinted {c : Color} {h : σ} (hc : c = .grey ∨ c = .white) :
    painted c h r ⊆ tinted h r := by
  intro x hx
  obtain ⟨hr, hcolor⟩ := mem_painted.mp hx
  exact mem_tinted.mpr ⟨hr, hcolor ▸ hc⟩

section Whiten

variable {h : σ} {o : Nat}

theorem tinted_whiten (hl : Ledger L k h r gone) (ho : o ∈ painted .grey h r) :
    tinted (setColor h o .white) r = tinted h r := by
  rw [tinted_setColor_tint L hl.shows (mem_painted.mp ho).1 (Or.inr rfl), Finset.insert_eq_self]
  exact painted_subset_tinted (Or.inl rfl) ho

theorem grey_whiten (hl : Ledger L k h r gone) (ho : o ∈ painted .grey h r) :
    painted .grey (setColor h o .white) r = (painted .grey h r).erase o :=
  (filter_setColor L hl.shows (mem_painted.mp ho).1 .white (· = .grey)).trans (if_neg (by simp))

theorem white_whiten (hl : Ledger L k h r gone) (ho : o ∈ painted .grey h r) :
    painted .white (setColor h o .white) r = insert o (painted .white h r) :=
  (filter_setColor L hl.shows (mem_painted.mp ho).1 .white (· = .white)).trans (if_pos rfl)

-- Turning a grey object white is none of the account's business.
theorem Ledger.whiten (hl : Ledger L k h r gone) (ho : o ∈ painted .grey h r) :
    Ledger L k (setColor h o .white) r gone := by
  obtain ⟨hr, hgrey⟩ := mem_painted.mp ho
  exact hl.recolor hr (tinted_whiten hl ho) (by simp [hgrey])

end Whiten

-- A scan under way that started at `o` in heap `h`, with `work` still to be visited.
structure Sifting (L : Lawful σ) (k : Census) (r gone : Finset Nat) (h : σ)
    (time : Nat → Nat → Nat) (o : Nat) (work : List Nat) (t : Timed σ) : Prop where
  ledger : Ledger L k t.heap r gone
  time_eq : t.clock.time = time
  buffered : ∀ x ∈ r, isBuffered t.heap x = isBuffered h x
  less : tinted t.heap r ⊆ tinted h r
  same : ∀ x ∈ r, x ∉ tinted h r → color t.heap x = color h x
  grey : painted .grey t.heap r ⊆ painted .grey h r
  out : ∀ y ∈ tinted h r, y ∉ tinted t.heap r → ∀ c ∈ k.traced y, c ∉ tinted t.heap r
  black : ∀ x ∈ tinted h r \ tinted t.heap r, color t.heap x = .black ∧ 0 < count t.heap x ∧
    ∃ y ∈ tinted h r, k.Reach y x ∧ k.held (tinted h r) y + k.held gone y < k.count y
  white : ∀ x ∈ painted .white t.heap r, count t.heap x = 0 ∧
    (x ∈ painted .white h r ∨ k.Linked (painted .white t.heap r) o x)
  pending : ∀ w ∈ work, w ∈ r ∧ (w ∈ painted .grey t.heap r →
    w = o ∨ ∃ p, k.Linked (painted .white t.heap r) o p ∧ w ∈ k.traced p)
  closed : ∀ y ∈ painted .grey h r, y ∉ painted .grey t.heap r → ∀ c ∈ k.traced y,
    c ∈ painted .grey t.heap r → c ∈ work
  started : o ∈ painted .grey t.heap r → o ∈ work

namespace Sifting

variable {h : σ} {time : Nat → Nat → Nat} {o w : Nat} {work : List Nat} {t : Timed σ}

theorem skip (hi : Sifting L k r gone h time o (w :: work) t) (hw : w ∉ painted .grey t.heap r) :
    Sifting L k r gone h time o work t where
  ledger := hi.ledger
  time_eq := hi.time_eq
  buffered := hi.buffered
  less := hi.less
  same := hi.same
  grey := hi.grey
  out := hi.out
  black := hi.black
  white := hi.white
  pending x hx := hi.pending x (List.mem_cons_of_mem _ hx)
  closed y hy hyt c hc ht :=
    List.mem_of_ne_of_mem (ne_of_mem_of_not_mem ht hw) (hi.closed y hy hyt c hc ht)
  started ht := List.mem_of_ne_of_mem (ne_of_mem_of_not_mem ht hw) (hi.started ht)

-- An object without a count turns white, and its children are visited.
theorem whiten (hk : k.Consistent) (hgar : k.Garbage gone)
    (hi : Sifting L k r gone h time o (w :: work) t) (hw : w ∈ painted .grey t.heap r)
    (hdead : count t.heap w = 0) :
    Sifting L k r gone h time o ((k.traced w).reverse ++ work)
      ⟨setColor t.heap w .white, t.clock.visit⟩ := by
  have hwr : w ∈ r := (mem_painted.mp hw).1
  have hwt : w ∈ tinted t.heap r := painted_subset_tinted (Or.inl rfl) hw
  have htint := tinted_whiten hi.ledger hw
  have hgrey := grey_whiten hi.ledger hw
  have hwhite := white_whiten hi.ledger hw
  have hcolor : ∀ x ∈ r, x ≠ w → color (setColor t.heap w .white) x = color t.heap x :=
    fun x hx hxw => (L.color_setColor hi.ledger.shows hwr hx _).trans (if_neg hxw)
  have hcount : ∀ x ∈ r, count (setColor t.heap w .white) x = count t.heap x :=
    fun x hx => L.count_setColor hi.ledger.shows hwr hx _
  have hsub := Finset.subset_insert w (painted .white t.heap r)
  have hwlink : k.Linked (insert w (painted .white t.heap r)) o w := by
    rcases (hi.pending w List.mem_cons_self).2 hw with rfl | ⟨p, hp, hpw⟩
    · exact .refl (Finset.mem_insert_self _ _)
    · exact (hp.mono hsub).tail hpw (Finset.mem_insert_self _ _)
  exact {
    ledger := hi.ledger.whiten hw
    time_eq := hi.time_eq
    buffered := fun x hx =>
      (L.isBuffered_setColor hi.ledger.shows hwr hx _).trans (hi.buffered x hx)
    less := htint.trans_subset hi.less
    same := fun x hx hn =>
      (hcolor x hx (ne_of_mem_of_not_mem (hi.less hwt) hn).symm).trans (hi.same x hx hn)
    grey := hgrey.trans_subset ((Finset.erase_subset _ _).trans hi.grey)
    out := htint ▸ hi.out
    black := by
      intro x hx
      rw [htint] at hx
      obtain ⟨hxh, hxt⟩ := Finset.mem_sdiff.mp hx
      have hxr : x ∈ r := Ledger.tinted_subset hxh
      obtain ⟨hblack, hpos, hheld⟩ := hi.black x hx
      exact ⟨(hcolor x hxr (ne_of_mem_of_not_mem hwt hxt).symm).trans hblack,
        (hcount x hxr).symm ▸ hpos, hheld⟩
    white := by
      intro x hx
      rw [hwhite] at hx ⊢
      rcases Finset.mem_insert.mp hx with rfl | hx
      · exact ⟨(hcount x hwr).trans hdead, Or.inr hwlink⟩
      · obtain ⟨hz, hl⟩ := hi.white x hx
        exact ⟨(hcount x (mem_painted.mp hx).1).trans hz, hl.imp_right fun hl => hl.mono hsub⟩
    pending := by
      intro x hx
      rw [hwhite, hgrey]
      rcases List.mem_append.mp hx with hx | hx
      · have hxt : x ∈ k.traced w := List.mem_reverse.mp hx
        have hwl := hi.ledger.tinted_live hwt
        have hwg := Finset.disjoint_left.mp hi.ledger.disjoint hwt
        exact ⟨(hi.ledger.traced_mem hk hgar hwl hwg hxt).2.2, fun _ => Or.inr ⟨w, hwlink, hxt⟩⟩
      · obtain ⟨hxr, hxo⟩ := hi.pending x (List.mem_cons_of_mem _ hx)
        refine ⟨hxr, fun hg => (hxo (Finset.mem_of_mem_erase hg)).imp_right ?_⟩
        rintro ⟨p, hp, hpx⟩
        exact ⟨p, hp.mono hsub, hpx⟩
    closed := by
      intro y hy hyt c hc hct
      rw [hgrey] at hyt hct
      obtain ⟨hcw, hct⟩ := Finset.mem_erase.mp hct
      by_cases hyw : y = w
      · subst hyw
        exact List.mem_append_left _ (List.mem_reverse.mpr hc)
      · have hyt' : y ∉ painted .grey t.heap r := fun hg => hyt (Finset.mem_erase.mpr ⟨hyw, hg⟩)
        exact List.mem_append_right _ (List.mem_of_ne_of_mem hcw (hi.closed y hy hyt' c hc hct))
    started := by
      intro ho
      rw [hgrey] at ho
      obtain ⟨how, ho⟩ := Finset.mem_erase.mp ho
      exact List.mem_append_right _ (List.mem_of_ne_of_mem how (hi.started ho)) }

section Blacken

variable {t' : Timed σ} {x : Nat}

-- Blackening takes objects out of the grey and the white ones.
theorem painted_of_receding (hb : Receding L k r gone t.heap t.clock.time w [] t') {c : Color}
    (hc : c = .grey ∨ c = .white) : painted c t'.heap r = painted c t.heap r ∩ tinted t'.heap r := by
  have hsame : ∀ x ∈ tinted t'.heap r, color t'.heap x = color t.heap x := fun x hx =>
    hb.same x (Ledger.tinted_subset hx) fun hn => (Finset.mem_sdiff.mp hn).2 hx
  ext x
  rw [Finset.mem_inter]
  constructor
  · intro hx
    have hxt := painted_subset_tinted hc hx
    obtain ⟨hxr, hxc⟩ := mem_painted.mp hx
    exact ⟨mem_painted.mpr ⟨hxr, hsame x hxt ▸ hxc⟩, hxt⟩
  · rintro ⟨hx, hxt⟩
    obtain ⟨hxr, hxc⟩ := mem_painted.mp hx
    exact mem_painted.mpr ⟨hxr, hsame x hxt ▸ hxc⟩

-- What links the scan's start to a white object stays white with it.
theorem linked_of_receding (hb : Receding L k r gone t.heap t.clock.time w [] t')
    (hl : k.Linked (painted .white t.heap r) o x) (hx : x ∈ tinted t'.heap r) :
    k.Linked (painted .white t'.heap r) o x := by
  have hwhite := painted_of_receding hb (Or.inr rfl)
  refine hl.shrink (fun y hy hyt c hc hct => ?_) (hwhite ▸ Finset.mem_inter.mpr ⟨hl.mem, hx⟩)
  have hyt' : y ∉ tinted t'.heap r := fun hm => hyt (hwhite ▸ Finset.mem_inter.mpr ⟨hy, hm⟩)
  exact hb.not_mem_of_black (Finset.mem_sdiff.mpr ⟨painted_subset_tinted (Or.inr rfl) hy, hyt'⟩) hc
    (painted_subset_tinted (Or.inr rfl) hct)

-- An object with a count that turns black is held from outside of all that was grey or white when the
-- scan began: nothing that has turned black by then leads to it.
theorem held_lt_of_live (hi : Sifting L k r gone h time o (w :: work) t)
    (hw : w ∈ tinted t.heap r) (hlive : 0 < count t.heap w) :
    k.held (tinted h r) w + k.held gone w < k.count w := by
  have hheld := k.held_eq_of_subset hi.less fun b hb hbt hc => hi.out b hb hbt w hc hw
  have heq := hi.ledger.count_eq w (Ledger.tinted_subset hw)
  omega

-- An object with a count takes all that it is linked to back into use.
theorem blacken (hk : k.Consistent) (hi : Sifting L k r gone h time o (w :: work) t)
    (hw : w ∈ painted .grey t.heap r) (hlive : 0 < count t.heap w)
    (hb : Receding L k r gone t.heap t.clock.time w [] t') :
    Sifting L k r gone h time o work t' := by
  have hwt : w ∈ tinted t.heap r := painted_subset_tinted (Or.inl rfl) hw
  have hwhite := painted_of_receding hb (Or.inr rfl)
  have hgrey := painted_of_receding hb (Or.inl rfl)
  have hlater : ∀ x ∈ painted .grey t'.heap r, x ∈ w :: work → x ∈ work := fun x hx hm =>
    List.mem_of_ne_of_mem
      (ne_of_mem_of_not_mem (painted_subset_tinted (Or.inl rfl) hx) hb.start_not_mem) hm
  exact {
    ledger := hb.ledger
    time_eq := hb.time_eq.trans hi.time_eq
    buffered := fun x hx => (hb.buffered x hx).trans (hi.buffered x hx)
    less := hb.less.trans hi.less
    same := fun x hx hn => (hb.same x hx fun hm => hn (hi.less (Finset.mem_sdiff.mp hm).1)).trans
      (hi.same x hx hn)
    grey := hgrey.trans_subset (Finset.inter_subset_left.trans hi.grey)
    out := by
      intro y hy hyt c hc
      by_cases hyold : y ∈ tinted t.heap r
      · exact hb.not_mem_of_black (Finset.mem_sdiff.mpr ⟨hyold, hyt⟩) hc
      · exact fun hct => hi.out y hy hyold c hc (hb.less hct)
    black := by
      intro x hx
      obtain ⟨hxh, hxt'⟩ := Finset.mem_sdiff.mp hx
      have hxr : x ∈ r := Ledger.tinted_subset hxh
      by_cases hxt : x ∈ tinted t.heap r
      · have hxb : x ∈ tinted t.heap r \ tinted t'.heap r := Finset.mem_sdiff.mpr ⟨hxt, hxt'⟩
        obtain ⟨hcolor, hlink, -⟩ := hb.black x hxb
        refine ⟨hcolor, ?_, w, hi.less hwt, hlink.reach, hi.held_lt_of_live hwt hlive⟩
        by_cases hxw : x = w
        · subst hxw
          exact hlive.trans_le (hb.count_le hi.ledger hxr)
        · exact hb.count_pos hk hxb hxw hi.ledger
      · obtain ⟨hcolor, hpos, hheld⟩ := hi.black x (Finset.mem_sdiff.mpr ⟨hxh, hxt⟩)
        exact ⟨(hb.same x hxr fun hm => hxt (Finset.mem_sdiff.mp hm).1).trans hcolor,
          hpos.trans_le (hb.count_le hi.ledger hxr), hheld⟩
    white := by
      intro x hx
      obtain ⟨hxw, hxt⟩ := Finset.mem_inter.mp (hwhite ▸ hx)
      obtain ⟨hz, hl⟩ := hi.white x hxw
      exact ⟨(hb.count_eq hi.ledger hxt).trans hz, hl.imp_right fun hl => linked_of_receding hb hl hxt⟩
    pending := by
      intro x hx
      obtain ⟨hxr, hxo⟩ := hi.pending x (List.mem_cons_of_mem _ hx)
      refine ⟨hxr, fun hg => ?_⟩
      obtain ⟨hgt, hxt⟩ := Finset.mem_inter.mp (hgrey ▸ hg)
      refine (hxo hgt).imp_right ?_
      rintro ⟨p, hp, hpx⟩
      -- The white object that leads to `x` is white still, or `x` would have turned black with it.
      have hpt : p ∈ tinted t'.heap r := by
        by_contra hn
        have hpold := painted_subset_tinted (Or.inr rfl) hp.mem
        exact hb.not_mem_of_black (Finset.mem_sdiff.mpr ⟨hpold, hn⟩) hpx hxt
      exact ⟨p, linked_of_receding hb hp hpt, hpx⟩
    closed := by
      intro y hy hyt c hc hct
      obtain ⟨hcg, hctin⟩ := Finset.mem_inter.mp (hgrey ▸ hct)
      by_cases hyg : y ∈ painted .grey t.heap r
      · have hyt' : y ∉ tinted t'.heap r := fun hm => hyt (hgrey ▸ Finset.mem_inter.mpr ⟨hyg, hm⟩)
        have hym := Finset.mem_sdiff.mpr ⟨painted_subset_tinted (Or.inl rfl) hyg, hyt'⟩
        exact absurd hctin (hb.not_mem_of_black hym hc)
      · exact hlater c hct (hi.closed y hy hyg c hc hcg)
    started := fun ho => hlater o ho (hi.started (Finset.mem_inter.mp (hgrey ▸ ho)).1) }

end Blacken

theorem visit (hk : k.Consistent) (hgar : k.Garbage gone)
    (hi : Sifting L k r gone h time o (w :: work) t) :
    ∃ found t', scanOne w t = .ok (found, t') ∧
      Sifting L k r gone h time o (found.reverse ++ work) t' ∧
      found.length + ∑ x ∈ painted .grey t'.heap r, (k.references x).length ≤
        ∑ x ∈ painted .grey t.heap r, (k.references x).length := by
  obtain ⟨hwr, -⟩ := hi.pending w List.mem_cons_self
  by_cases hgrey : color t.heap w = .grey
  · have hw : w ∈ painted .grey t.heap r := mem_painted.mpr ⟨hwr, hgrey⟩
    have hwt := painted_subset_tinted (Or.inl rfl) hw
    by_cases hlive : 0 < count t.heap w
    · obtain ⟨t', hrun, hb⟩ := scanBlack_ok hk hgar hi.ledger hwr
      refine ⟨[], t', ?_, hi.blacken hk hw hlive hb, ?_⟩
      · simp [scanOne, hgrey, (isLive_iff t.heap w).mpr hlive, hrun]
      · rw [List.length_nil, Nat.zero_add]
        refine Finset.sum_le_sum_of_subset ?_
        rw [painted_of_receding hb (Or.inl rfl)]
        exact Finset.inter_subset_left
    · have hdead : count t.heap w = 0 := by omega
      have hlive' : isLive t.heap w = false := (isLive_eq_false_iff t.heap w).mpr hdead
      have hwl := hi.ledger.tinted_live hwt
      have hwg := Finset.disjoint_left.mp hi.ledger.disjoint hwt
      have hl' := hi.ledger.whiten hw
      have hrefs : (t.onHeap fun h => setColor h w .white).tracedReferences w =
          .ok (k.traced w, ⟨setColor t.heap w .white, t.clock.visit⟩) :=
        tracedReferences_ok hl'.shows hwr hl'.green_iff fun c hc =>
          hl'.child_mem hk hgar hwl hwg hc
      refine ⟨k.traced w, _, ?_, hi.whiten hk hgar hw hdead, ?_⟩
      · simp [scanOne, hgrey, hlive', hrefs]
      · have hlen := k.length_traced_le w
        have hsum := Finset.sum_erase_add _ (fun x => (k.references x).length) hw
        simp only [grey_whiten hi.ledger hw]
        omega
  · refine ⟨[], t, ?_, hi.skip fun hm => hgrey (mem_painted.mp hm).2, by simp⟩
    simp [scanOne, hgrey]

-- Scanning takes no count off.
theorem count_le (hi : Sifting L k r gone h time o work t) (hl : Ledger L k h r gone) {x : Nat}
    (hx : x ∈ r) : count h x ≤ count t.heap x := by
  have hbefore := hl.count_eq x hx
  have hafter := hi.ledger.count_eq x hx
  have hheld := k.held_mono hi.less x
  omega

-- Chains of white objects are kept by what stays grey or white.
theorem linked_white (hi : Sifting L k r gone h time o work t) {b x : Nat}
    (hl : k.Linked (painted .white h r) b x) (hx : x ∈ painted .white t.heap r) :
    k.Linked (painted .white t.heap r) b x := by
  refine hl.shrink (fun y hy hyt c hc hct => ?_) hx
  obtain ⟨hyr, hyw⟩ := mem_painted.mp hy
  have hyt' : y ∉ tinted t.heap r := by
    intro hm
    rcases (mem_tinted.mp hm).2 with hg | hw
    · have hyg := (mem_painted.mp (hi.grey (mem_painted.mpr ⟨hyr, hg⟩))).2
      simp [hyw] at hyg
    · exact hyt (mem_painted.mpr ⟨hyr, hw⟩)
  exact hi.out y (painted_subset_tinted (Or.inr rfl) hy) hyt' c hc (painted_subset_tinted (Or.inr rfl) hct)

end Sifting

theorem scan_ok {o : Nat} {t : Timed σ} (hk : k.Consistent) (hgar : k.Garbage gone)
    (hl : Ledger L k t.heap r gone) (ho : o ∈ r)
    (hwhite : ∀ x ∈ painted .white t.heap r, count t.heap x = 0) :
    ∃ t', scan o t = .ok t' ∧ Sifting L k r gone t.heap t.clock.time o [] t' := by
  apply worklist_ok (Sifting L k r gone t.heap t.clock.time o)
    (fun t => ∑ x ∈ painted .grey t.heap r, (k.references x).length)
  · intro w work s hs
    exact hs.visit hk hgar
  · refine ⟨hl, rfl, fun _ _ => rfl, le_refl _, fun _ _ _ => rfl, le_refl _, ?_, ?_, ?_, ?_, ?_, ?_⟩
    · intro y hy hyt
      exact absurd hy hyt
    · intro x hx
      simp at hx
    · intro x hx
      exact ⟨hwhite x hx, Or.inl hx⟩
    · intro w hw
      rw [List.mem_singleton.mp hw]
      exact ⟨ho, fun _ => Or.inl rfl⟩
    · intro y hy hyt
      exact absurd hy hyt
    · intro _
      exact List.mem_cons_self
  · have hsub : painted .grey t.heap r ⊆ r := Finset.filter_subset _ _
    have hle := (Finset.sum_le_sum_of_subset (f := fun x => (k.references x).length) hsub).trans
      (L.sum_le_extent hl.shows)
    simp only [List.length_cons, List.length_nil, steps]
    omega

end Reclaim.Trial
