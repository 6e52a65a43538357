import Reclaim.Proofs.Trial.Scanning

/-!
Collecting: what is white and linked to the object it starts from is found to be garbage. Counts stay
as they are. Each such object is listed to be freed once, unless it still waits in a queue, and each
of its references to an acyclic object is deferred.
-/
namespace Reclaim.Trial

open CountedHeap

variable {σ : Type} [CountedHeap σ] {L : Lawful σ} {k : Census} {r gone : Finset Nat}

-- A white object turns black and is gone. Its references stay on the account.
theorem Ledger.bury {h : σ} (hl : Ledger L k h r gone) {o : Nat} (ho : o ∈ tinted h r) :
    Ledger L k (setColor h o .black) r (insert o gone) ∧
      tinted (setColor h o .black) r = (tinted h r).erase o := by
  have hr : o ∈ r := Ledger.tinted_subset ho
  have htint : tinted (setColor h o .black) r = (tinted h r).erase o :=
    tinted_setColor_plain L hl.shows hr (by simp) (by simp)
  have hog : o ∉ gone := Finset.disjoint_left.mp hl.disjoint ho
  have hgreen : k.isGreen o = false := (Census.mem_live.mp (hl.tinted_live ho)).2.1
  exact ⟨{
    shows := L.shows_setColor hl.shows hr .black
    subset := hl.subset
    kept := fun x hx => (hl.kept x hx).imp_right (Or.imp_left Finset.mem_insert_of_mem)
    word := fun x hx => L.status_setColor_lt hl.shows hr hx _ (hl.word x hx)
    green_iff := green_iff_setColor hl.shows hl.green_iff hr hgreen (by simp)
    gone_live := Finset.insert_subset (hl.tinted_live ho) hl.gone_live
    tinted_live := htint.trans_subset ((Finset.erase_subset _ _).trans hl.tinted_live)
    disjoint := by
      rw [htint, Finset.disjoint_insert_right]
      exact ⟨by simp, Finset.disjoint_of_subset_left (Finset.erase_subset _ _) hl.disjoint⟩
    count_eq := fun x hx => by
      have heq := hl.count_eq x hx
      have herase := k.held_erase ho x
      rw [L.count_setColor hl.shows hr hx, htint, k.held_insert hog]
      omega }, htint⟩

-- What a white object holds: the references to follow, and those to acyclic objects.
theorem harvest_white {s : Harvest σ} {o : Nat} (hl : Ledger L k s.timed.heap r gone)
    (hr : o ∈ r) (hwhite : color s.timed.heap o = .white) (hgreen : k.isGreen o = false)
    (hchild : ∀ c ∈ k.references o, k.isCounted c = true → c ∈ r) :
    harvest o s = .ok (k.traced o,
      { timed := ⟨setColor s.timed.heap o .black, s.timed.clock.visit⟩
        dead := if isBuffered s.timed.heap o then s.dead else o :: s.dead
        deferred := (k.greens o).reverse ++ s.deferred }) := by
  have hs := L.shows_setColor hl.shows hr .black
  have hcounted : (k.references o).filterM (isCounted (setColor s.timed.heap o .black)) =
      .ok ((k.references o).filter k.isCounted) :=
    filterM_ok fun c hc => L.isCounted_eq hs hr hc
  have hcolor : ∀ c ∈ (k.references o).filter k.isCounted,
      (color (setColor s.timed.heap o .black) c == Color.green) = k.isGreen c := by
    intro c hc
    obtain ⟨hc, hcount⟩ := List.mem_filter.mp hc
    have hcr := hchild c hc hcount
    rw [L.color_setColor hl.shows hr hcr]
    split
    · rename_i hco
      rw [hco, hgreen]
      rfl
    · have hg := hl.green_iff c hcr
      cases hv : k.isGreen c with
      | true => simp [hg.mpr hv]
      | false =>
        have hne : color s.timed.heap c ≠ .green := fun he => by simp [hg.mp he] at hv
        simp [hne]
  have hgreens : ((k.references o).filter k.isCounted).filter
      (fun c => color (setColor s.timed.heap o .black) c == .green) = k.greens o := by
    rw [List.filter_congr hcolor, List.filter_filter]
    simp only [Census.greens, Bool.and_comm]
  have htraced : ((k.references o).filter k.isCounted).filter
      (not ∘ fun c => color (setColor s.timed.heap o .black) c == .green) = k.traced o := by
    have hnot : ∀ c ∈ (k.references o).filter k.isCounted,
        (not ∘ fun c => color (setColor s.timed.heap o .black) c == .green) c = !k.isGreen c :=
      fun c hc => congrArg not (hcolor c hc)
    rw [List.filter_congr hnot, List.filter_filter]
    apply List.filter_congr
    intro c _
    exact Bool.and_comm _ _
  have hbuf : isBuffered (setColor s.timed.heap o .black) o = isBuffered s.timed.heap o :=
    L.isBuffered_setColor hl.shows hr hr _
  simp only [harvest, hwhite, beq_self_eq_true, if_true, Timed.references, Timed.onHeap,
    L.references_eq hs hr, ok_bind, hcounted, List.partition_eq_filter_filter, hgreens, htraced,
    hbuf]

-- A collection under way that started at `o` in heap `h`, with `work` still to be visited.
structure Reaping (L : Lawful σ) (k : Census) (r gone : Finset Nat) (h : σ)
    (time : Nat → Nat → Nat) (o : Nat) (dead deferred work : List Nat) (s : Harvest σ) :
    Prop where
  ledger : Ledger L k s.timed.heap r (gone ∪ (tinted h r \ tinted s.timed.heap r))
  time_eq : s.timed.clock.time = time
  buffered : ∀ x ∈ r, isBuffered s.timed.heap x = isBuffered h x
  counts : ∀ x ∈ r, count s.timed.heap x = count h x
  less : tinted s.timed.heap r ⊆ tinted h r
  same : ∀ x ∈ r, x ∉ tinted h r \ tinted s.timed.heap r →
    color s.timed.heap x = color h x
  listed : ∃ new, s.dead = new ++ dead ∧ new.Nodup ∧
    ∀ x, x ∈ new ↔ x ∈ tinted h r \ tinted s.timed.heap r ∧ isBuffered h x = false
  deferred_eq : ∀ x, s.deferred.count x = deferred.count x +
    ∑ z ∈ tinted h r \ tinted s.timed.heap r, (k.greens z).count x
  reached : ∀ x ∈ tinted h r \ tinted s.timed.heap r, k.Reach o x
  pending : ∀ w ∈ work, w ∈ r ∧ k.Reach o w
  closed : ∀ b ∈ tinted h r \ tinted s.timed.heap r, ∀ c ∈ k.traced b,
    c ∈ tinted s.timed.heap r → c ∈ work
  started : o ∈ tinted s.timed.heap r → o ∈ work

namespace Reaping

variable {h : σ} {time : Nat → Nat → Nat} {o w : Nat} {dead deferred work : List Nat}
  {s : Harvest σ}

theorem skip (hi : Reaping L k r gone h time o dead deferred (w :: work) s)
    (hw : w ∉ tinted s.timed.heap r) : Reaping L k r gone h time o dead deferred work s where
  ledger := hi.ledger
  time_eq := hi.time_eq
  buffered := hi.buffered
  counts := hi.counts
  less := hi.less
  same := hi.same
  listed := hi.listed
  deferred_eq := hi.deferred_eq
  reached := hi.reached
  pending x hx := hi.pending x (List.mem_cons_of_mem _ hx)
  closed b hb c hc ht := List.mem_of_ne_of_mem (ne_of_mem_of_not_mem ht hw) (hi.closed b hb c hc ht)
  started ht := List.mem_of_ne_of_mem (ne_of_mem_of_not_mem ht hw) (hi.started ht)

-- An object that is collected is listed to be freed, unless it waits in a queue.
theorem listed_insert (hi : Reaping L k r gone h time o dead deferred work s) (hwr : w ∈ r)
    (hw : w ∉ tinted h r \ tinted s.timed.heap r) :
    ∃ new, (if isBuffered s.timed.heap w then s.dead else w :: s.dead) = new ++ dead ∧ new.Nodup ∧
      ∀ x, x ∈ new ↔ x ∈ insert w (tinted h r \ tinted s.timed.heap r) ∧ isBuffered h x = false := by
  obtain ⟨new, hdead, hnodup, hnew⟩ := hi.listed
  have hbuf := hi.buffered w hwr
  cases hb : isBuffered s.timed.heap w with
  | true =>
    refine ⟨new, hdead, hnodup, fun x => ?_⟩
    rw [hnew, Finset.mem_insert]
    constructor
    · exact fun ⟨hm, hf⟩ => ⟨Or.inr hm, hf⟩
    · rintro ⟨rfl | hm, hf⟩
      · simp [← hbuf, hb] at hf
      · exact ⟨hm, hf⟩
  | false =>
    refine ⟨w :: new, by simp [hdead], ?_, fun x => ?_⟩
    · exact List.nodup_cons.mpr ⟨fun hm => hw ((hnew w).mp hm).1, hnodup⟩
    · rw [List.mem_cons, hnew, Finset.mem_insert]
      constructor
      · rintro (rfl | ⟨hm, hf⟩)
        · exact ⟨Or.inl rfl, hbuf ▸ hb⟩
        · exact ⟨Or.inr hm, hf⟩
      · exact fun ⟨hm, hf⟩ => hm.imp_right fun hm => ⟨hm, hf⟩

-- A white object is collected, and what it leads to is still to be visited.
theorem take (hi : Reaping L k r gone h time o dead deferred (w :: work) s)
    (hchild : ∀ y ∈ tinted h r, ∀ c ∈ k.references y, k.isCounted c = true → c ∈ r)
    (hw : w ∈ tinted s.timed.heap r) :
    Reaping L k r gone h time o dead deferred ((k.traced w).reverse ++ work)
      { timed := ⟨setColor s.timed.heap w .black, s.timed.clock.visit⟩
        dead := if isBuffered s.timed.heap w then s.dead else w :: s.dead
        deferred := (k.greens w).reverse ++ s.deferred } := by
  have hwr : w ∈ r := Ledger.tinted_subset hw
  have hwh : w ∈ tinted h r := hi.less hw
  have hs := hi.ledger.shows
  obtain ⟨hl', htint⟩ := hi.ledger.bury hw
  have hmoved : tinted h r \ tinted (setColor s.timed.heap w .black) r =
      insert w (tinted h r \ tinted s.timed.heap r) := by
    rw [htint, Finset.sdiff_erase hwh]
  have hwm : w ∉ tinted h r \ tinted s.timed.heap r := by simp [hw]
  have hwo := (hi.pending w List.mem_cons_self).2
  exact {
    ledger := by
      rw [hmoved, Finset.union_insert]
      exact hl'
    time_eq := hi.time_eq
    buffered := fun x hx => (L.isBuffered_setColor hs hwr hx _).trans (hi.buffered x hx)
    counts := fun x hx => (L.count_setColor hs hwr hx _).trans (hi.counts x hx)
    less := htint.trans_subset ((Finset.erase_subset _ _).trans hi.less)
    same := by
      intro x hx hn
      obtain ⟨hxw, hn⟩ := not_or.mp (mt Finset.mem_insert.mpr (hmoved ▸ hn))
      exact ((L.color_setColor hs hwr hx _).trans (if_neg hxw)).trans (hi.same x hx hn)
    listed := by
      rw [hmoved]
      exact hi.listed_insert hwr hwm
    deferred_eq := by
      intro x
      have hd := hi.deferred_eq x
      rw [hmoved, Finset.sum_insert hwm, List.count_append, List.count_reverse, hd]
      omega
    reached := by
      intro x hx
      rcases Finset.mem_insert.mp (hmoved ▸ hx) with rfl | hx
      · exact hwo
      · exact hi.reached x hx
    pending := by
      intro x hx
      rcases List.mem_append.mp hx with hx | hx
      · have hxt := List.mem_reverse.mp hx
        obtain ⟨href, hcount, -⟩ := Census.mem_traced.mp hxt
        exact ⟨hchild w hwh x href hcount, hwo.tail hxt⟩
      · exact hi.pending x (List.mem_cons_of_mem _ hx)
    closed := by
      intro b hb c hc ht
      obtain ⟨hcw, hct⟩ := Finset.mem_erase.mp (htint ▸ ht)
      rcases Finset.mem_insert.mp (hmoved ▸ hb) with rfl | hb
      · exact List.mem_append_left _ (List.mem_reverse.mpr hc)
      · exact List.mem_append_right _ (List.mem_of_ne_of_mem hcw (hi.closed b hb c hc hct))
    started := by
      intro ht
      obtain ⟨how, hot⟩ := Finset.mem_erase.mp (htint ▸ ht)
      exact List.mem_append_right _ (List.mem_of_ne_of_mem how (hi.started hot)) }

theorem visit (hwhite : ∀ x ∈ tinted h r, color h x = .white)
    (hchild : ∀ y ∈ tinted h r, ∀ c ∈ k.references y, k.isCounted c = true → c ∈ r)
    (hi : Reaping L k r gone h time o dead deferred (w :: work) s) :
    ∃ found s', harvest w s = .ok (found, s') ∧
      Reaping L k r gone h time o dead deferred (found.reverse ++ work) s' ∧
      found.length + ∑ x ∈ tinted s'.timed.heap r, (k.references x).length ≤
        ∑ x ∈ tinted s.timed.heap r, (k.references x).length := by
  obtain ⟨hwr, -⟩ := hi.pending w List.mem_cons_self
  by_cases hw : w ∈ tinted s.timed.heap r
  · have hcolor : color s.timed.heap w = .white := by
      rw [hi.same w hwr fun hm => (Finset.mem_sdiff.mp hm).2 hw]
      exact hwhite w (hi.less hw)
    have hgreen := (Census.mem_live.mp (hi.ledger.tinted_live hw)).2.1
    refine ⟨_, _, harvest_white hi.ledger hwr hcolor hgreen (hchild w (hi.less hw)),
      hi.take hchild hw, ?_⟩
    have hlen := k.length_traced_le w
    have hsum := Finset.sum_erase_add _ (fun x => (k.references x).length) hw
    simp only [(hi.ledger.bury hw).2]
    omega
  · refine ⟨[], s, ?_, hi.skip hw, by simp⟩
    have hne : color s.timed.heap w ≠ .white := fun he =>
      hw (mem_tinted.mpr ⟨hwr, Or.inr he⟩)
    simp [harvest, hne]

-- All that is linked to the start has been collected.
theorem linked_not_mem (hi : Reaping L k r gone h time o dead deferred [] s) {x : Nat}
    (hx : k.Linked (tinted h r) o x) : x ∉ tinted s.timed.heap r := by
  intro ht
  have hout : ∀ y ∈ tinted h r, y ∉ tinted s.timed.heap r → ∀ c ∈ k.traced y,
      c ∉ tinted s.timed.heap r := fun y hy hyt c hc hct =>
    List.not_mem_nil (hi.closed y (Finset.mem_sdiff.mpr ⟨hy, hyt⟩) c hc hct)
  exact List.not_mem_nil (hi.started (hx.shrink hout ht).1)

end Reaping

theorem collectWhite_ok {o : Nat} {s : Harvest σ} (hl : Ledger L k s.timed.heap r gone)
    (hwhite : ∀ x ∈ tinted s.timed.heap r, color s.timed.heap x = .white)
    (hchild : ∀ y ∈ tinted s.timed.heap r, ∀ c ∈ k.references y, k.isCounted c = true → c ∈ r)
    (ho : o ∈ r) :
    ∃ s', collectWhite o s = .ok s' ∧
      Reaping L k r gone s.timed.heap s.timed.clock.time o s.dead s.deferred [] s' := by
  apply worklist_ok
    (Reaping L k r gone s.timed.heap s.timed.clock.time o s.dead s.deferred)
    (fun s => ∑ x ∈ tinted s.timed.heap r, (k.references x).length)
  · intro w work s hs
    exact hs.visit hwhite hchild
  · refine ⟨by simpa using hl, rfl, fun _ _ => rfl, fun _ _ => rfl, le_refl _, fun _ _ _ => rfl,
      ⟨[], rfl, List.nodup_nil, by simp⟩, by simp, by simp, ?_, by simp, ?_⟩
    · intro w hw
      rw [List.mem_singleton.mp hw]
      exact ⟨ho, .refl⟩
    · intro _
      exact List.mem_cons_self
  · have hle := (Finset.sum_le_sum_of_subset (f := fun x => (k.references x).length)
      (Ledger.tinted_subset (h := s.timed.heap) (r := r))).trans (L.sum_le_extent hl.shows)
    simp only [List.length_cons, List.length_nil, steps]
    omega

end Reclaim.Trial
