import Reclaim.Proofs.Trial.Graph

/-!
Traversals end on every graph, whatever colours its objects have, whether or not the counts are right
and whatever the clock shows. What they may still follow are the references of objects of some colours,
and an object whose references they have followed is not of these colours any more.
-/
namespace Reclaim

-- A count is lower than the references that marking finds.
def Fault.IsUnderflow (f : Fault) : Prop := ∃ o, f = .fatal (.greyUnderflow o)

namespace Trial

open CountedHeap

namespace Graph

variable {g g' g'' : Graph} {tints : List Color} {kind : Color → Bool}

-- A number beyond the graph names no object that could change.
theorem node_setStatus_of_le {o : Nat} (ho : g.nodes.size ≤ o) (s x : Nat) :
    (g.setStatus o s).node x = g.node x := by
  simp only [node, setStatus, modify, Array.getD_eq_getD_getElem?, Array.getElem?_modify]
  split
  · rename_i hx
    rw [← hx, Array.getElem?_eq_none ho]
    rfl
  · rfl

theorem status_setStatus (g : Graph) (o s x : Nat) :
    status (g.setStatus o s) x = if x = o ∧ o < g.nodes.size then s else status g x := by
  change ((g.setStatus o s).node x).status = if _ then s else (g.node x).status
  by_cases ho : o < g.nodes.size
  · rw [node_setStatus ho]
    by_cases hx : x = o <;> simp [hx, ho]
  · rw [node_setStatus_of_le (not_lt.mp ho), if_neg fun h => ho h.2]

theorem references_setStatus (g : Graph) (o s x : Nat) :
    (g.setStatus o s).references x = g.references x := by
  by_cases ho : o < g.nodes.size
  · rw [references, node_setStatus ho, references]
    split <;> rfl
  · rw [references, node_setStatus_of_le (not_lt.mp ho), references]

theorem references_of_le {o : Nat} (ho : g.nodes.size ≤ o) : g.references o = [] := by
  rw [references, node, Array.getD_eq_getD_getElem?, Array.getElem?_eq_none ho]
  rfl

-- A graph in which some objects have turned to one of some colours.
structure Recolored (tints : List Color) (g g' : Graph) : Prop where
  size_eq : g'.nodes.size = g.nodes.size
  references_eq : ∀ o, g'.references o = g.references o
  color : ∀ o, color g' o = color g o ∨ color g' o ∈ tints

namespace Recolored

theorem refl (tints : List Color) (g : Graph) : Recolored tints g g :=
  ⟨rfl, fun _ => rfl, fun _ => Or.inl rfl⟩

theorem trans (h : Recolored tints g g') (h' : Recolored tints g' g'') : Recolored tints g g'' where
  size_eq := h'.size_eq.trans h.size_eq
  references_eq o := (h'.references_eq o).trans (h.references_eq o)
  color o := by
    rcases h'.color o with heq | hmem
    · rw [heq]
      exact h.color o
    · exact Or.inr hmem

theorem mono (h : Recolored tints g g') {tints' : List Color} (hsub : tints ⊆ tints') :
    Recolored tints' g g' :=
  ⟨h.size_eq, h.references_eq, fun o => (h.color o).imp_right fun hmem => hsub hmem⟩

-- Nothing turns green.
theorem green (h : Recolored tints g g') (htints : .green ∉ tints) {o : Nat}
    (ho : CountedHeap.color g' o = .green) : CountedHeap.color g o = .green :=
  ((h.color o).resolve_right fun hmem => htints (ho ▸ hmem)).symm.trans ho

end Recolored

theorem recolored_setStatus (g : Graph) (o s : Nat)
    (hs : Status.color s = color g o ∨ Status.color s ∈ tints) :
    Recolored tints g (g.setStatus o s) where
  size_eq := Array.size_modify
  references_eq := g.references_setStatus o s
  color x := by
    rw [color, status_setStatus]
    split
    · rename_i hx
      rw [hx.1]
      exact hs
    · exact Or.inl rfl

theorem recolored_setColor (g : Graph) (o : Nat) {c : Color} (hc : c ∈ tints) :
    Recolored tints g (setColor g o c) :=
  recolored_setStatus g o _ (Or.inr (by rwa [Status.color_setColor]))

theorem recolored_clearBuffered (g : Graph) (o : Nat) : Recolored tints g (clearBuffered g o) :=
  recolored_setStatus g o _ (Or.inl (Status.color_clearBuffered _))

theorem recolored_decrement {o n : Nat} (h : decrement? g o = some (n, g')) : Recolored tints g g' := by
  obtain ⟨s, hs, heq⟩ := Option.map_eq_some_iff.mp h
  cases heq
  have hpos : 0 < Status.count (status g o) := Nat.pos_of_ne_zero fun hzero => by
    rw [(Status.decrement?_eq_none_iff _).mpr hzero] at hs
    cases hs
  refine recolored_setStatus g o s (Or.inl ?_)
  obtain ⟨t, ht, -, htcolor, -⟩ := Status.decrement?_of_pos hpos
  rw [hs] at ht
  cases ht
  exact htcolor

theorem recolored_increments (children : List Nat) (g : Graph) :
    Recolored tints g (children.foldl increment g) := by
  induction children generalizing g with
  | nil => exact .refl tints g
  | cons child rest ih =>
    exact (recolored_setStatus g child _ (Or.inl (Status.color_increment _))).trans (ih _)

-- The number of references of the objects of some colours.
def outstanding (kind : Color → Bool) (g : Graph) : Nat :=
  ∑ o ∈ Finset.range g.nodes.size with kind (color g o) = true, (g.references o).length

theorem outstanding_le_extent (kind : Color → Bool) (g : Graph) : g.outstanding kind ≤ g.extent :=
  sum_references_le fun _ ho => Finset.mem_range.mp (Finset.mem_filter.mp ho).1

theorem Recolored.outstanding_le (h : Recolored tints g g') (htints : ∀ c ∈ tints, kind c = false) :
    g'.outstanding kind ≤ g.outstanding kind := by
  rw [outstanding, h.size_eq, outstanding,
    Finset.sum_congr rfl fun o _ => congrArg List.length (h.references_eq o)]
  refine Finset.sum_le_sum_of_subset fun o ho => ?_
  obtain ⟨hlt, hkind⟩ := Finset.mem_filter.mp ho
  refine Finset.mem_filter.mpr ⟨hlt, ?_⟩
  rcases h.color o with heq | hmem
  · rwa [← heq]
  · rw [htints _ hmem] at hkind
    cases hkind

-- The references of an object that loses its colour are followed.
theorem outstanding_setColor {o : Nat} {c : Color} (ho : kind (color g o) = true) (hc : kind c = false) :
    (g.references o).length + outstanding kind (setColor g o c) ≤ g.outstanding kind := by
  have hrec : Recolored [c] g (setColor g o c) := recolored_setColor g o List.mem_cons_self
  have hkind : ∀ c' ∈ [c], kind c' = false := fun c' hc' => List.mem_singleton.mp hc' ▸ hc
  by_cases hlt : o < g.nodes.size
  · have hmem : o ∈ (Finset.range g.nodes.size).filter fun o => kind (color g o) = true :=
      Finset.mem_filter.mpr ⟨Finset.mem_range.mpr hlt, ho⟩
    have hcolor : color (setColor g o c) o = c := by
      have hstatus := status_setStatus g o (Status.setColor (status g o) c) o
      rw [if_pos ⟨rfl, hlt⟩] at hstatus
      exact (congrArg Status.color hstatus).trans (Status.color_setColor _ _)
    have hsub : ((Finset.range (setColor g o c).nodes.size).filter
        fun x => kind (color (setColor g o c) x) = true) ⊆
          ((Finset.range g.nodes.size).filter fun x => kind (color g x) = true).erase o := by
      intro x hx
      obtain ⟨hxlt, hx⟩ := Finset.mem_filter.mp hx
      rw [hrec.size_eq] at hxlt
      refine Finset.mem_erase.mpr ⟨?_, Finset.mem_filter.mpr ⟨hxlt, ?_⟩⟩
      · rintro rfl
        rw [hcolor, hc] at hx
        cases hx
      · rcases hrec.color x with heq | hin
        · rwa [← heq]
        · rw [hkind _ hin] at hx
          cases hx
    have hle := Finset.sum_le_sum_of_subset (f := fun x => (g.references x).length) hsub
    have hsum := Finset.add_sum_erase _ (fun x => (g.references x).length) hmem
    rw [outstanding, Finset.sum_congr rfl fun x _ => congrArg List.length (hrec.references_eq x),
      outstanding]
    omega
  · rw [references_of_le (not_lt.mp hlt), List.length_nil, Nat.zero_add]
    exact hrec.outstanding_le hkind

-- So do the references of an object that turns to another colour before counts change.
theorem followed (kind : Color → Bool) {o : Nat} {c : Color} (h : Recolored [] (setColor g o c) g')
    (ho : kind (color g o) = true) (hc : kind c = false) {found : List Nat}
    (hle : found.length ≤ (g.references o).length) :
    Recolored [c] g g' ∧ found.length + g'.outstanding kind ≤ g.outstanding kind := by
  have hturned := outstanding_setColor ho hc
  have hkept : g'.outstanding kind ≤ (setColor g o c).outstanding kind := h.outstanding_le nofun
  refine ⟨(recolored_setColor g o List.mem_cons_self).trans (h.mono (List.nil_subset _)), ?_⟩
  omega

-- What starts with one object ends within the steps that it is given.
theorem one_add_outstanding_le (kind : Color → Bool) (t : Timed Graph) (o : Nat) :
    [o].length + t.heap.outstanding kind ≤ steps t := by
  have hle := outstanding_le_extent kind t.heap
  change 1 + _ ≤ t.heap.extent + 1
  omega

-- Children whose counts are taken off are followed, unless a count is too low.
theorem takeCounts_ends (g : Graph) (children : List Nat) :
    Concludes Fault.IsUnderflow (Marking.takeCounts g children) fun r =>
      r.1.length ≤ children.length ∧ Recolored [] g r.2 := by
  induction children generalizing g with
  | nil => exact .ok ⟨le_refl _, .refl [] g⟩
  | cons child rest ih =>
    rw [Marking.takeCounts]
    refine Concludes.bind (.ok trivial : Concludes _ (isTraced g child) fun _ => True) fun traced _ => ?_
    cases traced with
    | false => exact (ih g).mono fun _ h => ⟨h.1.trans (Nat.le_succ _), h.2⟩
    | true =>
      cases hdec : decrement? g child with
      | none => exact .error ⟨child, rfl⟩
      | some p =>
        obtain ⟨n, g₁⟩ := p
        refine (ih g₁).bind ?_
        rintro ⟨found, g'⟩ ⟨hle, hrec⟩
        exact .ok ⟨Nat.succ_le_succ hle, (recolored_decrement hdec).trans hrec⟩

theorem shade_ends (t : Timed Graph) (o : Nat) :
    Concludes Fault.IsUnderflow (Marking.shade t o) fun r => r.1.length ≤ (t.heap.references o).length ∧
      Recolored [] (setColor t.heap o .grey) r.2.heap := by
  have hrefs : (setColor t.heap o .grey).references o = t.heap.references o :=
    references_setStatus t.heap o _ o
  refine (takeCounts_ends (setColor t.heap o .grey) _).bind ?_
  rintro ⟨found, g⟩ ⟨hle, hrec⟩
  exact .ok ⟨hrefs ▸ hle, hrec⟩

-- Marking follows the references of what is not grey yet.
theorem markGrey_ends {grain : Nat} (hgrain : grain ≠ 0) (limit o : Nat) (m : Marking Graph) :
    Concludes Fault.IsUnderflow (markGrey grain limit o m) fun m' =>
      Recolored [.grey] m.timed.heap m'.timed.heap := by
  refine worklist_ends (fun _ (m' : Marking Graph) => Recolored [.grey] m.timed.heap m'.timed.heap)
    (fun m => m.timed.heap.outstanding (· != .grey)) (fun x work m₁ hrec => ?_) _ _ _ (.refl _ _)
    (one_add_outstanding_le _ m.timed o)
  obtain ⟨m₂, harrive, hheap, -⟩ := Marking.arrive_ok hgrain limit m₁
  rw [← hheap] at hrec ⊢
  simp only [Marking.visit, harrive, ok_bind]
  split
  · exact .ok ⟨hrec, by simp⟩
  · rename_i hstop
    have hcolor : (color m₂.timed.heap x != .grey) = true := by
      rw [Bool.or_eq_true, not_or] at hstop
      exact bne_iff_ne.mpr fun heq => hstop.2 (beq_iff_eq.mpr heq)
    refine (shade_ends m₂.timed x).bind ?_
    rintro ⟨found, t⟩ ⟨hle, hshade⟩
    obtain ⟨hturned, hless⟩ := followed (· != .grey) hshade hcolor rfl hle
    exact .ok ⟨hrec.trans hturned, hless⟩

-- The references of an object that are followed once it has another colour.
theorem tracedReferences_ok (t : Timed Graph) (o : Nat) (c : Color) : ∃ found t',
    (t.onHeap (setColor · o c)).tracedReferences o = .ok (found, t') ∧ t'.heap = setColor t.heap o c ∧
    found.length ≤ (t.heap.references o).length := by
  have hrefs : (setColor t.heap o c).references o = t.heap.references o :=
    references_setStatus t.heap o _ o
  have hfilter : ((setColor t.heap o c).references o).filterM (isTraced (setColor t.heap o c)) =
      .ok (((setColor t.heap o c).references o).filter fun child =>
        ((setColor t.heap o c).node child).counted && color (setColor t.heap o c) child != .green) :=
    filterM_ok fun _ _ => rfl
  refine ⟨_, _, bind_eq_ok.mpr ⟨(_, _), rfl, bind_eq_ok.mpr ⟨_, hfilter, rfl⟩⟩, rfl, ?_⟩
  rw [hrefs]
  exact List.length_filter_le ..

-- Turning things black follows the references of what is grey or white.
theorem scanBlack_ends (o : Nat) (t : Timed Graph) :
    ∃ t', scanBlack o t = .ok t' ∧ Recolored [.black] t.heap t'.heap := by
  refine worklist_ok (fun _ (t' : Timed Graph) => Recolored [.black] t.heap t'.heap)
    (fun t => t.heap.outstanding fun c => c == .grey || c == .white) (fun x work t₁ hrec => ?_) _ _ _
    (.refl _ _) (one_add_outstanding_le _ t o)
  rw [blacken]
  split
  · rename_i hcolor
    obtain ⟨found, t₂, htraced, hheap, hle⟩ := tracedReferences_ok t₁ x .black
    have hcounts : Recolored [] (setColor t₁.heap x .black) (found.foldl increment t₂.heap) :=
      hheap ▸ recolored_increments found t₂.heap
    have hfound :=
      (List.length_filter_le (isGreyOrWhite (found.foldl increment t₂.heap)) found).trans hle
    obtain ⟨hturned, hless⟩ := followed (fun c => c == .grey || c == .white) hcounts hcolor rfl hfound
    exact ⟨_, _, bind_eq_ok.mpr ⟨_, htraced, rfl⟩, hrec.trans hturned, hless⟩
  · exact ⟨[], t₁, rfl, hrec, by simp⟩

-- The scan follows the references of what is grey, and leaves others to what turns things black.
theorem scan_ends (o : Nat) (t : Timed Graph) :
    ∃ t', scan o t = .ok t' ∧ Recolored [.white, .black] t.heap t'.heap := by
  refine worklist_ok (fun _ (t' : Timed Graph) => Recolored [.white, .black] t.heap t'.heap)
    (fun t => t.heap.outstanding (· == .grey)) (fun x work t₁ hrec => ?_) _ _ _
    (.refl _ _) (one_add_outstanding_le _ t o)
  rw [scanOne]
  split
  · rename_i hcolor
    split
    · obtain ⟨t₂, hblack, hturned⟩ := scanBlack_ends x t₁
      refine ⟨[], t₂, bind_eq_ok.mpr ⟨t₂, hblack, rfl⟩, hrec.trans (hturned.mono (by simp)), ?_⟩
      rw [List.length_nil, Nat.zero_add]
      exact hturned.outstanding_le (by simp)
    · obtain ⟨found, t₂, htraced, hheap, hle⟩ := tracedReferences_ok t₁ x .white
      have hcounts : Recolored [] (setColor t₁.heap x .white) t₂.heap := hheap ▸ .refl [] _
      obtain ⟨hturned, hless⟩ := followed (· == .grey) hcounts hcolor rfl hle
      exact ⟨found, t₂, htraced, hrec.trans (hturned.mono (by simp)), hless⟩
  · exact ⟨[], t₁, rfl, hrec, by simp⟩

-- Collecting follows the references of what is white.
theorem collectWhite_ends (o : Nat) (s : Harvest Graph) :
    ∃ s', collectWhite o s = .ok s' ∧ Recolored [.black] s.timed.heap s'.timed.heap := by
  refine worklist_ok (fun _ (s' : Harvest Graph) => Recolored [.black] s.timed.heap s'.timed.heap)
    (fun s => s.timed.heap.outstanding (· == .white)) (fun x work s₁ hrec => ?_) _ _ _
    (.refl _ _) (one_add_outstanding_le _ s.timed o)
  rw [harvest]
  split
  · rename_i hcolor
    have hcounts := Recolored.refl [] (setColor s₁.timed.heap x .black)
    have hrefs : (setColor s₁.timed.heap x .black).references x = s₁.timed.heap.references x :=
      references_setStatus s₁.timed.heap x _ x
    obtain ⟨counted, hcounted, hle⟩ : ∃ counted,
        ((setColor s₁.timed.heap x .black).references x).filterM
          (isCounted (setColor s₁.timed.heap x .black)) = .ok counted ∧
        counted.length ≤ (s₁.timed.heap.references x).length :=
      ⟨_, filterM_ok fun _ _ => rfl, hrefs ▸ List.length_filter_le ..⟩
    have hfound : (counted.partition fun child =>
        color (setColor s₁.timed.heap x .black) child == .green).2.length ≤
          (s₁.timed.heap.references x).length := by
      rw [List.partition_eq_filter_filter]
      exact (List.length_filter_le ..).trans hle
    obtain ⟨hturned, hless⟩ := followed (· == .white) hcounts hcolor rfl hfound
    exact ⟨_, _, bind_eq_ok.mpr ⟨(_, _), rfl, bind_eq_ok.mpr ⟨counted, hcounted, rfl⟩⟩,
      hrec.trans hturned, hless⟩
  · exact ⟨[], s₁, rfl, hrec, by simp⟩

end Graph

end Trial

end Reclaim
