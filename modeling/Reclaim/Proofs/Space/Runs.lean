import Reclaim.Proofs.Space

/-!
The list of released runs. It is sorted and has a gap between any two runs: a run that comes back is
joined with those that it touches, and a binary search finds its place.
-/
namespace Reclaim.Run

-- Sorted, with pages between each run and the next.
def Spaced (runs : List Run) : Prop := runs.Pairwise fun r r' => r.stop < r'.first

variable {runs before after rest : List Run} {r : Run} {page pages first : Nat}

theorem Spaced.nil : Spaced [] := List.Pairwise.nil

theorem spaced_cons_iff : Spaced (r :: rest) ↔ (∀ x ∈ rest, r.stop < x.first) ∧ Spaced rest :=
  List.pairwise_cons

theorem spaced_append_iff : Spaced (before ++ after) ↔
    Spaced before ∧ Spaced after ∧ ∀ x ∈ before, ∀ y ∈ after, x.stop < y.first :=
  List.pairwise_append

-- Runs in which no page lies are apart.
theorem apart_of_cover {x : Run} (hx : x ∈ runs) (hpos : 0 < x.pages) (hpos' : 0 < r.pages)
    (hcover : ∀ p, r.first ≤ p → p < r.stop → cover runs p = 0) :
    r.stop ≤ x.first ∨ x.stop ≤ r.first := by
  by_contra hn
  simp only [stop] at hn hcover
  have hzero := hcover (max r.first x.first) (by omega) (by omega)
  have hone := cover_pos hx (p := max r.first x.first) (by omega) (by omega)
  omega

-- Taking pages from the front of a run leaves the others as they are.
theorem takeFirst?_mem (h : takeFirst? pages runs = some (first, rest)) :
    ∀ x ∈ rest, ∃ y ∈ runs, y.first ≤ x.first ∧ x.stop = y.stop := by
  induction runs generalizing first rest with
  | nil => simp [takeFirst?] at h
  | cons r runs ih =>
    unfold takeFirst? at h
    by_cases hle : pages ≤ r.pages
    · simp only [if_pos hle, Option.some.injEq, Prod.mk.injEq] at h
      obtain ⟨rfl, rfl⟩ := h
      intro x hx
      by_cases heq : r.pages = pages
      · rw [if_pos heq] at hx
        exact ⟨x, List.mem_cons_of_mem _ hx, le_refl _, rfl⟩
      · rw [if_neg heq] at hx
        rcases List.mem_cons.mp hx with rfl | hx
        · refine ⟨r, List.mem_cons_self, Nat.le_add_right _ _, ?_⟩
          simp only [stop]
          omega
        · exact ⟨x, List.mem_cons_of_mem _ hx, le_refl _, rfl⟩
    · simp only [if_neg hle, Option.map_eq_some_iff, Prod.mk.injEq, Prod.exists] at h
      obtain ⟨first', rest', htake, rfl, rfl⟩ := h
      intro x hx
      rcases List.mem_cons.mp hx with rfl | hx
      · exact ⟨x, List.mem_cons_self, le_refl _, rfl⟩
      · obtain ⟨y, hy, h⟩ := ih htake x hx
        exact ⟨y, List.mem_cons_of_mem _ hy, h⟩

theorem Spaced.takeFirst? (hs : Spaced runs) (h : takeFirst? pages runs = some (first, rest)) :
    Spaced rest := by
  induction runs generalizing first rest with
  | nil => simp [Run.takeFirst?] at h
  | cons r runs ih =>
    obtain ⟨hfirst, hrest⟩ := spaced_cons_iff.mp hs
    unfold Run.takeFirst? at h
    by_cases hle : pages ≤ r.pages
    · simp only [if_pos hle, Option.some.injEq, Prod.mk.injEq] at h
      obtain ⟨rfl, rfl⟩ := h
      by_cases heq : r.pages = pages
      · rw [if_pos heq]
        exact hrest
      · rw [if_neg heq]
        refine spaced_cons_iff.mpr ⟨fun x hx => ?_, hrest⟩
        have hlt := hfirst x hx
        simp only [stop] at hlt ⊢
        omega
    · simp only [if_neg hle, Option.map_eq_some_iff, Prod.mk.injEq, Prod.exists] at h
      obtain ⟨first', rest', htake, rfl, rfl⟩ := h
      refine spaced_cons_iff.mpr ⟨fun x hx => ?_, ih hrest htake⟩
      obtain ⟨y, hy, hle, -⟩ := takeFirst?_mem htake x hx
      exact (hfirst y hy).trans_le hle

-- Run `i` exists and starts before the page.
def Below (runs : List Run) (page i : Nat) : Prop := ∃ r, runs[i]? = some r ∧ r.first < page

theorem below_iff (runs : List Run) (page i : Nat) :
    runs.toArray[i]?.any (·.first < page) = true ↔ Below runs page i := by
  rw [List.getElem?_toArray, Option.any_eq_true]
  simp [Below]

-- In a sorted list, all runs before one that starts below the page do so as well.
theorem Below.of_le (hs : Spaced runs) {i j : Nat} (hj : Below runs page j) (hij : i ≤ j) :
    Below runs page i := by
  obtain ⟨r, hr, hlt⟩ := hj
  rcases Nat.eq_or_lt_of_le hij with rfl | hij
  · exact ⟨r, hr, hlt⟩
  · obtain ⟨hjlt, rfl⟩ := List.getElem?_eq_some_iff.mp hr
    refine ⟨runs[i], List.getElem?_eq_getElem (hij.trans hjlt), ?_⟩
    have hgap := List.pairwise_iff_getElem.mp hs i j (hij.trans hjlt) hjlt hij
    simp only [stop] at hgap
    omega

-- The search narrows down where the runs below the page end: the run it rests on is below, unless it
-- is the first, and no run is below from `base + size` on.
theorem search_ok (hs : Spaced runs) {steps base size : Nat} (hsteps : size ≤ steps)
    (hbase : base = 0 ∨ Below runs page base) (htop : ¬Below runs page (base + size)) :
    (search runs.toArray page steps base size = 0 ∨
      Below runs page (search runs.toArray page steps base size)) ∧
      ¬Below runs page (search runs.toArray page steps base size + 1) := by
  induction steps generalizing base size with
  | zero =>
    refine ⟨hbase, fun h => htop (h.of_le hs ?_)⟩
    simp only [search]
    omega
  | succ steps ih =>
    unfold search
    by_cases hone : size ≤ 1
    · rw [if_pos hone]
      exact ⟨hbase, fun h => htop (h.of_le hs (by omega))⟩
    · rw [if_neg hone]
      by_cases hbelow : Below runs page (base + size / 2)
      · simp only [(below_iff _ _ _).mpr hbelow, if_true]
        refine ih (by omega) (Or.inr hbelow) ?_
        rwa [Nat.add_assoc, Nat.add_sub_cancel' (Nat.div_le_self _ _)]
      · simp only [Bool.eq_false_iff.mpr ((below_iff _ _ _).not.mpr hbelow), Bool.false_eq_true,
          if_false]
        exact ih (by omega) hbase fun h => hbelow (h.of_le hs (by omega))

-- The place of a page parts the runs that start below it from the others.
theorem position_ok (hs : Spaced runs) (i : Nat) : Below runs page i ↔ i < position runs page := by
  have hend : ¬Below runs page (0 + runs.length) := by
    rintro ⟨r, hr, -⟩
    rw [Nat.zero_add, List.getElem?_length] at hr
    cases hr
  obtain ⟨hbase, hnext⟩ := search_ok hs (le_refl runs.length) (Or.inl rfl) hend
  unfold position
  simp only [List.size_toArray]
  by_cases hbelow : Below runs page (search runs.toArray page runs.length 0 runs.length)
  · simp only [(below_iff _ _ _).mpr hbelow, if_true]
    constructor
    · intro hi
      by_contra hn
      exact hnext (hi.of_le hs (by omega))
    · intro hi
      exact hbelow.of_le hs (by omega)
  · simp only [Bool.eq_false_iff.mpr ((below_iff _ _ _).not.mpr hbelow), Bool.false_eq_true,
      if_false]
    have hzero := hbase.resolve_right hbelow
    rw [hzero] at hbelow ⊢
    exact ⟨fun hi => absurd (hi.of_le hs (Nat.zero_le i)) hbelow, nofun⟩

theorem first_lt_of_mem_take (hs : Spaced runs) {x : Run}
    (hx : x ∈ runs.take (position runs page)) : x.first < page := by
  obtain ⟨i, hi, rfl⟩ := List.mem_take_iff_getElem.mp hx
  obtain ⟨y, hy, hlt⟩ := (position_ok hs i).mpr (lt_of_lt_of_le hi (min_le_left _ _))
  rw [List.getElem?_eq_getElem (lt_of_lt_of_le hi (min_le_right _ _))] at hy
  cases hy
  exact hlt

theorem le_first_of_mem_drop (hs : Spaced runs) {x : Run}
    (hx : x ∈ runs.drop (position runs page)) : page ≤ x.first := by
  obtain ⟨i, hi, rfl⟩ := List.mem_drop_iff_getElem.mp hx
  by_contra hlt
  have hbelow : Below runs page (i + position runs page) :=
    ⟨_, List.getElem?_eq_getElem hi, by simpa only [Nat.add_comm i] using Nat.lt_of_not_le hlt⟩
  have := (position_ok hs _).mp hbelow
  omega

theorem cons_cons (r next : Run) (rest : List Run) : cons r (next :: rest) =
    if r.stop = next.first then ⟨r.first, r.pages + next.pages⟩ :: rest else r :: next :: rest := rfl

theorem cons_pos (hr : 0 < r.pages) (hpos : ∀ x ∈ rest, 0 < x.pages) :
    ∀ x ∈ cons r rest, 0 < x.pages := by
  cases rest with
  | nil => exact List.forall_mem_singleton.mpr hr
  | cons next rest =>
    rw [cons_cons]
    split
    · exact List.forall_mem_cons.mpr ⟨Nat.add_pos_left hr _, (List.forall_mem_cons.mp hpos).2⟩
    · exact List.forall_mem_cons.mpr ⟨hr, hpos⟩

-- A run joins the run behind it if they touch.
theorem Spaced.cons (hs : Spaced rest) (hpos : ∀ x ∈ rest, 0 < x.pages)
    (hr : ∀ x ∈ rest, r.stop ≤ x.first) :
    Spaced (cons r rest) ∧ ∀ x ∈ Run.cons r rest, r.first ≤ x.first := by
  cases rest with
  | nil => exact ⟨List.pairwise_singleton _ _, by simp [Run.cons]⟩
  | cons next rest =>
    obtain ⟨hnext, hrest⟩ := spaced_cons_iff.mp hs
    rw [List.forall_mem_cons] at hpos hr
    have hbehind : ∀ x ∈ rest, r.stop < x.first := fun x hx => by
      have := hnext x hx
      simp only [stop] at this hr ⊢
      omega
    rw [cons_cons]
    by_cases htouch : r.stop = next.first
    · rw [if_pos htouch]
      constructor
      · refine spaced_cons_iff.mpr ⟨fun x hx => ?_, hrest⟩
        have := hnext x hx
        simp only [stop] at this htouch ⊢
        omega
      · refine List.forall_mem_cons.mpr ⟨le_refl _, fun x hx => ?_⟩
        have := hbehind x hx
        simp only [stop] at this
        omega
    · rw [if_neg htouch]
      have hlt : ∀ x ∈ next :: rest, r.stop < x.first :=
        List.forall_mem_cons.mpr ⟨lt_of_le_of_ne hr.1 htouch, hbehind⟩
      refine ⟨spaced_cons_iff.mpr ⟨hlt, hs⟩, List.forall_mem_cons.mpr ⟨le_refl _, fun x hx => ?_⟩⟩
      have := hlt x hx
      simp only [stop] at this
      omega

-- Two lists are joined where they touch.
theorem Spaced.append (hb : Spaced before) (ha : Spaced after) (hpos : ∀ x ∈ after, 0 < x.pages)
    (hle : ∀ x ∈ before, ∀ y ∈ after, x.stop ≤ y.first) : Spaced (append before after) := by
  cases after with
  | nil => exact hb
  | cons next rest =>
    obtain ⟨hnext, hrest⟩ := spaced_cons_iff.mp ha
    rw [List.forall_mem_cons] at hpos
    have hle' : ∀ x ∈ before, x.stop ≤ next.first := fun x hx => hle x hx next List.mem_cons_self
    have hbehind : ∀ x ∈ before, ∀ y ∈ rest, x.stop < y.first := fun x hx y hy => by
      have h1 := hle' x hx
      have h2 := hnext y hy
      simp only [stop] at h1 h2 ⊢
      omega
    unfold Run.append
    cases hlast : before.getLast? with
    | none =>
      rw [List.getLast?_eq_none_iff.mp hlast] at *
      exact ha
    | some last =>
      obtain ⟨front, rfl⟩ := List.getLast?_eq_some_iff.mp hlast
      simp only [List.dropLast_concat]
      obtain ⟨hfront, -, hgap⟩ := spaced_append_iff.mp hb
      simp only [List.mem_singleton, forall_eq] at hgap
      by_cases htouch : last.stop = next.first
      · rw [if_pos htouch]
        refine spaced_append_iff.mpr ⟨hfront, spaced_cons_iff.mpr ⟨fun y hy => ?_, hrest⟩, ?_⟩
        · have := hnext y hy
          simp only [stop] at this htouch ⊢
          omega
        · intro x hx
          refine List.forall_mem_cons.mpr ⟨hgap x hx, fun y hy => ?_⟩
          exact hbehind x (List.mem_append_left _ hx) y hy
      · rw [if_neg htouch]
        have hlt := lt_of_le_of_ne (hle' last (List.mem_append_right _ (List.mem_singleton_self _)))
          htouch
        refine spaced_append_iff.mpr ⟨hb, ha, fun x hx => ?_⟩
        refine List.forall_mem_cons.mpr ⟨?_, fun y hy => hbehind x hx y hy⟩
        rcases List.mem_append.mp hx with hx | hx
        · have := hgap x hx
          simp only [stop] at this hlt ⊢
          omega
        · rw [List.mem_singleton.mp hx]
          exact hlt

-- A run that overlaps none of the others is put in its place.
theorem Spaced.insert (hs : Spaced runs) (hpos : ∀ x ∈ runs, 0 < x.pages) (hr : 0 < r.pages)
    (hcover : ∀ p, r.first ≤ p → p < r.stop → cover runs p = 0) : Spaced (insert r runs) := by
  have hsplit := List.take_append_drop (position runs r.first) runs
  have hparts := spaced_append_iff.mp (hsplit.symm ▸ hs)
  have hbefore : ∀ x ∈ runs.take (position runs r.first), x.stop ≤ r.first := fun x hx => by
    have hlt := first_lt_of_mem_take hs hx
    have hmem := List.mem_of_mem_take hx
    rcases apart_of_cover hmem (hpos x hmem) hr hcover with h | h
    · simp only [stop] at h
      omega
    · exact h
  have hbehind : ∀ x ∈ runs.drop (position runs r.first), r.stop ≤ x.first := fun x hx => by
    have hle := le_first_of_mem_drop hs hx
    have hmem := List.mem_of_mem_drop hx
    have hxpos := hpos x hmem
    rcases apart_of_cover hmem hxpos hr hcover with h | h
    · exact h
    · simp only [stop] at h
      omega
  have hposDrop : ∀ x ∈ runs.drop (position runs r.first), 0 < x.pages :=
    fun x hx => hpos x (List.mem_of_mem_drop hx)
  obtain ⟨hcons, hfirst⟩ := hparts.2.1.cons hposDrop hbehind
  exact hparts.1.append hcons (cons_pos hr hposDrop)
    fun x hx y hy => (hbefore x hx).trans (hfirst y hy)

end Reclaim.Run
