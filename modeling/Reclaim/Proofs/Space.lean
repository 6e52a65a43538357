import Mathlib.Algebra.BigOperators.Intervals
import Mathlib.Algebra.Order.BigOperators.Group.Finset
import Mathlib.Data.List.Basic
import Mathlib.Data.Nat.Cast.Basic
import Reclaim.Proofs.Mapping
import Reclaim.Proofs.Memory
import Reclaim.Space

/-!
What a space hands out. The pages below its high water mark are handed out or on its free list, each
once, and nothing is written where nothing is handed out.
-/
namespace Reclaim

open Sizes

namespace Run

-- How many of some runs a page lies in.
def cover (runs : List Run) (p : Nat) : Nat :=
  runs.countP fun r => decide (r.first ≤ p ∧ p < r.first + r.pages)

@[simp] theorem cover_nil (p : Nat) : cover [] p = 0 := rfl

theorem cover_cons (r : Run) (runs : List Run) (p : Nat) :
    cover (r :: runs) p = cover runs p + if r.first ≤ p ∧ p < r.first + r.pages then 1 else 0 := by
  unfold cover
  rw [List.countP_cons]
  simp only [decide_eq_true_eq]

theorem cover_append (before after : List Run) (p : Nat) :
    cover (before ++ after) p = cover before p + cover after p := List.countP_append

theorem cover_perm {runs runs' : List Run} (h : runs.Perm runs') (p : Nat) :
    cover runs p = cover runs' p := h.countP_eq _

theorem cover_pos {runs : List Run} {r : Run} (hr : r ∈ runs) {p : Nat} (h1 : r.first ≤ p)
    (h2 : p < r.first + r.pages) : 0 < cover runs p :=
  List.countP_pos_iff.mpr ⟨r, hr, by simp [h1, h2]⟩

theorem exists_of_cover_pos {runs : List Run} {p : Nat} (h : 0 < cover runs p) :
    ∃ r ∈ runs, r.first ≤ p ∧ p < r.first + r.pages := by
  obtain ⟨r, hr, hp⟩ := List.countP_pos_iff.mp h
  exact ⟨r, hr, of_decide_eq_true hp⟩

-- Two runs that touch are one.
theorem cover_join {r next : Run} (h : r.stop = next.first) (rest : List Run) (p : Nat) :
    cover (⟨r.first, r.pages + next.pages⟩ :: rest) p = cover (r :: next :: rest) p := by
  simp only [cover_cons, stop] at h ⊢
  split_ifs <;> omega

theorem cover_insert (r : Run) (runs : List Run) (p : Nat) :
    cover (insert r runs) p = cover (r :: runs) p := by
  have hcons : ∀ rest : List Run, cover (cons r rest) p = cover (r :: rest) p := by
    intro rest
    cases rest with
    | nil => rfl
    | cons next rest =>
      simp only [cons]
      split
      · rename_i h
        exact cover_join h rest p
      · rfl
  have happend : ∀ before after : List Run,
      cover (append before after) p = cover before p + cover after p := by
    intro before after
    cases after with
    | nil => rfl
    | cons next rest =>
      simp only [append]
      cases hl : before.getLast? with
      | none => simp [List.getLast?_eq_none_iff.mp hl]
      | some last =>
        simp only
        obtain ⟨front, rfl⟩ := List.getLast?_eq_some_iff.mp hl
        rw [List.dropLast_concat]
        split
        · rename_i h
          rw [cover_append, cover_join h, cover_append]
          simp only [cover_cons, cover_nil]
          omega
        · exact cover_append _ _ _
  unfold insert
  rw [happend, hcons, cover_cons, cover_cons]
  have hsplit := cover_append (runs.take (position runs r.first)) (runs.drop (position runs r.first)) p
  rw [List.take_append_drop] at hsplit
  omega

-- Runs are made of whole units.
structure Fits (unit : Nat) (r : Run) : Prop where
  pos : 0 < r.pages
  first_dvd : unit ∣ r.first
  pages_dvd : unit ∣ r.pages

variable {unit pages : Nat}

theorem Fits.join {r next : Run} (hr : r.Fits unit) (hn : next.Fits unit) :
    Fits unit ⟨r.first, r.pages + next.pages⟩ :=
  ⟨Nat.add_pos_left hr.pos _, hr.first_dvd, Nat.dvd_add hr.pages_dvd hn.pages_dvd⟩

theorem fits_insert {r : Run} {runs : List Run} (hr : r.Fits unit)
    (hruns : ∀ x ∈ runs, x.Fits unit) : ∀ x ∈ insert r runs, x.Fits unit := by
  have hcons : ∀ rest : List Run, (∀ x ∈ rest, x.Fits unit) → ∀ x ∈ cons r rest, x.Fits unit := by
    intro rest hrest
    cases rest with
    | nil => simpa [cons] using hr
    | cons next rest =>
      rw [List.forall_mem_cons] at hrest
      simp only [cons]
      split
      · exact List.forall_mem_cons.mpr ⟨hr.join hrest.1, hrest.2⟩
      · exact List.forall_mem_cons.mpr ⟨hr, List.forall_mem_cons.mpr hrest⟩
  have happend : ∀ before after : List Run, (∀ x ∈ before, x.Fits unit) →
      (∀ x ∈ after, x.Fits unit) → ∀ x ∈ append before after, x.Fits unit := by
    intro before after hbefore hafter
    cases after with
    | nil => exact hbefore
    | cons next rest =>
      rw [List.forall_mem_cons] at hafter
      simp only [append]
      cases hl : before.getLast? with
      | none => exact List.forall_mem_cons.mpr hafter
      | some last =>
        simp only
        obtain ⟨front, rfl⟩ := List.getLast?_eq_some_iff.mp hl
        rw [List.forall_mem_append, List.forall_mem_singleton] at hbefore
        split
        · rw [List.dropLast_concat]
          exact List.forall_mem_append.mpr
            ⟨hbefore.1, List.forall_mem_cons.mpr ⟨hbefore.2.join hafter.1, hafter.2⟩⟩
        · exact List.forall_mem_append.mpr ⟨List.forall_mem_append.mpr
            ⟨hbefore.1, List.forall_mem_singleton.mpr hbefore.2⟩, List.forall_mem_cons.mpr hafter⟩
  refine happend _ _ (fun x hx => hruns x (List.mem_of_mem_take hx)) (hcons _ ?_)
  exact fun x hx => hruns x (List.mem_of_mem_drop hx)

-- A run is split off one that is long enough.
theorem takeFirst?_some (unit : Nat) {runs rest : List Run} {first : Nat}
    (h : takeFirst? pages runs = some (first, rest)) :
    (∀ p, cover (⟨first, pages⟩ :: rest) p = cover runs p) ∧
      ((∀ r ∈ runs, r.Fits unit) → 0 < pages → unit ∣ pages →
        Fits unit ⟨first, pages⟩ ∧ ∀ r ∈ rest, r.Fits unit) := by
  induction runs generalizing first rest with
  | nil => simp [takeFirst?] at h
  | cons r runs ih =>
    unfold takeFirst? at h
    by_cases hle : pages ≤ r.pages
    · simp only [if_pos hle, Option.some.injEq, Prod.mk.injEq] at h
      obtain ⟨rfl, rfl⟩ := h
      by_cases heq : r.pages = pages
      · subst heq
        simp only [if_true]
        refine ⟨fun _ => trivial, fun hfits _ _ => ?_⟩
        exact ⟨hfits r List.mem_cons_self, fun x hx => hfits x (List.mem_cons_of_mem _ hx)⟩
      · simp only [if_neg heq]
        have hsplit : r = ⟨r.first, pages + (r.pages - pages)⟩ := by
          rw [Nat.add_sub_cancel' hle]
        constructor
        · intro p
          rw [← cover_join (by rfl) runs p, ← hsplit]
        · intro hfits hpos hdvd
          rw [List.forall_mem_cons] at hfits
          refine ⟨⟨hpos, hfits.1.first_dvd, hdvd⟩, List.forall_mem_cons.mpr ⟨⟨?_, ?_, ?_⟩, hfits.2⟩⟩
          · show 0 < r.pages - pages
            omega
          · exact Nat.dvd_add hfits.1.first_dvd hdvd
          · exact Nat.dvd_sub hfits.1.pages_dvd hdvd
    · simp only [if_neg hle, Option.map_eq_some_iff, Prod.mk.injEq, Prod.exists] at h
      obtain ⟨first', rest', htake, rfl, rfl⟩ := h
      obtain ⟨hcover, hfits⟩ := ih htake
      constructor
      · intro p
        have hc := hcover p
        simp only [cover_cons] at hc ⊢
        omega
      · intro hall hpos hdvd
        rw [List.forall_mem_cons] at hall
        obtain ⟨h1, h2⟩ := hfits hall.2 hpos hdvd
        exact ⟨h1, List.forall_mem_cons.mpr ⟨hall.1, h2⟩⟩

-- Counting the pages of some runs page by page.
theorem sum_pages {runs : List Run} {top : Nat} (h : ∀ r ∈ runs, r.stop ≤ top) :
    (runs.map (·.pages)).sum = ∑ p ∈ Finset.range top, cover runs p := by
  induction runs with
  | nil => simp
  | cons r runs ih =>
    rw [List.forall_mem_cons] at h
    have hcard : ∑ p ∈ Finset.range top, (if r.first ≤ p ∧ p < r.first + r.pages then 1 else 0) = r.pages := by
      have hset : (Finset.range top).filter (fun p => r.first ≤ p ∧ p < r.first + r.pages) =
          Finset.Ico r.first (r.first + r.pages) := by
        ext p
        have htop := h.1
        simp only [Finset.mem_filter, Finset.mem_range, Finset.mem_Ico, stop] at htop ⊢
        omega
      rw [← Finset.card_filter, hset, Nat.card_Ico]
      omega
    simp only [List.map_cons, List.sum_cons, cover_cons, Finset.sum_add_distrib, ih h.2, hcard]
    omega

end Run

namespace Space

variable {s s' : Space} {out : List Run} {m : Memory}

-- The page of an address, counted from the start of the space.
def page (s : Space) (a : Nat) : Nat := (a - s.start) / pageBytes

-- The space has handed out the runs of `out`. Words of all other pages are zero.
structure Sound (s : Space) (out : List Run) (m : Memory) : Prop where
  unit_pos : 0 < s.unit
  start_dvd : blockBytes ∣ s.start
  extent_dvd : blockBytes ∣ s.extent
  start_pos : 0 < s.start
  stop_lt : s.stop < Word.bound
  mapped_fits : s.mapped * pageBytes ≤ s.extent
  unit_dvd : s.unit ∣ s.highWater
  runs : ∀ r, r ∈ s.free ∨ r ∈ out → r.Fits s.unit
  cover_eq : ∀ p, Run.cover s.free p + Run.cover out p = if p < s.highWater then 1 else 0
  used_eq : s.used = (out.map (·.pages)).sum
  highWater_le : s.highWater ≤ s.mapped
  blank : ∀ a, s.contains a = true → Run.cover out (s.page a) = 0 → m.read a = 0

theorem contains_iff (s : Space) (a : Nat) : s.contains a = true ↔ s.start ≤ a ∧ a < s.stop := by
  simp [contains]

-- The range of a space is that of its mapping.
theorem range_congr (h : s'.mapping = s.mapping) :
    s'.start = s.start ∧ s'.extent = s.extent ∧ s'.stop = s.stop := by
  have hstart : s'.start = s.start := by rw [start, h, start]
  have hextent : s'.extent = s.extent := by rw [extent, h, extent]
  exact ⟨hstart, hextent, by rw [stop, hstart, hextent, stop]⟩

theorem contains_congr (h : s'.mapping = s.mapping) (a : Nat) :
    s'.contains a = s.contains a := by
  obtain ⟨hstart, -, hstop⟩ := range_congr h
  rw [Bool.eq_iff_iff, contains_iff, contains_iff, hstart, hstop]

theorem page_of_run {r : Run} {a : Nat} (h1 : s.start + pageBytes * r.first ≤ a)
    (h2 : a < s.start + pageBytes * r.stop) :
    r.first ≤ s.page a ∧ s.page a < r.first + r.pages := by
  unfold page
  simp only [pageBytes, Run.stop] at h1 h2 ⊢
  omega

theorem cover_of_run {r : Run} (hr : r ∈ out) {a : Nat} (h1 : s.start + pageBytes * r.first ≤ a)
    (h2 : a < s.start + pageBytes * r.stop) : 0 < Run.cover out (s.page a) := by
  obtain ⟨h3, h4⟩ := page_of_run h1 h2
  exact Run.cover_pos hr h3 h4

namespace Sound

theorem perm (hs : s.Sound out m) {out' : List Run} (h : out.Perm out') : s.Sound out' m :=
  { hs with
    runs := fun r hr => hs.runs r (hr.imp_right h.mem_iff.mpr)
    cover_eq := fun p => by rw [← Run.cover_perm h]; exact hs.cover_eq p
    used_eq := hs.used_eq.trans (h.map _).sum_eq
    blank := fun a ha hc => hs.blank a ha (by rw [Run.cover_perm h]; exact hc) }

-- What is written in pages that are handed out, or outside of the space, is no concern of it.
theorem congr (hs : s.Sound out m) {m' : Memory}
    (h : ∀ a, s.contains a = true → Run.cover out (s.page a) = 0 → m'.read a = m.read a) :
    s.Sound out m' :=
  { hs with blank := fun a ha hc => (h a ha hc).trans (hs.blank a ha hc) }

variable (hs : s.Sound out m)
include hs

-- A space is made of words.
theorem words : s.start % wordBytes = 0 ∧ s.extent % wordBytes = 0 := by
  have h1 := hs.start_dvd
  have h2 := hs.extent_dvd
  simp only [blockBytes, wordBytes] at h1 h2 ⊢
  omega

theorem fits : s.highWater * pageBytes ≤ s.extent :=
  (Nat.mul_le_mul_right _ hs.highWater_le).trans hs.mapped_fits

theorem cover_le (p : Nat) : Run.cover out p ≤ if p < s.highWater then 1 else 0 := by
  have h := hs.cover_eq p
  omega

theorem stop_le {r : Run} (hr : r ∈ out) : r.stop ≤ s.highWater := by
  have hpos := (hs.runs r (Or.inr hr)).pos
  have hc := Run.cover_pos hr (p := r.first + r.pages - 1) (by omega) (by omega)
  have hle := hs.cover_le (r.first + r.pages - 1)
  unfold Run.stop
  split_ifs at hle with h
  · omega
  · omega

-- A run lies in the space as a whole.
theorem run_le {r : Run} (hr : r ∈ out) : s.start + pageBytes * r.stop ≤ s.stop := by
  have h1 := hs.stop_le hr
  have h2 := hs.fits
  have h3 := Nat.mul_le_mul_left pageBytes h1
  rw [Nat.mul_comm] at h2
  exact Nat.add_le_add_left (h3.trans h2) _

-- No page is handed out twice.
theorem disjoint {r : Run} {rest : List Run} (hr : out.Perm (r :: rest)) {r' : Run}
    (hr' : r' ∈ rest) : r.stop ≤ r'.first ∨ r'.stop ≤ r.first := by
  have hpos := (hs.runs r (Or.inr (hr.mem_iff.mpr List.mem_cons_self))).pos
  have hpos' := (hs.runs r' (Or.inr (hr.mem_iff.mpr (List.mem_cons_of_mem _ hr')))).pos
  by_contra hn
  have hle := hs.cover_le (max r.first r'.first)
  unfold Run.stop at hn
  have h1 : 0 < Run.cover rest (max r.first r'.first) := Run.cover_pos hr' (by omega) (by omega)
  have h2 : r.first ≤ max r.first r'.first ∧ max r.first r'.first < r.first + r.pages := by omega
  rw [Run.cover_perm hr, Run.cover_cons, if_pos h2] at hle
  split_ifs at hle <;> omega

theorem nodup : out.Nodup := by
  rw [List.nodup_iff_count_le_one]
  intro r
  by_contra hn
  have hr : r ∈ out := List.count_pos_iff.mp (by omega)
  have hperm := List.perm_cons_erase hr
  have hr' : r ∈ out.erase r := List.count_pos_iff.mp (by rw [List.count_erase_self]; omega)
  have hpos := (hs.runs r (Or.inr hr)).pos
  have hd := hs.disjoint hperm hr'
  unfold Run.stop at hd
  omega

theorem used_le : s.used * pageBytes ≤ s.extent := by
  have hsum := Run.sum_pages fun r (hr : r ∈ out) => hs.stop_le hr
  have hle : ∑ p ∈ Finset.range s.highWater, Run.cover out p ≤ s.highWater := by
    have hone : ∀ p ∈ Finset.range s.highWater, Run.cover out p ≤ 1 := by
      intro p _
      have h := hs.cover_le p
      split_ifs at h <;> omega
    have hle := Finset.sum_le_sum hone
    rwa [Finset.sum_const, Finset.card_range, nsmul_one, Nat.cast_id] at hle
  rw [hs.used_eq, hsum]
  exact (Nat.mul_le_mul_right _ hle).trans hs.fits

end Sound

-- The pages of a run are taken off the free list, or off those that were never handed out.
structure Taken (s : Space) (out : List Run) (r : Run) (s' : Space) : Prop where
  mapping_eq : s'.mapping = s.mapping
  unit_eq : s'.unit = s.unit
  name_eq : s'.name = s.name
  used_eq : s'.used = s.used
  mapped_fits : s'.mapped * pageBytes ≤ s.extent
  unit_dvd : s.unit ∣ s'.highWater
  highWater_le : s'.highWater ≤ s'.mapped
  stop_le : r.stop ≤ s'.highWater
  fits : r.Fits s.unit
  free : ∀ x ∈ s'.free, x.Fits s.unit
  cover_eq : ∀ p, Run.cover s'.free p + Run.cover (r :: out) p = if p < s'.highWater then 1 else 0

theorem Sound.take (hs : s.Sound out m) {pages first : Nat} (hpos : 0 < pages)
    (hdvd : s.unit ∣ pages) (hroom : pages * pageBytes + s.extent < Word.bound)
    (h : s.take pages = .ok (first, s')) : s.Taken out ⟨first, pages⟩ s' := by
  have hfits := hs.fits
  unfold Space.take at h
  cases hfree : Run.takeFirst? pages s.free with
  | some found =>
    obtain ⟨first', free⟩ := found
    rw [hfree] at h
    cases h
    obtain ⟨hcover, hsplit⟩ := Run.takeFirst?_some s.unit hfree
    obtain ⟨hrun, hrest⟩ := hsplit (fun r hr => hs.runs r (Or.inl hr)) hpos hdvd
    have hsum : ∀ p, Run.cover free p + Run.cover (⟨first, pages⟩ :: out) p =
        if p < s.highWater then 1 else 0 := by
      intro p
      have h1 := hs.cover_eq p
      have h2 := hcover p
      simp only [Run.cover_cons] at h2 ⊢
      omega
    refine ⟨rfl, rfl, rfl, rfl, hs.mapped_fits, hs.unit_dvd, hs.highWater_le, ?_, hrun, hrest, hsum⟩
    have hlast := hsum (first + pages - 1)
    have hin : first ≤ first + pages - 1 ∧ first + pages - 1 < first + pages := by omega
    simp only [Run.cover_cons, if_pos hin] at hlast
    split_ifs at hlast with hlt
    show first + pages ≤ s.highWater
    omega
  | none =>
    rw [hfree] at h
    simp only [bind_eq_ok] at h
    obtain ⟨top, htop, hlast⟩ := h
    obtain ⟨rfl, -⟩ := Word.add_eq_ok.mp htop
    split at hlast
    · cases hlast
    rename_i hextent
    cases hlast
    have hmul : (s.highWater + pages) * pageBytes =
        s.highWater * pageBytes + pages * pageBytes := Nat.add_mul _ _ _
    have hnowrap : pagesToBytes (s.highWater + pages) = (s.highWater + pages) * pageBytes :=
      Nat.mod_eq_of_lt (by omega)
    have hle : (s.highWater + pages) * pageBytes ≤ s.extent := by
      rw [hnowrap] at hextent
      omega
    refine ⟨rfl, rfl, rfl, rfl, hle, Nat.dvd_add hs.unit_dvd hdvd, le_refl _, le_refl _,
      ⟨hpos, hs.unit_dvd, hdvd⟩, fun r hr => hs.runs r (Or.inl hr), ?_⟩
    intro p
    have h1 := hs.cover_eq p
    simp only [Run.cover_cons]
    split_ifs at h1 ⊢ <;> omega

-- A page below the high water mark has an address of its own.
theorem Taken.pagesToBytes_first {r : Run} (h : s.Taken out r s') (hbound : s.stop < Word.bound) :
    pagesToBytes r.first = pageBytes * r.first := by
  have hlt : r.first * pageBytes ≤ s'.mapped * pageBytes := Nat.mul_le_mul_right _ (by
    have h1 := h.stop_le
    have h2 := h.highWater_le
    have h3 := h.fits.pos
    simp only [Run.stop] at h1
    omega)
  have h4 := h.mapped_fits
  rw [Nat.mul_comm pageBytes]
  exact Nat.mod_eq_of_lt (by simp only [stop] at hbound; omega)

theorem acquire_ok {pages a : Nat} (h : s.acquire pages = .ok (a, s')) :
    ∃ rounded first s₁, s.roundPages (max pages 1) = .ok rounded ∧ s.take rounded = .ok (first, s₁) ∧
      s₁.commit first rounded = .ok () ∧ a = s₁.start + pagesToBytes first ∧
      s' = { s₁ with used := Word.wrapAdd s₁.used rounded } := by
  simp only [Space.acquire, bind_eq_ok, Prod.exists] at h
  obtain ⟨rounded, hround, first, s₁, htake, _, hcommit, address, haddress, hlast⟩ := h
  cases hlast
  exact ⟨rounded, first, s₁, hround, htake, hcommit, (Word.add_eq_ok.mp haddress).1, rfl⟩

-- A new run overlaps no other, and its words read as zero.
theorem Sound.acquire (hs : s.Sound out m) {pages a : Nat} (h : s.acquire pages = .ok (a, s'))
    (hroom : ∀ rounded, s.roundPages (max pages 1) = .ok rounded →
      rounded * pageBytes + s.extent < Word.bound) :
    ∃ r : Run, s.roundPages (max pages 1) = .ok r.pages ∧ a = s.start + pageBytes * r.first ∧
      s'.Sound (r :: out) m ∧ s'.mapping = s.mapping ∧ s'.unit = s.unit ∧ s'.name = s.name := by
  obtain ⟨rounded, first, s1, hround, htake, -, rfl, rfl⟩ := acquire_ok h
  obtain ⟨hle, -, hdvd⟩ := Word.nextMultiple_ok hs.unit_pos hround
  have hpos : 0 < rounded := by omega
  have hroom := hroom rounded hround
  have htaken := hs.take hpos hdvd hroom htake
  have hsmall := htaken.pagesToBytes_first hs.stop_lt
  obtain ⟨hmapping, hunit, hname, hused, hfits1, hdvd1, hmapped, hstop, hrun, hfree, hcover⟩ := htaken
  obtain ⟨hstart, hextent, -⟩ := range_congr hmapping
  have hbound : s.start + s.extent < Word.bound := hs.stop_lt
  refine ⟨⟨first, rounded⟩, hround, by rw [hstart, hsmall], {
    unit_pos := hunit ▸ hs.unit_pos
    start_dvd := hstart ▸ hs.start_dvd
    extent_dvd := hextent ▸ hs.extent_dvd
    start_pos := hstart ▸ hs.start_pos
    stop_lt := by
      show s1.start + s1.extent < Word.bound
      rw [hstart, hextent]
      exact hbound
    mapped_fits := hextent.symm ▸ hfits1
    unit_dvd := hunit.symm ▸ hdvd1
    runs := fun r hr => by
      show r.Fits s1.unit
      rw [hunit]
      rcases hr with hr | hr
      · exact hfree r hr
      · rcases List.mem_cons.mp hr with rfl | hr
        · exact hrun
        · exact hs.runs r (Or.inr hr)
    cover_eq := hcover
    -- The pages of the runs fit into the extent, so their number does not wrap.
    used_eq := by
      have hle := hs.used_le
      show Word.wrapAdd s1.used rounded = rounded + (out.map (·.pages)).sum
      rw [hused, ← hs.used_eq, Word.wrapAdd, Nat.add_comm rounded]
      apply Nat.mod_eq_of_lt
      simp only [pageBytes] at hle hroom
      omega
    highWater_le := hmapped
    blank := fun b hb hc => by
      have hpage : Space.page { s1 with used := Word.wrapAdd s1.used rounded } b = s.page b := by
        show (b - s1.start) / pageBytes = (b - s.start) / pageBytes
        rw [hstart]
      rw [hpage, Run.cover_cons] at hc
      refine hs.blank b ?_ (by omega)
      have hb' : s1.contains b = true := hb
      rw [contains_iff, stop, hstart, hextent] at hb'
      exact (contains_iff s b).mpr hb' }, hmapping, hunit, hname⟩

-- Discarded pages read as zero.
theorem discard_ok (hstart : blockBytes ∣ s.start) (hstop : s.stop < Word.bound) {first pages : Nat}
    (hle : s.start + pageBytes * (first + pages) ≤ s.stop) (m : Memory) :
    ∃ m', s.discard m first pages = .ok m' ∧ ∀ a, m'.read a =
      if s.start + pageBytes * first ≤ a ∧ a < s.start + pageBytes * (first + pages) then 0
      else m.read a := by
  have hbound : s.start + s.extent < Word.bound := hstop
  simp only [stop, pageBytes] at hle
  have hoffset : pagesToBytes first = pageBytes * first := by
    rw [Nat.mul_comm]
    apply Nat.mod_eq_of_lt
    simp only [pageBytes]
    omega
  have hlength : pagesToBytes pages = pageBytes * pages := by
    rw [Nat.mul_comm]
    apply Nat.mod_eq_of_lt
    simp only [pageBytes]
    omega
  have hfits : s.mapping.Fits (pageBytes * first) (pageBytes * pages) := by
    have hlen : s.mapping.length = s.extent := rfl
    refine ⟨Nat.dvd_mul_right _ _, Nat.dvd_mul_right _ _, ?_, ?_⟩ <;> simp only [pageBytes] <;> omega
  obtain ⟨m', hdecommit, hread⟩ :=
    Mapping.decommit_ok hfits ((by decide : pageBytes ∣ blockBytes).trans hstart) m
  refine ⟨m', by simp only [Space.discard, hoffset, hlength, hdecommit], fun a => ?_⟩
  rw [Nat.mul_add, ← Nat.add_assoc]
  exact hread a

-- A run that is given back leaves no words behind.
theorem Sound.release (hs : s.Sound out m) {r : Run} {rest : List Run} (hr : out.Perm (r :: rest))
    {pages : Nat} (hround : s.roundPages (max pages 1) = .ok r.pages) :
    ∃ s' m', s.release m (s.start + pageBytes * r.first) pages = .ok (s', m') ∧ s'.Sound rest m' ∧
      s'.mapping = s.mapping ∧ s'.unit = s.unit ∧ s'.name = s.name ∧ s'.mapped = s.mapped ∧
      s'.highWater = s.highWater ∧ s'.free = Run.insert r s.free ∧
      ∀ a, m'.read a =
        if s.start + pageBytes * r.first ≤ a ∧ a < s.start + pageBytes * r.stop then 0
        else m.read a := by
  have hmem : r ∈ out := hr.mem_iff.mpr List.mem_cons_self
  have hrun := hs.run_le hmem
  have hfit := hs.runs r (Or.inr hmem)
  have hpos := hfit.pos
  have hbound : s.start + s.extent < Word.bound := hs.stop_lt
  have hused : s.used = r.pages + (rest.map (·.pages)).sum := by
    rw [hs.used_eq, (hr.map _).sum_eq, List.map_cons, List.sum_cons]
  have hle := hs.used_le
  obtain ⟨m', hdiscard, hread⟩ := discard_ok hs.start_dvd hs.stop_lt hrun m
  simp only [Run.stop, stop, pageBytes] at hrun hle
  have hcontains : s.contains (s.start + pageBytes * r.first) = true := by
    rw [contains_iff, stop]
    simp only [pageBytes]
    omega
  have hfirst : (s.start + pageBytes * r.first - s.start) / pageBytes = r.first := by
    rw [Nat.add_sub_cancel_left]
    exact Nat.mul_div_cancel_left _ (by decide)
  refine ⟨{ s with free := Run.insert r s.free, used := Word.wrapSub s.used r.pages }, _, ?_, ?_, rfl,
    rfl, rfl, rfl, rfl, rfl, hread⟩
  · simp only [Space.release, hcontains, hround, hfirst, hdiscard, ok_bind, Bool.not_true,
      Bool.false_eq_true, if_false]
  · exact { hs with
      runs := fun x hx => by
        rcases hx with hx | hx
        · exact Run.fits_insert hfit (fun y hy => hs.runs y (Or.inl hy)) x hx
        · exact hs.runs x (Or.inr (hr.mem_iff.mpr (List.mem_cons_of_mem _ hx)))
      cover_eq := fun p => by
        have hc := hs.cover_eq p
        show Run.cover (Run.insert r s.free) p + _ = _
        rw [Run.cover_perm hr] at hc
        rw [Run.cover_insert]
        simp only [Run.cover_cons] at hc ⊢
        omega
      used_eq := by
        have hlt : s.used < Word.bound := by omega
        have hsmall : r.pages % Word.bound = r.pages := Nat.mod_eq_of_lt (by omega)
        have hsub : s.used + Word.bound - r.pages = (s.used - r.pages) + Word.bound := by omega
        show Word.wrapSub s.used r.pages = _
        rw [Word.wrapSub, hsmall, hsub, Nat.add_mod_right, Nat.mod_eq_of_lt (by omega)]
        omega
      blank := fun a ha hc => by
        have hc' : Run.cover rest (s.page a) = 0 := hc
        rw [hread]
        split_ifs with hin
        · rfl
        · refine hs.blank a ha ?_
          obtain ⟨h1, h2⟩ := (contains_iff s a).mp ha
          rw [Run.cover_perm hr, Run.cover_cons, hc', if_neg]
          unfold page
          simp only [pageBytes] at hin ⊢
          omega }

-- A space that takes everything back has handed out nothing and keeps no words.
theorem Sound.releaseAll (hs : s.Sound out m) :
    ∃ s' m', s.releaseAll m = .ok (s', m') ∧ s'.Sound [] m' ∧ s'.mapping = s.mapping ∧
      s'.unit = s.unit ∧ s'.name = s.name ∧ s'.mapped = s.mapped ∧ s'.free = [] ∧
      (∀ a, s.contains a = true → m'.read a = 0) ∧
      ∀ a, s.contains a = false → m'.read a = m.read a := by
  have hfits := hs.fits
  have hle : s.start + pageBytes * (0 + s.highWater) ≤ s.stop := by
    rw [Nat.zero_add, Nat.mul_comm]
    exact Nat.add_le_add_left hfits _
  obtain ⟨m', hdiscard, hread⟩ := discard_ok hs.start_dvd hs.stop_lt hle m
  have hstop : s.stop = s.start + s.extent := rfl
  -- with nothing below the mark there is nothing to discard
  obtain ⟨m'', hrun, hread'⟩ : ∃ m'', s.releaseAll m =
      .ok ({ s with highWater := 0, free := [], used := 0 }, m'') ∧ ∀ a, m''.read a = m'.read a := by
    by_cases hpos : 0 < s.highWater
    · refine ⟨m', ?_, fun _ => rfl⟩
      simp only [Space.releaseAll, if_pos hpos, hdiscard, ok_bind]
    · refine ⟨m, ?_, fun a => ?_⟩
      · simp only [Space.releaseAll, if_neg hpos, ok_bind]
      · rw [hread, Nat.eq_zero_of_not_pos hpos, if_neg (by omega)]
  have hzero : ∀ a, s.contains a = true → m''.read a = 0 := fun a ha => by
    rw [hread', hread]
    split_ifs with hin
    · rfl
    · refine hs.blank a ha ?_
      have hcover := hs.cover_le (s.page a)
      obtain ⟨h1, h2⟩ := (contains_iff s a).mp ha
      have hpage : ¬s.page a < s.highWater := by
        unfold page
        simp only [pageBytes] at hin ⊢
        omega
      rw [if_neg hpage] at hcover
      omega
  have hsame : ∀ a, s.contains a = false → m''.read a = m.read a := fun a ha => by
    rw [Bool.eq_false_iff, Ne, contains_iff] at ha
    rw [hread', hread, if_neg (by omega)]
  refine ⟨_, m'', hrun, ?_, rfl, rfl, rfl, rfl, rfl, hzero, hsame⟩
  exact {
    unit_pos := hs.unit_pos
    start_dvd := hs.start_dvd
    extent_dvd := hs.extent_dvd
    start_pos := hs.start_pos
    stop_lt := hs.stop_lt
    mapped_fits := hs.mapped_fits
    unit_dvd := ⟨0, rfl⟩
    runs := by rintro r (hr | hr) <;> cases hr
    cover_eq := fun _ => rfl
    used_eq := rfl
    highWater_le := Nat.zero_le _
    blank := fun a ha _ => hzero a ha }

end Space

end Reclaim
