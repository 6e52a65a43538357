import Reclaim.Proofs.Space.Extent
import Reclaim.Proofs.Space.Tenancy

/-!
How many pages of a space count as mapped. The count follows the allocation cursor whenever the cursor
rises, and stays where it is when all runs are taken back: from then on it is the peak of what was
handed out since, not of all that was ever handed out.
-/
namespace Reclaim

open Sizes

namespace Run

variable {runs before after rest : List Run} {r x : Run} {pages first n : Nat}

-- Where the last of some runs stops.
def top : List Run → Nat
  | [] => 0
  | r :: rest => max r.stop (top rest)

theorem top_le_iff : top runs ≤ n ↔ ∀ r ∈ runs, r.stop ≤ n := by
  induction runs with
  | nil => simp [top]
  | cons r rest ih => rw [top, max_le_iff, ih, List.forall_mem_cons]

theorem top_append : top (before ++ after) = max (top before) (top after) := by
  induction before with
  | nil => exact (Nat.zero_max _).symm
  | cons r rest ih => rw [List.cons_append, top, ih, top, max_assoc]

theorem stop_le_top (hr : r ∈ runs) : r.stop ≤ top runs := top_le_iff.mp (le_refl _) r hr

-- Runs that are joined stop where the second of them stops.
theorem stop_of_mem_cons (h : x ∈ cons r rest) : ∃ y ∈ r :: rest, x.stop = y.stop := by
  cases rest with
  | nil => exact ⟨x, h, rfl⟩
  | cons next rest =>
    rw [cons] at h
    split at h
    · rename_i htouch
      rcases List.mem_cons.mp h with rfl | h
      · refine ⟨next, List.mem_cons_of_mem _ List.mem_cons_self, ?_⟩
        simp only [stop] at htouch ⊢
        omega
      · exact ⟨x, List.mem_cons_of_mem _ (List.mem_cons_of_mem _ h), rfl⟩
    · exact ⟨x, h, rfl⟩

theorem stop_of_mem_append (h : x ∈ append before after) : ∃ y ∈ before ++ after, x.stop = y.stop := by
  cases after with
  | nil => exact ⟨x, List.mem_append_left _ h, rfl⟩
  | cons next rest =>
    rw [append] at h
    split at h
    · rename_i last hlast
      split at h
      · rename_i htouch
        rcases List.mem_append.mp h with h | h
        · exact ⟨x, List.mem_append_left _ (List.mem_of_mem_dropLast h), rfl⟩
        rcases List.mem_cons.mp h with rfl | h
        · refine ⟨next, List.mem_append_right _ List.mem_cons_self, ?_⟩
          simp only [stop] at htouch ⊢
          omega
        · exact ⟨x, List.mem_append_right _ (List.mem_cons_of_mem _ h), rfl⟩
      · exact ⟨x, h, rfl⟩
    · exact ⟨x, List.mem_append_right _ h, rfl⟩

theorem stop_of_mem_insert (h : x ∈ insert r runs) : ∃ y ∈ r :: runs, x.stop = y.stop := by
  obtain ⟨y, hy, hxy⟩ := stop_of_mem_append h
  rcases List.mem_append.mp hy with hy | hy
  · exact ⟨y, List.mem_cons_of_mem _ (List.mem_of_mem_take hy), hxy⟩
  · obtain ⟨z, hz, hyz⟩ := stop_of_mem_cons hy
    refine ⟨z, ?_, hxy.trans hyz⟩
    rcases List.mem_cons.mp hz with rfl | hz
    · exact List.mem_cons_self
    · exact List.mem_cons_of_mem _ (List.mem_of_mem_drop hz)

end Run

-- A space over time: the runs that are handed out now, and those that were handed out since all runs
-- were last taken back, before that, and so on. The age before the first return is the last.
structure Annals where
  space : Space
  out : List Run := []
  age : List Run := []
  past : List (List Run) := []

namespace Annals

-- Everything that was ever handed out.
def ever (c : Annals) : List Run := c.age ++ c.past.flatten

-- The peak of the latest age in which anything was handed out.
def latestTop : List (List Run) → Nat
  | [] => 0
  | [] :: past => latestTop past
  | (r :: age) :: _ => Run.top (r :: age)

-- One call of a user of the space. A run comes back once, with the number of pages that it was asked
-- for with; meanwhile any memory may have been written.
inductive Step : Annals → Annals → Prop
  | acquire {c : Annals} {pages a : Nat} {r : Run} {taken space : Space} :
    c.space.roundPages (max pages 1) = .ok r.pages → c.space.take r.pages = .ok (r.first, taken) →
    c.space.acquire pages = .ok (a, space) →
    Step c { c with space, out := r :: c.out, age := r :: c.age }
  | release {c : Annals} {pages : Nat} {r : Run} {space : Space} {m m' : Memory} :
    r ∈ c.out → c.space.roundPages (max pages 1) = .ok r.pages →
    c.space.release m (c.space.start + pagesToBytes r.first) pages = .ok (space, m') →
    Step c { c with space, out := c.out.erase r }
  | releaseAll {c : Annals} {space : Space} {m m' : Memory} :
    c.space.releaseAll m = .ok (space, m') →
    Step c { space, out := [], age := [], past := c.age :: c.past }

-- What a new space can come to.
inductive Reached : Annals → Prop
  | start {name : String} {bytes unit : Nat} {system : Nat → Option Nat} {space : Space} :
    Space.reserve name bytes unit system = .ok space → Reached { space }
  | step {c c' : Annals} : Reached c → Step c c' → Reached c'

-- The cursor is the peak of the age, and the count that of the latest age that has one.
structure Kept (c : Annals) : Prop where
  unit_pos : 0 < c.space.unit
  free_le : ∀ r ∈ c.space.free, r.stop ≤ c.space.highWater
  out_le : ∀ r ∈ c.out, r.stop ≤ c.space.highWater
  highWater_eq : c.space.highWater = Run.top c.age
  mapped_eq : c.space.mapped = latestTop (c.age :: c.past)

variable {c c' : Annals}

theorem latestTop_cons_of_ne_nil {age : List Run} (h : age ≠ []) (past : List (List Run)) :
    latestTop (age :: past) = Run.top age := by
  cases age with
  | nil => exact absurd rfl h
  | cons r age => rfl

theorem latestTop_le (ages : List (List Run)) : latestTop ages ≤ Run.top ages.flatten := by
  induction ages with
  | nil => exact le_refl _
  | cons age past ih =>
    rw [List.flatten_cons, Run.top_append]
    cases age with
    | nil => exact ih.trans (le_max_right _ _)
    | cons r age => exact le_max_left _ _

theorem kept_reserve {name : String} {bytes unit : Nat} {system : Nat → Option Nat} {space : Space}
    (h : Space.reserve name bytes unit system = .ok space) : Kept { space } := by
  simp only [Space.reserve] at h
  split at h
  · cases h
  rename_i hpower
  have hunit : 0 < unit := by
    by_contra hzero
    rw [Nat.eq_zero_of_not_pos hzero] at hpower
    exact hpower (by decide)
  obtain ⟨extent, -, h⟩ := bind_eq_ok.mp h
  split at h <;> cases h
  exact ⟨hunit, fun _ hr => absurd hr List.not_mem_nil, fun _ hr => absurd hr List.not_mem_nil, rfl, rfl⟩

-- A run is cut from a free one or begins at the cursor, and only then the cursor and the count move.
theorem take_cases {s s' : Space} {pages first : Nat} (h : s.take pages = .ok (first, s')) :
    s'.unit = s.unit ∧
      ((∃ y ∈ s.free, first + pages ≤ y.stop) ∧ s'.highWater = s.highWater ∧ s'.mapped = s.mapped ∧
          (∀ x ∈ s'.free, ∃ y ∈ s.free, x.stop = y.stop) ∨
        first = s.highWater ∧ s'.highWater = first + pages ∧ s'.mapped = first + pages ∧
          s'.free = s.free) := by
  unfold Space.take at h
  split at h
  · rename_i found rest hfound
    cases h
    refine ⟨rfl, Or.inl ⟨?_, rfl, rfl, fun x hx => ?_⟩⟩
    · obtain ⟨y, hy, rfl, hle⟩ := Run.exists_of_takeFirst? hfound
      exact ⟨y, hy, Nat.add_le_add_left hle _⟩
    · obtain ⟨y, hy, -, hstop⟩ := Run.takeFirst?_mem hfound x hx
      exact ⟨y, hy, hstop⟩
  · obtain ⟨top, htop, h⟩ := bind_eq_ok.mp h
    obtain ⟨rfl, -⟩ := Word.add_eq_ok.mp htop
    split at h <;> cases h
    exact ⟨rfl, Or.inr ⟨rfl, rfl, rfl, rfl⟩⟩

-- What a request does besides taking the run is to count its pages.
theorem acquire_eq {s s' taken : Space} {pages rounded first a : Nat}
    (hround : s.roundPages (max pages 1) = .ok rounded) (htake : s.take rounded = .ok (first, taken))
    (h : s.acquire pages = .ok (a, s')) : s' = { taken with used := s'.used } := by
  obtain ⟨rounded', first', taken', hround', htake', -, -, rfl⟩ := Space.acquire_ok h
  cases hround.symm.trans hround'
  cases htake.symm.trans htake'
  rfl

namespace Kept

-- After a request, whatever the count was before, it is the peak of the age.
theorem acquire (hc : Kept c) {pages a : Nat} {r : Run} {taken space : Space}
    (hround : c.space.roundPages (max pages 1) = .ok r.pages)
    (htake : c.space.take r.pages = .ok (r.first, taken))
    (h : c.space.acquire pages = .ok (a, space)) :
    Kept { c with space, out := r :: c.out, age := r :: c.age } := by
  have hpos : 0 < r.pages := by
    have hle := (Word.nextMultiple_ok hc.unit_pos hround).1
    omega
  obtain ⟨hunit, hcases⟩ := take_cases htake
  have hstop : r.stop = r.first + r.pages := rfl
  rw [acquire_eq hround htake h]
  obtain ⟨⟨y, hy, hle⟩, hwater, hmapped, hfree⟩ | ⟨hfirst, hwater, hmapped, hfree⟩ := hcases
  · have hle' := hc.free_le y hy
    have hage : c.age ≠ [] := by
      intro hnil
      have hzero := hc.highWater_eq
      rw [hnil, Run.top] at hzero
      omega
    have hkept := hc.mapped_eq
    rw [latestTop_cons_of_ne_nil hage, ← hc.highWater_eq] at hkept
    have htop : Run.top (r :: c.age) = c.space.highWater := by
      rw [Run.top, ← hc.highWater_eq]
      omega
    refine ⟨hunit ▸ hc.unit_pos, fun x hx => ?_, ?_, hwater.trans htop.symm, ?_⟩
    · obtain ⟨z, hz, hxz⟩ := hfree x hx
      exact hxz ▸ (hc.free_le z hz).trans_eq hwater.symm
    · exact List.forall_mem_cons.mpr ⟨by rw [hwater]; omega, fun x hx =>
        (hc.out_le x hx).trans_eq hwater.symm⟩
    · exact (hmapped.trans hkept).trans htop.symm
  · have hrise : c.space.highWater ≤ taken.highWater := by omega
    have htop : Run.top (r :: c.age) = r.first + r.pages := by
      rw [Run.top, ← hc.highWater_eq]
      omega
    refine ⟨hunit ▸ hc.unit_pos, fun x hx => ?_, ?_, hwater.trans htop.symm, hmapped.trans htop.symm⟩
    · exact (hc.free_le x (hfree ▸ hx)).trans hrise
    · exact List.forall_mem_cons.mpr ⟨hwater.ge, fun x hx => (hc.out_le x hx).trans hrise⟩

-- A run that comes back stops where it stopped, joined with others or not.
theorem release (hc : Kept c) {pages : Nat} {r : Run} {space : Space} {m m' : Memory} (hr : r ∈ c.out)
    (hround : c.space.roundPages (max pages 1) = .ok r.pages)
    (h : c.space.release m (c.space.start + pagesToBytes r.first) pages = .ok (space, m')) :
    space.mapped = c.space.mapped ∧ Kept { c with space, out := c.out.erase r } := by
  have hfirst : (c.space.start + pagesToBytes r.first - c.space.start) / pageBytes ≤ r.first := by
    rw [Nat.add_sub_cancel_left, pagesToBytes_eq, Nat.mul_div_cancel_left _ (by decide)]
    exact Nat.mod_le _ _
  simp only [Space.release] at h
  split at h
  · cases h
  rw [hround, ok_bind] at h
  obtain ⟨discarded, -, h⟩ := bind_eq_ok.mp h
  cases h
  refine ⟨rfl, hc.unit_pos, fun x hx => ?_, fun x hx => hc.out_le x (List.mem_of_mem_erase hx),
    hc.highWater_eq, hc.mapped_eq⟩
  obtain ⟨y, hy, hxy⟩ := Run.stop_of_mem_insert hx
  rw [hxy]
  rcases List.mem_cons.mp hy with rfl | hy
  · exact (Nat.add_le_add_right hfirst _).trans (hc.out_le r hr)
  · exact hc.free_le y hy

theorem releaseAll (hc : Kept c) {space : Space} {m m' : Memory}
    (h : c.space.releaseAll m = .ok (space, m')) : space.mapped = c.space.mapped ∧
      Kept { space, out := [], age := [], past := c.age :: c.past } := by
  have hspace : space = { c.space with highWater := 0, free := [], used := 0 } := by
    unfold Space.releaseAll at h
    split at h <;> obtain ⟨discarded, -, h⟩ := bind_eq_ok.mp h <;> cases h <;> rfl
  subst hspace
  exact ⟨rfl, hc.unit_pos, fun _ hr => absurd hr List.not_mem_nil, fun _ hr => absurd hr List.not_mem_nil,
    rfl, hc.mapped_eq⟩

theorem step (hc : Kept c) (h : Step c c') : Kept c' := by
  cases h with
  | acquire hround htake h => exact hc.acquire hround htake h
  | release hr hround h => exact (hc.release hr hround h).2
  | releaseAll h => exact (hc.releaseAll h).2

-- The peak of an age that has begun never falls below what it was.
theorem mapped_le (hc : Kept c) (h : Step c c') (hage : c.age ≠ []) :
    c.space.mapped ≤ c'.space.mapped := by
  have hlatest := hc.mapped_eq
  rw [latestTop_cons_of_ne_nil hage] at hlatest
  cases h with
  | acquire hround htake h =>
    rw [hlatest, (hc.acquire hround htake h).mapped_eq]
    exact le_max_right _ _
  | release hr hround h => exact (hc.release hr hround h).1.ge
  | releaseAll h => exact (hc.releaseAll h).1.ge

-- The count is lower after a step only when the first run of an age stops below it.
theorem of_mapped_lt (hc : Kept c) (h : Step c c') (hlt : c'.space.mapped < c.space.mapped) :
    c.age = [] ∧ ∃ r, c'.age = [r] ∧ c'.space.mapped = r.stop := by
  have hage : c.age = [] := by
    by_contra hne
    exact hlt.not_ge (hc.mapped_le h hne)
  cases h with
  | @acquire pages a r taken space hround htake h =>
    refine ⟨hage, r, by rw [hage], ?_⟩
    rw [(hc.acquire hround htake h).mapped_eq]
    simp only [hage, latestTop, Run.top, Nat.max_zero]
  | release hr hround h => exact absurd (hc.release hr hround h).1 hlt.ne
  | releaseAll h => exact absurd (hc.releaseAll h).1 hlt.ne

-- The count is the peak of everything unless a past age rose above it.
theorem mapped_eq_top_iff (hc : Kept c) :
    c.space.mapped = Run.top c.ever ↔ ∀ age ∈ c.past, Run.top age ≤ c.space.mapped := by
  have hever : c.ever = (c.age :: c.past).flatten := rfl
  constructor
  · intro heq age hage
    refine heq ▸ Run.top_le_iff.mpr fun r hr => Run.stop_le_top ?_
    exact hever ▸ List.mem_flatten.mpr ⟨age, List.mem_cons_of_mem _ hage, hr⟩
  · intro hpast
    refine le_antisymm (hc.mapped_eq ▸ hever ▸ latestTop_le _) (Run.top_le_iff.mpr fun r hr => ?_)
    rcases List.mem_append.mp hr with hr | hr
    · rw [hc.mapped_eq, latestTop_cons_of_ne_nil (List.ne_nil_of_mem hr)]
      exact Run.stop_le_top hr
    · obtain ⟨age, hage, hr⟩ := List.mem_flatten.mp hr
      exact (Run.stop_le_top hr).trans (hpast age hage)

end Kept

theorem Reached.kept (hc : Reached c) : Kept c := by
  induction hc with
  | start h => exact kept_reserve h
  | step _ h ih => exact ih.step h

-- The count is the peak of the latest age. It is that of everything that was ever handed out unless a
-- past age rose higher, and falls only where an age begins with a run that stops below it.
theorem Reached.mapped_peaks (hc : Reached c) :
    c.space.mapped = latestTop (c.age :: c.past) ∧
      (c.space.mapped = Run.top c.ever ↔ ∀ age ∈ c.past, Run.top age ≤ c.space.mapped) ∧
      ∀ c', Step c c' → c'.space.mapped < c.space.mapped →
        c.age = [] ∧ ∃ r, c'.age = [r] ∧ c'.space.mapped = r.stop :=
  ⟨hc.kept.mapped_eq, hc.kept.mapped_eq_top_iff, fun _ => hc.kept.of_mapped_lt⟩

-- Two pages are handed out, then all are taken back, then one or three pages are handed out.
namespace Ebb

open Tenancy (single)

def taken (pages : Nat) : Space := { single with highWater := pages, mapped := pages }

def returned : Annals := { space := { single with mapped := 2 }, past := [[⟨0, 2⟩]] }

def resumed (pages : Nat) : Annals :=
  { space := { taken pages with used := pages }
    out := [⟨0, pages⟩], age := [⟨0, pages⟩], past := [[⟨0, 2⟩]] }

theorem reached_returned : Reached returned := by
  have htake : single.take 2 = .ok (0, taken 2) := by decide +kernel
  have hacquire : single.acquire 2 = .ok (blockBytes, { taken 2 with used := 2 }) := by decide +kernel
  have h := (Reached.start Tenancy.reserve_single).step (.acquire (r := ⟨0, 2⟩) rfl htake hacquire)
  have hreturn : (Space.releaseAll { taken 2 with used := 2 } .empty).toOption.map Prod.fst =
      some returned.space := by decide +kernel
  obtain ⟨⟨_, m'⟩, hrun, rfl⟩ := Option.map_eq_some_iff.mp hreturn
  exact h.step (.releaseAll (eq_ok_of_toOption hrun))

theorem step_resumed {pages : Nat} (hround : returned.space.roundPages (max pages 1) = .ok pages)
    (htake : returned.space.take pages = .ok (0, taken pages))
    (hacquire : returned.space.acquire pages = .ok (blockBytes, { taken pages with used := pages })) :
    Step returned (resumed pages) := .acquire (r := ⟨0, pages⟩) hround htake hacquire

end Ebb

-- More pages are handed out than before, and the count is the peak of everything again.
theorem mapped_peaks_risen : (Ebb.resumed 3).space.mapped = Run.top (Ebb.resumed 3).ever := by
  have hstep : Step Ebb.returned (Ebb.resumed 3) :=
    Ebb.step_resumed rfl (by decide +kernel) (by decide +kernel)
  exact (Reached.mapped_peaks (Ebb.reached_returned.step hstep)).2.1.mpr (by decide)

-- Fewer pages are handed out than before: the count falls, below what was handed out already.
theorem not_forall_mapped_peak : ¬((∀ c c', Reached c → Step c c' → c.space.mapped ≤ c'.space.mapped) ∨
    ∀ c, Reached c → c.space.mapped = Run.top c.ever) := by
  have hstep : Step Ebb.returned (Ebb.resumed 1) :=
    Ebb.step_resumed rfl (by decide +kernel) (by decide +kernel)
  rintro (hmono | hpeak)
  · exact absurd (hmono _ _ Ebb.reached_returned hstep) (by decide)
  · exact absurd (hpeak _ (Ebb.reached_returned.step hstep)) (by decide)

end Annals

end Reclaim
