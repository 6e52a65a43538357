import Reclaim.Proofs.Space.Runs

/-!
A space over time: its users acquire runs, write into them and give them back, one by one or all at
once. The free list stays sorted and joined, every page below the high water mark is free or handed
out, and what a user gets is blank.
-/
namespace Reclaim

open Sizes

-- A space, the runs that it has handed out, and what is stored in them.
structure Tenancy where
  space : Space
  out : List Run := []
  memory : Memory := .empty

theorem Run.Spaced.acquire {s s' : Space} {pages a : Nat} (hs : Spaced s.free)
    (h : s.acquire pages = .ok (a, s')) : Spaced s'.free := by
  obtain ⟨rounded, first, s1, -, htake, -, -, rfl⟩ := Space.acquire_ok h
  unfold Space.take at htake
  cases hfree : Run.takeFirst? rounded s.free with
  | some found =>
    rw [hfree] at htake
    cases htake
    exact hs.takeFirst? hfree
  | none =>
    rw [hfree] at htake
    obtain ⟨top, -, hlast⟩ := bind_eq_ok.mp htake
    split at hlast
    · cases hlast
    · cases hlast
      exact hs

theorem Space.unit_of_reserve {name : String} {bytes unit : Nat} {system : Nat → Option Nat} {s : Space}
    (h : Space.reserve name bytes unit system = .ok s) : s.unit = unit := by
  simp only [Space.reserve] at h
  split at h
  · cases h
  obtain ⟨extent, -, h⟩ := bind_eq_ok.mp h
  split at h <;> cases h
  rfl

namespace Tenancy

-- What a system guarantees about the mappings that it makes: whole pages, never the null page, and
-- only the lower half of the address range.
def Honest (system : Nat → Option Nat) : Prop :=
  ∀ total base, system total = some base →
    base % pageBytes = 0 ∧ 0 < base ∧ base + total ≤ Word.bound / 2

inductive Op where
  | acquire (pages : Nat)
  -- The run comes back with the number of pages that it was asked for with.
  | release (r : Run) (pages : Nat)
  | releaseAll
  | write (a v : Nat)

def perform (t : Tenancy) : Op → Except Fault Tenancy
  | .acquire pages => do
    let rounded ← t.space.roundPages (max pages 1)
    let (a, space) ← t.space.acquire pages
    .ok { t with space, out := ⟨t.space.page a, rounded⟩ :: t.out }
  | .release r pages => do
    let (space, memory) ← t.space.release t.memory (t.space.start + pageBytes * r.first) pages
    .ok { space, memory, out := t.out.erase r }
  | .releaseAll => do
    let (space, memory) ← t.space.releaseAll t.memory
    .ok { space, memory }
  | .write a v => .ok { t with memory := t.memory.write a v }

-- Requests are not absurdly long, only runs that are handed out come back, and nobody writes into
-- pages of the space that are not handed out.
def Allowed (t : Tenancy) : Op → Prop
  | .acquire pages => ∀ rounded, t.space.roundPages (max pages 1) = .ok rounded → rounded < 2 ^ 51
  | .release r pages => r ∈ t.out ∧ t.space.roundPages (max pages 1) = .ok r.pages
  | .releaseAll => True
  | .write a _ => t.space.contains a = true → Run.cover t.out (t.space.page a) ≠ 0

-- What a new space can come to. At first all its words are zero.
inductive Reached : Tenancy → Prop
  | start (name : String) (bytes unit : Nat) {system : Nat → Option Nat} {space : Space}
    {memory : Memory} : Honest system → Space.reserve name bytes unit system = .ok space →
    (∀ a, space.contains a = true → memory.read a = 0) → Reached { space, memory }
  | step {t t' : Tenancy} (op : Op) : Reached t → t.Allowed op → t.perform op = .ok t' → Reached t'

-- The pages of a space are accounted for.
structure InOrder (t : Tenancy) : Prop where
  spaced : Run.Spaced t.space.free
  fits : ∀ r, r ∈ t.space.free ∨ r ∈ t.out → r.Fits t.space.unit
  below : ∀ r ∈ t.space.free, r.stop ≤ t.space.highWater
  -- Each page below the mark lies in exactly one run, and no other page in any.
  cover_eq : ∀ p, Run.cover (t.space.free ++ t.out) p = if p < t.space.highWater then 1 else 0
  used_eq : t.space.used = (t.out.map (·.pages)).sum

-- The run at `a` can be used by whoever acquires it now.
structure Vacant (t : Tenancy) (r : Run) (a : Nat) : Prop where
  address : a = t.space.start + pageBytes * r.first
  fits : r.Fits t.space.unit
  inside : a + pageBytes * r.pages ≤ t.space.stop
  disjoint : ∀ r' ∈ t.out, r.stop ≤ r'.first ∨ r'.stop ≤ r.first
  blank : ∀ b, a ≤ b → b < a + pageBytes * r.pages → t.memory.read b = 0

-- What every operation keeps.
structure Sound (t : Tenancy) : Prop where
  space : t.space.Sound t.out t.memory
  spaced : Run.Spaced t.space.free
  extent_lt : t.space.extent ≤ Word.bound / 2

theorem honest_placeAt {base : Nat} (hmod : base % pageBytes = 0) (hpos : 0 < base)
    (hle : base + Mapping.systemLimit ≤ Word.bound / 2) : Honest (Mapping.placeAt base) := by
  intro total base' h
  unfold Mapping.placeAt at h
  split at h
  · cases h
    exact ⟨hmod, hpos, by omega⟩
  · cases h

variable {t t' : Tenancy} {op : Op}

theorem sound_reserve {name : String} {bytes unit : Nat} {system : Nat → Option Nat} {space : Space}
    {memory : Memory} (hsystem : Honest system)
    (h : Space.reserve name bytes unit system = .ok space)
    (hblank : ∀ a, space.contains a = true → memory.read a = 0) : Sound { space, memory } := by
  simp only [Space.reserve] at h
  split at h
  · cases h
  rename_i hpower
  obtain ⟨extent, hextent, h⟩ := bind_eq_ok.mp h
  have hdvd := (Word.nextMultiple_ok (by decide) hextent).2.2
  split at h
  on_goal 2 => cases h
  rename_i mapping hmap
  cases h
  have hmax : max blockBytes 1 = blockBytes := rfl
  have hpadding : Mapping.padding blockBytes = blockBytes := rfl
  have hblock : Word.isPowerOfTwo blockBytes = true := by decide
  simp only [Mapping.Options.map, hmax, hpadding, hblock, Bool.not_true, Bool.false_eq_true,
    if_false] at hmap
  split at hmap
  · cases hmap
  split at hmap
  · cases hmap
  split at hmap
  · cases hmap
  rename_i base hbase
  cases hmap
  obtain ⟨-, hpos, hend⟩ := hsystem _ _ hbase
  have hround : base ≤ Word.ceilDiv base blockBytes * blockBytes ∧
      Word.ceilDiv base blockBytes * blockBytes < base + blockBytes := by
    simp only [Word.ceilDiv, blockBytes]
    omega
  have hstart : base + (Word.ceilDiv base blockBytes * blockBytes - base) =
      Word.ceilDiv base blockBytes * blockBytes := Nat.add_sub_cancel' hround.1
  have hhalf : Word.bound / 2 < Word.bound := by decide
  have hunit : 0 < unit := by
    by_contra hzero
    rw [Nat.eq_zero_of_not_pos hzero] at hpower
    exact hpower (by decide)
  refine ⟨?_, .nil, by show extent ≤ _; omega⟩
  exact {
    unit_pos := hunit
    start_dvd := by
      rw [Space.start, Mapping.start, hstart]
      exact Dvd.intro_left _ rfl
    extent_dvd := hdvd
    start_pos := by
      rw [Space.start, Mapping.start, hstart]
      omega
    stop_lt := by
      show base + (Word.ceilDiv base blockBytes * blockBytes - base) + extent < Word.bound
      omega
    mapped_fits := by rw [Nat.zero_mul]; exact Nat.zero_le _
    unit_dvd := ⟨0, rfl⟩
    runs := by rintro r (hr | hr) <;> cases hr
    cover_eq := fun _ => rfl
    used_eq := rfl
    highWater_le := le_refl _
    blank := fun a ha _ => hblank a ha }

namespace Sound

-- A run that is acquired.
theorem acquire (hs : Sound t) {pages rounded a : Nat} {s' : Space}
    (hround : t.space.roundPages (max pages 1) = .ok rounded) (hlt : rounded < 2 ^ 51)
    (h : t.space.acquire pages = .ok (a, s')) :
    ∃ r : Run, r.pages = rounded ∧ r.first = t.space.page a ∧ Vacant t r a ∧
      Sound ⟨s', r :: t.out, t.memory⟩ := by
  have hextent := hs.extent_lt
  have hroom : ∀ n, t.space.roundPages (max pages 1) = .ok n →
      n * pageBytes + t.space.extent < Word.bound := fun n hn => by
    rw [hround] at hn
    cases hn
    have hbound : Word.bound = 2 ^ 64 := rfl
    simp only [pageBytes]
    omega
  obtain ⟨r, hr, ha, hsound, hmapping, hunit, -⟩ := hs.space.acquire h hroom
  rw [hround] at hr
  obtain ⟨hstart, -, hstop⟩ := Space.range_congr hmapping
  have hle := hsound.run_le List.mem_cons_self
  rw [hstart, hstop] at hle
  have hpage : r.first = t.space.page a := by
    rw [ha, Space.page, Nat.add_sub_cancel_left]
    exact (Nat.mul_div_cancel_left _ (by decide)).symm
  refine ⟨r, (Except.ok.inj hr).symm, hpage, {
    address := ha
    fits := hunit ▸ hsound.runs r (Or.inr List.mem_cons_self)
    inside := by
      simp only [Run.stop, pageBytes] at ha hle ⊢
      omega
    disjoint := fun r' hr' => hsound.disjoint (List.Perm.refl _) hr'
    -- The pages of the run were handed out to nobody before.
    blank := fun b h1 h2 => by
      refine hs.space.blank b ?_ ?_
      · rw [Space.contains_iff]
        simp only [Run.stop, pageBytes] at ha hle h2
        omega
      · have hin : s'.start + pageBytes * r.first ≤ b ∧ b < s'.start + pageBytes * r.stop := by
          rw [hstart]
          simp only [Run.stop, pageBytes] at ha h2 ⊢
          omega
        have hcover := hsound.cover_le (s'.page b)
        rw [Run.cover_cons, if_pos (Space.page_of_run hin.1 hin.2), Space.page, hstart] at hcover
        rw [Space.page]
        split_ifs at hcover <;> omega }, hsound, hs.spaced.acquire h, ?_⟩
  rw [(Space.range_congr hmapping).2.1]
  exact hextent

-- A run that comes back.
theorem release (hs : Sound t) {r : Run} {pages : Nat} (hr : r ∈ t.out)
    (hround : t.space.roundPages (max pages 1) = .ok r.pages) :
    ∃ t', t.perform (.release r pages) = .ok t' ∧ Sound t' := by
  obtain ⟨s', m', hrun, hsound, hmapping, -, -, -, -, hfree, -⟩ :=
    hs.space.release (List.perm_cons_erase hr) hround
  refine ⟨⟨s', t.out.erase r, m'⟩, by simp only [perform, hrun, ok_bind], hsound, ?_, ?_⟩
  · rw [hfree]
    refine hs.spaced.insert (fun x hx => (hs.space.runs x (Or.inl hx)).pos)
      (hs.space.runs r (Or.inr hr)).pos fun p h1 h2 => ?_
    have hcover := hs.space.cover_eq p
    have hpos := Run.cover_pos hr h1 h2
    split_ifs at hcover <;> omega
  · rw [(Space.range_congr hmapping).2.1]
    exact hs.extent_lt

theorem releaseAll (hs : Sound t) : ∃ t', t.perform .releaseAll = .ok t' ∧ Sound t' := by
  obtain ⟨s', m', hrun, hsound, hmapping, -, -, -, hfree, -⟩ := hs.space.releaseAll
  refine ⟨⟨s', [], m'⟩, by simp only [perform, hrun, ok_bind], hsound, hfree ▸ .nil, ?_⟩
  rw [(Space.range_congr hmapping).2.1]
  exact hs.extent_lt

theorem perform (hs : Sound t) (hallowed : t.Allowed op) (h : t.perform op = .ok t') : Sound t' := by
  cases op with
  | acquire pages =>
    simp only [Tenancy.perform, bind_eq_ok, Prod.exists] at h
    obtain ⟨rounded, hround, a, s', hrun, h⟩ := h
    cases h
    obtain ⟨⟨first, rest⟩, hpages, hfirst, -, hsound⟩ := hs.acquire hround (hallowed rounded hround) hrun
    cases hpages
    cases hfirst
    exact hsound
  | release r pages =>
    obtain ⟨t'', hrun, hsound⟩ := hs.release hallowed.1 hallowed.2
    rw [hrun] at h
    cases h
    exact hsound
  | releaseAll =>
    obtain ⟨t'', hrun, hsound⟩ := hs.releaseAll
    rw [hrun] at h
    cases h
    exact hsound
  | write a v =>
    cases h
    refine ⟨hs.space.congr fun b hb hcover => ?_, hs.spaced, hs.extent_lt⟩
    refine Memory.read_write_of_ne (fun hba => ?_) v
    subst hba
    exact hallowed hb hcover

theorem inOrder (hs : Sound t) : t.InOrder where
  spaced := hs.spaced
  fits := hs.space.runs
  below r hr := by
    have hpos := (hs.space.runs r (Or.inl hr)).pos
    have hcover := hs.space.cover_eq (r.first + r.pages - 1)
    have hone := Run.cover_pos hr (p := r.first + r.pages - 1) (by omega) (by omega)
    unfold Run.stop
    split_ifs at hcover <;> omega
  cover_eq p := by rw [Run.cover_append]; exact hs.space.cover_eq p
  used_eq := hs.space.used_eq

end Sound

theorem Reached.sound (ht : Reached t) : Sound t := by
  induction ht with
  | start _ _ _ hsystem h hblank => exact sound_reserve hsystem h hblank
  | step _ _ hallowed h ih => exact ih.perform hallowed h

end Tenancy

end Reclaim
