import Reclaim.Proofs.Treadmill.Windows

/-!
Requests against the extent of a space. The bound check multiplies a page count by a shift that drops
high bits, so a run fits up to multiples of the pages that a whole address range has. A request of
fewer pages fits as it is, or fails.
-/
namespace Reclaim

open Sizes

variable {α β : Type}

-- The pages of a whole address range.
def Sizes.rangePages : Nat := 2 ^ 52

theorem Sizes.pagesToBytes_eq (pages : Nat) : pagesToBytes pages = pageBytes * (pages % rangePages) := by
  have hbound : Word.bound = 2 ^ 64 := rfl
  rw [pagesToBytes, hbound, pageBytes, rangePages]
  omega

theorem error_of_bind {x : Except Fault α} {g : α → Except Fault β} {f : Fault}
    (h : (x >>= g) = .error f) : x = .error f ∨ ∃ a, x = .ok a ∧ g a = .error f := by
  cases x with
  | ok a => exact Or.inr ⟨a, rfl, h⟩
  | error e => exact Or.inl (congrArg Except.error (Except.error.inj h))

theorem Word.add_eq_error {a b : Nat} {f : Fault} (h : add a b = .error f) : f = .overflow := by
  unfold add at h
  split at h <;> cases h
  rfl

theorem Word.sub_eq_error {a b : Nat} {f : Fault} (h : sub a b = .error f) : f = .overflow := by
  unfold sub at h
  split at h <;> cases h
  rfl

theorem Word.nextMultiple_eq_error {a unit : Nat} {f : Fault} (h : nextMultiple a unit = .error f) :
    f = .overflow := by
  unfold nextMultiple at h
  split at h
  · cases h
  · exact add_eq_error h

-- A free run that is long enough gives up its first pages.
theorem Run.exists_of_takeFirst? {runs rest : List Run} {pages first : Nat}
    (h : takeFirst? pages runs = some (first, rest)) : ∃ r ∈ runs, r.first = first ∧ pages ≤ r.pages := by
  induction runs generalizing first rest with
  | nil => cases h
  | cons r runs ih =>
    unfold takeFirst? at h
    split at h
    · rename_i hle
      cases h
      exact ⟨r, List.mem_cons_self, rfl, hle⟩
    · simp only [Option.map_eq_some_iff, Prod.mk.injEq, Prod.exists] at h
      obtain ⟨_, _, htake, rfl, -⟩ := h
      obtain ⟨r', hr', hfirst⟩ := ih htake
      exact ⟨r', List.mem_cons_of_mem _ hr', hfirst⟩

-- What a space answers that does not hand out a run: a sum left the range of a word, or the pages do
-- not fit.
inductive Fault.IsRefusal : Fault → Prop
  | overflow : IsRefusal .overflow
  | exhausted {space : String} {pages used total : Nat} :
    IsRefusal (.fatal (.spaceExhausted space pages used total))

namespace Space

variable {s s' : Space} {out : List Run} {m : Memory} {pages first a : Nat} {f : Fault}

-- The request has fewer pages than there are addresses for.
def Addressable (s : Space) (pages : Nat) : Prop :=
  ∀ rounded, s.roundPages (max pages 1) = .ok rounded → rounded < rangePages

theorem Sound.free_stop_le (hs : s.Sound out m) {r : Run} (hr : r ∈ s.free) : r.stop ≤ s.highWater := by
  have hpos := (hs.runs r (Or.inl hr)).pos
  have hcover := hs.cover_eq (r.first + r.pages - 1)
  have hone := Run.cover_pos hr (p := r.first + r.pages - 1) (by omega) (by omega)
  unfold Run.stop
  split_ifs at hcover <;> omega

-- A run is taken below the high water mark, or right above it.
theorem Sound.take_cases (hs : s.Sound out m) (h : s.take pages = .ok (first, s')) :
    s'.mapping = s.mapping ∧ (first + pages ≤ s.highWater ∨
      first = s.highWater ∧ pagesToBytes (first + pages) ≤ s.extent) := by
  unfold Space.take at h
  split at h
  · rename_i found rest hfound
    cases h
    obtain ⟨r, hr, rfl, hle⟩ := Run.exists_of_takeFirst? hfound
    have hstop := hs.free_stop_le hr
    unfold Run.stop at hstop
    exact ⟨rfl, Or.inl (by omega)⟩
  · obtain ⟨top, htop, h⟩ := bind_eq_ok.mp h
    obtain ⟨rfl, -⟩ := Word.add_eq_ok.mp htop
    split at h
    · cases h
    · rename_i hle
      cases h
      exact ⟨rfl, Or.inr ⟨rfl, Nat.le_of_not_lt hle⟩⟩

theorem take_error (h : s.take pages = .error f) : f.IsRefusal := by
  unfold Space.take at h
  split at h
  · cases h
  · rcases error_of_bind h with h | ⟨top, -, h⟩
    · exact Word.add_eq_error h ▸ .overflow
    · split at h <;> cases h
      exact .exhausted

theorem nextMultiple_pagesToBytes (pages : Nat) :
    Word.nextMultiple (pagesToBytes pages) pageBytes = .ok (pagesToBytes pages) :=
  Word.nextMultiple_self (pagesToBytes_eq pages ▸ Dvd.intro _ rfl)

-- The bytes of a run that is committed do not start after they stop.
theorem commit_le (h : s.commit first pages = .ok ()) :
    pagesToBytes first ≤ pagesToBytes (first + pages) := by
  simp only [commit, nextMultiple_pagesToBytes, bind_eq_ok] at h
  obtain ⟨sum, hsum, top, htop, length, hlength, -⟩ := h
  obtain ⟨rfl, -⟩ := Word.add_eq_ok.mp hsum
  cases htop
  exact (Word.sub_eq_ok.mp hlength).2.trans (Nat.min_le_left _ _)

-- Whole pages below the extent are always in the range of the mapping.
theorem commit_error (hdvd : pageBytes ∣ s.extent) (hlt : s.extent < Word.bound)
    (h : s.commit first pages = .error f) : f = .overflow := by
  unfold commit at h
  rcases error_of_bind h with h | ⟨sum, -, h⟩
  · exact Word.add_eq_error h
  rw [nextMultiple_pagesToBytes, ok_bind] at h
  rcases error_of_bind h with h | ⟨length, hlength, h⟩
  · exact Word.sub_eq_error h
  obtain ⟨rfl, hle⟩ := Word.sub_eq_ok.mp hlength
  have hrange : s.mapping.Fits (pagesToBytes first)
      (min (pagesToBytes sum) s.extent - pagesToBytes first) := by
    have hextent : s.mapping.length = s.extent := rfl
    simp only [pagesToBytes_eq, pageBytes] at hdvd hle ⊢
    exact ⟨show 4096 ∣ _ by omega, show 4096 ∣ _ by omega, by omega, by omega⟩
  rw [Mapping.commit, Mapping.checkRange_ok hrange] at h
  cases h

namespace Sound

variable (hs : s.Sound out m)
include hs

theorem extent_lt : s.extent < Word.bound := (Nat.le_add_left _ _).trans_lt hs.stop_lt

theorem pageBytes_dvd_extent : pageBytes ∣ s.extent :=
  (by decide : pageBytes ∣ blockBytes).trans hs.extent_dvd

-- Whatever is asked for, the run fits when whole address ranges are left out of the count.
theorem acquire_below (h : s.acquire pages = .ok (a, s')) :
    ∃ rounded first, s.roundPages (max pages 1) = .ok rounded ∧ a = s.start + pageBytes * first ∧
      pageBytes * (first + rounded % rangePages) ≤ s.extent := by
  obtain ⟨rounded, first, s₁, hround, htake, hcommit, rfl, rfl⟩ := Space.acquire_ok h
  obtain ⟨hmapping, hwhere⟩ := hs.take_cases htake
  have hle := commit_le hcommit
  have hfits := hs.fits
  have hextent := hs.extent_lt
  have hbound : Word.bound = 2 ^ 64 := rfl
  refine ⟨rounded, first, hround, ?_, ?_⟩
  · have hsmall : first % rangePages = first := Nat.mod_eq_of_lt (by
      simp only [pageBytes, rangePages] at hfits ⊢
      omega)
    rw [pagesToBytes_eq, hsmall, (range_congr hmapping).1]
  · simp only [pagesToBytes_eq, pageBytes, rangePages] at hwhere hle hfits ⊢
    omega

theorem acquire_error (h : s.acquire pages = .error f) : f.IsRefusal := by
  unfold Space.acquire at h
  rcases error_of_bind h with h | ⟨rounded, -, h⟩
  · exact Word.nextMultiple_eq_error h ▸ .overflow
  rcases error_of_bind h with h | ⟨⟨first, s₁⟩, htake, h⟩
  · exact take_error h
  obtain ⟨-, hextent, -⟩ := range_congr (hs.take_cases htake).1
  rcases error_of_bind h with h | ⟨-, -, h⟩
  · exact commit_error (hextent ▸ hs.pageBytes_dvd_extent) (hextent ▸ hs.extent_lt) h ▸ .overflow
  rcases error_of_bind h with h | ⟨address, -, h⟩
  · exact Word.add_eq_error h ▸ .overflow
  · cases h

-- The run of a request that has fewer pages than there are addresses for.
theorem acquire_addressable (hextent : s.extent < Word.bound / 2) {rounded : Nat}
    (hround : s.roundPages (max pages 1) = .ok rounded) (hlt : rounded < rangePages)
    (h : s.acquire pages = .ok (a, s')) : ∃ r : Run, r = ⟨s.page a, rounded⟩ ∧
      a = s.start + pageBytes * r.first ∧ s'.Sound (r :: out) m ∧ s'.mapping = s.mapping ∧
      s'.unit = s.unit := by
  obtain ⟨n, first, hn, -, hfits⟩ := hs.acquire_below h
  rw [hround] at hn
  cases hn
  rw [Nat.mod_eq_of_lt hlt] at hfits
  obtain ⟨r, hr, ha, hsound, hmapping, hunit, -⟩ := hs.acquire h fun n hn => by
    rw [hround] at hn
    cases hn
    simp only [pageBytes] at hfits ⊢
    omega
  rw [hround] at hr
  refine ⟨r, ?_, ha, hsound, hmapping, hunit⟩
  have hpage : s.page a = r.first := by
    rw [ha, page, Nat.add_sub_cancel_left]
    exact Nat.mul_div_cancel_left _ (by decide)
  rw [hpage, Except.ok.inj hr]

-- A large object lies behind the header of its chunk, whose pages hold both.
theorem alloc_fits {t t' : Treadmill} (ht : t.space = s) {m' m'' : Memory} {bytes align o : Nat}
    (h : t.alloc m' bytes align = .ok (o, t', m''))
    (hpages : s.Addressable (bytesToPages (bytes + Chunk.headerBytes))) :
    s.start ≤ o ∧ o + bytes ≤ s.stop := by
  unfold Treadmill.alloc at h
  split at h
  · cases h
  simp only [bind_eq_ok, Prod.exists] at h
  obtain ⟨total, htotal, chunk, s', hacquire, _, -, _, -, _, _, -, h⟩ := h
  obtain ⟨rfl, -⟩ := Word.add_eq_ok.mp htotal
  cases h
  obtain ⟨rounded, first, hround, rfl, hfits⟩ := hs.acquire_below (ht ▸ hacquire)
  have hle := (Word.nextMultiple_ok hs.unit_pos hround).1
  rw [Nat.mod_eq_of_lt (hpages rounded hround)] at hfits
  simp only [bytesToPages, Word.ceilDiv, Chunk.headerBytes, pageBytes] at hle hfits
  simp only [Chunk.object, Chunk.headerBytes, stop, pageBytes]
  omega

end Sound

end Space

namespace Tenancy

variable {t : Tenancy} {l : LargeObjects}

-- Not even half of the address range belongs to a space.
theorem Reached.extent_lt (ht : Reached t) : t.space.extent < Word.bound / 2 := by
  induction ht with
  | start name bytes unit hsystem h =>
    have hle := LargeObjects.extent_of_reserve hsystem h
    have hpos : 0 < blockBytes := by decide
    exact (Nat.lt_add_of_pos_right hpos).trans_le hle
  | @step t t' op ht hallowed h ih =>
    suffices hmapping : t'.space.mapping = t.space.mapping from
      (Space.range_congr hmapping).2.1 ▸ ih
    have hs := ht.sound
    cases op with
    | acquire pages =>
      simp only [perform, bind_eq_ok, Prod.exists] at h
      obtain ⟨rounded, -, a, s', hrun, h⟩ := h
      cases h
      obtain ⟨_, _, s₁, -, htake, -, -, rfl⟩ := Space.acquire_ok hrun
      exact (hs.space.take_cases htake).1
    | release r pages =>
      obtain ⟨s', m', hrun, -, hmapping, -⟩ :=
        hs.space.release (List.perm_cons_erase hallowed.1) hallowed.2
      simp only [perform, hrun, ok_bind] at h
      cases h
      exact hmapping
    | releaseAll =>
      obtain ⟨s', m', hrun, -, hmapping, -⟩ := hs.space.releaseAll
      simp only [perform, hrun, ok_bind] at h
      cases h
      exact hmapping
    | write a v =>
      cases h
      rfl

-- A request either fails, by an overflow or because the space is exhausted, or its run fits, as long as
-- it is for fewer pages than an address range has. Longer ones fit up to multiples of that many pages.
-- So large objects lie in their space as a whole.
theorem Reached.acquire_fits (ht : Reached t) (hl : LargeObjects.Reached l) :
    (∀ pages f, t.space.acquire pages = .error f → f.IsRefusal) ∧
    (∀ pages a s', t.space.acquire pages = .ok (a, s') → ∃ rounded first,
      t.space.roundPages (max pages 1) = .ok rounded ∧ a = t.space.start + pageBytes * first ∧
      (first + rounded % rangePages) * pageBytes ≤ t.space.extent ∧
      (t.space.Addressable pages → (first + rounded) * pageBytes ≤ t.space.extent ∧
        Reached ⟨s', ⟨first, rounded⟩ :: t.out, t.memory⟩)) ∧
    ∀ x : Treadmill, x.space = t.space ∨ x = l.treadmill → ∀ m bytes align o x' m',
      x.alloc m bytes align = .ok (o, x', m') →
      x.space.Addressable (bytesToPages (bytes + Chunk.headerBytes)) →
      x.space.start ≤ o ∧ o + bytes ≤ x.space.stop := by
  have hs := ht.sound.space
  refine ⟨fun pages f h => hs.acquire_error h, fun pages a s' h => ?_,
    fun x hx m bytes align o x' m' h hpages => ?_⟩
  · obtain ⟨rounded, first, hround, ha, hfits⟩ := hs.acquire_below h
    rw [Nat.mul_comm] at hfits
    refine ⟨rounded, first, hround, ha, hfits, fun hpages => ?_⟩
    rw [Nat.mod_eq_of_lt (hpages rounded hround)] at hfits
    refine ⟨hfits, ht.step (.acquire pages) (fun n hn => ?_) ?_⟩
    · -- what fits has fewer pages than half of an address range
      rw [hround] at hn
      cases hn
      have hextent := ht.extent_lt
      have hbound : Word.bound = 2 ^ 64 := rfl
      simp only [pageBytes] at hfits
      omega
    · have hpage : t.space.page a = first := by
        rw [ha, Space.page, Nat.add_sub_cancel_left]
        exact Nat.mul_div_cancel_left _ (by decide)
      simp only [perform, hround, h, ok_bind, hpage]
  · rcases hx with hx | rfl
    · exact (hx ▸ hs : x.space.Sound _ _).alloc_fits rfl h hpages
    · obtain ⟨_, _, hsound⟩ := hl.sound
      exact hsound.treadmill.space.alloc_fits rfl h hpages

-- One block.
def single : Space :=
  { name := "single", mapping := ⟨blockBytes, 2 * blockBytes, 0, blockBytes⟩, unit := 1 }

theorem honest_single : Honest (Mapping.placeAt blockBytes) :=
  honest_placeAt (by decide) (by decide) (by decide)

theorem reserve_single :
    Space.reserve "single" blockBytes 1 (Mapping.placeAt blockBytes) = .ok single := rfl

theorem reached_single : Reached { space := single } :=
  .start "single" blockBytes 1 honest_single reserve_single fun a _ => Memory.read_empty a

-- The first run of the block.
theorem acquire_single (pages : Nat)
    (h : (single.acquire pages).toOption.map Prod.fst = some blockBytes) :
    ∃ s', single.acquire pages = .ok (blockBytes, s') := by
  obtain ⟨⟨a, s'⟩, hrun, rfl⟩ := Option.map_eq_some_iff.mp h
  refine ⟨s', ?_⟩
  rw [eq_ok_get (Option.isSome_of_eq_some hrun)]
  simp only [hrun, Option.get_some]

theorem acquire_fits_single : ∃ s', single.acquire 2 = .ok (blockBytes, s') ∧
    (0 + 2) * pageBytes ≤ single.extent := by
  have hlarge : LargeObjects.Reached { treadmill := { space := single } } :=
    .start "single" blockBytes honest_single reserve_single fun a _ => Memory.read_empty a
  obtain ⟨s', hrun⟩ := acquire_single 2 (by decide +kernel)
  obtain ⟨-, hruns, -⟩ := reached_single.acquire_fits hlarge
  obtain ⟨rounded, first, hround, ha, -, hfits⟩ := hruns 2 blockBytes s' hrun
  cases (show Except.ok 2 = Except.ok rounded from hround)
  have hfirst : first = 0 := by
    have hstart : Space.start single = blockBytes := rfl
    simp only [hstart, pageBytes] at ha
    omega
  refine ⟨s', hrun, hfirst ▸ (hfits fun n hn => ?_).1⟩
  cases (show Except.ok 2 = Except.ok n from hn)
  decide

-- As many pages as a whole address range has pass for none at all.
theorem not_forall_acquire_fits : ¬∀ t, Reached t → ∀ pages < Word.bound, ∀ a s',
    t.space.acquire pages = .ok (a, s') → ∃ rounded first,
      t.space.roundPages (max pages 1) = .ok rounded ∧ a = t.space.start + pageBytes * first ∧
      (first + rounded) * pageBytes ≤ t.space.extent := by
  intro hall
  obtain ⟨s', hrun⟩ := acquire_single rangePages (by decide +kernel)
  obtain ⟨rounded, first, hround, -, hfits⟩ :=
    hall _ reached_single rangePages (by decide) blockBytes s' hrun
  have hle := (Word.nextMultiple_ok (by decide) hround).1
  have hextent : Space.extent single = blockBytes := rfl
  simp only [hextent, rangePages, pageBytes, blockBytes] at hle hfits
  omega

end Tenancy

end Reclaim
