import Mathlib.Logic.Function.Basic
import Reclaim.Proofs.Bump
import Reclaim.Proofs.Space.Extent

/-!
Bump allocators over one space of whole blocks. Any number of them take turns: they serve requests of
any size and alignment up to that of a block, are reset, and give all blocks back together. A request is
served from a run that the same allocator acquired, and nobody else was given any of it.
-/
namespace Reclaim

open Sizes

theorem Word.alignUp_ok {a align b : Nat} (h : alignUp a align = .ok b) :
    isPowerOfTwo align = true ∧ align ∣ b ∧ a ≤ b ∧ (align ∣ a → b = a) := by
  unfold alignUp at h
  split at h
  · rename_i hpower
    obtain ⟨top, htop, h⟩ := bind_eq_ok.mp h
    obtain ⟨rfl, -⟩ := add_eq_ok.mp htop
    cases h
    have hpos := pos_of_isPowerOfTwo hpower
    have hround := ceilDiv_mul hpos a
    exact ⟨hpower, Nat.dvd_mul_left _ _, (ceilDiv_mul_bounds hpos a).1,
      fun hdvd => hround.trans (if_pos (Nat.mod_eq_zero_of_dvd hdvd))⟩
  · cases h

namespace Bump

variable {b b' : Bump} {s s' : Space} {bytes align start a : Nat}

-- The bytes between the cursor, rounded up to a word, and the end of its block.
def Spare (b : Bump) (a : Nat) : Prop :=
  Word.ceilDiv b.cursor wordBytes * wordBytes ≤ a ∧ a < blockOf b.cursor + blockBytes

theorem not_spare_fresh (a : Nat) : ¬fresh.Spare a := by
  simp only [Spare, fresh, initialCursor, blockOf, Word.ceilDiv, blockBytes, wordBytes]
  omega

-- Nothing is spare behind an allocation that ends where a block does.
theorem Spare.park {stop : Nat} (h : (park stop).Spare a) (hpos : 0 < stop) :
    stop % blockBytes ≠ 0 ∧ stop ≤ a ∧ a < blockOf stop + blockBytes := by
  by_cases hz : stop % blockBytes = 0
  · have hcursor : (Bump.park stop).cursor = stop - 1 := if_pos hz
    simp only [Spare, hcursor, blockOf, Word.ceilDiv, blockBytes, wordBytes] at h hz
    omega
  · have hcursor : (Bump.park stop).cursor = stop := if_neg hz
    simp only [Spare, hcursor, blockOf, Word.ceilDiv, blockBytes, wordBytes] at h hz ⊢
    omega

end Bump

-- One of several allocators.
structure Bumper where
  bump : Bump := .fresh
  -- The runs that it acquired since it was reset, or since all runs were given back.
  runs : List Run := []

structure SharedBumps where
  space : Space
  memory : Memory := .empty
  users : Nat → Bumper := fun _ => {}
  -- What was returned since all runs were given back, by address and bytes.
  ranges : List (Nat × Nat) := []

-- The runs that lead from one state of a space to the next: one at most.
inductive Space.Grows (s : Space) : Space → List Run → Prop
  | same : Grows s s []
  | acquire {s' : Space} {pages rounded a : Nat} : s.roundPages (max pages 1) = .ok rounded →
    rounded < rangePages → s.acquire pages = .ok (a, s') → Grows s s' [⟨s.page a, rounded⟩]

-- The pages that are handed out tell which run was acquired, if any.
theorem Space.Sound.grows_eq {s s' : Space} {out runs runs' : List Run} {m : Memory}
    (hs : s.Sound out m) (hextent : s.extent < Word.bound / 2) (h : s.Grows s' runs)
    (h' : s.Grows s' runs') : runs = runs' := by
  have hlist : ∀ {l}, s.Grows s' l → s'.Sound (l ++ out) m ∧ l.length ≤ 1 := fun h => by
    cases h with
    | same => exact ⟨hs, Nat.zero_le 1⟩
    | acquire hround hlt hrun =>
      obtain ⟨r, rfl, -, hsound, -⟩ := hs.acquire_addressable hextent hround hlt hrun
      exact ⟨hsound, le_refl 1⟩
  obtain ⟨hsound, hlength⟩ := hlist h
  obtain ⟨hsound', hlength'⟩ := hlist h'
  have hused := hsound.used_eq.symm.trans hsound'.used_eq
  have hcover : ∀ p, Run.cover runs p = Run.cover runs' p := fun p => by
    have h1 := hsound.cover_eq p
    have h2 := hsound'.cover_eq p
    rw [Run.cover_append] at h1 h2
    omega
  match runs, runs' with
  | [], [] => rfl
  | [], [r] =>
    have hpos := (hsound'.runs r (Or.inr List.mem_cons_self)).pos
    simp at hused
    omega
  | [r], [] =>
    have hpos := (hsound.runs r (Or.inr List.mem_cons_self)).pos
    simp at hused
    omega
  | [r], [r'] =>
    have hpos := (hsound.runs r (Or.inr List.mem_cons_self)).pos
    have hpos' := (hsound'.runs r' (Or.inr List.mem_cons_self)).pos
    have h1 := hcover r.first
    have h2 := hcover r'.first
    simp only [Run.cover_cons, Run.cover_nil, List.map_append, List.map_cons, List.map_nil,
      List.sum_append, List.sum_cons, List.sum_nil] at h1 h2 hused
    have hfirst : r.first = r'.first := by
      split_ifs at h1 h2 <;> omega
    have hpages : r.pages = r'.pages := by omega
    cases r
    cases r'
    simp_all
  | _ :: _ :: _, _ => simp at hlength
  | _, _ :: _ :: _ => simp at hlength'

-- The ends of a run of whole blocks are those of blocks.
theorem Space.Sound.block_dvd {s : Space} {out : List Run} {m : Memory} (hs : s.Sound out m)
    (hunit : s.unit = blockPages) {r : Run} (hr : r ∈ out) :
    blockBytes ∣ s.start + pageBytes * r.first ∧ blockBytes ∣ s.start + pageBytes * r.stop := by
  have hfits := hs.runs r (Or.inr hr)
  rw [hunit] at hfits
  have hfirst : blockBytes ∣ pageBytes * r.first := Nat.mul_dvd_mul_left pageBytes hfits.first_dvd
  have hstop : blockBytes ∣ pageBytes * r.stop :=
    Nat.mul_dvd_mul_left pageBytes (Nat.dvd_add hfits.first_dvd hfits.pages_dvd)
  exact ⟨Nat.dvd_add hs.start_dvd hfirst, Nat.dvd_add hs.start_dvd hstop⟩

-- Blocks that are acquired at once are a run that starts where a block does.
theorem Space.Sound.acquire_blocks {s s' : Space} {out : List Run} {m : Memory} (hs : s.Sound out m)
    (hunit : s.unit = blockPages) (hextent : s.extent < Word.bound / 2) {blocks run : Nat}
    (hblocks : 0 < blocks) (hlt : blocks * blockBytes < Word.bound)
    (h : s.acquire (blocks * blockPages) = .ok (run, s')) : ∃ r : Run, r.pages = blocks * blockPages ∧
      run = s.start + pageBytes * r.first ∧ blockBytes ∣ run ∧ s.Grows s' [r] ∧
      s'.Sound (r :: out) m ∧ s'.mapping = s.mapping ∧ s'.unit = s.unit := by
  have hround : s.roundPages (max (blocks * blockPages) 1) = .ok (blocks * blockPages) := by
    have hmax : max (blocks * blockPages) 1 = blocks * blockPages := by
      simp only [blockPages]
      omega
    rw [hmax, Space.roundPages, hunit, Word.nextMultiple_self (Nat.dvd_mul_left _ _)]
  have hsmall : blocks * blockPages < rangePages := by
    have hbound : Word.bound = 2 ^ 64 := rfl
    simp only [blockBytes, blockPages, rangePages] at hlt ⊢
    omega
  obtain ⟨r, hr, ha, hsound, hmapping, hsame⟩ := hs.acquire_addressable hextent hround hsmall h
  have hfirst := (hsound.block_dvd (hsame.trans hunit) List.mem_cons_self).1
  rw [(Space.range_congr hmapping).1, ← ha] at hfirst
  exact ⟨r, by rw [hr], ha, hfirst, hr ▸ .acquire hround hsmall h, hsound, hmapping, hsame⟩

namespace SharedBumps

-- The range lies in the run, also where it is empty.
def Within (s : Space) (r : Run) (range : Nat × Nat) : Prop :=
  s.start + pageBytes * r.first ≤ range.1 ∧ range.1 < s.start + pageBytes * r.stop ∧
    range.1 + range.2 ≤ s.start + pageBytes * r.stop

-- User `i` was given a range, for which its cursor moved and the space grew.
def grant (s : SharedBumps) (i : Nat) (bump : Bump) (space : Space) (runs : List Run)
    (range : Nat × Nat) : SharedBumps :=
  { s with
    space
    users := Function.update s.users i ⟨bump, runs ++ (s.users i).runs⟩
    ranges := range :: s.ranges }

-- What the users of a space do. All runs are given back when every allocator was reset, and what is
-- written lies in a range that was returned.
inductive Step (s : SharedBumps) : SharedBumps → Prop
  | alloc {i bytes align start : Nat} {bump : Bump} {space : Space} {runs : List Run} :
    align ≤ blockBytes → (s.users i).bump.alloc s.space bytes align = .ok (start, bump, space) →
    s.space.Grows space runs → Step s (s.grant i bump space runs (start, bytes))
  | reset (i : Nat) : Step s { s with users := Function.update s.users i {} }
  | releaseAll {space : Space} {memory : Memory} : (∀ i, (s.users i).bump = .fresh) →
    s.space.releaseAll s.memory = .ok (space, memory) → Step s { space, memory }
  | write {a : Nat} (v : Nat) {memory : Memory} {range : Nat × Nat} : range ∈ s.ranges →
    range.1 ≤ a → a + wordBytes ≤ range.1 + range.2 → s.memory.store a v = .ok memory →
    Step s { s with memory }

-- What a new space can come to. At first all its words are zero.
inductive Reached : SharedBumps → Prop
  | start (name : String) (bytes : Nat) {system : Nat → Option Nat} {space : Space} {memory : Memory} :
    Tenancy.Honest system → Space.reserve name bytes blockPages system = .ok space →
    (∀ a, space.contains a = true → memory.read a = 0) → Reached { space, memory }
  | step {s s' : SharedBumps} : Reached s → s.Step s' → Reached s'

-- An address that lies in one of some runs.
def Held (s : Space) (runs : List Run) (a : Nat) : Prop :=
  ∃ r ∈ runs, s.start + pageBytes * r.first ≤ a ∧ a < s.start + pageBytes * r.stop

-- What every step keeps. The runs of `out` were handed out.
structure Sound (s : SharedBumps) (out : List Run) : Prop where
  space : s.space.Sound out s.memory
  unit_eq : s.space.unit = blockPages
  extent_lt : s.space.extent < Word.bound / 2
  runs_mem : ∀ i, ∀ r ∈ (s.users i).runs, r ∈ out
  ranges_held : ∀ q ∈ s.ranges, ∀ a, InRoom q a → Held s.space out a
  spare_held : ∀ i a, (s.users i).bump.Spare a → Held s.space (s.users i).runs a
  -- No two users own an address, and none that was returned.
  spare_apart : ∀ i j, i ≠ j → ∀ a, (s.users i).bump.Spare a → ¬(s.users j).bump.Spare a
  spare_out : ∀ i, ∀ q ∈ s.ranges, ∀ a, (s.users i).bump.Spare a → ¬InRoom q a
  blank : ∀ a, s.space.contains a = true → a % wordBytes = 0 → (∀ q ∈ s.ranges, ¬InRoom q a) →
    s.memory.read a = 0

-- What a user gets: an aligned range in one of its runs, apart from all others, that reads as zero.
structure Served (s : SharedBumps) (runs : List Run) (align start bytes : Nat) : Prop where
  aligned : start % max align wordBytes = 0
  within : ∃ r ∈ runs, Within s.space r (start, bytes)
  apart : ∀ q ∈ s.ranges, 0 < q.2 → start + bytes ≤ q.1 ∨ q.1 + q.2 ≤ start
  blank : ∀ a, a % wordBytes = 0 → start ≤ a → a < start + bytes → s.memory.read a = 0

variable {s s' : SharedBumps} {out runs : List Run} {i a start bytes align : Nat} {bump : Bump}
variable {space : Space}

theorem Held.cover_pos {s : Space} (h : Held s out a) : 0 < Run.cover out (s.page a) := by
  obtain ⟨r, hr, h1, h2⟩ := h
  exact Space.cover_of_run hr h1 h2

theorem Held.contains {s : Space} {m : Memory} (h : Held s out a) (hs : s.Sound out m) :
    s.contains a = true := by
  obtain ⟨r, hr, h1, h2⟩ := h
  exact (s.contains_iff a).mpr
    ⟨(Nat.le_add_right _ _).trans h1, h2.trans_le (hs.run_le hr)⟩

theorem Held.mono {s : Space} {out' : List Run} (h : Held s out a) (hsub : ∀ r ∈ out, r ∈ out') :
    Held s out' a :=
  h.imp fun _ ⟨hr, ha⟩ => ⟨hsub _ hr, ha⟩

theorem Held.congr {s s' : Space} (h : Held s out a) (hmapping : s'.mapping = s.mapping) :
    Held s' out a := by
  rw [Held, (Space.range_congr hmapping).1]
  exact h

-- A new run holds nothing that was held before.
theorem not_held_of_new {s : Space} {m : Memory} {r : Run} (hs : s.Sound (r :: out) m)
    (h1 : s.start + pageBytes * r.first ≤ a) (h2 : a < s.start + pageBytes * r.stop) :
    ¬Held s out a := by
  intro h
  have hcover := hs.cover_le (s.page a)
  have hpos := h.cover_pos
  rw [Run.cover_cons, if_pos (Space.page_of_run h1 h2)] at hcover
  split_ifs at hcover <;> omega

-- User `i` may be given the address, since nobody else has it.
def Free (s : SharedBumps) (out : List Run) (i a : Nat) : Prop :=
  (s.users i).bump.Spare a ∨ ¬Held s.space out a

namespace Sound

variable (hs : s.Sound out)
include hs

theorem spare_held_out {j : Nat} (h : (s.users j).bump.Spare a) : Held s.space out a :=
  (hs.spare_held j a h).mono (hs.runs_mem j)

theorem not_inRoom (h : s.Free out i a) {q : Nat × Nat} (hq : q ∈ s.ranges) : ¬InRoom q a :=
  h.elim (hs.spare_out i q hq a) fun hnot hin => hnot (hs.ranges_held q hq a hin)

theorem not_spare (h : s.Free out i a) {j : Nat} (hj : j ≠ i) : ¬(s.users j).bump.Spare a :=
  h.elim (hs.spare_apart i j hj.symm a) fun hnot hspare => hnot (hs.spare_held_out hspare)

-- What is free for a user can be given to it or kept by its cursor, as long as it lies in its runs.
theorem grant (hspace : space.Sound (runs ++ out) s.memory)
    (hmapping : space.mapping = s.space.mapping) (hunit : space.unit = s.space.unit)
    (hheld : ∀ a, InRoom (start, bytes) a ∨ bump.Spare a →
      Held s.space (runs ++ (s.users i).runs) a)
    (hfree : ∀ a, InRoom (start, bytes) a ∨ bump.Spare a → s.Free out i a)
    (hsplit : ∀ a, bump.Spare a → ¬InRoom (start, bytes) a) :
    (s.grant i bump space runs (start, bytes)).Sound (runs ++ out) := by
  have hmem : ∀ r ∈ runs ++ (s.users i).runs, r ∈ runs ++ out := fun r hr =>
    List.mem_append.mpr ((List.mem_append.mp hr).imp_right (hs.runs_mem i r))
  have hout : ∀ r ∈ out, r ∈ runs ++ out := fun r hr => List.mem_append_right _ hr
  have hself : (s.grant i bump space runs (start, bytes)).users i =
      ⟨bump, runs ++ (s.users i).runs⟩ := Function.update_self ..
  have hother : ∀ j, j ≠ i → (s.grant i bump space runs (start, bytes)).users j = s.users j :=
    fun j hj => Function.update_of_ne hj ..
  have hspares : ∀ j a, ((s.grant i bump space runs (start, bytes)).users j).bump.Spare a →
      j = i ∧ bump.Spare a ∨ j ≠ i ∧ (s.users j).bump.Spare a := fun j a h => by
    by_cases hj : j = i
    · subst hj
      rw [hself] at h
      exact Or.inl ⟨rfl, h⟩
    · rw [hother j hj] at h
      exact Or.inr ⟨hj, h⟩
  exact {
    space := hspace
    unit_eq := hunit.trans hs.unit_eq
    extent_lt := (Space.range_congr hmapping).2.1 ▸ hs.extent_lt
    runs_mem := fun j r hr => by
      by_cases hj : j = i
      · rw [hj, hself] at hr
        exact hmem r hr
      · rw [hother j hj] at hr
        exact hout r (hs.runs_mem j r hr)
    ranges_held := fun q hq a hin => by
      rcases List.mem_cons.mp hq with rfl | hq
      · exact ((hheld a (Or.inl hin)).mono hmem).congr hmapping
      · exact ((hs.ranges_held q hq a hin).mono hout).congr hmapping
    spare_held := fun j a hspare => by
      rcases hspares j a hspare with ⟨rfl, hnew⟩ | ⟨hj, hold⟩
      · rw [hself]
        exact (hheld a (Or.inr hnew)).congr hmapping
      · rw [hother j hj]
        exact (hs.spare_held j a hold).congr hmapping
    spare_apart := fun j k hjk a hj hk => by
      rcases hspares j a hj with ⟨rfl, hnew⟩ | ⟨hji, hold⟩ <;>
        rcases hspares k a hk with ⟨rfl, hnew'⟩ | ⟨hki, hold'⟩
      · exact hjk rfl
      · exact hs.not_spare (hfree a (Or.inr hnew)) hki hold'
      · exact hs.not_spare (hfree a (Or.inr hnew')) hji hold
      · exact hs.spare_apart j k hjk a hold hold'
    spare_out := fun j q hq a hspare hin => by
      rcases hspares j a hspare with ⟨rfl, hnew⟩ | ⟨hj, hold⟩ <;>
        rcases List.mem_cons.mp hq with rfl | hq
      · exact hsplit a hnew hin
      · exact hs.not_inRoom (hfree a (Or.inr hnew)) hq hin
      · exact hs.not_spare (hfree a (Or.inl hin)) hj hold
      · exact hs.spare_out j q hq a hold hin
    blank := fun a ha hword hnone =>
      hs.blank a ((Space.contains_congr hmapping a).symm.trans ha) hword fun q hq =>
        hnone q (List.mem_cons_of_mem _ hq) }

-- A range that is free, and lies in the runs of its user, is served.
theorem served (halign : start % max align wordBytes = 0)
    (hwithin : ∃ r ∈ runs, Within s.space r (start, bytes))
    (hcontains : ∀ a, InRoom (start, bytes) a → s.space.contains a = true)
    (hfree : ∀ a, a = start ∨ InRoom (start, bytes) a → s.Free out i a) :
    s.Served runs align start bytes where
  aligned := halign
  within := hwithin
  apart q hq hpos := by
    -- were they to meet, it would be where the later one of them starts
    by_contra hn
    refine hs.not_inRoom (hfree (max start q.1) ?_) hq ?_
    · simp only [InRoom]
      omega
    · simp only [InRoom]
      omega
  blank a hword h1 h2 :=
    hs.blank a (hcontains a ⟨h1, h2⟩) hword fun q hq => hs.not_inRoom (hfree a (Or.inr ⟨h1, h2⟩)) hq

-- A request that stays in the block of the cursor.
theorem alloc_stay (hstart : Word.alignUp (s.users i).bump.cursor (max align wordBytes) = .ok start)
    (hblock : (s.users i).bump.cursor / blockBytes = (start + bytes) / blockBytes) :
    (s.grant i (.park (start + bytes)) s.space [] (start, bytes)).Sound out ∧
      s.Served (s.users i).runs align start bytes := by
  obtain ⟨hpower, hdvd, hle, -⟩ := Word.alignUp_ok hstart
  have hword : wordBytes ∣ start :=
    (Word.dvd_of_isPowerOfTwo (by decide) hpower (Nat.le_max_right _ _)).trans hdvd
  have hspare : ∀ a, start ≤ a → a < blockOf (start + bytes) + blockBytes →
      (s.users i).bump.Spare a := fun a h1 h2 => by
    simp only [Bump.Spare, blockOf, Word.ceilDiv, blockBytes, wordBytes] at hword hblock h2 ⊢
    omega
  have hroom : ∀ a, a = start ∨ InRoom (start, bytes) a → (s.users i).bump.Spare a := fun a h => by
    have hend : start + bytes < blockOf (start + bytes) + blockBytes := by
      simp only [blockOf, blockBytes]
      omega
    simp only [InRoom] at h
    exact hspare a (by omega) (by omega)
  have hpos : 0 < start + bytes := by
    have hcontains := (hs.spare_held_out (hroom start (Or.inl rfl))).contains hs.space
    have hzero := hs.space.start_pos
    rw [Space.contains_iff] at hcontains
    omega
  have hown : ∀ a, InRoom (start, bytes) a ∨ (Bump.park (start + bytes)).Spare a →
      (s.users i).bump.Spare a := by
    rintro a (hin | hpark)
    · exact hroom a (Or.inr hin)
    · obtain ⟨-, h1, h2⟩ := hpark.park hpos
      exact hspare a (by omega) h2
  refine ⟨hs.grant hs.space rfl rfl (fun a h => hs.spare_held i a (hown a h))
    (fun a h => Or.inl (hown a h)) fun a hpark hin => ?_, ?_⟩
  · have hstop := (hpark.park hpos).2.1
    simp only [InRoom] at hin
    omega
  · refine hs.served (Nat.mod_eq_zero_of_dvd hdvd) ?_
      (fun a hin => (hs.spare_held_out (hroom a (Or.inr hin))).contains hs.space)
      fun a h => Or.inl (hroom a h)
    obtain ⟨r, hr, h1, h2⟩ := hs.spare_held i start (hroom start (Or.inl rfl))
    have hend := (hs.space.block_dvd hs.unit_eq (hs.runs_mem i r hr)).2
    refine ⟨r, hr, h1, h2, ?_⟩
    simp only [blockBytes] at hend hblock ⊢
    omega

-- A request that acquires a run starts where the run does.
theorem alloc_grow (halign : align ≤ blockBytes) {blocks run : Nat} (hbytes : bytes ≤ blocks * blockBytes)
    (hblocks : 0 < blocks) (hlt : blocks * blockBytes < Word.bound)
    (hrun : s.space.acquire (blocks * blockPages) = .ok (run, space))
    (hstart : Word.alignUp run (max align wordBytes) = .ok start) : ∃ r,
    s.space.Grows space [r] ∧
      (s.grant i (.park (start + bytes)) space [r] (start, bytes)).Sound (r :: out) ∧
      s.Served [r] align start bytes := by
  obtain ⟨r, hpages, ha, hfirst, hgrows, hsound, hmapping, hunit⟩ :=
    hs.space.acquire_blocks hs.unit_eq hs.extent_lt hblocks hlt hrun
  have hspace := (Space.range_congr hmapping).1
  have hend := (hsound.block_dvd (hunit.trans hs.unit_eq) List.mem_cons_self).2
  rw [hspace] at hend
  obtain ⟨hpower, hdvd, -, hself⟩ := Word.alignUp_ok hstart
  have hblock : max align wordBytes ∣ blockBytes :=
    Word.dvd_of_isPowerOfTwo hpower (by decide) (Nat.max_le.mpr ⟨halign, by decide⟩)
  obtain rfl : start = run := hself (hblock.trans hfirst)
  have hroom : start + bytes ≤ s.space.start + pageBytes * r.stop := by
    simp only [ha, Run.stop, hpages, pageBytes, blockPages, blockBytes] at hbytes ⊢
    omega
  have hpark : ∀ a, (Bump.park (start + bytes)).Spare a →
      start + bytes ≤ a ∧ a < s.space.start + pageBytes * r.stop := fun a h => by
    have hpos := hs.space.start_pos
    obtain ⟨h1, h2, h3⟩ := h.park (by omega)
    simp only [blockOf, blockBytes] at hend h1 h3 ⊢
    omega
  -- all of it lies in the run, which was handed out to nobody before
  have hin : ∀ a, start ≤ a → a < s.space.start + pageBytes * r.stop →
      (∀ l, Held s.space ([r] ++ l) a) ∧ s.Free out i a := fun a h1 h2 => by
    refine ⟨fun l => ⟨r, List.mem_cons_self, ha ▸ h1, h2⟩, Or.inr fun hheld => ?_⟩
    rw [ha, ← hspace] at h1
    rw [← hspace] at h2
    exact not_held_of_new hsound h1 h2 (hheld.congr hmapping)
  have hown : ∀ a, InRoom (start, bytes) a ∨ (Bump.park (start + bytes)).Spare a →
      start ≤ a ∧ a < s.space.start + pageBytes * r.stop := by
    rintro a (⟨h1, h2⟩ | h)
    · exact ⟨h1, h2.trans_le hroom⟩
    · exact ⟨(Nat.le_add_right _ _).trans (hpark a h).1, (hpark a h).2⟩
  have hstart : start < s.space.start + pageBytes * r.stop := by
    simp only [ha, Run.stop, hpages, pageBytes, blockPages]
    omega
  refine ⟨r, hgrows, ?_, ?_⟩
  · refine hs.grant hsound hmapping hunit (fun a h => (hin a (hown a h).1 (hown a h).2).1 _)
      (fun a h => (hin a (hown a h).1 (hown a h).2).2) fun a h hroom => ?_
    have hstop := (hpark a h).1
    simp only [InRoom] at hroom
    omega
  · refine hs.served (i := i) (Nat.mod_eq_zero_of_dvd hdvd)
      ⟨r, List.mem_cons_self, ha.ge, hstart, hroom⟩ (fun a h => ?_) fun a h => ?_
    · have hle := hsound.run_le List.mem_cons_self
      rw [hspace, (Space.range_congr hmapping).2.2] at hle
      obtain ⟨h1, h2⟩ := hown a (Or.inl h)
      rw [Space.contains_iff]
      omega
    · rcases h with rfl | h
      · exact (hin _ (le_refl _) hstart).2
      · exact (hin a (hown a (Or.inl h)).1 (hown a (Or.inl h)).2).2

-- Every request that has an answer serves its user, whichever way it takes.
theorem alloc (halign : align ≤ blockBytes)
    (h : (s.users i).bump.alloc s.space bytes align = .ok (start, bump, space)) : ∃ runs,
    s.space.Grows space runs ∧ (s.grant i bump space runs (start, bytes)).Sound (runs ++ out) ∧
      s.Served (runs ++ (s.users i).runs) align start bytes := by
  obtain ⟨rfl, ⟨rfl, hstart, hblock⟩ | ⟨hlt, run, hrun, hstart⟩⟩ := Bump.alloc_ok h
  · exact ⟨[], .same, hs.alloc_stay hstart hblock⟩
  · obtain ⟨r, hgrows, hsound, hserved⟩ := hs.alloc_grow halign (Bump.le_freshBlocks bytes)
      (Bump.freshBlocks_pos bytes) hlt hrun hstart
    obtain ⟨r', hr', hwithin⟩ := hserved.within
    exact ⟨[r], hgrows, hsound, { hserved with
      within := ⟨r', List.mem_append_left _ hr', hwithin⟩ }⟩

theorem reset (i : Nat) :
    Sound { s with users := Function.update s.users i {} } out := by
  have hspare : ∀ j a, (Function.update s.users i {} j).bump.Spare a → (s.users j).bump.Spare a ∧
      Function.update s.users i {} j = s.users j := fun j a h => by
    by_cases hj : j = i
    · rw [hj, Function.update_self] at h
      exact absurd h (Bump.not_spare_fresh a)
    · rw [Function.update_of_ne hj] at h
      exact ⟨h, Function.update_of_ne hj ..⟩
  refine { hs with
    runs_mem := fun j r hr => ?_
    spare_held := fun j a h => ?_
    spare_apart := fun j k hjk a hj hk => hs.spare_apart j k hjk a (hspare j a hj).1 (hspare k a hk).1
    spare_out := fun j q hq a h => hs.spare_out j q hq a (hspare j a h).1 }
  · have hr : r ∈ (Function.update s.users i {} j).runs := hr
    by_cases hj : j = i
    · rw [hj, Function.update_self] at hr
      cases hr
    · rw [Function.update_of_ne hj] at hr
      exact hs.runs_mem j r hr
  · obtain ⟨hold, hsame⟩ := hspare j a h
    show Held s.space (Function.update s.users i {} j).runs a
    rw [hsame]
    exact hs.spare_held j a hold

theorem releaseAll {memory : Memory} (h : s.space.releaseAll s.memory = .ok (space, memory)) :
    Sound { space, memory } [] := by
  obtain ⟨s', m', hrun, hsound, hmapping, hunit, -, -, -, hzero, -⟩ := hs.space.releaseAll
  rw [hrun] at h
  cases h
  exact {
    space := hsound
    unit_eq := hunit.trans hs.unit_eq
    extent_lt := (Space.range_congr hmapping).2.1 ▸ hs.extent_lt
    runs_mem := nofun
    ranges_held := nofun
    spare_held := fun _ a h => absurd h (Bump.not_spare_fresh a)
    spare_apart := fun _ _ _ a h => absurd h (Bump.not_spare_fresh a)
    spare_out := nofun
    blank := fun a ha _ _ => hzero a ((Space.contains_congr hmapping a).symm.trans ha) }

theorem write {q : Nat × Nat} (hq : q ∈ s.ranges) (h1 : q.1 ≤ a) (h2 : a + wordBytes ≤ q.1 + q.2)
    (v : Nat) :
    Sound { s with memory := s.memory.write a v } out := by
  have hin : InRoom q a := ⟨h1, (Nat.lt_add_of_pos_right (by decide)).trans_le h2⟩
  refine { hs with
    space := hs.space.congr fun b _ hzero => Memory.read_write_of_ne (fun heq => ?_) v
    blank := fun b hb hword hnone => ?_ }
  · have hpos := (hs.ranges_held q hq a hin).cover_pos
    subst heq
    omega
  · have hne : b ≠ a := fun heq => hnone q hq (heq ▸ hin)
    exact (Memory.read_write_of_ne hne v).trans (hs.blank b hb hword hnone)

theorem step (h : s.Step s') : ∃ out', s'.Sound out' := by
  cases h with
  | alloc halign h hgrows =>
    obtain ⟨runs, hgrows', hsound, -⟩ := hs.alloc halign h
    rw [hs.space.grows_eq hs.extent_lt hgrows hgrows']
    exact ⟨_, hsound⟩
  | reset i => exact ⟨out, hs.reset i⟩
  | releaseAll _ h => exact ⟨[], hs.releaseAll h⟩
  | write v hq h1 h2 h =>
    unfold Memory.store at h
    split at h
    · cases h
      exact ⟨out, hs.write hq h1 h2 v⟩
    · cases h

end Sound

theorem Reached.sound (hs : Reached s) : ∃ out, s.Sound out := by
  induction hs with
  | start name bytes hsystem h hblank =>
    have hsound := Tenancy.sound_reserve hsystem h hblank
    exact ⟨[], {
      space := hsound.space
      unit_eq := Space.unit_of_reserve h
      extent_lt := (Tenancy.Reached.start name bytes blockPages hsystem h hblank).extent_lt
      runs_mem := nofun
      ranges_held := nofun
      spare_held := fun _ a h => absurd h (Bump.not_spare_fresh a)
      spare_apart := fun _ _ _ a h => absurd h (Bump.not_spare_fresh a)
      spare_out := nofun
      blank := fun a ha _ _ => hblank a ha }⟩
  | step _ hstep ih =>
    obtain ⟨out, hs⟩ := ih
    exact hs.step hstep

-- Whatever was asked for, reset, given back and written before: a request that has an answer is served
-- from a run that its user acquired, now or since it was last reset, apart from all that was returned
-- before, and what it returns is blank.
theorem Reached.alloc_served (hs : Reached s) (halign : align ≤ blockBytes)
    (h : (s.users i).bump.alloc s.space bytes align = .ok (start, bump, space)) : ∃ runs,
    s.space.Grows space runs ∧ Reached (s.grant i bump space runs (start, bytes)) ∧
      s.Served (runs ++ (s.users i).runs) align start bytes := by
  obtain ⟨out, hsound⟩ := hs.sound
  obtain ⟨runs, hgrows, -, hserved⟩ := hsound.alloc halign h
  exact ⟨runs, hgrows, hs.step (.alloc halign h hgrows), hserved⟩

-- Two blocks.
def pair : Space :=
  { name := "pair", mapping := ⟨blockBytes, 3 * blockBytes, 0, 2 * blockBytes⟩, unit := blockPages }

theorem reached_pair : Reached { space := pair } :=
  .start "pair" (2 * blockBytes) (Tenancy.honest_placeAt (by decide) (by decide) (by decide)) rfl
    fun a _ => Memory.read_empty a

-- What was returned before ends where a block does: the next request is served from another one.
theorem alloc_served_full : ∃ s bump space, Reached s ∧ s.ranges = [(blockBytes, blockBytes)] ∧
    (s.users 0).bump.alloc s.space 16 8 = .ok (2 * blockBytes, bump, space) ∧
    ∃ runs, s.Served (runs ++ (s.users 0).runs) 8 (2 * blockBytes) 16 := by
  have hfirst : ∃ bump space, Bump.fresh.alloc pair blockBytes 8 = .ok (blockBytes, bump, space) ∧
      (bump.alloc space 16 8).toOption.map Prod.fst = some (2 * blockBytes) := by
    refine ⟨⟨2 * blockBytes - 1⟩, { pair with highWater := 8, used := 8, mapped := 8 }, ?_, ?_⟩ <;>
      decide +kernel
  obtain ⟨bump, space, hfirst, hnext⟩ := hfirst
  obtain ⟨⟨_, bump', space'⟩, hnext, rfl⟩ := Option.map_eq_some_iff.mp hnext
  obtain ⟨runs, -, hs, -⟩ := reached_pair.alloc_served (i := 0) (by decide) hfirst
  have hsecond : bump.alloc space 16 8 = .ok (2 * blockBytes, bump', space') := by
    rw [eq_ok_get (Option.isSome_of_eq_some hnext)]
    simp only [hnext, Option.get_some]
  obtain ⟨runs', -, -, hserved⟩ := hs.alloc_served (i := 0) (by decide) hsecond
  exact ⟨_, bump', space', hs, rfl, hsecond, runs', hserved⟩

end SharedBumps

end Reclaim
