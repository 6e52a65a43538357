import Reclaim.Bump
import Reclaim.Proofs.Space

/-!
Bump allocators that share a space. What was handed out and what the allocators still own are apart,
and nothing has been written to what they own.
-/
namespace Reclaim

open Sizes

namespace Bump

-- The words between the cursor and the end of its block.
def Owns (b : Bump) (a : Nat) : Prop :=
  a % wordBytes = 0 ∧ b.cursor ≤ a ∧ a < blockOf b.cursor + blockBytes

theorem not_owns_fresh (a : Nat) : ¬fresh.Owns a := by
  rintro ⟨h1, h2, h3⟩
  simp only [fresh, initialCursor, blockOf, blockBytes, wordBytes] at h1 h2 h3
  omega

-- What is owned behind a new object was owned before, or lies in the same blocks.
theorem Owns.park {stop a : Nat} (h : (park stop).Owns a) (hpos : 0 < stop)
    (hstop : stop % wordBytes = 0) :
    stop % blockBytes ≠ 0 ∧ stop ≤ a ∧ a < blockOf stop + blockBytes := by
  obtain ⟨h1, h2, h3⟩ := h
  by_cases hz : stop % blockBytes = 0
  · have hcursor : (Bump.park stop).cursor = stop - 1 := if_pos hz
    rw [hcursor] at h2 h3
    simp only [blockOf, blockBytes, wordBytes] at h1 h2 h3 hz hstop
    omega
  · have hcursor : (Bump.park stop).cursor = stop := if_neg hz
    rw [hcursor] at h2 h3
    exact ⟨hz, h2, h3⟩

section Calls

variable {b b' : Bump} {s s' : Space} {bytes align start : Nat}

-- The blocks that a request takes when it does not stay in the block of the cursor.
def freshBlocks (bytes : Nat) : Nat := max (Word.ceilDiv bytes blockBytes) 1

theorem freshBlocks_pos (bytes : Nat) : 0 < freshBlocks bytes :=
  Nat.one_pos.trans_le (Nat.le_max_right _ _)

theorem le_freshBlocks (bytes : Nat) : bytes ≤ freshBlocks bytes * blockBytes := by
  simp only [freshBlocks, Word.ceilDiv, blockBytes]
  omega

-- The end is checked against the block that the rounded start lies in.
theorem allocSlow_ok (h : allocSlow s bytes align = .ok (start, b', s')) : b' = park (start + bytes) ∧
    freshBlocks bytes * blockBytes < Word.bound ∧
    start + bytes ≤ blockOf start + freshBlocks bytes * blockBytes ∧
    ∃ run, s.acquire (freshBlocks bytes * blockPages) = .ok (run, s') ∧
      Word.alignUp run align = .ok start := by
  simp only [allocSlow, bind_eq_ok, Prod.exists] at h
  obtain ⟨pages, hpages, run, space, hacquire, start', hstart, stop, hstop, size, hsize, limit, hlimit,
    h⟩ := h
  obtain ⟨rfl, -⟩ := Word.mul_eq_ok.mp hpages
  obtain ⟨rfl, hlt⟩ := Word.mul_eq_ok.mp hsize
  obtain ⟨rfl, -⟩ := Word.add_eq_ok.mp hstop
  obtain ⟨rfl, -⟩ := Word.add_eq_ok.mp hlimit
  split at h
  · cases h
  · rename_i hle
    cases h
    exact ⟨rfl, hlt, Nat.le_of_not_lt hle, run, hacquire, hstart⟩

-- A request moves the cursor within its block, or acquires whole blocks.
theorem alloc_ok (h : b.alloc s bytes align = .ok (start, b', s')) : b' = park (start + bytes) ∧
    ((s' = s ∧ Word.alignUp b.cursor (max align wordBytes) = .ok start ∧
        b.cursor / blockBytes = (start + bytes) / blockBytes) ∨
      freshBlocks bytes * blockBytes < Word.bound ∧
        ∃ run, s.acquire (freshBlocks bytes * blockPages) = .ok (run, s') ∧
          Word.alignUp run (max align wordBytes) = .ok start) := by
  simp only [alloc, bind_eq_ok] at h
  obtain ⟨first, hfirst, stop, hstop, h⟩ := h
  obtain ⟨rfl, -⟩ := Word.add_eq_ok.mp hstop
  split at h
  · rename_i hblock
    cases h
    exact ⟨rfl, Or.inl ⟨rfl, hfirst, hblock⟩⟩
  · obtain ⟨hpark, hlt, -, run, hacquire, hstart⟩ := allocSlow_ok h
    exact ⟨hpark, Or.inr ⟨hlt, run, hacquire, hstart⟩⟩

end Calls

end Bump

-- The address lies in the room of an object.
def InRoom (room : Nat × Nat) (a : Nat) : Prop := room.1 ≤ a ∧ a < room.1 + room.2

-- Rooms are made of words.
def IsRoom (room : Nat × Nat) : Prop :=
  room.1 % wordBytes = 0 ∧ room.2 % wordBytes = 0 ∧ 0 < room.2

-- Rooms of objects by their addresses and bytes, and the allocators that may make more.
structure Plots (s : Space) (m : Memory) (out : List Run) (rooms : List (Nat × Nat))
    (bumps : List Bump) : Prop where
  space : s.Sound out m
  unit_eq : s.unit = blockPages
  aligned : ∀ room ∈ rooms, IsRoom room
  room_in : ∀ room ∈ rooms, ∀ a, InRoom room a → s.contains a = true ∧ 0 < Run.cover out (s.page a)
  rooms_apart : rooms.Pairwise fun p q => p.1 + p.2 ≤ q.1 ∨ q.1 + q.2 ≤ p.1
  owned_in : ∀ b ∈ bumps, ∀ a, b.Owns a → s.contains a = true ∧ 0 < Run.cover out (s.page a)
  owned_blank : ∀ b ∈ bumps, ∀ a, b.Owns a → m.read a = 0
  owned_apart : ∀ b ∈ bumps, ∀ room ∈ rooms, ∀ a, b.Owns a → ¬InRoom room a
  bumps_apart : bumps.Pairwise fun b c => ∀ a, b.Owns a → ¬c.Owns a

namespace Plots

variable {s s' : Space} {m m' : Memory} {out : List Run} {rooms : List (Nat × Nat)}
variable {bumps bumps' : List Bump} {b b' : Bump}

-- What is written to rooms, or outside of the space, is no concern of the allocators.
theorem congr (h : Plots s m out rooms bumps)
    (hm : ∀ a, s.contains a = true → (∀ room ∈ rooms, ¬InRoom room a) → m'.read a = m.read a) :
    Plots s m' out rooms bumps :=
  { h with
    space := h.space.congr fun a ha hz => hm a ha fun room hroom hin => by
      have hpos := (h.room_in room hroom a hin).2
      omega
    owned_blank := fun b hb a ha => by
      rw [hm a (h.owned_in b hb a ha).1 fun room hroom => h.owned_apart b hb room hroom a ha]
      exact h.owned_blank b hb a ha }

theorem perm (h : Plots s m out rooms bumps) (hp : bumps.Perm bumps') :
    Plots s m out rooms bumps' :=
  { h with
    owned_in := fun b hb => h.owned_in b (hp.mem_iff.mpr hb)
    owned_blank := fun b hb => h.owned_blank b (hp.mem_iff.mpr hb)
    owned_apart := fun b hb => h.owned_apart b (hp.mem_iff.mpr hb)
    bumps_apart := h.bumps_apart.perm hp fun hxy a hy hx => hxy a hx hy }

-- No two rooms start at the same address.
theorem not_mem_of_cons {o bytes b : Nat} (h : Plots s m out ((o, bytes) :: rooms) bumps) :
    (o, b) ∉ rooms := by
  intro hr
  have hapart := (List.pairwise_cons.mp h.rooms_apart).1 _ hr
  have hpos := (h.aligned _ List.mem_cons_self).2.2
  have hpos' := (h.aligned _ (List.mem_cons_of_mem _ hr)).2.2
  simp only at hapart hpos hpos'
  omega

-- Allocators that own less.
theorem shrink (h : Plots s m out rooms (b :: bumps)) (hb : ∀ a, b'.Owns a → b.Owns a) :
    Plots s m out rooms (b' :: bumps) := by
  obtain ⟨hapart, hrest⟩ := List.pairwise_cons.mp h.bumps_apart
  refine { h with owned_in := ?_, owned_blank := ?_, owned_apart := ?_, bumps_apart := ?_ }
  · exact List.forall_mem_cons.mpr ⟨fun a ha => h.owned_in b List.mem_cons_self a (hb a ha),
      fun c hc => h.owned_in c (List.mem_cons_of_mem _ hc)⟩
  · exact List.forall_mem_cons.mpr ⟨fun a ha => h.owned_blank b List.mem_cons_self a (hb a ha),
      fun c hc => h.owned_blank c (List.mem_cons_of_mem _ hc)⟩
  · exact List.forall_mem_cons.mpr
      ⟨fun room hr a ha => h.owned_apart b List.mem_cons_self room hr a (hb a ha),
        fun c hc => h.owned_apart c (List.mem_cons_of_mem _ hc)⟩
  · exact List.pairwise_cons.mpr ⟨fun c hc a ha => hapart c hc a (hb a ha), hrest⟩

theorem tail (h : Plots s m out rooms (b :: bumps)) : Plots s m out rooms bumps :=
  { h with
    owned_in := fun c hc => h.owned_in c (List.mem_cons_of_mem _ hc)
    owned_blank := fun c hc => h.owned_blank c (List.mem_cons_of_mem _ hc)
    owned_apart := fun c hc => h.owned_apart c (List.mem_cons_of_mem _ hc)
    bumps_apart := (List.pairwise_cons.mp h.bumps_apart).2 }

theorem reset (h : Plots s m out rooms (b :: bumps)) : Plots s m out rooms (.fresh :: bumps) :=
  h.shrink fun a ha => absurd ha (Bump.not_owns_fresh a)

theorem bind (h : Plots s m out rooms bumps) : Plots s m out rooms (.fresh :: bumps) :=
  { h with
    owned_in := List.forall_mem_cons.mpr
      ⟨fun a ha => absurd ha (Bump.not_owns_fresh a), h.owned_in⟩
    owned_blank := List.forall_mem_cons.mpr
      ⟨fun a ha => absurd ha (Bump.not_owns_fresh a), h.owned_blank⟩
    owned_apart := List.forall_mem_cons.mpr
      ⟨fun _ _ a ha => absurd ha (Bump.not_owns_fresh a), h.owned_apart⟩
    bumps_apart := List.pairwise_cons.mpr
      ⟨fun _ _ a ha => absurd ha (Bump.not_owns_fresh a), h.bumps_apart⟩ }

-- Rooms that share no word are apart.
theorem apart_of_words {p q : Nat × Nat} (hp : IsRoom p) (hq : IsRoom q)
    (h : ∀ a, a % wordBytes = 0 → InRoom p a → ¬InRoom q a) :
    p.1 + p.2 ≤ q.1 ∨ q.1 + q.2 ≤ p.1 := by
  by_contra hn
  simp only [IsRoom, InRoom, wordBytes] at hp hq h
  have hmax := h (max p.1 q.1) (by omega) (by omega)
  omega

-- A room is put where nobody owns or uses a word.
theorem grow (h : Plots s m out rooms (b :: bumps)) {room : Nat × Nat}
    (hroom : IsRoom room)
    (hin : ∀ a, a % wordBytes = 0 → InRoom room a →
      s.contains a = true ∧ 0 < Run.cover out (s.page a))
    (hrooms : ∀ p ∈ rooms, ∀ a, a % wordBytes = 0 → InRoom room a → ¬InRoom p a)
    (hbumps : ∀ c ∈ b :: bumps, ∀ a, c.Owns a → ¬InRoom room a) :
    Plots s m out (room :: rooms) (b :: bumps) :=
  { h with
    aligned := List.forall_mem_cons.mpr ⟨hroom, h.aligned⟩
    room_in := by
      refine List.forall_mem_cons.mpr ⟨fun a ha => ?_, h.room_in⟩
      -- the word that the address lies in
      have hstart := Nat.mod_eq_zero_of_dvd h.space.start_dvd
      obtain ⟨h1, h2⟩ := hin (a / wordBytes * wordBytes) (Nat.mul_mod_left _ _) (by
        simp only [IsRoom, InRoom, wordBytes] at ha hroom ⊢
        omega)
      have hstop := Nat.mod_eq_zero_of_dvd h.space.extent_dvd
      rw [Space.contains_iff, Space.stop] at h1 ⊢
      have hpage : s.page (a / wordBytes * wordBytes) = s.page a := by
        simp only [Space.page, wordBytes, pageBytes, blockBytes] at hstart ⊢
        omega
      rw [hpage] at h2
      refine ⟨?_, h2⟩
      simp only [wordBytes, blockBytes] at h1 hstart hstop
      omega
    rooms_apart := List.pairwise_cons.mpr
      ⟨fun p hp => apart_of_words hroom (h.aligned p hp) (hrooms p hp), h.rooms_apart⟩
    owned_apart := fun c hc => List.forall_mem_cons.mpr ⟨hbumps c hc, h.owned_apart c hc⟩ }

-- A new object in the block of the cursor.
theorem allocFast (h : Plots s m out rooms (b :: bumps)) {start bytes : Nat}
    (hroom : IsRoom (start, bytes)) (hstart : b.cursor ≤ start)
    (hblock : b.cursor / blockBytes = (start + bytes) / blockBytes) :
    Plots s m out ((start, bytes) :: rooms) (.park (start + bytes) :: bumps) ∧
      ∀ a, a % wordBytes = 0 → InRoom (start, bytes) a → m.read a = 0 := by
  obtain ⟨hapart, -⟩ := List.pairwise_cons.mp h.bumps_apart
  have howned : ∀ a, a % wordBytes = 0 → InRoom (start, bytes) a → b.Owns a := by
    intro a ha hin
    simp only [InRoom, blockBytes] at hin hblock
    refine ⟨ha, by omega, ?_⟩
    simp only [blockOf, blockBytes]
    omega
  have hpark : ∀ a, (Bump.park (start + bytes)).Owns a → b.Owns a ∧ start + bytes ≤ a := by
    intro a ha
    have hmod := ha.1
    simp only [IsRoom, wordBytes] at hroom
    obtain ⟨-, h2, h3⟩ := ha.park (by omega) (by simp only [wordBytes]; omega)
    refine ⟨⟨hmod, by omega, ?_⟩, h2⟩
    simp only [blockOf, hblock] at h3 ⊢
    exact h3
  refine ⟨(h.shrink fun a ha => (hpark a ha).1).grow hroom ?_ ?_ ?_, ?_⟩
  · exact fun a ha hin => h.owned_in b List.mem_cons_self a (howned a ha hin)
  · exact fun p hp a ha hin => h.owned_apart b List.mem_cons_self p hp a (howned a ha hin)
  · intro c hc a hca hin
    rcases List.mem_cons.mp hc with rfl | hc
    · have hle := (hpark a hca).2
      exact absurd hin.2 (Nat.not_lt.mpr hle)
    · exact hapart c hc a (howned a hca.1 hin) hca
  · exact fun a ha hin => h.owned_blank b List.mem_cons_self a (howned a ha hin)

-- The space has handed out one more run.
theorem extend (h : Plots s m out rooms bumps) {r : Run} (hs : s'.Sound (r :: out) m)
    (hmapping : s'.mapping = s.mapping) (hunit : s'.unit = s.unit) :
    Plots s' m (r :: out) rooms bumps := by
  have hpage : ∀ a, s'.page a = s.page a := fun a => by
    rw [Space.page, (Space.range_congr hmapping).1, Space.page]
  have hmore : ∀ a, s.contains a = true ∧ 0 < Run.cover out (s.page a) →
      s'.contains a = true ∧ 0 < Run.cover (r :: out) (s'.page a) := by
    rintro a ⟨h1, h2⟩
    rw [Space.contains_congr hmapping, hpage, Run.cover_cons]
    exact ⟨h1, by omega⟩
  exact { h with
    space := hs
    unit_eq := hunit.trans h.unit_eq
    room_in := fun room hroom a ha => hmore a (h.room_in room hroom a ha)
    owned_in := fun c hc a ha => hmore a (h.owned_in c hc a ha) }

section NewRun

variable (h : Plots s m out rooms (b :: bumps)) {r : Run} {start : Nat}
variable (hs : s'.Sound (r :: out) m) (hmapping : s'.mapping = s.mapping)
variable (hstart : start = s.start + pageBytes * r.first)
include hs hmapping hstart

-- Nobody has a word of a new run.
theorem contains_new {a : Nat} (h1 : start ≤ a) (h2 : a < start + pageBytes * r.pages) :
    s.contains a = true ∧ Run.cover out (s.page a) = 0 ∧ 0 < Run.cover (r :: out) (s'.page a) := by
  obtain ⟨hs1, -, hs2⟩ := Space.range_congr hmapping
  have hend := hs.run_le List.mem_cons_self
  rw [hs1, hs2, Run.stop, Nat.mul_add, ← Nat.add_assoc, ← hstart] at hend
  have hcover : 0 < Run.cover [r] (s'.page a) := Space.cover_of_run List.mem_cons_self
    (by rw [hs1, ← hstart]; exact h1)
    (by rw [hs1, Run.stop, Nat.mul_add, ← Nat.add_assoc, ← hstart]; exact h2)
  have hpage : s'.page a = s.page a := by rw [Space.page, hs1, Space.page]
  have hle := hs.cover_le (s'.page a)
  rw [Run.cover_cons, Run.cover_nil, hpage] at hcover
  rw [Run.cover_cons, hpage] at hle ⊢
  refine ⟨(Space.contains_iff _ a).mpr ⟨by omega, by omega⟩, ?_, by omega⟩
  split_ifs at hle hcover <;> omega

variable (hunit : s'.unit = s.unit)
include h hunit

-- What lies behind a room in a new run, up to the end of its block.
omit hmapping in
theorem owned_new {bytes a : Nat} (hroom : IsRoom (start, bytes)) (hfit : bytes ≤ pageBytes * r.pages)
    (ha : (Bump.park (start + bytes)).Owns a) :
    start + bytes ≤ a ∧ a < start + pageBytes * r.pages := by
  have hfits := hs.runs r (Or.inr List.mem_cons_self)
  have hdvd := h.space.start_dvd
  have hfirst := hfits.first_dvd
  have hpages := hfits.pages_dvd
  rw [hunit, h.unit_eq] at hfirst hpages
  simp only [blockPages] at hfirst hpages
  simp only [IsRoom, wordBytes] at hroom
  obtain ⟨h1, h2, h3⟩ := ha.park (by omega) (by simp only [wordBytes]; omega)
  refine ⟨h2, ?_⟩
  simp only [blockOf, blockBytes, pageBytes] at hdvd hstart h1 h3 hfit ⊢
  omega

-- The allocator goes on behind the room.
theorem park_new {bytes : Nat} (hroom : IsRoom (start, bytes)) (hfit : bytes ≤ pageBytes * r.pages) :
    Plots s' m (r :: out) rooms (.park (start + bytes) :: bumps) := by
  have hext := h.tail.extend hs hmapping hunit
  have hnew : ∀ a, (Bump.park (start + bytes)).Owns a → s.contains a = true ∧
      Run.cover out (s.page a) = 0 ∧ 0 < Run.cover (r :: out) (s'.page a) := fun a ha =>
    have ⟨h1, h2⟩ := h.owned_new hs hstart hunit hroom hfit ha
    contains_new hs hmapping hstart (by omega) h2
  exact { hext with
    owned_in := List.forall_mem_cons.mpr ⟨fun a ha =>
      ⟨(Space.contains_congr hmapping a).trans (hnew a ha).1, (hnew a ha).2.2⟩, hext.owned_in⟩
    owned_blank := List.forall_mem_cons.mpr ⟨fun a ha =>
      h.space.blank a (hnew a ha).1 (hnew a ha).2.1, hext.owned_blank⟩
    owned_apart := List.forall_mem_cons.mpr ⟨fun p hp a ha hin => by
      have hz := (hnew a ha).2.1
      have hp := (h.room_in p hp a hin).2
      omega, hext.owned_apart⟩
    bumps_apart := List.pairwise_cons.mpr ⟨fun c hc a ha hown => by
      have hz := (hnew a ha).2.1
      have hp := (h.owned_in c (List.mem_cons_of_mem _ hc) a hown).2
      omega, hext.bumps_apart⟩ }

-- A new object at the start of a new run.
theorem allocSlow {bytes : Nat} (hroom : IsRoom (start, bytes)) (hfit : bytes ≤ pageBytes * r.pages) :
    Plots s' m (r :: out) ((start, bytes) :: rooms) (.park (start + bytes) :: bumps) ∧
      ∀ a, a % wordBytes = 0 → InRoom (start, bytes) a → m.read a = 0 := by
  have hnew : ∀ a, InRoom (start, bytes) a → s.contains a = true ∧ Run.cover out (s.page a) = 0 ∧
      0 < Run.cover (r :: out) (s'.page a) := fun a ha =>
    contains_new hs hmapping hstart ha.1 (Nat.lt_of_lt_of_le ha.2 (Nat.add_le_add_left hfit _))
  refine ⟨(h.park_new hs hmapping hstart hunit hroom hfit).grow hroom ?_ ?_ ?_, ?_⟩
  · exact fun a _ ha => ⟨(Space.contains_congr hmapping a).trans (hnew a ha).1, (hnew a ha).2.2⟩
  · intro p hp a _ ha hin'
    have hz := (hnew a ha).2.1
    have hp := (h.room_in p hp a hin').2
    omega
  · intro c hc a hown ha
    rcases List.mem_cons.mp hc with rfl | hc
    · have hbehind := (h.owned_new hs hstart hunit hroom hfit hown).1
      exact absurd ha.2 (Nat.not_lt.mpr hbehind)
    · have hz := (hnew a ha).2.1
      have hp := (h.owned_in c (List.mem_cons_of_mem _ hc) a hown).2
      omega
  · exact fun a _ ha => h.space.blank a (hnew a ha).1 (hnew a ha).2.1

end NewRun

theorem alloc (h : Plots s m out rooms (b :: bumps)) {o bytes : Nat} (hpos : 0 < bytes)
    (hmod : bytes % wordBytes = 0) (hsize : bytes + blockBytes + s.extent < Word.bound)
    (hrun : b.alloc s bytes wordBytes = .ok (o, b', s')) :
    ∃ out', Plots s' m out' ((o, bytes) :: rooms) (b' :: bumps) ∧ s'.mapping = s.mapping ∧
      ∀ a, a % wordBytes = 0 → InRoom (o, bytes) a → m.read a = 0 := by
  obtain ⟨rfl, ⟨rfl, hstart, hblock⟩ | ⟨-, run, hacquire, hfirst⟩⟩ := Bump.alloc_ok hrun
  · rw [Nat.max_self] at hstart
    obtain ⟨h1, h2, -⟩ := Word.alignUp_wordBytes hstart
    obtain ⟨hplots, hblank⟩ := h.allocFast ⟨h2, hmod, hpos⟩ h1 hblock
    exact ⟨out, hplots, rfl, hblank⟩
  · rw [Nat.max_self] at hfirst
    -- whole blocks are asked for, and no more than are needed
    have hblocks : bytes ≤ Bump.freshBlocks bytes * blockBytes ∧
        Bump.freshBlocks bytes * blockBytes < bytes + blockBytes := by
      simp only [Bump.freshBlocks, Word.ceilDiv, blockBytes]
      omega
    generalize Bump.freshBlocks bytes = blocks at hacquire hblocks
    have hround : ∀ rounded, s.roundPages (max (blocks * blockPages) 1) = .ok rounded →
        rounded = blocks * blockPages := by
      intro rounded hr
      have hone : 1 ≤ blocks * blockPages := by
        simp only [blockBytes, blockPages] at hblocks ⊢
        omega
      rw [Space.roundPages, h.unit_eq, Nat.max_eq_left hone,
        Word.nextMultiple_self (Nat.dvd_mul_left _ _)] at hr
      cases hr
      rfl
    have hpage : blockPages * pageBytes = blockBytes := rfl
    obtain ⟨r, hr, rfl, hs, hmapping, hunit, -⟩ := h.space.acquire hacquire fun rounded hr => by
      rw [hround rounded hr, Nat.mul_assoc, hpage]
      omega
    have hbase : (s.start + pageBytes * r.first) % wordBytes = 0 := by
      have hdvd := h.space.start_dvd
      simp only [wordBytes, pageBytes, blockBytes] at hdvd ⊢
      omega
    obtain rfl := (Word.alignUp_wordBytes hfirst).2.2 hbase
    obtain ⟨hplots, hblank⟩ := h.allocSlow hs hmapping rfl hunit ⟨hbase, hmod, hpos⟩ (by
      rw [hround _ hr, Nat.mul_comm, Nat.mul_assoc, hpage]
      exact hblocks.1)
    exact ⟨_, hplots, hmapping, hblank⟩

end Plots

end Reclaim
