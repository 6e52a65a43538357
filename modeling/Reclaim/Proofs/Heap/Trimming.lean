import Reclaim.Proofs.Cells.Pass
import Reclaim.Proofs.Heap.Spaces

/-!
What is left of a heap when counted objects were freed and status words were replaced. Everything that
is still there has the words behind its status word that it had.
-/
namespace Reclaim.Heap

open Sizes

structure Trimmed (base : Heap) (l₀ : Layout) (h : Heap) (l : Layout) : Prop where
  sound : h.Sound l
  types_eq : h.types = base.types
  nursery_eq : h.nursery = base.nursery
  immortal_eq : h.immortal = base.immortal
  mature_eq : h.mature.space.mapping = base.mature.space.mapping
  large_eq : h.large.space.mapping = base.large.space.mapping
  markState_eq : h.large.markState = base.large.markState
  -- No tracing has reached any large object.
  reached_eq : l.reached = []
  plots_eq : l.nursery = l₀.nursery ∧ l.immortal = l₀.immortal
  room : ∀ kind o bytes, Room h l kind o bytes → Room base l₀ kind o bytes
  word : ∀ kind o bytes, Room h l kind o bytes → ∀ a, o < a → a < o + bytes →
    h.memory.read a = base.memory.read a
  frame : ∀ a, base.inCountedSpace a = false → h.memory.read a = base.memory.read a

namespace Trimmed

variable {base h : Heap} {l₀ l : Layout} {kind : SpaceKind} {o bytes : Nat}

theorem refl (hs : h.Sound l) (hl : l.reached = []) : Trimmed h l h l where
  sound := hs
  types_eq := rfl
  nursery_eq := rfl
  immortal_eq := rfl
  mature_eq := rfl
  large_eq := rfl
  markState_eq := rfl
  reached_eq := hl
  plots_eq := ⟨rfl, rfl⟩
  room _ _ _ hr := hr
  word _ _ _ _ _ _ _ := rfl
  frame _ _ := rfl

variable (ht : Trimmed base l₀ h l)
include ht

theorem spaceOf?_eq (a : Nat) : h.spaceOf? a = base.spaceOf? a :=
  spaceOf?_congr (congrArg _ ht.nursery_eq) ht.mature_eq ht.large_eq
    (congrArg (·.space.mapping) ht.immortal_eq) a

theorem inCountedSpace_eq (a : Nat) : h.inCountedSpace a = base.inCountedSpace a :=
  inCountedSpace_congr ht.spaceOf?_eq a

-- What is still there is the object that it was.
theorem same (hb : base.Populated l₀) (hr : Room h l kind o bytes) :
    Object.Formed h.types h.memory o bytes ∧ h.refs o = base.refs o := by
  have hword : ∀ a, a % wordBytes = 0 → o < a → a < o + bytes → h.memory.read a = base.memory.read a :=
    fun a _ h1 h2 => ht.word _ _ _ hr a h1 h2
  have hcongr := (hb.formed _ _ _ (ht.room _ _ _ hr)).congr hword
  rw [refs, ht.types_eq]
  exact ⟨hcongr.1, hcongr.2.2⟩

theorem populated (hb : base.Populated l₀) : h.Populated l where
  sound := ht.sound
  formed _ _ _ hr := (ht.same hb hr).1

-- A status word is replaced.
theorem setStatus (hr : Room h l kind o bytes) (hk : kind.isCounted = true) (s : Nat) :
    Trimmed base l₀ (CountedHeap.setStatus h o s) l ∧
      ∀ kind x bytes, Room (CountedHeap.setStatus h o s) l kind x bytes ↔
        Room h l kind x bytes := by
  have hpos := (ht.sound.room_mem hr).2.2.1
  obtain ⟨hsound, hrooms⟩ := ht.sound.write hr (le_refl _) (by omega) s
  refine ⟨{ ht with
    sound := hsound
    room := fun kind x bytes hx => ht.room _ _ _ ((hrooms _ _ _).mp hx)
    word := fun kind x bytes hx a h1 h2 => ?_
    frame := fun a ha => ?_ }, hrooms⟩
  · replace hx := (hrooms _ _ _).mp hx
    refine (Memory.read_write_of_ne (fun hao => ?_) s).trans (ht.word _ _ _ hx a h1 h2)
    subst hao
    rcases ht.sound.room_apart hr hx with ⟨-, rfl, -⟩ | h3 | h3 <;> omega
  · refine (Memory.read_write_of_ne (fun hao => ?_) s).trans (ht.frame a ha)
    subst hao
    rw [← ht.inCountedSpace_eq, ht.sound.inCountedSpace_room hr, hk] at ha
    cases ha

theorem contains_false_of_uncounted {s : Space} (hk : h.space? kind = some s)
    (hcounted : kind.isCounted = true) {a : Nat} (ha : base.inCountedSpace a = false) :
    s.contains a = false := by
  rw [← ht.inCountedSpace_eq, Heap.inCountedSpace_eq] at ha
  rw [Bool.eq_false_iff]
  intro hin
  rw [ht.sound.spaceOf?_eq_some hk hin] at ha
  exact Bool.false_ne_true (ha.symm.trans hcounted)

-- The pool of cells loses one, or blocks that have none.
theorem setMature {c : Cells} {m : Memory} (hc : c.Sound m)
    (hmapping : c.space.mapping = h.mature.space.mapping)
    (hm : ∀ a, h.mature.contains a = false → m.read a = h.memory.read a)
    (hused : ∀ size a, Cells.Used m c.listing size a → Cells.Used h.memory h.mature.listing size a)
    (hword : ∀ size a, Cells.Used m c.listing size a → ∀ b, a ≤ b →
      b < a + SizeClass.bytes size → m.read b = h.memory.read b) :
    Trimmed base l₀ { h with mature := c, memory := m } l ∧
      (∀ kind x bytes, kind ≠ .mature →
        (Room { h with mature := c, memory := m } l kind x bytes ↔ Room h l kind x bytes)) ∧
      ∀ kind x bytes, Room { h with mature := c, memory := m } l kind x bytes →
        Room h l kind x bytes ∧ m.read x = h.memory.read x := by
  obtain ⟨hsound, hother⟩ := ht.sound.setMature hc hmapping hm
  have hmature : h.space? .mature = some h.mature.space := rfl
  have hold : ∀ kind x bytes, Room { h with mature := c, memory := m } l kind x bytes →
      Room h l kind x bytes ∧ ∀ b, x ≤ b → b < x + bytes → m.read b = h.memory.read b := by
    intro kind x bytes hr
    by_cases hk : kind = .mature
    · subst hk
      cases hr with
      | cell hu => exact ⟨.cell (hused _ _ hu), hword _ _ hu⟩
    · have hr' := (hother _ _ _ hk).mp hr
      exact ⟨hr', ht.sound.word_of_other hmature hm hr' hk⟩
  exact ⟨{ ht with
    sound := hsound
    mature_eq := hmapping.trans ht.mature_eq
    room := fun kind x bytes hx => ht.room _ _ _ (hold _ _ _ hx).1
    word := fun kind x bytes hx a h1 h2 =>
      ((hold _ _ _ hx).2 a (le_of_lt h1) h2).trans (ht.word _ _ _ (hold _ _ _ hx).1 a h1 h2)
    frame := fun a ha =>
      (hm a (ht.contains_false_of_uncounted hmature rfl ha)).trans (ht.frame a ha) },
    hother, fun kind x bytes hx => ⟨(hold _ _ _ hx).1, (hold _ _ _ hx).2 x (le_refl _)
      (Nat.lt_add_of_pos_right (hsound.room_mem hx).2.2.1)⟩⟩

-- A small object is freed.
theorem freeCell {size : Nat} (hu : Cells.Used h.memory h.mature.listing size o) :
    ∃ h', CountedHeap.free h o = .ok h' ∧ Trimmed base l₀ h' l ∧
      (∀ kind x bytes, Room h' l kind x bytes ↔ Room h l kind x bytes ∧ x ≠ o) ∧
      ∀ kind x bytes, Room h' l kind x bytes →
        CountedHeap.status h' x = CountedHeap.status h x := by
  have hroom : Room h l .mature o (SizeClass.bytes size) := .cell hu
  obtain ⟨c, m, hfree, hc, hspace, hlisting, hused, hframe⟩ := ht.sound.mature.free hu
  have hmem := fun size' x (hx : Cells.Used m c.listing size' x) => (hused size' x).mp hx
  obtain ⟨ht', hother, hold⟩ := ht.setMature hc (by rw [hspace])
    (fun a ha => hframe a (Or.inl ha)) (fun size' x hx => (hmem size' x hx).1)
    (fun size' x hx b h1 h2 => hframe b (Or.inr
      ((ht.sound.mature.listed.used_mem (hmem size' x hx).1).2.2 b h1 h2)))
  refine ⟨_, ?_, ht', fun kind x bytes => ⟨fun hr => ⟨(hold _ _ _ hr).1, ?_⟩, ?_⟩,
    fun kind x bytes hr => (hold _ _ _ hr).2⟩
  · have hk := ht.sound.spaceOf?_start hroom
    change Heap.free h o = _
    rw [Heap.free, hk]
    simp only [hfree, ok_bind]
  · rintro rfl
    obtain ⟨rfl, -⟩ := ht.sound.room_unique hroom (hold _ _ _ hr).1
    cases hr with
    | cell hx => exact (hmem _ _ hx).2 rfl
  · rintro ⟨hr, hne⟩
    by_cases hk : kind = .mature
    · subst hk
      cases hr with
      | cell hx => exact .cell ((hused _ _).mpr ⟨hx, hne⟩)
    · exact (hother _ _ _ hk).mpr hr

-- A large object is freed.
theorem freeChunk {chunk : Nat} (hchunk : chunk ∈ l.chunks) :
    ∃ h' l', CountedHeap.free h (Chunk.object chunk) = .ok h' ∧ Trimmed base l₀ h' l' ∧
      (∀ kind x bytes, Room h' l' kind x bytes ↔
        Room h l kind x bytes ∧ x ≠ Chunk.object chunk) ∧
      ∀ kind x bytes, Room h' l' kind x bytes →
        CountedHeap.status h' x = CountedHeap.status h x := by
  have hroom : Room h l .large (Chunk.object chunk) _ := .chunk hchunk
  have hchunks : l.chunks = l.unreached := by rw [Layout.chunks, ht.reached_eq, List.append_nil]
  obtain ⟨before, after, hsplit⟩ := List.append_of_mem (hchunks ▸ hchunk)
  have hlarge := ht.sound.large
  rw [ht.reached_eq, hsplit] at hlarge
  obtain ⟨t, m, hfree, ht', hmapping, hmark, hkept⟩ := hlarge.free
  rw [List.append_nil] at hkept
  have hrest : ∀ x, x ∈ before ++ after ↔ x ∈ l.chunks ∧ x ≠ chunk := by
    have hnodup := hlarge.nodup
    rw [List.append_nil, List.nodup_middle, List.nodup_cons] at hnodup
    intro x
    rw [hchunks, hsplit, List.perm_middle.mem_iff, List.mem_cons]
    constructor
    · exact fun hx => ⟨Or.inr hx, fun hxc => hnodup.1 (hxc ▸ hx)⟩
    · exact fun ⟨hx, hne⟩ => hx.resolve_left hne
  obtain ⟨hsound, hrooms, hwords⟩ := ht.sound.keepLarge ht' hmapping hkept
    (fun x hx => ((hrest x).mp hx).1) (List.subset_append_left _ _)
  -- Large objects that are left lie in other chunks.
  have hleft : ∀ {kind x bytes}, Room { h with large := t, memory := m }
      { l with unreached := before ++ after, reached := [] } kind x bytes →
        kind = .large → ∃ c ∈ before ++ after, Chunk.object c = x := by
    rintro kind x bytes hr rfl
    simpa only [Layout.chunks, List.append_nil] using hr.exists_chunk
  have hiff : ∀ kind x bytes, Room { h with large := t, memory := m }
      { l with unreached := before ++ after, reached := [] } kind x bytes ↔
        Room h l kind x bytes ∧ x ≠ Chunk.object chunk := by
    intro kind x bytes
    constructor
    · intro hr
      have hr' := (hrooms _ _ _ (hleft hr)).mp hr
      refine ⟨hr', ?_⟩
      rintro rfl
      obtain ⟨hk, -⟩ := ht.sound.room_unique hr' hroom
      obtain ⟨c, hc, heq⟩ := hleft hr hk
      exact ((hrest c).mp hc).2 (Nat.add_right_cancel heq)
    · rintro ⟨hr, hne⟩
      refine (hrooms _ _ _ ?_).mpr hr
      rintro rfl
      obtain ⟨c, hc, rfl⟩ := hr.exists_chunk
      exact ⟨c, (hrest c).mpr ⟨hc, fun heq => hne (heq ▸ rfl)⟩, rfl⟩
  have hword : ∀ kind x bytes, Room { h with large := t, memory := m }
      { l with unreached := before ++ after, reached := [] } kind x bytes →
        ∀ a, x ≤ a → a < x + bytes → m.read a = h.memory.read a := fun kind x bytes hr =>
    hwords _ _ _ ((hiff _ _ _).mp hr).1 (hleft hr)
  refine ⟨_, _, ?_, { ht with
    sound := hsound
    large_eq := hmapping.trans ht.large_eq
    markState_eq := hmark.trans ht.markState_eq
    reached_eq := rfl
    room := fun kind x bytes hx => ht.room _ _ _ ((hiff _ _ _).mp hx).1
    word := fun kind x bytes hx a h1 h2 => (hword _ _ _ hx a (le_of_lt h1) h2).trans
      (ht.word _ _ _ ((hiff _ _ _).mp hx).1 a h1 h2)
    frame := fun a ha => (hkept.frame a (Or.inl (ht.contains_false_of_uncounted
      (show h.space? .large = some _ from rfl) rfl ha))).trans (ht.frame a ha) },
    hiff, fun kind x bytes hr => hword _ _ _ hr x (le_refl _)
      (Nat.lt_add_of_pos_right (hsound.room_mem hr).2.2.1)⟩
  have hk := ht.sound.spaceOf?_start hroom
  change Heap.free h (Chunk.object chunk) = _
  rw [Heap.free, hk]
  simp only [hfree, ok_bind]

-- A counted object is freed.
theorem free (hr : Room h l kind o bytes) (hk : kind.isCounted = true) :
    ∃ h' l', CountedHeap.free h o = .ok h' ∧ Trimmed base l₀ h' l' ∧
      (∀ kind x bytes, Room h' l' kind x bytes ↔ Room h l kind x bytes ∧ x ≠ o) ∧
      ∀ kind x bytes, Room h' l' kind x bytes →
        CountedHeap.status h' x = CountedHeap.status h x := by
  cases hr with
  | cell hu =>
    obtain ⟨h', hfree⟩ := ht.freeCell hu
    exact ⟨h', l, hfree⟩
  | chunk hc => exact ht.freeChunk hc
  | young _ => cases hk
  | plot _ => cases hk

-- Blocks without objects go back to the space.
theorem reclaim :
    ∃ stats c m, h.mature.reclaim h.memory = .ok (stats, c, m) ∧
      Trimmed base l₀ { h with mature := c, memory := m } l ∧
      (∀ kind x bytes, Room { h with mature := c, memory := m } l kind x bytes ↔
        Room h l kind x bytes) ∧
      ∀ kind x bytes, Room h l kind x bytes → m.read x = h.memory.read x := by
  obtain ⟨stats, c, m, hrun, hc, hmapping, -, hused, hframe⟩ := ht.sound.mature.reclaim
  obtain ⟨ht', hother, hold⟩ := ht.setMature hc hmapping (fun a ha => hframe a (Or.inl ha))
    (fun size a ha => (hused size a).mp ha)
    (fun size a ha b h1 h2 => hframe b (Or.inr ⟨size, a, (hused size a).mp ha, h1, h2⟩))
  have hrooms : ∀ kind x bytes, Room { h with mature := c, memory := m } l kind x bytes ↔
      Room h l kind x bytes := by
    intro kind x bytes
    refine ⟨fun hr => (hold _ _ _ hr).1, fun hr => ?_⟩
    by_cases hk : kind = .mature
    · subst hk
      cases hr with
      | cell hx => exact .cell ((hused _ _).mpr hx)
    · exact (hother _ _ _ hk).mpr hr
  exact ⟨stats, c, m, hrun, ht', hrooms, fun kind x bytes hr =>
    (hold _ _ _ ((hrooms _ _ _).mpr hr)).2⟩

end Trimmed

end Reclaim.Heap
