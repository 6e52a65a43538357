import Reclaim.Proofs.Plan.Books

/-!
Islands: counted objects that nobody but each other refers to. What can be reached from a reference
that is held outside of the counted objects lies on no island.
-/
namespace Reclaim

open CountedHeap Counting Heap Trial

structure Island (h : Heap) (r s : Finset Nat) : Prop where
  nonempty : s.Nonempty
  subset : s ⊆ live h r
  cyclic : ∀ x ∈ s, color h x ≠ .green
  count_le : ∀ x ∈ s, count h x ≤ held (h.census r) s x

-- Every island has a candidate.
def Tended (h : Heap) (r : Finset Nat) (c : Collector) : Prop :=
  ∀ s, Island h r s → ∃ x ∈ s, color h x = .purple ∧ x ∈ c.queued

-- One object refers to another, which is counted.
def Leads (h : Heap) (a b : Nat) : Prop := b ∈ h.refs a ∧ h.inCountedSpace b = true

-- References lead from one of `ext` to the object.
def Anchored (h : Heap) (ext : List Nat) (o : Nat) : Prop :=
  ∃ a ∈ ext, h.inCountedSpace a = true ∧ Relation.ReflTransGen (Leads h) a o

variable {h h' : Heap} {r r' s : Finset Nat} {ext ext' : List Nat} {c c' : Collector} {o x : Nat}

namespace Books

variable (hb : Books h r ext c)
include hb

theorem live_of_leads {a b : Nat} (ha : a ∈ live h r) (hl : Leads h a b) : b ∈ live h r := by
  have hr := hb.closed a ha b hl.1 hl.2
  have hheld : 0 < held (h.census r) (live h r) b :=
    (List.count_pos_iff.mpr hl.1).trans_le (le_held (k := h.census r) ha b)
  have := hb.count_eq b hr
  exact mem_live.mpr ⟨hr, by omega⟩

theorem live_of_anchored (ho : Anchored h ext o) : o ∈ live h r := by
  obtain ⟨a, ha, hc, hpath⟩ := ho
  induction hpath with
  | refl => exact mem_live.mpr (hb.mem_of_pos ha hc)
  | tail _ hl ih => exact hb.live_of_leads ih hl

end Books

namespace Anchored

theorem of_mem (ho : o ∈ ext) (hc : h.inCountedSpace o = true) : Anchored h ext o :=
  ⟨o, ho, hc, .refl⟩

theorem tail {a b : Nat} (ha : Anchored h ext a) (hl : Leads h a b) : Anchored h ext b := by
  obtain ⟨x, hx, hc, hpath⟩ := ha
  exact ⟨x, hx, hc, hpath.tail hl⟩

-- References may go as long as what they led to is held in another way.
theorem trans {ext₀ : List Nat} (hb : Books h r ext₀ c) (hsub : ∀ a ∈ ext, a ∈ ext₀)
    (hext : ∀ a ∈ ext, h.inCountedSpace a = true → Anchored h' ext' a)
    (hleads : ∀ a ∈ live h r, ∀ b, Leads h a b → Leads h' a b ∨ Anchored h' ext' b)
    (ho : Anchored h ext o) : Anchored h' ext' o := by
  obtain ⟨a, ha, hc, hpath⟩ := ho
  have hall : o ∈ live h r ∧ Anchored h' ext' o := by
    induction hpath with
    | refl => exact ⟨mem_live.mpr (hb.mem_of_pos (hsub a ha) hc), hext a ha hc⟩
    | tail _ hl ih =>
      exact ⟨hb.live_of_leads ih.1 hl, (hleads _ ih.1 _ hl).elim (fun hl' => ih.2.tail hl') id⟩
  exact hall.2

-- Nothing is lost when all objects keep what they refer to.
theorem mono {ext₀ : List Nat} (hb : Books h r ext₀ c) (hsub : ∀ a ∈ ext, a ∈ ext₀)
    (hext : ∀ a ∈ ext, a ∈ ext')
    (hspace : ∀ a, h'.inCountedSpace a = h.inCountedSpace a)
    (hrefs : ∀ a ∈ r, h'.refs a = h.refs a) (ho : Anchored h ext o) : Anchored h' ext' o := by
  refine ho.trans hb hsub (fun a ha hc => .of_mem (hext a ha) ((hspace a).trans hc)) fun a ha b hl =>
    Or.inl ⟨?_, (hspace b).trans hl.2⟩
  rw [hrefs a (mem_live.mp ha).1]
  exact hl.1

-- What is still there leads where it led.
theorem trim (hb : Books h' r' ext c) (hspace : ∀ a, h'.inCountedSpace a = h.inCountedSpace a)
    (hrefs : ∀ a ∈ r', h'.refs a = h.refs a) (ho : Anchored h ext o) : Anchored h' ext o := by
  obtain ⟨a, ha, hc, hpath⟩ := ho
  induction hpath with
  | refl => exact .of_mem ha ((hspace _).trans hc)
  | tail _ hl ih =>
    refine ih.tail ⟨?_, (hspace _).trans hl.2⟩
    rw [hrefs _ (mem_live.mp (hb.live_of_anchored ih)).1]
    exact hl.1

end Anchored

namespace Island

theorem mem (hi : Island h r s) (hx : x ∈ s) : x ∈ r ∧ 0 < count h x := mem_live.mp (hi.subset hx)

-- Nothing that is anchored lies on an island.
theorem not_mem_of_anchored (hb : Books h r ext c) (hi : Island h r s) (ho : Anchored h ext o) :
    o ∉ s := by
  obtain ⟨a, ha, hc, hpath⟩ := ho
  have hall : o ∈ live h r ∧ o ∉ s := by
    induction hpath with
    | refl =>
      refine ⟨mem_live.mpr (hb.mem_of_pos ha hc), fun hs => ?_⟩
      have h1 := hi.count_le a hs
      have h2 := hb.count_eq a (hi.mem hs).1
      have h3 := held_mono (k := h.census r) hi.subset a
      have h4 := List.count_pos_iff.mpr ha
      omega
    | @tail p q _ hl ih =>
      have hq := hb.live_of_leads ih.1 hl
      refine ⟨hq, fun hs => ?_⟩
      have hsub : insert p s ⊆ live h r := Finset.insert_subset ih.1 hi.subset
      have h1 := hi.count_le q hs
      have h2 := hb.count_eq q (mem_live.mp hq).1
      have h3 := held_mono (k := h.census r) hsub q
      have h4 : 0 < ((h.census r).references p).count q := List.count_pos_iff.mpr hl.1
      rw [held, Finset.sum_insert ih.2] at h3
      rw [held] at h1
      omega
  exact hall.2

-- Objects that have not changed and that were there before.
theorem congr (hi : Island h' r' s) (hmem : ∀ x ∈ s, x ∈ r)
    (hstatus : ∀ x ∈ s, status h' x = status h x) (hrefs : ∀ x ∈ s, h'.refs x = h.refs x) :
    Island h r s where
  nonempty := hi.nonempty
  subset x hx := by
    have hpos := (hi.mem hx).2
    rw [Books.count_congr (hstatus x hx)] at hpos
    exact mem_live.mpr ⟨hmem x hx, hpos⟩
  cyclic x hx := by
    rw [← Books.color_congr (hstatus x hx)]
    exact hi.cyclic x hx
  count_le x hx := by
    rw [← Books.count_congr (hstatus x hx)]
    exact (hi.count_le x hx).trans_eq
      (Finset.sum_congr rfl fun p hp => congrArg (List.count x) (hrefs p hp))

end Island

-- Islands as decrements and cycle collection see them.
theorem tended_iff {k : Census} (hgreen : ∀ x ∈ r, color h x = .green ↔ k.isGreen x = true)
    (hrefs : ∀ x ∈ r, h.refs x = k.references x) : Tended h r c ↔ Counting.Tended k h r c := by
  have hmem : ∀ {s : Finset Nat}, s ⊆ live h r → ∀ x ∈ s, x ∈ r := fun hs x hx =>
    (mem_live.mp (hs hx)).1
  have hheld : ∀ {s : Finset Nat}, s ⊆ live h r → ∀ x, held (h.census r) s x = held k s x :=
    fun hs x => Finset.sum_congr rfl fun o ho => congrArg (List.count x) (hrefs o (hmem hs o ho))
  have hcolor : ∀ x ∈ r, color h x ≠ .green ↔ k.isGreen x = false := fun x hx => by
    rw [Ne, hgreen x hx, Bool.not_eq_true]
  have hiff : ∀ s, Island h r s ↔ Isolated k h r s := fun s =>
    ⟨fun hi => ⟨hi.nonempty, hi.subset, fun x hx => (hcolor x (hmem hi.subset x hx)).mp
      (hi.cyclic x hx), fun x hx => (hi.count_le x hx).trans_eq (hheld hi.subset x)⟩,
    fun hi => ⟨hi.nonempty, hi.subset, fun x hx => (hcolor x (hmem hi.subset x hx)).mpr
      (hi.cyclic x hx), fun x hx => (hi.count_le x hx).trans_eq (hheld hi.subset x).symm⟩⟩
  exact forall_congr' fun s => imp_congr_left (hiff s)

-- Candidates stay candidates where nothing has changed.
theorem Tended.congr (ht : Tended h r c) (hmem : ∀ s, Island h' r' s → ∀ x ∈ s, x ∈ r)
    (hstatus : ∀ s, Island h' r' s → ∀ x ∈ s, status h' x = status h x)
    (hrefs : ∀ s, Island h' r' s → ∀ x ∈ s, h'.refs x = h.refs x)
    (hqueued : ∀ x ∈ c.queued, x ∈ c'.queued) : Tended h' r' c' := by
  intro s hi
  obtain ⟨x, hx, hp, hq⟩ := ht s (hi.congr (hmem s hi) (hstatus s hi) (hrefs s hi))
  exact ⟨x, hx, (Books.color_congr (hstatus s hi x hx)).trans hp, hqueued x hq⟩

end Reclaim
