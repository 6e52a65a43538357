import Reclaim.Proofs.Heap.Trimming
import Reclaim.Proofs.Trial.Ledger

/-!
A heap as decrements and trial deletion see it: the counted objects with the references that they
held when the collection began.
-/
namespace Reclaim.Heap

open Sizes Trial

variable {h base : Heap} {l l₀ : Layout} {k : Census} {r : Finset Nat} {o : Nat}

-- `r` is the set of the counted objects.
def Roll (h : Heap) (l : Layout) (r : Finset Nat) : Prop :=
  ∀ o, o ∈ r ↔ ∃ kind bytes, kind.isCounted = true ∧ Room h l kind o bytes

-- A reference into a counted space can be followed.
def Aligned (h : Heap) (l : Layout) : Prop :=
  ∀ kind o bytes, Room h l kind o bytes → ∀ x ∈ h.refs o, h.inCountedSpace x = true →
    x % wordBytes = 0

-- The counted objects as they stand.
def census (h : Heap) (r : Finset Nat) : Census where
  objects := r
  references := h.refs
  isCounted := h.inCountedSpace
  isGreen o := CountedHeap.color h o == .green
  count := CountedHeap.count h

theorem isCounted_eq (ha : h.inCountedSpace o = true → o % wordBytes = 0) :
    CountedHeap.isCounted h o = .ok (h.inCountedSpace o) := by
  change Heap.isCounted h o = _
  unfold Heap.isCounted
  cases hc : h.inCountedSpace o with
  | true => simp only [if_true, Object.check, ha hc, ok_bind]
  | false => rfl

-- Objects of a space lie on word boundaries of their own.
theorem card_le_words {s : Space} (hstart : s.start % wordBytes = 0) {t : Finset Nat}
    (ht : ∀ o ∈ t, o % wordBytes = 0 ∧ s.contains o = true) (hextent : s.extent % wordBytes = 0) :
    t.card ≤ s.extent / wordBytes := by
  rw [← Finset.card_range (s.extent / wordBytes)]
  refine Finset.card_le_card_of_injOn (fun o => (o - s.start) / wordBytes) (fun o ho => ?_)
    fun o ho o' ho' heq => ?_
  · obtain ⟨hmod, hin⟩ := ht o ho
    rw [Space.contains_iff, Space.stop] at hin
    simp only [wordBytes, Finset.coe_range, Set.mem_Iio] at hstart hmod hextent ⊢
    omega
  · obtain ⟨hmod, hin⟩ := ht o ho
    obtain ⟨hmod', hin'⟩ := ht o' ho'
    rw [Space.contains_iff, Space.stop] at hin hin'
    simp only [wordBytes] at hstart hmod hmod' hextent heq
    omega

-- Objects lie on word boundaries of their own, whichever of the spaces they lie in.
theorem card_le_spaces {spaces : List Space}
    (hspaces : ∀ s ∈ spaces, s.start % wordBytes = 0 ∧ s.extent % wordBytes = 0) {r : Finset Nat}
    (hr : ∀ o ∈ r, o % wordBytes = 0 ∧ ∃ s ∈ spaces, s.contains o = true) (acc : Nat) :
    acc + r.card ≤ (spaces.map fun s => s.extent / wordBytes).foldl (· + ·) acc := by
  induction spaces generalizing r acc with
  | nil =>
    have hempty : r = ∅ := Finset.eq_empty_of_forall_notMem fun o ho => by
      obtain ⟨-, s, hs, -⟩ := hr o ho
      exact List.not_mem_nil hs
    rw [hempty]
    exact le_refl _
  | cons s rest ih =>
    have hsplit := Finset.card_filter_add_card_filter_not (s := r) (s.contains · = true)
    obtain ⟨hstart, hextent⟩ := hspaces s List.mem_cons_self
    have hfirst : (r.filter (s.contains · = true)).card ≤ s.extent / wordBytes :=
      card_le_words hstart (fun o ho => by
        rw [Finset.mem_filter] at ho
        exact ⟨(hr o ho.1).1, ho.2⟩) hextent
    have hrest := ih (fun s hs => hspaces s (List.mem_cons_of_mem _ hs))
      (r := r.filter (¬s.contains · = true)) (fun o ho => by
        rw [Finset.mem_filter] at ho
        obtain ⟨hmod, s', hs', hin⟩ := hr o ho.1
        rcases List.mem_cons.mp hs' with rfl | hs'
        · exact absurd hin ho.2
        · exact ⟨hmod, s', hs', hin⟩) (acc + s.extent / wordBytes)
    rw [List.map_cons, List.foldl_cons]
    omega

-- There are never more objects than fit into the spaces.
theorem Sound.card_le_maxObjects (hs : h.Sound l)
    (hr : ∀ o ∈ r, ∃ kind bytes, Room h l kind o bytes) : r.card ≤ h.maxObjects := by
  have hspaces : ∀ s ∈ h.spaces, s.start % wordBytes = 0 ∧ s.extent % wordBytes = 0 := by
    intro s hin
    rcases List.mem_append.mp hin with hin | hin
    · exact (hs.nursery s (Option.mem_toList.mp hin)).space.words
    · simp only [List.mem_cons, List.not_mem_nil, or_false] at hin
      rcases hin with rfl | rfl | rfl
      · exact hs.mature.listed.space.words
      · exact hs.large.space.words
      · exact hs.immortal.space.words
  have hcard := card_le_spaces hspaces (r := r) (fun o ho => by
    obtain ⟨kind, bytes, hroom⟩ := hr o ho
    obtain ⟨hmod, -, -, s, hs', -⟩ := hs.room_mem hroom
    exact ⟨hmod, s, mem_spaces hs', hs.contains_start hs' hroom⟩) 0
  rwa [Nat.zero_add] at hcard

theorem bound_le_maxSlots (h : Heap) : Word.bound ≤ h.maxSlots := by
  have hfold : ∀ (infos : List TypeInfo) (n : Nat),
      n ≤ infos.foldl (fun n info => max n info.offsets.length) n := by
    intro infos
    induction infos with
    | nil => exact fun n => le_refl n
    | cons info rest ih => exact fun n => le_trans (le_max_left _ _) (ih _)
  exact hfold _ _

namespace Populated

variable (hp : h.Populated l)
include hp

-- No object has more references than memory has words.
theorem length_refs_lt {kind : SpaceKind} {bytes : Nat} (hr : Room h l kind o bytes) :
    (h.refs o).length < Word.bound := by
  have hf := hp.formed _ _ _ hr
  have hle : (h.refs o).length ≤ (Object.slotsOf h.types h.memory o).length := by
    rw [refs, Object.refs]
    exact (List.length_filter_le _ _).trans (by rw [List.length_map])
  have hslots : (Object.slotsOf h.types h.memory o).toFinset ⊆ Finset.Ico o (o + bytes) :=
    fun slot hs => by
      have hmem := hf.slot_mem (List.mem_toFinset.mp hs)
      simp only [Types.scalarHeaderBytes, wordBytes] at hmem
      exact Finset.mem_Ico.mpr ⟨by omega, by omega⟩
  have hcard := Finset.card_le_card hslots
  rw [List.toFinset_card_of_nodup hf.nodup_slotsOf, Nat.card_Ico, Nat.add_sub_cancel_left] at hcard
  have := hf.top
  omega

-- The loops over the heap are given enough steps.
theorem sum_refs_le (hr : Roll h l r) :
    ∑ o ∈ r, (h.refs o).length ≤ h.maxObjects * h.maxSlots := by
  have hcard : r.card ≤ h.maxObjects := hp.sound.card_le_maxObjects fun o ho =>
    let ⟨kind, bytes, _, hroom⟩ := (hr o).mp ho
    ⟨kind, bytes, hroom⟩
  calc ∑ o ∈ r, (h.refs o).length
      ≤ ∑ _o ∈ r, h.maxSlots := Finset.sum_le_sum fun o ho => by
        obtain ⟨kind, bytes, -, hroom⟩ := (hr o).mp ho
        exact (hp.length_refs_lt hroom).le.trans (bound_le_maxSlots h)
    _ = r.card * h.maxSlots := Finset.sum_const_nat fun _ _ => rfl
    _ ≤ h.maxObjects * h.maxSlots := Nat.mul_le_mul_right _ hcard

end Populated

-- `h` is left of `base`, with the counted objects `r`.
structure Shown (base : Heap) (l₀ : Layout) (h : Heap) (k : Census) (r : Finset Nat)
    (l : Layout) : Prop where
  populated : base.Populated l₀
  aligned : base.Aligned l₀
  trimmed : Trimmed base l₀ h l
  roll : Roll h l r
  references : ∀ o ∈ r, k.references o = base.refs o
  isCounted : ∀ o, k.isCounted o = base.inCountedSpace o

namespace Shown

variable (hs : Shown base l₀ h k r l)
include hs

theorem exists_room (ho : o ∈ r) :
    ∃ kind bytes, kind.isCounted = true ∧ Room h l kind o bytes := (hs.roll o).mp ho

theorem inCountedSpace_of_mem (ho : o ∈ r) : base.inCountedSpace o = true := by
  obtain ⟨kind, bytes, hk, hr⟩ := hs.exists_room ho
  rw [← hs.trimmed.inCountedSpace_eq, hs.trimmed.sound.inCountedSpace_room hr, hk]

theorem isCounted_ok (ha : base.inCountedSpace o = true → o % wordBytes = 0) :
    CountedHeap.isCounted h o = .ok (k.isCounted o) := by
  rw [isCounted_eq (fun hc => ha (hs.trimmed.inCountedSpace_eq o ▸ hc)),
    hs.trimmed.inCountedSpace_eq, hs.isCounted]

theorem aligned_of_mem (ho : o ∈ r) : o % wordBytes = 0 := by
  obtain ⟨kind, bytes, -, hr⟩ := hs.exists_room ho
  exact (hs.trimmed.sound.room_mem hr).1

theorem refs_eq (ho : o ∈ r) : h.refs o = k.references o := by
  obtain ⟨kind, bytes, -, hr⟩ := hs.exists_room ho
  rw [(hs.trimmed.same hs.populated hr).2, hs.references o ho]

theorem setStatus (ho : o ∈ r) (s : Nat) :
    Shown base l₀ (CountedHeap.setStatus h o s) k r l := by
  obtain ⟨kind, bytes, hk, hr⟩ := hs.exists_room ho
  obtain ⟨ht, hrooms⟩ := hs.trimmed.setStatus hr hk s
  exact { hs with
    trimmed := ht
    roll := fun x => (hs.roll x).trans (exists_congr fun kind => exists_congr fun bytes =>
      and_congr_right fun _ => (hrooms kind x bytes).symm) }

theorem free (ho : o ∈ r) : ∃ h' l', CountedHeap.free h o = .ok h' ∧
    Shown base l₀ h' k (r.erase o) l' ∧
    ∀ x ∈ r.erase o, CountedHeap.status h' x = CountedHeap.status h x := by
  obtain ⟨kind, bytes, hk, hr⟩ := hs.exists_room ho
  obtain ⟨h', l', hfree, ht, hrooms, hstatus⟩ := hs.trimmed.free hr hk
  have hroll : Roll h' l' (r.erase o) := by
    intro x
    rw [Finset.mem_erase, hs.roll]
    constructor
    · rintro ⟨hne, kind, bytes, hk, hx⟩
      exact ⟨kind, bytes, hk, (hrooms _ _ _).mpr ⟨hx, hne⟩⟩
    · rintro ⟨kind, bytes, hk, hx⟩
      obtain ⟨hx, hne⟩ := (hrooms _ _ _).mp hx
      exact ⟨hne, kind, bytes, hk, hx⟩
  refine ⟨h', l', hfree, { hs with
    trimmed := ht
    roll := hroll
    references := fun x hx => hs.references x (Finset.mem_of_mem_erase hx) }, fun x hx => ?_⟩
  obtain ⟨kind, bytes, -, hx⟩ := (hroll x).mp hx
  exact hstatus _ _ _ hx

end Shown

-- A heap may be taken for a census of its counted objects as long as it is left of `base`.
def lawful (base : Heap) (l₀ : Layout) : Lawful Heap where
  keeps := false
  Shows h k r := ∃ l, Shown base l₀ h k r l
  references_eq := by
    rintro h k r o ⟨l, hs⟩ ho
    obtain ⟨kind, bytes, -, hr⟩ := hs.exists_room ho
    rw [← hs.refs_eq ho]
    exact (hs.trimmed.populated hs.populated).references_ok hr
  isCounted_eq := by
    rintro h k r o c ⟨l, hs⟩ ho hc
    obtain ⟨kind, bytes, -, hr⟩ := hs.exists_room ho
    refine hs.isCounted_ok fun hcounted => hs.aligned _ _ _ (hs.trimmed.room _ _ _ hr) c ?_ hcounted
    rwa [← hs.references o ho]
  isCounted_self := by
    rintro h k r o ⟨l, hs⟩ ho
    rw [hs.isCounted_ok fun _ => hs.aligned_of_mem ho, hs.isCounted, hs.inCountedSpace_of_mem ho]
  isCounted_false := by
    rintro h k r c ⟨l, hs⟩ hc
    rw [hs.isCounted_ok fun hcounted => ?_, hc]
    rw [← hs.isCounted, hc] at hcounted
    cases hcounted
  status_setStatus := by
    rintro h k r o x - - - s
    by_cases hxo : x = o
    · subst hxo
      rw [if_pos rfl]
      exact Memory.read_write_self _ _ _
    · rw [if_neg hxo]
      exact Memory.read_write_of_ne hxo s
  shows_setStatus := by
    rintro h k r o ⟨l, hs⟩ ho s
    exact ⟨l, hs.setStatus ho s⟩
  recount := by
    rintro h k r ⟨l, hs⟩ objects count
    exact ⟨l, { hs with }⟩
  free_ok := by
    rintro h k r o ⟨l, hs⟩ ho
    obtain ⟨h', l', hfree, hs', hstatus⟩ := hs.free ho
    exact ⟨h', hfree, ⟨l', hs'⟩, hstatus⟩
  sum_le_extent := by
    rintro h k r ⟨l, hs⟩
    rw [← Finset.sum_congr rfl fun o ho => congrArg List.length (hs.refs_eq ho)]
    exact (hs.trimmed.populated hs.populated).sum_refs_le hs.roll

@[simp] theorem lawful_keeps (base : Heap) (l₀ : Layout) : (lawful base l₀).keeps = false := rfl

end Reclaim.Heap
