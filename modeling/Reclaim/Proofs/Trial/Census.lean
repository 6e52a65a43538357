import Mathlib.Algebra.Order.BigOperators.Group.Finset
import Mathlib.Logic.Relation
import Mathlib.Tactic.Linarith
import Reclaim.Trial.Traversal

/-!
What trial deletion finds when it starts: the objects, the references between them and their counts.
The references never change while it runs, so all later states are described against this one.
-/
namespace Reclaim.Trial

structure Census where
  objects : Finset Nat
  references : Nat → List Nat
  isCounted : Nat → Bool
  isGreen : Nat → Bool
  count : Nat → Nat

namespace Census

variable (k : Census)

-- References to an object are followed if it is counted and may lie on a cycle.
def follows (c : Nat) : Bool := k.isCounted c && !k.isGreen c

def traced (o : Nat) : List Nat := (k.references o).filter k.follows

-- The references to acyclic objects.
def greens (o : Nat) : List Nat :=
  (k.references o).filter fun c => k.isCounted c && k.isGreen c

-- How many followed references to `x` the objects of `s` hold.
def held (s : Finset Nat) (x : Nat) : Nat := ∑ o ∈ s, (k.traced o).count x

-- Objects on which trial deletion may act at all.
def live : Finset Nat := k.objects.filter fun o => k.isGreen o = false ∧ 0 < k.count o

def Edge (o c : Nat) : Prop := c ∈ k.traced o

def Reach : Nat → Nat → Prop := Relation.ReflTransGen k.Edge

-- Every followed reference is counted where it leads to.
structure Consistent : Prop where
  held_le : ∀ x ∈ k.objects, k.held k.live x ≤ k.count x
  closed : ∀ o ∈ k.live, ∀ c ∈ k.references o, k.isCounted c = true → c ∈ k.objects
  word : ∀ x ∈ k.objects, k.count x < 2 ^ 56

-- A chain of followed references inside `s`.
def Linked (s : Finset Nat) (o x : Nat) : Prop :=
  o ∈ s ∧ Relation.ReflTransGen (fun a b => b ∈ k.traced a ∧ b ∈ s) o x

-- Only the objects of `s` hold references to them.
def Garbage (s : Finset Nat) : Prop := ∀ z ∈ s, k.count z ≤ k.held s z

-- Nothing outside of `s` is held by `s` alone.
def Complete (s : Finset Nat) : Prop := ∀ x ∈ k.live, x ∉ s → k.held s x < k.count x

variable {k}

theorem mem_traced {o c : Nat} :
    c ∈ k.traced o ↔ c ∈ k.references o ∧ k.isCounted c = true ∧ k.isGreen c = false := by
  simp [traced, follows]

theorem mem_greens {o c : Nat} :
    c ∈ k.greens o ↔ c ∈ k.references o ∧ k.isCounted c = true ∧ k.isGreen c = true := by
  simp [greens]

theorem length_traced_le (o : Nat) : (k.traced o).length ≤ (k.references o).length :=
  List.length_filter_le _ _

theorem mem_live {o : Nat} :
    o ∈ k.live ↔ o ∈ k.objects ∧ k.isGreen o = false ∧ 0 < k.count o := by
  simp [live]

-- Of references that are told apart by where they lead to, all of those to `x` are taken or none.
theorem sum_filter (p : Nat → Bool) (s : Finset Nat) (x : Nat) :
    ∑ o ∈ s, ((k.references o).filter p).count x =
      if p x = true then ∑ o ∈ s, (k.references o).count x else 0 := by
  split_ifs with hp
  · exact Finset.sum_congr rfl fun o _ => List.count_filter hp
  · exact Finset.sum_eq_zero fun o _ => List.count_eq_zero.mpr fun hx => hp (List.mem_filter.mp hx).2

theorem held_eq (s : Finset Nat) (x : Nat) :
    k.held s x = if k.follows x = true then ∑ o ∈ s, (k.references o).count x else 0 :=
  sum_filter k.follows s x

theorem sum_greens (s : Finset Nat) (x : Nat) : ∑ o ∈ s, (k.greens o).count x =
    if (k.isCounted x && k.isGreen x) = true then ∑ o ∈ s, (k.references o).count x else 0 :=
  sum_filter _ s x

theorem held_green (s : Finset Nat) {x : Nat} (hx : k.isGreen x = true) : k.held s x = 0 := by
  rw [held_eq, if_neg (by simp [follows, hx])]

@[simp] theorem held_empty (x : Nat) : k.held ∅ x = 0 := by simp [held]

theorem held_mono {s t : Finset Nat} (h : s ⊆ t) (x : Nat) : k.held s x ≤ k.held t x :=
  Finset.sum_le_sum_of_subset h

-- Objects that hold no reference to `x` make no difference.
theorem held_eq_of_subset {s t : Finset Nat} {x : Nat} (h : s ⊆ t)
    (hout : ∀ o ∈ t, o ∉ s → x ∉ k.traced o) : k.held s x = k.held t x :=
  Finset.sum_subset h fun o ho hs => List.count_eq_zero.mpr (hout o ho hs)

theorem held_insert {s : Finset Nat} {o : Nat} (h : o ∉ s) (x : Nat) :
    k.held (insert o s) x = k.held s x + (k.traced o).count x := by
  rw [held, Finset.sum_insert h, Nat.add_comm, held]

theorem held_erase {s : Finset Nat} {o : Nat} (h : o ∈ s) (x : Nat) :
    k.held (s.erase o) x + (k.traced o).count x = k.held s x :=
  Finset.sum_erase_add _ _ h

theorem held_union {s t : Finset Nat} (h : Disjoint s t) (x : Nat) :
    k.held (s ∪ t) x = k.held s x + k.held t x :=
  Finset.sum_union h

theorem held_pos {s : Finset Nat} {o x : Nat} (ho : o ∈ s) (hx : x ∈ k.traced o) :
    0 < k.held s x := by
  have hc : 0 < (k.traced o).count x := List.count_pos_iff.mpr hx
  have hs := k.held_erase ho x
  omega

theorem exists_holder {s : Finset Nat} {x : Nat} (h : 0 < k.held s x) :
    ∃ o ∈ s, x ∈ k.traced o := by
  by_contra hn
  have hz : k.held s x = 0 := Finset.sum_eq_zero fun o ho =>
    List.count_eq_zero.mpr fun hx => hn ⟨o, ho, hx⟩
  omega

namespace Linked

variable {s t : Finset Nat} {o p x : Nat}

theorem refl (h : o ∈ s) : k.Linked s o o := ⟨h, .refl⟩

theorem mem (h : k.Linked s o x) : x ∈ s := by
  obtain ⟨ho, hr⟩ := h
  cases hr with
  | refl => exact ho
  | tail _ he => exact he.2

theorem mono (hst : s ⊆ t) (h : k.Linked s o x) : k.Linked t o x :=
  ⟨hst h.1, Relation.ReflTransGen.mono (fun _ _ he => ⟨he.1, hst he.2⟩) _ _ h.2⟩

theorem tail (h : k.Linked s o p) (hx : x ∈ k.traced p) (hs : x ∈ s) : k.Linked s o x :=
  ⟨h.1, h.2.tail ⟨hx, hs⟩⟩

theorem reach (h : k.Linked s o x) : k.Reach o x :=
  Relation.ReflTransGen.mono (fun _ _ he => he.1) _ _ h.2

-- When what leaves `s` takes along all that it leads to, the chains to what stays are kept.
theorem shrink (hout : ∀ y ∈ s, y ∉ t → ∀ c ∈ k.traced y, c ∉ t) (h : k.Linked s o x)
    (hx : x ∈ t) : k.Linked t o x := by
  obtain ⟨ho, hr⟩ := h
  induction hr with
  | refl => exact refl hx
  | @tail y z hry he ih =>
    have hys : y ∈ s := Linked.mem ⟨ho, hry⟩
    by_cases hy : y ∈ t
    · exact (ih hy).tail he.1 hx
    · exact absurd hx (hout y hys hy z he.1)

end Linked

namespace Consistent

variable (hk : k.Consistent)
include hk

theorem mem_live_of_traced {o c : Nat} (ho : o ∈ k.live) (hc : c ∈ k.traced o) : c ∈ k.live := by
  have hobj := hk.closed o ho c (mem_traced.mp hc).1 (mem_traced.mp hc).2.1
  have hpos := k.held_pos ho hc
  have hle := hk.held_le c hobj
  exact mem_live.mpr ⟨hobj, (mem_traced.mp hc).2.2, by omega⟩

theorem mem_live_of_reach {o x : Nat} (ho : o ∈ k.live) (h : k.Reach o x) : x ∈ k.live := by
  induction h with
  | refl => exact ho
  | tail _ he ih => exact hk.mem_live_of_traced ih he

-- Sets of live objects that have nothing in common hold no more references than are counted.
theorem held_add_le {s t : Finset Nat} (hs : s ⊆ k.live) (ht : t ⊆ k.live) (hst : Disjoint s t)
    {x : Nat} (hx : x ∈ k.objects) : k.held s x + k.held t x ≤ k.count x := by
  rw [← k.held_union hst]
  exact (k.held_mono (Finset.union_subset hs ht) x).trans (hk.held_le x hx)

-- No reference leads into garbage from outside.
theorem not_mem_of_traced {s : Finset Nat} (hs : s ⊆ k.live) (hg : k.Garbage s) {o c : Nat}
    (ho : o ∈ k.live) (hos : o ∉ s) (hc : c ∈ k.traced o) : c ∉ s := by
  intro hcs
  have hle := hk.held_le c (mem_live.mp (hs hcs)).1
  have hin := k.held_mono (Finset.insert_subset ho hs) c
  have hpos : 0 < (k.traced o).count c := List.count_pos_iff.mpr hc
  have hz := hg c hcs
  rw [k.held_insert hos] at hin
  omega

theorem not_mem_of_reach {s : Finset Nat} (hs : s ⊆ k.live) (hg : k.Garbage s) {o x : Nat}
    (ho : o ∈ k.live) (hos : o ∉ s) (h : k.Reach o x) : x ∉ s := by
  induction h with
  | refl => exact hos
  | tail hr he ih => exact hk.not_mem_of_traced hs hg (hk.mem_live_of_reach ho hr) ih he

end Consistent

end Census

end Reclaim.Trial
