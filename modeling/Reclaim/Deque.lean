/-!
Sequences that grow at both ends and shrink at the front, without a walk along the whole of them.
What each operation does to `toList` is all that later proofs use.
-/
namespace Reclaim

structure Deque (α : Type) where
  front : List α := []
  -- What follows the front, the last entry first.
  back : List α := []
  size : Nat := 0
  size_eq : size = front.length + back.length := by rfl
deriving Repr

namespace Deque

variable {α : Type}

def toList (d : Deque α) : List α := d.front ++ d.back.reverse

def isEmpty (d : Deque α) : Bool := d.size == 0

def empty : Deque α := ⟨[], [], 0, rfl⟩

def singleton (x : α) : Deque α := { front := [x], size := 1 }

def pushFront (d : Deque α) (x : α) : Deque α :=
  ⟨x :: d.front, d.back, d.size + 1, by have := d.size_eq; simp only [List.length_cons]; omega⟩

def pushBack (d : Deque α) (x : α) : Deque α :=
  ⟨d.front, x :: d.back, d.size + 1, by have := d.size_eq; simp only [List.length_cons]; omega⟩

-- The first entry and the others. When the front is used up, the back turns into the next front.
def popFront? : Deque α → Option (α × Deque α)
  | ⟨x :: front, back, size, size_eq⟩ =>
    some (x, ⟨front, back, size - 1, by simp only [List.length_cons] at size_eq; omega⟩)
  | ⟨[], back, size, size_eq⟩ =>
    match h : back.reverse with
    | [] => none
    | x :: front => some (x, ⟨front, [], size - 1, by
        have := congrArg List.length h
        simp only [List.length_reverse, List.length_cons, List.length_nil] at this size_eq ⊢
        omega⟩)

@[simp] theorem toList_empty : (empty : Deque α).toList = [] := rfl

@[simp] theorem toList_singleton (x : α) : (singleton x).toList = [x] := rfl

@[simp] theorem toList_pushFront (d : Deque α) (x : α) :
    (d.pushFront x).toList = x :: d.toList := rfl

@[simp] theorem toList_pushBack (d : Deque α) (x : α) :
    (d.pushBack x).toList = d.toList ++ [x] := by
  simp [toList, pushBack]

@[simp] theorem length_toList (d : Deque α) : d.toList.length = d.size := by
  simp [toList, d.size_eq]

theorem isEmpty_iff (d : Deque α) : d.isEmpty = true ↔ d.toList = [] := by
  rw [isEmpty, beq_iff_eq, ← length_toList, List.length_eq_zero_iff]

theorem toList_of_popFront? {d e : Deque α} {x : α} (h : d.popFront? = some (x, e)) :
    d.toList = x :: e.toList := by
  rcases d with ⟨_ | ⟨y, front⟩, back, size, size_eq⟩
  · rw [popFront?] at h
    split at h
    · simp at h
    · rename_i hback
      simp only [Option.some.injEq, Prod.mk.injEq] at h
      obtain ⟨rfl, rfl⟩ := h
      simp [toList, hback]
  · simp only [popFront?, Option.some.injEq, Prod.mk.injEq] at h
    obtain ⟨rfl, rfl⟩ := h
    simp [toList]

theorem popFront?_eq_none_iff (d : Deque α) : d.popFront? = none ↔ d.toList = [] := by
  rcases d with ⟨_ | ⟨y, front⟩, back, size, size_eq⟩
  · rw [popFront?]
    split <;> simp_all [toList]
  · simp [popFront?, toList]

end Deque

end Reclaim
