import Reclaim.Immortal
import Reclaim.Proofs.Memory
import Reclaim.Proofs.Worklist

/-!
Marks of immortal objects over many collections. The mark bit of an object that a collection does
not visit keeps its value while the meaning of the bit turns over, so whether a visit finds the
object unmarked hangs on how many collections began since it was last visited, and not on the last
one alone.
-/
namespace Reclaim.Immortal

open Sizes

-- What can happen to the space, one after the other.
inductive Event where
  -- A collection begins.
  | prepare
  -- A new object, its header written as that of every new object.
  | create (o : Nat)
  -- A collection visits an object.
  | visit (o : Nat)
deriving DecidableEq, Repr

def step (s : Immortal × Memory) : Event → Except Fault (Immortal × Memory)
  | .prepare => .ok (s.1.prepare, s.2)
  | .create o => .ok (s.1, Object.setStatus s.2 o (Status.initial s.1.markState .black 0))
  | .visit o => do .ok (s.1, (← s.1.testAndMark s.2 o).2)

def replay (s : Immortal × Memory) (history : List Event) : Except Fault (Immortal × Memory) :=
  history.foldlM step s

-- How many collections began since an object was created or visited, nothing before its creation.
def stepAge (o : Nat) (age : Option Nat) : Event → Option Nat
  | .prepare => age.map (· + 1)
  | .create p => if p = o then some 0 else age
  | .visit p => if p = o then age.map fun _ => 0 else age

def age (o : Nat) (history : List Event) : Option Nat := history.foldl (stepAge o) none

-- Every second collection that passes an object over leaves it looking marked.
def Agrees (s : Immortal × Memory) (o : Nat) (age : Option Nat) : Prop :=
  ∀ n, age = some n → Status.isMarked (Object.status s.2 o) s.1.markState = (n % 2 == 0)

theorem isMarked_not (s : Nat) (state : Bool) :
    Status.isMarked s (!state) = !Status.isMarked s state := by
  simp only [Status.isMarked]
  cases Status.mark s <;> cases state <;> rfl

theorem isMarked_initial (state : Bool) (color : Color) (count : Nat) :
    Status.isMarked (Status.initial state color count) state = true := by
  have hcount : Status.countUnit * count % Word.bound % 8 = 0 := by
    rw [show Word.bound = 8 * 2 ^ 61 from rfl, Nat.mod_mul_right_mod, Status.countUnit]
    omega
  have hmark : Status.mark (Status.initial state color count) = state := by
    simp only [Status.mark, Status.initial]
    generalize Status.countUnit * count % Word.bound = rest at hcount
    cases state
    · simp only [Bool.false_eq_true, if_false, beq_eq_false_iff_ne]
      omega
    · simp only [if_true, beq_iff_eq]
      omega
  simp only [Status.isMarked, hmark, beq_self_eq_true]

theorem isMarked_flipMark (s : Nat) (state : Bool) :
    Status.isMarked (Status.flipMark s) state = !Status.isMarked s state := by
  have hflip : Status.mark (Status.flipMark s) = !Status.mark s := by
    simp only [Status.flipMark]
    cases h : Status.mark s <;> simp only [Status.mark, beq_iff_eq, beq_eq_false_iff_ne] at h <;>
      simp only [Bool.false_eq_true, if_true, if_false, Status.mark, Bool.not_true, Bool.not_false,
        beq_iff_eq, beq_eq_false_iff_ne] <;> omega
  simp only [Status.isMarked, hflip]
  cases Status.mark s <;> cases state <;> rfl

-- A visit answers whether the object was unmarked, and marks it.
theorem testAndMark_ok (i : Immortal) (m : Memory) {o : Nat} (ho : o % wordBytes = 0) :
    ∃ m', i.testAndMark m o = .ok (!Status.isMarked (Object.status m o) i.markState, m') ∧
      Status.isMarked (Object.status m' o) i.markState = true ∧
      ∀ a, a ≠ o → m'.read a = m.read a := by
  cases h : Status.isMarked (Object.status m o) i.markState with
  | true =>
    refine ⟨m, ?_, h, fun _ _ => rfl⟩
    simp only [testAndMark, Object.check, ho, if_true, ok_bind, Status.testAndMark?, h, Bool.not_true]
  | false =>
    refine ⟨m.write o (Status.flipMark (m.read o)), ?_, ?_, fun a ha => Memory.read_write_of_ne ha _⟩
    · simp only [testAndMark, Object.check, ho, if_true, ok_bind, Status.testAndMark?, h,
        Bool.false_eq_true, if_false, Bool.not_false]
      rfl
    · have hflip := isMarked_flipMark (m.read o) i.markState
      simp only [Object.status] at h
      simpa only [Object.status, Memory.read_write_self, h, Bool.not_false] using hflip

theorem Agrees.step {s s' : Immortal × Memory} {o : Nat} {n : Option Nat} (h : Agrees s o n)
    (ho : o % wordBytes = 0) {e : Event} (hstep : step s e = .ok s') :
    Agrees s' o (stepAge o n e) := by
  cases e with
  | prepare =>
    cases hstep
    intro k hk
    obtain ⟨j, hj, rfl⟩ := Option.map_eq_some_iff.mp hk
    have hflip := isMarked_not (Object.status s.2 o) s.1.markState
    rw [h j hj] at hflip
    refine hflip.trans ?_
    rcases Nat.mod_two_eq_zero_or_one j with hmod | hmod
    · rw [hmod, show (j + 1) % 2 = 1 by omega]
      rfl
    · rw [hmod, show (j + 1) % 2 = 0 by omega]
      rfl
  | create p =>
    cases hstep
    intro k hk
    by_cases hp : p = o
    · simp only [stepAge, hp, if_true, Option.some.injEq] at hk
      simp only [Object.status, Object.setStatus, hp, Memory.read_write_self, ← hk,
        isMarked_initial]
      rfl
    · simp only [stepAge, hp, if_false] at hk
      rw [← h k hk]
      simp only [Object.status, Object.setStatus]
      rw [Memory.read_write_of_ne (fun he => hp he.symm)]
  | visit p =>
    obtain ⟨⟨fresh, m'⟩, hrun, hs⟩ := bind_eq_ok.mp hstep
    cases hs
    by_cases hp : p = o
    · obtain ⟨m'', hrun', hmark, -⟩ := testAndMark_ok s.1 s.2 ho
      rw [hp, hrun'] at hrun
      cases hrun
      intro k hk
      simp only [stepAge, hp, if_true] at hk
      obtain ⟨j, -, rfl⟩ := Option.map_eq_some_iff.mp hk
      exact hmark
    · -- a visit of another object writes nothing but that object's status word
      have halign : p % wordBytes = 0 := by
        by_contra hne
        simp only [testAndMark, Object.check, hne, if_false, error_bind] at hrun
        cases hrun
      obtain ⟨m'', hrun', -, hsame⟩ := testAndMark_ok s.1 s.2 halign
      rw [hrun'] at hrun
      cases hrun
      intro k hk
      simp only [stepAge, hp, if_false] at hk
      rw [← h k hk]
      simp only [Object.status]
      rw [hsame o fun he => hp he.symm]

theorem Agrees.replay {s s' : Immortal × Memory} {o : Nat} {n : Option Nat} (h : Agrees s o n)
    (ho : o % wordBytes = 0) {history : List Event} (hrun : replay s history = .ok s') :
    Agrees s' o (history.foldl (stepAge o) n) := by
  induction history generalizing s n with
  | nil =>
    cases hrun
    exact h
  | cons e rest ih =>
    obtain ⟨s1, h1, h2⟩ := bind_eq_ok.mp hrun
    exact ih (h.step ho h1) h2

-- Without a collection in between, an object that was just visited stays so.
theorem foldl_stepAge_zero {o : Nat} {more : List Event} (h : Event.prepare ∉ more) :
    more.foldl (stepAge o) (some 0) = some 0 := by
  induction more with
  | nil => rfl
  | cons e rest ih =>
    have hhead : stepAge o (some 0) e = some 0 := by
      cases e with
      | prepare => exact absurd List.mem_cons_self h
      | create p => simp [stepAge]
      | visit p => simp [stepAge]
    rw [List.foldl_cons, hhead]
    exact ih fun hx => h (List.mem_cons_of_mem _ hx)

-- A visit finds an object unmarked if an odd number of collections began since the object was
-- created or visited, and only then. No later visit in the same collection does.
theorem testAndMark_eq_odd (s : Immortal × Memory) {s' : Immortal × Memory} {o n : Nat}
    (history : List Event) (ho : o % wordBytes = 0) (hrun : replay s history = .ok s')
    (hage : age o history = some n) :
    ∃ m, s'.1.testAndMark s'.2 o = .ok (n % 2 == 1, m) ∧
      ∀ more s'', Event.prepare ∉ more → replay (s'.1, m) more = .ok s'' →
        ∃ m', s''.1.testAndMark s''.2 o = .ok (false, m') := by
  have hagrees : Agrees s' o (age o history) :=
    Agrees.replay (n := none) (fun _ hn => nomatch hn) ho hrun
  have hmark := hagrees n hage
  obtain ⟨m, hvisit, hmarked, -⟩ := testAndMark_ok s'.1 s'.2 ho
  refine ⟨m, ?_, fun more s'' hmore hrun' => ?_⟩
  · rw [hvisit, hmark]
    rcases Nat.mod_two_eq_zero_or_one n with hmod | hmod <;> rw [hmod] <;> rfl
  · have hstart : Agrees (s'.1, m) o (some 0) := fun k hk => by
      cases hk
      exact hmarked
    have hend := hstart.replay ho hrun' 0 (foldl_stepAge_zero hmore)
    obtain ⟨m', hvisit', -, -⟩ := testAndMark_ok s''.1 s''.2 ho
    refine ⟨m', ?_⟩
    rw [hvisit', hend]
    rfl

-- An empty space.
def vacant : Immortal × Memory :=
  ({ space := { name := "immortal", mapping := ⟨blockBytes, blockBytes, 0, blockBytes⟩
                unit := blockPages } }, .empty)

-- A collection reaches an object that the one before it passed over as well.
theorem testAndMark_eq_odd_twice : ∃ s', replay vacant
    [.create blockBytes, .prepare, .prepare, .prepare] = .ok s' ∧
      ∃ m, s'.1.testAndMark s'.2 blockBytes = .ok (3 % 2 == 1, m) ∧
        ∀ more s'', Event.prepare ∉ more → replay (s'.1, m) more = .ok s'' →
          ∃ m', s''.1.testAndMark s''.2 blockBytes = .ok (false, m') :=
  ⟨_, rfl, testAndMark_eq_odd vacant [.create blockBytes, .prepare, .prepare, .prepare] (by decide)
    rfl (by decide)⟩

-- The first visit in a collection need not find the object unmarked: after one collection that did
-- not reach it, the next one takes it for marked.
theorem not_forall_first_visit : ¬∀ (s s' : Immortal × Memory) (before : List Event) (o : Nat),
    o % wordBytes = 0 → Event.create o ∈ before →
      replay s (before ++ [.prepare]) = .ok s' → ∃ m, s'.1.testAndMark s'.2 o = .ok (true, m) := by
  intro h
  have ho : blockBytes % wordBytes = 0 := by decide
  obtain ⟨m, hm⟩ := h vacant _ [.create blockBytes, .prepare] blockBytes ho List.mem_cons_self rfl
  have hagrees := Agrees.replay (s := vacant) (n := none) (fun _ hn => nomatch hn) ho rfl 2
    (show age blockBytes ([.create blockBytes, .prepare] ++ [.prepare]) = some 2 by decide)
  obtain ⟨m', hm', -, -⟩ := testAndMark_ok _ _ ho
  rw [hm, hagrees] at hm'
  cases hm'

end Reclaim.Immortal
