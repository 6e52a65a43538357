import Reclaim.Proofs.Plan.Closure

/-!
What writes into the fields of one object come to. Each reference that is written is counted, and each
one that is overwritten waits for its decrement, so the fields hold the difference. No field is
enumerated twice, or this would not be so.
-/
namespace Reclaim

open CountedHeap Heap Queue Sizes

-- Counts leave their field and start again at zero.
theorem Status.count_increment_mod (s : Nat) : count (increment s) % 2 ^ 56 = (count s + 1) % 2 ^ 56 := by
  have hbound : Word.bound = 2 ^ 64 := rfl
  simp only [count, countUnit, increment, Word.wrapAdd, hbound]
  omega

variable {p p' p'' : Plan} {m : Mutator} {counts counts' counts'' : CountState} {l : Layout}
variable {kind : SpaceKind} {o bytes slot : Nat} {owed owed' owed'' : Nat → Nat}
variable {value : Option Nat} {values values' : List (Option Nat)}

-- Some values were written into fields of `o`. As many decrements of an object wait as `owed` tells
-- before, and as `owed'` tells after.
structure Plan.Stored (p : Plan) (counts : CountState) (l : Layout) (o : Nat) (owed : Nat → Nat)
    (values : List (Option Nat)) (p' : Plan) (counts' : CountState) (owed' : Nat → Nat) : Prop where
  counts_eq : p'.counts = some counts'
  check_eq : counts'.decrements.check = counts.decrements.check
  populated : p'.heap.Populated l
  room_iff : ∀ kind x bytes, Room p'.heap l kind x bytes ↔ Room p.heap l kind x bytes
  spaceOf?_eq : ∀ a, p'.heap.spaceOf? a = p.heap.spaceOf? a
  slotsOf_eq : Object.slotsOf p'.heap.types p'.memory o = Object.slotsOf p.heap.types p.memory o
  -- What the fields hold and what waits grow by what is written.
  balance : ∀ x, p.heap.inCountedSpace x = true →
    (p'.heap.refs o).count x + owed' x = (p.heap.refs o).count x + owed x + values.count (some x)
  count_eq : ∀ kind x bytes, Room p.heap l kind x bytes → p.heap.inCountedSpace x = true →
    CountedHeap.count p'.heap x % 2 ^ 56 =
      (CountedHeap.count p.heap x + values.count (some x)) % 2 ^ 56

namespace Plan.Stored

theorem refl (hcounts : p.counts = some counts) (hp : p.heap.Populated l) (o : Nat)
    (owed : Nat → Nat) : p.Stored counts l o owed [] p counts owed where
  counts_eq := hcounts
  check_eq := rfl
  populated := hp
  room_iff _ _ _ := Iff.rfl
  spaceOf?_eq _ := rfl
  slotsOf_eq := rfl
  balance _ _ := rfl
  count_eq _ _ _ _ _ := rfl

theorem inCountedSpace_eq (h : p.Stored counts l o owed values p' counts' owed') (x : Nat) :
    p'.heap.inCountedSpace x = p.heap.inCountedSpace x := inCountedSpace_congr h.spaceOf?_eq x

theorem trans (h : p.Stored counts l o owed values p' counts' owed')
    (h' : p'.Stored counts' l o owed' values' p'' counts'' owed'') :
    p.Stored counts l o owed (values ++ values') p'' counts'' owed'' where
  counts_eq := h'.counts_eq
  check_eq := h'.check_eq.trans h.check_eq
  populated := h'.populated
  room_iff kind x bytes := (h'.room_iff kind x bytes).trans (h.room_iff kind x bytes)
  spaceOf?_eq a := (h'.spaceOf?_eq a).trans (h.spaceOf?_eq a)
  slotsOf_eq := h'.slotsOf_eq.trans h.slotsOf_eq
  balance x hx := by
    have h1 := h.balance x hx
    have h2 := h'.balance x ((h.inCountedSpace_eq x).trans hx)
    rw [List.count_append]
    omega
  count_eq kind x bytes hr hx := by
    have h1 := h.count_eq kind x bytes hr hx
    have h2 := h'.count_eq kind x bytes ((h.room_iff _ _ _).mpr hr) ((h.inCountedSpace_eq x).trans hx)
    rw [List.count_append]
    omega

-- Decrements that others hold back wait as well.
theorem frame (h : p.Stored counts l o owed values p' counts' owed') (others : Nat → Nat) :
    p.Stored counts l o (fun x => others x + owed x) values p' counts' (fun x => others x + owed' x) :=
  { h with
    balance := fun x hx => by
      have hb := h.balance x hx
      omega }

end Plan.Stored

namespace Mutator

-- The decrements that a mutator and the chain hold.
def waiting (m : Mutator) (counts : CountState) (x : Nat) : Nat :=
  m.decrements.held.count x + counts.decrements.entries.count x

-- A decrement is buffered, unless no buffers can be had.
theorem defer_yields (hcounts : p.counts = some counts) (m : Mutator) (u : Nat) :
    Yields (counts.decrements.check = .ok ()) (m.defer p u) fun q => ∃ counts',
      q.2 = { p with counts := some counts' } ∧ counts'.decrements.check = counts.decrements.check ∧
      ∀ x, q.1.waiting counts' x = m.waiting counts x + if u = x then 1 else 0 := by
  simp only [defer, hcounts]
  refine (Yields.guard id (checkTable_cases _)).bind fun _ _ => .ok ⟨_, rfl, ?_, fun x => ?_⟩
  · have hsized : counts.decrements.Sized counts.decrements.capacity counts.decrements.entryWords :=
      ⟨rfl, rfl⟩
    obtain ⟨hcapacity, hwords⟩ := Ends.insert_sized m.decrements hsized u
    rw [Chain.check, hcapacity, hwords, Chain.check]
  · have hperm := (Ends.insert_perm m.decrements counts.decrements u).count_eq x
    simp only [List.count_append, List.count_cons, beq_iff_eq] at hperm
    simp only [waiting]
    omega

end Mutator

-- A reference is about to be written, and counted if it counts. Nothing refers to anything else.
structure Heap.Retained (h : Heap) (l : Layout) (value : Option Nat) (h' : Heap) : Prop where
  populated : h'.Populated l
  room_iff : ∀ kind x bytes, Room h' l kind x bytes ↔ Room h l kind x bytes
  spaceOf?_eq : ∀ a, h'.spaceOf? a = h.spaceOf? a
  refs_eq : ∀ kind x bytes, Room h l kind x bytes → h'.refs x = h.refs x
  slotsOf_eq : ∀ kind x bytes, Room h l kind x bytes →
    Object.slotsOf h'.types h'.memory x = Object.slotsOf h.types h.memory x
  count_eq : ∀ x, h.inCountedSpace x = true →
    count h' x % 2 ^ 56 = (count h x + [value].count (some x)) % 2 ^ 56

theorem Heap.Populated.retained_self {h : Heap} (hp : h.Populated l)
    (hvalue : ∀ x, h.inCountedSpace x = true → value ≠ some x) : h.Retained l value h where
  populated := hp
  room_iff _ _ _ := Iff.rfl
  spaceOf?_eq _ := rfl
  refs_eq _ _ _ _ := rfl
  slotsOf_eq _ _ _ _ := rfl
  count_eq x hx := by rw [List.count_singleton, if_neg (by simpa using hvalue x hx), Nat.add_zero]

namespace Mutator

theorem isCounted_eq (hcounts : p.counts = some counts) (x : Nat) :
    p.isCounted x = p.heap.inCountedSpace x := by
  rw [Plan.isCounted, hcounts]
  rfl

theorem retainNew_retains (hp : p.heap.Populated l) (hcounts : p.counts = some counts)
    (hvalue : ∀ v ∈ value, ∃ kind bytes, Room p.heap l kind v bytes) :
    ∃ h, retainNew p value = .ok (p.setHeap h) ∧ p.heap.Retained l value h := by
  cases value with
  | none => exact ⟨p.heap, rfl, hp.retained_self fun _ _ => nofun⟩
  | some v =>
    obtain ⟨kind, bytes, hroom⟩ := hvalue v rfl
    cases hc : p.heap.inCountedSpace v with
    | false =>
      refine ⟨p.heap, ?_, hp.retained_self ?_⟩
      · simp only [retainNew, Option.filter, isCounted_eq hcounts, hc, Bool.false_eq_true, if_false]
        rfl
      · rintro x hx ⟨⟩
        rw [hc] at hx
        cases hx
    | true =>
      obtain ⟨memory, hrun, hself, hother⟩ := retain_eq (p := p) (hp.sound.room_mem hroom).1
      obtain ⟨hp', hrooms, hsame⟩ := hp.setHead hroom hother
      refine ⟨{ p.heap with memory }, ?_, hp', hrooms, fun _ => rfl, fun _ _ _ hr => (hsame _ _ _ hr).1,
        fun _ _ _ hr => (hsame _ _ _ hr).2, fun x _ => ?_⟩
      · simp only [retainNew, Option.filter, isCounted_eq hcounts, hc, if_true]
        exact hrun
      · change Status.count (memory.read x) % _ = _
        by_cases hx : x = v
        · subst hx
          have hcount : Status.count (memory.read x) =
              Status.count (Status.increment (status p.heap x)) := by
            rcases hself with h | ⟨h, -⟩
            · rw [h]
            · rw [h, Status.count_setColor]
          rw [hcount, Status.count_increment_mod, List.count_singleton_self]
          rfl
        · rw [hother x hx, List.count_singleton, if_neg (by simpa using Ne.symm hx)]
          rfl

-- The slot changes hands, and what it held waits for its decrement.
theorem overwrite_yields (hp : p.heap.Populated l) (hcounts : p.counts = some counts)
    (hslot : slot % wordBytes = 0) (m : Mutator) (value : Option Nat) :
    Yields (counts.decrements.check = .ok ()) (m.overwrite p slot value) fun q => ∃ counts',
      q.2.counts = some counts' ∧ counts'.decrements.check = counts.decrements.check ∧
      q.2.heap = { p.heap with memory := p.heap.memory.write slot (value.getD 0) } ∧
      ∀ x, p.heap.inCountedSpace x = true → q.1.waiting counts' x =
        m.waiting counts x + (p.heap.countedRef (p.heap.memory.read slot)).count x := by
  simp only [overwrite, Plan.memory, Memory.loadRef, Memory.load_ok _ hslot, ok_bind, Memory.storeRef,
    Memory.store_ok _ hslot]
  generalize p.heap.memory.read slot = u
  generalize hwritten : p.setMemory (p.heap.memory.write slot (value.getD 0)) = p'
  have hcounts' : p'.counts = some counts := hwritten ▸ hcounts
  have hheap : p'.heap = { p.heap with memory := p.heap.memory.write slot (value.getD 0) } :=
    hwritten ▸ rfl
  have hcounted : p'.isCounted u = p.heap.inCountedSpace u := by
    rw [isCounted_eq hcounts', hheap]
    rfl
  by_cases hc : p.heap.inCountedSpace u = true
  · rw [if_neg (hp.sound.ne_zero_of_counted hc), Option.filter, hcounted.trans hc, if_pos rfl]
    refine (defer_yields hcounts' m u).mono fun q hq => ?_
    obtain ⟨counts'', hplan, hcheck, hwaiting⟩ := hq
    refine ⟨counts'', by rw [hplan], hcheck, by rw [hplan, hheap], fun x hx => ?_⟩
    rw [hwaiting, count_countedRef hx]
  · have hnone : Option.filter p'.isCounted (if u = 0 then none else some u) = none := by
      split
      · rfl
      · rw [Option.filter, hcounted, if_neg hc]
    rw [hnone]
    refine .ok ⟨counts, hcounts', rfl, hheap, fun x _ => ?_⟩
    rw [countedRef, if_neg hc]
    rfl

-- Each number below that of the slots stands for one of them.
theorem fieldSlot_ok (hp : p.heap.Populated l) (hroom : Room p.heap l kind o bytes) {index : Nat}
    (hindex : index < (Object.slotsOf p.heap.types p.heap.memory o).length) :
    ∃ slot ∈ Object.slotsOf p.heap.types p.heap.memory o, fieldSlot p o index = .ok slot := by
  obtain ⟨info, hinstance, hsound, -⟩ := (hp.formed _ _ _ hroom).instance_ok
  have hslot := hinstance.slot?_eq hsound.regular index
  rw [List.getElem?_eq_getElem hindex] at hslot
  refine ⟨_, List.getElem_mem hindex, ?_⟩
  rw [fieldSlot, Plan.memory, hslot]
  rfl

-- The word that is written for a value holds what the value refers to.
theorem count_written {h : Heap} (hs : h.Sound l) {x : Nat} (hx : h.inCountedSpace x = true) :
    (h.countedRef (value.getD 0)).count x = [value].count (some x) := by
  have hne := hs.ne_zero_of_counted hx
  rw [count_countedRef hx]
  cases value <;> simp [List.count_singleton, hne.symm]

-- One write, unless no buffers can be had.
theorem writeReference_stores (hp : p.heap.Populated l) (hcounts : p.counts = some counts)
    (hroom : Room p.heap l kind o bytes)
    (hvalue : ∀ v ∈ value, ∃ kind bytes, Room p.heap l kind v bytes) {index : Nat}
    (hindex : index < (Object.slotsOf p.heap.types p.heap.memory o).length) (m : Mutator) :
    Yields (counts.decrements.check = .ok ()) (m.writeReference p o index value) fun q => ∃ counts',
      p.Stored counts l o (m.waiting counts) [value] q.2 counts' (q.1.waiting counts') := by
  obtain ⟨slot, hmem, hfield⟩ := fieldSlot_ok hp hroom hindex
  obtain ⟨h₁, hretain, hkept⟩ := retainNew_retains hp hcounts hvalue
  have hspace := inCountedSpace_congr hkept.spaceOf?_eq
  have hroom₁ : Room h₁ l kind o bytes := (hkept.room_iff _ _ _).mpr hroom
  have hformed₁ := hkept.populated.formed _ _ _ hroom₁
  have hmem₁ : slot ∈ Object.slotsOf h₁.types h₁.memory o := hkept.slotsOf_eq _ _ _ hroom ▸ hmem
  have hrw := hkept.populated.writeSlot hroom₁ hmem₁ (value.getD 0)
  rw [writeReference_eq hcounts, hfield, ok_bind, hretain, ok_bind]
  refine (overwrite_yields (p := p.setHeap h₁) hkept.populated hcounts (hformed₁.slot_mem hmem₁).1 m
    value).mono fun q hq => ?_
  obtain ⟨counts', hcounts', hcheck, hheap, hwaiting⟩ := hq
  change q.2.heap = { h₁ with memory := h₁.memory.write slot (value.getD 0) } at hheap
  exact ⟨counts', {
    counts_eq := hcounts'
    check_eq := hcheck
    populated := hheap ▸ hrw.populated
    room_iff := fun kind x bytes => by
      rw [hheap]
      exact (hrw.room_iff _ _ _).trans (hkept.room_iff _ _ _)
    spaceOf?_eq := fun a => by
      rw [hheap]
      exact (hrw.spaceOf?_eq a).trans (hkept.spaceOf?_eq a)
    slotsOf_eq := by
      rw [Plan.memory, hheap]
      exact (hformed₁.write_slot hmem₁ _).2.1.trans (hkept.slotsOf_eq _ _ _ hroom)
    balance := fun x hx => by
      -- what leaves the slot waits, and what enters it is the value
      have hx₁ := (hspace x).trans hx
      have hc := hrw.count_eq x hx₁
      have hw : q.1.waiting counts' x = m.waiting counts x + (h₁.countedRef (h₁.memory.read slot)).count x :=
        hwaiting x hx₁
      rw [hkept.refs_eq _ _ _ hroom, count_written hkept.populated.sound hx₁] at hc
      rw [hheap]
      omega
    count_eq := fun kind x bytes hr hx => by
      have hstatus := hrw.status_eq kind x bytes ((hkept.room_iff _ _ _).mpr hr)
      rw [hheap, count, hstatus]
      exact hkept.count_eq x hx }⟩

end Mutator

end Reclaim
