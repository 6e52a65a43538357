import Reclaim.Proofs.Tour.Mutators

/-!
How a collection of a plan that copies begins. The mutators stop, and all large and immortal objects show
the mark of objects that nobody has come to, except for immortal ones that the last collection passed by.
-/
namespace Reclaim

open Heap Queue Sizes

namespace Plan

-- An immortal object that shows the other mark. A collection takes it for one that it has come to.
def Stale (p : Plan) (o : Nat) : Prop :=
  p.heap.spaceOf? o = some .immortal ∧
    Status.isMarked (p.memory.read o) p.heap.immortal.markState = false

-- What a collection comes to.
inductive Traces (p : Plan) : Nat → Prop
  | root {root : Root} : root ∈ p.roots → root.target p.memory ≠ 0 → p.Traces (root.target p.memory)
  | field {o x : Nat} {refs : List Nat} : p.Traces o → ¬p.Stale o → p.heap.references o = .ok refs →
    x ∈ refs → p.Traces x

-- What callers have to observe at a collection: references lead to objects, slots of roots lie outside
-- of the spaces, pointers into objects have slots of their own and do not leave the objects, and objects
-- that must not move are not new.
structure Collectable (p : Plan) (known : Set Nat) : Prop where
  traced : ∀ o, p.Traces o → o ∈ known
  numbered : ∀ t ∈ p.scheduler.threads, t.Numbered
  locations : ∀ t ∈ p.scheduler.threads, ∀ slot, .location slot ∈ t.roots → Slot p.heap slot
  inner : ∀ base slot, .interior base slot ∈ p.roots → Slot p.heap slot ∧ .location slot ∉ p.roots ∧
    base ∈ known ∧ ∃ n, Object.size p.heap.types p.memory base = .ok n ∧
      base ≤ p.memory.read slot ∧ p.memory.read slot ≤ base + n
  inner_nodup : (p.roots.filterMap Root.innerSlot?).Nodup
  pinned : ∀ o, .value o ∈ p.roots → o ∈ known ∧ p.heap.spaceOf? o ≠ some .nursery

-- What the closure of a collection starts from.
def ground (p : Plan) (l : Layout) : Ground where
  heap := p.heap
  layout := l
  roots := p.roots

end Plan

namespace Tidy

variable {p p' : Plan} {mutators : List Mutator} {l l' : Layout} {known : Set Nat} {o : Nat}

theorem formed_of_known (hs : Tidy p mutators l known) (ho : o ∈ known) :
    ∃ bytes, Object.Formed p.heap.types p.memory o bytes :=
  let ⟨_, bytes, hr⟩ := hs.room_of_known ho
  ⟨bytes, hs.populated.formed _ _ _ hr⟩

theorem references_ok (hs : Tidy p mutators l known) (ho : o ∈ known) :
    p.heap.references o = .ok (p.heap.refs o) :=
  let ⟨_, hformed⟩ := hs.formed_of_known ho
  hformed.references_ok

section Turned

variable (hs : Tidy p mutators l known) (hc : p.Collectable known)
variable (hr : Rearranged p.heap l p'.heap l') (hroots : p'.roots = p.roots)
variable (himm : p'.heap.immortal.markState = !p.heap.immortal.markState)
include hs hc hr hroots himm

-- When the marks have turned, a closure comes to what it was to come to before.
theorem traces_of_turned {x : Nat} (hx : (p'.ground l').Traces x) : p.Traces x := by
  have htarget : ∀ root : Root, root.target p'.heap.memory = root.target p.memory := fun root => by
    rw [hr.memory_eq]
    rfl
  induction hx with
  | root hroot hne =>
    change Root.target p'.heap.memory _ ≠ 0 at hne
    change p.Traces (Root.target p'.heap.memory _)
    rw [htarget] at hne ⊢
    exact .root (hroots ▸ hroot) hne
  | @field x slot _ hfresh hslot hne ih =>
    have hstale : ¬p.Stale x := fun ⟨h1, h2⟩ => hfresh ⟨(hr.spaceOf?_eq x).trans h1, by
      change Status.isMarked (p'.heap.memory.read x) p'.heap.immortal.markState = true
      rw [hr.memory_eq, himm, Immortal.isMarked_not]
      exact congrArg (!·) h2⟩
    refine .field ih hstale (hs.references_ok (hc.traced x ih)) ?_
    change slot ∈ Object.slotsOf p'.heap.types p'.heap.memory x at hslot
    change p'.heap.memory.read slot ≠ 0 at hne
    rw [hr.types_eq, hr.memory_eq] at hslot
    change p'.heap.memory.read slot ∈ _
    rw [hr.memory_eq] at hne ⊢
    exact List.mem_filter.mpr ⟨List.mem_map_of_mem hslot, by simpa using hne⟩

-- The marks turn.
theorem ready (hlarge : p'.heap.large.markState = !p.heap.large.markState) :
    (p'.ground l').Ready := by
  have hobject : ∀ x ∈ known, (p'.ground l').IsObject x := fun x hx =>
    let ⟨kind, bytes, hroom⟩ := hs.room_of_known hx
    ⟨kind, bytes, (hr.room_iff _ _ _).mpr hroom⟩
  have hslot : ∀ slot, Slot p.heap slot → Slot p'.heap slot := fun slot h =>
    ⟨h.1, (hr.spaceOf?_eq slot).trans h.2⟩
  have hmem := hr.memory_eq
  exact {
    populated := hr.populated hs.populated
    reached_eq := hr.reached_eq.trans hs.reached_eq
    young := fun x bytes hx => by
      change p'.heap.memory.read x % 4 = 0 ∧ _
      rw [hmem]
      obtain ⟨hstatus, hle⟩ := hs.young x bytes ((hr.room_iff _ _ _).mp hx)
      exact ⟨hstatus, hle.trans hs.threshold⟩
    cells := fun x bytes hx => by
      have hroom := (hr.room_iff _ _ _).mp hx
      change Block.isMarked p'.heap.memory x = false
      rw [hmem]
      exact hs.cells x (hs.populated.sound.spaceOf?_start hroom)
    chunks := fun x bytes hx => by
      change Status.isMarked (p'.heap.memory.read x) p'.heap.large.markState = false
      rw [hmem, hlarge, Immortal.isMarked_not, hs.chunks x bytes ((hr.room_iff _ _ _).mp hx)]
      rfl
    traced := fun x hx => hobject x (hc.traced x (hs.traces_of_turned hc hr hroots himm hx))
    locations := fun slot hroot => by
      have hroot : .location slot ∈ p.roots := hroots ▸ hroot
      rcases List.mem_append.mp hroot with hroot | hroot
      · exact hslot slot (hs.globals slot hroot)
      · obtain ⟨t, ht, hroot⟩ := List.mem_flatMap.mp hroot
        exact hslot slot (hc.locations t ht slot hroot)
    inner := fun base slot hroot => by
      obtain ⟨h1, h2, h3, n, h4, h5⟩ := hc.inner base slot (hroots ▸ hroot)
      refine ⟨hslot slot h1, fun h => h2 (hroots ▸ h), hobject base h3, n, ?_, ?_⟩
      · change Object.size p'.heap.types p'.heap.memory base = _
        rw [hr.types_eq, hmem]
        exact h4
      · change base ≤ p'.heap.memory.read slot ∧ p'.heap.memory.read slot ≤ _
        rw [hmem]
        exact h5
    inner_nodup := by
      change (p'.roots.filterMap _).Nodup
      rw [hroots]
      exact hc.inner_nodup
    pinned := fun o hroot => by
      obtain ⟨h1, h2⟩ := hc.pinned o (hroots ▸ hroot)
      exact ⟨hobject o h1, fun h => h2 ((hr.spaceOf?_eq o).symm.trans h)⟩ }

end Turned

end Tidy

-- All mutators stop, and the marks turn. `p₁` is the plan before they do.
theorem Collection.prepare_tidy {c : Collection} {mutators : List Mutator} {l : Layout}
    {known : Set Nat} (hs : Tidy c.plan mutators l known) :
    ∃ stopped c' p₁ l₁, c.prepare mutators = .ok (stopped, c') ∧ c'.metrics = c.metrics ∧
      (flipMarks p₁).Noted c'.plan ∧
      c.plan.Alike p₁ ∧ Rearranged c.plan.heap l p₁.heap l₁ ∧ p₁.heap.large = c.plan.heap.large ∧
      p₁.heap.immortal = c.plan.heap.immortal ∧ l₁.immortals = l.immortals ∧
      Tidy p₁ stopped l₁ known ∧ ∀ m ∈ stopped, Tidy.Stopped m := by
  obtain ⟨c₁, henter, hnoted⟩ := enter_ok hs.populated.sound .prepare
  have hs₁ := hs.noted hnoted.toNoted
  obtain ⟨stopped, cells, l₁, hrun, -, himm, hr, hs₂, hstopped⟩ :=
    Tidy.prepareAll mutators [] (by rwa [List.append_nil])
  rw [List.append_nil] at hs₂
  have hprepare : c.prepare mutators = .ok (stopped,
      ({ c₁ with plan := flipMarks (c₁.plan.setHeap { c₁.plan.heap with mature := cells })
         }.stopTimer .prepare).log (.phaseEnd .prepare stopped.length)) := by
    simp only [prepare, henter, ok_bind, hrun]
  have hlast := (noted_stopTimer { c₁ with
    plan := flipMarks (c₁.plan.setHeap { c₁.plan.heap with mature := cells }) } .prepare).trans
      (noted_log _ (.phaseEnd .prepare stopped.length))
  rw [hnoted.heap_eq] at hr
  have hlarge : c₁.plan.heap.large = c.plan.heap.large := congrArg _ hnoted.heap_eq
  have himmortal : c₁.plan.heap.immortal = c.plan.heap.immortal := congrArg _ hnoted.heap_eq
  refine ⟨stopped, _, _, l₁, hprepare, hlast.metrics_eq.trans hnoted.metrics_eq, hlast.toNoted,
    hnoted.toAlike.trans ⟨rfl, rfl, rfl, rfl⟩, ?_, hlarge, himmortal, himm, hs₂, hstopped⟩
  change Rearranged c.plan.heap l { c₁.plan.heap with mature := cells } l₁
  rw [hnoted.heap_eq]
  exact hr

-- A collection up to its closure.
def Collection.opened (p : Plan) (mutators : List Mutator) :
    Except Fault (List Mutator × Collection) := do
  let c ← begin p
  let (stopped, c) ← c.prepare mutators
  let c ← { c with metrics := { c.metrics with participants := participants c.plan } }.enter .closure
  .ok (stopped, c)

-- From `p` to `p'` a collection has begun. The mutators `stopped` stand still.
structure Opened (p p' : Plan) (stopped : List Mutator) (l l' : Layout) (known : Set Nat) :
    Prop where
  alike : p.Alike p'
  rearranged : Rearranged p.heap l p'.heap l'
  immortals_eq : l'.immortals = l.immortals
  immortal_mark : p'.heap.immortal.markState = !p.heap.immortal.markState
  before : ∃ p₁, (Collection.flipMarks p₁).Noted p' ∧ Tidy p₁ stopped l' known
  stopped : ∀ m ∈ stopped, Tidy.Stopped m
  ready : (p'.ground l').Ready

namespace Collection

variable {p : Plan} {mutators : List Mutator} {l : Layout} {known : Set Nat}

theorem opened_ok (hs : Tidy p mutators l known) (hc : p.Collectable known) :
    ∃ stopped c l', opened p mutators = .ok (stopped, c) ∧ c.Untold ∧
      Opened p c.plan stopped l l' known := by
  obtain ⟨c, hbegin, hnoted, -, hnew⟩ := begin_ok hs.populated.sound
  obtain ⟨stopped, c₁, p₁, l', hprepare, hmetrics₁, hflip, halike, hr, hlarge, himm, himms, hs₁, hstopped⟩ :=
    prepare_tidy (hs.noted hnoted)
  rw [hnoted.heap_eq] at hr hlarge himm
  have hr' : Rearranged p.heap l c₁.plan.heap l' := by
    rw [hflip.heap_eq]
    exact hr.trans hr.sound.rearrangeMarks
  have hnew₁ := hnew.congr hmetrics₁
  obtain ⟨c₂, henter, hnoted₂⟩ := enter_ok (c := { c₁ with
    metrics := { c₁.metrics with participants := participants c₁.plan } }) hr'.sound .closure
  have hflip₂ : (flipMarks p₁).Noted c₂.plan := hflip.trans hnoted₂.toNoted
  have hmarks : p₁.Alike (flipMarks p₁) := ⟨rfl, rfl, rfl, rfl⟩
  have halike₂ : p.Alike c₂.plan :=
    hnoted.toAlike.trans (halike.trans (hmarks.trans hflip₂.toAlike))
  have hr₂ : Rearranged p.heap l c₂.plan.heap l' := by
    rw [hnoted₂.heap_eq]
    exact hr'
  have himm₂ : c₂.plan.heap.immortal.markState = !p.heap.immortal.markState := by
    rw [hflip₂.heap_eq]
    exact congrArg (fun t : Immortal => !t.markState) himm
  have hnew₂ : c₂.Untold := Untold.congr
    (c := { c₁ with metrics := { c₁.metrics with participants := participants c₁.plan } })
    ⟨hnew₁.copied_eq, hnew₁.freed_eq, hnew₁.cycles_eq⟩ hnoted₂.metrics_eq
  refine ⟨stopped, c₂, l', ?_, hnew₂, halike₂, hr₂, himms, himm₂, ⟨p₁, hflip₂, hs₁⟩, hstopped,
    hs.ready hc hr₂ halike₂.roots_eq himm₂ ?_⟩
  · simp only [opened, hbegin, hprepare, henter, ok_bind]
  · rw [hflip₂.heap_eq]
    exact congrArg (fun t : Treadmill => !t.markState) hlarge

end Collection

end Reclaim
