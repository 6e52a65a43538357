import Reclaim.Proofs.Plan.Rewriting

/-!
The closure of a plan that counts references. It counts every root once and records it, whichever
collector the root falls to, and changes nothing else.
-/
namespace Reclaim

open CountedHeap Counting Heap Queue Sizes

-- The reference of a root, if it counts.
def Root.counted (h : Heap) : Root → List Nat
  | .location slot => h.countedRef (h.memory.read slot)
  | .interior base _ => h.countedRef base
  | .value o => h.countedRef o

-- The references that a collection counts for the roots.
def Plan.rootRefs (p : Plan) : List Nat := p.roots.flatMap (·.counted p.heap)

-- Buffers of the configured size can be had.
def Plan.Roomy (p : Plan) : Prop := checkTable (2 * p.buffer) = .ok ()

theorem checkTable_cases (n : Nat) :
    checkTable n = .ok () ∨ checkTable n = .error .capacityOverflow := by
  unfold checkTable
  split
  · exact Or.inl rfl
  · exact Or.inr rfl

theorem checkTable_mono {n k : Nat} (h : checkTable k = .ok ()) (hle : n ≤ k) :
    checkTable n = .ok () := by
  unfold checkTable at h ⊢
  split at h
  · have := Nat.mul_le_mul_right wordBytes hle
    rw [if_pos]
    omega
  · cases h

-- A check of a chain whose buffers are of the configured size.
theorem Queue.Chain.Sized.yields {α : Type} {c : Chain α} {p : Plan} {words : Nat}
    (hc : c.Sized p.buffer words) (hw : words ≤ 2) : Yields p.Roomy c.check fun _ => True := by
  rw [hc.check_eq]
  refine Yields.guard (fun h => checkTable_mono h ?_) (checkTable_cases _)
  rw [Nat.mul_comm]
  exact Nat.mul_le_mul_right _ hw

section Taking

variable (p : Plan) (mutators : List Mutator) (counts : CountState) (l : Layout) (r : Finset Nat)
variable (known : Set Nat)

-- Memory in the closure, when the references `rs` have been counted.
structure Counted (memory : Memory) (rs : List Nat) : Prop where
  standing : Standing (p.setMemory memory) mutators counts l r rs known
  frame : ∀ a, a ∉ r → memory.read a = p.heap.memory.read a
  count_eq : ∀ x ∈ r, count { p.heap with memory } x = count p.heap x + rs.count x

-- A collector in the closure of `p`. It has counted `rs`; `slots` and `inner` wait in its queues.
structure Taking (t : Tracing) (rs slots : List Nat) (inner : List (Nat × Nat)) : Prop where
  policy_eq : t.shared.policy = .refcount
  copy_eq : t.copy = none
  heap_eq : t.shared.heap = { p.heap with memory := t.memory }
  counted : Counted p mutators counts l r known t.memory rs
  newRoots : ∃ chain, t.shared.newRoots = some chain ∧ chain.Valid ∧ chain.Sized p.buffer 1 ∧
    (chain.entries ++ t.increments.held).Perm rs
  values : Solo.Valid ⟨t.shared.queues.values, t.values⟩ ∧
    Solo.contents ⟨t.shared.queues.values, t.values⟩ = [] ∧
    t.shared.queues.values.Sized p.buffer 1
  locations : Solo.Valid ⟨t.shared.queues.locations, t.locations⟩ ∧
    Solo.contents ⟨t.shared.queues.locations, t.locations⟩ = slots ∧
    t.shared.queues.locations.Sized p.buffer 1
  interior : Solo.Valid ⟨t.shared.queues.interior, t.interior⟩ ∧
    Solo.contents ⟨t.shared.queues.interior, t.interior⟩ = inner ∧
    t.shared.queues.interior.Sized p.buffer 2
  slots_mem : ∀ slot ∈ slots, Root.location slot ∈ p.roots
  inner_mem : ∀ e ∈ inner, Root.interior e.1 e.2 ∈ p.roots
  copied_eq : t.stats.copied = 0

end Taking

-- The roots that wait.
def waiting (slots : List Nat) (inner : List (Nat × Nat)) : List Root :=
  slots.map .location ++ inner.map fun e => .interior e.1 e.2

variable {p : Plan} {mutators : List Mutator} {counts : CountState} {l : Layout} {r : Finset Nat}
variable {known : Set Nat} {t : Tracing} {rs slots : List Nat} {inner : List (Nat × Nat)} {o : Nat}

namespace Taking

variable (ht : Taking p mutators counts l r known t rs slots inner)
variable (hmax : ∀ x ∈ r, count p.heap x + p.rootRefs.count x < 2 ^ 56)
include ht

theorem spaceOf?_eq (a : Nat) : t.heap.spaceOf? a = p.heap.spaceOf? a := by
  rw [Tracing.heap, ht.heap_eq]
  rfl

theorem not_mem_of_none {a : Nat} (ha : p.heap.spaceOf? a = none) : a ∉ r := by
  intro har
  have hc := ht.counted.standing.counted_of_mem har
  change p.heap.inCountedSpace a = true at hc
  rw [inCountedSpace_eq, ha] at hc
  cases hc

theorem popLocation : ∃ t', t.popLocation = (slots.head?, t') ∧
    Taking p mutators counts l r known t' rs slots.tail inner := by
  obtain ⟨hvalid, hcontents, hsized⟩ := ht.locations
  obtain ⟨e, c, hpop, hq, hrest, hc⟩ := Ends.pop_ok hvalid hsized
  rw [hcontents] at hpop hrest
  exact ⟨{ t with locations := e }.setQueues { t.shared.queues with locations := c },
    by simp only [Tracing.popLocation, hpop], { ht with
      locations := ⟨hq, hrest, hc⟩
      slots_mem := fun slot h => ht.slots_mem slot (List.mem_of_mem_tail h) }⟩

theorem popInterior : ∃ t', t.popInterior = (inner.head?, t') ∧
    Taking p mutators counts l r known t' rs slots inner.tail := by
  obtain ⟨hvalid, hcontents, hsized⟩ := ht.interior
  obtain ⟨e, c, hpop, hq, hrest, hc⟩ := Ends.pop_ok hvalid hsized
  rw [hcontents] at hpop hrest
  exact ⟨{ t with interior := e }.setQueues { t.shared.queues with interior := c },
    by simp only [Tracing.popInterior, hpop], { ht with
      interior := ⟨hq, hrest, hc⟩
      inner_mem := fun e h => ht.inner_mem e (List.mem_of_mem_tail h) }⟩

-- No object waits to be scanned.
theorem popValue : ∃ t', t.popValue = (none, t') ∧
    Taking p mutators counts l r known t' rs slots inner := by
  obtain ⟨hvalid, hcontents, hsized⟩ := ht.values
  obtain ⟨e, c, hpop, hq, hrest, hc⟩ := Ends.pop_ok hvalid hsized
  rw [hcontents] at hpop hrest
  exact ⟨{ t with values := e }.setQueues { t.shared.queues with values := c },
    by simp only [Tracing.popValue, hpop, List.head?_nil], { ht with values := ⟨hq, hrest, hc⟩ }⟩

-- An increment is recorded.
theorem recordIncrement (o : Nat) {memory : Memory} {stats : TraceStats} (hstats : stats.copied = 0)
    (hcounted : Counted p mutators counts l r known memory (o :: rs)) :
    Yields p.Roomy (({ t.setMemory memory with stats }).recordIncrement o) fun t' =>
      Taking p mutators counts l r known t' (o :: rs) slots inner := by
  obtain ⟨chain, hchain, hvalid, hsized, hperm⟩ := ht.newRoots
  have hmem : (t.setMemory memory).shared.newRoots = some chain := hchain
  simp only [Tracing.recordIncrement, hmem]
  exact (hsized.yields (by omega)).bind fun _ _ => Yields.ok { ht with
    heap_eq := by
      change { t.heap with memory } = _
      rw [Tracing.heap, ht.heap_eq]
      rfl
    counted := hcounted
    newRoots := ⟨_, rfl, Ends.insert_valid _ _ hvalid, Ends.insert_sized _ hsized _,
      (Ends.insert_perm _ _ _).trans (hperm.cons _)⟩
    copied_eq := hstats }

include hmax

-- A root is counted and recorded, if it counts.
theorem traceObject (ho : o ∈ known) (hroots : (p.heap.countedRef o ++ rs).Subperm p.rootRefs) :
    Yields p.Roomy (t.traceObject o) fun q => q.1 = o ∧
      Taking p mutators counts l r known q.2 (p.heap.countedRef o ++ rs) slots inner := by
  have hs := ht.counted.standing
  have hsound := hs.populated.sound
  obtain ⟨kind, bytes, hroom⟩ := hs.room_of_known ho
  have hspace : p.heap.spaceOf? o = some kind :=
    hsound.spaceOf?_start hroom
  have hkind : p.heap.inCountedSpace o = kind.isCounted := hsound.inCountedSpace_room hroom
  unfold Tracing.traceObject
  simp only [ht.spaceOf?_eq, hspace, ht.policy_eq]
  rcases hs.of_known ho with ⟨hr, -, hc⟩ | ⟨hi, hc⟩
  · change p.heap.inCountedSpace o = true at hc
    have hne : kind ≠ .immortal := by
      rintro rfl
      rw [hkind] at hc
      cases hc
    have hcount := ht.counted.count_eq o hr
    have hlt : count { p.heap with memory := t.memory } o + 1 < 2 ^ 56 := by
      have h1 := hmax o hr
      have h2 := hroots.count_le o
      rw [countedRef, if_pos hc, List.singleton_append, List.count_cons_self] at h2
      omega
    have hself : (t.memory.write o (Status.increment (t.memory.read o))).read o =
        Status.increment (t.memory.read o) := Memory.read_write_self _ _ _
    have hother : ∀ a, a ≠ o → (t.memory.write o (Status.increment (t.memory.read o))).read a =
        t.memory.read a := fun a ha => Memory.read_write_of_ne ha _
    simp only [Tracing.incrementRoot, if_neg hne, Object.check, if_pos (hs.aligned_of_known ho),
      ok_bind]
    rw [countedRef, if_pos hc]
    refine (ht.recordIncrement o (by exact ht.copied_eq) ⟨hs.retain ho hc hlt (Or.inl hself) hother, fun a ha => ?_,
      fun x hx => ?_⟩).bind fun t' ht' => Yields.ok ⟨rfl, ht'⟩
    · exact (hother a fun hao => ha (hao ▸ hr)).trans (ht.counted.frame a ha)
    · by_cases hxo : x = o
      · subst hxo
        rw [List.count_cons_self, ← Nat.add_assoc, ← hcount]
        exact (congrArg Status.count hself).trans (Status.count_increment hlt)
      · rw [List.count_cons_of_ne (Ne.symm hxo), ← ht.counted.count_eq x hx]
        exact Books.count_congr (hother x hxo)
  · change p.heap.inCountedSpace o = false at hc
    have himm : kind = .immortal := by
      obtain ⟨bytes', hroom'⟩ := (Standing.mem_immortals (p := p.setMemory t.memory)).mp hi
      exact (hsound.room_unique hroom hroom').1
    simp only [Tracing.incrementRoot, himm, if_true, ok_bind]
    rw [countedRef, hc, if_neg Bool.false_ne_true]
    exact Yields.ok ⟨rfl, ht⟩

-- A slot that waits leads to a root.
theorem processEdge {slot : Nat} (hslot : Root.location slot ∈ p.roots)
    (hroots : (p.heap.countedRef (p.heap.memory.read slot) ++ rs).Subperm p.rootRefs) :
    Yields p.Roomy (t.processEdge slot) fun t' => Taking p mutators counts l r known t'
      (p.heap.countedRef (p.heap.memory.read slot) ++ rs) slots inner := by
  obtain ⟨⟨hmod, hnone⟩, hread⟩ := ht.counted.standing.rooted.leads _ hslot
  have hsame : t.memory.read slot = p.heap.memory.read slot :=
    ht.counted.frame slot (ht.not_mem_of_none hnone)
  change t.memory.read slot = 0 ∨ t.memory.read slot ∈ known at hread
  rw [hsame] at hread
  simp only [Tracing.processEdge, Memory.loadRef, Memory.load_ok _ hmod, ok_bind, hsame]
  by_cases h0 : p.heap.memory.read slot = 0
  · have hc : p.heap.inCountedSpace (p.heap.memory.read slot) = false := Bool.eq_false_iff.mpr
      fun hc => ht.counted.standing.populated.sound.ne_zero_of_counted hc h0
    rw [if_pos h0, countedRef, hc, if_neg Bool.false_ne_true]
    exact Yields.ok ht
  · rw [if_neg h0]
    refine (ht.traceObject hmax (hread.resolve_left h0) hroots).bind fun q hq => ?_
    rw [if_pos hq.1]
    exact Yields.ok hq.2

-- A pointer into an object stays where it is.
theorem processInterior {base slot : Nat} (hroot : Root.interior base slot ∈ p.roots)
    (hroots : (p.heap.countedRef base ++ rs).Subperm p.rootRefs) :
    Yields p.Roomy (t.processInterior base slot) fun t' => Taking p mutators counts l r known t'
      (p.heap.countedRef base ++ rs) slots inner := by
  obtain ⟨⟨hmod, hnone⟩, hbase, hle, hlt⟩ := ht.counted.standing.rooted.leads _ hroot
  change base ≤ t.memory.read slot at hle
  change t.memory.read slot < _ at hlt
  have hslot := ht.not_mem_of_none hnone
  simp only [Tracing.processInterior, Memory.load_ok _ hmod, Word.sub_ok hle, ok_bind]
  refine (ht.traceObject hmax hbase hroots).bind fun q hq => ?_
  obtain ⟨rfl, ht'⟩ := hq
  have hsame : q.2.memory.read slot = t.memory.read slot :=
    (ht'.counted.frame slot hslot).trans (ht.counted.frame slot hslot).symm
  have hsum : q.1 + (t.memory.read slot - q.1) = t.memory.read slot := by omega
  simp only [Word.add_ok (hsum.symm ▸ hlt), hsum, Memory.store_ok _ hmod, ok_bind]
  rw [← hsame, Memory.write_read_self]
  exact Yields.ok ht'

-- Whatever waits is processed.
theorem drain (fuel : Nat) (hfuel : slots.length + inner.length < fuel)
    (hroots : ((waiting slots inner).flatMap (·.counted p.heap) ++ rs).Subperm p.rootRefs) :
    Yields p.Roomy (t.drain fuel) fun t' => ∃ rs', Taking p mutators counts l r known t' rs' [] [] ∧
      rs'.Perm ((waiting slots inner).flatMap (·.counted p.heap) ++ rs) := by
  induction fuel generalizing t rs slots inner with
  | zero => omega
  | succ fuel ih =>
    obtain ⟨t', hpop, ht'⟩ := ht.popLocation
    unfold Tracing.drain Tracing.processNext
    cases slots with
    | cons slot rest =>
      simp only [List.head?_cons, List.tail_cons] at hpop ht'
      simp only [List.length_cons] at hfuel
      simp only [waiting, List.map_cons, List.cons_append, List.flatMap_cons, Root.counted,
        List.append_assoc] at hroots ⊢
      simp only [hpop, bind_assoc, ok_bind]
      refine (ht'.processEdge hmax (ht.slots_mem slot List.mem_cons_self)
        (((List.sublist_append_right _ rs).append_left _).subperm.trans hroots)).bind
        fun t₁ ht₁ => ?_
      exact (ih ht₁ (by omega) ((List.perm_append_comm_assoc _ _ _).subperm.trans hroots)).mono
        fun t₂ ⟨rs', ht₂, hperm⟩ => ⟨rs', ht₂, hperm.trans (List.perm_append_comm_assoc _ _ _)⟩
    | nil =>
      obtain ⟨t₀, hpop₀, ht₀⟩ := ht'.popInterior
      simp only [List.head?_nil, List.length_nil] at hpop hfuel
      cases inner with
      | cons e rest =>
        simp only [List.head?_cons, List.tail_cons, List.tail_nil] at hpop₀ ht₀
        simp only [List.length_cons] at hfuel
        simp only [waiting, List.map_nil, List.nil_append, List.map_cons, List.flatMap_cons,
          Root.counted, List.append_assoc] at hroots ⊢
        simp only [hpop, hpop₀, bind_assoc, ok_bind]
        refine (ht₀.processInterior hmax (ht.inner_mem e List.mem_cons_self)
          (((List.sublist_append_right _ rs).append_left _).subperm.trans hroots)).bind
          fun t₁ ht₁ => ?_
        exact (ih ht₁ (by rw [List.length_nil]; omega)
          ((List.perm_append_comm_assoc _ _ _).subperm.trans hroots)).mono
          fun t₂ ⟨rs', ht₂, hperm⟩ => ⟨rs', ht₂, hperm.trans (List.perm_append_comm_assoc _ _ _)⟩
      | nil =>
        obtain ⟨t₁, hpop₁, ht₁⟩ := ht₀.popValue
        simp only [List.head?_nil] at hpop₀
        simp only [hpop, hpop₀, hpop₁, ok_bind]
        exact Yields.ok ⟨rs, ht₁, List.Perm.refl _⟩

-- A root is delivered: it waits in a queue or is counted at once.
theorem addRoot {root : Root} (hroot : root ∈ p.roots)
    (hroots : ((waiting slots inner).flatMap (·.counted p.heap) ++ rs ++ root.counted p.heap).Subperm p.rootRefs) :
    Yields p.Roomy (t.addRoot root) fun t' => ∃ rs' slots' inner',
      Taking p mutators counts l r known t' rs' slots' inner' ∧
      ((waiting slots' inner').flatMap (·.counted p.heap) ++ rs').Perm
        ((waiting slots inner).flatMap (·.counted p.heap) ++ rs ++ root.counted p.heap) := by
  cases root with
  | location slot =>
    obtain ⟨hvalid, hcontents, hsized⟩ := ht.locations
    have hmem : ∀ x ∈ slots ++ [slot], Root.location x ∈ p.roots := fun x hx =>
      (List.mem_append.mp hx).elim (ht.slots_mem x) fun hx => List.mem_singleton.mp hx ▸ hroot
    let added := t.locations.insert t.shared.queues.locations slot
    have hmore := Solo.contents_insert ⟨t.shared.queues.locations, t.locations⟩ slot
    rw [hcontents] at hmore
    have hadd : Taking p mutators counts l r known
        ({ t with locations := added.1 }.setQueues { t.shared.queues with locations := added.2 })
        rs (slots ++ [slot]) inner :=
      { ht with
        locations := ⟨hvalid.insert slot, hmore,
          Ends.insert_sized _ hsized _⟩
        slots_mem := hmem }
    simp only [Tracing.addRoot, Tracing.insertLocation]
    refine (hsized.yields (by omega)).bind fun _ _ => ?_
    refine Yields.of_ok rfl ⟨rs, _, inner, hadd, ?_⟩
    rw [List.perm_iff_count]
    intro x
    simp only [waiting, List.map_append, List.map_cons, List.map_nil, List.flatMap_append,
      List.flatMap_cons, List.flatMap_nil, List.append_nil, List.count_append]
    omega
  | interior base slot =>
    obtain ⟨hvalid, hcontents, hsized⟩ := ht.interior
    have hmem : ∀ e ∈ inner ++ [(base, slot)], Root.interior e.1 e.2 ∈ p.roots := fun e he =>
      (List.mem_append.mp he).elim (ht.inner_mem e) fun he => List.mem_singleton.mp he ▸ hroot
    let added := t.interior.insert t.shared.queues.interior (base, slot)
    have hmore := Solo.contents_insert ⟨t.shared.queues.interior, t.interior⟩ (base, slot)
    rw [hcontents] at hmore
    have hadd : Taking p mutators counts l r known
        ({ t with interior := added.1 }.setQueues { t.shared.queues with interior := added.2 })
        rs slots (inner ++ [(base, slot)]) :=
      { ht with
        interior := ⟨hvalid.insert _, hmore,
          Ends.insert_sized _ hsized _⟩
        inner_mem := hmem }
    simp only [Tracing.addRoot, Tracing.insertInterior]
    refine (hsized.yields (by omega)).bind fun _ _ => ?_
    refine Yields.of_ok rfl ⟨rs, slots, _, hadd, ?_⟩
    rw [List.perm_iff_count]
    intro x
    simp only [waiting, List.map_append, List.map_cons, List.map_nil, List.flatMap_append,
      List.flatMap_cons, List.flatMap_nil, List.append_nil, List.count_append]
    omega
  | value o =>
    have hnone : t.heap.inNursery o = false := by
      rw [Tracing.heap, ht.heap_eq, inNursery]
      change p.heap.nursery.any _ = false
      rw [show p.heap.nursery = none from ht.counted.standing.nursery_eq, Option.any_none]
    simp only [Tracing.addRoot, hnone, Bool.false_eq_true, if_false]
    rw [List.append_assoc] at hroots
    have hnew := List.perm_append_comm.subperm.trans
      ((List.sublist_append_right _ (rs ++ p.heap.countedRef o)).subperm.trans hroots)
    refine (ht.traceObject hmax (ht.counted.standing.rooted.leads _ hroot) hnew).bind
      fun q hq => Yields.ok ⟨_, slots, inner, hq.2, ?_⟩
    rw [List.append_assoc]
    exact List.perm_append_comm.append_left _

-- A collector takes its share of the roots.
theorem computeRoots (hnone : slots = [] ∧ inner = []) {collectors : Nat} (h1 : 1 ≤ t.ordinal)
    (hn : t.ordinal ≤ collectors)
    (hshare : Roots.share p.globals p.scheduler.threads t.ordinal collectors ⊆ p.roots)
    (hroots : (rs ++ (Roots.share p.globals p.scheduler.threads t.ordinal collectors).flatMap
      (·.counted p.heap)).Subperm p.rootRefs) :
    Yields p.Roomy (t.computeRoots p.globals p.scheduler.threads collectors) fun t' =>
      ∃ rs' slots' inner', Taking p mutators counts l r known t' rs' slots' inner' ∧
        ((waiting slots' inner').flatMap (·.counted p.heap) ++ rs').Perm
          (rs ++ (Roots.share p.globals p.scheduler.threads t.ordinal collectors).flatMap
            (·.counted p.heap)) := by
  have hnumbered : ∀ t ∈ p.scheduler.threads, t.Numbered :=
    ht.counted.standing.rooted.numbered
  unfold Tracing.computeRoots
  rw [Roots.scan_eq _ hnumbered h1 hn]
  generalize Roots.share p.globals p.scheduler.threads t.ordinal collectors = share at *
  obtain ⟨rfl, rfl⟩ := hnone
  refine (Yields.foldlM (fun rest (q : Tracing × RootCounts) => ∃ rs' slots' inner',
      Taking p mutators counts l r known q.1 rs' slots' inner' ∧ rest ⊆ p.roots ∧
      ((waiting slots' inner').flatMap (·.counted p.heap) ++ rs' ++
        rest.flatMap (·.counted p.heap)).Perm (rs ++ share.flatMap (·.counted p.heap)))
      (fun root rest q hq => ?_) share (t, {}) ⟨rs, [], [], ht, hshare, by simp [waiting]⟩).bind
    fun q ⟨rs', slots', inner', ht', _, hperm⟩ =>
      Yields.ok ⟨rs', slots', inner', { ht' with }, by simpa using hperm⟩
  obtain ⟨rs', slots', inner', ht', hsub, hperm⟩ := hq
  rw [List.flatMap_cons, ← List.append_assoc] at hperm
  have hnext := (List.sublist_append_left _ _).subperm.trans (hperm.subperm.trans hroots)
  refine (ht'.addRoot hmax (hsub List.mem_cons_self) hnext).bind
    fun t₂ ⟨rs₂, slots₂, inner₂, ht₂, hperm₂⟩ => Yields.ok ⟨rs₂, slots₂, inner₂, ht₂,
      fun x hx => hsub (List.mem_cons_of_mem _ hx), (hperm₂.append_right _).trans hperm⟩

omit hmax in
-- What a collector has left publishes nothing.
theorem flush (hnone : slots = [] ∧ inner = []) :
    Taking p mutators counts l r known t.flush rs [] [] ∧
      t.flush.shared.queues.Idle p.buffer := by
  obtain ⟨rfl, rfl⟩ := hnone
  have hv := Ends.flush_empty ht.values.1 ht.values.2.1 ht.values.2.2
  have hl := Ends.flush_empty ht.locations.1 ht.locations.2.1 ht.locations.2.2
  have hi := Ends.flush_empty ht.interior.1 ht.interior.2.1 ht.interior.2.2
  exact ⟨{ ht with
    values := Solo.of_idle hv
    locations := Solo.of_idle hl
    interior := Solo.of_idle hi }, ⟨hv, hl, hi⟩⟩

omit hmax in
theorem drainSteps_gt : slots.length + inner.length < t.drainSteps := by
  have hlen : ∀ {α : Type} (c : Chain α) (e : Ends α),
      e.length c = (Solo.contents ⟨c, e⟩).length := fun c e => Solo.length_eq ⟨c, e⟩
  unfold Tracing.drainSteps
  rw [hlen, hlen, hlen, ht.locations.2.1, ht.interior.2.1]
  omega

-- Processing and publishing everything.
theorem work (hroots : ((waiting slots inner).flatMap (·.counted p.heap) ++ rs).Subperm p.rootRefs) :
    Yields p.Roomy t.work fun t' => ∃ rs', Taking p mutators counts l r known t' rs' [] [] ∧
      rs'.Perm ((waiting slots inner).flatMap (·.counted p.heap) ++ rs) :=
  (ht.drain hmax _ ht.drainSteps_gt hroots).bind fun _ ⟨rs', ht', hperm⟩ =>
    Yields.ok ⟨rs', (ht'.flush ⟨rfl, rfl⟩).1, hperm⟩

end Taking

-- What collectors leave to the next one, when `rs` have been counted.
structure Gathered (p : Plan) (mutators : List Mutator) (counts : CountState) (l : Layout)
    (r : Finset Nat) (known : Set Nat) (p' : Plan) (rs : List Nat) : Prop where
  plan_eq : ∃ clock events, p' = { p with
    heap := { p.heap with memory := p'.memory }, clock, queues := p'.queues, counts := p'.counts
    events }
  counted : Counted p mutators counts l r known p'.memory rs
  newRoots : ∃ chain, p'.counts = some { counts with newRoots := chain } ∧ chain.Valid ∧
    chain.Sized p.buffer 1 ∧ chain.entries.Perm rs
  queues : p'.queues.Idle p.buffer

namespace Gathered

variable {p' : Plan}

theorem refl (hs : Standing p mutators counts l r [] known) :
    Gathered p mutators counts l r known p [] where
  plan_eq := ⟨p.clock, p.events, rfl⟩
  counted := ⟨hs, fun _ _ => rfl, fun _ _ => rfl⟩
  newRoots := ⟨counts.newRoots, hs.counts_eq, hs.newRoots.1, hs.newRoots.2.2, by
    rw [hs.newRoots.2.1]⟩
  queues := hs.queues

variable (hg : Gathered p mutators counts l r known p' rs)
variable (hmax : ∀ x ∈ r, count p.heap x + p.rootRefs.count x < 2 ^ 56)
include hg

theorem tracing (ordinal : Nat) (copy : CellAllocator) :
    Taking p mutators counts l r known (Collection.tracing p' ordinal copy) rs [] [] := by
  obtain ⟨clock, events, heq⟩ := hg.plan_eq
  obtain ⟨chain, hchain, hvalid, hsized, hperm⟩ := hg.newRoots
  have hpolicy : p'.policy = .refcount := by
    rw [heq]
    exact hg.counted.standing.policy_eq
  have hnone : (Collection.tracing p' ordinal copy).increments.held = [] := rfl
  exact {
    policy_eq := hpolicy
    copy_eq := by simp [Collection.tracing, hpolicy]
    heap_eq := congrArg Plan.heap heq
    counted := hg.counted
    newRoots := ⟨chain, by
      simp only [Collection.tracing, Collection.closure, hchain, Option.map_some], hvalid, hsized, by
      rwa [hnone, List.append_nil]⟩
    values := Solo.of_idle hg.queues.values
    locations := Solo.of_idle hg.queues.locations
    interior := Solo.of_idle hg.queues.interior
    slots_mem := by simp
    inner_mem := by simp
    copied_eq := rfl }

include hmax

-- One collector after the others.
theorem trace {collectors : Nat} {w : Worker} (h1 : 1 ≤ w.ordinal) (hn : w.ordinal ≤ collectors)
    (hshare : Roots.share p.globals p.scheduler.threads w.ordinal collectors ⊆ p.roots)
    (hroots : (rs ++ (Roots.share p.globals p.scheduler.threads w.ordinal collectors).flatMap
      (·.counted p.heap)).Subperm p.rootRefs) :
    Yields p.Roomy (Collection.trace collectors w p') fun q => q.1 = w ∧ q.2.1.copied = 0 ∧ ∃ rs',
      Gathered p mutators counts l r known q.2.2 rs' ∧
      rs'.Perm (rs ++ (Roots.share p.globals p.scheduler.threads w.ordinal collectors).flatMap
        (·.counted p.heap)) := by
  have ht := hg.tracing w.ordinal w.copy
  obtain ⟨clock, events, heq⟩ := hg.plan_eq
  have hglobals : p'.globals = p.globals := by rw [heq]
  have hscheduler : p'.scheduler = p.scheduler := by rw [heq]
  unfold Collection.trace
  rw [hglobals, hscheduler]
  refine (ht.computeRoots hmax ⟨rfl, rfl⟩ h1 hn hshare hroots).bind
    fun t₁ ⟨rs₁, slots, inner, ht₁, hperm₁⟩ => ?_
  refine (ht₁.work hmax (hperm₁.subperm.trans hroots)).bind fun t₂ ⟨rs₂, ht₂, hperm₂⟩ => ?_
  obtain ⟨ht₃, hidle⟩ := ht₂.flush ⟨rfl, rfl⟩
  obtain ⟨chain, hchain, hvalid, hsized, hperm⟩ := ht₃.newRoots
  obtain ⟨chain', hchain', -⟩ := hg.newRoots
  let flushed := t₂.flush.increments.flush chain
  have hfinish : t₂.finish = { t₂.flush with
      increments := flushed.1
      shared := { t₂.flush.shared with newRoots := some flushed.2 } } := by
    rw [Tracing.finish, Tracing.flushIncrements, hchain]
  refine Yields.of_ok rfl ⟨?_, hfinish ▸ ht₃.copied_eq, rs₂, {
    plan_eq := by
      refine ⟨t₂.flush.shared.clock, .rootsComputed w.ordinal t₂.finish.stats.roots :: events, ?_⟩
      have hheap := ht₃.heap_eq
      rw [Tracing.memory] at hheap
      simp only [hfinish, Plan.log, Collection.withClosure, Plan.memory]
      rw [← hheap]
      conv_lhs => rw [heq]
    counted := by
      rw [hfinish]
      exact ht₃.counted
    newRoots := by
      refine ⟨flushed.2, ?_, Ends.flush_valid _ hvalid, Ends.flush_sized _ hsized,
        (Ends.flush_perm _ _).trans hperm⟩
      rw [hfinish]
      simp only [Plan.log, Collection.withClosure, hchain', Option.map_some, Option.getD_some]
    queues := by
      rw [hfinish]
      exact hidle }, hperm₂.trans hperm₁⟩
  rw [hfinish]
  change { w with copy := t₂.flush.copy.getD w.copy } = w
  rw [ht₃.copy_eq]
  rfl

-- All collectors of the closure, by their positions.
theorem traceAll {collectors : Nat} (stats : TraceStats) (positions : List Nat)
    (hn : ∀ i ∈ positions, i < collectors)
    (hshare : (positions.flatMap fun i =>
      Roots.share p.globals p.scheduler.threads (i + 1) collectors) ⊆ p.roots)
    (hroots : (rs ++ (positions.flatMap fun i =>
      Roots.share p.globals p.scheduler.threads (i + 1) collectors).flatMap (·.counted p.heap)).Subperm p.rootRefs) :
    Yields p.Roomy (Collection.traceAll collectors
      (positions.map fun i => { ordinal := i + 1 }) stats p') fun q =>
        q.1 = (positions.map fun i => { ordinal := i + 1 }) ∧ q.2.1.copied = stats.copied ∧ ∃ rs',
          Gathered p mutators counts l r known q.2.2 rs' ∧
          rs'.Perm (rs ++ (positions.flatMap fun i =>
            Roots.share p.globals p.scheduler.threads (i + 1) collectors).flatMap
              (·.counted p.heap)) := by
  induction positions generalizing stats p' rs with
  | nil => exact Yields.ok ⟨rfl, rfl, rs, hg, by simp⟩
  | cons i rest ih =>
    rw [List.flatMap_cons] at hshare
    rw [List.flatMap_cons, List.flatMap_append, ← List.append_assoc] at hroots
    refine (hg.trace hmax (w := { ordinal := i + 1 }) (Nat.le_add_left 1 i)
      (hn i List.mem_cons_self) (fun x hx => hshare (List.mem_append_left _ hx))
      ((List.sublist_append_left _ _).subperm.trans hroots)).bind
      fun q ⟨hw, hzero, rs₁, hg₁, hperm₁⟩ => ?_
    refine (ih hg₁ _ (fun j hj => hn j (List.mem_cons_of_mem _ hj))
      (fun x hx => hshare (List.mem_append_right _ hx))
      ((hperm₁.append_right _).subperm.trans hroots)).bind
      fun q' ⟨hws, hcopied, rs₂, hg₂, hperm₂⟩ => ?_
    refine Yields.of_ok rfl ⟨by rw [hw, hws]; rfl, hcopied.trans ?_, rs₂, hg₂, hperm₂.trans ?_⟩
    · rw [TraceStats.add, hzero, Nat.add_zero]
    · rw [List.flatMap_cons, List.flatMap_append, ← List.append_assoc]
      exact hperm₁.append_right _

end Gathered

theorem Collection.resetWorkers_fresh (m : Memory) (c : Cells) (positions : List Nat) :
    resetWorkers m (positions.map fun i => { ordinal := i + 1 }) c =
      .ok (positions.map fun i => { ordinal := i + 1 }, c) := by
  induction positions with
  | nil => rfl
  | cons i rest ih =>
    have hreset : ({} : CellAllocator).reset c m = .ok ({}, c) := rfl
    simp only [List.map_cons, resetWorkers, hreset, ok_bind, ih]

-- Some collectors take part, and the others are behind them.
theorem Collection.participants_split {n : Nat}
    (hworkers : p.workers = (List.range (n + 1)).map fun i => { ordinal := i + 1 }) :
    0 < participants p ∧
      p.workers.take (participants p) =
        (List.range (participants p)).map (fun i => { ordinal := i + 1 }) ∧
      p.workers.drop (participants p) =
        (List.range' (participants p) (n + 1 - participants p)).map fun i => { ordinal := i + 1 } := by
  have hle : participants p ≤ n + 1 := by
    have hlength : p.workers.length = n + 1 := by simp [hworkers]
    unfold participants
    omega
  refine ⟨by unfold participants; omega, ?_, ?_⟩
  · rw [hworkers, ← List.map_take, List.take_range, Nat.min_eq_left hle]
  · rw [hworkers, ← List.map_drop, List.range_eq_range', List.drop_range']
    simp

-- The closure counts every root once and records it. Nothing is copied.
theorem Collection.runClosure_yields (hs : Standing p mutators counts l r [] known)
    (hmax : ∀ x ∈ r, count p.heap x + p.rootRefs.count x < 2 ^ 56) :
    Yields p.Roomy (runClosure p) fun q => q.1.copied = 0 ∧ ∃ rs, Gathered p mutators counts l r known q.2 rs ∧
      rs.Perm p.rootRefs := by
  obtain ⟨n, hworkers⟩ := hs.workers_eq
  obtain ⟨hpos, htake, hdrop⟩ := participants_split hworkers
  have hshares := Roots.shares_perm p.globals p.scheduler.threads hpos
  have htrace := ((Gathered.refl hs).traceAll hmax {} (List.range (participants p))
    (fun i hi => List.mem_range.mp hi) hshares.subset (hshares.flatMap_right _).subperm).mapError (g := reportFault (participants p)) fun f hf => ?_
  · have hself : p.setHeap { p.heap with mature := p.heap.mature } = p := rfl
    simp only [runClosure, hdrop, resetWorkers_fresh, ok_bind, hself, htake]
    refine htrace.bind fun q ⟨hactive, hcopied, rs, hg, hperm⟩ => Yields.ok ⟨hcopied, rs, ?_, ?_⟩
    · obtain ⟨clock, events, heq⟩ := hg.plan_eq
      have hsame : { q.2.2 with workers := q.1 ++
          (List.range' (participants p) (n + 1 - participants p)).map fun i =>
            ({ ordinal := i + 1 } : Worker) } = q.2.2 := by
        rw [hactive, ← htake, ← hdrop, List.take_append_drop]
        conv_rhs => rw [heq]
        conv_lhs => rw [heq]
      rw [hsame]
      exact hg
    · refine hperm.trans ?_
      rw [List.nil_append]
      exact hshares.flatMap_right _
  · unfold reportFault
    split_ifs
    · exact Or.inr rfl
    · exact hf

end Reclaim
