import Reclaim.Proofs.Freeing
import Reclaim.Proofs.Plan.Storing
import Reclaim.Proofs.Session.Balance

/-!
The fields of a new object, as mutators write them. Whatever they write, in whatever order, an
enumeration of the object finds each counted reference as often as it was counted for a write and does
not wait for its decrement yet.
-/
namespace Reclaim.Session

open CountedHeap Heap

variable {s s' s₁ : Session} {counts : CountState} {l : Layout} {r : Finset Nat} {kind : SpaceKind}
variable {o bytes : Nat}

-- A value that a mutator writes into a field.
structure Store where
  mutator : Nat
  index : Nat
  value : Option Nat

-- Fields of `o` are written, one after the other.
def storeAll (s : Session) (o : Nat) (stores : List Store) : Except Fault Session :=
  stores.foldlM (fun s w => s.perform (.write w.mutator o w.index w.value)) s

-- The write is into a field that there is, and of an object that is known.
def Storable (s : Session) (slots : List Nat) (w : Store) : Prop :=
  w.mutator < s.mutators.length ∧ w.index < slots.length ∧ ∀ v ∈ w.value, v ∈ s.known

-- What the mutators but one hold back stays as it is.
theorem owed_eq {m : Mutator} {rest : List Mutator} (h : s.mutators.Perm (m :: rest)) :
    s.owed counts = fun x => (rest.flatMap (·.decrements.held)).count x + m.waiting counts x := by
  funext x
  have hperm := (h.flatMap_right (·.decrements.held)).count_eq x
  rw [List.flatMap_cons, List.count_append] at hperm
  rw [owed, Mutator.waiting]
  omega

-- A mutator writes into a field.
theorem write_stores (hp : s.plan.heap.Populated l) (hcounts : s.plan.counts = some counts)
    (hroom : Room s.plan.heap l kind o bytes) {w : Store} (hi : w.mutator < s.mutators.length)
    (hindex : w.index < (Object.slotsOf s.plan.heap.types s.plan.memory o).length)
    (hvalue : ∀ v ∈ w.value, ∃ kind bytes, Room s.plan.heap l kind v bytes) :
    Yields (counts.decrements.check = .ok ()) (s.perform (.write w.mutator o w.index w.value)) fun s' =>
      s'.mutators.length = s.mutators.length ∧ ∃ counts',
        s.plan.Stored counts l o (s.owed counts) [w.value] s'.plan counts' (s'.owed counts') := by
  obtain ⟨m, hm, hperm, hset⟩ := perm_of_mutator hi
  simp only [perform, hm, ok_bind]
  refine (Mutator.writeReference_stores hp hcounts hroom hvalue hindex m).bind fun q hq => ?_
  obtain ⟨counts', hstored⟩ := hq
  refine .ok ⟨List.length_set, counts', ?_⟩
  rw [owed_eq hperm, owed_eq (hset q.1).symm]
  exact hstored.frame _

-- Mutators write into fields of one object.
theorem Sound.storeAll_stores (hs : s.Sound counts l r) (hroom : Room s.plan.heap l kind o bytes)
    {stores : List Store} (hstores : ∀ w ∈ stores,
      s.Storable (Object.slotsOf s.plan.heap.types s.plan.memory o) w) :
    Yields (counts.decrements.check = .ok ()) (s.storeAll o stores) fun s' => ∃ counts',
      s.plan.Stored counts l o (s.owed counts) (stores.map (·.value)) s'.plan counts'
        (s'.owed counts') := by
  refine (Yields.foldlM (fun rest s' => ∃ done counts', done ++ rest = stores ∧
    s'.mutators.length = s.mutators.length ∧ s.plan.Stored counts l o (s.owed counts)
      (done.map (·.value)) s'.plan counts' (s'.owed counts')) ?_ stores s
    ⟨[], counts, rfl, rfl, .refl hs.standing.counts_eq hs.standing.populated o _⟩).mono ?_
  · rintro w rest s' ⟨done, counts', rfl, hlength, hstored⟩
    obtain ⟨hi, hindex, hvalue⟩ := hstores w (List.mem_append_right _ List.mem_cons_self)
    have hnext := write_stores hstored.populated hstored.counts_eq
      ((hstored.room_iff _ _ _).mpr hroom) (hlength ▸ hi) (hstored.slotsOf_eq ▸ hindex) fun v hv =>
        let ⟨kind, bytes, h⟩ := hs.standing.room_of_known (hvalue v hv)
        ⟨kind, bytes, (hstored.room_iff _ _ _).mpr h⟩
    rw [hstored.check_eq] at hnext
    refine hnext.mono fun s'' h => ?_
    obtain ⟨hlength', counts'', hstored'⟩ := h
    refine ⟨done ++ [w], counts'', by rw [List.append_assoc]; rfl, hlength'.trans hlength, ?_⟩
    rw [List.map_append]
    exact hstored.trans hstored'
  · rintro s' ⟨done, counts', hdone, -, hstored⟩
    rw [List.append_nil] at hdone
    exact ⟨counts', hdone ▸ hstored⟩

-- A new object holds nothing.
theorem Sound.refs_of_made (hs : s.Sound counts l r) {i type length : Nat} {semantics : Semantics}
    (ha : s.Allowed (.create i type length semantics))
    (h : s.perform (.create i type length semantics) = .ok s')
    (ho : .made o ∈ s.changes (.create i type length semantics)) : s'.plan.heap.refs o = [] := by
  obtain ⟨m, hm, hperm, -⟩ := perm_of_mutator ha.1
  simp only [Session.perform, hm, ok_bind] at h
  obtain ⟨⟨x, m', plan⟩, hnew, h⟩ := bind_eq_ok.mp h
  cases h
  simp only [changes, hm, ok_bind, hnew, List.mem_singleton, Change.made.injEq] at ho
  obtain ⟨-, -, -, -, -, hnone⟩ := Mutator.newObject_ok (hs.standing.perm hperm) ha.2 hnew
  exact ho ▸ hnone

-- What `stores` made of the new object `o` of `s`. The words in its slots are what is enumerated, be it
-- when it dies.
structure Settled (s : Session) (counts : CountState) (o : Nat) (slots : List Nat)
    (stores : List Store) (s' : Session) (counts' : CountState) (refs : List Nat) : Prop where
  counts_eq : s'.plan.counts = some counts'
  refs_eq : refs = (slots.map s'.plan.memory.read).filter (· != 0)
  references_eq : s'.plan.heap.references o = .ok refs
  released : ∀ (word : Nat) (d d' : Counting.Decrements Heap) (children : List Nat),
    d.timed.heap = setStatus s'.plan.heap o word → Counting.release o d = .ok (children, d') →
      children = refs
  -- Each is the number of times that a counted reference was written, less those that were overwritten.
  balance : ∀ x, s.plan.isCounted x = true →
    refs.count x + s'.owed counts' x = s.owed counts x + (stores.map (·.value)).count (some x)
  count_eq : ∀ x ∈ s.known, s.plan.isCounted x = true → count s'.plan.heap x % 2 ^ 56 =
    (count s.plan.heap x + (stores.map (·.value)).count (some x)) % 2 ^ 56

theorem Settled.of_stored {counts' : CountState} {stores : List Store}
    (hs : s.Sound counts l r) (hroom : Room s.plan.heap l kind o bytes) (hnone : s.plan.heap.refs o = [])
    (h : s.plan.Stored counts l o (s.owed counts) (stores.map (·.value)) s'.plan counts'
      (s'.owed counts')) :
    s.Settled counts o (Object.slotsOf s.plan.heap.types s.plan.memory o) stores s' counts'
      (s'.plan.heap.refs o) := by
  have hroom' := (h.room_iff _ _ _).mpr hroom
  refine ⟨h.counts_eq, ?_, h.populated.references_ok hroom', fun word d d' children hheap hrun => ?_,
    fun x hx => ?_, fun x hx hc => ?_⟩
  · rw [← h.slotsOf_eq]
    rfl
  · obtain ⟨hp, hrooms, hsame⟩ := h.populated.setHead hroom' (m := s'.plan.heap.memory.write o word)
      fun a ha => Memory.read_write_of_ne ha _
    have hreferences := hp.references_ok ((hrooms _ _ _).mpr hroom')
    rw [(hsame _ _ _ hroom').1] at hreferences
    have hchildren := Counting.references_of_release hrun
    rw [hheap] at hchildren
    exact Except.ok.inj (hchildren.symm.trans hreferences)
  · have hb := h.balance x ((hs.standing.isCounted_eq x).symm.trans hx)
    rw [hnone, List.count_nil] at hb
    omega
  · obtain ⟨kind', bytes', hx'⟩ := hs.standing.room_of_known hx
    exact h.count_eq _ _ _ hx' ((hs.standing.isCounted_eq x).symm.trans hc)

-- A scan visits no slot twice unless a field was listed twice. When none was, what is enumerated of a
-- new object is what was counted for the writes into it, less what waits for its decrement.
theorem fields_balance {types : Types} (ht : types.Built) :
    (∀ (m : Memory) (o : Nat) (info : TypeInfo), Object.Instance types m o info → ∃ slots,
      Object.slots types m o = .ok slots ∧
      (∀ (σ : Type) (visit : σ → Nat → Except Fault σ) (start : σ),
        Object.scan types m o visit start = slots.foldlM visit start) ∧
      (slots.Nodup ↔ (info.element = none → info.offsets.Nodup))) ∧
    ∀ (s s₁ : Session) (i type length : Nat) (semantics : Semantics) (o : Nat),
      s.plan.heap.types = types → Run s → s.Allowed (.create i type length semantics) →
      s.perform (.create i type length semantics) = .ok s₁ →
      .made o ∈ s.changes (.create i type length semantics) → ∃ counts slots,
        s₁.plan.counts = some counts ∧
        Object.slots s₁.plan.heap.types s₁.plan.memory o = .ok slots ∧ slots.Nodup ∧
        ∀ stores : List Store, (∀ w ∈ stores, s₁.Storable slots w) →
          Yields (counts.decrements.check = .ok ()) (s₁.storeAll o stores) fun s₂ =>
            ∃ counts₂ refs, s₁.Settled counts o slots stores s₂ counts₂ refs := by
  refine ⟨fun m o info h => ?_, fun s s₁ i type length semantics o _ hrun ha h ho => ?_⟩
  · have hr := ht.regular info (List.mem_of_getElem? (Types.info_eq_ok.mp h.info_eq))
    exact ⟨_, h.slots_ok hr, fun _ visit start => h.scan_eq hr visit start, h.nodup_slotsOf_iff⟩
  · obtain ⟨_, _, _, hs⟩ := hrun.sound
    obtain ⟨counts, l, r, hs₁⟩ := (hrun.step ha h).sound
    obtain ⟨kind, bytes, hroom⟩ := hs₁.standing.room_of_known (mem_known_of_made h ho)
    have hformed := hs₁.standing.populated.formed _ _ _ hroom
    refine ⟨counts, _, hs₁.standing.counts_eq, hformed.slots_ok, hformed.nodup_slotsOf,
      fun stores hstores => (hs₁.storeAll_stores hroom hstores).mono fun s₂ hstored => ?_⟩
    obtain ⟨counts₂, hstored⟩ := hstored
    exact ⟨counts₂, _, .of_stored hs₁ hroom (hs.refs_of_made ha h ho) hstored⟩

namespace Single

-- The object is written into its own field, taken out and written again.
def stores : List Store := [⟨0, 0, some object⟩, ⟨0, 0, none⟩, ⟨0, 0, some object⟩]

theorem stores_figures : bound.plan.heap.types = types ∧
    Object.slots made.plan.heap.types made.plan.memory object = .ok [object + 16] ∧
    made.mutators.length = 1 ∧ made.plan.isCounted object = true ∧
    (∀ counts ∈ made.plan.counts, counts.decrements.check = .ok ()) ∧
    (made.storeAll object stores).toOption.map (·.plan.memory.read (object + 16)) = some object := by
  decide +kernel

end Single

-- One decrement waits for the reference that was taken out.
theorem fields_balance_single : ∃ counts s₂ counts₂, Single.made.plan.counts = some counts ∧
    Single.made.storeAll Single.object Single.stores = .ok s₂ ∧
    s₂.plan.heap.references Single.object = .ok [Single.object] ∧
    s₂.owed counts₂ Single.object = Single.made.owed counts Single.object + 1 := by
  obtain ⟨htypes, hfound, hmutators, hcounted, hbuffers, hread⟩ := Single.stores_figures
  have hmade : Change.made Single.object ∈ Single.bound.changes (.create 0 0 0 .standard) :=
    Single.changes_made ▸ List.mem_cons_self
  have hknown := mem_known_of_made Single.perform_made hmade
  obtain ⟨counts, slots, hcounts, hslots, -, hbalance⟩ :=
    (fields_balance Single.types_registered.built).2 _ _ _ _ _ _ _ htypes Single.run_bound
      Single.allowed_made Single.perform_made hmade
  obtain rfl := Except.ok.inj (hfound.symm.trans hslots)
  have hstorable : ∀ w ∈ Single.stores, Single.made.Storable [Single.object + 16] w := by
    simp only [Single.stores, List.forall_mem_cons, Storable, hmutators, Option.mem_def,
      Option.some.injEq, forall_eq']
    exact ⟨⟨by decide, by decide, hknown⟩, ⟨by decide, by decide, nofun⟩, ⟨by decide, by decide, hknown⟩,
      nofun⟩
  rcases hbalance _ hstorable with ⟨s₂, hrun, counts₂, refs, hsettled⟩ | ⟨hshort, -⟩
  · rw [hrun] at hread
    have hread : s₂.plan.memory.read (Single.object + 16) = Single.object := Option.some.inj hread
    have hrefs : refs = [Single.object] := by
      rw [hsettled.refs_eq, List.map_singleton, hread]
      rfl
    have hb := hsettled.balance _ hcounted
    rw [hrefs, List.count_singleton_self] at hb
    have htwo : (Single.stores.map (·.value)).count (some Single.object) = 2 := by decide
    exact ⟨counts, s₂, counts₂, hcounts, hrun, hrefs ▸ hsettled.references_eq, by omega⟩
  · exact absurd (hbuffers counts hcounts) hshort

-- A slot of a field that was listed twice is visited twice.
theorem not_forall_nodup_slots : ¬∀ (types : Types) (m : Memory) (o : Nat) (info : TypeInfo),
    types.Built → Object.Instance types m o info →
      ∃ slots, Object.slots types m o = .ok slots ∧ slots.Nodup := by
  intro hall
  obtain ⟨slots, hslots, hnodup⟩ := hall Object.Couple.types .empty 8 _ Object.Couple.built
    ⟨rfl, rfl, by decide +kernel⟩
  have htwice : Object.slots Object.Couple.types .empty 8 = .ok [24, 24] := by decide +kernel
  obtain rfl := Except.ok.inj (htwice.symm.trans hslots)
  exact absurd hnodup (by decide)

end Reclaim.Session
