import Reclaim.Proofs.Plan.Founding
import Reclaim.Proofs.Session.Steps
import Reclaim.Proofs.Tour.Evacuation

/-!
Sessions with a plan that copies. Mutators write what they like; only when a collection comes, references
have to lead to objects. Whatever has happened, a collection keeps what can be reached and nothing else.
-/
namespace Reclaim

open Heap Queue Sizes

-- A new plan is tidy.
theorem Tidy.new {base : Nat} {config : Config} {types : Types} {scheduler : Scheduler} {p : Plan}
    (h : Plan.new base config types scheduler = .ok p) (hpolicy : config.policy = .hybrid)
    (horigin : Mapping.Origin base) (htypes : types.Sound) : Tidy p [] {} ∅ := by
  obtain ⟨nursery, mature, large, immortal, hspaces, hvalid, rfl⟩ :=
    Plan.founded_hybrid h hpolicy horigin
  obtain ⟨hthreads, -, -, -, hthreshold⟩ := Config.validate_ok hvalid
  have hslot := Plan.slot_new types horigin.aligned hspaces
  have hroom : ∀ kind o bytes,
      ¬Room (.ofSpaces types (some nursery) mature large immortal) {} kind o bytes :=
    fun kind o bytes => not_room_new rfl
  exact {
    policy_eq := hpolicy
    counts_eq := rfl
    nursery := ⟨nursery, rfl⟩
    workers_eq := ⟨config.collectorThreads - 1, by
      rw [Nat.sub_add_cancel (Nat.pos_of_ne_zero hthreads)]⟩
    populated := ⟨sound_new htypes hspaces, fun _ _ _ hr => absurd hr (hroom _ _ _)⟩
    reached_eq := rfl
    young := fun _ _ hr => absurd hr (hroom _ _ _)
    cells := fun a _ => by
      have hzero : (Heap.ofSpaces types (some nursery) mature large immortal).memory.read
          (Block.bitmapWord a) = 0 := Memory.read_empty _
      simp only [Block.isMarked, Bitmap.isMarked, hzero, Nat.zero_testBit]
    chunks := fun _ _ hr => absurd hr (hroom _ _ _)
    owners := nofun
    standard := List.Perm.refl _
    bumps := List.Perm.refl _
    queues := ⟨⟨Chain.Valid.new _ _ _, Chain.entries_new _ _ _, Chain.Sized.new _ _ _⟩,
      ⟨Chain.Valid.new _ _ _, Chain.entries_new _ _ _, Chain.Sized.new _ _ _⟩,
      ⟨Chain.Valid.new _ _ _, Chain.entries_new _ _ _, Chain.Sized.new _ _ _⟩⟩
    globals := fun slot hslot' => by
      obtain ⟨i, -, heq⟩ := List.mem_map.mp hslot'
      cases heq
      exact hslot i
    threshold := hthreshold
    known_iff := fun o => ⟨nofun, fun ⟨_, _, hr⟩ => absurd hr (hroom _ _ _)⟩ }

namespace Session

-- What mutators may do between collections: they write what they like into the objects that there are
-- and outside of the spaces, and no request exceeds every space.
def Permits (s : Session) : Op → Prop
  | .bind | .setTimeCap _ | .setClock _ | .suspect _ | .setGlobal _ _ => True
  | .drop i => i < s.mutators.length
  | .create i type length _ => i < s.mutators.length ∧
    ∀ info bytes, s.plan.heap.types.info type = .ok info → info.bytesRequired length = .ok bytes →
      bytes < Mapping.systemLimit
  | .write i o _ _ => i < s.mutators.length ∧ o ∈ s.known
  | .fill a _ => ∃ o ∈ s.known, s.plan.heap.IsData o a
  | .setStacks _ words => ∀ word ∈ words, s.plan.heap.spaceOf? word.1 = none
  | .collect _ => False

-- What a collection leaves to the mutators. All objects that there are now are known.
def resume (s : Session) (mutators : List Mutator) (plan : Plan) : Session :=
  { s with plan, mutators, known := { o | plan.heap.Holds o ∨ o ∈ s.immortals } }

-- What a plan that copies and its mutators can come to.
inductive Trail : Session → Prop
  | start {base : Nat} {config : Config} {types : Types} {scheduler : Scheduler} {plan : Plan} :
    Plan.new base config types scheduler = .ok plan → config.policy = .hybrid →
    Mapping.Origin base → types.Registered → Trail { plan }
  | step {s s' : Session} {op : Op} : Trail s → s.Permits op → s.perform op = .ok s' → Trail s'
  | collect {s : Session} {mutators stopped : List Mutator} {plan : Plan} : Trail s →
    mutators.Perm s.mutators → s.plan.Collectable s.known →
    s.plan.collect mutators = .ok (stopped, plan) → Trail (s.resume stopped plan)

-- The state of the plan accounts for everything that happened.
structure InOrder (s : Session) (l : Layout) : Prop where
  tidy : Tidy s.plan s.mutators l s.known
  immortals_eq : l.immortals = s.immortals

namespace InOrder

variable {s s' : Session} {l : Layout} {op : Op}
variable (hs : s.InOrder l)
include hs

theorem bind : ∃ l', InOrder { s with mutators := .new s.plan :: s.mutators } l' :=
  let ⟨l', himm, htidy⟩ := hs.tidy.bind
  ⟨l', htidy, himm.trans hs.immortals_eq⟩

theorem drop {i : Nat} (hi : i < s.mutators.length) :
    ∃ s' l', s.perform (.drop i) = .ok s' ∧ s'.InOrder l' := by
  obtain ⟨m, hm, hperm, -⟩ := perm_of_mutator hi
  obtain ⟨cells, l', hdrop, himm, htidy⟩ := (hs.tidy.perm hperm).drop
  have hrun : s.perform (.drop i) = .ok { s with
      plan := s.plan.setHeap { s.plan.heap with mature := cells }
      mutators := s.mutators.eraseIdx i } := by
    simp only [perform, hm, hdrop, ok_bind]
  exact ⟨_, l', hrun, htidy, himm.trans hs.immortals_eq⟩

theorem create {i type length : Nat} {semantics : Semantics}
    (ha : s.Permits (.create i type length semantics))
    (h : s.perform (.create i type length semantics) = .ok s') : ∃ l', s'.InOrder l' := by
  obtain ⟨m, hm, hperm, hset⟩ := perm_of_mutator ha.1
  simp only [perform, hm, ok_bind] at h
  obtain ⟨⟨o, m', plan⟩, hnew, h⟩ := bind_eq_ok.mp h
  cases h
  obtain ⟨kind, size, l', hext, himm, htidy, -⟩ := (hs.tidy.perm hperm).newObject ha.2 hnew
  refine ⟨l', htidy.perm (hset m'), ?_⟩
  rw [himm, hs.immortals_eq]
  exact hext.immortals_eq s.immortals

theorem write {i o index : Nat} {value : Option Nat} (ha : s.Permits (.write i o index value))
    (h : s.perform (.write i o index value) = .ok s') : s'.InOrder l := by
  obtain ⟨hi, ho⟩ := ha
  obtain ⟨m, hm, hperm, hset⟩ := perm_of_mutator hi
  simp only [perform, hm, ok_bind] at h
  obtain ⟨⟨m', plan⟩, hwrite, h⟩ := bind_eq_ok.mp h
  cases h
  obtain ⟨rfl, memory, -, htidy, -⟩ := (hs.tidy.perm hperm).writeReference ho hwrite
  exact ⟨htidy.perm (hset m'), hs.immortals_eq⟩

theorem setGlobal {index : Nat} {value : Option Nat}
    (h : s.perform (.setGlobal index value) = .ok s') : s'.InOrder l := by
  obtain ⟨memory, hset, h⟩ := bind_eq_ok.mp h
  cases h
  obtain ⟨slot, hslot, hother⟩ := Globals.set_ok hset
  refine ⟨hs.tidy.writeOutside fun a kind hkind => hother a ?_, hs.immortals_eq⟩
  rintro rfl
  rw [(hs.tidy.globals a hslot).2] at hkind
  cases hkind

theorem setStacks {scheduler : Scheduler} {words : List (Nat × Nat)}
    (ha : s.Permits (.setStacks scheduler words)) :
    InOrder { s with plan := { s.plan.setMemory (writeAll s.plan.memory words) with scheduler } } l := by
  have htidy : Tidy (s.plan.setMemory (writeAll s.plan.memory words)) s.mutators l s.known :=
    hs.tidy.writeOutside fun a kind hkind => read_writeAll (by
      rintro word hword rfl
      rw [ha word hword] at hkind
      cases hkind) _
  exact ⟨htidy.congr rfl rfl rfl rfl rfl rfl, hs.immortals_eq⟩

theorem suspect {o : Nat} (h : s.perform (.suspect o) = .ok s') : s'.InOrder l := by
  obtain ⟨⟨fresh, plan⟩, hrun, h⟩ := bind_eq_ok.mp h
  cases h
  simp only [Plan.enqueueForCycleCheck, hs.tidy.counts_eq] at hrun
  cases hrun
  exact hs

theorem perform (ha : s.Permits op) (h : s.perform op = .ok s') : ∃ l', s'.InOrder l' := by
  cases op with
  | bind =>
    cases h
    exact hs.bind
  | drop i =>
    obtain ⟨s'', l', hrun, hs'⟩ := hs.drop ha
    rw [hrun] at h
    cases h
    exact ⟨l', hs'⟩
  | create i type length semantics => exact hs.create ha h
  | write i o index value => exact ⟨l, hs.write ha h⟩
  | fill a w =>
    cases h
    obtain ⟨o, ho, info, bytes, hinfo, hsize, h1, h2, hdata⟩ := ha
    exact ⟨l, hs.tidy.writeData ho hinfo hsize h1 h2 hdata w, hs.immortals_eq⟩
  | setGlobal index value => exact ⟨l, hs.setGlobal h⟩
  | setStacks scheduler words =>
    cases h
    exact ⟨l, hs.setStacks ha⟩
  | suspect o => exact ⟨l, hs.suspect h⟩
  | setTimeCap cap =>
    cases h
    exact ⟨l, hs.tidy.congr rfl rfl rfl rfl rfl rfl, hs.immortals_eq⟩
  | setClock clock =>
    cases h
    exact ⟨l, hs.tidy.congr rfl rfl rfl rfl rfl rfl, hs.immortals_eq⟩
  | collect mutators => exact absurd ha id

-- The objects that a collection leaves are those that are held, and the immortal ones.
theorem resume {p₀ p₁ plan : Plan} {stopped : List Mutator} {l₀ l' : Layout} {stats : TraceStats}
    {q : Progress} (he : Evacuated s.plan p₀ p₁ plan stopped l l₀ l' s.known stats q) :
    (s.resume stopped plan).InOrder l' := by
  have hsound := he.released.left.sound
  have himm : l'.immortals = s.immortals := by
    rw [Layout.immortals, he.released.left.plots_eq, he.closed.toured.plots_eq.2]
    exact he.opened.immortals_eq.trans hs.immortals_eq
  refine ⟨?_, himm⟩
  have hknown : { o | ∃ kind bytes, Room plan.heap l' kind o bytes } =
      { o | plan.heap.Holds o ∨ o ∈ s.immortals } := by
    ext o
    constructor
    · rintro ⟨kind, bytes, hr⟩
      have hmod := (hsound.room_mem hr).1
      by_cases hk : kind.isCounted = true
      · have hcounted := (hsound.inCountedSpace_room hr).trans hk
        exact Or.inl ⟨hmod, hcounted, (hsound.isAllocated_iff hmod hcounted).mpr ⟨kind, bytes, hr, hk⟩⟩
      · have hne := ((he.released.left.room_iff _ _ _).mp hr).2.1
        obtain rfl : kind = .immortal := by cases kind <;> first | rfl | contradiction
        exact Or.inr (himm ▸ (Standing.mem_immortals (p := plan)).mpr ⟨bytes, hr⟩)
    · rintro (ho | ho)
      · obtain ⟨kind, bytes, hr, -⟩ := (hsound.isAllocated_iff ho.aligned ho.counted).mp ho.allocated
        exact ⟨kind, bytes, hr⟩
      · obtain ⟨bytes, hr⟩ := (Standing.mem_immortals (p := plan)).mp (himm ▸ ho)
        exact ⟨_, bytes, hr⟩
  change Tidy plan stopped l' { o | plan.heap.Holds o ∨ o ∈ s.immortals }
  rw [← hknown]
  exact he.released.tidy

end InOrder

theorem Trail.inOrder {s : Session} (ht : Trail s) : ∃ l, s.InOrder l := by
  induction ht with
  | start hnew hpolicy horigin htypes => exact ⟨{}, Tidy.new hnew hpolicy horigin htypes.sound, rfl⟩
  | step _ ha h ih =>
    obtain ⟨l, hs⟩ := ih
    exact hs.perform ha h
  | collect _ hperm hc h ih =>
    obtain ⟨l, hs⟩ := ih
    rcases Plan.collect_affords (hs.tidy.perm hperm.symm) hc with
      ⟨stopped, plan, p₀, p₁, l₀, l', stats, q, hrun, he⟩ | hstarves
    · rw [hrun] at h
      cases h
      exact ⟨l', hs.resume he⟩
    · obtain ⟨f, herror, -⟩ := hstarves.collect_error
      rw [herror] at h
      cases h

end Session

end Reclaim
