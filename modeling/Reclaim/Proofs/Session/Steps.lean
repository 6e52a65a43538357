import Reclaim.Proofs.Session.Run

/-!
Every operation of a session leaves the plan in order.
-/
namespace Reclaim

open CountedHeap Counting Heap Queue Sizes

variable {p : Plan} {mutators : List Mutator} {counts : CountState} {l l' : Layout}
variable {r : Finset Nat} {hand : List Nat} {known : Set Nat} {h h' : Heap}

theorem Heap.Rearranged.immortals_eq (hr : Rearranged h l h' l') : l'.immortals = l.immortals :=
  congrArg (List.map Prod.fst) hr.rooms_eq

theorem checkIndex_ok {index size : Nat} (h : checkIndex index size = .ok ()) : index < size := by
  unfold checkIndex at h
  split at h
  · assumption
  · cases h

-- An entry of the table of globals is written.
theorem Globals.set_ok {g : Globals} {m m' : Memory} {index : Nat} {value : Option Nat}
    (h : g.set m index value = .ok m') :
    ∃ slot, Root.location slot ∈ g.roots ∧ ∀ a, a ≠ slot → m'.read a = m.read a := by
  obtain ⟨slot, hslot, h⟩ := bind_eq_ok.mp h
  obtain ⟨⟨⟩, hcheck, hlast⟩ := bind_eq_ok.mp hslot
  cases hlast
  refine ⟨_, List.mem_map_of_mem (List.mem_range.mpr (checkIndex_ok hcheck)), fun a ha => ?_⟩
  unfold Memory.storeRef Memory.store at h
  split at h
  · cases h
    exact Memory.read_write_of_ne ha _
  · cases h

theorem Session.read_writeAll {words : List (Nat × Nat)} {a : Nat}
    (ha : ∀ word ∈ words, word.1 ≠ a) (m : Memory) : (writeAll m words).read a = m.read a := by
  induction words generalizing m with
  | nil => rfl
  | cons word rest ih =>
    refine (ih (fun w hw => ha w (List.mem_cons_of_mem _ hw)) _).trans ?_
    exact Memory.read_write_of_ne (ha word List.mem_cons_self).symm _

namespace Standing

-- Slots of globals lie outside of the spaces.
theorem global_outside (hs : Standing p mutators counts l r hand known) {slot : Nat}
    (hslot : Root.location slot ∈ p.globals.roots) : p.heap.spaceOf? slot = none :=
  (hs.rooted.leads _ (List.mem_append_left _ hslot)).1.2

end Standing

namespace Session

variable {s s' : Session} {op : Op}

-- What an operation does to the counted objects, as its changes tell.
inductive Altered (r : Finset Nat) : List Change → Finset Nat → Prop
  | none : Altered r [] r
  | made {o : Nat} {r' : Finset Nat} : r' ⊆ insert o r → Altered r [.made o] r'
  | freed {xs : List Nat} {r' : Finset Nat} : Parted r r' xs → Altered r (xs.map .freed) r'

theorem Altered.mem {r' : Finset Nat} {changes : List Change} {o : Nat}
    (ha : Altered r changes r') (ho : o ∈ r') : o ∈ r ∨ .made o ∈ changes := by
  cases ha with
  | none => exact Or.inl ho
  | made hsub =>
    rcases Finset.mem_insert.mp (hsub ho) with rfl | ho
    · exact Or.inr List.mem_cons_self
    · exact Or.inl ho
  | freed hp => exact Or.inl (hp.subset ho)

namespace Sound

variable (hs : s.Sound counts l r)
include hs

theorem bind : ∃ l', Sound { s with mutators := .new s.plan :: s.mutators } counts l' r := by
  obtain ⟨l', hr, hstand⟩ := Mutator.new_ok hs.standing
  exact ⟨l', hstand, hr.immortals_eq.trans hs.immortals_eq⟩

theorem drop {i : Nat} (hi : i < s.mutators.length) :
    ∃ s' counts' l', s.perform (.drop i) = .ok s' ∧ s'.Sound counts' l' r := by
  obtain ⟨m, hm, hperm, -⟩ := perm_of_mutator hi
  obtain ⟨h', l', chain, hdrop, hr, hstand⟩ := Mutator.drop_ok (hs.standing.perm hperm)
  have hrun : s.perform (.drop i) = .ok { s with
      plan := { s.plan with heap := h', counts := some { counts with decrements := chain } }
      mutators := s.mutators.eraseIdx i } := by
    simp only [perform, hm, hdrop, ok_bind]
  exact ⟨_, _, l', hrun, hstand, hr.immortals_eq.trans hs.immortals_eq⟩

theorem create {i type length : Nat} {semantics : Semantics}
    (ha : s.Allowed (.create i type length semantics))
    (h : s.perform (.create i type length semantics) = .ok s') : ∃ counts' l' r',
      s'.Sound counts' l' r' ∧ Altered r (s.changes (.create i type length semantics)) r' := by
  obtain ⟨m, hm, hperm, hset⟩ := perm_of_mutator ha.1
  simp only [perform, hm, ok_bind] at h
  obtain ⟨⟨o, m', plan⟩, hnew, h⟩ := bind_eq_ok.mp h
  cases h
  obtain ⟨counts', l', r', hstand, hcreated, -⟩ :=
    Mutator.newObject_ok (hs.standing.perm hperm) ha.2 hnew
  obtain ⟨kind, size, hext, himm, hr'⟩ := hcreated.extended
  refine ⟨counts', l', r', ⟨hstand.perm (hset m'), ?_⟩, ?_⟩
  swap
  · simp only [changes, hm, ok_bind, hnew]
    refine .made ?_
    rw [hr']
    split_ifs
    · exact le_refl _
    · exact Finset.subset_insert _ _
  rw [himm, hs.immortals_eq]
  exact hext.immortals_eq s.immortals

theorem write {i o index : Nat} {value : Option Nat} (ha : s.Allowed (.write i o index value))
    (h : s.perform (.write i o index value) = .ok s') : ∃ counts', s'.Sound counts' l r := by
  obtain ⟨hi, ho, hvalue⟩ := ha
  obtain ⟨m, hm, hperm, hset⟩ := perm_of_mutator hi
  simp only [perform, hm, ok_bind] at h
  obtain ⟨⟨m', plan⟩, hwrite, h⟩ := bind_eq_ok.mp h
  cases h
  obtain ⟨counts', memory, hstand, -⟩ := Mutator.writeReference_ok (hs.standing.perm hperm) ho
    (fun v hv => (hvalue v hv).1)
    (fun v hv hc => (hvalue v hv).2 ((hs.standing.isCounted_eq v).trans hc)) hwrite
  exact ⟨counts', hstand.perm (hset m'), hs.immortals_eq⟩

theorem setGlobal {index : Nat} {value : Option Nat} (ha : s.Allowed (.setGlobal index value))
    (h : s.perform (.setGlobal index value) = .ok s') : s'.Sound counts l r := by
  obtain ⟨memory, hset, h⟩ := bind_eq_ok.mp h
  cases h
  obtain ⟨slot, hslot, hother⟩ := Globals.set_ok hset
  refine ⟨hs.standing.reroot (fun a kind hkind => hother a ?_) (ha memory hset), hs.immortals_eq⟩
  rintro rfl
  rw [hs.standing.global_outside hslot] at hkind
  cases hkind

theorem setStacks {scheduler : Scheduler} {words : List (Nat × Nat)}
    (ha : s.Allowed (.setStacks scheduler words)) :
    Sound { s with plan := { s.plan.setMemory (writeAll s.plan.memory words) with scheduler } }
      counts l r := by
  refine ⟨hs.standing.reroot (fun a kind hkind => read_writeAll ?_ _) ha.2, hs.immortals_eq⟩
  rintro word hword rfl
  rw [ha.1 word hword] at hkind
  cases hkind

theorem suspect {o : Nat} (ho : o ∈ s.known) (h : s.perform (.suspect o) = .ok s') :
    ∃ counts', s'.Sound counts' l r := by
  obtain ⟨⟨fresh, plan⟩, hrun, h⟩ := bind_eq_ok.mp h
  cases h
  obtain ⟨counts', memory, hstand, -⟩ := Plan.enqueueForCycleCheck_ok hs.standing ho hrun
  exact ⟨counts', hstand, hs.immortals_eq⟩

-- A collection ends in order, unless no buffers can be had.
theorem collect {mutators : List Mutator} (ha : s.Allowed (.collect mutators)) :
    Yields s.plan.Roomy (s.perform (.collect mutators)) fun s' => ∃ counts' l' r',
      s'.Sound counts' l' r' ∧
      Collected s.plan l r s'.mutators (s.freed mutators) s'.plan counts' l' r' ∧
      s'.immortals = s.immortals ∧ s'.known = { o | s.plan.Reaches s.immortals o } := by
  have hmax : ∀ x ∈ r, count s.plan.heap x + s.plan.rootRefs.count x < 2 ^ 56 :=
    fun x hx => ha.2 x (hs.mem_iff.mp hx)
  have hrun := Collection.run_yields (hs.standing.perm ha.1.symm) hmax
  simp only [Session.perform, Plan.collect, freed]
  rcases hrun with ⟨⟨stopped, c⟩, hok, -, plan, counts', l', r', hfinish, -, hcol⟩ | ⟨hroomy, f, hf, hshort⟩
  · simp only [hok, ok_bind, hfinish]
    refine .ok ⟨counts', l', r', ⟨?_, hcol.pruned.immortals_eq.trans hs.immortals_eq⟩, hcol, rfl,
      rfl⟩
    rw [← hs.immortals_eq]
    exact hcol.standing
  · exact Or.inr ⟨hroomy, f, by rw [hf]; rfl, hshort⟩

theorem perform (ha : s.Allowed op) (h : s.perform op = .ok s') :
    ∃ counts' l' r', s'.Sound counts' l' r' ∧ Altered r (s.changes op) r' := by
  cases op with
  | bind =>
    cases h
    obtain ⟨l', hs'⟩ := hs.bind
    exact ⟨counts, l', r, hs', .none⟩
  | drop i =>
    obtain ⟨s'', counts', l', hrun, hs'⟩ := hs.drop ha
    rw [hrun] at h
    cases h
    exact ⟨counts', l', r, hs', .none⟩
  | create i type length semantics => exact hs.create ha h
  | write i o index value =>
    obtain ⟨counts', hs'⟩ := hs.write ha h
    exact ⟨counts', l, r, hs', .none⟩
  | fill a w =>
    cases h
    obtain ⟨o, ho, info, bytes, hinfo, hsize, h1, h2, hdata⟩ := ha
    exact ⟨counts, l, r, ⟨hs.standing.writeData ho hinfo hsize h1 h2 hdata w, hs.immortals_eq⟩, .none⟩
  | setGlobal index value => exact ⟨counts, l, r, hs.setGlobal ha h, .none⟩
  | setStacks scheduler words =>
    cases h
    exact ⟨counts, l, r, hs.setStacks ha, .none⟩
  | suspect o =>
    obtain ⟨counts', hs'⟩ := hs.suspect ha h
    exact ⟨counts', l, r, hs', .none⟩
  | setTimeCap cap =>
    cases h
    exact ⟨counts, l, r, ⟨hs.standing.reroot (fun _ _ _ => rfl) (hs.standing.rooted.congr rfl rfl
      (fun _ => rfl) (fun _ _ => rfl) (Set.Subset.refl _)), hs.immortals_eq⟩, .none⟩
  | setClock clock =>
    cases h
    exact ⟨counts, l, r, ⟨hs.standing.reroot (fun _ _ _ => rfl) (hs.standing.rooted.congr rfl rfl
      (fun _ => rfl) (fun _ _ => rfl) (Set.Subset.refl _)), hs.immortals_eq⟩, .none⟩
  | collect mutators =>
    rcases hs.collect ha with ⟨s'', hrun, counts', l', r', hs', hcol, -⟩ | ⟨-, f, hf, -⟩
    · rw [hrun] at h
      cases h
      exact ⟨counts', l', r', hs', .freed hcol.parted⟩
    · rw [hf] at h
      cases h

end Sound

-- A new plan is in order.
theorem Sound.start {base : Nat} {config : Config} {types : Types} {scheduler : Scheduler} {plan : Plan}
    (hnew : Plan.new base config types scheduler = .ok plan) (hpolicy : config.policy = .refcount)
    (horigin : Mapping.Origin base) (htypes : types.Registered)
    (hnumbered : ∀ t ∈ scheduler.threads, t.Numbered)
    (hleads : ∀ t ∈ scheduler.threads, ∀ root ∈ t.roots, root.Leads plan.heap ∅) :
    ∃ counts, Sound { plan } counts {} ∅ := by
  obtain ⟨counts, hstand⟩ := Plan.standing_new hnew hpolicy horigin htypes.sound hnumbered hleads
  exact ⟨counts, hstand, rfl⟩

-- Whatever has happened, the plan is in order.
theorem Run.sound (hrun : Run s) : ∃ counts l r, s.Sound counts l r := by
  induction hrun with
  | start hnew hpolicy horigin htypes hnumbered hleads =>
    obtain ⟨counts, hs⟩ := Sound.start hnew hpolicy horigin htypes hnumbered hleads
    exact ⟨counts, {}, ∅, hs⟩
  | step _ ha h ih =>
    obtain ⟨counts, l, r, hs⟩ := ih
    obtain ⟨counts', l', r', hs', -⟩ := hs.perform ha h
    exact ⟨counts', l', r', hs'⟩

-- Objects that are held were held before or are new.
theorem Run.held_or_made (hrun : Run s) (ha : s.Allowed op) (h : s.perform op = .ok s') {o : Nat}
    (ho : s'.plan.heap.Holds o) : s.plan.heap.Holds o ∨ .made o ∈ s.changes op := by
  obtain ⟨counts, l, r, hs⟩ := hrun.sound
  obtain ⟨counts', l', r', hs', haltered⟩ := hs.perform ha h
  exact (haltered.mem (hs'.mem_iff.mpr ho)).imp_left hs.mem_iff.mp

-- Mutators may refer to what was made.
theorem mem_known_of_made {i type length : Nat} {semantics : Semantics}
    (h : s.perform (.create i type length semantics) = .ok s') {o : Nat}
    (ho : .made o ∈ s.changes (.create i type length semantics)) : o ∈ s'.known := by
  obtain ⟨m, hm, h⟩ := bind_eq_ok.mp h
  obtain ⟨⟨x, m', plan⟩, hnew, h⟩ := bind_eq_ok.mp h
  cases h
  simp only [changes, hm, ok_bind, hnew, List.mem_singleton, Change.made.injEq] at ho
  exact Or.inl ho

-- A session with one object, which a global holds.
namespace Single

-- The one field of an object holds no reference, and no cycle is to be expected.
def types : Types := ⟨[⟨"pair", none, [Types.scalarHeaderBytes], 32, true⟩]⟩

def config : Config := { policy := .refcount, globalRootSlots := 1 }

@[irreducible] def plan : Plan :=
  (Plan.new Sizes.blockBytes config types {}).toOption.get (by decide +kernel)

def object : Nat := Sizes.blockBytes + 1056

def bound : Session := { plan, mutators := [.new plan] }

@[irreducible] def made : Session :=
  (bound.perform (.create 0 0 0 .standard)).toOption.get (by decide +kernel)

@[irreducible] def rooted : Session :=
  (made.perform (.setGlobal 0 (some object))).toOption.get (by decide +kernel)

theorem new_plan : Plan.new Sizes.blockBytes config types {} = .ok plan := by
  unfold plan
  exact eq_ok_get _

theorem perform_made : bound.perform (.create 0 0 0 .standard) = .ok made := by
  unfold made
  exact eq_ok_get _

theorem perform_rooted : made.perform (.setGlobal 0 (some object)) = .ok rooted := by
  unfold rooted
  exact eq_ok_get _

theorem types_registered : types.Registered := by
  have hscalar : ({} : Types).registerScalar "pair" 2 [0] =
      .ok (0, ⟨[⟨"pair", none, [Types.scalarHeaderBytes], 32, false⟩]⟩) := rfl
  have hacyclic : Types.setAcyclic ⟨[⟨"pair", none, [Types.scalarHeaderBytes], 32, false⟩]⟩ 0 true =
      .ok types := rfl
  exact .acyclic (.scalar .empty (by decide) (by decide) hscalar) hacyclic

theorem run_bound : Run bound := by
  have hstart : Run { plan } :=
    .start new_plan rfl ⟨by decide, by decide, by decide⟩ types_registered nofun nofun
  exact hstart.step (show Session.Allowed _ .bind from trivial) rfl

theorem not_holds_bound (o : Nat) : ¬bound.plan.heap.Holds o := fun ho => by
  obtain ⟨counts, hs⟩ := Sound.start new_plan rfl
    ⟨by decide, by decide, by decide⟩ types_registered nofun nofun
  have hmem : o ∈ (∅ : Finset Nat) := hs.mem_iff.mpr ho
  cases hmem

-- The one root of the session.
def global : Nat := 3299105439744

-- What the session comes to, all computed at once.
theorem figures : bound.plan.heap.types.info 0 =
      .ok ⟨"pair", none, [Types.scalarHeaderBytes], 32, true⟩ ∧
    bound.changes (.create 0 0 0 .standard) = [.made object] ∧
    made.plan.roots = [.location global] ∧ made.plan.scheduler.threads = [] ∧
    made.plan.heap.spaceOf? global = none ∧ count made.plan.heap object = 1 ∧
    made.plan.rootRefs.count object = 0 ∧ rooted.plan.roots = [.location global] ∧
    rooted.plan.memory.read global = object ∧ rooted.plan.heap.inCountedSpace object = true ∧
    rooted.plan.heap.isAllocated object = .ok true ∧ count rooted.plan.heap object = 1 ∧
    rooted.plan.rootRefs.count object = 1 := by
  decide +kernel

theorem allowed_made : bound.Allowed (.create 0 0 0 .standard) := by
  refine ⟨by decide, fun info bytes hinfo hbytes => ?_⟩
  have hinfo' := figures.1
  obtain rfl := Except.ok.inj (hinfo'.symm.trans hinfo)
  obtain rfl : 32 = bytes := Except.ok.inj hbytes
  decide

theorem run_made : Run made := run_bound.step allowed_made perform_made

theorem changes_made : bound.changes (.create 0 0 0 .standard) = [.made object] := figures.2.1

theorem eq_object {o : Nat} (ho : made.plan.heap.Holds o) : o = object := by
  rcases run_bound.held_or_made allowed_made perform_made ho with ho | hmade
  · exact absurd ho (not_holds_bound o)
  · rw [changes_made] at hmade
    cases List.mem_singleton.mp hmade
    rfl

theorem allowed_rooted : made.Allowed (.setGlobal 0 (some object)) := by
  obtain ⟨-, -, hroots, hthreads, houtside, -, -, -, hread, -⟩ := figures
  have hknown : object ∈ made.known :=
    mem_known_of_made perform_made (changes_made ▸ List.mem_cons_self)
  intro memory h
  obtain rfl : rooted.plan.heap.memory = memory := by
    have hrooted := perform_rooted
    simp only [perform, h, ok_bind, Except.ok.injEq] at hrooted
    rw [← hrooted]
    rfl
  refine ⟨fun root hroot => ?_, fun t ht => absurd (hthreads ▸ ht) List.not_mem_nil⟩
  have hroot : root ∈ made.plan.roots := hroot
  rw [hroots] at hroot
  obtain rfl := List.mem_singleton.mp hroot
  refine ⟨⟨rfl, houtside⟩, Or.inr ?_⟩
  change rooted.plan.memory.read global ∈ made.known
  rw [hread]
  exact hknown

theorem run_rooted : Run rooted := run_made.step allowed_rooted perform_rooted

theorem eq_object_rooted {o : Nat} (ho : rooted.plan.heap.Holds o) : o = object := by
  rcases run_made.held_or_made allowed_rooted perform_rooted ho with ho | hmade
  · exact eq_object ho
  · cases hmade

theorem holds_object : rooted.plan.heap.Holds object := by
  obtain ⟨-, -, -, -, -, -, -, -, -, hcounted, hallocated, -, -⟩ := figures
  exact ⟨by decide, hcounted, hallocated⟩

theorem count_object : count rooted.plan.heap object = 1 := by
  obtain ⟨-, -, -, -, -, -, -, -, -, -, -, hcount, -⟩ := figures
  exact hcount

theorem allowed_collect_made : made.Allowed (.collect made.mutators) := by
  obtain ⟨-, -, -, -, -, hcount, hroots, -⟩ := figures
  refine ⟨.refl _, fun o ho => ?_⟩
  obtain rfl := eq_object ho
  rw [hcount, hroots]
  decide

theorem allowed_collect : rooted.Allowed (.collect rooted.mutators) := by
  obtain ⟨-, -, -, -, -, -, -, -, -, -, -, hcount, hroots⟩ := figures
  refine ⟨.refl _, fun o ho => ?_⟩
  obtain rfl := eq_object_rooted ho
  rw [hcount, hroots]
  decide

theorem reaches_object : rooted.plan.Reaches rooted.immortals object := by
  obtain ⟨-, -, -, -, -, -, -, hroots, htarget, -⟩ := figures
  have hslot : Root.location global ∈ rooted.plan.roots := by
    rw [hroots]
    exact List.mem_singleton_self _
  have htarget : (Root.location global).target rooted.plan.memory = object := htarget
  exact htarget ▸ .root hslot (by rw [htarget]; decide)

end Single

end Session

end Reclaim
