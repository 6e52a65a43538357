import Reclaim.Proofs.Session.Trail

/-!
What a collection of a session that copies does to the heap: all that can be reached is kept, and
references and roots follow it. Everything else goes.
-/
namespace Reclaim

open Heap Queue Sizes

-- The immortal objects that can be reached show the current mark: the last collection came to them, or
-- they are new.
def Plan.Fresh (p : Plan) : Prop :=
  ∀ x, p.Reaches [] x → p.heap.spaceOf? x = some .immortal →
    Status.isMarked (p.memory.read x) p.heap.immortal.markState = true

-- What a collection comes to can be reached.
theorem Plan.Traces.reaches {p : Plan} {x : Nat} (hx : p.Traces x) : p.Reaches [] x := by
  induction hx with
  | root hroot hne => exact .root hroot hne
  | field _ _ hrefs hmem ih => exact .field ih hrefs hmem

namespace Session

variable {s : Session} {mutators : List Mutator}

theorem known_write {s s' : Session} {i o index : Nat} {value : Option Nat}
    (h : s.perform (.write i o index value) = .ok s') : s'.known = s.known := by
  obtain ⟨m, -, h⟩ := bind_eq_ok.mp h
  obtain ⟨⟨m', plan⟩, -, h⟩ := bind_eq_ok.mp h
  cases h
  rfl

theorem known_setGlobal {s s' : Session} {index : Nat} {value : Option Nat}
    (h : s.perform (.setGlobal index value) = .ok s') : s'.known = s.known := by
  obtain ⟨memory, -, h⟩ := bind_eq_ok.mp h
  cases h
  rfl

-- A session with one object in the nursery, which a global holds and which refers to itself.
namespace Youth

def types : Types := ⟨[⟨"pair", none, [Types.scalarHeaderBytes], 32, false⟩]⟩

def config : Config := { globalRootSlots := 1 }

@[irreducible] def plan : Plan :=
  (Plan.new Sizes.blockBytes config types {}).toOption.get (by decide +kernel)

-- The first address of the nursery.
def object : Nat := Sizes.blockBytes

def slot : Nat := 4398650654720

def bound : Session := { plan, mutators := [.new plan] }

@[irreducible] def made : Session :=
  (bound.perform (.create 0 0 0 .standard)).toOption.get (by decide +kernel)

@[irreducible] def looped : Session :=
  (made.perform (.write 0 object 0 (some object))).toOption.get (by decide +kernel)

@[irreducible] def rooted : Session :=
  (looped.perform (.setGlobal 0 (some object))).toOption.get (by decide +kernel)

theorem new_plan : Plan.new Sizes.blockBytes config types {} = .ok plan := by
  unfold plan
  exact eq_ok_get _

theorem perform_made : bound.perform (.create 0 0 0 .standard) = .ok made := by
  unfold made
  exact eq_ok_get _

theorem perform_looped : made.perform (.write 0 object 0 (some object)) = .ok looped := by
  unfold looped
  exact eq_ok_get _

theorem perform_rooted : looped.perform (.setGlobal 0 (some object)) = .ok rooted := by
  unfold rooted
  exact eq_ok_get _

theorem types_registered : types.Registered :=
  have hscalar : ({} : Types).registerScalar "pair" 2 [0] = .ok (0, types) := rfl
  .scalar .empty (by decide) (by decide) hscalar

theorem trail_bound : Trail bound :=
  have hstart : Trail { plan } :=
    .start new_plan rfl ⟨by decide, by decide, by decide⟩ types_registered
  hstart.step (show Session.Permits _ .bind from trivial) rfl

-- What the session comes to, all computed at once.
theorem figures : bound.plan.heap.types.info 0 =
      .ok ⟨"pair", none, [Types.scalarHeaderBytes], 32, false⟩ ∧
    bound.changes (.create 0 0 0 .standard) = [.made object] ∧ 0 < made.mutators.length ∧
    rooted.plan.roots = [.location slot] ∧ rooted.plan.memory.read slot = object ∧
    rooted.plan.heap.references object = .ok [object] ∧ rooted.plan.scheduler.threads = [] ∧
    rooted.plan.heap.spaceOf? object = some .nursery ∧
    (rooted.plan.collect rooted.mutators).toOption.isSome = true := by
  decide +kernel

theorem permits_made : bound.Permits (.create 0 0 0 .standard) := by
  refine ⟨by decide, fun info bytes hinfo hbytes => ?_⟩
  have hinfo' := figures.1
  obtain rfl := Except.ok.inj (hinfo'.symm.trans hinfo)
  obtain rfl : 32 = bytes := Except.ok.inj hbytes
  decide

theorem known_made : object ∈ made.known := by
  have hchanges := figures.2.1
  exact mem_known_of_made perform_made (hchanges ▸ List.mem_cons_self)

theorem trail_looped : Trail looped :=
  have hmade : Trail made := trail_bound.step permits_made perform_made
  have hpermits : made.Permits (.write 0 object 0 (some object)) := ⟨figures.2.2.1, known_made⟩
  hmade.step hpermits perform_looped

theorem trail_rooted : Trail rooted :=
  trail_looped.step (show Session.Permits _ (.setGlobal _ _) from trivial) perform_rooted

theorem known_rooted : object ∈ rooted.known := by
  rw [known_setGlobal perform_rooted, known_write perform_looped]
  exact known_made

theorem roots_eq : rooted.plan.roots = [.location slot] := by
  obtain ⟨-, -, -, hroots, -⟩ := figures
  exact hroots

theorem read_slot : rooted.plan.memory.read slot = object := by
  obtain ⟨-, -, -, -, hread, -⟩ := figures
  exact hread

theorem space_object : rooted.plan.heap.spaceOf? object = some .nursery := by
  obtain ⟨-, -, -, -, -, -, -, hspace, -⟩ := figures
  exact hspace

theorem eq_object {x : Nat} (hx : rooted.plan.Reaches [] x) : x = object := by
  obtain ⟨-, -, -, -, -, hreferences, -⟩ := figures
  induction hx with
  | root hroot =>
    rw [roots_eq] at hroot
    obtain rfl := List.mem_singleton.mp hroot
    exact read_slot
  | immortal h => exact absurd h List.not_mem_nil
  | field _ hrefs hmem ih =>
    subst ih
    obtain rfl := Except.ok.inj (hreferences.symm.trans hrefs)
    exact List.mem_singleton.mp hmem

theorem collectable : rooted.plan.Collectable rooted.known := by
  obtain ⟨-, -, -, -, -, -, hthreads, -⟩ := figures
  have hnone : ∀ t, t ∉ rooted.plan.scheduler.threads := fun t ht => by
    rw [hthreads] at ht
    cases ht
  exact {
    traced o ho := eq_object ho.reaches ▸ known_rooted
    numbered t ht := absurd ht (hnone t)
    locations t ht := absurd ht (hnone t)
    inner base slot hroot := absurd hroot (by rw [roots_eq]; simp)
    inner_nodup := by
      rw [roots_eq]
      exact List.nodup_nil
    pinned o hroot := absurd hroot (by rw [roots_eq]; simp) }

theorem reaches_object : rooted.plan.Reaches [] object :=
  have hroot : Root.location slot ∈ rooted.plan.roots := by
    rw [roots_eq]
    exact List.mem_singleton_self _
  have htarget : (Root.location slot).target rooted.plan.memory = object := read_slot
  htarget ▸ .root hroot (by rw [htarget]; decide)

theorem fresh : rooted.plan.Fresh := fun x hx himm => by
  obtain rfl := eq_object hx
  rw [space_object] at himm
  cases himm

end Youth

end Session

end Reclaim
