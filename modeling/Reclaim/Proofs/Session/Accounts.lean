import Reclaim.Proofs.Plan.Totals
import Reclaim.Proofs.Session.HandedOut
import Reclaim.Proofs.Session.Schedules

/-!
What collections tell of the objects that they copy and free. It agrees with how many there are before and
after, whether counts free them or whatever is not reached is swept.
-/
namespace Reclaim

open Heap Queue Sizes Trial

-- Copies are objects that were not there before.
theorem Toured.liveCount_eq {g : Ground} {h : Heap} {l : Layout} {seen : List Nat} {place : Nat → Nat}
    (ht : Toured g h l seen place) (hg : g.Ready) :
    h.liveCount = g.heap.liveCount + seen.countP fun x => g.Young x := by
  let young := seen.filter fun x => g.Young x
  have hmem : ∀ x, x ∈ young ↔ x ∈ seen ∧ g.Young x := fun x => by
    rw [List.mem_filter, decide_eq_true_eq]
  have hnodup : (young.map place).Nodup := (ht.nodup.filter _).map_on fun x hx y hy =>
    ht.injective x ((hmem x).mp hx).1 y ((hmem y).mp hy).1
  have hlasting : h.lasting l = g.heap.lasting g.layout ∪ ((young.map place).toFinset : Set Nat) := by
    ext o
    rw [Set.mem_union, Finset.mem_coe, List.mem_toFinset, List.mem_map]
    constructor
    · rintro ⟨kind, bytes, hk, hr⟩
      rcases ht.room_cases _ _ _ hr with hr | ⟨-, x, hx, hyoung, rfl⟩
      · exact Or.inl ⟨kind, bytes, hk, hr⟩
      · exact Or.inr ⟨x, (hmem x).mpr ⟨hx, hyoung⟩, rfl⟩
    · rintro (⟨kind, bytes, hk, hr⟩ | ⟨x, hx, rfl⟩)
      · exact ⟨kind, bytes, hk, ht.room _ _ _ hr⟩
      · obtain ⟨-, -, bytes, -, hr, -⟩ := ht.moved x ((hmem x).mp hx).1 ((hmem x).mp hx).2
        exact ⟨.mature, bytes, rfl, hr⟩
  have hapart : Disjoint (g.heap.lasting g.layout) ((young.map place).toFinset : Set Nat) := by
    rw [Set.disjoint_left]
    rintro o ⟨kind, bytes, -, hr⟩ ho
    obtain ⟨x, hx, rfl⟩ := List.mem_map.mp (List.mem_toFinset.mp ho)
    exact (ht.moved x ((hmem x).mp hx).1 ((hmem x).mp hx).2).2.1 _ _ hr
  rw [ht.sound.liveCount_eq_ncard, hg.populated.sound.liveCount_eq_ncard, hlasting,
    Set.ncard_union_eq hapart hg.populated.sound.finite_lasting (Finset.finite_toSet _),
    Set.ncard_coe_finset, List.toFinset_card_of_nodup hnodup, List.length_map,
    List.countP_eq_length_filter]

namespace Plan

variable {p p' : Plan} {mutators stopped : List Mutator} {l l' : Layout}

end Plan

namespace Session

-- The figures of all collections so far, the last one first.
inductive Recorded : Session → List Metrics → Prop
  | start {base : Nat} {config : Config} {types : Types} {scheduler : Scheduler} {plan : Plan} :
    Plan.new base config types scheduler = .ok plan → Recorded { plan } []
  | step {s s' : Session} {ms : List Metrics} {op : Op} : Recorded s ms →
    (∀ mutators, op ≠ .collect mutators) → s.perform op = .ok s' → Recorded s' ms
  | collect {s s' : Session} {ms : List Metrics} {mutators stopped : List Mutator} : Recorded s ms →
    s.plan.collect mutators = .ok (stopped, s'.plan) → Recorded s' (s'.plan.last :: ms)

variable {s s' : Session} {op : Op} {ms : List Metrics} {mutators : List Mutator}

-- The totals of a plan are those of the collections `ms`, in words.
structure Sums (t : Totals) (ms : List Metrics) : Prop where
  copied_eq : t.copied = (ms.map Metrics.copied).sum % Word.bound
  freed_eq : t.freed = (ms.map Metrics.freed).sum % Word.bound
  cycleFreed_eq : t.cycleFreed = (ms.map fun m => m.cycles.freed).sum % Word.bound

theorem Sums.record {t : Totals} {m : Metrics} (h : Sums t ms) : Sums (t.record m) (m :: ms) := by
  have hadd : ∀ {a n b : Nat}, a = n % Word.bound → Word.wrapAdd a b = (b + n) % Word.bound := by
    rintro a n b rfl
    rw [Word.wrapAdd, Nat.mod_add_mod, Nat.add_comm]
  exact ⟨hadd h.copied_eq, hadd h.freed_eq, hadd h.cycleFreed_eq⟩

namespace Single

@[irreducible] def settled : List Mutator × Plan :=
  (made.plan.collect made.mutators).toOption.get (by decide +kernel)

end Single

end Session

end Reclaim
