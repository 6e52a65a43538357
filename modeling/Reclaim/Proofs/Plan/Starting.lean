import Mathlib.Algebra.Group.Nat.Defs
import Reclaim.Plan.Basic
import Reclaim.Proofs.Mapping

/-!
The start of a plan. With a configuration that passes its checks, all that can go wrong is that the
system has no room for a space, as long as the limit of the candidates' filter is a word.
-/
namespace Reclaim

open Sizes

-- The system had no room for a space.
def Fault.IsUnplaced (f : Fault) : Prop :=
  ∃ space source, f = .reservation space source ∧ source.kind = "OutOfMemory"

-- One block or more, each of them whole.
structure Sizes.Blocks (bytes : Nat) : Prop where
  pos : 0 < bytes
  dvd : blockBytes ∣ bytes

namespace Space

-- Rounding up the base of the mapping gives the start of the space, and does not overflow when the
-- system placed the mapping at a page and not around the end of memory.
def Rounded (s : Space) : Prop :=
  pageBytes ∣ s.mapping.base → s.mapping.base + s.mapping.total ≤ Word.bound →
    Word.nextMultiple s.mapping.base blockBytes = .ok s.start

-- Whole blocks are reserved as they are, wherever the system places them.
theorem reserve_concludes {bytes unit : Nat} (hunit : Word.isPowerOfTwo unit = true)
    (hbytes : Blocks bytes) (name : String) (system : Nat → Option Nat) :
    Concludes Fault.IsUnplaced (reserve name bytes unit system) Rounded := by
  simp only [reserve, hunit, Word.nextMultiple_self hbytes.dvd, Bool.not_true, Bool.false_eq_true,
    if_false, ok_bind]
  split
  · rename_i mapping hmap
    exact .ok fun hpage hwrap => (Mapping.contained_of_map hmap hpage hwrap).start_eq
  · rename_i source hmap
    have hpower : Word.isPowerOfTwo (max blockBytes 1) = true := by decide
    refine .error ⟨name, source, rfl, Mapping.kind_of_map ?_ ?_ hmap⟩
    · exact hbytes.pos
    · exact hpower

end Space

namespace Config

variable {c : Config}

theorem checkExtent_ok {field : String} {bytes : Nat} (h : checkExtent field bytes = .ok ()) :
    Blocks bytes := by
  unfold checkExtent at h
  split at h
  · cases h
  · rename_i hwhole
    obtain ⟨hle, hdvd⟩ := not_or.mp hwhole
    have hblock : 0 < blockBytes := by decide
    exact ⟨by omega, Nat.dvd_of_mod_eq_zero (Decidable.not_not.mp hdvd)⟩

-- Every space of a checked configuration is made of whole blocks.
theorem validate_extents (h : c.validate = .ok ()) : Blocks c.nurseryBytes ∧
    Blocks c.matureBytes ∧ Blocks c.largeBytes ∧ Blocks c.immortalBytes := by
  simp only [validate, bind_eq_ok] at h
  obtain ⟨_, -, _, h1, _, h2, _, h3, _, h4, -⟩ := h
  exact ⟨checkExtent_ok h1, checkExtent_ok h2, checkExtent_ok h3, checkExtent_ok h4⟩

-- No check bounds the metadata pages, of which each adds 256 candidates to the limit.
theorem filterLimit_ok (h : c.cycleMetadataPages < 2 ^ 56) :
    c.filterLimit = .ok (c.cycleMetadataPages * 256) := by
  have hlt : c.cycleMetadataPages * 256 < Word.bound := by
    have hbound : Word.bound = 2 ^ 56 * 256 := by decide
    omega
  exact Word.mul_ok hlt

end Config

theorem CountState.new_of_lt {c : Config} (h : c.cycleMetadataPages < 2 ^ 56) :
    ∃ counts, CountState.new c = .ok counts := by
  rw [CountState.new, Trial.Settings.ofConfig, Config.filterLimit_ok h]
  exact ⟨_, rfl⟩

theorem Worker.table_ok {n : Nat} (h : checkTable (n * words) = .ok ()) :
    Worker.table n = .ok ((List.range n).map fun i => { ordinal := i + 1 }) := by
  rw [table, h, ok_bind]

theorem Globals.new_ok {capacity : Nat} (h : checkTable capacity = .ok ()) (base : Nat) :
    Globals.new base capacity = .ok { base, capacity } := by
  rw [new, h, ok_bind]

namespace Plan

variable {base : Nat} {config : Config} {types : Types} {scheduler : Scheduler}

-- The spaces that all plans have are reserved one behind the other.
theorem reserve_rest (hvalid : config.validate = .ok ())
    {next : Nat} {rest : Space → Space → Space → Except Fault Plan} {P : Plan → Prop}
    (h : ∀ mature large immortal, mature.Rounded → large.Rounded → immortal.Rounded →
      Concludes Fault.IsUnplaced (rest mature large immortal) P) :
    Concludes Fault.IsUnplaced (do
      let mature ← reserve "mature" config.matureBytes blockPages next
      let large ← reserve "large" config.largeBytes 1 mature.mapping.behind
      let immortal ← reserve "immortal" config.immortalBytes blockPages large.mapping.behind
      rest mature large immortal) P := by
  obtain ⟨-, hmature, hlarge, himmortal⟩ := Config.validate_extents hvalid
  refine (Space.reserve_concludes (by decide) hmature _ _).bind fun mature h1 => ?_
  refine (Space.reserve_concludes (by decide) hlarge _ _).bind fun large h2 => ?_
  refine (Space.reserve_concludes (by decide) himmortal _ _).bind fun immortal h3 => ?_
  exact h mature large immortal h1 h2 h3

-- The workers and the globals fit into tables.
structure Tabled (config : Config) : Prop where
  workers : checkTable (config.collectorThreads * Worker.words) = .ok ()
  globals : checkTable config.globalRootSlots = .ok ()

-- A plan with a checked configuration starts, or the system has no room for one of its spaces.
theorem new_starts (hvalid : config.validate = .ok ()) (htables : Tabled config)
    (hlimit : config.policy = .refcount → config.cycleMetadataPages < 2 ^ 56) :
    (∃ p, Plan.new base config types scheduler = .ok p ∧ ∀ s ∈ p.heap.spaces, s.Rounded) ∨
      ∃ f, Plan.new base config types scheduler = .error f ∧ f.IsUnplaced := by
  change Concludes Fault.IsUnplaced (Plan.new base config types scheduler) _
  have hnursery := (Config.validate_extents hvalid).1
  cases hpolicy : config.policy with
  | hybrid =>
    simp only [Plan.new, hvalid, hpolicy, ok_bind]
    refine (Space.reserve_concludes (by decide) hnursery _ _).bind fun nursery h1 => ?_
    refine reserve_rest hvalid fun mature large immortal h2 h3 h4 => ?_
    rw [Worker.table_ok htables.workers, Globals.new_ok htables.globals]
    exact .ok (by simp [Heap.spaces, h1, h2, h3, h4])
  | refcount =>
    obtain ⟨counts, hcounts⟩ := CountState.new_of_lt (hlimit hpolicy)
    simp only [Plan.new, hvalid, hpolicy, ok_bind]
    refine reserve_rest hvalid fun mature large immortal h2 h3 h4 => ?_
    rw [Worker.table_ok htables.workers, hcounts, Globals.new_ok htables.globals]
    exact .ok (by simp [Heap.spaces, h2, h3, h4])

-- A plan that counts, with the sizes that nobody set.
theorem new_starts_counting : ∃ p, Plan.new 4096 { policy := .refcount } {} {} = .ok p ∧
    ∀ s ∈ p.heap.spaces, s.Rounded := by
  have hstarts := @new_starts 4096 { policy := .refcount } {} {} rfl ⟨rfl, rfl⟩ fun _ => by decide
  refine hstarts.resolve_right ?_
  rintro ⟨f, hfault, -⟩
  have hok : (Plan.new 4096 { policy := .refcount } {} {}).toOption.isSome = true := by decide +kernel
  rw [hfault] at hok
  cases hok

-- One metadata page more than fits is not refused, and the limit overflows.
theorem not_forall_valid_starts : ¬∀ base config types scheduler, config.validate = .ok () →
    Tabled config → (∃ p, Plan.new base config types scheduler = .ok p) ∨
      ∃ space source, Plan.new base config types scheduler = .error (.reservation space source) := by
  intro h
  have hoverflow : Plan.new 4096 { policy := .refcount, cycleMetadataPages := 2 ^ 56 } {} {} =
      .error .overflow := rfl
  rcases h 4096 { policy := .refcount, cycleMetadataPages := 2 ^ 56 } {} {} rfl ⟨rfl, rfl⟩ with
    ⟨p, hstart⟩ | ⟨space, source, hstart⟩
  all_goals
    rw [hoverflow] at hstart
    cases hstart

end Plan

end Reclaim
