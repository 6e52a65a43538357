import Reclaim.Plan.Mutator
import Reclaim.Proofs.Worklist

/-!
Damage to counts: a count that falls below zero, and memory that is given back twice. What mutators do
runs out of room or breaks off where a promise was broken, but never reports such damage.
-/
namespace Reclaim

open Queue Sizes

def Fault.IsDamage : Fault → Prop
  | .fatal (.countUnderflow _) | .fatal (.greyUnderflow _) | .fatal (.doubleFree _) => True
  | _ => False

-- The computation reports no damage.
def Harmless {α : Type} (x : Except Fault α) : Prop := ∀ f, x = .error f → ¬f.IsDamage

namespace Harmless

variable {α β : Type}

protected theorem ok (a : α) : Harmless (.ok a) := nofun

protected theorem error {f : Fault} (h : ¬f.IsDamage) : Harmless (.error f : Except Fault α) := by
  rintro _ ⟨⟩
  exact h

protected theorem bind {x : Except Fault α} {f : α → Except Fault β} (hx : Harmless x)
    (hf : ∀ a, Harmless (f a)) : Harmless (x >>= f) := by
  cases x with
  | ok a => exact hf a
  | error e => exact .error (hx e rfl)

protected theorem ite {c : Prop} [Decidable c] {x y : Except Fault α} (hx : Harmless x) (hy : Harmless y) :
    Harmless (if c then x else y) := by
  split
  · exact hx
  · exact hy

end Harmless

namespace Word

theorem harmless_add (a b : Nat) : Harmless (add a b) := .ite (.ok _) (.error nofun)

theorem harmless_sub (a b : Nat) : Harmless (sub a b) := .ite (.ok _) (.error nofun)

theorem harmless_mul (a b : Nat) : Harmless (mul a b) := .ite (.ok _) (.error nofun)

theorem harmless_nextMultiple (a unit : Nat) : Harmless (nextMultiple a unit) :=
  .ite (.ok _) (harmless_add _ _)

theorem harmless_alignUp (a align : Nat) : Harmless (alignUp a align) :=
  .ite ((harmless_add _ _).bind fun _ => .ok _) (.error nofun)

end Word

open Word

namespace Memory

theorem harmless_load (m : Memory) (a : Nat) : Harmless (m.load a) := .ite (.ok _) (.error nofun)

theorem harmless_loadRef (m : Memory) (a : Nat) : Harmless (m.loadRef a) :=
  (m.harmless_load a).bind fun _ => .ok _

theorem harmless_store (m : Memory) (a v : Nat) : Harmless (m.store a v) := .ite (.ok _) (.error nofun)

end Memory

namespace Space

theorem harmless_take (s : Space) (pages : Nat) : Harmless (s.take pages) := by
  unfold take
  split
  · exact .ok _
  · refine (harmless_add _ _).bind fun top => ?_
    split
    · exact .error nofun
    · exact .ok _

theorem harmless_commit (s : Space) (first pages : Nat) : Harmless (s.commit first pages) := by
  refine (harmless_add _ _).bind fun _ => (harmless_nextMultiple _ _).bind fun _ =>
    (harmless_sub _ _).bind fun _ => ?_
  split
  · exact .ok _
  · exact .error nofun

theorem harmless_acquire (s : Space) (pages : Nat) : Harmless (s.acquire pages) :=
  (harmless_nextMultiple _ _).bind fun _ => (s.harmless_take _).bind fun _ =>
    (harmless_commit _ _ _).bind fun _ => (harmless_add _ _).bind fun _ => .ok _

end Space

open Space

theorem Bump.harmless_alloc (b : Bump) (s : Space) (bytes align : Nat) :
    Harmless (b.alloc s bytes align) := by
  refine (harmless_alignUp _ _).bind fun _ => (harmless_add _ _).bind fun _ => .ite (.ok _) ?_
  refine (harmless_mul _ _).bind fun _ => (harmless_acquire _ _).bind fun _ =>
    (harmless_alignUp _ _).bind fun _ => (harmless_add _ _).bind fun _ =>
    (harmless_mul _ _).bind fun _ => (harmless_add _ _).bind fun _ => ?_
  split
  · exact .error nofun
  · exact .ok _

theorem Block.harmless_findFree? (m : Memory) (block next : Nat) :
    Harmless (findFree? m block next) := by
  suffices h : ∀ cells i, Harmless (findFrom? m block i cells) from h _ _
  intro cells
  induction cells with
  | zero => exact fun _ => .ok _
  | succ cells ih =>
    intro i
    refine .bind ?_ fun _ => .ite (.error nofun) (.ite (ih _) (.ok _))
    exact (harmless_mul _ _).bind fun _ => (harmless_add _ _).bind fun _ => harmless_add _ _

namespace Cells

theorem harmless_takeBlock (c : Cells) (m : Memory) (size : Nat) :
    Harmless (c.takeBlock m size) := by
  unfold takeBlock
  split
  · exact .ok _
  · exact (harmless_acquire _ _).bind fun _ => .ok _

end Cells

namespace CellAllocator

theorem harmless_takeCell? (m : Memory) (cursor : CellCursor) : Harmless (takeCell? m cursor) := by
  refine (Block.harmless_findFree? _ _ _).bind fun found => ?_
  split <;> exact .ok _

theorem harmless_takeShelved (c : Cells) (m : Memory) (size blocks : Nat) :
    Harmless (takeShelved c m size blocks) := by
  induction blocks generalizing c m with
  | zero => exact .error nofun
  | succ blocks ih =>
    refine (c.harmless_takeBlock m size).bind fun _ => (harmless_takeCell? _ _).bind fun found => ?_
    split
    · exact .ok _
    · exact ih _ _

theorem harmless_take (x : CellAllocator) (c : Cells) (m : Memory) (size : Nat) :
    Harmless (x.take c m size) := by
  unfold take
  dsimp only
  split
  · refine (harmless_takeCell? _ _).bind fun owned => ?_
    split
    · exact .ok _
    · exact harmless_takeShelved _ _ _ _
  · exact harmless_takeShelved _ _ _ _

theorem harmless_alloc (x : CellAllocator) (c : Cells) (m : Memory) (bytes align : Nat) :
    Harmless (x.alloc c m bytes align) := by
  unfold alloc
  split
  · exact .ite (.error nofun) (.error nofun)
  · exact .ite (.error nofun) ((harmless_take _ _ _ _).bind fun _ => .ok _)

end CellAllocator

theorem ChunkList.harmless_push (l : ChunkList) (m : Memory) (chunk : Nat) :
    Harmless (l.push m chunk) := by
  have hfield : ∀ m chunk offset v, Harmless (Chunk.setField m chunk offset v) :=
    fun _ _ _ _ => (harmless_add _ _).bind fun _ => Memory.harmless_store _ _ _
  refine (hfield _ _ _ _).bind fun _ => (hfield _ _ _ _).bind fun _ => ?_
  split
  · exact .ok _
  · exact (hfield _ _ _ _).bind fun _ => .ok _

theorem Treadmill.harmless_alloc (t : Treadmill) (m : Memory) (bytes align : Nat) :
    Harmless (t.alloc m bytes align) := by
  have hfield : ∀ m chunk offset v, Harmless (Chunk.setField m chunk offset v) :=
    fun _ _ _ _ => (harmless_add _ _).bind fun _ => Memory.harmless_store _ _ _
  unfold alloc
  split
  · exact .error nofun
  · exact (harmless_add _ _).bind fun _ => (harmless_acquire _ _).bind fun _ =>
      (hfield _ _ _ _).bind fun _ => (hfield _ _ _ _).bind fun _ =>
      (ChunkList.harmless_push _ _ _).bind fun _ => .ok _

namespace Object

theorem harmless_check (o : Nat) : Harmless (check o) := .ite (.ok _) (.error nofun)

theorem harmless_info (t : Types) (type : Nat) : Harmless (t.info type) := by
  unfold Types.info
  split
  · exact .ok _
  · exact .error nofun

theorem harmless_slot? (t : Types) (m : Memory) (o index : Nat) :
    Harmless (slot? t m o index) := by
  have hinfo : Harmless (info t m o) :=
    (harmless_add _ _).bind fun _ => (harmless_check _).bind fun _ => harmless_info _ _
  refine hinfo.bind fun _ => .bind ?_ fun found => ?_
  · unfold TypeInfo.slotOffset?
    split
    · exact .ite ((harmless_mul _ _).bind fun _ => (harmless_add _ _).bind fun _ => .ok _) (.ok _)
    · exact .ok _
    · exact .ok _
  · split
    · exact (harmless_add _ _).bind fun _ => .ok _
    · exact .ok _

end Object

theorem TypeInfo.harmless_bytesRequired (info : TypeInfo) (length : Nat) :
    Harmless (info.bytesRequired length) := by
  unfold bytesRequired
  split
  · exact (harmless_mul _ _).bind fun _ => (harmless_add _ _).bind fun _ =>
      harmless_nextMultiple _ _
  · exact harmless_nextMultiple _ _

theorem Sizes.harmless_checkTable (words : Nat) : Harmless (checkTable words) :=
  .ite (.ok _) (.error nofun)

theorem Globals.harmless_set (g : Globals) (m : Memory) (index : Nat) (value : Option Nat) :
    Harmless (g.set m index value) :=
  .bind (.bind (.ite (.ok _) (.error nofun)) fun _ => .ok _) fun _ => Memory.harmless_store _ _ _

namespace Plan

theorem harmless_poll (p : Plan) (must : Bool) (space : String) : Harmless (p.poll must space) := by
  refine .ite (.ok _) (.bind ?_ fun _ => .ite (.ok _) (.ok _))
  exact (harmless_mul _ _).bind fun _ => (harmless_add _ _).bind fun _ =>
    (harmless_add _ _).bind fun _ => harmless_add _ _

theorem harmless_enqueueForCycleCheck (p : Plan) (o : Nat) :
    Harmless (p.enqueueForCycleCheck o) := by
  unfold enqueueForCycleCheck
  split
  · exact .ok _
  · refine .ite (.ok _) ((Object.harmless_check _).bind fun _ => .ite (.ok _) (.bind ?_ fun _ => .ok _))
    unfold Trial.Collector.propose
    split
    · exact (harmless_checkTable _).bind fun _ => .ok _
    · exact .ok _

end Plan

namespace Mutator

theorem harmless_allocIn (m : Mutator) (p : Plan) (bytes align : Nat) (semantics : Semantics) :
    Harmless (m.allocIn p bytes align semantics) := by
  have hcells : ∀ x, Harmless (allocCells p x bytes align) := fun x =>
    (x.harmless_alloc _ _ _ _).bind fun _ => .ok _
  cases semantics with
  | standard =>
    refine .bind ?_ fun _ => .ok _
    unfold allocStandard
    split
    · exact (Bump.harmless_alloc _ _ _ _).bind fun _ => .ok _
    · exact .error nofun
    · exact (hcells _).bind fun _ => .ok _
  | mature => exact (hcells _).bind fun _ => .ok _
  | large => exact (Treadmill.harmless_alloc _ _ _ _).bind fun _ => .ok _
  | immortal => exact (Bump.harmless_alloc _ _ _ _).bind fun _ => .ok _

theorem harmless_defer (m : Mutator) (p : Plan) (o : Nat) : Harmless (m.defer p o) := by
  unfold defer
  split
  · exact .ok _
  · exact (harmless_checkTable _).bind fun _ => .ok _

theorem harmless_postAlloc (m : Mutator) (p : Plan) (o type length : Nat) :
    Harmless (m.postAlloc p o type length) := by
  unfold postAlloc
  extract_lets counted jp
  have hjp : ∀ green, Harmless (jp green) := fun green => (Object.harmless_check _).bind fun _ =>
    (Object.harmless_info _ _).bind fun _ => .ite (harmless_defer _ _ _) (.ok _)
  exact .ite ((Object.harmless_info _ _).bind fun _ => hjp _) (hjp _)

theorem harmless_newObject (m : Mutator) (p : Plan) (type length : Nat) (semantics : Semantics) :
    Harmless (m.newObject p type length semantics) :=
  (Object.harmless_info _ _).bind fun _ => (TypeInfo.harmless_bytesRequired _ _).bind fun _ =>
    .bind ((harmless_allocIn _ _ _ _ _).bind fun _ => (Plan.harmless_poll _ _ _).bind fun _ => .ok _)
      fun _ => (harmless_postAlloc _ _ _ _ _).bind fun _ => .ok _

theorem harmless_writeReference (m : Mutator) (p : Plan) (o index : Nat) (value : Option Nat) :
    Harmless (m.writeReference p o index value) := by
  have hslot : Harmless (fieldSlot p o index) := by
    refine (Object.harmless_slot? _ _ _ _).bind fun found => ?_
    split
    · exact .ok _
    · exact .error nofun
  have hretain : ∀ x, Harmless (retain p x) := fun _ => (Object.harmless_check _).bind fun _ => .ok _
  unfold writeReference
  refine hslot.bind fun slot => .ite ((Memory.harmless_store _ _ _).bind fun _ => .ok _) ?_
  extract_lets jp
  have hjp : ∀ q, Harmless (jp q) := by
    refine fun q => (Memory.harmless_loadRef _ _).bind fun old =>
      (Memory.harmless_store _ _ _).bind fun _ => ?_
    dsimp only
    split
    · exact harmless_defer _ _ _
    · exact .ok _
  split
  · exact (hretain _).bind hjp
  · exact hjp _

end Mutator

end Reclaim
