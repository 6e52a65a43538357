import Reclaim.Proofs.Plan.Collecting
import Reclaim.Proofs.Plan.Founding
import Reclaim.Proofs.Plan.Rewriting

/-!
Sessions: a plan that counts references, the mutators bound to it, and whatever they do in any order.
Mutators refer to objects that they can reach only. Whatever has happened, the plan is in order.
-/
namespace Reclaim

open CountedHeap Heap Queue Sizes

-- Counted objects that were made and not freed since.
structure Heap.Holds (h : Heap) (o : Nat) : Prop where
  aligned : o % wordBytes = 0
  counted : h.inCountedSpace o = true
  allocated : h.isAllocated o = .ok true

-- A roll lists all that is held.
theorem Heap.Sound.mem_roll_iff {h : Heap} {l : Layout} {r : Finset Nat} {o : Nat} (hs : h.Sound l)
    (hroll : Roll h l r) : o ∈ r ↔ h.Holds o := by
  rw [hroll o]
  constructor
  · rintro ⟨kind, bytes, hk, hr⟩
    have hmod := (hs.room_mem hr).1
    have hcounted := (hs.inCountedSpace_room hr).trans hk
    exact ⟨hmod, hcounted, (hs.isAllocated_iff hmod hcounted).mpr ⟨kind, bytes, hr, hk⟩⟩
  · intro ho
    obtain ⟨kind, bytes, hr, hk⟩ := (hs.isAllocated_iff ho.aligned ho.counted).mp ho.allocated
    exact ⟨kind, bytes, hk, hr⟩

-- The word at `a` belongs to the object `o` and is neither header nor reference.
def Heap.IsData (h : Heap) (o a : Nat) : Prop :=
  ∃ info bytes, Object.info h.types h.memory o = .ok info ∧
    Object.size h.types h.memory o = .ok bytes ∧ o + info.headerBytes ≤ a ∧ a < o + bytes ∧
    a ∉ Object.slotsOf h.types h.memory o

structure Session where
  plan : Plan
  mutators : List Mutator := []
  -- All objects made in the immortal space.
  immortals : List Nat := []
  -- Objects that mutators may refer to: those that the last collection could reach, and those that
  -- were made since.
  known : Set Nat := ∅

-- What may happen between two collections, and a collection. Mutators are named by their position.
inductive Op where
  | bind
  | drop (i : Nat)
  | create (i type length : Nat) (semantics : Semantics)
  | write (i o index : Nat) (value : Option Nat)
  -- A word of data is written.
  | fill (a w : Nat)
  | setGlobal (index : Nat) (value : Option Nat)
  -- Words on stacks are written, and the runtime has other threads, or other roots on their stacks.
  | setStacks (scheduler : Scheduler) (words : List (Nat × Nat))
  | suspect (o : Nat)
  | setTimeCap (cap : Nat)
  -- The clock shows other times from now on.
  | setClock (clock : Clock)
  -- The mutators are passed in some order.
  | collect (mutators : List Mutator)

namespace Session

def mutator (s : Session) (i : Nat) : Except Fault Mutator :=
  match s.mutators[i]? with
  | some m => .ok m
  | none => .error .indexOutOfBounds

def writeAll (m : Memory) (words : List (Nat × Nat)) : Memory :=
  words.foldl (fun m (a, w) => m.write a w) m

def perform (s : Session) : Op → Except Fault Session
  | .bind => .ok { s with mutators := .new s.plan :: s.mutators }
  | .drop i => do
    let plan ← (← s.mutator i).drop s.plan
    .ok { s with plan, mutators := s.mutators.eraseIdx i }
  | .create i type length semantics => do
    let (o, m, plan) ← (← s.mutator i).newObject s.plan type length semantics
    .ok {
      plan
      mutators := s.mutators.set i m
      immortals := if plan.heap.spaceOf? o = some .immortal then o :: s.immortals else s.immortals
      known := insert o s.known }
  | .write i o index value => do
    let (m, plan) ← (← s.mutator i).writeReference s.plan o index value
    .ok { s with plan, mutators := s.mutators.set i m }
  | .fill a w => .ok { s with plan := s.plan.setMemory (s.plan.memory.write a w) }
  | .setGlobal index value => do
    .ok { s with plan := s.plan.setMemory (← s.plan.globals.set s.plan.memory index value) }
  | .setStacks scheduler words =>
    .ok { s with plan := { s.plan.setMemory (writeAll s.plan.memory words) with scheduler } }
  | .suspect o => do
    let (_, plan) ← s.plan.enqueueForCycleCheck o
    .ok { s with plan }
  | .setTimeCap cap => .ok { s with plan := s.plan.setTimeCap cap }
  | .setClock clock => .ok { s with plan := { s.plan with clock } }
  | .collect mutators => do
    let (mutators, plan) ← s.plan.collect mutators
    .ok { s with plan, mutators, known := { o | s.plan.Reaches s.immortals o } }

-- The counted objects that a collection frees, in order.
def freed (s : Session) (mutators : List Mutator) : List Nat :=
  match Collection.run s.plan mutators with
  | .ok (_, c) => c.freed
  | .error _ => []

-- An object was made at an address, or the counted object there was freed.
inductive Change where
  | made (o : Nat)
  | freed (o : Nat)
deriving DecidableEq

-- What an operation changes, in order.
def changes (s : Session) : Op → List Change
  | .create i type length semantics =>
    match s.mutator i >>= fun m => m.newObject s.plan type length semantics with
    | .ok (o, _) => [.made o]
    | .error _ => []
  | .collect mutators => (s.freed mutators).map .freed
  | _ => []

-- What callers have to observe: mutators use what they know only, roots lead to what is known, no
-- count leaves its field, no request exceeds every space, and all mutators stop for a collection.
def Allowed (s : Session) : Op → Prop
  | .bind | .setTimeCap _ | .setClock _ => True
  | .drop i => i < s.mutators.length
  | .create i type length _ => i < s.mutators.length ∧
    ∀ info bytes, s.plan.heap.types.info type = .ok info → info.bytesRequired length = .ok bytes →
      bytes < Mapping.systemLimit
  | .write i o _ value => i < s.mutators.length ∧ o ∈ s.known ∧ ∀ v ∈ value, v ∈ s.known ∧
    (s.plan.isCounted v = true → count s.plan.heap v + 1 < 2 ^ 56)
  | .fill a _ => ∃ o ∈ s.known, s.plan.heap.IsData o a
  | .setGlobal index value => ∀ memory, s.plan.globals.set s.plan.memory index value = .ok memory →
    (s.plan.setMemory memory).Rooted s.known
  | .setStacks scheduler words => (∀ word ∈ words, s.plan.heap.spaceOf? word.1 = none) ∧
    Plan.Rooted { s.plan.setMemory (writeAll s.plan.memory words) with scheduler } s.known
  | .suspect o => o ∈ s.known
  | .collect mutators => mutators.Perm s.mutators ∧
    ∀ o, s.plan.heap.Holds o → count s.plan.heap o + s.plan.rootRefs.count o < 2 ^ 56

-- What a plan that counts references and its mutators can come to.
inductive Run : Session → Prop
  | start {base : Nat} {config : Config} {types : Types} {scheduler : Scheduler} {plan : Plan} :
    Plan.new base config types scheduler = .ok plan → config.policy = .refcount →
    Mapping.Origin base → types.Registered → (∀ t ∈ scheduler.threads, t.Numbered) →
    (∀ t ∈ scheduler.threads, ∀ root ∈ t.roots, root.Leads plan.heap ∅) → Run { plan }
  | step {s s' : Session} {op : Op} : Run s → s.Allowed op → s.perform op = .ok s' → Run s'

-- The state of the plan accounts for everything that happened.
structure Sound (s : Session) (counts : CountState) (l : Layout) (r : Finset Nat) : Prop where
  standing : Standing s.plan s.mutators counts l r [] s.known
  immortals_eq : l.immortals = s.immortals

variable {s s' : Session} {op : Op} {counts : CountState} {l : Layout} {r : Finset Nat} {o : Nat}

theorem Sound.mem_iff (hs : s.Sound counts l r) : o ∈ r ↔ s.plan.heap.Holds o :=
  hs.standing.populated.sound.mem_roll_iff hs.standing.roll

-- A mutator and all others.
theorem perm_of_mutator {i : Nat} (hi : i < s.mutators.length) :
    ∃ m, s.mutator i = .ok m ∧ s.mutators.Perm (m :: s.mutators.eraseIdx i) ∧
      ∀ m', (m' :: s.mutators.eraseIdx i).Perm (s.mutators.set i m') := by
  refine ⟨s.mutators[i], ?_, (List.getElem_cons_eraseIdx_perm hi).symm,
    fun m' => (List.set_perm_cons_eraseIdx hi m').symm⟩
  rw [mutator, List.getElem?_eq_getElem hi]

end Session

end Reclaim
