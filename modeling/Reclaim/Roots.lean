import Reclaim.Memory

/-!
Where a collection starts: the slots of a global table, shared out in even chunks, and the roots on
the stacks of threads, dealt out round robin. Every root falls to exactly one collector.
-/
namespace Reclaim

open Sizes

inductive Root where
  -- A slot that holds a reference, updated when the object moves.
  | location (slot : Nat)
  -- A slot that holds a pointer into the middle of `base`.
  | interior (base slot : Nat)
  -- A reference that cannot be updated.
  | value (object : Nat)
deriving DecidableEq, Repr

-- A thread with the roots on its stack. Its position among the threads counts from one; a runtime
-- that numbers its threads may not have numbered all of them.
structure Thread where
  ordinal : Option Nat
  roots : List Root
deriving DecidableEq, Repr

-- Threads by the roots on their stacks, in the order of `ordinals`, or as they come if there are
-- none.
def Thread.number (ordinals : Option (List Nat)) (threads : List (List Root)) : List Thread :=
  threads.zipIdx.map fun (roots, i) =>
    ⟨match ordinals with
      | some ordinals => ordinals[i]?
      | none => some (i + 1), roots⟩

-- What the runtime tells about its threads.
structure Scheduler where
  threads : List Thread := []
  -- How many collectors may take part in a collection.
  collectors : Nat := 1
deriving DecidableEq, Repr

-- Roots delivered, by kind.
structure RootCounts where
  locations : Nat := 0
  interior : Nat := 0
  values : Nat := 0
deriving DecidableEq, Repr

namespace RootCounts

def total (c : RootCounts) : Nat := c.locations + c.interior + c.values

def add (a b : RootCounts) : RootCounts :=
  ⟨a.locations + b.locations, a.interior + b.interior, a.values + b.values⟩

def record (c : RootCounts) : Root → RootCounts
  | .location _ => { c with locations := c.locations + 1 }
  | .interior _ _ => { c with interior := c.interior + 1 }
  | .value _ => { c with values := c.values + 1 }

end RootCounts

-- A table of slots for references, all null at first. Stacks are tables as well.
structure Globals where
  base : Nat
  capacity : Nat
deriving DecidableEq, Repr

namespace Globals

def new (base capacity : Nat) : Except Fault Globals := do
  checkTable capacity
  .ok { base, capacity }

def slot (g : Globals) (index : Nat) : Except Fault Nat := do
  checkIndex index g.capacity
  .ok (g.base + wordBytes * index)

-- One past the last slot.
def stop (g : Globals) : Nat := g.base + wordBytes * g.capacity

def get (g : Globals) (m : Memory) (index : Nat) : Except Fault (Option Nat) := do
  m.loadRef (← g.slot index)

def set (g : Globals) (m : Memory) (index : Nat) (value : Option Nat) : Except Fault Memory := do
  m.storeRef (← g.slot index) value

-- The entries that are not null, in order.
def toList (g : Globals) (m : Memory) : List Nat :=
  ((List.range g.capacity).map fun i => m.read (g.base + wordBytes * i)).filter (· != 0)

end Globals

namespace Roots

-- The slots that collector `ordinal` scans: from the first number up to the second. All chunks but
-- the last have the same even length.
def partition (slots collectors ordinal : Nat) : Except Fault (Nat × Nat) :=
  if 1 ≤ ordinal ∧ ordinal ≤ collectors then
    let chunk := slots / collectors / 2 * 2
    .ok ((ordinal - 1) * chunk, if ordinal = collectors then slots else ordinal * chunk)
  else .error .assertion

-- The collector that scans a thread's stack.
def collectorOf (collectors : Nat) (t : Thread) : Except Fault Nat := do
  match t.ordinal with
  | some ordinal => do .ok ((← Word.sub ordinal 1) % collectors + 1)
  | none => .error .indexOutOfBounds

variable {σ : Type}

-- Delivers one root and counts it.
def deliver (sink : σ → Root → Except Fault σ) (state : σ × RootCounts) (root : Root) :
    Except Fault (σ × RootCounts) := do
  let s ← sink state.1 root
  .ok (s, state.2.record root)

def deliverThread (sink : σ → Root → Except Fault σ) (collectors ordinal : Nat)
    (state : σ × RootCounts) (t : Thread) : Except Fault (σ × RootCounts) := do
  if (← collectorOf collectors t) = ordinal then t.roots.foldlM (deliver sink) state
  else .ok state

-- Delivers the share of collector `ordinal`: its slots of the table, then its threads.
def scan (sink : σ → Root → Except Fault σ) (globals : Globals) (threads : List Thread)
    (ordinal collectors : Nat) (s : σ) : Except Fault (σ × RootCounts) := do
  let (first, stop) ← partition globals.capacity collectors ordinal
  let slots := (List.range' first (stop - first)).map fun i =>
    Root.location (globals.base + wordBytes * i)
  let state ← slots.foldlM (deliver sink) (s, {})
  threads.foldlM (deliverThread sink collectors ordinal) state

end Roots

end Reclaim
