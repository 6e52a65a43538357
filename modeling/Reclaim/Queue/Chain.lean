import Reclaim.Deque
import Reclaim.Word

/-!
A chain of fixed-capacity buffers that several workers share, with a pool of spent buffers. Workers
reach it through the ends of `Reclaim.Queue.Ends`.
-/
namespace Reclaim.Queue

structure Chain (α : Type) where
  name : String
  capacity : Nat
  -- Words that an entry takes.
  entryWords : Nat := 1
  -- The buffers on the chain, front first.
  links : Deque (Deque α) := .empty
  -- How many buffers the chain says it holds. It may be below zero for a moment, since a buffer can be
  -- taken before it was counted.
  counter : Int := 0
  -- Spent buffers that wait to be used again.
  pooled : Nat := 0
  -- Buffers ever made.
  created : Nat := 0
deriving Repr

namespace Chain

variable {α : Type}

-- A buffer holds at least one entry.
def new (name : String) (capacity : Nat) (entryWords : Nat := 1) : Chain α :=
  { name, capacity := max capacity 1, entryWords }

-- Whether the chain can have buffers at all. All are of one size, so a chain that fails this never
-- holds an entry, and one that has held an entry needs no further check.
def check (c : Chain α) : Except Fault Unit := Sizes.checkTable (c.capacity * c.entryWords)

def isEmpty (c : Chain α) : Bool := c.counter == 0

def enqueued (c : Chain α) : Nat := c.counter.toNat

-- The entries on the chain, front first.
def entries (c : Chain α) : List α := c.links.toList.flatMap Deque.toList

def length (c : Chain α) : Nat := c.links.toList.foldl (fun n buffer => n + buffer.size) 0

-- Takes an empty buffer from the pool, or makes one.
def allocate (c : Chain α) : Chain α :=
  if c.pooled = 0 then { c with created := c.created + 1 }
  else { c with pooled := c.pooled - 1 }

def recycle (c : Chain α) : Chain α := { c with pooled := c.pooled + 1 }

-- The chain and its counter change one after the other.
def linkBack (c : Chain α) (buffer : Deque α) : Chain α :=
  { c with links := c.links.pushBack buffer }

def linkFront (c : Chain α) (buffer : Deque α) : Chain α :=
  { c with links := c.links.pushFront buffer }

def countUp (c : Chain α) : Chain α := { c with counter := c.counter + 1 }

def countDown (c : Chain α) : Chain α := { c with counter := c.counter - 1 }

def unlink? (c : Chain α) : Option (Deque α × Chain α) :=
  c.links.popFront?.map fun (buffer, links) => (buffer, { c with links })

-- Empty buffers go back to the pool.
def enqueueBack (c : Chain α) (buffer : Deque α) : Chain α :=
  if buffer.isEmpty then c.recycle else (c.linkBack buffer).countUp

def enqueueFront (c : Chain α) (buffer : Deque α) : Chain α :=
  if buffer.isEmpty then c.recycle else (c.linkFront buffer).countUp

-- Takes the front buffer.
def dequeue? (c : Chain α) : Option (Deque α × Chain α) :=
  if c.isEmpty then none
  else c.unlink?.map fun (buffer, c) => (buffer, c.countDown)

-- Takes every entry off the chain, front first, and recycles the buffers.
def drain (c : Chain α) : List α × Chain α :=
  (c.entries,
    { c with
      links := .empty
      counter := c.counter - c.links.size
      pooled := c.pooled + c.links.size })

-- The text that describes the chain.
def describe (c : Chain α) : String :=
  s!"SharedQueue \x7b name: \"{c.name}\", capacity: {c.capacity}, enqueued: {c.enqueued}, " ++
    s!"buffers_created: {c.created}, .. \x7d"

end Chain

end Reclaim.Queue
