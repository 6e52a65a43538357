import Reclaim.Queue.Chain

/-!
A worker's private ends of a chain: a head buffer that entries are pushed to and popped from, and a
tail buffer that entries are inserted into. Full buffers move to the chain, the head at its front
and the tail at its back.
-/
namespace Reclaim.Queue

structure Ends (α : Type) where
  head : Option (Deque α) := none
  tail : Option (Deque α) := none
deriving Repr

namespace Ends

variable {α : Type}

def headEntries (e : Ends α) : Deque α := e.head.getD .empty

def tailEntries (e : Ends α) : Deque α := e.tail.getD .empty

def isLocallyEmpty (e : Ends α) : Bool := e.headEntries.isEmpty && e.tailEntries.isEmpty

-- Entries in the private buffers and on the chain.
def length (e : Ends α) (c : Chain α) : Nat :=
  e.headEntries.size + e.tailEntries.size + c.length

def isEmpty (e : Ends α) (c : Chain α) : Bool := e.isLocallyEmpty && c.isEmpty

-- Appends an entry behind all others.
def insert (e : Ends α) (c : Chain α) (x : α) : Ends α × Chain α :=
  match e.tail with
  | some tail =>
    if tail.size < c.capacity then ({ e with tail := some (tail.pushBack x) }, c)
    else ({ e with tail := some (.singleton x) }, (c.enqueueBack tail).allocate)
  | none => ({ e with tail := some (.singleton x) }, c.allocate)

-- Adds an entry before all others.
def push (e : Ends α) (c : Chain α) (x : α) : Ends α × Chain α :=
  match e.head with
  | some head =>
    if head.size < c.capacity then ({ e with head := some (head.pushFront x) }, c)
    else ({ e with head := some (.singleton x) }, (c.enqueueFront head).allocate)
  | none => ({ e with head := some (.singleton x) }, c.allocate)

-- Adds entries one after the other, to a chain that may be unable to hold any.
def addAll (add : Ends α → Chain α → α → Ends α × Chain α) (e : Ends α) (c : Chain α)
    (xs : List α) : Except Fault (Ends α × Chain α) := do
  if !xs.isEmpty then c.check
  .ok (xs.foldl (fun (e, c) x => add e c x) (e, c))

def insertAll (e : Ends α) (c : Chain α) (xs : List α) : Except Fault (Ends α × Chain α) :=
  addAll insert e c xs

def pushAll (e : Ends α) (c : Chain α) (xs : List α) : Except Fault (Ends α × Chain α) :=
  addAll push e c xs

-- Makes `buffer` the head; the spent head goes back to the pool.
def refill (e : Ends α) (c : Chain α) (buffer : Deque α) : Ends α × Chain α :=
  ({ e with head := some buffer }, if e.head.isSome then c.recycle else c)

-- The buffer that follows a spent head: the front of the chain, else the tail.
def next? (e : Ends α) (c : Chain α) : Option (Deque α × Ends α × Chain α) :=
  match c.dequeue? with
  | some (buffer, c) => some (buffer, e, c)
  | none => e.tail.map fun buffer => (buffer, { e with tail := none }, c)

-- Takes the next entry from the head, else from the chain, else from the tail.
def pop (e : Ends α) (c : Chain α) : Option α × Ends α × Chain α :=
  match e.headEntries.popFront? with
  | some (x, rest) => (some x, { e with head := some rest }, c)
  | none =>
    match e.next? c with
    | none => (none, e, c)
    | some (buffer, e, c) =>
      match buffer.popFront? with
      | none => (none, e.refill c buffer)
      | some (x, rest) => (some x, e.refill c rest)

-- Publishes both buffers.
def flush (e : Ends α) (c : Chain α) : Ends α × Chain α :=
  let c := match e.head with
    | some head => c.enqueueFront head
    | none => c
  let c := match e.tail with
    | some tail => c.enqueueBack tail
    | none => c
  ({}, c)

-- The text that describes the ends.
def describe (e : Ends α) (c : Chain α) : String :=
  s!"LocalQueue \x7b queue: \"{c.name}\", head: {e.headEntries.size}, " ++
    s!"tail: {e.tailEntries.size} \x7d"

end Ends

-- A chain with its only ends.
structure Solo (α : Type) where
  chain : Chain α
  ends : Ends α := {}
deriving Repr

namespace Solo

variable {α : Type}

def new (name : String) (capacity : Nat) : Solo α := ⟨.new name capacity, {}⟩

-- What the queue holds, front first.
def contents (q : Solo α) : List α :=
  q.ends.headEntries.toList ++ q.chain.entries ++ q.ends.tailEntries.toList

def length (q : Solo α) : Nat := q.ends.length q.chain

def isEmpty (q : Solo α) : Bool := q.ends.isEmpty q.chain

def insert (q : Solo α) (x : α) : Solo α :=
  let (ends, chain) := q.ends.insert q.chain x
  ⟨chain, ends⟩

def insertAll (q : Solo α) (xs : List α) : Except Fault (Solo α) := do
  let (ends, chain) ← q.ends.insertAll q.chain xs
  .ok ⟨chain, ends⟩

def push (q : Solo α) (x : α) : Solo α :=
  let (ends, chain) := q.ends.push q.chain x
  ⟨chain, ends⟩

def pop (q : Solo α) : Option α × Solo α :=
  let (x, ends, chain) := q.ends.pop q.chain
  (x, ⟨chain, ends⟩)

def flush (q : Solo α) : Solo α :=
  let (ends, chain) := q.ends.flush q.chain
  ⟨chain, ends⟩

end Solo

end Reclaim.Queue
