import Std.Data.TreeSet
import Reclaim.Space
import Reclaim.Object

/-!
The space of large objects. Every object has a chunk of whole pages of its own, whose header links
it into one of two lists: those that the current trace has not reached, and those that it has. A
release frees the chunks left unreached and lets the lists change roles, which a tag in every chunk
records: a chunk is on the reached list when its tag is the treadmill's.
-/
namespace Reclaim

open Std Sizes

namespace Chunk

-- Bytes before the object.
def headerBytes : Nat := 32

def ofObject (o : Nat) : Except Fault Nat := Word.sub o headerBytes

def object (chunk : Nat) : Nat := chunk + headerBytes

-- A word of the header. It is memory like any other, so a link in it may lead anywhere.
def field (m : Memory) (chunk offset : Nat) : Except Fault Nat := do
  m.load (← Word.add chunk offset)

def setField (m : Memory) (chunk offset v : Nat) : Except Fault Memory := do
  m.store (← Word.add chunk offset) v

def prev (m : Memory) (chunk : Nat) : Except Fault Nat := field m chunk 0

def next (m : Memory) (chunk : Nat) : Except Fault Nat := field m chunk 8

def pages (m : Memory) (chunk : Nat) : Except Fault Nat := field m chunk 16

def tag (m : Memory) (chunk : Nat) : Except Fault Nat := field m chunk 24

def setPrev (m : Memory) (chunk v : Nat) : Except Fault Memory := setField m chunk 0 v

def setNext (m : Memory) (chunk v : Nat) : Except Fault Memory := setField m chunk 8 v

def setPages (m : Memory) (chunk v : Nat) : Except Fault Memory := setField m chunk 16 v

def setTag (m : Memory) (chunk v : Nat) : Except Fault Memory := setField m chunk 24 v

end Chunk

-- A doubly linked list through the chunk headers; zero ends it on either side.
structure ChunkList where
  head : Nat := 0
  length : Nat := 0
deriving DecidableEq, Repr

namespace ChunkList

def push (l : ChunkList) (m : Memory) (chunk : Nat) : Except Fault (ChunkList × Memory) := do
  let m ← Chunk.setNext (← Chunk.setPrev m chunk 0) chunk l.head
  let m ← if l.head = 0 then .ok m else Chunk.setPrev m l.head chunk
  .ok (⟨chunk, l.length + 1⟩, m)

def unlink (l : ChunkList) (m : Memory) (chunk : Nat) : Except Fault (ChunkList × Memory) := do
  let prev ← Chunk.prev m chunk
  let next ← Chunk.next m chunk
  let head := if prev = 0 then next else l.head
  let m ← if prev = 0 then .ok m else Chunk.setNext m prev next
  let m ← if next = 0 then .ok m else Chunk.setPrev m next prev
  .ok (⟨head, ← Word.sub l.length 1⟩, m)

-- The chunks from one on, at most `steps` of them.
def follow (m : Memory) : Nat → Nat → Except Fault (List Nat)
  | 0, _ => .ok []
  | steps + 1, chunk => do
    if chunk = 0 then .ok []
    else .ok (chunk :: (← follow m steps (← Chunk.next m chunk)))

end ChunkList

structure Treadmill where
  space : Space
  unreached : ChunkList := {}
  reached : ChunkList := {}
  -- The tag of chunks on the reached list; the others carry the other tag.
  tag : Nat := 0
  -- The chunks of live objects.
  live : TreeSet Nat := ∅
  -- What the mark bit of a marked object shows.
  markState : Bool := false

namespace Treadmill

def contains (t : Treadmill) (o : Nat) : Bool := t.space.contains o

-- Whether a live object starts here.
def containsObject (t : Treadmill) (o : Nat) : Except Fault Bool := do
  if !t.contains o then .ok false
  else .ok (t.live.contains (← Chunk.ofObject o))

def objectCount (t : Treadmill) : Nat := t.unreached.length + t.reached.length

-- A zeroed object on a fresh chunk.
def alloc (t : Treadmill) (m : Memory) (bytes align : Nat) :
    Except Fault (Nat × Treadmill × Memory) := do
  if Chunk.headerBytes < align then .error (.fatal (.unsupportedAlignment align))
  let pages := bytesToPages (← Word.add bytes Chunk.headerBytes)
  let (chunk, space) ← t.space.acquire pages
  let m ← Chunk.setTag (← Chunk.setPages m chunk pages) chunk (1 - t.tag)
  let (unreached, m) ← t.unreached.push m chunk
  .ok (Chunk.object chunk, { t with space, unreached, live := t.live.insert chunk }, m)

-- Starts a collection: no object is marked.
def prepare (t : Treadmill) : Treadmill := { t with markState := !t.markState }

def isMarked (t : Treadmill) (m : Memory) (o : Nat) : Except Fault Bool := do
  Object.check o
  .ok (Status.isMarked (Object.status m o) t.markState)

-- Moves a chunk from the unreached list to the reached one.
def reach (t : Treadmill) (m : Memory) (chunk : Nat) : Except Fault (Treadmill × Memory) := do
  let (unreached, m) ← t.unreached.unlink m chunk
  let (reached, m) ← t.reached.push (← Chunk.setTag m chunk t.tag) chunk
  .ok ({ t with unreached, reached }, m)

-- Marks an object; the answer tells whether it was not marked before.
def testAndMark (t : Treadmill) (m : Memory) (o : Nat) :
    Except Fault (Bool × Treadmill × Memory) := do
  Object.check o
  match Status.testAndMark? (Object.status m o) t.markState with
  | none => .ok (false, t, m)
  | some s =>
    let (t, m) ← t.reach (Object.setStatus m o s) (← Chunk.ofObject o)
    .ok (true, t, m)

-- Gives the pages of one unreached chunk back.
def releaseChunk (state : Treadmill × Memory) (chunk : Nat) :
    Except Fault (Treadmill × Memory) := do
  let (t, m) := state
  let (space, m) ← t.space.release m chunk (← Chunk.pages m chunk)
  .ok ({ t with space, live := t.live.erase chunk }, m)

-- No list is longer than the space has words.
def steps (t : Treadmill) : Nat := t.space.extent / wordBytes

-- Frees the unreached objects and makes the reached ones unreached. Answers how many were freed.
def release (t : Treadmill) (m : Memory) : Except Fault (Nat × Treadmill × Memory) := do
  let dead ← ChunkList.follow m t.steps t.unreached.head
  let (t', m) ← dead.foldlM releaseChunk (t, m)
  .ok (t.unreached.length,
    { t' with unreached := t.reached, reached := {}, tag := 1 - t.tag }, m)

-- Frees one object.
def free (t : Treadmill) (m : Memory) (o : Nat) : Except Fault (Treadmill × Memory) := do
  let chunk ← Chunk.ofObject o
  if !t.live.contains chunk then .error (.fatal (.doubleFree o))
  let pages ← Chunk.pages m chunk
  let t := { t with live := t.live.erase chunk }
  let (t, m) ←
    if (← Chunk.tag m chunk) = t.tag then do
      let (reached, m) ← t.reached.unlink m chunk
      .ok ({ t with reached }, m)
    else do
      let (unreached, m) ← t.unreached.unlink m chunk
      .ok ({ t with unreached }, m)
  let (space, m) ← t.space.release m chunk pages
  .ok ({ t with space }, m)

end Treadmill

end Reclaim
