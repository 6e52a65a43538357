import Reclaim.Mapping

/-!
Spaces: reserved ranges that hand out runs of pages. A space remembers the runs it got back, sorted
by their first page, and hands out the first one that is long enough before it takes pages that
were never handed out. Addresses inside the range belong to the space, nothing else decides that.
-/
namespace Reclaim

open Sizes

-- So many pages from page `first` on.
structure Run where
  first : Nat
  pages : Nat
deriving DecidableEq, Repr

namespace Run

def stop (r : Run) : Nat := r.first + r.pages

-- Takes pages from the front of the first run that is long enough.
def takeFirst? (pages : Nat) : List Run → Option (Nat × List Run)
  | [] => none
  | r :: rest =>
    if pages ≤ r.pages then
      some (r.first, if r.pages = pages then rest else ⟨r.first + pages, r.pages - pages⟩ :: rest)
    else (takeFirst? pages rest).map fun (first, rest) => (first, r :: rest)

-- Puts a run before the runs that follow it, as one with the next run if they touch.
def cons (r : Run) : List Run → List Run
  | [] => [r]
  | next :: rest =>
    if r.stop = next.first then ⟨r.first, r.pages + next.pages⟩ :: rest else r :: next :: rest

-- Puts runs before a list, joining the last of them with the first of the list if they touch.
def append (before : List Run) : List Run → List Run
  | [] => before
  | r :: rest =>
    match before.getLast? with
    | some last =>
      if last.stop = r.first then before.dropLast ++ ⟨last.first, last.pages + r.pages⟩ :: rest
      else before ++ r :: rest
    | none => r :: rest

-- Halves the `size` runs from number `base` on, in at most so many steps, until one is left: of
-- sorted runs the last one that starts before `page`, or the first.
def search (runs : Array Run) (page : Nat) : Nat → Nat → Nat → Nat
  | 0, base, _ => base
  | steps + 1, base, size =>
    if size ≤ 1 then base
    else
      let half := size / 2
      let below := runs[base + half]?.any (·.first < page)
      search runs page steps (if below then base + half else base) (size - half)

-- How many runs stand before one that starts at `page`. Pages handed back twice can leave the runs
-- unsorted, so where the search looks is part of the rule.
def position (runs : List Run) (page : Nat) : Nat :=
  let runs := runs.toArray
  let base := search runs page runs.size 0 runs.size
  if runs[base]?.any (·.first < page) then base + 1 else base

-- Puts a run where its first page belongs and joins it with the runs it touches.
def insert (r : Run) (runs : List Run) : List Run :=
  let n := position runs r.first
  append (runs.take n) (cons r (runs.drop n))

end Run

structure Space where
  name : String
  mapping : Mapping
  -- Runs are multiples of this many pages.
  unit : Nat
  -- Pages below this one have been handed out at least once.
  highWater : Nat := 0
  -- Released runs.
  free : List Run := []
  -- Pages handed out now.
  used : Nat := 0
  -- Pages ever committed.
  mapped : Nat := 0
deriving DecidableEq, Repr

namespace Space

def start (s : Space) : Nat := s.mapping.start

def extent (s : Space) : Nat := s.mapping.length

def stop (s : Space) : Nat := s.start + s.extent

def contains (s : Space) (a : Nat) : Bool := decide (s.start ≤ a) && decide (a < s.stop)

def totalPages (s : Space) : Nat := s.extent / pageBytes

-- Pages not handed out now.
def available (s : Space) : Nat := s.totalPages - s.used

-- Reserves `bytes` bytes, in whole blocks, where the system places them.
def reserve (name : String) (bytes unit : Nat) (system : Nat → Option Nat) :
    Except Fault Space := do
  if !Word.isPowerOfTwo unit then .error .assertion
  let extent ← Word.nextMultiple bytes blockBytes
  let options : Mapping.Options :=
    { length := extent, align := blockBytes, reserveOnly := true, noReserve := true }
  match options.map system with
  | .ok mapping => .ok { name, mapping, unit }
  | .error source => .error (.reservation name source)

def roundPages (s : Space) (pages : Nat) : Except Fault Nat := Word.nextMultiple pages s.unit

-- Makes the pages of a run readable and writable.
def commit (s : Space) (first pages : Nat) : Except Fault Unit := do
  let top ← Word.nextMultiple (pagesToBytes (← Word.add first pages)) pageBytes
  let length ← Word.sub (min top s.extent) (pagesToBytes first)
  match s.mapping.commit (pagesToBytes first) length with
  | .ok () => .ok ()
  | .error cause => .error (.fatal (.commitFailed pages cause))

-- Forgets the contents of a run.
def discard (s : Space) (m : Memory) (first pages : Nat) : Except Fault Memory :=
  match s.mapping.decommit m (pagesToBytes first) (pagesToBytes pages) with
  | .ok m => .ok m
  | .error cause => .error (.fatal (.decommitFailed pages cause))

-- The first page of a new run, and the space without it.
def take (s : Space) (pages : Nat) : Except Fault (Nat × Space) :=
  match Run.takeFirst? pages s.free with
  | some (first, free) => .ok (first, { s with free })
  | none => do
    let top ← Word.add s.highWater pages
    if s.extent < pagesToBytes top then
      .error (.fatal (.spaceExhausted s.name pages s.used s.totalPages))
    .ok (s.highWater, { s with highWater := top, mapped := top })

-- Hands out a run of at least `pages` pages; its words read as zero.
def acquire (s : Space) (pages : Nat) : Except Fault (Nat × Space) := do
  let pages ← s.roundPages (max pages 1)
  let (first, s) ← s.take pages
  s.commit first pages
  let address ← Word.add s.start (pagesToBytes first)
  .ok (address, { s with used := Word.wrapAdd s.used pages })

-- Takes back a run that was handed out.
def release (s : Space) (m : Memory) (address pages : Nat) : Except Fault (Space × Memory) := do
  if !s.contains address then .error .assertion
  let pages ← s.roundPages (max pages 1)
  let first := (address - s.start) / pageBytes
  let m ← s.discard m first pages
  .ok ({ s with
         free := Run.insert ⟨first, pages⟩ s.free
         used := Word.wrapSub s.used pages }, m)

-- Takes back every run at once.
def releaseAll (s : Space) (m : Memory) : Except Fault (Space × Memory) := do
  let m ← if 0 < s.highWater then s.discard m 0 s.highWater else .ok m
  .ok ({ s with highWater := 0, free := [], used := 0 }, m)

-- The text that describes the space.
def describe (s : Space) (address : Nat → String) : String :=
  s!"Space \x7b name: \"{s.name}\", start: " ++ address s.start ++
    s!", extent: {s.extent}, used_pages: {s.used}, .. \x7d"

end Space

end Reclaim
