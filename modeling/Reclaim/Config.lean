import Reclaim.Cells.SizeClass

/-!
The configuration of a collector, its defaults, and the conditions it has to meet.
-/
namespace Reclaim

open Sizes

-- How a plan reclaims memory.
inductive Policy where
  -- Traces the heap, copying the nursery's survivors.
  | hybrid
  -- Counts references and collects cycles by trial deletion.
  | refcount
deriving DecidableEq, Repr

namespace Policy

def name : Policy → String
  | .hybrid => "hybrid"
  | .refcount => "refcount"

-- The name in the description of a plan.
def label : Policy → String
  | .hybrid => "Hybrid"
  | .refcount => "RefCount"

-- Names are read without regard to the case of ASCII letters.
def ofName (name : String) : Except Fault Policy :=
  match name.toLower with
  | "hybrid" | "tracing" => .ok .hybrid
  | "refcount" | "rc" => .ok .refcount
  | _ => .error (.unsupportedPlan name)

end Policy

structure Config where
  policy : Policy := .hybrid
  heapPages : Nat := 16384
  nurseryBytes : Nat := 33554432
  matureBytes : Nat := 268435456
  largeBytes : Nat := 268435456
  immortalBytes : Nat := 33554432
  collectorThreads : Nat := 1
  queueBufferEntries : Nat := 511
  globalRootSlots : Nat := 1024
  largeObjectThreshold : Nat := SizeClass.largest
  -- The time of one collection, in nanoseconds.
  timeCap : Nat := 1000000000
  cycleFilterPages : Nat := 512
  cycleDetectionPages : Nat := 1024
  cycleMetadataPages : Nat := 64
  greyVisitGrain : Nat := 100
  greyVisitBound : Nat := 10
  filterBound : Nat := 8192
  verbose : Bool := false
deriving DecidableEq, Repr

-- A setting that is a number, with how to read and how to replace it.
structure Setting where
  name : String
  get : Config → Nat
  set : Nat → Config → Config

namespace Config

-- The settings that are numbers, apart from the time of a collection.
def settings : List Setting := [
  ⟨"heap_pages", heapPages, fun n c => { c with heapPages := n }⟩,
  ⟨"nursery_bytes", nurseryBytes, fun n c => { c with nurseryBytes := n }⟩,
  ⟨"mature_bytes", matureBytes, fun n c => { c with matureBytes := n }⟩,
  ⟨"large_bytes", largeBytes, fun n c => { c with largeBytes := n }⟩,
  ⟨"immortal_bytes", immortalBytes, fun n c => { c with immortalBytes := n }⟩,
  ⟨"collector_threads", collectorThreads, fun n c => { c with collectorThreads := n }⟩,
  ⟨"queue_buffer_entries", queueBufferEntries, fun n c => { c with queueBufferEntries := n }⟩,
  ⟨"global_root_slots", globalRootSlots, fun n c => { c with globalRootSlots := n }⟩,
  ⟨"large_object_threshold", largeObjectThreshold, fun n c => { c with largeObjectThreshold := n }⟩,
  ⟨"cycle_filter_pages", cycleFilterPages, fun n c => { c with cycleFilterPages := n }⟩,
  ⟨"cycle_detection_pages", cycleDetectionPages, fun n c => { c with cycleDetectionPages := n }⟩,
  ⟨"cycle_metadata_pages", cycleMetadataPages, fun n c => { c with cycleMetadataPages := n }⟩,
  ⟨"grey_visit_grain", greyVisitGrain, fun n c => { c with greyVisitGrain := n }⟩,
  ⟨"grey_visit_bound", greyVisitBound, fun n c => { c with greyVisitBound := n }⟩,
  ⟨"filter_bound", filterBound, fun n c => { c with filterBound := n }⟩]

-- Sets the settings that `value?` has a number for.
def override (c : Config) (value? : String → Option Nat) : Config :=
  settings.foldl (fun c s => (value? s.name).elim c (s.set · c)) c

-- At least one collector takes part.
def setCollectorThreads (c : Config) (threads : Nat) : Config :=
  { c with collectorThreads := max threads 1 }

-- Looks for cycles in every collection.
def setEagerCycles (c : Config) : Config :=
  { c with cycleFilterPages := 0, cycleDetectionPages := 0 }

-- How many candidates one filter pass moves: half a page of entries for every metadata page.
def filterLimit (c : Config) : Except Fault Nat :=
  Word.mul c.cycleMetadataPages (pageBytes / wordBytes / 2)

def checkExtent (field : String) (bytes : Nat) : Except Fault Unit :=
  if bytes < blockBytes ∨ bytes % blockBytes ≠ 0 then
    .error (.invalidConfig field s!"must be a non-zero multiple of {blockBytes} bytes")
  else .ok ()

def check (field reason : String) (holds : Bool) : Except Fault Unit :=
  if holds then .ok () else .error (.invalidConfig field reason)

-- Answers the first condition that does not hold.
def validate (c : Config) : Except Fault Unit := do
  check "heap_pages" "must be greater than zero" (c.heapPages != 0)
  checkExtent "nursery_bytes" c.nurseryBytes
  checkExtent "mature_bytes" c.matureBytes
  checkExtent "large_bytes" c.largeBytes
  checkExtent "immortal_bytes" c.immortalBytes
  check "collector_threads" "must be at least 1" (c.collectorThreads != 0)
  check "queue_buffer_entries" "must be at least 2" (2 ≤ c.queueBufferEntries)
  check "large_object_threshold" s!"must lie in 1..={SizeClass.largest}"
    (c.largeObjectThreshold != 0 && c.largeObjectThreshold ≤ SizeClass.largest)
  check "gc_time_cap" "must be greater than zero" (c.timeCap != 0)
  check "grey_visit_grain" "visit grain and loop bounds must be greater than zero"
    (c.greyVisitGrain != 0 && c.greyVisitBound != 0 && c.filterBound != 0)

end Config

end Reclaim
