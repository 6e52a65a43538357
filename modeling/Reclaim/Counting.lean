import Reclaim.Trial.Collector
import Reclaim.Worklist

/-!
Decrements. Taking the last reference to an object away frees it and takes its own references away
in turn. An object that waits in a candidate queue is left to the cycle collector even when its
count is zero, and an object that keeps a count becomes a candidate, since it may now be held by a
cycle alone.
-/
namespace Reclaim.Counting

open CountedHeap Trial

-- Decrements being applied.
structure Decrements (σ : Type) where
  timed : Timed σ
  collector : Collector
  applied : Nat := 0
  -- Objects freed, the last one first.
  freed : List Nat := []

variable {σ : Type} [CountedHeap σ]

-- The count of `o` has reached zero.
def release (o : Nat) (d : Decrements σ) : Except Fault (List Nat × Decrements σ) := do
  let (children, timed) ← d.timed.references o
  let timed := timed.onHeap fun h => setColor h o .black
  if isBuffered timed.heap o then .ok (children, { d with timed })
  else
    let heap ← CountedHeap.free timed.heap o
    .ok (children, { d with timed := { timed with heap }, freed := o :: d.freed })

-- The count of `o` is still positive.
def suspect (o : Nat) (d : Decrements σ) : Decrements σ :=
  if color d.timed.heap o == .green then d
  else
    let (_, collector, heap) := d.collector.nominate d.timed.heap o
    { d with collector, timed := { d.timed with heap } }

def decrement (o : Nat) (d : Decrements σ) : Except Fault (List Nat × Decrements σ) := do
  if !(← isCounted d.timed.heap o) then .ok ([], d)
  else
    match decrement? d.timed.heap o with
    | none => .error (.fatal (.countUnderflow o))
    | some (count, heap) =>
      let d := { d with timed := { d.timed with heap }, applied := d.applied + 1 }
      if count = 0 then release o d else .ok ([], suspect o d)

-- Applies the decrements in `work`, the last one first.
def apply (work : List Nat) (c : Collector) (t : Timed σ) : Except Fault (Decrements σ) :=
  worklist decrement (work.length + extent t.heap) work.reverse { timed := t, collector := c }

end Reclaim.Counting
