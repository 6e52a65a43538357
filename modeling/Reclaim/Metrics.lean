import Reclaim.PhaseTimer
import Reclaim.Roots
import Reclaim.Trial.Collector

/-!
What a collection did, totals over all collections, and the events it reports while it runs.
-/
namespace Reclaim

structure Metrics where
  -- The number of the collection, from one on.
  collection : Nat := 0
  duration : Nat := 0
  phases : PhaseTimer := {}
  forced : Bool := false
  -- Collectors that took part.
  participants : Nat := 0
  pagesBefore : Nat := 0
  pagesAfter : Nat := 0
  roots : Nat := 0
  scanned : Nat := 0
  copied : Nat := 0
  freed : Nat := 0
  decrements : Nat := 0
  cycles : Trial.Stats := {}
  -- How the cycle increment ended, if there was one.
  progress : Option Trial.Progress := none
deriving DecidableEq, Repr

structure Totals where
  collections : Nat := 0
  forced : Nat := 0
  copied : Nat := 0
  freed : Nat := 0
  cycleFreed : Nat := 0
  -- Collections in which a marking was abandoned.
  aborts : Nat := 0
  pause : Nat := 0
deriving DecidableEq, Repr

def Totals.record (t : Totals) (m : Metrics) : Totals where
  collections := Word.wrapAdd t.collections 1
  forced := if m.forced then Word.wrapAdd t.forced 1 else t.forced
  copied := Word.wrapAdd t.copied m.copied
  freed := Word.wrapAdd t.freed m.freed
  cycleFreed := Word.wrapAdd t.cycleFreed m.cycles.freed
  aborts := if 0 < m.cycles.requeued then Word.wrapAdd t.aborts 1 else t.aborts
  pause := Word.wrapAdd t.pause (min m.duration (Word.bound - 1))

inductive Event where
  | collection (policy : String) (number : Nat)
  | phase (phase : Phase)
  | phaseStart (phase : Phase) (pagesReserved : Nat)
  | phaseEnd (phase : Phase) (objects : Nat)
  | trigger (space : String) (pagesReserved totalPages : Nat) (forced : Bool)
  | rootsComputed (ordinal : Nat) (roots : RootCounts)
  | queueDepth (queue : String) (buffers : Nat)
  | cycleIncrement (stage : Trial.Stage) (filtered greyed freed : Nat) (complete : Bool)
  | cycleAbort (requeued : Nat)
deriving DecidableEq, Repr

end Reclaim
