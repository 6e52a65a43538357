import Reclaim.Word

/-!
When the search for garbage cycles acts, and the stages of one increment of it.
-/
namespace Reclaim.Trial

-- The stage an increment is in.
inductive Stage where
  | idle
  | filter
  | matureFilter
  | markGrey
  | scan
  | collect
  | free
deriving DecidableEq, Repr

namespace Stage

def all : List Stage := [.idle, .filter, .matureFilter, .markGrey, .scan, .collect, .free]

def name : Stage → String
  | .idle => "idle"
  | .filter => "filter"
  | .matureFilter => "mature_filter"
  | .markGrey => "mark_grey"
  | .scan => "scan"
  | .collect => "collect"
  | .free => "free"

def label : Stage → String
  | .idle => "Idle"
  | .filter => "Filter"
  | .matureFilter => "MatureFilter"
  | .markGrey => "MarkGrey"
  | .scan => "Scan"
  | .collect => "Collect"
  | .free => "Free"

end Stage

-- Whether candidates are left over.
inductive Progress where
  | complete
  | unfinished
deriving DecidableEq, Repr

def Progress.name : Progress → String
  | .complete => "complete"
  | .unfinished => "partial"

-- The least `r` with `n ≤ 2 ^ r`.
def log2Ceil (n : Nat) : Nat := if n ≤ 1 then 0 else Nat.log2 (n - 1) + 1

-- Slack beyond this never acts.
def maxSlack : Nat := 2

-- Whether collection number `count` acts, with so many pages left before the budget is reached.
-- With little headroom every collection does, with more every second or fourth, with much none.
def shouldAct (available threshold count : Nat) : Bool :=
  if available = 0 ∨ threshold = 0 then true
  else
    let slack := log2Ceil (available / threshold)
    decide (slack ≤ maxSlack) && count % (1 <<< slack) == 1 <<< slack - 1

end Reclaim.Trial
