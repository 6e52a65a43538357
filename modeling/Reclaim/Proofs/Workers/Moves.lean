import Mathlib.Algebra.Group.Pi.Basic
import Mathlib.Algebra.Order.Group.Multiset
import Mathlib.Logic.Function.Basic
import Reclaim.Proofs.Queue
import Reclaim.Trace.Queues

/-!
Collectors that share the work of a closure, one atomic step after another and in any order. A move of
a worker touches its own buffers at will, but the chains and the idle count once at most: a buffer is
on its chain before it is counted, and gone before it is counted no more.
-/
namespace Reclaim.Crew

open Queue

-- The chains of a closure.
inductive Line where
  | values
  | locations
  | interior
deriving DecidableEq, Repr

namespace Line

abbrev Entry : Line → Type
  | .values => Nat
  | .locations => Nat
  | .interior => Nat × Nat

-- The order in which a worker looks for entries.
def drainOrder : List Line := [.locations, .interior, .values]

-- The order in which counters are read and buffers are published.
def order : List Line := [.values, .locations, .interior]

end Line

-- The two buffers of a worker's ends. Entries are pushed to the head and inserted into the tail.
inductive Side where
  | head
  | tail
deriving DecidableEq, Repr

namespace Side

variable {α : Type}

def buffer? (e : Ends α) : Side → Option (Deque α)
  | .head => e.head
  | .tail => e.tail

def set (e : Ends α) (buffer : Option (Deque α)) : Side → Ends α
  | .head => { e with head := buffer }
  | .tail => { e with tail := buffer }

def extend (d : Deque α) (x : α) : Side → Deque α
  | .head => d.pushFront x
  | .tail => d.pushBack x

def link (c : Chain α) (buffer : Deque α) : Side → Chain α
  | .head => c.linkFront buffer
  | .tail => c.linkBack buffer

-- The call that adds an entry, and the one that publishes a buffer.
def add (e : Ends α) (c : Chain α) (x : α) : Side → Ends α × Chain α
  | .head => e.push c x
  | .tail => e.insert c x

def enqueue (c : Chain α) (buffer : Deque α) : Side → Chain α
  | .head => c.enqueueFront buffer
  | .tail => c.enqueueBack buffer

end Side

-- All buffers of a worker, in the order in which they are published.
def Line.buffers : List (Line × Side) := Line.order.flatMap fun k => [(k, .head), (k, .tail)]

-- An entry that a worker is about to add to its own buffers.
structure Addition where
  line : Line
  side : Side
  entry : line.Entry

namespace Worker

-- What a worker does next.
inductive Stage where
  -- The entries that it found are added.
  | adding (todo : List Addition)
  -- An entry is looked for on the lines that are left.
  | polling (lines : List Line)
  -- The counter said that there are buffers.
  | taking (line : Line) (rest : List Line)
  -- A buffer was taken off the chain, but the counter does not know yet.
  | taken (line : Line) (buffer : Deque line.Entry) (rest : List Line)
  -- A buffer is about to become the head.
  | holding (line : Line) (buffer : Deque line.Entry) (rest : List Line)
  | flushing (todo : List (Line × Side))
  -- Counted as idle: the counters of the lines are read, and then the idle count.
  | looking (todo : List Line)
  -- The counters are read once more, since all workers were idle.
  | checking (todo : List Line)
  -- A counter said that there is work.
  | leaving
  | returned

-- Whether the worker is counted as idle.
def Stage.isIdle : Stage → Bool
  | .looking _ | .checking _ | .leaving | .returned => true
  | _ => false

end Worker

structure Worker where
  ends : (k : Line) → Ends k.Entry := fun _ => {}
  -- The line of a buffer that was put on its chain but not counted yet.
  owed : Option Line := none
  stage : Worker.Stage

-- What workers share, and what they have done so far.
structure Board where
  chains : (k : Line) → Chain k.Entry
  termination : Termination
  inserted : (k : Line) → Multiset k.Entry := 0
  processed : (k : Line) → Multiset k.Entry := 0

namespace Board

def queues (b : Board) : TraceQueues :=
  ⟨b.chains .values, b.chains .locations, b.chains .interior⟩

def setChain (b : Board) (k : Line) (c : Chain k.Entry) : Board :=
  { b with chains := Function.update b.chains k c }

def insert (b : Board) (k : Line) (x : k.Entry) : Board :=
  { b with inserted := b.inserted + Pi.single k {x} }

def process (b : Board) (k : Line) (x : k.Entry) : Board :=
  { b with processed := b.processed + Pi.single k {x} }

end Board

namespace Worker

def setEnds (w : Worker) (k : Line) (e : Ends k.Entry) : Worker :=
  { w with ends := Function.update w.ends k e }

-- Gives a buffer away: an empty one goes back to the pool, any other onto the chain.
def publish (b : Board) (w : Worker) (k : Line) (side : Side) (buffer : Deque k.Entry) :
    Board × Worker :=
  let w := w.setEnds k (side.set (w.ends k) none)
  if buffer.isEmpty then (b.setChain k (b.chains k).recycle, w)
  else (b.setChain k (side.link (b.chains k) buffer), { w with owed := some k })

-- What a worker does when a line has nothing to take: the own tail comes last.
def fallBack (w : Worker) (k : Line) (rest : List Line) : Worker :=
  match (w.ends k).tail with
  | some buffer =>
    { w.setEnds k { w.ends k with tail := none } with stage := .holding k buffer rest }
  | none => { w with stage := .polling rest }

-- One atomic step. Processing an entry can find any entries.
def move (b : Board) (w : Worker) (found : List Addition) : Option (Board × Worker) :=
  match w.owed with
  | some k => some (b.setChain k (b.chains k).countUp, { w with owed := none })
  | none =>
    match w.stage with
    | .adding [] => some (b, { w with stage := .polling Line.drainOrder })
    | .adding (⟨k, side, x⟩ :: todo) =>
      match side.buffer? (w.ends k) with
      | some buffer =>
        if buffer.size < (b.chains k).capacity then
          some (b.insert k x,
            { w.setEnds k (side.set (w.ends k) (some (side.extend buffer x))) with
              stage := .adding todo })
        else some (publish b w k side buffer)
      | none =>
        some ((b.setChain k (b.chains k).allocate).insert k x,
          { w.setEnds k (side.set (w.ends k) (some (.singleton x))) with stage := .adding todo })
    | .polling [] => some (b, { w with stage := .flushing Line.buffers })
    | .polling (k :: rest) =>
      match (w.ends k).headEntries.popFront? with
      | some (x, head) =>
        some (b.process k x,
          { w.setEnds k { w.ends k with head := some head } with stage := .adding found })
      | none =>
        if (b.chains k).isEmpty then some (b, w.fallBack k rest)
        else some (b, { w with stage := .taking k rest })
    | .taking k rest =>
      match (b.chains k).unlink? with
      | some (buffer, c) => some (b.setChain k c, { w with stage := .taken k buffer rest })
      | none => some (b, w.fallBack k rest)
    | .taken k buffer rest =>
      some (b.setChain k (b.chains k).countDown, { w with stage := .holding k buffer rest })
    | .holding k buffer rest =>
      let (e, c) := (w.ends k).refill (b.chains k) buffer
      some (b.setChain k c, { w.setEnds k e with stage := .polling (k :: rest) })
    | .flushing [] =>
      some ({ b with termination := b.termination.enter }, { w with stage := .looking Line.order })
    | .flushing ((k, side) :: todo) =>
      match side.buffer? (w.ends k) with
      | some buffer => some (publish b w k side buffer)
      | none => some (b, { w with stage := .flushing todo })
    | .looking [] =>
      if b.termination.idle = b.termination.workers then
        some (b, { w with stage := .checking Line.order })
      else some (b, { w with stage := .looking Line.order })
    | .looking (k :: todo) =>
      if (b.chains k).isEmpty then some (b, { w with stage := .looking todo })
      else some (b, { w with stage := .leaving })
    | .checking [] => some (b, { w with stage := .returned })
    | .checking (k :: todo) =>
      if (b.chains k).isEmpty then some (b, { w with stage := .checking todo })
      else some (b, { w with stage := .looking Line.order })
    | .leaving =>
      some ({ b with termination := b.termination.leave },
        { w with stage := .polling Line.drainOrder })
    | .returned => none

end Worker

namespace Worker

-- The moves that change nothing but what the worker does next.
inductive Turn (b : Board) (ends : (k : Line) → Ends k.Entry) : Stage → Stage → Prop
  | added : Turn b ends (.adding []) (.polling Line.drainOrder)
  | drained : Turn b ends (.polling []) (.flushing Line.buffers)
  | seen {k : Line} {rest : List Line} : (ends k).headEntries.popFront? = none →
    Turn b ends (.polling (k :: rest)) (.taking k rest)
  | spent {k : Line} {rest : List Line} : Turn b ends (.polling (k :: rest)) (.polling rest)
  | missed {k : Line} {rest : List Line} : Turn b ends (.taking k rest) (.polling rest)
  | flushed {k : Line} {side : Side} {todo : List (Line × Side)} : side.buffer? (ends k) = none →
    Turn b ends (.flushing ((k, side) :: todo)) (.flushing todo)
  | wait : Turn b ends (.looking []) (.looking Line.order)
  | allIdle : b.termination.idle = b.termination.workers →
    Turn b ends (.looking []) (.checking Line.order)
  | zero {k : Line} {todo : List Line} : (b.chains k).counter = 0 →
    Turn b ends (.looking (k :: todo)) (.looking todo)
  | work {k : Line} {todo : List Line} : Turn b ends (.looking (k :: todo)) .leaving
  | sure {k : Line} {todo : List Line} : (b.chains k).counter = 0 →
    Turn b ends (.checking (k :: todo)) (.checking todo)
  | again {k : Line} {todo : List Line} :
    Turn b ends (.checking (k :: todo)) (.looking Line.order)
  | done : Turn b ends (.checking []) .returned

-- A buffer that a worker gives away next, full or not.
inductive Gives : Stage → Line → Side → Prop
  | full {k : Line} {side : Side} {x : k.Entry} {todo : List Addition} :
    Gives (.adding (⟨k, side, x⟩ :: todo)) k side
  | flush {k : Line} {side : Side} {todo : List (Line × Side)} :
    Gives (.flushing ((k, side) :: todo)) k side

-- All that a move can do.
inductive Moved (b : Board) : Worker → Board → Worker → Prop
  | count {ends : (k : Line) → Ends k.Entry} {k : Line} {stage : Stage} :
    Moved b ⟨ends, some k, stage⟩ (b.setChain k (b.chains k).countUp) ⟨ends, none, stage⟩
  | turn {ends : (k : Line) → Ends k.Entry} {stage stage' : Stage} : Turn b ends stage stage' →
    Moved b ⟨ends, none, stage⟩ b ⟨ends, none, stage'⟩
  | keep {ends : (k : Line) → Ends k.Entry} {k : Line} {side : Side} {x : k.Entry}
    {todo : List Addition} {buffer : Deque k.Entry} : side.buffer? (ends k) = some buffer →
    Moved b ⟨ends, none, .adding (⟨k, side, x⟩ :: todo)⟩ (b.insert k x)
      ⟨Function.update ends k (side.set (ends k) (some (side.extend buffer x))), none,
        .adding todo⟩
  | start {ends : (k : Line) → Ends k.Entry} {k : Line} {side : Side} {x : k.Entry}
    {todo : List Addition} : side.buffer? (ends k) = none →
    Moved b ⟨ends, none, .adding (⟨k, side, x⟩ :: todo)⟩
      ((b.setChain k (b.chains k).allocate).insert k x)
      ⟨Function.update ends k (side.set (ends k) (some (.singleton x))), none, .adding todo⟩
  | recycle {ends : (k : Line) → Ends k.Entry} {stage : Stage} {k : Line} {side : Side}
    {buffer : Deque k.Entry} : Gives stage k side → side.buffer? (ends k) = some buffer →
    buffer.toList = [] →
    Moved b ⟨ends, none, stage⟩ (b.setChain k (b.chains k).recycle)
      ⟨Function.update ends k (side.set (ends k) none), none, stage⟩
  | publish {ends : (k : Line) → Ends k.Entry} {stage : Stage} {k : Line} {side : Side}
    {buffer : Deque k.Entry} : Gives stage k side → side.buffer? (ends k) = some buffer →
    Moved b ⟨ends, none, stage⟩ (b.setChain k (side.link (b.chains k) buffer))
      ⟨Function.update ends k (side.set (ends k) none), some k, stage⟩
  | pop {ends : (k : Line) → Ends k.Entry} {k : Line} {rest : List Line} {x : k.Entry}
    {head : Deque k.Entry} (found : List Addition) :
    (ends k).headEntries.popFront? = some (x, head) →
    Moved b ⟨ends, none, .polling (k :: rest)⟩ (b.process k x)
      ⟨Function.update ends k { ends k with head := some head }, none, .adding found⟩
  | fallBack {ends : (k : Line) → Ends k.Entry} {stage : Stage} {k : Line} {rest : List Line}
    {buffer : Deque k.Entry} :
    stage = .polling (k :: rest) ∧ (ends k).headEntries.popFront? = none ∨
      stage = .taking k rest →
    (ends k).tail = some buffer →
    Moved b ⟨ends, none, stage⟩ b
      ⟨Function.update ends k { ends k with tail := none }, none, .holding k buffer rest⟩
  | unlink {ends : (k : Line) → Ends k.Entry} {k : Line} {rest : List Line}
    {buffer : Deque k.Entry} {c : Chain k.Entry} : (b.chains k).unlink? = some (buffer, c) →
    Moved b ⟨ends, none, .taking k rest⟩ (b.setChain k c) ⟨ends, none, .taken k buffer rest⟩
  | uncount {ends : (k : Line) → Ends k.Entry} {k : Line} {rest : List Line}
    {buffer : Deque k.Entry} :
    Moved b ⟨ends, none, .taken k buffer rest⟩ (b.setChain k (b.chains k).countDown)
      ⟨ends, none, .holding k buffer rest⟩
  | refill {ends : (k : Line) → Ends k.Entry} {k : Line} {rest : List Line}
    {buffer : Deque k.Entry} :
    Moved b ⟨ends, none, .holding k buffer rest⟩
      (b.setChain k ((ends k).refill (b.chains k) buffer).2)
      ⟨Function.update ends k ((ends k).refill (b.chains k) buffer).1, none,
        .polling (k :: rest)⟩
  | enter {ends : (k : Line) → Ends k.Entry} :
    Moved b ⟨ends, none, .flushing []⟩ { b with termination := b.termination.enter }
      ⟨ends, none, .looking Line.order⟩
  | leave {ends : (k : Line) → Ends k.Entry} :
    Moved b ⟨ends, none, .leaving⟩ { b with termination := b.termination.leave }
      ⟨ends, none, .polling Line.drainOrder⟩

variable {b b' : Board} {w w' : Worker} {found : List Addition}

theorem moved_publish {ends : (k : Line) → Ends k.Entry} {stage : Stage} {k : Line} {side : Side}
    {buffer : Deque k.Entry} (hg : Gives stage k side) (hb : side.buffer? (ends k) = some buffer)
    (h : publish b ⟨ends, none, stage⟩ k side buffer = (b', w')) :
    Moved b ⟨ends, none, stage⟩ b' w' := by
  unfold publish at h
  split at h
  · rename_i hempty
    cases h
    exact .recycle hg hb ((Deque.isEmpty_iff _).mp hempty)
  · cases h
    exact .publish hg hb

theorem moved_fallBack {ends : (k : Line) → Ends k.Entry} {stage : Stage} {k : Line}
    {rest : List Line} (hs : stage = .polling (k :: rest) ∧
      (ends k).headEntries.popFront? = none ∨ stage = .taking k rest) :
    Moved b ⟨ends, none, stage⟩ b (fallBack ⟨ends, none, stage⟩ k rest) := by
  unfold fallBack
  split
  · rename_i buffer htail
    exact .fallBack hs htail
  · rcases hs with ⟨rfl, -⟩ | rfl
    · exact .turn .spent
    · exact .turn .missed

theorem moved (h : w.move b found = some (b', w')) : Moved b w b' w' := by
  obtain ⟨ends, owed, stage⟩ := w
  unfold move at h
  cases owed with
  | some k =>
    cases h
    exact .count
  | none =>
    simp only at h
    split at h
    · cases h
      exact .turn .added
    · split at h
      · rename_i buffer hbuffer
        split at h
        · cases h
          exact .keep hbuffer
        · exact moved_publish .full hbuffer (Option.some.inj h)
      · rename_i hbuffer
        cases h
        exact .start hbuffer
    · cases h
      exact .turn .drained
    · split at h
      · rename_i hpop
        cases h
        exact .pop found hpop
      · rename_i hspent
        split at h
        · cases h
          exact moved_fallBack (Or.inl ⟨rfl, hspent⟩)
        · cases h
          exact .turn (.seen hspent)
    · split at h
      · rename_i hunlink
        cases h
        exact .unlink hunlink
      · cases h
        exact moved_fallBack (Or.inr rfl)
    · cases h
      exact .uncount
    · cases h
      exact .refill
    · cases h
      exact .enter
    · split at h
      · rename_i hbuffer
        exact moved_publish .flush hbuffer (Option.some.inj h)
      · rename_i hbuffer
        cases h
        exact .turn (.flushed hbuffer)
    · split at h
      · rename_i hidle
        cases h
        exact .turn (.allIdle hidle)
      · cases h
        exact .turn .wait
    · split at h
      · rename_i hzero
        cases h
        exact .turn (.zero (eq_of_beq hzero))
      · cases h
        exact .turn .work
    · cases h
      exact .turn .done
    · split at h
      · rename_i hzero
        cases h
        exact .turn (.sure (eq_of_beq hzero))
      · cases h
        exact .turn .again
    · cases h
      exact .leave
    · cases h

end Worker

-- So many workers at a board.
structure State (n : Nat) where
  board : Board
  workers : Fin n → Worker

namespace State

-- One of the workers moves.
inductive Step {n : Nat} (s : State n) : State n → Prop
  | move (i : Fin n) (found : List Addition) {b : Board} {w : Worker} :
    (s.workers i).move s.board found = some (b, w) →
    Step s ⟨b, Function.update s.workers i w⟩

-- What a crew can come to that starts with nothing on the chains. The roots are what its workers have
-- to add first.
inductive Reached {n : Nat} : State n → Prop
  | start (chains : (k : Line) → Chain k.Entry) (roots : Fin n → List Addition) :
    (∀ k, (chains k).links.toList = [] ∧ (chains k).counter = 0) →
    Reached ⟨{ chains, termination := { workers := n } }, fun i => { stage := .adding (roots i) }⟩
  | step {s s' : State n} : Reached s → Step s s' → Reached s'

-- Moves in a given order, each by a worker that finds certain entries.
def perform {n : Nat} (s : State n) : List (Fin n × List Addition) → Option (State n)
  | [] => some s
  | (i, found) :: moves =>
    ((s.workers i).move s.board found).bind fun (b, w) =>
      perform ⟨b, Function.update s.workers i w⟩ moves

theorem Reached.perform {n : Nat} {s s' : State n} (hs : Reached s)
    {moves : List (Fin n × List Addition)} (h : s.perform moves = some s') : Reached s' := by
  induction moves generalizing s with
  | nil =>
    cases h
    exact hs
  | cons turn moves ih =>
    obtain ⟨i, found⟩ := turn
    obtain ⟨⟨b, w⟩, hmove, hrest⟩ := Option.bind_eq_some_iff.mp h
    exact ih (hs.step (.move i found hmove)) hrest

end State

end Reclaim.Crew
