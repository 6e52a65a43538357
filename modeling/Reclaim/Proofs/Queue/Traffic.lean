import Reclaim.Proofs.Workers.Completion

/-!
A chain that any number of users share, one atomic step after another and in any order. Users come and
go; each has ends of its own. Buffers are numbered when they are made, so that one can tell where every
single one of them is.
-/
namespace Reclaim.Queue

open Crew (Side)

variable {α : Type}

-- A buffer with the number that it got when it was made.
structure Numbered (α : Type) where
  number : Nat
  buffer : Deque α

-- What the users share, and what became of the entries so far.
structure Depot (α : Type) where
  chain : Chain α
  -- The numbers of the buffers on the chain, front first, and of those in the pool.
  linked : List Nat := []
  pool : List Nat := []
  -- Entries that were inserted or pushed, and those that were popped or drained.
  added : Multiset α := 0
  removed : Multiset α := 0

namespace Depot

def recycle (d : Depot α) (number : Nat) : Depot α :=
  { d with chain := d.chain.recycle, pool := d.pool ++ [number] }

def link (d : Depot α) (side : Side) (b : Numbered α) : Depot α :=
  { d with
    chain := side.link d.chain b.buffer
    linked := match side with
      | .head => b.number :: d.linked
      | .tail => d.linked ++ [b.number] }

def unlink? (d : Depot α) : Option (Numbered α × Depot α) :=
  d.chain.unlink?.map fun (buffer, chain) =>
    (⟨d.linked.headD 0, buffer⟩, { d with chain, linked := d.linked.tail })

-- A pooled buffer is used again.
def reuse (d : Depot α) : Depot α :=
  { d with chain := { d.chain with pooled := d.chain.pooled - 1 }, pool := d.pool.tail }

-- A buffer is made.
def make (d : Depot α) : Depot α :=
  { d with chain := { d.chain with created := d.chain.created + 1 } }

def add (d : Depot α) (x : α) : Depot α := { d with added := d.added + {x} }

def remove (d : Depot α) (xs : List α) : Depot α := { d with removed := d.removed + xs }

end Depot

-- Who takes a buffer off the chain.
inductive Aim where
  | pop
  | drain
deriving DecidableEq, Repr

namespace User

-- What a user calls for.
inductive Task (α : Type) where
  -- Entries are pushed to the head and inserted into the tail.
  | add (side : Side) (x : α)
  | pop
  | flush
  | drop
  | drain

-- What a user does next.
inductive Stage (α : Type) where
  | rest
  | adding (side : Side) (x : α)
  -- The pool had no buffer.
  | making (side : Side) (x : α)
  | popping
  -- The counter of the chain is read.
  | looking (aim : Aim)
  -- The counter said that there are buffers.
  | taking (aim : Aim)
  -- A buffer was taken off the chain, but the counter does not know yet.
  | taken (aim : Aim) (b : Numbered α)
  -- A buffer is about to become the head.
  | holding (b : Numbered α)
  -- A drain hands out the entries of a buffer.
  | spilling (b : Numbered α)
  | flushing (todo : List Side) (last : Bool)
  | gone

def Task.stage : Task α → Stage α
  | .add side x => .adding side x
  | .pop => .popping
  | .flush => .flushing [.head, .tail] false
  | .drop => .flushing [.head, .tail] true
  | .drain => .looking .drain

-- The buffer that is in nobody's ends, pool or chain.
def Stage.hand? : Stage α → Option (Numbered α)
  | .taken _ b | .holding b | .spilling b => some b
  | _ => none

-- What a buffer is taken off the chain for.
def Stage.use (b : Numbered α) : Aim → Stage α
  | .pop => .holding b
  | .drain => .spilling b

-- Whether a call is under way.
def Stage.isBusy : Stage α → Bool
  | .rest | .gone => false
  | _ => true

end User

structure User (α : Type) where
  head : Option (Numbered α) := none
  tail : Option (Numbered α) := none
  -- A buffer was put on the chain but not counted yet.
  owes : Bool := false
  stage : User.Stage α := .rest

namespace User

def fresh : User α := {}

def ends (u : User α) : Ends α := ⟨u.head.map (·.buffer), u.tail.map (·.buffer)⟩

def buffer? (u : User α) : Side → Option (Numbered α)
  | .head => u.head
  | .tail => u.tail

def set (u : User α) (b : Option (Numbered α)) : Side → User α
  | .head => { u with head := b }
  | .tail => { u with tail := b }

-- Gives a buffer away: an empty one goes back to the pool, any other onto the chain.
def publish (d : Depot α) (u : User α) (side : Side) (b : Numbered α) : Depot α × User α :=
  if b.buffer.isEmpty then (d.recycle b.number, u.set none side)
  else (d.link side b, { u.set none side with owes := true })

-- The chain had nothing: a pop goes on with the own tail, if there is one.
def miss (u : User α) : Aim → User α
  | .pop => match u.tail with
    | some b => { u with tail := none, stage := .holding b }
    | none => { u with stage := .rest }
  | .drain => { u with stage := .rest }

-- One atomic step. A user at rest starts on a task.
def move (d : Depot α) (u : User α) (task : Task α) : Option (Depot α × User α) :=
  if u.owes then some ({ d with chain := d.chain.countUp }, { u with owes := false })
  else match u.stage with
    | .rest => some (d, { u with stage := task.stage })
    | .adding side x =>
      match u.buffer? side with
      | some b =>
        if b.buffer.size < d.chain.capacity then
          some (d.add x, { u.set (some ⟨b.number, side.extend b.buffer x⟩) side with stage := .rest })
        else some (publish d u side b)
      | none =>
        if d.chain.pooled = 0 then some (d, { u with stage := .making side x })
        else some (d.reuse.add x,
          { u.set (some ⟨d.pool.headD 0, .singleton x⟩) side with stage := .rest })
    | .making side x => some (d.make.add x,
        { u.set (some ⟨d.chain.created, .singleton x⟩) side with stage := .rest })
    | .popping =>
      match u.head with
      | some b =>
        match b.buffer.popFront? with
        | some (x, left) =>
          some (d.remove [x], { u with head := some ⟨b.number, left⟩, stage := .rest })
        | none => some (d, { u with stage := .looking .pop })
      | none => some (d, { u with stage := .looking .pop })
    | .looking aim =>
      if d.chain.isEmpty then some (d, u.miss aim) else some (d, { u with stage := .taking aim })
    | .taking aim =>
      match d.unlink? with
      | some (b, d) => some (d, { u with stage := .taken aim b })
      | none => some (d, u.miss aim)
    | .taken aim b => some ({ d with chain := d.chain.countDown },
        { u with stage := .use b aim })
    | .holding b =>
      some (u.head.elim d fun spent => d.recycle spent.number,
        { u with head := some b, stage := .popping })
    | .spilling b =>
      some ((d.recycle b.number).remove b.buffer.toList, { u with stage := .looking .drain })
    | .flushing [] last => some (d, { u with stage := bif last then .gone else .rest })
    | .flushing (side :: todo) last =>
      match u.buffer? side with
      | some b => some (publish d u side b)
      | none => some (d, { u with stage := .flushing todo last })
    | .gone => none

end User

-- A chain with the users that ever came.
structure Traffic (α : Type) where
  depot : Depot α
  users : List (User α)

namespace Traffic

-- A user comes, or one of them makes a move.
inductive Step : Traffic α → Traffic α → Prop
  | create (d : Depot α) (users : List (User α)) : Step ⟨d, users⟩ ⟨d, users ++ [.fresh]⟩
  | move {d d' : Depot α} {users : List (User α)} {i : Nat} {u u' : User α} (task : User.Task α) :
    users[i]? = some u → u.move d task = some (d', u') → Step ⟨d, users⟩ ⟨d', users.set i u'⟩

-- What a new chain can come to.
inductive Reached : Traffic α → Prop
  | start (name : String) (capacity words : Nat) :
    Reached ⟨{ chain := .new name capacity words }, []⟩
  | step {s s' : Traffic α} : Reached s → Step s s' → Reached s'

end Traffic

namespace Depot

def entries (d : Depot α) : Multiset α := d.chain.entries

-- The numbers of the buffers that no user has.
def numbers (d : Depot α) : Multiset Nat := (d.linked : Multiset Nat) + d.pool

-- Every buffer on the chain and in the pool has its number.
structure Aligned (d : Depot α) : Prop where
  linked : d.linked.length = d.chain.links.toList.length
  pool : d.pool.length = d.chain.pooled

section Link

variable (d : Depot α) (side : Side) (b : Numbered α)

theorem created_link : (d.link side b).chain.created = d.chain.created := by cases side <;> rfl

theorem numbers_link : (d.link side b).numbers = d.numbers + {b.number} := by
  cases side <;> simp only [link, numbers, ← Multiset.cons_coe, ← Multiset.coe_add,
    ← Multiset.singleton_add] <;> abel

theorem entries_link : (d.link side b).entries = d.entries + b.buffer.toList :=
  Side.entries_link d.chain side b.buffer

theorem surplus_link : (d.link side b).chain.surplus + 1 = d.chain.surplus :=
  Side.surplus_link d.chain side b.buffer

variable {d}

theorem Aligned.link (h : d.Aligned) : (d.link side b).Aligned := by
  cases side <;> refine ⟨?_, h.pool⟩ <;>
    simp [Depot.link, Side.link, Chain.linkFront, Chain.linkBack, h.linked]

end Link

theorem numbers_recycle (d : Depot α) (number : Nat) :
    (d.recycle number).numbers = d.numbers + {number} := by
  simp only [recycle, numbers, ← Multiset.coe_add, Multiset.coe_singleton, add_assoc]

theorem Aligned.recycle {d : Depot α} (h : d.Aligned) (number : Nat) : (d.recycle number).Aligned :=
  ⟨h.linked, by
    show (d.pool ++ [number]).length = d.chain.pooled + 1
    rw [List.length_append, h.pool, List.length_singleton]⟩

-- The first buffer leaves the chain with its number.
theorem Aligned.unlink? {d d' : Depot α} {b : Numbered α} (h : d.Aligned)
    (hunlink : d.unlink? = some (b, d')) : d'.Aligned ∧
      d'.chain.created = d.chain.created ∧ d'.added = d.added ∧ d'.removed = d.removed ∧
      d'.entries + b.buffer.toList = d.entries ∧ d'.numbers + {b.number} = d.numbers ∧
      d'.chain.surplus = d.chain.surplus + 1 := by
  obtain ⟨⟨buffer, chain⟩, hchain, hlast⟩ := Option.map_eq_some_iff.mp hunlink
  cases hlast
  have hentries := Chain.entries_unlink? hchain
  have hsurplus := Chain.surplus_unlink? hchain
  obtain ⟨⟨front, links⟩, hpop, hcut⟩ := Option.map_eq_some_iff.mp hchain
  cases hcut
  have hlinked := h.linked
  rw [Deque.toList_of_popFront? hpop, List.length_cons] at hlinked
  obtain ⟨number, rest, hcons⟩ := List.exists_cons_of_length_eq_add_one hlinked
  rw [hcons, List.length_cons] at hlinked
  refine ⟨⟨?_, h.pool⟩, rfl, rfl, rfl, hentries, ?_, hsurplus⟩
  · show d.linked.tail.length = links.toList.length
    rw [hcons]
    exact Nat.succ.inj hlinked
  · show ((d.linked.tail : Multiset Nat) + d.pool) + {d.linked.headD 0} = d.linked + d.pool
    rw [hcons, List.headD_cons, List.tail_cons, ← Multiset.cons_coe, ← Multiset.singleton_add]
    abel

-- A pooled buffer leaves the pool with its number.
theorem Aligned.reuse {d : Depot α} (h : d.Aligned) (hpooled : d.chain.pooled ≠ 0) :
    d.reuse.Aligned ∧ d.reuse.numbers + {d.pool.headD 0} = d.numbers := by
  have hpool := h.pool
  obtain ⟨number, rest, hcons⟩ := List.exists_cons_of_length_eq_add_one (n := d.chain.pooled - 1)
    (by omega : d.pool.length = d.chain.pooled - 1 + 1)
  rw [hcons, List.length_cons] at hpool
  refine ⟨⟨h.linked, ?_⟩, ?_⟩
  · show d.pool.tail.length = d.chain.pooled - 1
    rw [hcons, List.tail_cons]
    omega
  · show ((d.linked : Multiset Nat) + d.pool.tail) + {d.pool.headD 0} = d.linked + d.pool
    rw [hcons, List.headD_cons, List.tail_cons, ← Multiset.cons_coe, ← Multiset.singleton_add]
    abel

end Depot

namespace User

def numberOf (b : Option (Numbered α)) : Multiset Nat := b.elim 0 fun b => {b.number}

def entriesOf (b : Option (Numbered α)) : Multiset α := b.elim 0 fun b => (b.buffer.toList : Multiset α)

-- The numbers of the buffers that the user has.
def numbers (u : User α) : Multiset Nat :=
  numberOf u.head + numberOf u.tail + numberOf u.stage.hand?

-- The entries that nobody else can take.
def holds (u : User α) : Multiset α :=
  entriesOf u.head + entriesOf u.tail + entriesOf u.stage.hand?

-- How many buffers there are in the user's ends.
def buffers (u : User α) : Nat := u.head.toList.length + u.tail.toList.length

-- By how much the user makes the counter exceed the chain.
def lag (u : User α) : Int :=
  (match u.stage with
    | .taken _ _ => 1
    | _ => 0) - u.owes.toInt

-- The user looks for a buffer that replaces the head.
def Stage.spends : Stage α → Prop
  | .looking .pop | .taking .pop | .taken .pop _ | .holding _ => True
  | _ => False

-- Buffers that the user may still have.
def Stage.mayHave : Stage α → Side → Prop
  | .making other _, side => side ≠ other
  | .flushing todo _, side => side ∈ todo
  | .gone, _ => False
  | _, _ => True

-- What the stage of a user says of its buffers.
structure Tidy (u : User α) : Prop where
  spent : u.stage.spends → entriesOf u.head = 0
  given : ∀ side, ¬u.stage.mayHave side → u.buffer? side = none
  settled : u.stage.isBusy = false → u.owes = false

-- What a move does to the books.
structure Balanced (d : Depot α) (u : User α) (d' : Depot α) (u' : User α) : Prop where
  aligned : d'.Aligned
  tidy : u'.Tidy
  entries : d'.added + d.removed + (d.entries + u.holds) =
    d.added + d'.removed + (d'.entries + u'.holds)
  numbers : Multiset.range d.chain.created + (d'.numbers + u'.numbers) =
    Multiset.range d'.chain.created + (d.numbers + u.numbers)
  surplus : d'.chain.surplus + u.lag = d.chain.surplus + u'.lag

section Set

variable {u : User α} {side : Side} {b : Numbered α}

theorem holds_of_hand (h : u.stage.hand? = none) : u.holds = entriesOf u.head + entriesOf u.tail := by
  rw [holds, h]
  exact add_zero _

theorem numbers_of_hand (h : u.stage.hand? = none) : u.numbers = numberOf u.head + numberOf u.tail := by
  rw [numbers, h]
  exact add_zero _

theorem holds_set_none (h : u.buffer? side = some b) :
    (u.set none side).holds + b.buffer.toList = u.holds := by
  cases side <;> simp only [buffer?] at h <;>
    simp only [holds, set, h, entriesOf, Option.elim] <;> abel

theorem numbers_set_none (h : u.buffer? side = some b) :
    (u.set none side).numbers + {b.number} = u.numbers := by
  cases side <;> simp only [buffer?] at h <;>
    simp only [numbers, set, h, numberOf, Option.elim] <;> abel

theorem buffer?_set (u : User α) (b : Option (Numbered α)) (side other : Side) :
    (u.set b side).buffer? other = if other = side then b else u.buffer? other := by
  cases side <;> cases other <;> rfl

end Set

section Balance

variable {d d' : Depot α} {u u' : User α} (ha : d.Aligned)
include ha

-- A move that leaves the chain and the buffers alone.
theorem Balanced.turn (ht : u'.Tidy) (hholds : u'.holds = u.holds) (hnumbers : u'.numbers = u.numbers)
    (hlag : u'.lag = u.lag) : Balanced d u d u' :=
  ⟨ha, ht, by rw [hholds], by rw [hnumbers], by rw [hlag]⟩

-- A buffer is given away.
theorem publish_balanced {side : Side} {b : Numbered α} (ht : u.Tidy) (howes : u.owes = false)
    (hb : u.buffer? side = some b) (hbusy : u.stage.isBusy = true) (hspends : ¬u.stage.spends)
    (h : publish d u side b = (d', u')) : Balanced d u d' u' := by
  have hholds := holds_set_none hb
  have hnumbers := numbers_set_none hb
  have hstage : (u.set none side).stage = u.stage := by cases side <;> rfl
  have htidy : ∀ owes, Tidy { u.set none side with owes } := fun owes => by
    refine ⟨fun hs => absurd (hstage ▸ hs) hspends, fun other ho => ?_, fun hs => ?_⟩
    · have hset := buffer?_set u none side other
      have hgiven := ht.given other (hstage ▸ ho)
      cases other <;> exact hset.trans (by rw [hgiven, ite_self])
    · rw [show ({ u.set none side with owes } : User α).stage = u.stage from hstage, hbusy] at hs
      cases hs
  have hlag : (u.set none side).lag = u.lag := by cases side <;> rfl
  unfold publish at h
  split at h
  · rename_i hempty
    cases h
    rw [(Deque.isEmpty_iff _).mp hempty, Multiset.coe_nil, add_zero] at hholds
    refine ⟨ha.recycle b.number, htidy (u.set none side).owes, ?_, ?_, by rw [hlag]; rfl⟩
    · show d.added + d.removed + (d.entries + u.holds) =
        d.added + d.removed + (d.entries + (u.set none side).holds)
      rw [hholds]
    · rw [Depot.numbers_recycle, ← hnumbers]
      show Multiset.range d.chain.created + _ = Multiset.range d.chain.created + _
      abel
  · cases h
    refine ⟨ha.link side b, htidy true, ?_, ?_, ?_⟩
    · show d.added + d.removed + (d.entries + u.holds) =
        d.added + d.removed + ((d.link side b).entries + (u.set none side).holds)
      rw [Depot.entries_link, ← hholds]
      abel
    · rw [Depot.created_link, Depot.numbers_link]
      show _ + (_ + (u.set none side).numbers) = _
      rw [← hnumbers]
      abel
    · have hdebt : ({ u.set none side with owes := true } : User α).lag = u.lag - 1 := by
        cases side <;> simp only [lag, set, howes, Bool.toInt_true, Bool.toInt_false] <;> omega
      rw [hdebt, ← Depot.surplus_link d side b]
      omega

-- A user who found the chain without buffers.
theorem miss_balanced {aim : Aim} (hlag : u.lag = 0) (howes : u.owes = false)
    (hhand : u.stage.hand? = none) (hspent : aim = .pop → entriesOf u.head = 0) :
    Balanced d u d (u.miss aim) := by
  have hholds := holds_of_hand hhand
  have hnumbers := numbers_of_hand hhand
  obtain ⟨head, tail, owes, stage⟩ := u
  cases howes
  cases aim with
  | drain =>
    exact .turn ha ⟨nofun, fun _ hs => absurd trivial hs, fun _ => rfl⟩
      ((holds_of_hand rfl).trans hholds.symm) ((numbers_of_hand rfl).trans hnumbers.symm) hlag.symm
  | pop =>
    cases tail with
    | none =>
      exact .turn ha ⟨nofun, fun _ hs => absurd trivial hs, fun _ => rfl⟩
        ((holds_of_hand rfl).trans hholds.symm) ((numbers_of_hand rfl).trans hnumbers.symm) hlag.symm
    | some b =>
      refine .turn ha ⟨fun _ => hspent rfl, fun _ hs => absurd trivial hs, nofun⟩ ?_ ?_ hlag.symm
      · rw [hholds]
        exact congrArg (· + _) (add_zero _)
      · rw [hnumbers]
        exact congrArg (· + _) (add_zero _)

omit ha in
-- An entry is added to a buffer that the user had or got.
theorem add_balanced {d₁ : Depot α} {side : Side} {x : α} {b : Numbered α} (ha : d₁.Aligned)
    (hhand : u.stage.hand? = none) (hlag : u.lag = 0) (howes : u.owes = false)
    (hentries : d₁.added = d.added ∧ d₁.removed = d.removed ∧ d₁.entries = d.entries)
    (hsurplus : d₁.chain.surplus = d.chain.surplus)
    (hnumbers : Multiset.range d.chain.created + (d₁.numbers + {b.number}) =
      Multiset.range d₁.chain.created + (d.numbers + numberOf (u.buffer? side)))
    (hbuffer : (b.buffer.toList : Multiset α) = entriesOf (u.buffer? side) + {x}) :
    Balanced d u (d₁.add x) { u.set (some b) side with stage := .rest } := by
  obtain ⟨hadded, hremoved, hentries⟩ := hentries
  have hholds : ({ u.set (some b) side with stage := .rest } : User α).holds = u.holds + {x} := by
    rw [holds_of_hand hhand, holds_of_hand rfl]
    cases side with
    | head =>
      show (b.buffer.toList : Multiset α) + entriesOf u.tail = _
      rw [hbuffer]
      simp only [buffer?]
      abel
    | tail =>
      show entriesOf u.head + (b.buffer.toList : Multiset α) = _
      rw [hbuffer]
      simp only [buffer?]
      abel
  refine ⟨⟨ha.linked, ha.pool⟩, ⟨nofun, fun _ hs => absurd trivial hs, fun _ => ?_⟩, ?_, ?_, ?_⟩
  · cases side <;> exact howes
  · rw [hholds]
    show d₁.added + {x} + d.removed + (d.entries + u.holds) =
      d.added + d₁.removed + (d₁.entries + (u.holds + {x}))
    rw [hadded, hremoved, hentries]
    abel
  · show _ + (d₁.numbers + _) = Multiset.range d₁.chain.created + _
    rw [numbers_of_hand hhand, numbers_of_hand rfl]
    cases side with
    | head =>
      show _ + (d₁.numbers + ({b.number} + numberOf u.tail)) = _
      have hmore := congrArg (· + numberOf u.tail) hnumbers
      simp only [buffer?, add_assoc] at hmore ⊢
      exact hmore
    | tail =>
      show _ + (d₁.numbers + (numberOf u.head + {b.number})) = _
      have hmore := congrArg (numberOf u.head + ·) hnumbers
      simp only [buffer?] at hmore
      calc _ = numberOf u.head + (Multiset.range d.chain.created + (d₁.numbers + {b.number})) := by abel
        _ = _ := by rw [hmore]; abel
  · rw [hlag]
    show d₁.chain.surplus + 0 = d.chain.surplus + _
    rw [hsurplus]
    cases side <;> simp only [lag, set, howes, Bool.toInt_false, sub_zero]

omit ha in
theorem Tidy.idle {head tail : Option (Numbered α)} {stage : Stage α} (hspends : ¬stage.spends)
    (hhave : ∀ side, stage.mayHave side) : Tidy ⟨head, tail, false, stage⟩ :=
  ⟨fun hs => absurd hs hspends, fun side hs => absurd (hhave side) hs, fun _ => rfl⟩

section Stages

variable {head tail : Option (Numbered α)} {task : Task α}

theorem balanced_owing {stage : Stage α} (ht : Tidy ⟨head, tail, true, stage⟩)
    (h : move d ⟨head, tail, true, stage⟩ task = some (d', u')) :
    Balanced d ⟨head, tail, true, stage⟩ d' u' := by
  cases h
  refine ⟨⟨ha.linked, ha.pool⟩, ⟨ht.spent, ht.given, fun _ => rfl⟩, rfl, rfl, ?_⟩
  rw [Chain.surplus_countUp]
  simp only [lag, Bool.toInt_true, Bool.toInt_false]
  omega

theorem balanced_rest (h : move d ⟨head, tail, false, .rest⟩ task = some (d', u')) :
    Balanced d ⟨head, tail, false, .rest⟩ d' u' := by
  cases h
  have hall : ∀ side : Side, side ∈ [Side.head, .tail] := by rintro (_ | _) <;> decide
  cases task with
  | add side x => exact .turn ha (.idle id fun _ => trivial) rfl rfl rfl
  | pop => exact .turn ha (.idle id fun _ => trivial) rfl rfl rfl
  | flush => exact .turn ha (.idle id hall) rfl rfl rfl
  | drop => exact .turn ha (.idle id hall) rfl rfl rfl
  | drain => exact .turn ha (.idle id fun _ => trivial) rfl rfl rfl

theorem balanced_adding {side : Side} {x : α} (ht : Tidy ⟨head, tail, false, .adding side x⟩)
    (h : move d ⟨head, tail, false, .adding side x⟩ task = some (d', u')) :
    Balanced d ⟨head, tail, false, .adding side x⟩ d' u' := by
  simp only [move, Bool.false_eq_true, if_false] at h
  split at h
  · rename_i b hb
    split at h
    · cases h
      refine add_balanced ha rfl rfl rfl ⟨rfl, rfl, rfl⟩ rfl ?_ ?_
      · rw [hb]
        rfl
      · rw [hb]
        exact Side.toList_extend side b.buffer x
    · exact publish_balanced ha ht rfl hb rfl id (Option.some.inj h)
  · rename_i hb
    split at h
    · cases h
      refine .turn ha ⟨nofun, fun other ho => ?_, fun _ => rfl⟩ rfl rfl rfl
      rw [of_not_not ho]
      exact hb
    · rename_i hpooled
      cases h
      obtain ⟨hreuse, hnumbers⟩ := ha.reuse hpooled
      refine add_balanced hreuse rfl rfl rfl ⟨rfl, rfl, rfl⟩ rfl ?_ ?_
      · rw [hb, hnumbers]
        exact congrArg _ (add_zero _).symm
      · rw [hb]
        exact (zero_add _).symm

theorem balanced_making {side : Side} {x : α} (ht : Tidy ⟨head, tail, false, .making side x⟩)
    (h : move d ⟨head, tail, false, .making side x⟩ task = some (d', u')) :
    Balanced d ⟨head, tail, false, .making side x⟩ d' u' := by
  cases h
  have hnone := ht.given side fun hne => hne rfl
  refine add_balanced ⟨ha.linked, ha.pool⟩ rfl rfl rfl ⟨rfl, rfl, rfl⟩ rfl ?_ ?_
  · rw [hnone]
    show Multiset.range d.chain.created + (d.numbers + {d.chain.created}) =
      Multiset.range (d.chain.created + 1) + (d.numbers + 0)
    rw [Multiset.range_succ, ← Multiset.singleton_add]
    abel
  · rw [hnone]
    exact (zero_add _).symm

theorem balanced_popping (h : move d ⟨head, tail, false, .popping⟩ task = some (d', u')) :
    Balanced d ⟨head, tail, false, .popping⟩ d' u' := by
  cases head with
  | none =>
    cases h
    exact .turn ha ⟨fun _ => rfl, fun _ hs => absurd trivial hs, fun _ => rfl⟩ rfl rfl rfl
  | some b =>
    simp only [move, Bool.false_eq_true, if_false] at h
    split at h
    · rename_i x left hpop
      cases h
      refine ⟨⟨ha.linked, ha.pool⟩, .idle id fun _ => trivial, ?_, rfl, rfl⟩
      show d.added + d.removed + (d.entries + ((b.buffer.toList : Multiset α) + entriesOf tail + 0)) =
        d.added + (d.removed + (([x] : List α) : Multiset α)) +
          (d.entries + ((left.toList : Multiset α) + entriesOf tail + 0))
      rw [Deque.toList_of_popFront? hpop, ← Multiset.cons_coe, ← Multiset.singleton_add,
        Multiset.coe_singleton]
      abel
    · rename_i hpop
      cases h
      refine .turn ha ⟨fun _ => ?_, fun _ hs => absurd trivial hs, fun _ => rfl⟩ rfl rfl rfl
      exact congrArg Multiset.ofList ((Deque.popFront?_eq_none_iff _).mp hpop)

theorem balanced_looking {aim : Aim} (ht : Tidy ⟨head, tail, false, .looking aim⟩)
    (h : move d ⟨head, tail, false, .looking aim⟩ task = some (d', u')) :
    Balanced d ⟨head, tail, false, .looking aim⟩ d' u' := by
  simp only [move, Bool.false_eq_true, if_false] at h
  split at h
  · cases h
    exact miss_balanced ha rfl rfl rfl fun haim => ht.spent (by rw [haim]; trivial)
  · cases h
    refine .turn ha ⟨fun hs => ht.spent ?_, fun _ hs => absurd trivial hs, fun _ => rfl⟩ rfl rfl rfl
    cases aim with
    | pop => trivial
    | drain => cases hs

theorem balanced_taking {aim : Aim} (ht : Tidy ⟨head, tail, false, .taking aim⟩)
    (h : move d ⟨head, tail, false, .taking aim⟩ task = some (d', u')) :
    Balanced d ⟨head, tail, false, .taking aim⟩ d' u' := by
  simp only [move, Bool.false_eq_true, if_false] at h
  split at h
  · rename_i b d₁ hunlink
    cases h
    obtain ⟨haligned, hcreated, hadded, hremoved, hentries, hnumbers, hsurplus⟩ := ha.unlink? hunlink
    refine ⟨haligned, ⟨fun hs => ht.spent ?_, fun _ hs => absurd trivial hs, nofun⟩, ?_, ?_, ?_⟩
    · cases aim with
      | pop => trivial
      | drain => cases hs
    · rw [hadded, hremoved, ← hentries]
      show _ + (_ + (entriesOf head + entriesOf tail + 0)) =
        _ + (_ + (entriesOf head + entriesOf tail + (b.buffer.toList : Multiset α)))
      abel
    · rw [hcreated, ← hnumbers]
      show _ + (_ + (numberOf head + numberOf tail + {b.number})) =
        _ + (_ + (numberOf head + numberOf tail + 0))
      abel
    · rw [hsurplus]
      simp only [lag, Bool.toInt_false]
      omega
  · cases h
    exact miss_balanced ha rfl rfl rfl fun haim => ht.spent (by rw [haim]; trivial)

theorem balanced_taken {aim : Aim} {b : Numbered α} (ht : Tidy ⟨head, tail, false, .taken aim b⟩)
    (h : move d ⟨head, tail, false, .taken aim b⟩ task = some (d', u')) :
    Balanced d ⟨head, tail, false, .taken aim b⟩ d' u' := by
  cases h
  have hsurplus := Chain.surplus_countDown d.chain
  cases aim with
  | pop =>
    refine ⟨⟨ha.linked, ha.pool⟩, ⟨fun _ => ht.spent trivial, fun _ hs => absurd trivial hs,
      nofun⟩, rfl, rfl, ?_⟩
    simp only [lag, Stage.use, Bool.toInt_false]
    omega
  | drain =>
    refine ⟨⟨ha.linked, ha.pool⟩, .idle id fun _ => trivial, rfl, rfl, ?_⟩
    simp only [lag, Stage.use, Bool.toInt_false]
    omega

theorem balanced_holding {b : Numbered α} (ht : Tidy ⟨head, tail, false, .holding b⟩)
    (h : move d ⟨head, tail, false, .holding b⟩ task = some (d', u')) :
    Balanced d ⟨head, tail, false, .holding b⟩ d' u' := by
  cases h
  -- nothing is lost with the spent head
  have hspent : entriesOf head = 0 := ht.spent trivial
  have hentries : (entriesOf (some b) + entriesOf tail + 0 : Multiset α) =
      entriesOf head + entriesOf tail + entriesOf (some b) := by
    rw [hspent]
    abel
  cases head with
  | none =>
    refine .turn ha (.idle id fun _ => trivial) hentries ?_ rfl
    show numberOf (some b) + numberOf tail + 0 = 0 + numberOf tail + numberOf (some b)
    abel
  | some spent =>
    refine ⟨ha.recycle _, .idle id fun _ => trivial, ?_, ?_, rfl⟩
    · show _ + (_ + _) = _ + (_ + (entriesOf (some b) + entriesOf tail + 0))
      rw [hentries]
      rfl
    · show _ + ((d.recycle spent.number).numbers + (numberOf (some b) + numberOf tail + 0)) =
        Multiset.range d.chain.created +
          (d.numbers + ({spent.number} + numberOf tail + numberOf (some b)))
      rw [Depot.numbers_recycle]
      abel

theorem balanced_spilling {b : Numbered α}
    (h : move d ⟨head, tail, false, .spilling b⟩ task = some (d', u')) :
    Balanced d ⟨head, tail, false, .spilling b⟩ d' u' := by
  cases h
  have haligned := ha.recycle b.number
  refine ⟨⟨haligned.linked, haligned.pool⟩, .idle id fun _ => trivial, ?_, ?_, rfl⟩
  · show d.added + d.removed + (d.entries + (entriesOf head + entriesOf tail +
      (b.buffer.toList : Multiset α))) = d.added + (d.removed + (b.buffer.toList : Multiset α)) +
        (d.entries + (entriesOf head + entriesOf tail + 0))
    abel
  · show _ + ((d.recycle b.number).numbers + (numberOf head + numberOf tail + 0)) =
      Multiset.range d.chain.created + (d.numbers + (numberOf head + numberOf tail + {b.number}))
    rw [Depot.numbers_recycle]
    abel

theorem balanced_flushing {todo : List Side} {last : Bool}
    (ht : Tidy ⟨head, tail, false, .flushing todo last⟩)
    (h : move d ⟨head, tail, false, .flushing todo last⟩ task = some (d', u')) :
    Balanced d ⟨head, tail, false, .flushing todo last⟩ d' u' := by
  cases todo with
  | nil =>
    cases h
    cases last with
    | true =>
      exact .turn ha ⟨nofun, fun side _ => ht.given side List.not_mem_nil, fun _ => rfl⟩ rfl rfl rfl
    | false => exact .turn ha (.idle id fun _ => trivial) rfl rfl rfl
  | cons side todo =>
    simp only [move, Bool.false_eq_true, if_false] at h
    split at h
    · rename_i b hb
      exact publish_balanced ha ht rfl hb rfl id (Option.some.inj h)
    · rename_i hb
      cases h
      refine .turn ha ⟨nofun, fun other ho => ?_, nofun⟩ rfl rfl rfl
      by_cases hother : other = side
      · exact hother ▸ hb
      · exact ht.given other fun hmem => ho ((List.mem_cons.mp hmem).resolve_left hother)

end Stages

-- A move conserves entries and buffers.
theorem move_balanced {task : Task α} (ht : u.Tidy) (h : u.move d task = some (d', u')) :
    Balanced d u d' u' := by
  obtain ⟨head, tail, owes, stage⟩ := u
  cases owes with
  | true => exact balanced_owing ha ht h
  | false =>
    cases stage with
    | rest => exact balanced_rest ha h
    | adding side x => exact balanced_adding ha ht h
    | making side x => exact balanced_making ha ht h
    | popping => exact balanced_popping ha h
    | looking aim => exact balanced_looking ha ht h
    | taking aim => exact balanced_taking ha ht h
    | taken aim b => exact balanced_taken ha ht h
    | holding b => exact balanced_holding ha ht h
    | spilling b => exact balanced_spilling ha h
    | flushing todo last => exact balanced_flushing ha ht h
    | gone => cases h

end Balance

-- A user between two calls has nothing but what lies in its ends.
theorem Tidy.settled_eq {u : User α} (ht : u.Tidy) (h : u.stage.isBusy = false) :
    u.holds = (u.ends.held : Multiset α) ∧ u.numbers = numberOf u.head + numberOf u.tail ∧
      u.lag = 0 := by
  obtain ⟨head, tail, owes, stage⟩ := u
  have howes : owes = false := ht.settled h
  have hhand : stage.hand? = none ∧ (⟨head, tail, false, stage⟩ : User α).lag = 0 := by
    cases stage with
    | rest | gone => exact ⟨rfl, rfl⟩
    | _ => cases h
  rw [howes]
  refine ⟨(holds_of_hand hhand.1).trans ?_, numbers_of_hand hhand.1, hhand.2⟩
  cases head <;> cases tail <;> rfl

end User

namespace Traffic

-- What is summed over all users.
def total {M : Type} [AddCommMonoid M] (f : User α → M) (s : Traffic α) : M := (s.users.map f).sum

-- What every interleaving keeps.
structure Sound (s : Traffic α) : Prop where
  aligned : s.depot.Aligned
  tidy : ∀ u ∈ s.users, u.Tidy
  entries : s.depot.added = s.depot.removed + (s.depot.entries + s.total User.holds)
  numbers : Multiset.range s.depot.chain.created = s.depot.numbers + s.total User.numbers
  surplus : s.depot.chain.surplus = s.total User.lag

theorem sum_set {M : Type} [AddCommMonoid M] (f : User α → M) {users : List (User α)} {i : Nat}
    {u : User α} (h : users[i]? = some u) (u' : User α) :
    ((users.set i u').map f).sum + f u = (users.map f).sum + f u' := by
  obtain ⟨hi, rfl⟩ := List.getElem?_eq_some_iff.mp h
  have hset := ((List.set_perm_cons_eraseIdx hi u').map f).sum_eq
  have hget := ((List.getElem_cons_eraseIdx_perm hi).map f).sum_eq
  rw [List.map_cons, List.sum_cons] at hset hget
  rw [hset, ← hget]
  abel

theorem sound_start (name : String) (capacity words : Nat) :
    Sound (⟨{ chain := .new name capacity words }, []⟩ : Traffic α) :=
  ⟨⟨rfl, rfl⟩, nofun, rfl, rfl, rfl⟩

variable {s s' : Traffic α}

theorem Sound.step (hs : s.Sound) (h : Step s s') : s'.Sound := by
  cases h with
  | create d users =>
    have htotal : ∀ {M : Type} [AddCommMonoid M] (f : User α → M), f .fresh = 0 →
        total f ⟨d, users ++ [.fresh]⟩ = total f ⟨d, users⟩ := fun f hf => by
      simp only [total, List.map_append, List.map_singleton, List.sum_append, List.sum_singleton, hf,
        add_zero]
    refine ⟨hs.aligned, fun u hu => ?_, ?_, ?_, ?_⟩
    · rcases List.mem_append.mp hu with hu | hu
      · exact hs.tidy u hu
      · rw [List.mem_singleton.mp hu]
        exact .idle id fun _ => trivial
    · rw [htotal User.holds rfl]
      exact hs.entries
    · rw [htotal User.numbers rfl]
      exact hs.numbers
    · rw [htotal User.lag rfl]
      exact hs.surplus
  | @move d d' users i u u' task hu hmove =>
    have hb := User.move_balanced hs.aligned (hs.tidy u (List.mem_of_getElem? hu)) hmove
    refine ⟨hb.aligned, fun v hv => ?_, ?_, ?_, ?_⟩
    · rcases List.mem_or_eq_of_mem_set hv with hv | rfl
      · exact hs.tidy v hv
      · exact hb.tidy
    · have hsum := sum_set User.holds hu u'
      refine add_right_cancel (b := d.removed + (d.entries + u.holds)) ?_
      calc d'.added + (d.removed + (d.entries + u.holds))
          = d'.added + d.removed + (d.entries + u.holds) := by abel
        _ = d.added + d'.removed + (d'.entries + u'.holds) := hb.entries
        _ = d.removed + (d.entries + total User.holds ⟨d, users⟩) + d'.removed +
            (d'.entries + u'.holds) := by rw [← hs.entries]
        _ = d.removed + d.entries + d'.removed + d'.entries +
            ((users.map User.holds).sum + u'.holds) := by rw [total]; abel
        _ = d'.removed + (d'.entries + total User.holds ⟨d', users.set i u'⟩) +
            (d.removed + (d.entries + u.holds)) := by rw [← hsum, total]; abel
    · have hsum := sum_set User.numbers hu u'
      refine add_right_cancel (b := d.numbers + u.numbers) ?_
      calc Multiset.range d'.chain.created + (d.numbers + u.numbers)
          = Multiset.range d.chain.created + (d'.numbers + u'.numbers) := hb.numbers.symm
        _ = d.numbers + total User.numbers ⟨d, users⟩ + (d'.numbers + u'.numbers) := by
            rw [← hs.numbers]
        _ = d.numbers + d'.numbers + ((users.map User.numbers).sum + u'.numbers) := by
            rw [total]; abel
        _ = d'.numbers + total User.numbers ⟨d', users.set i u'⟩ + (d.numbers + u.numbers) := by
            rw [← hsum, total]; abel
    · refine add_right_cancel (b := u.lag) ?_
      rw [hb.surplus, show d.chain.surplus = _ from hs.surplus]
      exact (sum_set User.lag hu u').symm

theorem Reached.sound (h : Reached s) : s.Sound := by
  induction h with
  | start name capacity words => exact sound_start name capacity words
  | step _ hstep ih => exact ih.step hstep

-- Users that come, where there is no number, and moves of those with a number.
def perform (s : Traffic α) : List (Option (Nat × User.Task α)) → Option (Traffic α)
  | [] => some s
  | none :: events => perform ⟨s.depot, s.users ++ [.fresh]⟩ events
  | some (i, task) :: events =>
    s.users[i]?.bind fun u => (u.move s.depot task).bind fun (d, u') =>
      perform ⟨d, s.users.set i u'⟩ events

theorem Reached.perform {events : List (Option (Nat × User.Task α))} (hs : Reached s)
    (h : s.perform events = some s') : Reached s' := by
  induction events generalizing s with
  | nil =>
    cases h
    exact hs
  | cons event events ih =>
    match event, h with
    | none, h => exact ih (hs.step (.create ..)) h
    | some (i, task), h =>
      obtain ⟨u, hu, hrest⟩ := Option.bind_eq_some_iff.mp h
      obtain ⟨⟨d, u'⟩, hmove, hrest⟩ := Option.bind_eq_some_iff.mp hrest
      exact ih (hs.step (.move task hu hmove)) hrest

theorem total_congr {M : Type} [AddCommMonoid M] {f g : User α → M}
    (h : ∀ u ∈ s.users, f u = g u) : s.total f = s.total g :=
  congrArg List.sum (List.map_congr_left h)

-- Between calls the books show what lies on the chain, in the pool and in the users' ends.
theorem Sound.settled (hs : s.Sound) (h : ∀ u ∈ s.users, u.stage.isBusy = false) :
    s.depot.added = s.depot.removed +
        (s.depot.entries + s.total fun u => (u.ends.held : Multiset α)) ∧
      s.depot.chain.created = s.depot.chain.pooled + s.depot.chain.links.toList.length +
        s.total User.buffers ∧
      s.depot.chain.counter = s.depot.chain.links.toList.length := by
  have hsettled := fun u hu => (hs.tidy u hu).settled_eq (h u hu)
  refine ⟨?_, ?_, ?_⟩
  · rw [← total_congr fun u hu => (hsettled u hu).1]
    exact hs.entries
  · have hcard : Multiset.card (s.total User.numbers) = s.total User.buffers := by
      rw [total_congr (f := User.buffers) (g := fun u => Multiset.card u.numbers) fun u hu => ?_]
      · rw [total, total]
        exact (map_list_sum Multiset.cardHom _).trans (by rw [List.map_map]; rfl)
      · rw [(hsettled u hu).2.1]
        cases hhead : u.head <;> cases htail : u.tail <;>
          simp [User.buffers, User.numberOf, hhead, htail]
    have hnumbers := congrArg Multiset.card hs.numbers
    rw [Multiset.card_range, Multiset.card_add, hcard, Depot.numbers, Multiset.card_add,
      Multiset.coe_card, Multiset.coe_card, hs.aligned.linked, hs.aligned.pool] at hnumbers
    omega
  · have hsurplus := hs.surplus
    have hzero : s.total User.lag = 0 := List.sum_eq_zero fun n hn => by
      obtain ⟨u, hu, rfl⟩ := List.mem_map.mp hn
      exact (hsettled u hu).2.2
    rw [hzero, Chain.surplus] at hsurplus
    omega

-- However the moves of the users interleave: every entry that was added and not removed is with one user
-- or on the chain, and every buffer that was made is in one place. Between two calls a user holds what
-- lies in its ends, and one that is gone holds nothing.
theorem Reached.accounts_for_all (h : Reached s) :
    s.depot.added = s.depot.removed + (s.depot.entries + s.total User.holds) ∧
      Multiset.range s.depot.chain.created = s.depot.numbers + s.total User.numbers ∧
      s.depot.Aligned ∧
      (∀ u ∈ s.users, u.stage.isBusy = false → u.holds = (u.ends.held : Multiset α) ∧
        u.numbers = User.numberOf u.head + User.numberOf u.tail) ∧
      (∀ u ∈ s.users, u.stage = .gone → u.head = none ∧ u.tail = none) ∧
      ((∀ u ∈ s.users, u.stage.isBusy = false) →
        s.depot.added = s.depot.removed +
          (s.depot.entries + s.total fun u => (u.ends.held : Multiset α)) ∧
        s.depot.chain.created = s.depot.chain.pooled + s.depot.chain.links.toList.length +
          s.total User.buffers ∧
        s.depot.chain.counter = s.depot.chain.links.toList.length) := by
  have hs := h.sound
  refine ⟨hs.entries, hs.numbers, hs.aligned, fun u hu hrest => ?_, fun u hu hgone => ?_, hs.settled⟩
  · obtain ⟨hholds, hnumbers, -⟩ := (hs.tidy u hu).settled_eq hrest
    exact ⟨hholds, hnumbers⟩
  · have hgiven : ∀ side, u.buffer? side = none := fun side =>
      (hs.tidy u hu).given side (by rw [hgone]; exact id)
    exact ⟨hgiven .head, hgiven .tail⟩

-- One user pushes two entries into buffers that have room for one, and is dropped while the other pops.
def dropped : Option (Traffic Nat) :=
  perform ⟨{ chain := .new "work" 1 }, []⟩ ([none, none] ++ List.replicate 3 (some (0, .add .head 7)) ++
    List.replicate 5 (some (0, .add .head 8)) ++
    (List.replicate 6 [some (1, .pop), some (0, .drop)]).flatten ++ [some (1, .pop)])

-- The buffer that the drop gave away is popped, the one before it is still there.
theorem Reached.accounts_for_all_dropped : ∃ s, dropped = some s ∧ Reached s ∧
    s.depot.added = {7, 8} ∧ s.depot.removed = {8} ∧ s.depot.entries = {7} ∧
    s.depot.chain.created = 2 ∧ s.depot.added = s.depot.removed +
      (s.depot.entries + s.total fun u => (u.ends.held : Multiset Nat)) := by
  obtain ⟨s, hs⟩ := Option.isSome_iff_exists.mp (show dropped.isSome by decide +kernel)
  have hreached : Reached s := (Reached.start "work" 1 1).perform hs
  have hbooks : dropped.all (fun s => s.depot.added = {7, 8} ∧ s.depot.removed = {8} ∧
      s.depot.entries = {7} ∧ s.depot.chain.created = 2 ∧
      ∀ u ∈ s.users, u.stage.isBusy = false) = true := by decide +kernel
  rw [hs, Option.all_some, decide_eq_true_eq] at hbooks
  obtain ⟨hadded, hremoved, hentries, hcreated, hsettled⟩ := hbooks
  obtain ⟨-, -, -, -, -, hbetween⟩ := hreached.accounts_for_all
  exact ⟨s, hs, hreached, hadded, hremoved, hentries, hcreated, (hbetween hsettled).1⟩

end Traffic

end Reclaim.Queue
