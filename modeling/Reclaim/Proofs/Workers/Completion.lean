import Mathlib.Algebra.BigOperators.Pi
import Mathlib.Algebra.Order.BigOperators.Group.Finset
import Mathlib.Tactic.Abel
import Reclaim.Proofs.Workers.Moves

/-!
No work is lost between the workers of a closure. The counters of the chains lag behind the chains by
the buffers that some worker has in its hands. The worker that was the last to become idle reads
counters that do not lag, so when all have returned nothing is left.
-/
namespace Reclaim

open Queue

variable {α : Type} (c : Chain α)

namespace Queue.Chain

-- By how much the counter exceeds the chain.
def surplus : Int := c.counter - c.links.toList.length

theorem surplus_allocate : c.allocate.surplus = c.surplus := by
  unfold allocate
  split <;> rfl

theorem surplus_countUp : c.countUp.surplus = c.surplus + 1 := by
  simp only [surplus, countUp]
  omega

theorem surplus_countDown : c.countDown.surplus + 1 = c.surplus := by
  simp only [surplus, countDown]
  omega

theorem surplus_unlink? {c c' : Chain α} {buffer : Deque α} (h : c.unlink? = some (buffer, c')) :
    c'.surplus = c.surplus + 1 := by
  obtain ⟨⟨d, links⟩, hpop, hlast⟩ := Option.map_eq_some_iff.mp h
  cases hlast
  simp only [surplus, Deque.toList_of_popFront? hpop, List.length_cons]
  omega

theorem entries_unlink? {c c' : Chain α} {buffer : Deque α} (h : c.unlink? = some (buffer, c')) :
    (c'.entries : Multiset α) + buffer.toList = c.entries := by
  obtain ⟨⟨d, links⟩, hpop, hlast⟩ := Option.map_eq_some_iff.mp h
  cases hlast
  simp only [entries, Deque.toList_of_popFront? hpop, List.flatMap_cons, ← Multiset.coe_add]
  exact add_comm _ _

end Queue.Chain

namespace Queue.Ends

variable (e : Ends α) (buffer : Deque α)

theorem surplus_refill : (e.refill c buffer).2.surplus = c.surplus := by
  unfold refill
  dsimp only
  split <;> rfl

theorem entries_refill_chain : (e.refill c buffer).2.entries = c.entries := by
  unfold refill
  dsimp only
  split <;> rfl

end Queue.Ends

namespace Crew

-- What is measured at each place of a family, when one place changes.
section Measure

variable {ι : Type} [DecidableEq ι] {F M : ι → Type} [∀ k, AddCommMonoid (M k)]
variable (measure : (k : ι) → F k → M k) (f : (k : ι) → F k) {k : ι} {v : F k} {d : M k}

theorem measure_add (h : measure k v = measure k (f k) + d) :
    (fun j => measure j (Function.update f k v j)) =
      (fun j => measure j (f j)) + Pi.single k d := by
  funext j
  rcases eq_or_ne j k with rfl | hne
  · rw [Function.update_self, Pi.add_apply, Pi.single_eq_same, h]
  · rw [Function.update_of_ne hne, Pi.add_apply, Pi.single_eq_of_ne hne, add_zero]

theorem measure_sub (h : measure k v + d = measure k (f k)) :
    (fun j => measure j (Function.update f k v j)) + Pi.single k d =
      fun j => measure j (f j) := by
  funext j
  rcases eq_or_ne j k with rfl | hne
  · rw [Pi.add_apply, Function.update_self, Pi.single_eq_same, h]
  · rw [Pi.add_apply, Function.update_of_ne hne, Pi.single_eq_of_ne hne, add_zero]

end Measure

namespace Side

variable (side : Side)

theorem surplus_link (buffer : Deque α) : (side.link c buffer).surplus + 1 = c.surplus := by
  cases side <;> simp only [link, Chain.linkFront, Chain.linkBack, Chain.surplus,
    Deque.toList_pushFront, Deque.toList_pushBack, List.length_cons, List.length_append,
    List.length_nil] <;> omega

theorem entries_link (buffer : Deque α) :
    ((side.link c buffer).entries : Multiset α) = c.entries + buffer.toList := by
  cases side <;> simp only [link, Chain.linkFront, Chain.linkBack, Chain.entries,
    Deque.toList_pushFront, Deque.toList_pushBack, List.flatMap_cons, List.flatMap_append,
    List.flatMap_nil, List.append_nil, ← Multiset.coe_add]
  exact add_comm _ _

variable {side} {e : Ends α} {buffer : Deque α}

theorem buffer?_set (e : Ends α) (new : Option (Deque α)) (other : Side) :
    other.buffer? (side.set e new) = if other = side then new else other.buffer? e := by
  cases side <;> cases other <;> rfl

theorem ends_eq (h : ∀ side : Side, side.buffer? e = none) : e = {} := by
  obtain ⟨head, tail⟩ := e
  cases (h .head : head = none)
  cases (h .tail : tail = none)
  rfl

theorem held_clear (h : side.buffer? e = some buffer) :
    ((side.set e none).held : Multiset α) + buffer.toList = e.held := by
  cases side <;> simp only [buffer?] at h <;> simp only [set, Ends.held, Ends.headEntries,
    Ends.tailEntries, h, Option.getD_some, Option.getD_none, Deque.toList_empty,
    List.nil_append, List.append_nil, ← Multiset.coe_add]
  exact add_comm _ _

theorem toList_extend (side : Side) (buffer : Deque α) (x : α) :
    ((side.extend buffer x).toList : Multiset α) = buffer.toList + {x} := by
  cases side
  · rw [extend, Deque.toList_pushFront, ← Multiset.cons_coe, ← Multiset.singleton_add, add_comm]
  · simp only [extend, Deque.toList_pushBack, ← Multiset.coe_add, Multiset.coe_singleton]

theorem held_extend (h : side.buffer? e = some buffer) (x : α) :
    ((side.set e (some (side.extend buffer x))).held : Multiset α) = e.held + {x} := by
  cases side <;> simp only [buffer?] at h <;> simp only [set, Ends.held, Ends.headEntries,
    Ends.tailEntries, h, Option.getD_some, ← Multiset.coe_add, toList_extend] <;> abel

theorem held_start (h : side.buffer? e = none) (x : α) :
    ((side.set e (some (.singleton x))).held : Multiset α) = e.held + {x} := by
  cases side <;> simp only [buffer?] at h <;> simp only [set, Ends.held, Ends.headEntries,
    Ends.tailEntries, h, Option.getD_some, Option.getD_none, Deque.toList_singleton,
    Deque.toList_empty, List.nil_append, List.append_nil, ← Multiset.coe_add,
    Multiset.coe_singleton]
  exact add_comm _ _

end Side

namespace Board

def surplus (b : Board) (k : Line) : Int := (b.chains k).surplus

def entries (b : Board) (k : Line) : Multiset k.Entry := (b.chains k).entries

variable {b : Board} {k : Line} {c : Chain k.Entry}

theorem surplus_add {d : Int} (h : c.surplus = (b.chains k).surplus + d) :
    (b.setChain k c).surplus = b.surplus + Pi.single k d :=
  measure_add (fun _ => Chain.surplus) b.chains h

theorem surplus_sub {d : Int} (h : c.surplus + d = (b.chains k).surplus) :
    (b.setChain k c).surplus + Pi.single k d = b.surplus :=
  measure_sub (fun _ => Chain.surplus) b.chains h

theorem surplus_same (h : c.surplus = (b.chains k).surplus) :
    (b.setChain k c).surplus = b.surplus := by
  rw [surplus_add (h.trans (add_zero _).symm), Pi.single_zero, add_zero]

theorem entries_add {d : Multiset k.Entry}
    (h : (c.entries : Multiset k.Entry) = (b.chains k).entries + d) :
    (b.setChain k c).entries = b.entries + Pi.single k d :=
  measure_add (fun (k : Line) (c : Chain k.Entry) => (c.entries : Multiset k.Entry)) b.chains h

theorem entries_sub {d : Multiset k.Entry}
    (h : (c.entries : Multiset k.Entry) + d = (b.chains k).entries) :
    (b.setChain k c).entries + Pi.single k d = b.entries :=
  measure_sub (fun (k : Line) (c : Chain k.Entry) => (c.entries : Multiset k.Entry)) b.chains h

theorem entries_same (h : c.entries = (b.chains k).entries) :
    (b.setChain k c).entries = b.entries := by
  rw [entries_add (by rw [h, add_zero]), Pi.single_zero, add_zero]

end Board

namespace Worker

-- Buffers that the worker may still have.
def Stage.mayHold : Stage → Line × Side → Prop
  | .flushing todo, p => p ∈ todo
  | .looking _, _ | .checking _, _ | .leaving, _ | .returned, _ => False
  | _, _ => True

-- The line whose head is spent.
def Stage.spends : Stage → Line → Prop
  | .taking k _, j | .taken k _ _, j | .holding k _ _, j => j = k
  | _, _ => False

-- Lines whose counter the worker has found to be zero for the second time.
def Stage.confirms : Stage → Line → Prop
  | .checking todo, k => k ∉ todo
  | .returned, _ => True
  | _, _ => False

-- A buffer on its way from a chain or the tail to the head.
def Stage.carried : Stage → (k : Line) → Multiset k.Entry
  | .taken k buffer _ => Pi.single k (buffer.toList : Multiset k.Entry)
  | .holding k buffer _ => Pi.single k (buffer.toList : Multiset k.Entry)
  | _ => 0

def Stage.uncounted : Stage → Line → Int
  | .taken k _ _ => Pi.single k 1
  | _ => 0

-- The entries in the buffers of a worker.
def held (ends : (k : Line) → Ends k.Entry) (k : Line) : Multiset k.Entry := (ends k).held

-- The entries that nobody else can take.
def holds (w : Worker) : (k : Line) → Multiset k.Entry := held w.ends + w.stage.carried

-- By how much the worker makes the counters exceed the chains.
def lag (w : Worker) : Line → Int := w.stage.uncounted - w.owed.elim 0 fun k => Pi.single k 1

section Held

variable {ends : (k : Line) → Ends k.Entry} {k : Line} {e : Ends k.Entry} {d : Multiset k.Entry}

theorem held_add (h : (e.held : Multiset k.Entry) = (ends k).held + d) :
    held (Function.update ends k e) = held ends + Pi.single k d :=
  measure_add (fun (k : Line) (e : Ends k.Entry) => (e.held : Multiset k.Entry)) ends h

theorem held_sub (h : (e.held : Multiset k.Entry) + d = (ends k).held) :
    held (Function.update ends k e) + Pi.single k d = held ends :=
  measure_sub (fun (k : Line) (e : Ends k.Entry) => (e.held : Multiset k.Entry)) ends h

end Held

theorem held_popFront {e : Ends α} {x : α} {head : Deque α}
    (h : e.headEntries.popFront? = some (x, head)) :
    (({ e with head := some head } : Ends α).held : Multiset α) + {x} = e.held := by
  show ((head.toList ++ e.tailEntries.toList : List α) : Multiset α) + {x} =
    ((e.headEntries.toList ++ e.tailEntries.toList : List α) : Multiset α)
  rw [Deque.toList_of_popFront? h, List.cons_append, ← Multiset.cons_coe,
    ← Multiset.singleton_add, add_comm]

-- A spent head holds nothing, so nothing is lost with it.
theorem held_refill {e : Ends α} (h : e.headEntries.toList = []) (c : Chain α) (buffer : Deque α) :
    ((e.refill c buffer).1.held : Multiset α) = e.held + buffer.toList := by
  show ((buffer.toList ++ e.tailEntries.toList : List α) : Multiset α) =
    ((e.headEntries.toList ++ e.tailEntries.toList : List α) : Multiset α) + buffer.toList
  rw [h, List.nil_append, ← Multiset.coe_add, add_comm]

-- What the stage of a worker says of its buffers.
structure Tidy (w : Worker) : Prop where
  buffers : ∀ k side, ¬w.stage.mayHold (k, side) → side.buffer? (w.ends k) = none
  spent : ∀ k, w.stage.spends k → (w.ends k).headEntries.toList = []
  owed : w.stage.isIdle = true → w.owed = none

variable {b b' : Board} {w w' : Worker}

theorem mem_order (k : Line) : k ∈ Line.order := by cases k <;> decide

theorem mem_buffers (p : Line × Side) : p ∈ Line.buffers := by
  obtain ⟨k, side⟩ := p
  cases k <;> cases side <;> decide

theorem stage_of_idle {stage : Stage} (h : stage.isIdle = true) :
    (∀ p, ¬stage.mayHold p) ∧ stage.carried = 0 ∧ stage.uncounted = 0 := by
  cases stage with
  | looking | checking | leaving | returned => exact ⟨fun _ => id, rfl, rfl⟩
  | _ => cases h

theorem Gives.not_idle {stage : Stage} {k : Line} {side : Side} (h : Gives stage k side) :
    stage.isIdle = false := by cases h <;> rfl

theorem Gives.not_spends {stage : Stage} {k j : Line} {side : Side} (h : Gives stage k side) :
    ¬stage.spends j := by cases h <;> exact id

-- A buffer that was given away leaves the others in place.
theorem Tidy.give {ends : (k : Line) → Ends k.Entry} {stage : Stage} {k : Line} {side : Side}
    {owed owed' : Option Line} (h : Tidy ⟨ends, owed, stage⟩) (hg : Gives stage k side) :
    Tidy ⟨Function.update ends k (side.set (ends k) none), owed', stage⟩ := by
  refine ⟨fun j other hj => ?_, fun j hj => absurd hj hg.not_spends,
    fun hidle => by rw [hg.not_idle] at hidle; cases hidle⟩
  rcases eq_or_ne j k with rfl | hne
  · simp only [Function.update_self, Side.buffer?_set]
    split
    · rfl
    · exact h.buffers j other hj
  · simp only [Function.update_of_ne hne]
    exact h.buffers j other hj

theorem Turn.tidy {ends : (k : Line) → Ends k.Entry} {stage stage' : Stage}
    (ht : Turn b ends stage stage') (h : Tidy ⟨ends, none, stage⟩) : Tidy ⟨ends, none, stage'⟩ := by
  refine ⟨fun j other hj => ?_, fun j hj => ?_, fun _ => rfl⟩
  · cases ht with
    | drained => exact absurd (mem_buffers _) hj
    | flushed hnone =>
      rename_i k side todo
      by_cases hp : (j, other) = (k, side)
      · cases hp
        exact hnone
      · exact h.buffers j other fun hmem => hj ((List.mem_cons.mp hmem).resolve_left hp)
    | wait | allIdle | zero | work | sure | again | done => exact h.buffers j other id
    | _ => exact absurd trivial hj
  · cases ht with
    | seen hspent =>
      cases hj
      exact (Deque.popFront?_eq_none_iff _).mp hspent
    | _ => cases hj

theorem Moved.tidy (hm : Moved b w b' w') (h : w.Tidy) : w'.Tidy := by
  cases hm with
  | count => exact ⟨h.buffers, h.spent, fun _ => rfl⟩
  | turn ht => exact ht.tidy h
  | recycle hg => exact h.give hg
  | publish hg => exact h.give hg
  | enter => exact ⟨fun k side _ => h.buffers k side List.not_mem_nil, nofun, fun _ => rfl⟩
  | unlink | uncount =>
    exact ⟨fun k side hk => absurd trivial hk, fun j hj => h.spent j hj, fun _ => rfl⟩
  | @fallBack ends stage k rest buffer hs =>
    refine ⟨fun k side hk => absurd trivial hk, fun j hj => ?_, fun _ => rfl⟩
    cases hj
    simp only [Function.update_self]
    rcases hs with ⟨rfl, hspent⟩ | rfl
    · exact (Deque.popFront?_eq_none_iff _).mp hspent
    · exact h.spent k rfl
  | _ => exact ⟨fun k side hk => absurd trivial hk, nofun, fun _ => rfl⟩

-- A counter and its chain move apart as the worker's hands tell.
theorem Moved.surplus (hm : Moved b w b' w') : b'.surplus + w.lag = b.surplus + w'.lag := by
  cases hm with
  | turn ht => cases ht <;> rfl
  | keep | pop | enter | leave => rfl
  | fallBack hs => rcases hs with ⟨rfl, -⟩ | rfl <;> rfl
  | start => exact congrArg (· + _) (Board.surplus_same (Chain.surplus_allocate _))
  | recycle => exact congrArg (· + _) (Board.surplus_same rfl)
  | refill => exact congrArg (· + _) (Board.surplus_same (Ends.surplus_refill _ _ _))
  | count =>
    rw [Board.surplus_add (Chain.surplus_countUp _)]
    simp only [lag, Option.elim]
    abel
  | @publish _ _ k side buffer =>
    have h := Board.surplus_sub (b := b) (Side.surplus_link (b.chains k) side buffer)
    rw [← h]
    simp only [lag, Option.elim]
    abel
  | unlink hunlink =>
    rw [Board.surplus_add (Chain.surplus_unlink? hunlink)]
    simp only [lag, Option.elim, Stage.uncounted]
    abel
  | @uncount _ k =>
    have h := Board.surplus_sub (b := b) (Chain.surplus_countDown (b.chains k))
    rw [← h]
    simp only [lag, Option.elim, Stage.uncounted]
    abel

-- The entries that are on the chains or with this worker, when none is inserted or processed.
theorem conserves_of (hi : b'.inserted = b.inserted) (hp : b'.processed = b.processed)
    (h : b.entries + w.holds = b'.entries + w'.holds) :
    b'.inserted + b.processed + (b.entries + w.holds) =
      b.inserted + b'.processed + (b'.entries + w'.holds) := by
  rw [hi, hp, h]

-- Entries are inserted and processed, and all others stay with someone.
theorem Moved.conserves (hm : Moved b w b' w') (h : w.Tidy) :
    b'.inserted + b.processed + (b.entries + w.holds) =
      b.inserted + b'.processed + (b'.entries + w'.holds) := by
  cases hm with
  | turn ht => cases ht <;> rfl
  | enter | leave => rfl
  | @count _ k =>
    have hentries := Board.entries_same (b := b) (c := (b.chains k).countUp) rfl
    exact conserves_of rfl rfl (congrArg (· + _) hentries.symm)
  | @uncount _ k =>
    have hentries := Board.entries_same (b := b) (c := (b.chains k).countDown) rfl
    exact conserves_of rfl rfl (congrArg (· + _) hentries.symm)
  | @keep _ k _ x _ _ hbuffer =>
    show b.inserted + Pi.single k {x} + b.processed + (b.entries + holds _) =
      b.inserted + b.processed + (b.entries + holds _)
    simp only [holds, held_add (Side.held_extend hbuffer x), Stage.carried]
    abel
  | @start _ k _ x _ hbuffer =>
    have hentries := Board.entries_same (b := b) (Chain.entries_allocate (b.chains k))
    show b.inserted + Pi.single k {x} + b.processed + (b.entries + holds _) =
      b.inserted + b.processed + ((b.setChain k (b.chains k).allocate).entries + holds _)
    simp only [hentries, holds, held_add (Side.held_start hbuffer x), Stage.carried]
    abel
  | @recycle _ _ k _ _ _ hbuffer hempty =>
    refine conserves_of rfl rfl ?_
    have hheld := held_sub (Side.held_clear hbuffer)
    rw [hempty, Multiset.coe_nil, Pi.single_zero, add_zero] at hheld
    simp only [Board.entries_same (b := b) (Chain.entries_recycle (b.chains k)), holds, hheld]
  | @publish _ _ k side buffer _ hbuffer =>
    refine conserves_of rfl rfl ?_
    simp only [Board.entries_add (Side.entries_link (b.chains k) side buffer), holds,
      ← held_sub (Side.held_clear hbuffer)]
    abel
  | @pop _ k _ x _ _ hpop =>
    show b.inserted + b.processed + (b.entries + holds _) =
      b.inserted + (b.processed + Pi.single k {x}) + (b.entries + holds _)
    simp only [holds, Stage.carried, ← held_sub (held_popFront hpop)]
    abel
  | @fallBack ends _ k _ buffer hs htail =>
    refine conserves_of rfl rfl ?_
    have htaken : Side.tail.buffer? (ends k) = some buffer := htail
    have hheld : held (Function.update ends k { ends k with tail := none }) +
        Pi.single k (buffer.toList : Multiset k.Entry) = held ends :=
      held_sub (Side.held_clear htaken)
    rcases hs with ⟨rfl, -⟩ | rfl
    all_goals
      simp only [holds, Stage.carried, ← hheld]
      abel
  | unlink hunlink =>
    refine conserves_of rfl rfl ?_
    simp only [← Board.entries_sub (Chain.entries_unlink? hunlink), holds, Stage.carried]
    abel
  | @refill ends k _ buffer =>
    refine conserves_of rfl rfl ?_
    have hentries := Board.entries_same (b := b)
      (Ends.entries_refill_chain (b.chains k) (ends k) buffer)
    simp only [hentries, holds, Stage.carried,
      held_add (held_refill (h.spent k rfl) (b.chains k) buffer)]
    abel

-- The idle count follows the worker.
theorem Moved.idle (hm : Moved b w b' w')
    (hpos : w.stage.isIdle = true → 0 < b.termination.idle) :
    b'.termination.workers = b.termination.workers ∧
      b'.termination.idle + w.stage.isIdle.toNat =
        b.termination.idle + w'.stage.isIdle.toNat := by
  cases hm with
  | turn ht => cases ht <;> exact ⟨rfl, rfl⟩
  | fallBack hs => rcases hs with ⟨rfl, -⟩ | rfl <;> exact ⟨rfl, rfl⟩
  | leave =>
    have hidle : 0 < b.termination.idle := hpos rfl
    exact ⟨rfl, Nat.sub_add_cancel hidle⟩
  | _ => exact ⟨rfl, rfl⟩

-- A move that ends idle finds the chains as they are, and reads one counter at most.
theorem Moved.settles (hm : Moved b w b' w') (h : w.Tidy) (hidle : w'.stage.isIdle = true) :
    b'.chains = b.chains ∧ ((∀ k, ¬w'.stage.confirms k) ∨ w.stage.isIdle = true ∧
      ∀ k, w'.stage.confirms k → w.stage.confirms k ∨ (b.chains k).counter = 0) := by
  cases hm with
  | count => cases h.owed hidle
  | recycle hg | publish hg =>
    rw [hg.not_idle] at hidle
    cases hidle
  | enter => exact ⟨rfl, Or.inl fun _ => id⟩
  | turn ht =>
    refine ⟨rfl, ?_⟩
    cases ht with
    | wait | zero | work | again => exact Or.inl fun _ => id
    | allIdle => exact Or.inl fun k hk => hk (mem_order k)
    | done => exact Or.inr ⟨rfl, fun k _ => Or.inl List.not_mem_nil⟩
    | @sure k todo hzero =>
      refine Or.inr ⟨rfl, fun j hj => ?_⟩
      by_cases hjk : j = k
      · exact Or.inr (hjk ▸ hzero)
      · exact Or.inl fun hmem => hj ((List.mem_cons.mp hmem).resolve_left hjk)
    | _ => cases hidle
  | _ => cases hidle

end Worker

namespace State

variable {n : Nat} {s s' : State n}

-- What every interleaving keeps.
structure Sound (s : State n) : Prop where
  tidy : ∀ i, (s.workers i).Tidy
  surplus_eq : s.board.surplus = ∑ i, (s.workers i).lag
  conserved : s.board.inserted =
    s.board.processed + (s.board.entries + ∑ i, (s.workers i).holds)
  workers_eq : s.board.termination.workers = n
  idle_eq : s.board.termination.idle = ∑ i, (s.workers i).stage.isIdle.toNat
  -- While all are idle, the last to become idle reads counters that are up to date.
  settled : (∀ i, (s.workers i).stage.isIdle = true) →
    (∀ k, (s.board.chains k).counter = 0) ∨
      ∃ m, ∀ k, (s.workers m).stage.confirms k → (s.board.chains k).counter = 0

-- What is summed over all workers, when one of them changes.
theorem sum_update {M : Type} [AddCommMonoid M] (f : Worker → M) (workers : Fin n → Worker)
    (i : Fin n) (w : Worker) :
    ∑ j, f (Function.update workers i w j) + f (workers i) = ∑ j, f (workers j) + f w := by
  rw [← Finset.add_sum_erase _ _ (Finset.mem_univ i), ← Finset.add_sum_erase _ _ (Finset.mem_univ i)]
  have hothers : ∑ j ∈ Finset.univ.erase i, f (Function.update workers i w j) =
      ∑ j ∈ Finset.univ.erase i, f (workers j) := Finset.sum_congr rfl fun j hj => by
    rw [Function.update_of_ne (Finset.ne_of_mem_erase hj)]
  rw [hothers, Function.update_self]
  abel

theorem sound_start {chains : (k : Line) → Chain k.Entry} (roots : Fin n → List Addition)
    (hchains : ∀ k, (chains k).links.toList = [] ∧ (chains k).counter = 0) :
    Sound ⟨{ chains, termination := { workers := n } }, fun i => { stage := .adding (roots i) }⟩ where
  tidy i := ⟨fun k side hk => absurd trivial hk, nofun, fun _ => rfl⟩
  surplus_eq := by
    have hlag : ∀ i, Worker.lag { stage := .adding (roots i) } = 0 := fun i => sub_self 0
    simp only [hlag, Finset.sum_const_zero]
    funext k
    simp only [Board.surplus, Chain.surplus, hchains k, List.length_nil, Pi.zero_apply]
    rfl
  conserved := by
    have hholds : ∀ i, Worker.holds { stage := .adding (roots i) } = 0 := fun i => add_zero 0
    have hentries : ∀ k, (chains k).entries = [] := fun k => by
      rw [Chain.entries, (hchains k).1, List.flatMap_nil]
    simp only [hholds, Finset.sum_const_zero, add_zero, zero_add]
    funext k
    simp only [Board.entries, hentries k]
    rfl
  workers_eq := rfl
  idle_eq := (Finset.sum_const_zero).symm
  settled _ := Or.inl fun k => (hchains k).2

theorem Sound.step (hs : s.Sound) (h : s.Step s') : s'.Sound := by
  obtain ⟨i, found, hmove⟩ := h
  rename_i b w
  have hm := Worker.moved hmove
  have hpos : (s.workers i).stage.isIdle = true → 0 < s.board.termination.idle := fun hidle => by
    have hle := Finset.single_le_sum (f := fun j => (s.workers j).stage.isIdle.toNat)
      (fun _ _ => Nat.zero_le _) (Finset.mem_univ i)
    rw [← hs.idle_eq, hidle] at hle
    exact hle
  obtain ⟨hcount, hidle⟩ := hm.idle hpos
  exact {
    workers_eq := hcount.trans hs.workers_eq
    tidy := fun j => by
      rcases eq_or_ne j i with rfl | hne
      · simp only [Function.update_self]
        exact hm.tidy (hs.tidy j)
      · simp only [Function.update_of_ne hne]
        exact hs.tidy j
    surplus_eq := by
      refine add_right_cancel (b := (s.workers i).lag) ?_
      rw [sum_update, ← hs.surplus_eq]
      exact hm.surplus
    conserved := by
      have hbalance := hm.conserves (hs.tidy i)
      rw [hs.conserved] at hbalance
      have hsum := sum_update Worker.holds s.workers i w
      refine add_right_cancel (b := s.board.processed + (s.board.entries + (s.workers i).holds)) ?_
      calc b.inserted + (s.board.processed + (s.board.entries + (s.workers i).holds))
          = b.inserted + s.board.processed + (s.board.entries + (s.workers i).holds) := by abel
        _ = b.processed + b.entries + s.board.processed + s.board.entries +
            (∑ j, (s.workers j).holds + w.holds) := by rw [hbalance]; abel
        _ = b.processed + b.entries + s.board.processed + s.board.entries +
            (∑ j, (Function.update s.workers i w j).holds + (s.workers i).holds) := by rw [hsum]
        _ = _ := by abel
    idle_eq := by
      refine Nat.add_right_cancel (m := (s.workers i).stage.isIdle.toNat) ?_
      rw [sum_update (fun w => w.stage.isIdle.toNat), ← hs.idle_eq]
      exact hidle
    settled := fun hall => by
      have hw := hall i
      simp only [Function.update_self] at hw
      obtain ⟨hchains, hfresh | ⟨hwas, hconfirms⟩⟩ := hm.settles (hs.tidy i) hw
      · -- this worker is the last to become idle, and has read nothing yet
        refine Or.inr ⟨i, fun k hk => ?_⟩
        simp only [Function.update_self] at hk
        exact absurd hk (hfresh k)
      · have hbefore : ∀ j, (s.workers j).stage.isIdle = true := fun j => by
          rcases eq_or_ne j i with rfl | hne
          · exact hwas
          · have hj := hall j
            simpa only [Function.update_of_ne hne] using hj
        simp only [hchains]
        rcases hs.settled hbefore with hzero | ⟨m, hlast⟩
        · exact Or.inl hzero
        · refine Or.inr ⟨m, fun k hk => ?_⟩
          rcases eq_or_ne m i with rfl | hne
          · simp only [Function.update_self] at hk
            exact (hconfirms k hk).elim (hlast k) id
          · simp only [Function.update_of_ne hne] at hk
            exact hlast k hk }

theorem Reached.sound (h : Reached s) : s.Sound := by
  induction h with
  | start _ roots hchains => exact sound_start roots hchains
  | step _ hstep ih => exact ih.step hstep

-- An idle worker has nothing left.
theorem Sound.idle (hs : s.Sound) {i : Fin n} (h : (s.workers i).stage.isIdle = true) :
    (∀ k, (s.workers i).ends k = {}) ∧ (s.workers i).holds = 0 ∧ (s.workers i).lag = 0 := by
  have htidy := hs.tidy i
  have howed := htidy.owed h
  obtain ⟨hhold, hcarried, huncounted⟩ := Worker.stage_of_idle h
  have hends : ∀ k, (s.workers i).ends k = {} := fun k =>
    Side.ends_eq fun side => htidy.buffers k side (hhold _)
  refine ⟨hends, ?_, ?_⟩
  · rw [Worker.holds, hcarried, add_zero]
    funext k
    rw [Worker.held, hends]
    rfl
  · rw [Worker.lag, huncounted, howed, Option.elim_none, sub_zero]

-- However the moves of the workers interleave: a worker that has returned has nothing left, and when
-- all have returned, nothing is left anywhere, so all that was inserted was processed, once.
theorem Reached.completes (h : Reached s) :
    (∀ i, (s.workers i).stage = .returned → ∀ k, (s.workers i).ends k = {}) ∧
      ((∀ i, (s.workers i).stage = .returned) → ∀ k,
        (s.board.chains k).links.toList = [] ∧ (s.board.chains k).counter = 0 ∧
        s.board.processed k = s.board.inserted k) := by
  have hs := h.sound
  have hidle : ∀ i, (s.workers i).stage = .returned → (s.workers i).stage.isIdle = true :=
    fun i hi => by rw [hi]; rfl
  refine ⟨fun i hi => (hs.idle (hidle i hi)).1, fun hall k => ?_⟩
  have hnone := fun i => hs.idle (hidle i (hall i))
  have hzero : ∀ k, (s.board.chains k).counter = 0 := by
    rcases hs.settled fun i => hidle i (hall i) with hzero | ⟨m, hm⟩
    · exact hzero
    · refine fun k => hm k ?_
      rw [hall m]
      trivial
  -- no counter lags behind its chain
  have hsurplus : s.board.surplus = 0 := by
    rw [hs.surplus_eq]
    exact Finset.sum_eq_zero fun i _ => (hnone i).2.2
  have hlinks : ∀ k, (s.board.chains k).links.toList = [] := fun k => by
    have hk := congrFun hsurplus k
    simp only [Board.surplus, Chain.surplus, hzero k, Pi.zero_apply] at hk
    exact List.length_eq_zero_iff.mp (by omega)
  refine ⟨hlinks k, hzero k, ?_⟩
  have hconserved := congrFun hs.conserved k
  have hholds : ∑ i, (s.workers i).holds = 0 := Finset.sum_eq_zero fun i _ => (hnone i).2.1
  have hentries : s.board.entries k = 0 := by
    rw [Board.entries, Chain.entries, hlinks k]
    rfl
  rw [hholds, add_zero, Pi.add_apply, hentries, add_zero] at hconserved
  exact hconserved.symm

end State

namespace Pair

-- Of two workers the first has two entries to add, and its buffers have room for one.
def roots (i : Fin 2) : List Addition :=
  if i = 0 then [⟨.values, .head, 7⟩, ⟨.values, .head, 8⟩] else []

def start : State 2 :=
  ⟨{ chains := fun _ => .new "chain" 1, termination := { workers := 2 } },
    fun i => { stage := .adding (roots i) }⟩

-- The second takes the entry that the first gave away, finds one more in it, and becomes idle first.
def moves : List (Fin 2 × List Addition) :=
  List.replicate 4 (0, []) ++ List.replicate 7 (1, []) ++ [(1, [⟨.values, .head, 9⟩])] ++
    List.replicate 20 (1, []) ++ List.replicate 25 (0, []) ++ List.replicate 6 (1, [])

def final : State 2 := (start.perform moves).get (by decide +kernel)

theorem reached : final.Reached :=
  (State.Reached.start _ roots fun _ => ⟨rfl, rfl⟩).perform (Option.some_get _).symm

end Pair

-- Both workers of a pair return, and all three entries were processed.
theorem completes_pair : Pair.final.Reached ∧
    (∀ i, (Pair.final.workers i).stage = .returned) ∧
    Pair.final.board.inserted .values = {7, 8, 9} ∧
    (∀ i k, (Pair.final.workers i).ends k = {}) ∧
    ∀ k, (Pair.final.board.chains k).links.toList = [] ∧
      Pair.final.board.processed k = Pair.final.board.inserted k := by
  have hreturned : ∀ i, (Pair.final.workers i).stage = .returned := 
    Fin.forall_fin_two.mpr ⟨rfl, rfl⟩
  obtain ⟨hheld, hleft⟩ := State.Reached.completes Pair.reached
  exact ⟨Pair.reached, hreturned, by decide +kernel, fun i => hheld i (hreturned i),
    fun k => ⟨(hleft hreturned k).1, (hleft hreturned k).2.2⟩⟩

end Crew

end Reclaim
