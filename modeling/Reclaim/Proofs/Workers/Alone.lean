import Mathlib.Logic.Relation
import Reclaim.Proofs.Workers.Moves

/-!
The moves of a worker with nobody else at the board add up to the calls of a queue that has one worker:
an entry is added or taken, the ends are flushed, and more work is waited for.
-/
namespace Reclaim.Crew

open Queue

namespace Board

variable {b : Board} {k : Line}

@[simp] theorem chains_setChain (c : Chain k.Entry) : (b.setChain k c).chains k = c :=
  Function.update_self ..

@[simp] theorem setChain_setChain (c c' : Chain k.Entry) :
    (b.setChain k c).setChain k c' = b.setChain k c' :=
  congrArg (fun chains => { b with chains }) (Function.update_idem ..)

@[simp] theorem setChain_self : b.setChain k (b.chains k) = b :=
  congrArg (fun chains => { b with chains }) (Function.update_eq_self ..)

theorem allEmpty_iff : b.queues.allEmpty = true ↔ ∀ k, (b.chains k).isEmpty = true := by
  simp only [queues, TraceQueues.allEmpty, Bool.and_eq_true]
  refine ⟨fun h k => ?_, fun h => ⟨⟨h .values, h .locations⟩, h .interior⟩⟩
  cases k
  · exact h.1.1
  · exact h.1.2
  · exact h.2

end Board

theorem Side.enqueue_eq {α : Type} (side : Side) (c : Chain α) (buffer : Deque α) :
    side.enqueue c buffer =
      if buffer.isEmpty then c.recycle else (side.link c buffer).countUp := by
  cases side <;> rfl

theorem Side.add_none {α : Type} {side : Side} {e : Ends α} (h : side.buffer? e = none)
    (c : Chain α) (x : α) :
    side.add e c x = (side.set e (some (.singleton x)), c.allocate) := by
  cases side <;> simp only [buffer?] at h <;> simp only [add, Ends.push, Ends.insert, h, set]

theorem Side.add_some {α : Type} {side : Side} {e : Ends α} {buffer : Deque α}
    (h : side.buffer? e = some buffer) (c : Chain α) (x : α) :
    side.add e c x =
      if buffer.size < c.capacity then (side.set e (some (side.extend buffer x)), c)
      else (side.set e (some (.singleton x)), (side.enqueue c buffer).allocate) := by
  cases side <;> simp only [buffer?] at h <;>
    simp only [add, Ends.push, Ends.insert, h, set, extend, enqueue]

namespace Worker

-- What comes of the moves of one worker, whatever it finds.
def Alone : Board × Worker → Board × Worker → Prop :=
  Relation.ReflTransGen fun p q => ∃ found, p.2.move p.1 found = some q

namespace Alone

variable {b : Board} {ends : (k : Line) → Ends k.Entry} {k : Line}

theorem one {p q : Board × Worker} (found : List Addition) (h : p.2.move p.1 found = some q) :
    Alone p q :=
  .single ⟨found, h⟩

-- A buffer is given away as the call that publishes it does.
theorem give {stage : Stage} {side : Side} {buffer : Deque k.Entry}
    (h : move b ⟨ends, none, stage⟩ [] = some (publish b ⟨ends, none, stage⟩ k side buffer)) :
    Alone (b, ⟨ends, none, stage⟩) (b.setChain k (side.enqueue (b.chains k) buffer),
      ⟨Function.update ends k (side.set (ends k) none), none, stage⟩) := by
  rw [Side.enqueue_eq]
  unfold publish at h
  split at h
  · rename_i hempty
    rw [if_pos hempty]
    exact one [] h
  · rename_i hfilled
    rw [if_neg hfilled]
    have hcount : (b.setChain k (side.link (b.chains k) buffer)).setChain k
        ((b.setChain k (side.link (b.chains k) buffer)).chains k).countUp =
          b.setChain k (side.link (b.chains k) buffer).countUp := by simp
    rw [← hcount]
    exact .tail (one [] h) ⟨[], rfl⟩

-- An entry is added as the call that adds it does.
theorem add (side : Side) (x : k.Entry) (todo : List Addition) :
    Alone (b, ⟨ends, none, .adding (⟨k, side, x⟩ :: todo)⟩)
      ((b.setChain k (side.add (ends k) (b.chains k) x).2).insert k x,
        ⟨Function.update ends k (side.add (ends k) (b.chains k) x).1, none, .adding todo⟩) := by
  cases hbuffer : side.buffer? (ends k) with
  | none =>
    rw [Side.add_none hbuffer]
    exact one [] (by simp only [move, hbuffer, setEnds])
  | some buffer =>
    rw [Side.add_some hbuffer]
    by_cases hroom : buffer.size < (b.chains k).capacity
    · rw [if_pos hroom, Board.setChain_self]
      exact one [] (by simp only [move, hbuffer, hroom, if_true, setEnds])
    · rw [if_neg hroom]
      have hgive := @give b ends k (.adding (⟨k, side, x⟩ :: todo)) side buffer
        (by simp only [move, hbuffer, hroom, if_false])
      refine hgive.tail ⟨[], ?_⟩
      have hgone : side.buffer? (side.set (ends k) none) = none := by cases side <;> rfl
      have hset : ∀ new, side.set (side.set (ends k) none) new = side.set (ends k) new := by
        cases side <;> exact fun _ => rfl
      simp only [move, Function.update_self, hgone, setEnds, hset, Function.update_idem,
        Board.chains_setChain, Board.setChain_setChain]

-- A line without buffers is left for the own tail.
theorem miss (hspent : (ends k).headEntries.popFront? = none)
    (hnone : (b.chains k).dequeue? = none) (rest : List Line) :
    Alone (b, ⟨ends, none, .polling (k :: rest)⟩)
      (b, fallBack ⟨ends, none, .polling (k :: rest)⟩ k rest) := by
  unfold Chain.dequeue? at hnone
  cases hempty : (b.chains k).isEmpty with
  | true => exact one [] (by simp only [move, hspent, hempty, if_true])
  | false =>
    rw [hempty, if_neg Bool.false_ne_true, Option.map_eq_none_iff] at hnone
    have hlook : Alone (b, ⟨ends, none, .polling (k :: rest)⟩) (b, ⟨ends, none, .taking k rest⟩) :=
      one [] (by simp only [move, hspent, hempty, Bool.false_eq_true, if_false])
    exact hlook.tail ⟨[], by simp only [move, hnone, fallBack, setEnds]⟩

-- The buffer that follows a spent head.
theorem next {buffer : Deque k.Entry} {e : Ends k.Entry} {c : Chain k.Entry}
    (hspent : (ends k).headEntries.popFront? = none)
    (h : (ends k).next? (b.chains k) = some (buffer, e, c)) (rest : List Line) :
    Alone (b, ⟨ends, none, .polling (k :: rest)⟩)
      (b.setChain k c, ⟨Function.update ends k e, none, .holding k buffer rest⟩) := by
  unfold Ends.next? at h
  split at h
  · rename_i hdequeue
    cases h
    rw [Function.update_eq_self]
    unfold Chain.dequeue? at hdequeue
    split at hdequeue
    · cases hdequeue
    · rename_i hfilled
      obtain ⟨⟨front, left⟩, hunlink, hlast⟩ := Option.map_eq_some_iff.mp hdequeue
      obtain ⟨rfl, rfl⟩ := Prod.mk.inj hlast
      have hlook : Alone (b, ⟨ends, none, .polling (k :: rest)⟩)
          (b, ⟨ends, none, .taking k rest⟩) :=
        one [] (by simp only [move, hspent, hfilled, Bool.false_eq_true, if_false])
      have htake : Alone (b, ⟨ends, none, .taking k rest⟩)
          (b.setChain k left, ⟨ends, none, .taken k front rest⟩) :=
        one [] (by simp only [move, hunlink])
      exact (hlook.trans htake).tail ⟨[], by
        simp only [move, Board.chains_setChain, Board.setChain_setChain]⟩
  · rename_i hnone
    obtain ⟨own, htail, hlast⟩ := Option.map_eq_some_iff.mp h
    cases hlast
    have hmiss := miss hspent hnone rest
    simp only [fallBack, htail, setEnds] at hmiss
    rwa [Board.setChain_self]

theorem next_none (hspent : (ends k).headEntries.popFront? = none)
    (h : (ends k).next? (b.chains k) = none) (rest : List Line) :
    Alone (b, ⟨ends, none, .polling (k :: rest)⟩) (b, ⟨ends, none, .polling rest⟩) := by
  unfold Ends.next? at h
  split at h
  · cases h
  · rename_i hnone
    have hmiss := miss hspent hnone rest
    simpa only [fallBack, Option.map_eq_none_iff.mp h] using hmiss

-- No buffer that is given away is empty, so none is taken that is.
theorem next_filled {α : Type} {own : Ends α} {shared : Chain α} (hc : shared.Valid)
    (htail : ∀ buffer, own.tail = some buffer → buffer.toList ≠ []) {buffer : Deque α}
    {e : Ends α} {c : Chain α} (h : own.next? shared = some (buffer, e, c)) :
    buffer.toList ≠ [] := by
  unfold Ends.next? at h
  split at h
  · rename_i hdequeue
    cases h
    by_cases hnone : shared.entries = []
    · rw [hc.dequeue?_eq_none hnone] at hdequeue
      cases hdequeue
    · obtain ⟨front, left, hfront, -, hfilled, -⟩ := hc.dequeue?_eq hnone
      rw [hfront] at hdequeue
      cases hdequeue
      exact hfilled
  · obtain ⟨own, hown, hlast⟩ := Option.map_eq_some_iff.mp h
    cases hlast
    exact htail _ hown

-- A worker looks for an entry of a line as the call that takes one does.
theorem pop (hc : (b.chains k).Valid) (htail : ∀ buffer, (ends k).tail = some buffer →
      buffer.toList ≠ []) {answer : Option k.Entry} {e : Ends k.Entry} {c : Chain k.Entry}
    (h : (ends k).pop (b.chains k) = (answer, e, c)) (rest : List Line)
    (found : List Addition) :
    Alone (b, ⟨ends, none, .polling (k :: rest)⟩) (answer.elim
      (b.setChain k c, ⟨Function.update ends k e, none, .polling rest⟩)
      fun x => ((b.setChain k c).process k x, ⟨Function.update ends k e, none, .adding found⟩)) := by
  unfold Ends.pop at h
  cases hhead : (ends k).headEntries.popFront? with
  | some front =>
    simp only [hhead] at h
    cases h
    rw [Board.setChain_self]
    exact one found (by simp only [move, hhead, setEnds, Option.elim])
  | none =>
    simp only [hhead] at h
    cases hnext : (ends k).next? (b.chains k) with
    | none =>
      simp only [hnext] at h
      cases h
      rw [Board.setChain_self, Function.update_eq_self]
      exact next_none hhead hnext rest
    | some front =>
      obtain ⟨buffer, e', c'⟩ := front
      simp only [hnext] at h
      cases hfirst : buffer.popFront? with
      | none =>
        exact absurd ((Deque.popFront?_eq_none_iff _).mp hfirst) (next_filled hc htail hnext)
      | some first =>
        simp only [hfirst] at h
        cases h
        refine (next hhead hnext rest).trans (.tail (.single ⟨[], rfl⟩) ⟨found, ?_⟩)
        simp [move, setEnds, Function.update_self, Ends.headEntries, hfirst,
          Function.update_idem, Option.elim]

theorem flush_side (b : Board) (ends : (k : Line) → Ends k.Entry) (k : Line) (side : Side) (todo : List (Line × Side)) :
    Alone (b, ⟨ends, none, .flushing ((k, side) :: todo)⟩)
      (b.setChain k ((side.buffer? (ends k)).elim (b.chains k) (side.enqueue (b.chains k))),
        ⟨Function.update ends k (side.set (ends k) none), none, .flushing todo⟩) := by
  cases hbuffer : side.buffer? (ends k) with
  | none =>
    have hset : side.set (ends k) none = ends k := by
      cases side <;> simp only [Side.set, ← hbuffer] <;> rfl
    rw [hset, Option.elim_none, Board.setChain_self, Function.update_eq_self]
    exact one [] (by simp only [move, hbuffer])
  | some buffer =>
    have hgive := @give b ends k (.flushing ((k, side) :: todo)) side buffer
      (by simp only [move, hbuffer])
    have hgone : side.buffer? (side.set (ends k) none) = none := by cases side <;> rfl
    exact hgive.tail ⟨[], by simp only [move, Function.update_self, hgone, Option.elim_some]⟩

-- Both buffers of a line are given away as the call that flushes them does.
theorem flush (todo : List (Line × Side)) :
    Alone (b, ⟨ends, none, .flushing ((k, .head) :: (k, .tail) :: todo)⟩)
      (b.setChain k ((ends k).flush (b.chains k)).2,
        ⟨Function.update ends k ((ends k).flush (b.chains k)).1, none, .flushing todo⟩) := by
  have hboth := (flush_side b ends k .head ((k, .tail) :: todo)).trans
    (flush_side _ _ k .tail todo)
  simp only [Board.chains_setChain, Board.setChain_setChain, Function.update_self,
    Function.update_idem] at hboth
  have hchain : ((ends k).flush (b.chains k)).2 =
      (Side.tail.buffer? (ends k)).elim ((Side.head.buffer? (ends k)).elim (b.chains k)
        (Side.head.enqueue (b.chains k))) (Side.tail.enqueue ((Side.head.buffer? (ends k)).elim
          (b.chains k) (Side.head.enqueue (b.chains k)))) := by
    simp only [Ends.flush, Side.buffer?]
    cases (ends k).head <;> cases (ends k).tail <;> rfl
  rw [hchain]
  exact hboth

-- The counters of the lines are read, and all are zero.
theorem look (h : ∀ k, (b.chains k).isEmpty = true) (todo : List Line) :
    Alone (b, ⟨ends, none, .looking todo⟩) (b, ⟨ends, none, .looking []⟩) := by
  induction todo with
  | nil => exact .refl
  | cons k todo ih =>
    exact .head ⟨[], by simp only [move, h k, if_true]⟩ ih

theorem check (h : ∀ k, (b.chains k).isEmpty = true) (todo : List Line) :
    Alone (b, ⟨ends, none, .checking todo⟩) (b, ⟨ends, none, .returned⟩) := by
  induction todo with
  | nil => exact one [] rfl
  | cons k todo ih =>
    exact .head ⟨[], by simp only [move, h k, if_true]⟩ ih

-- Or else the first that is not.
theorem find {todo : List Line} (h : ∃ k ∈ todo, (b.chains k).isEmpty = false) :
    Alone (b, ⟨ends, none, .looking todo⟩) (b, ⟨ends, none, .leaving⟩) := by
  induction todo with
  | nil => simp at h
  | cons k todo ih =>
    cases hk : (b.chains k).isEmpty with
    | false => exact one [] (by simp only [move, hk, Bool.false_eq_true, if_false])
    | true =>
      refine .head ⟨[], by simp only [move, hk, if_true]⟩ (ih ?_)
      obtain ⟨j, hj, hfilled⟩ := h
      refine ⟨j, (List.mem_cons.mp hj).resolve_left ?_, hfilled⟩
      rintro rfl
      rw [hk] at hfilled
      cases hfilled

-- A worker waits for work as the call does that a worker alone can make.
theorem await {resumed : Bool} {termination : Termination}
    (h : b.termination.await b.queues.allEmpty = .ok (resumed, termination)) :
    Alone (b, ⟨ends, none, .flushing []⟩) ({ b with termination },
      ⟨ends, none, bif resumed then .polling Line.drainOrder else .returned⟩) := by
  have henter : Alone (b, ⟨ends, none, .flushing []⟩)
      ({ b with termination := b.termination.enter }, ⟨ends, none, .looking Line.order⟩) :=
    one [] rfl
  refine henter.trans ?_
  unfold Termination.await Termination.look at h
  cases hempty : b.queues.allEmpty with
  | false =>
    simp only [hempty, Bool.not_false, if_true, Except.ok.injEq, Prod.mk.injEq] at h
    obtain ⟨rfl, rfl⟩ := h
    have hwork : ∃ k ∈ Line.order, (b.chains k).isEmpty = false := by
      by_contra! hnone
      have hall : b.queues.allEmpty = true := Board.allEmpty_iff.mpr fun k =>
        Bool.of_not_eq_false (hnone k (by cases k <;> decide))
      rw [hempty] at hall
      cases hall
    exact .tail (find hwork) ⟨[], rfl⟩
  | true =>
    have hall := Board.allEmpty_iff.mp hempty
    simp only [hempty, Bool.not_true, Bool.false_eq_true, if_false] at h
    by_cases hidle : b.termination.enter.idle = b.termination.enter.workers
    · simp only [if_pos hidle, Except.ok.injEq, Prod.mk.injEq] at h
      obtain ⟨rfl, rfl⟩ := h
      have hwaiting : ∀ k, (({ b with termination := b.termination.enter } : Board).chains
        k).isEmpty = true := hall
      exact ((look hwaiting Line.order).tail ⟨[], if_pos hidle⟩).trans (check hwaiting Line.order)
    · simp only [if_neg hidle] at h
      cases h

end Alone

end Worker

end Reclaim.Crew
