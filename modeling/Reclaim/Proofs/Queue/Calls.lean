import Mathlib.Logic.Relation
import Reclaim.Proofs.Queue.Traffic
import Reclaim.Proofs.Workers.Alone

/-!
The moves of a user add up to calls: while nobody else moves, an entry is added or taken, the ends are
flushed, and the chain is drained, as by the call of that name.
-/
namespace Reclaim.Queue

open Crew (Side)

variable {α : Type}

theorem eq_empty_of_toList {q : Deque α} (h : q.toList = []) : q = .empty := by
  obtain ⟨front, back, size, hsize⟩ := q
  obtain ⟨rfl, hback⟩ := List.append_eq_nil_iff.mp h
  obtain rfl := List.reverse_eq_nil_iff.mp hback
  subst hsize
  rfl

namespace Chain

variable {c c' : Chain α} {buffer : Deque α}

theorem drain_of_links_eq_nil (h : c.links.toList = []) : c.drain = ([], c) := by
  have hlinks : c.links = .empty := eq_empty_of_toList h
  have hcounter : c.counter - (0 : Nat) = c.counter := by omega
  rw [drain, entries, h, hlinks]
  show (([] : List α), { c with links := .empty, counter := c.counter - (0 : Nat) }) = ([], c)
  rw [hcounter, ← hlinks]

theorem links_of_dequeue? (h : c.dequeue? = some (buffer, c')) :
    c.links.toList = buffer :: c'.links.toList := by
  unfold dequeue? unlink? at h
  split at h
  · cases h
  · rw [Option.map_map, Option.map_eq_some_iff] at h
    obtain ⟨⟨front, links⟩, hpop, hlast⟩ := h
    cases hlast
    exact Deque.toList_of_popFront? hpop

-- A chain is drained one buffer after the other.
theorem drain_of_dequeue? (h : c.dequeue? = some (buffer, c')) :
    c.drain = (buffer.toList ++ c'.recycle.drain.1, c'.recycle.drain.2) := by
  have hlinks := links_of_dequeue? h
  have hsize : c.links.size = c'.links.size + 1 := by
    rw [← Deque.length_toList, hlinks, List.length_cons, Deque.length_toList]
  unfold dequeue? unlink? at h
  split at h
  · cases h
  · rw [Option.map_map, Option.map_eq_some_iff] at h
    obtain ⟨⟨front, links⟩, -, hlast⟩ := h
    cases hlast
    have hcounter : c.counter - (links.size + 1 : Nat) = c.counter - 1 - links.size := by omega
    have hpooled : c.pooled + (links.size + 1) = c.pooled + 1 + links.size := by omega
    simp only [countDown] at hlinks hsize ⊢
    simp only [drain, entries, recycle, hlinks, hsize, List.flatMap_cons, hcounter, hpooled]

end Chain

namespace User

-- What comes of the moves of one user, whatever it calls for.
def Alone : Depot α × User α → Depot α × User α → Prop :=
  Relation.ReflTransGen fun p q => ∃ task, p.2.move p.1 task = some q

-- A user comes to a stage with these ends, and leaves this chain behind. So many entries were added and
-- removed on the way.
def Leaves (p : Depot α × User α) (stage : Stage α) (e : Ends α) (c : Chain α)
    (added removed : Multiset α) : Prop :=
  ∃ d u, Alone p (d, u) ∧ u.stage = stage ∧ u.owes = false ∧ u.ends = e ∧ d.chain = c ∧
    d.added = p.1.added + added ∧ d.removed = p.1.removed + removed

section Ends

variable (u : User α) (b : Option (Numbered α)) (side : Side)

theorem ends_set : (u.set b side).ends = side.set u.ends (b.map (·.buffer)) := by cases side <;> rfl

theorem buffer?_ends : side.buffer? u.ends = (u.buffer? side).map (·.buffer) := by cases side <;> rfl

theorem owes_set : (u.set b side).owes = u.owes := by cases side <;> rfl

theorem stage_set : (u.set b side).stage = u.stage := by cases side <;> rfl

end Ends

namespace Leaves

variable {d d' : Depot α} {u u' : User α} {side : Side} {stage : Stage α} {e : Queue.Ends α}

theorem one {c : Chain α} {added removed : Multiset α} (h : u.move d .pop = some (d', u'))
    (hstage : u'.stage = stage) (howes : u'.owes = false) (hends : u'.ends = e) (hchain : d'.chain = c)
    (hadded : d'.added = d.added + added) (hremoved : d'.removed = d.removed + removed) :
    Leaves (d, u) stage e c added removed :=
  ⟨d', u', .single ⟨.pop, h⟩, hstage, howes, hends, hchain, hadded, hremoved⟩

-- A move that adds and removes nothing.
theorem turn {c : Chain α} (h : u.move d .pop = some (d', u')) (hstage : u'.stage = stage)
    (howes : u'.owes = false) (hends : u'.ends = e) (hchain : d'.chain = c)
    (hadded : d'.added = d.added) (hremoved : d'.removed = d.removed) :
    Leaves (d, u) stage e c 0 0 :=
  one h hstage howes hends hchain (hadded.trans (add_zero _).symm) (hremoved.trans (add_zero _).symm)

section Trans

variable {p : Depot α × User α} {stage' : Stage α} {e' : Queue.Ends α} {c c' : Chain α}
  {added removed added' removed' : Multiset α}

theorem trans (h : Leaves p stage e c added removed)
    (hnext : ∀ (d : Depot α) (u : User α), u.stage = stage → u.owes = false → u.ends = e →
      d.chain = c → Leaves (d, u) stage' e' c' added' removed') :
    Leaves p stage' e' c' (added + added') (removed + removed') := by
  obtain ⟨d, u, hmoves, hstage, howes, hends, hchain, hadded, hremoved⟩ := h
  obtain ⟨d', u', hmoves', hstage', howes', hends', hchain', hadded', hremoved'⟩ :=
    hnext d u hstage howes hends hchain
  refine ⟨d', u', hmoves.trans hmoves', hstage', howes', hends', hchain', ?_, ?_⟩
  · rw [hadded', hadded, add_assoc]
  · rw [hremoved', hremoved, add_assoc]

theorem andThen (h : Leaves p stage e c 0 0)
    (hnext : ∀ (d : Depot α) (u : User α), u.stage = stage → u.owes = false → u.ends = e →
      d.chain = c → Leaves (d, u) stage' e' c' added removed) :
    Leaves p stage' e' c' added removed := by
  rw [← zero_add added, ← zero_add removed]
  exact h.trans hnext

end Trans

-- A buffer is given away as the call that publishes it does.
theorem give {b : Numbered α} (howes : u.owes = false)
    (h : u.move d .pop = some (publish d u side b)) :
    Leaves (d, u) u.stage (side.set u.ends none) (side.enqueue d.chain b.buffer) 0 0 := by
  rw [Side.enqueue_eq]
  have howed := (owes_set u none side).trans howes
  unfold publish at h
  split at h
  · rename_i hempty
    rw [if_pos hempty]
    exact turn h (stage_set ..) howed (ends_set ..) rfl rfl rfl
  · rename_i hfilled
    rw [if_neg hfilled]
    exact ⟨{ d.link side b with chain := (d.link side b).chain.countUp },
      { u.set none side with owes := false }, (Relation.ReflTransGen.single ⟨.pop, h⟩).tail
      ⟨.pop, rfl⟩, stage_set .., rfl, ends_set u none side, rfl, (add_zero _).symm, (add_zero _).symm⟩

-- An entry goes into a buffer that is made or used again.
theorem start {x : α} (howes : u.owes = false) (hstage : u.stage = .adding side x)
    (hnone : u.buffer? side = none) :
    Leaves (d, u) .rest (side.set u.ends (some (.singleton x))) d.chain.allocate {x} 0 := by
  unfold Chain.allocate
  by_cases hpooled : d.chain.pooled = 0
  · rw [if_pos hpooled]
    have hfirst : u.move d .pop = some (d, { u with stage := .making side x }) := by
      simp only [move, howes, hstage, hnone, hpooled, if_true, Bool.false_eq_true, if_false]
    refine (turn (e := u.ends) hfirst rfl howes rfl rfl rfl rfl).andThen
      fun d' u' hstage howes hends hchain => ?_
    rw [← hchain, ← hends]
    have hmove : u'.move d' .pop = some (d'.make.add x,
        { u'.set (some ⟨d'.chain.created, .singleton x⟩) side with stage := .rest }) := by
      simp only [move, howes, hstage, Bool.false_eq_true, if_false]
    exact one hmove rfl ((owes_set ..).trans howes) (ends_set u' _ side) rfl rfl
      (add_zero _).symm
  · rw [if_neg hpooled]
    have hmove : u.move d .pop = some (d.reuse.add x,
        { u.set (some ⟨d.pool.headD 0, .singleton x⟩) side with stage := .rest }) := by
      simp only [move, howes, hstage, hnone, hpooled, Bool.false_eq_true, if_false]
    exact one hmove rfl ((owes_set ..).trans howes) (ends_set u _ side) rfl rfl
      (add_zero _).symm

-- An entry is added as the call that adds it does.
theorem add {x : α} (howes : u.owes = false) (hstage : u.stage = .adding side x) :
    Leaves (d, u) .rest (side.add u.ends d.chain x).1 (side.add u.ends d.chain x).2 {x} 0 := by
  have hbuffer := buffer?_ends u side
  cases hb : u.buffer? side with
  | none =>
    rw [hb] at hbuffer
    rw [Side.add_none hbuffer]
    exact start howes hstage hb
  | some b =>
    rw [hb] at hbuffer
    rw [Side.add_some hbuffer]
    by_cases hroom : b.buffer.size < d.chain.capacity
    · rw [if_pos hroom]
      have hmove : u.move d .pop = some (d.add x,
          { u.set (some ⟨b.number, side.extend b.buffer x⟩) side with stage := .rest }) := by
        simp only [move, howes, hstage, hb, hroom, if_true, Bool.false_eq_true, if_false]
      exact one hmove rfl ((owes_set ..).trans howes) (ends_set u _ side) rfl rfl
        (add_zero _).symm
    · rw [if_neg hroom]
      have hgive : u.move d .pop = some (publish d u side b) := by
        simp only [move, howes, hstage, hb, hroom, Bool.false_eq_true, if_false]
      refine (give howes hgive).andThen fun d' u' hstage' howes hends hchain => ?_
      have hgone : u'.buffer? side = none := by
        rw [← Option.map_eq_none_iff, ← buffer?_ends, hends]
        cases side <;> rfl
      have hset : side.set u'.ends (some (.singleton x)) = side.set u.ends (some (.singleton x)) := by
        rw [hends]
        cases side <;> rfl
      rw [← hset, ← hchain]
      exact start howes (hstage'.trans hstage) hgone

-- A buffer of the ends is published, if it is there.
theorem flush_side {todo : List Side} {last : Bool} (howes : u.owes = false)
    (hstage : u.stage = .flushing (side :: todo) last) :
    Leaves (d, u) (.flushing todo last) (side.set u.ends none)
      ((side.buffer? u.ends).elim d.chain (side.enqueue d.chain)) 0 0 := by
  have hskip : ∀ {d : Depot α} {u : User α}, u.owes = false → u.stage = .flushing (side :: todo) last →
      side.buffer? u.ends = none → Leaves (d, u) (.flushing todo last) u.ends d.chain 0 0 :=
    fun {d u} howes hstage hnone => by
      rw [buffer?_ends, Option.map_eq_none_iff] at hnone
      have hmove : u.move d .pop = some (d, { u with stage := .flushing todo last }) := by
        simp only [move, howes, hstage, hnone, Bool.false_eq_true, if_false]
      exact turn hmove rfl howes rfl rfl rfl rfl
  cases hb : u.buffer? side with
  | none =>
    have hnone : side.buffer? u.ends = none := by rw [buffer?_ends, hb]; rfl
    have hset : side.set u.ends none = u.ends := by
      cases side <;> simp only [Side.set, ← hnone] <;> rfl
    rw [hnone, hset]
    exact hskip howes hstage hnone
  | some b =>
    have hgive : u.move d .pop = some (publish d u side b) := by
      simp only [move, howes, hstage, hb, Bool.false_eq_true, if_false]
    rw [buffer?_ends, hb]
    refine (give howes hgive).andThen fun d' u' hstage' howes hends hchain => ?_
    have hgone : side.buffer? u'.ends = none := by rw [hends]; cases side <;> rfl
    have hskipped := hskip (d := d') howes (hstage'.trans hstage) hgone
    rwa [hends, hchain] at hskipped

-- The ends are flushed as the call does that flushes them, be it the last call or not.
theorem flush {last : Bool} (howes : u.owes = false)
    (hstage : u.stage = .flushing [.head, .tail] last) :
    Leaves (d, u) (bif last then .gone else .rest) (u.ends.flush d.chain).1
      (u.ends.flush d.chain).2 0 0 := by
  have hchain : (u.ends.flush d.chain).2 = (Side.tail.buffer? u.ends).elim
      ((Side.head.buffer? u.ends).elim d.chain (Side.head.enqueue d.chain))
      (Side.tail.enqueue ((Side.head.buffer? u.ends).elim d.chain (Side.head.enqueue d.chain))) := by
    simp only [Ends.flush, Side.buffer?]
    cases u.ends.head <;> cases u.ends.tail <;> rfl
  rw [hchain]
  refine (flush_side howes hstage).andThen fun d₁ u₁ hstage₁ howes₁ hends₁ hchain₁ => ?_
  rw [← hchain₁, show Side.tail.buffer? u.ends = Side.tail.buffer? u₁.ends by rw [hends₁]; rfl]
  refine (flush_side howes₁ hstage₁).andThen fun d₂ u₂ hstage₂ howes₂ hends₂ hchain₂ => ?_
  rw [← hchain₂]
  have hmove : u₂.move d₂ .pop = some (d₂, { u₂ with stage := bif last then .gone else .rest }) := by
    simp only [move, howes₂, hstage₂, Bool.false_eq_true, if_false]
  exact turn hmove rfl howes₂ (hends₂.trans (by rw [hends₁]; rfl)) rfl rfl rfl

-- A user that finds no buffer on the chain.
theorem miss {aim : Aim} (howes : u.owes = false) (hstage : u.stage = .looking aim)
    (hnone : d.chain.dequeue? = none) :
    Leaves (d, u) (u.miss aim).stage (u.miss aim).ends d.chain 0 0 := by
  have howed : (u.miss aim).owes = false := by
    cases aim <;> cases htail : u.tail <;> simp only [User.miss, htail, howes]
  unfold Chain.dequeue? at hnone
  cases hempty : d.chain.isEmpty with
  | true =>
    exact turn (by simp only [move, howes, hstage, hempty, if_true, Bool.false_eq_true, if_false]) rfl
      howed rfl rfl rfl rfl
  | false =>
    rw [hempty, if_neg Bool.false_ne_true, Option.map_eq_none_iff] at hnone
    have hunlink : d.unlink? = none := Option.map_eq_none_iff.mpr hnone
    have hlook : u.move d .pop = some (d, { u with stage := .taking aim }) := by
      simp only [move, howes, hstage, hempty, Bool.false_eq_true, if_false]
    have htake : move d { u with stage := .taking aim } .pop = some (d, u.miss aim) := by
      simp only [move, howes, hunlink, Bool.false_eq_true, if_false]
      cases aim <;> cases htail : u.tail <;> simp only [User.miss, htail, howes]
    exact ⟨d, _, (Relation.ReflTransGen.single ⟨.pop, hlook⟩).tail ⟨.pop, htake⟩, rfl, howed, rfl, rfl,
      (add_zero _).symm, (add_zero _).symm⟩

-- The front buffer is taken off the chain.
theorem take {aim : Aim} {buffer : Deque α} {c : Chain α} (howes : u.owes = false)
    (hstage : u.stage = .looking aim) (h : d.chain.dequeue? = some (buffer, c)) :
    ∃ number, Leaves (d, u) (.use ⟨number, buffer⟩ aim) u.ends c 0 0 := by
  unfold Chain.dequeue? at h
  split at h
  · cases h
  · rename_i hfilled
    obtain ⟨⟨front, left⟩, hchain, hlast⟩ := Option.map_eq_some_iff.mp h
    obtain ⟨rfl, rfl⟩ := Prod.mk.inj hlast
    have hunlink : d.unlink? = some (⟨d.linked.headD 0, front⟩,
        { d with chain := left, linked := d.linked.tail }) := by
      rw [Depot.unlink?, hchain]
      rfl
    have hlook : u.move d .pop = some (d, { u with stage := .taking aim }) := by
      simp only [move, howes, hstage, hfilled, Bool.false_eq_true, if_false]
    have htake : move d { u with stage := .taking aim } .pop = some
        ({ d with chain := left, linked := d.linked.tail },
          { u with stage := .taken aim ⟨d.linked.headD 0, front⟩ }) := by
      simp only [move, howes, hunlink, Bool.false_eq_true, if_false]
    have hcount : move { d with chain := left, linked := d.linked.tail }
        { u with stage := .taken aim ⟨d.linked.headD 0, front⟩ } .pop = some
          ({ d with chain := left.countDown, linked := d.linked.tail },
            { u with stage := .use ⟨d.linked.headD 0, front⟩ aim }) := by
      simp only [move, howes, Bool.false_eq_true, if_false]
    exact ⟨d.linked.headD 0, { d with chain := left.countDown, linked := d.linked.tail },
      { u with stage := .use ⟨d.linked.headD 0, front⟩ aim },
      ((Relation.ReflTransGen.single ⟨.pop, hlook⟩).tail ⟨.pop, htake⟩).tail ⟨.pop, hcount⟩, rfl, howes,
      rfl, rfl, (add_zero _).symm, (add_zero _).symm⟩

-- A popper finds the buffer that follows a spent head.
theorem next {buffer : Deque α} {c : Chain α} (howes : u.owes = false)
    (hstage : u.stage = .looking .pop) (h : u.ends.next? d.chain = some (buffer, e, c)) :
    ∃ number, Leaves (d, u) (.holding ⟨number, buffer⟩) e c 0 0 := by
  unfold Ends.next? at h
  split at h
  · rename_i htake
    cases h
    exact take howes hstage htake
  · rename_i hnone
    have hmiss := miss howes hstage hnone
    cases htail : u.tail with
    | none => simp only [ends, htail, Option.map_none, reduceCtorEq] at h
    | some b =>
      simp only [ends, htail, Option.map_some, Option.some.injEq, Prod.mk.injEq] at h
      obtain ⟨rfl, rfl, rfl⟩ := h
      simp only [User.miss, htail] at hmiss
      exact ⟨b.number, hmiss⟩

theorem next_none (howes : u.owes = false) (hstage : u.stage = .looking .pop)
    (h : u.ends.next? d.chain = none) : Leaves (d, u) .rest u.ends d.chain 0 0 := by
  unfold Ends.next? at h
  split at h
  · cases h
  · rename_i hnone
    have hmiss := miss howes hstage hnone
    cases htail : u.tail with
    | none =>
      simp only [User.miss, htail] at hmiss
      simpa only [ends, htail] using hmiss
    | some b => simp only [ends, htail, Option.map_some, reduceCtorEq] at h

-- A popper makes a buffer its head, and takes the first entry of it.
theorem refill {b : Numbered α} {x : α} {rest : Deque α} (howes : u.owes = false)
    (hstage : u.stage = .holding b) (hfirst : b.buffer.popFront? = some (x, rest)) :
    Leaves (d, u) .rest (u.ends.refill d.chain rest).1 (u.ends.refill d.chain rest).2 0 {x} := by
  have hhold : u.move d .pop = some (u.head.elim d fun spent => d.recycle spent.number,
      { u with head := some b, stage := .popping }) := by
    simp only [move, howes, hstage, Bool.false_eq_true, if_false]
  have hpop : ∀ d : Depot α, move d { u with head := some b, stage := .popping } .pop =
      some (d.remove [x], { u with head := some ⟨b.number, rest⟩, stage := .rest }) := fun d => by
    simp only [move, howes, hfirst, Bool.false_eq_true, if_false]
  refine ⟨_, { u with head := some ⟨b.number, rest⟩, stage := .rest },
    (Relation.ReflTransGen.single ⟨.pop, hhold⟩).tail ⟨.pop, hpop _⟩, rfl, howes, rfl, ?_, ?_, ?_⟩ <;>
    cases hhead : u.head <;> simp [Ends.refill, ends, hhead, Depot.remove, Depot.recycle]

-- An entry is taken as the call that takes one does.
theorem pop (hc : d.chain.Valid) (htail : ∀ buffer, u.ends.tail = some buffer → buffer.toList ≠ [])
    (howes : u.owes = false) (hstage : u.stage = .popping) {answer : Option α} {c : Chain α}
    (h : u.ends.pop d.chain = (answer, e, c)) :
    Leaves (d, u) .rest e c 0 (answer.toList : Multiset α) := by
  unfold Ends.pop at h
  cases hfront : u.ends.headEntries.popFront? with
  | some front =>
    obtain ⟨x, rest⟩ := front
    simp only [hfront] at h
    cases h
    cases hhead : u.head with
    | none => simp [Ends.headEntries, ends, hhead, Deque.popFront?, Deque.empty] at hfront
    | some b =>
      have hpop : b.buffer.popFront? = some (x, rest) := by
        simpa only [Ends.headEntries, ends, hhead, Option.map_some, Option.getD_some] using hfront
      have hmove : u.move d .pop = some (d.remove [x],
          { u with head := some ⟨b.number, rest⟩, stage := .rest }) := by
        simp only [move, howes, hstage, hhead, hpop, Bool.false_eq_true, if_false]
      exact one hmove rfl howes rfl rfl (add_zero _).symm rfl
  | none =>
    have hlook : u.move d .pop = some (d, { u with stage := .looking .pop }) := by
      cases hhead : u.head with
      | none => simp only [move, howes, hstage, hhead, Bool.false_eq_true, if_false]
      | some b =>
        have hspent : b.buffer.popFront? = none := by
          simpa only [Ends.headEntries, ends, hhead, Option.map_some, Option.getD_some] using hfront
        simp only [move, howes, hstage, hhead, hspent, Bool.false_eq_true, if_false]
    simp only [hfront] at h
    refine (turn (e := u.ends) hlook rfl howes rfl rfl rfl rfl).andThen
      fun d₁ u₁ hstage₁ howes₁ hends₁ hchain₁ => ?_
    rw [← hends₁, ← hchain₁] at h
    cases hnext : u₁.ends.next? d₁.chain with
    | none =>
      simp only [hnext] at h
      cases h
      exact next_none howes₁ hstage₁ hnext
    | some next =>
      obtain ⟨buffer, e', c'⟩ := next
      simp only [hnext] at h
      obtain ⟨number, hhold⟩ := Leaves.next howes₁ hstage₁ hnext
      refine hhold.andThen fun d₂ u₂ hstage₂ howes₂ hends₂ hchain₂ => ?_
      cases hfirst : buffer.popFront? with
      | none =>
        rw [hends₁, hchain₁] at hnext
        exact absurd ((Deque.popFront?_eq_none_iff _).mp hfirst)
          (Crew.Worker.Alone.next_filled hc htail hnext)
      | some first =>
        obtain ⟨x, rest⟩ := first
        simp only [hfirst] at h
        cases h
        rw [← hends₂, ← hchain₂]
        exact refill howes₂ hstage₂ hfirst

-- The chain is drained as the call does that drains it.
theorem drain (hc : d.chain.Valid) (howes : u.owes = false) (hstage : u.stage = .looking .drain) :
    Leaves (d, u) .rest u.ends d.chain.drain.2 0 (d.chain.drain.1 : Multiset α) := by
  induction hlinks : d.chain.links.toList generalizing d u with
  | nil =>
    rw [Chain.drain_of_links_eq_nil hlinks]
    exact miss howes hstage (hc.dequeue?_eq_none (by rw [Chain.entries, hlinks]; rfl))
  | cons front links ih =>
    have hentries : d.chain.entries ≠ [] := by
      rw [Chain.entries, hlinks, List.flatMap_cons]
      exact fun hnil => hc.filled front (hlinks ▸ List.mem_cons_self) (List.append_eq_nil_iff.mp hnil).1
    obtain ⟨buffer, c, htake, hvalid, -, -⟩ := hc.dequeue?_eq hentries
    have hleft := Chain.links_of_dequeue? htake
    rw [hlinks, List.cons.injEq] at hleft
    obtain ⟨number, hspill⟩ := take howes hstage htake
    rw [Chain.drain_of_dequeue? htake, ← Multiset.coe_add, ← zero_add (0 : Multiset α)]
    refine hspill.andThen fun d₁ u₁ hstage₁ howes₁ hends₁ hchain₁ => ?_
    have hmove : u₁.move d₁ .pop = some ((d₁.recycle number).remove buffer.toList,
        { u₁ with stage := .looking .drain }) := by
      simp only [move, howes₁, hstage₁, Stage.use, Bool.false_eq_true, if_false]
    have hspilled : Leaves (d₁, u₁) (.looking .drain) u.ends (d₁.recycle number).chain 0
        (buffer.toList : Multiset α) :=
      one hmove rfl howes₁ hends₁ rfl (add_zero _).symm rfl
    refine hspilled.trans fun d₂ u₂ hstage₂ howes₂ hends₂ hchain₂ => ?_
    have hchain : d₂.chain = c.recycle := by
      rw [hchain₂, ← hchain₁]
      rfl
    have hrest := ih (d := d₂) (u := u₂) (by rw [hchain]; exact hvalid.recycle) howes₂ hstage₂
      (by rw [hchain]; exact hleft.2.symm)
    rwa [hchain, hends₂] at hrest

end Leaves

end User

-- The moves of one user among others.
theorem Traffic.Reached.alone {d d' : Depot α} {u u' : User α} {users : List (User α)} {i : Nat}
    (h : Reached ⟨d, users⟩) (hu : users[i]? = some u) (hmoves : User.Alone (d, u) (d', u')) :
    Reached ⟨d', users.set i u'⟩ := by
  have hreached : ∀ q, User.Alone (d, u) q → Reached ⟨q.1, users.set i q.2⟩ := fun q hq => by
    induction hq with
    | refl =>
      obtain ⟨hi, rfl⟩ := List.getElem?_eq_some_iff.mp hu
      rwa [List.set_getElem_self]
    | @tail p q _ hmove ih =>
      obtain ⟨task, hmove⟩ := hmove
      have hmid : (users.set i p.2)[i]? = some p.2 := by
        obtain ⟨hi, -⟩ := List.getElem?_eq_some_iff.mp hu
        rw [List.getElem?_set_self hi]
      have hstep := ih.step (.move task hmid hmove)
      rwa [List.set_set] at hstep
  exact hreached _ hmoves

end Reclaim.Queue
