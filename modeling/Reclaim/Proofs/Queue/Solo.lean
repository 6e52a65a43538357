import Mathlib.Data.List.Induction
import Reclaim.Proofs.Queue

/-!
A queue with one worker, whatever calls were made of it: it is a list that entries join at both ends and
leave at the front, kept in buffers of which none on the chain is empty or overfull.
-/
namespace Reclaim.Queue

variable {α : Type}

-- The calls that a worker makes.
inductive Call (α : Type) where
  | insert (x : α)
  | push (x : α)
  | pop
  | flush
deriving DecidableEq, Repr

-- What a call answers, and what it leaves of a list that stands for the queue.
def Call.onList : Call α → List α → Option α × List α
  | .insert x, xs => (none, xs ++ [x])
  | .push x, xs => (none, x :: xs)
  | .pop, xs => (xs.head?, xs.tail)
  | .flush, xs => (none, xs)

theorem Deque.size_of_popFront? {d e : Deque α} {x : α} (h : d.popFront? = some (x, e)) :
    d.size = e.size + 1 := by
  rw [← d.length_toList, Deque.toList_of_popFront? h, List.length_cons, e.length_toList]

namespace Ends

-- No buffer of a queue holds more than `n` entries.
structure Bounded (e : Ends α) (c : Chain α) (n : Nat) : Prop where
  head : ∀ buffer, e.head = some buffer → buffer.size ≤ n
  tail : ∀ buffer, e.tail = some buffer → buffer.size ≤ n
  links : ∀ buffer ∈ c.links.toList, buffer.size ≤ n

variable {e : Ends α} {c : Chain α} {n : Nat}

theorem links_allocate (c : Chain α) : c.allocate.links = c.links := by
  unfold Chain.allocate
  split <;> rfl

theorem mem_enqueueBack {buffer b : Deque α} (hb : b ∈ (c.enqueueBack buffer).links.toList) :
    b ∈ c.links.toList ∨ b = buffer := by
  unfold Chain.enqueueBack at hb
  split at hb
  · exact Or.inl hb
  · simpa only [Chain.countUp, Chain.linkBack, Deque.toList_pushBack, List.mem_append,
      List.mem_singleton] using hb

theorem mem_enqueueFront {buffer b : Deque α} (hb : b ∈ (c.enqueueFront buffer).links.toList) :
    b ∈ c.links.toList ∨ b = buffer := by
  unfold Chain.enqueueFront at hb
  split at hb
  · exact Or.inl hb
  · simpa only [Chain.countUp, Chain.linkFront, Deque.toList_pushFront, List.mem_cons,
      or_comm] using hb

namespace Bounded

variable (h : e.Bounded c n)
include h

theorem enqueueBack {buffer : Deque α} (hb : buffer.size ≤ n) :
    e.Bounded (c.enqueueBack buffer) n := by
  refine ⟨h.head, h.tail, fun b hmem => ?_⟩
  rcases mem_enqueueBack hmem with hmem | rfl
  · exact h.links b hmem
  · exact hb

theorem enqueueFront {buffer : Deque α} (hb : buffer.size ≤ n) :
    e.Bounded (c.enqueueFront buffer) n := by
  refine ⟨h.head, h.tail, fun b hmem => ?_⟩
  rcases mem_enqueueFront hmem with hmem | rfl
  · exact h.links b hmem
  · exact hb

theorem allocate : e.Bounded c.allocate n :=
  ⟨h.head, h.tail, by rw [links_allocate]; exact h.links⟩

theorem setHead {buffer : Deque α} (hb : buffer.size ≤ n) :
    ({ e with head := some buffer } : Ends α).Bounded c n :=
  ⟨fun _ hsome => Option.some.inj hsome ▸ hb, h.tail, h.links⟩

theorem setTail {buffer : Deque α} (hb : buffer.size ≤ n) :
    ({ e with tail := some buffer } : Ends α).Bounded c n :=
  ⟨h.head, fun _ hsome => Option.some.inj hsome ▸ hb, h.links⟩

theorem insert (hn : c.capacity = n) (hpos : 1 ≤ n) (x : α) :
    (e.insert c x).1.Bounded (e.insert c x).2 n := by
  unfold Ends.insert
  cases htail : e.tail with
  | none => exact h.allocate.setTail hpos
  | some tail =>
    simp only
    split
    · rename_i hroom
      exact h.setTail (by rw [← hn]; exact hroom)
    · exact ((h.enqueueBack (h.tail tail htail)).allocate).setTail hpos

theorem push (hn : c.capacity = n) (hpos : 1 ≤ n) (x : α) :
    (e.push c x).1.Bounded (e.push c x).2 n := by
  unfold Ends.push
  cases hhead : e.head with
  | none => exact h.allocate.setHead hpos
  | some head =>
    simp only
    split
    · rename_i hroom
      exact h.setHead (by rw [← hn]; exact hroom)
    · exact ((h.enqueueFront (h.head head hhead)).allocate).setHead hpos

theorem refill {buffer : Deque α} (hb : buffer.size ≤ n) :
    (e.refill c buffer).1.Bounded (e.refill c buffer).2 n := by
  have hset := h.setHead hb
  refine ⟨hset.head, hset.tail, ?_⟩
  unfold Ends.refill
  dsimp only
  split <;> exact h.links

-- The next buffer was on the chain or the tail.
theorem next? {buffer : Deque α} {e' : Ends α} {c' : Chain α}
    (hnext : e.next? c = some (buffer, e', c')) : e'.Bounded c' n ∧ buffer.size ≤ n := by
  unfold Ends.next? at hnext
  split at hnext
  · rename_i hdequeue
    cases hnext
    unfold Chain.dequeue? at hdequeue
    split at hdequeue
    · cases hdequeue
    · obtain ⟨⟨front, left⟩, hunlink, hlast⟩ := Option.map_eq_some_iff.mp hdequeue
      obtain ⟨⟨d, links⟩, hpop, hcut⟩ := Option.map_eq_some_iff.mp hunlink
      cases hcut
      cases hlast
      have hlist := Deque.toList_of_popFront? hpop
      exact ⟨⟨h.head, h.tail, fun b hb => h.links b (hlist ▸ List.mem_cons_of_mem _ hb)⟩,
        h.links _ (hlist ▸ List.mem_cons_self)⟩
  · obtain ⟨own, htail, hlast⟩ := Option.map_eq_some_iff.mp hnext
    cases hlast
    exact ⟨⟨h.head, nofun, h.links⟩, h.tail _ htail⟩

theorem pop : (e.pop c).2.1.Bounded (e.pop c).2.2 n := by
  unfold Ends.pop
  split
  · rename_i x rest hpop
    refine h.setHead ?_
    have hsize := Deque.size_of_popFront? hpop
    cases hhead : e.head with
    | none =>
      simp only [headEntries, hhead, Option.getD_none] at hpop
      cases hpop
    | some head =>
      have hle := h.head head hhead
      simp only [headEntries, hhead, Option.getD_some] at hsize
      omega
  · split
    · exact h
    · rename_i hnext
      obtain ⟨hrest, hbuffer⟩ := h.next? hnext
      split
      · exact hrest.refill hbuffer
      · rename_i hpop
        have hsize := Deque.size_of_popFront? hpop
        exact hrest.refill (by omega)

theorem flush : (e.flush c).1.Bounded (e.flush c).2 n := by
  unfold Ends.flush
  cases hhead : e.head <;> cases htail : e.tail
  · exact ⟨nofun, nofun, h.links⟩
  · exact ⟨nofun, nofun, (h.enqueueBack (h.tail _ htail)).links⟩
  · exact ⟨nofun, nofun, (h.enqueueFront (h.head _ hhead)).links⟩
  · exact ⟨nofun, nofun, ((h.enqueueFront (h.head _ hhead)).enqueueBack (h.tail _ htail)).links⟩

end Bounded

end Ends

namespace Solo

-- What a call answers, and the queue that it leaves.
def perform (q : Solo α) : Call α → Option α × Solo α
  | .insert x => (none, q.insert x)
  | .push x => (none, q.push x)
  | .pop => q.pop
  | .flush => (none, q.flush)

-- The queue that calls leave, one after the other.
def after (q : Solo α) (calls : List (Call α)) : Solo α :=
  calls.foldl (fun q call => (q.perform call).2) q

-- What every call keeps.
structure Sound (q : Solo α) (capacity : Nat) : Prop where
  valid : q.Valid
  capacity_eq : q.chain.capacity = capacity
  bounded : q.ends.Bounded q.chain capacity

variable {q : Solo α} {capacity : Nat}

theorem sound_new (name : String) (hcap : 1 ≤ capacity) :
    (new name capacity : Solo α).Sound capacity where
  valid := Valid.new name capacity
  capacity_eq := Nat.max_eq_left hcap
  bounded := ⟨nofun, nofun, nofun⟩

-- A call does to the contents what it would do to a list.
theorem Sound.perform (hq : q.Sound capacity) (hcap : 1 ≤ capacity) (call : Call α) :
    (q.perform call).2.Sound capacity ∧
      ((q.perform call).1, (q.perform call).2.contents) = call.onList q.contents := by
  have hsized : q.chain.Sized capacity q.chain.entryWords := ⟨hq.capacity_eq, rfl⟩
  cases call with
  | insert x =>
    exact ⟨⟨hq.valid.insert x, (q.ends.insert_sized hsized x).1,
      hq.bounded.insert hq.capacity_eq hcap x⟩, congrArg _ (contents_insert q x)⟩
  | push x =>
    have hcapacity : (q.ends.push q.chain x).2.capacity = capacity := by
      unfold Ends.push
      split
      · split
        · exact hq.capacity_eq
        · exact (hsized.enqueueFront _).allocate.1
      · exact hsized.allocate.1
    exact ⟨⟨hq.valid.push x, hcapacity, hq.bounded.push hq.capacity_eq hcap x⟩,
      congrArg _ (contents_push q x)⟩
  | pop =>
    obtain ⟨e, c, hpop, hvalid, hrest, hcapacity, -⟩ := Ends.pop_ok hq.valid hsized
    have hrun : q.pop = (q.contents.head?, ⟨c, e⟩) := by rw [Solo.pop, hpop]
    have hbounded := hq.bounded.pop
    rw [hpop] at hbounded
    rw [Solo.perform, hrun]
    exact ⟨⟨hvalid, hcapacity, hbounded⟩, congrArg _ hrest⟩
  | flush =>
    refine ⟨⟨q.ends.flush_valid hq.valid, (q.ends.flush_sized hsized).1, hq.bounded.flush⟩,
      congrArg _ ?_⟩
    show ([] : List α) ++ (q.ends.flush q.chain).2.entries ++ [] = q.contents
    rw [List.nil_append, List.append_nil, Ends.flush_entries, contents]

theorem Sound.after (hq : q.Sound capacity) (hcap : 1 ≤ capacity) (calls : List (Call α)) :
    (q.after calls).Sound capacity := by
  induction calls generalizing q with
  | nil => exact hq
  | cons call rest ih => exact ih (hq.perform hcap call).1

-- Entries that were inserted fill one buffer after the other, and the tail has the last of them.
theorem insert_fills (name : String) (hcap : 1 ≤ capacity) (xs : List α) :
    (xs.foldl insert (new name capacity)).chain.capacity = capacity ∧
      (xs.foldl insert (new name capacity)).ends.head = none ∧
      (xs.foldl insert (new name capacity)).chain.links.toList.length * capacity +
          (xs.foldl insert (new name capacity)).ends.tailEntries.size = xs.length ∧
      ((xs.foldl insert (new name capacity)).ends.tail = none ∧ xs = [] ∨
        ∃ tail, (xs.foldl insert (new name capacity)).ends.tail = some tail ∧ 0 < tail.size ∧
          tail.size ≤ capacity) := by
  induction xs using List.reverseRecOn with
  | nil =>
    refine ⟨Nat.max_eq_left hcap, rfl, ?_, Or.inl ⟨rfl, rfl⟩⟩
    show 0 * capacity + 0 = 0
    omega
  | append_singleton xs x ih =>
    rw [List.foldl_append, List.foldl_cons, List.foldl_nil]
    generalize xs.foldl insert (new name capacity) = q at ih ⊢
    obtain ⟨c, ⟨head, tail⟩⟩ := q
    obtain ⟨hcapacity, hhead, hlength, htail⟩ := ih
    simp only at hcapacity hhead
    subst hhead
    rcases htail with ⟨htail, rfl⟩ | ⟨buffer, htail, hpos, hle⟩
    · simp only at htail
      subst htail
      have hsized : c.Sized capacity c.entryWords := ⟨hcapacity, rfl⟩
      refine ⟨hsized.allocate.1, rfl, ?_, Or.inr ⟨.singleton x, rfl, Nat.one_pos, hcap⟩⟩
      simp only [insert, Ends.insert, Ends.links_allocate, Ends.tailEntries, Option.getD_some,
        Option.getD_none] at hlength ⊢
      exact congrArg (· + 1) hlength
    · simp only at htail
      subst htail
      simp only [Ends.tailEntries, Option.getD_some] at hlength
      simp only [insert, Ends.insert, hcapacity]
      split
      · rename_i hroom
        refine ⟨hcapacity, rfl, ?_, Or.inr ⟨_, rfl, Nat.succ_pos _, hroom⟩⟩
        simp only [Ends.tailEntries, Option.getD_some, List.length_append, List.length_singleton]
        rw [← hlength]
        rfl
      · rename_i hfull
        have hempty : ¬buffer.isEmpty = true := fun he => by
          rw [Deque.isEmpty, beq_iff_eq] at he
          omega
        have hsized : c.Sized capacity c.entryWords := ⟨hcapacity, rfl⟩
        refine ⟨(hsized.enqueueBack buffer).allocate.1, rfl, ?_, Or.inr ⟨.singleton x, rfl, Nat.one_pos, hcap⟩⟩
        have hsize : buffer.size = capacity := by omega
        simp only [Ends.links_allocate, Chain.enqueueBack, if_neg hempty, Chain.countUp,
          Chain.linkBack, Deque.toList_pushBack, List.length_append, List.length_singleton,
          Ends.tailEntries, Option.getD_some, Nat.add_mul, Nat.one_mul]
        rw [← hlength, hsize]
        rfl

-- When they are published, no buffer but the last has room.
theorem length_flush_insert (name : String) (hcap : 1 ≤ capacity) (xs : List α) :
    (xs.foldl insert (new name capacity)).flush.chain.links.toList.length =
      (xs.length + capacity - 1) / capacity := by
  obtain ⟨-, hhead, hlength, htail⟩ := insert_fills name hcap xs
  generalize xs.foldl insert (new name capacity) = q at hhead hlength htail ⊢
  obtain ⟨c, ⟨head, tail⟩⟩ := q
  simp only at hhead
  subst hhead
  rcases htail with ⟨htail, rfl⟩ | ⟨buffer, htail, hpos, hle⟩
  · simp only at htail
    subst htail
    simp only [Ends.tailEntries, Option.getD_none, List.length_nil, Nat.add_eq_zero_iff,
      Nat.mul_eq_zero] at hlength
    rw [List.length_nil, Nat.zero_add, Nat.div_eq_of_lt (by omega)]
    exact hlength.1.resolve_right (by omega)
  · simp only at htail
    subst htail
    have hempty : ¬buffer.isEmpty = true := fun he => by
      rw [Deque.isEmpty, beq_iff_eq] at he
      omega
    simp only [Ends.tailEntries, Option.getD_some] at hlength
    have hlinks : (flush ⟨c, ⟨none, some buffer⟩⟩).chain.links.toList.length =
        c.links.toList.length + 1 := by
      simp only [flush, Ends.flush, Chain.enqueueBack, if_neg hempty, Chain.countUp, Chain.linkBack,
        Deque.toList_pushBack, List.length_append, List.length_singleton]
    rw [hlinks, ← hlength]
    refine (Nat.div_eq_of_lt_le ?_ ?_).symm
    · rw [Nat.add_mul]
      omega
    · rw [Nat.add_mul, Nat.add_mul]
      omega

-- Whatever calls were made: a further call answers and changes what the queue holds as it would a
-- list, the queue tells how much it holds, and no buffer on the chain is empty or overfull. Entries that
-- are inserted into a new queue take no more buffers than they need.
theorem after_calls {name : String} (hcap : 1 ≤ capacity) {calls : List (Call α)} {q : Solo α}
    (hq : (new name capacity).after calls = q) :
    (∀ call, ((q.perform call).1, (q.perform call).2.contents) = call.onList q.contents) ∧
      (q.pop.1 = none ↔ q.contents = []) ∧
      q.length = q.contents.length ∧ (q.isEmpty = true ↔ q.contents = []) ∧
      (∀ buffer ∈ q.chain.links.toList, buffer.toList ≠ [] ∧ buffer.toList.length ≤ capacity) ∧
      q.chain.enqueued = q.chain.links.toList.length ∧
      ∀ xs : List α, (xs.foldl insert (new name capacity)).flush.chain.links.toList.length =
        (xs.length + capacity - 1) / capacity := by
  have hsound : q.Sound capacity := hq ▸ (sound_new name hcap).after hcap calls
  have hperform := fun call => (hsound.perform hcap call).2
  refine ⟨hperform, ?_, length_eq q, hsound.valid.isEmpty_iff, fun buffer hb => ?_, ?_,
    length_flush_insert name hcap⟩
  · have hpop : q.pop.1 = q.contents.head? := congrArg Prod.fst (hperform .pop)
    rw [hpop, List.head?_eq_none_iff]
  · rw [Deque.length_toList]
    exact ⟨Chain.Valid.filled hsound.valid buffer hb, hsound.bounded.links buffer hb⟩
  · rw [Chain.enqueued, Chain.Valid.counter_eq hsound.valid, Int.toNat_natCast]

-- A queue of buffers for two: three entries were pushed and two inserted, and one was taken. The two that
-- were pushed first fill a buffer on the chain.
theorem after_calls_mixed : 1 ≤ 2 ∧ ∃ q : Solo Nat,
    (new "queue" 2).after [.push 3, .push 2, .insert 4, .push 1, .insert 5, .pop] = q ∧
      q.contents = [2, 3, 4, 5] ∧ q.perform .pop = (some 2, q.pop.2) ∧
      q.pop.2.contents = [3, 4, 5] ∧ q.length = 4 ∧
      ([7, 8, 9].foldl insert (new "queue" 2)).flush.chain.links.toList.length = 2 := by
  refine ⟨by decide, _, rfl, rfl, rfl, ?_⟩
  have hq : (new "queue" 2 : Solo Nat).after
      [.push 3, .push 2, .insert 4, .push 1, .insert 5, .pop] = _ := rfl
  obtain ⟨hcalls, -, hlength, -, -, -, hbuffers⟩ := after_calls (show 1 ≤ 2 by decide) hq
  exact ⟨congrArg Prod.snd (hcalls .pop), hlength, hbuffers [7, 8, 9]⟩

end Solo

end Reclaim.Queue
