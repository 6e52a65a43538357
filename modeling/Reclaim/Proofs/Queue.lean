import Mathlib.Data.List.Basic
import Reclaim.Queue.Ends

/-!
What a queue holds, front first, whatever buffers its entries lie in.
-/
namespace Reclaim.Queue

variable {α : Type}

namespace Chain

-- The counter agrees with the chain, and no buffer on it is empty.
structure Valid (c : Chain α) : Prop where
  counter_eq : c.counter = c.links.toList.length
  filled : ∀ buffer ∈ c.links.toList, buffer.toList ≠ []

theorem Valid.isEmpty_iff {c : Chain α} (hc : c.Valid) : c.isEmpty = true ↔ c.entries = [] := by
  have he := hc.counter_eq
  have hf := hc.filled
  simp only [isEmpty, beq_iff_eq, entries, he]
  cases hl : c.links.toList with
  | nil => simp
  | cons buffer rest =>
    have hb := hf buffer (by simp [hl])
    have hcount : ((buffer :: rest).length : Int) ≠ 0 := Int.natCast_ne_zero.mpr nofun
    simp only [hcount, List.flatMap_cons, List.append_eq_nil_iff, hb, false_and]

theorem Valid.new (name : String) (capacity words : Nat) : (new name capacity words : Chain α).Valid :=
  ⟨rfl, by simp [Chain.new]⟩

@[simp] theorem entries_new (name : String) (capacity words : Nat) :
    (new name capacity words : Chain α).entries = [] := rfl

theorem length_eq (c : Chain α) : c.length = c.entries.length := by
  have hfold : ∀ (buffers : List (Deque α)) (n : Nat),
      buffers.foldl (fun n buffer => n + buffer.size) n =
        n + (buffers.flatMap Deque.toList).length := by
    intro buffers
    induction buffers with
    | nil => simp
    | cons buffer rest ih =>
      intro n
      simp only [List.foldl_cons, ih, List.flatMap_cons, List.length_append, Deque.length_toList]
      omega
  simp [length, entries, hfold]

@[simp] theorem entries_allocate (c : Chain α) : c.allocate.entries = c.entries := by
  unfold allocate
  split <;> rfl

theorem Valid.allocate {c : Chain α} (hc : c.Valid) : c.allocate.Valid := by
  unfold Chain.allocate
  split <;> exact ⟨hc.counter_eq, hc.filled⟩

@[simp] theorem entries_recycle (c : Chain α) : c.recycle.entries = c.entries := rfl

theorem Valid.recycle {c : Chain α} (hc : c.Valid) : c.recycle.Valid :=
  ⟨hc.counter_eq, hc.filled⟩

@[simp] theorem entries_enqueueBack (c : Chain α) (buffer : Deque α) :
    (c.enqueueBack buffer).entries = c.entries ++ buffer.toList := by
  unfold enqueueBack
  split
  · rename_i he
    simp [(Deque.isEmpty_iff buffer).mp he]
  · simp [entries, linkBack, countUp]

theorem Valid.enqueueBack {c : Chain α} (hc : c.Valid) (buffer : Deque α) :
    (c.enqueueBack buffer).Valid := by
  unfold Chain.enqueueBack
  split
  · exact hc.recycle
  · rename_i he
    rw [Deque.isEmpty_iff] at he
    refine ⟨by simp [linkBack, countUp, hc.counter_eq], ?_⟩
    intro b hb
    simp only [linkBack, countUp, Deque.toList_pushBack, List.mem_append,
      List.mem_singleton] at hb
    rcases hb with hb | rfl
    · exact hc.filled b hb
    · exact he

@[simp] theorem entries_enqueueFront (c : Chain α) (buffer : Deque α) :
    (c.enqueueFront buffer).entries = buffer.toList ++ c.entries := by
  unfold enqueueFront
  split
  · rename_i he
    simp [(Deque.isEmpty_iff buffer).mp he]
  · simp [entries, linkFront, countUp]

theorem Valid.enqueueFront {c : Chain α} (hc : c.Valid) (buffer : Deque α) :
    (c.enqueueFront buffer).Valid := by
  unfold Chain.enqueueFront
  split
  · exact hc.recycle
  · rename_i he
    rw [Deque.isEmpty_iff] at he
    refine ⟨by simp [linkFront, countUp, hc.counter_eq], ?_⟩
    intro b hb
    simp only [linkFront, countUp, Deque.toList_pushFront, List.mem_cons] at hb
    rcases hb with rfl | hb
    · exact he
    · exact hc.filled b hb

-- Taking the front buffer of a chain that holds anything.
theorem Valid.dequeue?_eq {c : Chain α} (hc : c.Valid) (h : c.entries ≠ []) :
    ∃ buffer c', c.dequeue? = some (buffer, c') ∧ c'.Valid ∧ buffer.toList ≠ [] ∧
      c.entries = buffer.toList ++ c'.entries := by
  have hne : c.isEmpty = false := by
    rw [Bool.eq_false_iff, ne_eq, hc.isEmpty_iff]
    exact h
  cases hpop : c.links.popFront? with
  | none =>
    have hn := (Deque.popFront?_eq_none_iff _).mp hpop
    exact absurd (by simp [entries, hn]) h
  | some p =>
    obtain ⟨buffer, links⟩ := p
    have hlist := Deque.toList_of_popFront? hpop
    refine ⟨buffer, { c with links, counter := c.counter - 1 }, ?_, ⟨?_, ?_⟩, ?_, ?_⟩
    · simp [dequeue?, hne, unlink?, hpop, countDown]
    · simp [hc.counter_eq, hlist]
    · intro b hb
      exact hc.filled b (hlist ▸ List.mem_cons_of_mem _ hb)
    · exact hc.filled buffer (hlist ▸ List.mem_cons_self)
    · simp [entries, hlist]

theorem Valid.dequeue?_eq_none {c : Chain α} (hc : c.Valid) (h : c.entries = []) :
    c.dequeue? = none := by
  simp [dequeue?, hc.isEmpty_iff.mpr h]

theorem Valid.drain {c : Chain α} (hc : c.Valid) : c.drain.2.Valid ∧ c.drain.2.entries = [] := by
  refine ⟨⟨?_, by simp [Chain.drain]⟩, rfl⟩
  simp [Chain.drain, hc.counter_eq]

-- Buffers have room for so many entries, each of so many words.
def Sized (c : Chain α) (capacity words : Nat) : Prop :=
  c.capacity = capacity ∧ c.entryWords = words

namespace Sized

variable {c : Chain α} {capacity words : Nat}

theorem new (name : String) (n words : Nat) : (new name n words : Chain α).Sized (max n 1) words :=
  ⟨rfl, rfl⟩

theorem check_eq (hc : c.Sized capacity words) :
    c.check = Sizes.checkTable (capacity * words) := by
  rw [check, hc.1, hc.2]

variable (hc : c.Sized capacity words)
include hc

theorem allocate : c.allocate.Sized capacity words := by
  unfold Chain.allocate
  split <;> exact hc

theorem enqueueBack (buffer : Deque α) : (c.enqueueBack buffer).Sized capacity words := by
  unfold Chain.enqueueBack
  split <;> exact hc

theorem enqueueFront (buffer : Deque α) : (c.enqueueFront buffer).Sized capacity words := by
  unfold Chain.enqueueFront
  split <;> exact hc

theorem dequeue? {c' : Chain α} {buffer : Deque α} (h : c.dequeue? = some (buffer, c')) :
    c'.Sized capacity words := by
  unfold Chain.dequeue? Chain.unlink? at h
  split at h
  · cases h
  · rw [Option.map_map, Option.map_eq_some_iff] at h
    obtain ⟨⟨b, links⟩, -, h⟩ := h
    cases h
    exact hc

end Sized

end Chain

namespace Ends

-- What a worker holds back, front first.
def held (e : Ends α) : List α := e.headEntries.toList ++ e.tailEntries.toList

section Add

variable (e : Ends α) (c : Chain α) (x : α)

theorem insert_head : (e.insert c x).1.headEntries = e.headEntries := by
  unfold insert
  split <;> [split; skip] <;> rfl

theorem insert_entries : (e.insert c x).2.entries ++ (e.insert c x).1.tailEntries.toList =
    c.entries ++ e.tailEntries.toList ++ [x] := by
  unfold insert
  split
  · rename_i tail htail
    split <;> simp [tailEntries, htail]
  · rename_i htail
    simp [tailEntries, htail]

theorem push_tail : (e.push c x).1.tailEntries = e.tailEntries := by
  unfold push
  split <;> [split; skip] <;> rfl

theorem push_entries : (e.push c x).1.headEntries.toList ++ (e.push c x).2.entries =
    x :: (e.headEntries.toList ++ c.entries) := by
  unfold push
  split
  · rename_i head hhead
    split <;> simp [headEntries, hhead]
  · rename_i hhead
    simp [headEntries, hhead]

variable {c} (hc : c.Valid)
include hc

theorem insert_valid : (e.insert c x).2.Valid := by
  unfold insert
  split
  · split
    · exact hc
    · exact (hc.enqueueBack _).allocate
  · exact hc.allocate

theorem push_valid : (e.push c x).2.Valid := by
  unfold push
  split
  · split
    · exact hc
    · exact (hc.enqueueFront _).allocate
  · exact hc.allocate

end Add

theorem flush_entries (e : Ends α) (c : Chain α) :
    (e.flush c).2.entries = e.headEntries.toList ++ c.entries ++ e.tailEntries.toList := by
  unfold flush
  cases hhead : e.head <;> cases htail : e.tail <;> simp [headEntries, tailEntries, hhead, htail]

-- An entry is added to what a worker holds back and what the chain has.
theorem insert_perm (e : Ends α) (c : Chain α) (x : α) :
    ((e.insert c x).2.entries ++ (e.insert c x).1.held).Perm (x :: (c.entries ++ e.held)) := by
  have hentries := insert_entries e c x
  rw [held, held, insert_head]
  refine (List.perm_append_comm_assoc _ _ _).trans ?_
  rw [hentries, ← List.append_assoc]
  exact (List.perm_append_singleton _ _).trans ((List.perm_append_comm_assoc _ _ _).cons _)

theorem flush_perm (e : Ends α) (c : Chain α) :
    (e.flush c).2.entries.Perm (c.entries ++ e.held) := by
  rw [flush_entries, held, List.append_assoc]
  exact List.perm_append_comm_assoc _ _ _

theorem flush_valid (e : Ends α) {c : Chain α} (hc : c.Valid) : (e.flush c).2.Valid := by
  unfold flush
  cases e.head <;> cases e.tail
  · exact hc
  · exact hc.enqueueBack _
  · exact hc.enqueueFront _
  · exact (hc.enqueueFront _).enqueueBack _

section Sized

variable (e : Ends α) {c : Chain α} {capacity words : Nat} (hc : c.Sized capacity words)
include hc

theorem insert_sized (x : α) : (e.insert c x).2.Sized capacity words := by
  unfold insert
  split
  · split
    · exact hc
    · exact (hc.enqueueBack _).allocate
  · exact hc.allocate

theorem pop_sized : (e.pop c).2.2.Sized capacity words := by
  have hrefill : ∀ {e : Ends α} {c : Chain α} (buffer : Deque α), c.Sized capacity words →
      (e.refill c buffer).2.Sized capacity words := by
    intro e c buffer hc
    unfold refill
    split <;> exact hc
  have hnext : ∀ {buffer : Deque α} {e' : Ends α} {c' : Chain α},
      e.next? c = some (buffer, e', c') → c'.Sized capacity words := by
    intro buffer e' c' h
    unfold next? at h
    split at h
    · rename_i hd
      cases h
      exact hc.dequeue? hd
    · obtain ⟨_, -, h⟩ := Option.map_eq_some_iff.mp h
      cases h
      exact hc
  unfold pop
  split
  · exact hc
  · split
    · exact hc
    · rename_i hn
      split
      · exact hrefill _ (hnext hn)
      · exact hrefill _ (hnext hn)

theorem flush_sized : (e.flush c).2.Sized capacity words := by
  unfold flush
  cases e.head <;> cases e.tail
  · exact hc
  · exact hc.enqueueBack _
  · exact hc.enqueueFront _
  · exact (hc.enqueueFront _).enqueueBack _

end Sized

end Ends

namespace Solo

def Valid (q : Solo α) : Prop := q.chain.Valid

theorem Valid.new (name : String) (capacity : Nat) : (new name capacity : Solo α).Valid :=
  Chain.Valid.new name capacity 1

@[simp] theorem contents_new (name : String) (capacity : Nat) :
    (new name capacity : Solo α).contents = [] := rfl

variable {q : Solo α}

theorem length_eq (q : Solo α) : q.length = q.contents.length := by
  simp only [length, Ends.length, contents, List.length_append, Chain.length_eq, Deque.length_toList]
  omega

-- The steps that are enough to work a queue off.
theorem length_contents_lt (q : Solo α) : q.contents.length < q.length + 1 := by
  rw [length_eq]
  exact Nat.lt_succ_self _

theorem Valid.isEmpty_iff (hq : q.Valid) : q.isEmpty = true ↔ q.contents = [] := by
  simp only [isEmpty, Ends.isEmpty, Ends.isLocallyEmpty, Bool.and_eq_true, Deque.isEmpty_iff,
    Chain.Valid.isEmpty_iff hq, contents, List.append_eq_nil_iff]
  tauto

theorem Valid.insert (hq : q.Valid) (x : α) : (q.insert x).Valid := q.ends.insert_valid x hq

@[simp] theorem contents_insert (q : Solo α) (x : α) :
    (q.insert x).contents = q.contents ++ [x] := by
  have he := q.ends.insert_entries q.chain x
  have hh := q.ends.insert_head q.chain x
  change (q.ends.insert q.chain x).1.headEntries.toList ++ (q.ends.insert q.chain x).2.entries ++
    (q.ends.insert q.chain x).1.tailEntries.toList = _
  rw [List.append_assoc, hh, he]
  simp [contents]

theorem Valid.push (hq : q.Valid) (x : α) : (q.push x).Valid := q.ends.push_valid x hq

@[simp] theorem contents_push (q : Solo α) (x : α) : (q.push x).contents = x :: q.contents := by
  have he := q.ends.push_entries q.chain x
  have ht := q.ends.push_tail q.chain x
  change (q.ends.push q.chain x).1.headEntries.toList ++ (q.ends.push q.chain x).2.entries ++
    (q.ends.push q.chain x).1.tailEntries.toList = _
  rw [ht, he]
  simp [contents]

-- A queue that holds nothing answers nothing.
theorem Valid.pop_nil (hq : q.Valid) (h : q.contents = []) :
    ∃ q', q.pop = (none, q') ∧ q'.Valid ∧ q'.contents = [] := by
  obtain ⟨chain, ends⟩ := q
  simp only [contents, List.append_eq_nil_iff] at h
  obtain ⟨⟨hhead, hchain⟩, htail⟩ := h
  have hpop := (Deque.popFront?_eq_none_iff _).mpr hhead
  have hnone := Chain.Valid.dequeue?_eq_none hq hchain
  cases ht : ends.tail with
  | none =>
    refine ⟨⟨chain, ends⟩, ?_, hq, by simp [contents, hhead, hchain, htail]⟩
    simp [pop, Ends.pop, hpop, Ends.next?, hnone, ht]
  | some buffer =>
    have hb : buffer.toList = [] := by simpa [Ends.tailEntries, ht] using htail
    have hbpop := (Deque.popFront?_eq_none_iff _).mpr hb
    refine ⟨⟨if ends.head.isSome then chain.recycle else chain, ⟨some buffer, none⟩⟩, ?_, ?_, ?_⟩
    · simp [pop, Ends.pop, hpop, Ends.next?, hnone, ht, hbpop, Ends.refill]
    · split
      · exact Chain.Valid.recycle hq
      · exact hq
    · split <;> simp [contents, Ends.headEntries, Ends.tailEntries, hb, hchain]

-- The next buffer of a queue whose head is used up.
theorem Valid.next_cons {chain : Chain α} {ends : Ends α} (hq : chain.Valid) {x : α} {xs : List α}
    (h : chain.entries ++ ends.tailEntries.toList = x :: xs) :
    ∃ buffer rest ends' chain', ends.next? chain = some (buffer, ends', chain') ∧
      buffer.popFront? = some (x, rest) ∧ chain'.Valid ∧ ends'.head = ends.head ∧
      rest.toList ++ chain'.entries ++ ends'.tailEntries.toList = xs := by
  have hfirst : ∀ (buffer : Deque α) (more : List α), buffer.toList ≠ [] →
      buffer.toList ++ more = x :: xs →
        ∃ rest, buffer.popFront? = some (x, rest) ∧ rest.toList ++ more = xs := by
    intro buffer more hne hb
    cases hpop : buffer.popFront? with
    | none => exact absurd ((Deque.popFront?_eq_none_iff _).mp hpop) hne
    | some p =>
      obtain ⟨y, rest⟩ := p
      rw [Deque.toList_of_popFront? hpop, List.cons_append, List.cons.injEq] at hb
      obtain ⟨rfl, hb⟩ := hb
      exact ⟨rest, rfl, hb⟩
  by_cases hchain : chain.entries = []
  · have hnone := hq.dequeue?_eq_none hchain
    rw [hchain, List.nil_append] at h
    cases ht : ends.tail with
    | none => simp [Ends.tailEntries, ht] at h
    | some buffer =>
      have hb : buffer.toList = x :: xs := by simpa [Ends.tailEntries, ht] using h
      obtain ⟨rest, hpop, hrest⟩ := hfirst buffer [] (by simp [hb]) (by simp [hb])
      refine ⟨buffer, rest, { ends with tail := none }, chain, ?_, hpop, hq, rfl, ?_⟩
      · simp [Ends.next?, hnone, ht]
      · simpa [hchain, Ends.tailEntries] using hrest
  · obtain ⟨buffer, chain', hdeq, hvalid, hne, hentries⟩ := hq.dequeue?_eq hchain
    rw [hentries, List.append_assoc] at h
    obtain ⟨rest, hpop, hrest⟩ := hfirst buffer _ hne h
    refine ⟨buffer, rest, ends, chain', by simp [Ends.next?, hdeq], hpop, hvalid, rfl, ?_⟩
    rw [List.append_assoc]
    exact hrest

-- A queue answers its first entry.
theorem Valid.pop_cons (hq : q.Valid) {x : α} {xs : List α} (h : q.contents = x :: xs) :
    ∃ q', q.pop = (some x, q') ∧ q'.Valid ∧ q'.contents = xs := by
  obtain ⟨chain, ends⟩ := q
  cases hpop : ends.headEntries.popFront? with
  | some p =>
    obtain ⟨y, rest⟩ := p
    have hlist := Deque.toList_of_popFront? hpop
    simp only [contents, hlist, List.cons_append, List.cons.injEq] at h
    obtain ⟨rfl, h⟩ := h
    refine ⟨⟨chain, { ends with head := some rest }⟩, by simp [pop, Ends.pop, hpop], hq, ?_⟩
    simpa [contents, Ends.headEntries, Ends.tailEntries] using h
  | none =>
    have hhead := (Deque.popFront?_eq_none_iff _).mp hpop
    simp only [contents, hhead, List.nil_append] at h
    obtain ⟨buffer, rest, ends', chain', hnext, hbuffer, hvalid, hsame, hrest⟩ :=
      Valid.next_cons hq h
    refine ⟨⟨if ends'.head.isSome then chain'.recycle else chain', { ends' with head := some rest }⟩,
      ?_, ?_, ?_⟩
    · simp [pop, Ends.pop, hpop, hnext, hbuffer, Ends.refill]
    · split
      · exact Chain.Valid.recycle hvalid
      · exact hvalid
    · have hc : (if ends'.head.isSome then chain'.recycle else chain').entries = chain'.entries := by
        split <;> simp
      simpa [contents, hc, Ends.headEntries, Ends.tailEntries] using hrest

-- What a queue answered was its first entry.
theorem Valid.contents_of_pop (hq : q.Valid) {q' : Solo α} {x : α} (h : q.pop = (some x, q')) :
    q.contents = x :: q'.contents := by
  cases hc : q.contents with
  | nil =>
    obtain ⟨q₁, hnone, -⟩ := hq.pop_nil hc
    cases h.symm.trans hnone
  | cons y rest =>
    obtain ⟨q₁, hsome, -, hrest⟩ := hq.pop_cons hc
    cases h.symm.trans hsome
    rw [hrest]

end Solo

-- Ends that hold nothing add nothing to a chain.
@[simp] theorem Solo.contents_fresh (c : Chain α) : (⟨c, {}⟩ : Solo α).contents = c.entries := by
  simp [Solo.contents, Ends.headEntries, Ends.tailEntries]

theorem Solo.of_idle {c : Chain α} {capacity words : Nat}
    (h : c.Valid ∧ c.entries = [] ∧ c.Sized capacity words) :
    Solo.Valid ⟨c, {}⟩ ∧ Solo.contents ⟨c, {}⟩ = [] ∧ c.Sized capacity words :=
  ⟨h.1, (Solo.contents_fresh c).trans h.2.1, h.2.2⟩

-- What is flushed when nothing is left leaves a chain without entries.
theorem Ends.flush_empty {e : Ends α} {c : Chain α} {capacity words : Nat} (hq : Solo.Valid ⟨c, e⟩)
    (hnil : Solo.contents ⟨c, e⟩ = []) (hc : c.Sized capacity words) :
    (e.flush c).2.Valid ∧ (e.flush c).2.entries = [] ∧ (e.flush c).2.Sized capacity words :=
  ⟨e.flush_valid hq, (e.flush_entries c).trans hnil, e.flush_sized hc⟩

-- Popping takes the first entry, if there is one.
theorem Ends.pop_ok {e : Ends α} {c : Chain α} (hq : Solo.Valid ⟨c, e⟩) {capacity words : Nat}
    (hc : c.Sized capacity words) :
    ∃ e' c', e.pop c = ((Solo.contents ⟨c, e⟩).head?, e', c') ∧ Solo.Valid ⟨c', e'⟩ ∧
      Solo.contents ⟨c', e'⟩ = (Solo.contents ⟨c, e⟩).tail ∧ c'.Sized capacity words := by
  obtain ⟨q, hpop, hvalid, hrest⟩ : ∃ q, Solo.pop ⟨c, e⟩ = ((Solo.contents ⟨c, e⟩).head?, q) ∧
      q.Valid ∧ q.contents = (Solo.contents ⟨c, e⟩).tail := by
    cases h : Solo.contents ⟨c, e⟩ with
    | nil => exact hq.pop_nil h
    | cons x xs => exact hq.pop_cons h
  have hrun : e.pop c = ((Solo.contents ⟨c, e⟩).head?, q.ends, q.chain) :=
    congrArg (fun a : Option α × Solo α => (a.1, a.2.ends, a.2.chain)) hpop
  have hsized := e.pop_sized hc
  rw [hrun] at hsized
  exact ⟨q.ends, q.chain, hrun, hvalid, hrest, hsized⟩

end Reclaim.Queue
