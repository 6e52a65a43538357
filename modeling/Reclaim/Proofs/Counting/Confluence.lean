import Reclaim.Proofs.Counting

/-!
The order in which decrements are applied. What becomes of an object depends only on how many
decrements reach it, and no order takes more of them than one that comes to an end. So all orders end
alike: the same objects are freed, and the others have the same status words.
-/
namespace Reclaim.Counting

open CountedHeap Queue Trial

section Words

variable {s w n : Nat}

-- The status word of an object after a decrement.
def lowered (s : Nat) : Nat :=
  let s := s - Status.countUnit
  if Status.count s = 0 then Status.setColor s .black
  else if Status.color s = .green then s
  else Status.setBuffered (Status.setColor s .purple)

theorem decrement?_eq (h : 0 < Status.count s) : Status.decrement? s = some (s - Status.countUnit) :=
  if_neg h.ne'

theorem sub_countUnit (h : 0 < Status.count s) : Status.count (s - Status.countUnit) + 1 = Status.count s ∧
    Status.isBuffered (s - Status.countUnit) = Status.isBuffered s := by
  obtain ⟨t, ht, hcount, -, hbuffered, -⟩ := Status.decrement?_of_pos h
  rw [Option.some.inj ((decrement?_eq h).symm.trans ht)]
  exact ⟨hcount, hbuffered⟩

theorem count_lowered (h : 0 < Status.count s) : Status.count (lowered s) + 1 = Status.count s := by
  rw [← (sub_countUnit h).1, lowered]
  split_ifs <;> simp

theorem isBuffered_lowered (h : 0 < Status.count s) (hb : Status.isBuffered s = true) :
    Status.isBuffered (lowered s) = true := by
  rw [lowered]
  split_ifs <;> simp [(sub_countUnit h).2, hb]

-- The last decrement makes no candidate.
theorem isBuffered_lowered_last (h : Status.count s = 1) :
    Status.isBuffered (lowered s) = Status.isBuffered s := by
  obtain ⟨hcount, hbuffered⟩ := sub_countUnit (s := s) (by omega)
  rw [lowered, if_pos (by omega), Status.isBuffered_setColor, hbuffered]

-- The status word of an object after so many decrements.
def worn (w n : Nat) : Nat := lowered^[n] w

@[simp] theorem worn_zero (w : Nat) : worn w 0 = w := rfl

theorem worn_succ (w n : Nat) : worn w (n + 1) = lowered (worn w n) :=
  Function.iterate_succ_apply' _ _ _

theorem count_worn (h : n ≤ Status.count w) : Status.count (worn w n) + n = Status.count w := by
  induction n with
  | zero => rfl
  | succ n ih =>
    have hcount := ih (by omega)
    have hlower := count_lowered (s := worn w n) (by omega)
    rw [worn_succ]
    omega

theorem isBuffered_worn (h : n ≤ Status.count w) (hb : Status.isBuffered w = true) :
    Status.isBuffered (worn w n) = true := by
  induction n with
  | zero => exact hb
  | succ n ih =>
    have hcount := count_worn (w := w) (n := n) (by omega)
    rw [worn_succ]
    exact isBuffered_lowered (by omega) (ih (by omega))

end Words

-- `hits` tells how many decrements reached each object, and `word` what its status word was before.
section Hits

variable {k : Census} {word hits hits' : Nat → Nat} {o x : Nat}

-- The object has lost its last reference.
def Released (word hits : Nat → Nat) (x : Nat) : Prop := 0 < hits x ∧ hits x = Status.count (word x)

instance : DecidablePred (Released word hits) := fun _ => inferInstanceAs (Decidable (_ ∧ _))

-- It was not left to the cycle collector.
def Freed (word hits : Nat → Nat) (x : Nat) : Prop :=
  Released word hits x ∧ Status.isBuffered (worn (word x) (hits x)) = false

-- It became a candidate.
def Nominated (word hits : Nat → Nat) (x : Nat) : Prop :=
  Status.isBuffered (word x) = false ∧ Status.isBuffered (worn (word x) (hits x)) = true

def released (k : Census) (word hits : Nat → Nat) : Finset Nat := k.objects.filter (Released word hits)

theorem mem_released : x ∈ released k word hits ↔ x ∈ k.objects ∧ Released word hits x :=
  Finset.mem_filter

-- One more decrement of `o`.
def hit (hits : Nat → Nat) (o : Nat) : Nat → Nat := Function.update hits o (hits o + 1)

@[simp] theorem hit_self (hits : Nat → Nat) (o : Nat) : hit hits o o = hits o + 1 :=
  Function.update_self ..

theorem hit_of_ne (h : x ≠ o) : hit hits o x = hits x := Function.update_of_ne h ..

theorem freed_hit_of_ne (h : x ≠ o) : Freed word (hit hits o) x ↔ Freed word hits x := by
  simp only [Freed, Released, hit_of_ne h]

theorem nominated_hit_of_ne (h : x ≠ o) : Nominated word (hit hits o) x ↔ Nominated word hits x := by
  simp only [Nominated, hit_of_ne h]

theorem released_hit (ho : o ∈ k.objects) :
    released k word (hit hits o) = if hits o + 1 = Status.count (word o)
      then insert o ((released k word hits).erase o) else (released k word hits).erase o := by
  ext x
  by_cases hxo : x = o
  · subst hxo
    split_ifs with hlast
    · have hpos : 0 < Status.count (word x) := by omega
      simp [mem_released, Released, ho, hlast, hpos]
    · simp [mem_released, Released, hlast]
  · split_ifs <;> simp [mem_released, Released, hit_of_ne hxo, hxo]

theorem not_mem_released (hlt : hits o < Status.count (word o)) : o ∉ released k word hits := fun h => by
  have heq := (mem_released.mp h).2.2
  omega

theorem released_mono (hle : ∀ x ∈ k.objects, hits x ≤ hits' x)
    (hcount : ∀ x ∈ k.objects, hits' x ≤ Status.count (word x)) :
    released k word hits ⊆ released k word hits' := fun x hx => by
  obtain ⟨hobj, hpos, heq⟩ := mem_released.mp hx
  have h1 := hle x hobj
  have h2 := hcount x hobj
  exact mem_released.mpr ⟨hobj, by omega, by omega⟩

-- The decrements that are accounted for: those of `work`, and those of the references that released
-- objects held. They have reached their objects or are pending.
structure Balanced (k : Census) (word : Nat → Nat) (work : List Nat) (hits : Nat → Nat)
    (pending : List Nat) : Prop where
  le_count : ∀ x ∈ k.objects, hits x ≤ Status.count (word x)
  mem : ∀ x ∈ pending, k.isCounted x = true → x ∈ k.objects
  hits_add : ∀ x ∈ k.objects, hits x + pending.count x =
    work.count x + held k (released k word hits) x

namespace Balanced

variable {work pending pending' rest : List Nat}

theorem perm (hb : Balanced k word work hits pending) (hp : pending.Perm pending') :
    Balanced k word work hits pending' :=
  { hb with
    mem := fun x hx => hb.mem x (hp.mem_iff.mpr hx)
    hits_add := fun x hx => hp.count_eq x ▸ hb.hits_add x hx }

-- What is not counted does not matter.
theorem skip (hb : Balanced k word work hits (o :: rest)) (ho : o ∉ k.objects) :
    Balanced k word work hits rest :=
  { hb with
    mem := fun x hx => hb.mem x (List.mem_cons_of_mem _ hx)
    hits_add := fun x hx => by
      have hne : o ≠ x := fun heq => ho (heq ▸ hx)
      rw [← hb.hits_add x hx, List.count_cons_of_ne hne] }

-- A decrement reaches its object, which may give up its references.
theorem hit (hb : Balanced k word work hits (o :: rest)) (ho : o ∈ k.objects)
    (hclosed : 0 < Status.count (word o) → ∀ x ∈ k.references o, k.isCounted x = true → x ∈ k.objects)
    (hlt : hits o < Status.count (word o)) :
    Balanced k word work (Counting.hit hits o)
      ((if hits o + 1 = Status.count (word o) then k.references o else []) ++ rest) := by
  have hnot := not_mem_released (k := k) hlt
  refine ⟨fun x hx => ?_, fun x hx hc => ?_, fun x hx => ?_⟩
  · by_cases hxo : x = o
    · subst hxo
      rw [hit_self]
      exact hlt
    · rw [hit_of_ne hxo]
      exact hb.le_count x hx
  · rcases List.mem_append.mp hx with hx | hx
    · split_ifs at hx
      · exact hclosed (by omega) x hx hc
      · cases hx
    · exact hb.mem x (List.mem_cons_of_mem _ hx) hc
  · have heq := hb.hits_add x hx
    have hhit : Counting.hit hits o x = hits x + if o = x then 1 else 0 := by
      split_ifs with hox
      · exact hox ▸ hit_self hits o
      · exact hit_of_ne (Ne.symm hox)
    rw [List.count_cons] at heq
    simp only [beq_iff_eq] at heq
    rw [released_hit ho, Finset.erase_eq_of_notMem hnot, List.count_append, hhit]
    split_ifs at heq ⊢ <;> simp only [held, Finset.sum_insert hnot, List.count_nil] at heq ⊢ <;> omega

-- No order takes more decrements of an object than one that comes to an end.
theorem lt_of_pending {q : Nat → Nat} (hb : Balanced k word work hits (o :: rest)) (ho : o ∈ k.objects)
    (hq : Balanced k word work q []) (hle : ∀ x ∈ k.objects, hits x ≤ q x) : hits o < q o := by
  have hsub : held k (released k word hits) o ≤ held k (released k word q) o :=
    Finset.sum_le_sum_of_subset (released_mono hle hq.le_count)
  have h1 := hb.hits_add o ho
  have h2 := hq.hits_add o ho
  rw [List.count_cons_self] at h1
  rw [List.count_nil] at h2
  omega

end Balanced

end Hits

variable {σ : Type} [CountedHeap σ]

-- A heap from which objects are freed. The count of an object that is gone reads as zero.
structure Mortal (L : Lawful σ) (k : Census) where
  Keeps : σ → Finset Nat → Prop
  shows : ∀ {h r}, Keeps h r → L.Shows h k r
  subset : ∀ {h r}, Keeps h r → r ⊆ k.objects
  isCounted_ok : ∀ {h r o}, Keeps h r → o ∈ k.objects → CountedHeap.isCounted h o = .ok true
  keeps_setStatus : ∀ {h r o}, Keeps h r → o ∈ r → ∀ s, Keeps (setStatus h o s) r
  free_ok : ∀ {h r o}, Keeps h r → o ∈ r → count h o = 0 → ∃ h', free h o = .ok h' ∧
    Keeps h' (r.erase o) ∧ ∀ x ∈ r.erase o, status h' x = status h x
  count_gone : ∀ {h r x}, Keeps h r → x ∈ k.objects → x ∉ r → count h x = 0
  status_other : ∀ {h h' r r' x}, Keeps h r → Keeps h' r' → k.isCounted x = false →
    status h x = status h' x

variable {L : Lawful σ} {k : Census} {M : Mortal L k} {word hits : Nat → Nat} {c : Collector}
variable {d d' : Decrements σ} {h h' : σ} {r : Finset Nat} {o s n : Nat} {work pending rest : List Nat}

-- Only the status word of `o` has changed.
structure Mortal.Sets (M : Mortal L k) (h : σ) (r : Finset Nat) (o s : Nat) (h' : σ) : Prop where
  keeps : M.Keeps h' r
  status_eq : ∀ x ∈ r, status h' x = if x = o then s else status h x

namespace Mortal

theorem sets_setStatus (hk : M.Keeps h r) (ho : o ∈ r) (s : Nat) : M.Sets h r o s (setStatus h o s) :=
  ⟨M.keeps_setStatus hk ho s, fun _ hx => L.status_setStatus (M.shows hk) ho hx s⟩

namespace Sets

variable (hs : M.Sets h r o s h') (ho : o ∈ r)
include hs ho

theorem self : status h' o = s := by rw [hs.status_eq o ho, if_pos rfl]

theorem setStatus (t : Nat) : M.Sets h r o t (setStatus h' o t) where
  keeps := M.keeps_setStatus hs.keeps ho t
  status_eq x hx := by
    rw [L.status_setStatus (M.shows hs.keeps) ho hx, hs.status_eq x hx]
    split_ifs <;> rfl

theorem setColor (c : Color) : M.Sets h r o (Status.setColor s c) (setColor h' o c) := by
  rw [CountedHeap.setColor, hs.self ho]
  exact hs.setStatus ho _

theorem setBuffered : M.Sets h r o (Status.setBuffered s) (setBuffered h' o) := by
  rw [CountedHeap.setBuffered, hs.self ho]
  exact hs.setStatus ho _

end Sets

end Mortal

-- The new candidates wait behind those that waited before, each once.
structure Queued (k : Census) (word : Nat → Nat) (c : Collector) (hits : Nat → Nat)
    (c' : Collector) (new : List Nat) : Prop where
  others : c' = { c with unfiltered := c'.unfiltered }
  contents : c'.unfiltered.contents = c.unfiltered.contents ++ new
  nodup : new.Nodup
  mem_iff : ∀ x, x ∈ new ↔ x ∈ k.objects ∧ Nominated word hits x

-- A state in the course of decrements, in which `hits` have reached their objects.
structure Reflects (M : Mortal L k) (word : Nat → Nat) (c : Collector) (hits : Nat → Nat)
    (d : Decrements σ) (r : Finset Nat) : Prop where
  keeps : M.Keeps d.timed.heap r
  mem_iff : ∀ x ∈ k.objects, x ∈ r ↔ ¬Freed word hits x
  status_eq : ∀ x ∈ r, status d.timed.heap x = worn (word x) (hits x)
  freed : Parted k.objects r d.freed
  applied_eq : d.applied = ∑ x ∈ k.objects, hits x
  queued : ∃ new, Queued k word c hits d.collector new

theorem Queued.same {c' : Collector} {new : List Nat} (hq : Queued k word c hits c' new)
    (h : Nominated word (hit hits o) o ↔ Nominated word hits o) :
    Queued k word c (hit hits o) c' new :=
  { hq with
    mem_iff := fun x => by
      rw [hq.mem_iff]
      by_cases hxo : x = o
      · rw [hxo, h]
      · rw [nominated_hit_of_ne hxo] }

theorem Queued.insert {c' : Collector} {new : List Nat} (hq : Queued k word c hits c' new)
    (ho : o ∈ k.objects) (hnot : ¬Nominated word hits o) (hnow : Nominated word (hit hits o) o) :
    Queued k word c (hit hits o) { c' with unfiltered := c'.unfiltered.insert o } (new ++ [o]) where
  others := by rw [hq.others]
  contents := by rw [Solo.contents_insert, hq.contents, List.append_assoc]
  nodup := by
    refine List.nodup_append.mpr ⟨hq.nodup, List.nodup_singleton o, fun a ha b hb => ?_⟩
    rw [List.mem_singleton.mp hb]
    rintro rfl
    exact hnot ((hq.mem_iff a).mp ha).2
  mem_iff x := by
    rw [List.mem_append, hq.mem_iff, List.mem_singleton]
    by_cases hxo : x = o
    · subst hxo
      simp [ho, hnow]
    · simp [hxo, nominated_hit_of_ne hxo]

namespace Reflects

variable (hd : Reflects M word c hits d r)
include hd

theorem sum_hit (ho : o ∈ k.objects) : ∑ x ∈ k.objects, hit hits o x = d.applied + 1 := by
  rw [hd.applied_eq, ← Finset.add_sum_erase _ _ ho, ← Finset.add_sum_erase (a := o) _ hits ho, hit_self,
    Finset.sum_congr rfl fun x hx => hit_of_ne (Finset.ne_of_mem_erase hx)]
  omega

-- An object that stays takes a decrement.
theorem settle (ho : o ∈ k.objects) (hor : o ∈ r)
    (hset : M.Sets d.timed.heap r o (worn (word o) (hits o + 1)) d'.timed.heap)
    (hstay : ¬Freed word (hit hits o) o) (hfreed : d'.freed = d.freed) (happlied : d'.applied = d.applied + 1)
    (hqueued : ∃ new, Queued k word c (hit hits o) d'.collector new) :
    Reflects M word c (hit hits o) d' r where
  keeps := hset.keeps
  mem_iff x hx := by
    by_cases hxo : x = o
    · subst hxo
      simp [hor, hstay]
    · rw [freed_hit_of_ne hxo, hd.mem_iff x hx]
  status_eq x hx := by
    rw [hset.status_eq x hx]
    split_ifs with hxo
    · rw [hxo, hit_self]
    · rw [hit_of_ne hxo, hd.status_eq x hx]
  freed := hfreed ▸ hd.freed
  applied_eq := happlied.trans (hd.sum_hit ho).symm
  queued := hqueued

-- An object that is freed takes its last decrement.
theorem free (ho : o ∈ k.objects) (hor : o ∈ r) (hkeeps : M.Keeps d'.timed.heap (r.erase o))
    (hstatus : ∀ x ∈ r.erase o, status d'.timed.heap x = status d.timed.heap x)
    (hgone : Freed word (hit hits o) o) (hfreed : d'.freed = o :: d.freed)
    (happlied : d'.applied = d.applied + 1)
    (hqueued : ∃ new, Queued k word c (hit hits o) d'.collector new) :
    Reflects M word c (hit hits o) d' (r.erase o) where
  keeps := hkeeps
  mem_iff x hx := by
    by_cases hxo : x = o
    · subst hxo
      simp [hgone]
    · rw [freed_hit_of_ne hxo, Finset.mem_erase, hd.mem_iff x hx]
      simp [hxo]
  status_eq x hx := by
    rw [hstatus x hx, hd.status_eq x (Finset.mem_of_mem_erase hx), hit_of_ne (Finset.ne_of_mem_erase hx)]
  freed := hfreed ▸ (hd.freed.trans (.erase hor)).perm List.perm_append_comm
  applied_eq := happlied.trans (hd.sum_hit ho).symm
  queued := hqueued

-- An object whose decrements are used up has no count, whether it is still there or not.
theorem underflow (ho : o ∈ k.objects) (hused : hits o = Status.count (word o)) :
    Counting.decrement o d = .error (.fatal (.countUnderflow o)) := by
  have hzero : count d.timed.heap o = 0 := by
    by_cases hor : o ∈ r
    · have hcount := count_worn hused.le
      rw [count, hd.status_eq o hor]
      omega
    · exact M.count_gone hd.keeps ho hor
  have hnone : decrement? d.timed.heap o = none := by
    rw [decrement?, (Status.decrement?_eq_none_iff _).mpr hzero, Option.map_none]
  simp only [Counting.decrement, M.isCounted_ok hd.keeps ho, ok_bind, Bool.not_true, Bool.false_eq_true,
    if_false, hnone]

theorem skip (ho : k.isCounted o = false) : Counting.decrement o d = .ok ([], d) := by
  simp only [Counting.decrement, L.isCounted_false (M.shows hd.keeps) ho, ok_bind, Bool.not_false, if_true]

variable (ho : o ∈ k.objects) (hlt : hits o < Status.count (word o))
include ho hlt

theorem mem_of_lt : o ∈ r := (hd.mem_iff o ho).mpr fun hfreed => hlt.ne hfreed.1.2

-- The count goes down, and then the object is released or a candidate.
theorem decrement_eq : Counting.decrement o d =
    let d' : Decrements σ := { d with
      timed.heap := setStatus d.timed.heap o (worn (word o) (hits o) - Status.countUnit)
      applied := d.applied + 1 }
    if hits o + 1 = Status.count (word o) then Counting.release o d' else .ok ([], suspect o d') := by
  have hcount := count_worn hlt.le
  have hpos : 0 < Status.count (worn (word o) (hits o)) := by omega
  have hnext := (sub_countUnit hpos).1
  have hiff : Status.count (worn (word o) (hits o) - Status.countUnit) = 0 ↔
      hits o + 1 = Status.count (word o) := by omega
  simp only [Counting.decrement, M.isCounted_ok hd.keeps ho, ok_bind, Bool.not_true, Bool.false_eq_true,
    if_false, decrement?, hd.status_eq o (hd.mem_of_lt ho hlt), decrement?_eq hpos, Option.map_some, hiff]

-- The last decrement releases the object. Nothing becomes a candidate.
theorem release (hlast : hits o + 1 = Status.count (word o)) {h₁ : σ}
    (hset : M.Sets d.timed.heap r o (worn (word o) (hits o) - Status.countUnit) h₁) : ∃ d' r',
    Counting.release o { d with timed.heap := h₁, applied := d.applied + 1 } =
      .ok (k.references o, d') ∧ Reflects M word c (hit hits o) d' r' := by
  have hor := hd.mem_of_lt ho hlt
  have hcount := count_worn hlt.le
  have hnext := (sub_countUnit (s := worn (word o) (hits o)) (by omega)).1
  have hworn : Status.setColor (worn (word o) (hits o) - Status.countUnit) .black =
      worn (word o) (hits o + 1) := by
    rw [worn_succ, lowered, if_pos (by omega)]
  have hset₂ := hset.setColor hor .black
  rw [hworn] at hset₂
  have hbuffered : isBuffered (setColor h₁ o .black) o =
      Status.isBuffered (worn (word o) (hits o + 1)) := congrArg Status.isBuffered (hset₂.self hor)
  have hsame : Status.isBuffered (worn (word o) (hits o + 1)) = Status.isBuffered (worn (word o) (hits o)) := by
    rw [worn_succ]
    exact isBuffered_lowered_last (by omega)
  have hqueued : ∃ new, Queued k word c (hit hits o) d.collector new :=
    hd.queued.imp fun new hq => hq.same (by simp only [Nominated, hit_self, hsame])
  have hrefs := L.references_eq (M.shows hset.keeps) hor
  have hreleased : Released word (hit hits o) o := ⟨by simp, by rw [hit_self, hlast]⟩
  cases hb : Status.isBuffered (worn (word o) (hits o + 1)) with
  | true =>
    refine ⟨{ d with timed := ⟨setColor h₁ o .black, d.timed.clock.visit⟩, applied := d.applied + 1 }, r, ?_,
      hd.settle ho hor hset₂ (fun hfreed => ?_) rfl rfl hqueued⟩
    · simp only [Counting.release, Timed.references, hrefs, ok_bind, Timed.onHeap, hbuffered, hb, if_true]
    · have hfree := hfreed.2
      rw [hit_self, hb] at hfree
      cases hfree
  | false =>
    have hzero : count (setColor h₁ o .black) o = 0 := by
      have hend := count_worn (w := word o) (n := hits o + 1) (by omega)
      rw [count, hset₂.self hor]
      omega
    obtain ⟨h₃, hfree, hkeeps, hstatus⟩ := M.free_ok hset₂.keeps hor hzero
    refine ⟨{ d with
        timed := ⟨h₃, d.timed.clock.visit⟩, applied := d.applied + 1, freed := o :: d.freed }, r.erase o, ?_,
      hd.free ho hor hkeeps (fun x hx => ?_) ⟨hreleased, by rw [hit_self, hb]⟩ rfl rfl hqueued⟩
    · simp only [Counting.release, Timed.references, hrefs, ok_bind, Timed.onHeap, hbuffered, hb, hfree,
        Bool.false_eq_true, if_false]
    · rw [hstatus x hx, hset₂.status_eq x (Finset.mem_of_mem_erase hx), if_neg (Finset.ne_of_mem_erase hx)]

-- Any other decrement leaves the object where it is, as a candidate unless it is acyclic.
theorem suspect (hmore : hits o + 1 ≠ Status.count (word o)) {h₁ : σ}
    (hset : M.Sets d.timed.heap r o (worn (word o) (hits o) - Status.countUnit) h₁) :
    Reflects M word c (hit hits o)
      (Counting.suspect o { d with timed.heap := h₁, applied := d.applied + 1 }) r := by
  have hor := hd.mem_of_lt ho hlt
  have hcount := count_worn hlt.le
  obtain ⟨hnext, hkeep⟩ := sub_countUnit (s := worn (word o) (hits o)) (by omega)
  have hstay : ¬Freed word (hit hits o) o := fun hfreed => hmore (hit_self hits o ▸ hfreed.1.2)
  have hworn : worn (word o) (hits o + 1) =
      if Status.color (worn (word o) (hits o) - Status.countUnit) = .green
      then worn (word o) (hits o) - Status.countUnit
      else Status.setBuffered
        (Status.setColor (worn (word o) (hits o) - Status.countUnit) .purple) := by
    rw [worn_succ, lowered, if_neg (by omega)]
  have hcolor : color h₁ o = Status.color (worn (word o) (hits o) - Status.countUnit) :=
    congrArg Status.color (hset.self hor)
  unfold Counting.suspect
  by_cases hgreen : Status.color (worn (word o) (hits o) - Status.countUnit) = .green
  · rw [if_pos hgreen] at hworn
    rw [if_pos (beq_iff_eq.mpr (hcolor.trans hgreen))]
    refine hd.settle ho hor (hworn ▸ hset) hstay rfl rfl (hd.queued.imp fun new hq => hq.same ?_)
    simp only [Nominated, hit_self, hworn, hkeep]
  rw [if_neg hgreen] at hworn
  rw [if_neg fun heq => hgreen (hcolor.symm.trans (beq_iff_eq.mp heq))]
  have hset₂ := hset.setColor hor .purple
  have hbuffered : isBuffered (setColor h₁ o .purple) o = Status.isBuffered (worn (word o) (hits o)) := by
    rw [isBuffered, hset₂.self hor, Status.isBuffered_setColor, hkeep]
  unfold Collector.nominate
  cases hb : Status.isBuffered (worn (word o) (hits o)) with
  | true =>
    have hsame : worn (word o) (hits o + 1) =
        Status.setColor (worn (word o) (hits o) - Status.countUnit) .purple := by
      rw [hworn, Status.setBuffered, if_pos (by rw [Status.isBuffered_setColor, hkeep, hb])]
    simp only [hbuffered, hb, if_true]
    refine hd.settle ho hor (hsame ▸ hset₂) hstay rfl rfl (hd.queued.imp fun new hq => hq.same ?_)
    simp only [Nominated, hit_self, hsame, Status.isBuffered_setColor, hkeep]
  | false =>
    simp only [hbuffered, hb, Bool.false_eq_true, if_false]
    refine hd.settle ho hor (hworn ▸ hset₂.setBuffered hor) hstay rfl rfl ?_
    obtain ⟨new, hq⟩ := hd.queued
    refine ⟨_, hq.insert ho (fun hnot => ?_) ⟨?_, ?_⟩⟩
    · rw [hnot.2] at hb
      cases hb
    · rw [← Bool.not_eq_true]
      intro hbefore
      rw [isBuffered_worn hlt.le hbefore] at hb
      cases hb
    · rw [hit_self, hworn, Status.isBuffered_setBuffered]

theorem decrement : ∃ d' r', Counting.decrement o d =
      .ok (if hits o + 1 = Status.count (word o) then k.references o else [], d') ∧
    Reflects M word c (hit hits o) d' r' := by
  have hset := Mortal.sets_setStatus hd.keeps (hd.mem_of_lt ho hlt)
    (worn (word o) (hits o) - Status.countUnit)
  rw [hd.decrement_eq ho hlt]
  by_cases hlast : hits o + 1 = Status.count (word o)
  · simp only [if_pos hlast]
    exact hd.release ho hlt hlast hset
  · simp only [if_neg hlast]
    exact ⟨_, r, rfl, hd.suspect ho hlt hlast hset⟩

end Reflects

-- A state before any decrement.
theorem Reflects.start {t : Timed σ} (hkeeps : M.Keeps t.heap k.objects) :
    Reflects M (status t.heap) c (fun _ => 0) { timed := t, collector := c } k.objects where
  keeps := hkeeps
  mem_iff x hx := by simp [Freed, Released, hx]
  status_eq _ _ := rfl
  freed := .refl _
  applied_eq := by simp
  queued := ⟨[], rfl, by simp, List.nodup_nil, fun x => by simp [Nominated]⟩

-- Decrements are applied one by one, whichever of those that wait comes next. So many were applied.
inductive Applying (work : List Nat) (d₀ : Decrements σ) : Nat → List Nat → Decrements σ → Prop
  | start {pending : List Nat} : pending.Perm work → Applying work d₀ 0 pending d₀
  | step {n o : Nat} {pending rest found next : List Nat} {d d' : Decrements σ} :
    Applying work d₀ n pending d → pending.Perm (o :: rest) → decrement o d = .ok (found, d') →
    next.Perm (found ++ rest) → Applying work d₀ (n + 1) next d'

-- What every order comes through.
structure Stage (M : Mortal L k) (word : Nat → Nat) (c : Collector) (work : List Nat) (n : Nat)
    (pending : List Nat) (hits : Nat → Nat) (d : Decrements σ) (r : Finset Nat) : Prop where
  reflects : Reflects M word c hits d r
  balanced : Balanced k word work hits pending
  length_eq : n + pending.length = work.length + references k (released k word hits)
  least : ∀ q, Balanced k word work q [] → ∀ x ∈ k.objects, hits x ≤ q x

namespace Stage

variable {hits' q : Nat → Nat} {r' : Finset Nat}

-- The objects that the state began with, and the references that were there.
def Closed (k : Census) (word : Nat → Nat) : Prop :=
  ∀ o ∈ k.objects, 0 < Status.count (word o) → ∀ x ∈ k.references o, k.isCounted x = true → x ∈ k.objects

theorem perm {pending' : List Nat} (hs : Stage M word c work n pending hits d r)
    (hp : pending.Perm pending') : Stage M word c work n pending' hits d r :=
  { hs with balanced := hs.balanced.perm hp, length_eq := hp.length_eq ▸ hs.length_eq }

-- The next decrement either takes a reference away that is not there, or comes to such a state again.
theorem step (hs : Stage M word c work n (o :: rest) hits d r) (hclosed : Closed k word) :
    (∃ found d' hits' r', decrement o d = .ok (found, d') ∧
      Stage M word c work (n + 1) (found ++ rest) hits' d' r') ∨
    o ∈ k.objects ∧ hits o = Status.count (word o) ∧
      decrement o d = .error (.fatal (.countUnderflow o)) := by
  have hlength := hs.length_eq
  rw [List.length_cons] at hlength
  by_cases ho : o ∈ k.objects
  · rcases (hs.balanced.le_count o ho).lt_or_eq with hlt | hused
    · obtain ⟨d', r', hrun, hreflects⟩ := hs.reflects.decrement ho hlt
      have hnot := not_mem_released (k := k) hlt
      refine Or.inl ⟨_, d', _, r', hrun, hreflects, hs.balanced.hit ho (hclosed o ho) hlt, ?_,
        fun q hq x hx => ?_⟩
      · rw [released_hit ho, Finset.erase_eq_of_notMem hnot, List.length_append]
        split_ifs with hlast
        · simp only [references, Finset.sum_insert hnot] at hlength ⊢
          omega
        · rw [List.length_nil]
          omega
      · by_cases hxo : x = o
        · subst hxo
          rw [hit_self]
          exact hs.balanced.lt_of_pending ho hq (hs.least q hq)
        · rw [hit_of_ne hxo]
          exact hs.least q hq x hx
    · exact Or.inr ⟨ho, hused, hs.reflects.underflow ho hused⟩
  · have hnot : k.isCounted o = false := by
      rw [← Bool.not_eq_true]
      exact fun hc => ho (hs.balanced.mem o List.mem_cons_self hc)
    refine Or.inl ⟨[], d, hits, r, hs.reflects.skip hnot, { hs with
      balanced := hs.balanced.skip ho
      length_eq := ?_ }⟩
    rw [List.nil_append]
    omega

-- Every state of every order.
theorem of_applying {t : Timed σ} (hkeeps : M.Keeps t.heap k.objects)
    (hclosed : Closed k (status t.heap)) (hwork : ∀ x ∈ work, k.isCounted x = true → x ∈ k.objects)
    (h : Applying work { timed := t, collector := c } n pending d) :
    ∃ hits r, Stage M (status t.heap) c work n pending hits d r := by
  induction h with
  | start hp =>
    have hnone : released k (status t.heap) (fun _ => 0) = ∅ :=
      Finset.filter_false_of_mem fun x _ hx => absurd hx.1 (Nat.lt_irrefl 0)
    refine ⟨fun _ => 0, k.objects, .start hkeeps, ⟨fun x _ => Nat.zero_le _,
      fun x hx => hwork x (hp.mem_iff.mp hx), fun x _ => ?_⟩, ?_, fun q _ x _ => Nat.zero_le _⟩
    · simp [hnone, held, hp.count_eq]
    · simp [hnone, references, hp.length_eq]
  | step _ hp hrun hnext ih =>
    obtain ⟨hits, r, hs⟩ := ih
    rcases (hs.perm hp).step hclosed with ⟨found, d', hits', r', hrun', hs'⟩ | ⟨-, -, hfault⟩
    · cases hrun.symm.trans hrun'
      exact ⟨hits', r', hs'.perm hnext.symm⟩
    · cases hrun.symm.trans hfault

-- There are so many decrements at most.
theorem add_length_le (hs : Stage M word c work n pending hits d r) {h₀ : σ}
    (hkeeps : M.Keeps h₀ k.objects) : n + pending.length ≤ work.length + extent h₀ := by
  have hle : references k (released k word hits) ≤ ∑ o ∈ k.objects, (k.references o).length :=
    Finset.sum_le_sum_of_subset (Finset.filter_subset _ _)
  have hextent := L.sum_le_extent (M.shows hkeeps)
  have hlength := hs.length_eq
  omega

-- As long as some order comes to an end, no decrement fails.
theorem step_ok (hs : Stage M word c work n (o :: rest) hits d r) (hclosed : Closed k word)
    (hq : Balanced k word work q []) : ∃ found d', decrement o d = .ok (found, d') := by
  rcases hs.step hclosed with ⟨found, d', -, -, hrun, -⟩ | ⟨ho, hused, -⟩
  · exact ⟨found, d', hrun⟩
  · have hlt := hs.balanced.lt_of_pending ho hq (hs.least q hq)
    have hle := hq.le_count o ho
    omega

end Stage

-- Two states after all decrements. The status word of an object holds its count, its colour and
-- whether it is buffered.
structure Agree (k : Census) (c : Collector) (d d' : Decrements σ) : Prop where
  freed : d.freed.Perm d'.freed
  nodup : d.freed.Nodup
  applied_eq : d.applied = d'.applied
  status_eq : ∀ x, x ∈ k.objects ∨ k.isCounted x = false → x ∉ d.freed →
    status d.timed.heap x = status d'.timed.heap x
  -- Candidates were added to the same queue, each once, and maybe in another order.
  candidates : ∃ new new', new.Nodup ∧ new.Perm new' ∧
    d.collector = { c with unfiltered := d.collector.unfiltered } ∧
    d'.collector = { c with unfiltered := d'.collector.unfiltered } ∧
    d.collector.unfiltered.contents = c.unfiltered.contents ++ new ∧
    d'.collector.unfiltered.contents = c.unfiltered.contents ++ new'

theorem Reflects.agree {hits' : Nat → Nat} {r' : Finset Nat} (hd : Reflects M word c hits d r)
    (hd' : Reflects M word c hits' d' r') (hsame : ∀ x ∈ k.objects, hits x = hits' x) : Agree k c d d' := by
  have hr : r = r' := by
    ext x
    by_cases hx : x ∈ k.objects
    · rw [hd.mem_iff x hx, hd'.mem_iff x hx, Freed, Freed, Released, Released, hsame x hx]
    · exact iff_of_false (fun h => hx (M.subset hd.keeps h)) fun h => hx (M.subset hd'.keeps h)
  subst hr
  obtain ⟨new, hq⟩ := hd.queued
  obtain ⟨new', hq'⟩ := hd'.queued
  refine ⟨?_, hd.freed.nodup, ?_, fun x hx hfreed => ?_, new, new', hq.nodup, ?_, hq.others, hq'.others,
    hq.contents, hq'.contents⟩
  · refine (List.perm_ext_iff_of_nodup hd.freed.nodup hd'.freed.nodup).mpr fun x => ?_
    rw [hd.freed.mem_freed_iff, hd'.freed.mem_freed_iff]
  · rw [hd.applied_eq, hd'.applied_eq, Finset.sum_congr rfl hsame]
  · rcases hx with hx | hx
    · have hxr : x ∈ r := (hd.freed.mem_iff.mp hx).resolve_right hfreed
      rw [hd.status_eq x hxr, hd'.status_eq x hxr, hsame x hx]
    · exact M.status_other hd.keeps hd'.keeps hx
  · refine (List.perm_ext_iff_of_nodup hq.nodup hq'.nodup).mpr fun x => ?_
    rw [hq.mem_iff, hq'.mem_iff]
    refine and_congr_right fun hx => ?_
    rw [Nominated, Nominated, hsame x hx]

-- Two orders that come to an end.
theorem Stage.agree {m : Nat} {hits' : Nat → Nat} {r' : Finset Nat}
    (hs : Stage M word c work n [] hits d r) (hs' : Stage M word c work m [] hits' d' r') :
    Agree k c d d' :=
  hs.reflects.agree hs'.reflects fun x hx =>
    (hs.least hits' hs'.balanced x hx).antisymm (hs'.least hits hs.balanced x hx)

-- The order in which decrements are applied, the last one that was found first.
theorem Applying.worklist {E : Fault → Prop} {d₀ : Decrements σ} {fuel : Nat}
    (hfuel : ∀ {n pending d}, Applying work d₀ n pending d → n + pending.length ≤ fuel)
    (hstep : ∀ {n o rest d}, Applying work d₀ n (o :: rest) d → Concludes E (decrement o d) fun _ => True)
    {steps : Nat} (h : Applying work d₀ n pending d) (hsteps : n + steps = fuel) :
    Concludes E (Reclaim.worklist decrement steps pending d) fun d' => ∃ m, Applying work d₀ m [] d' := by
  induction steps generalizing n pending d with
  | zero =>
    cases pending with
    | nil => exact .ok ⟨n, h⟩
    | cons o rest =>
      have hle := hfuel h
      rw [List.length_cons] at hle
      omega
  | succ steps ih =>
    cases pending with
    | nil => exact .ok ⟨n, h⟩
    | cons o rest =>
      rcases hstep h with ⟨⟨found, d'⟩, hrun, -⟩ | ⟨f, hfault, hf⟩
      · rw [Reclaim.worklist, hrun]
        exact ih (h.step (.refl _) hrun ((List.reverse_perm found).append_right rest)) (by omega)
      · rw [Reclaim.worklist, hfault]
        exact .error hf

section Apply

variable {t : Timed σ} {work' : List Nat} (hkeeps : M.Keeps t.heap k.objects)
  (hclosed : Stage.Closed k (status t.heap))
  (hwork : ∀ x ∈ work, k.isCounted x = true → x ∈ k.objects)
include hkeeps hclosed hwork

theorem apply_concludes {E : Fault → Prop} (hperm : work'.Perm work)
    (hstep : ∀ {n o rest d}, Applying work { timed := t, collector := c } n (o :: rest) d →
      Concludes E (decrement o d) fun _ => True) :
    Concludes E (Counting.apply work' c t) fun d =>
      ∃ m, Applying work { timed := t, collector := c } m [] d := by
  rw [Counting.apply, hperm.length_eq]
  refine Applying.worklist (fun h => ?_) hstep (.start ((List.reverse_perm _).trans hperm)) (Nat.zero_add _)
  obtain ⟨_, _, hs⟩ := Stage.of_applying hkeeps hclosed hwork h
  exact hs.add_length_le hkeeps

-- If one order takes no reference away that is not there, no order does, and they all end alike.
theorem apply_confluent (hperm : work'.Perm work)
    (hflow : ∀ o, Counting.apply work c t ≠ .error (.fatal (.countUnderflow o))) :
    ∃ d d', Counting.apply work c t = .ok d ∧ Counting.apply work' c t = .ok d' ∧ Agree k c d d' ∧
      ∀ n pending e, Applying work { timed := t, collector := c } n pending e →
        n + pending.length ≤ work.length + extent t.heap ∧
        (∀ o ∈ pending, ∃ found e', decrement o e = .ok (found, e')) ∧
        (pending = [] → Agree k c d e) := by
  -- the first order underflows or comes to an end
  have hfirst := apply_concludes (E := fun f => ∃ o, f = .fatal (.countUnderflow o)) (c := c) hkeeps hclosed
    hwork (.refl work) fun h => by
      obtain ⟨_, _, hs⟩ := Stage.of_applying hkeeps hclosed hwork h
      rcases hs.step hclosed with ⟨found, d', -, -, hrun, -⟩ | ⟨-, -, hfault⟩
      · exact .of_ok hrun trivial
      · exact Or.inr ⟨_, hfault, _, rfl⟩
  obtain ⟨d, hrun, m, hd⟩ := hfirst.resolve_right fun ⟨f, hfault, o, hf⟩ => hflow o (hf ▸ hfault)
  obtain ⟨_, _, hs⟩ := Stage.of_applying hkeeps hclosed hwork hd
  -- so that no other order can underflow
  have hok : ∀ {n o pending e}, Applying work { timed := t, collector := c } n pending e → o ∈ pending →
      ∃ found e', decrement o e = .ok (found, e') := fun he ho => by
    obtain ⟨_, _, hs'⟩ := Stage.of_applying hkeeps hclosed hwork he
    exact (hs'.perm (List.perm_cons_erase ho)).step_ok hclosed hs.balanced
  have hsecond := apply_concludes (E := fun _ => False) (c := c) hkeeps hclosed hwork hperm fun h => by
    obtain ⟨found, d', hstep⟩ := hok h List.mem_cons_self
    exact .of_ok hstep trivial
  obtain ⟨d', hrun', m', hd'⟩ := hsecond.resolve_right fun ⟨_, _, hf⟩ => hf
  obtain ⟨_, _, hs'⟩ := Stage.of_applying hkeeps hclosed hwork hd'
  refine ⟨d, d', hrun, hrun', hs.agree hs', fun n pending e he => ?_⟩
  obtain ⟨_, _, hs''⟩ := Stage.of_applying hkeeps hclosed hwork he
  refine ⟨hs''.add_length_le hkeeps, fun o ho => hok he ho, ?_⟩
  rintro rfl
  exact hs.agree hs''

end Apply

end Reclaim.Counting
