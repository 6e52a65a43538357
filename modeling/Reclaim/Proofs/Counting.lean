import Reclaim.Counting
import Reclaim.Proofs.Trial.Outcome

/-!
The account that a plan which counts references keeps: every count is the number of references that
live objects hold, that something outside of the heap holds, and that are still to be taken away.
Applying decrements keeps it, and never frees an object that has a count.
-/
namespace Reclaim.Counting

open CountedHeap Queue Trial

-- The objects of `r` are those of `r'` and, each once, those that were freed.
def Parted (r r' : Finset Nat) (freed : List Nat) : Prop := r.val = r'.val + freed

namespace Parted

variable {r r₁ r₂ : Finset Nat} {freed freed' : List Nat} {o : Nat}

theorem refl (r : Finset Nat) : Parted r r [] := (Multiset.add_zero _).symm

theorem trans (h : Parted r r₁ freed) (h' : Parted r₁ r₂ freed') :
    Parted r r₂ (freed ++ freed') := by
  rw [Parted, h, h', Multiset.add_assoc, Multiset.coe_add]
  exact congrArg (r₂.val + ·) (Multiset.coe_eq_coe.mpr List.perm_append_comm)

theorem perm (h : Parted r r₁ freed) (hp : freed.Perm freed') : Parted r r₁ freed' := by
  rw [Parted, h, Multiset.coe_eq_coe.mpr hp]

theorem erase (ho : o ∈ r) : Parted r (r.erase o) [o] := by
  rw [Parted, Finset.erase_val, Multiset.coe_singleton, Multiset.add_comm,
    Multiset.singleton_add]
  exact (Multiset.cons_erase ho).symm

theorem mem_iff (h : Parted r r₁ freed) : o ∈ r ↔ o ∈ r₁ ∨ o ∈ freed := by
  rw [← Finset.mem_val, h, Multiset.mem_add, Multiset.mem_coe, Finset.mem_val]

theorem subset (h : Parted r r₁ freed) : r₁ ⊆ r := fun _ ho => h.mem_iff.mpr (Or.inl ho)

theorem nodup (h : Parted r r₁ freed) : freed.Nodup := by
  have hn := r.nodup
  rw [h, Multiset.nodup_add] at hn
  exact Multiset.coe_nodup.mp hn.2.1

theorem not_mem (h : Parted r r₁ freed) (ho : o ∈ freed) : o ∉ r₁ := by
  have hn := r.nodup
  rw [h, Multiset.nodup_add] at hn
  exact fun hr => Multiset.disjoint_left.mp hn.2.2 hr ho

theorem mem_freed_iff (h : Parted r r₁ freed) : o ∈ freed ↔ o ∈ r ∧ o ∉ r₁ := by
  have hn := r.nodup
  rw [h, Multiset.nodup_add] at hn
  have hapart : o ∈ freed → o ∉ r₁ := fun hfreed ho =>
    Multiset.disjoint_left.mp hn.2.2 (Finset.mem_val.mpr ho) (Multiset.mem_coe.mpr hfreed)
  rw [h.mem_iff]
  exact ⟨fun ho => ⟨Or.inr ho, hapart ho⟩, fun ho => ho.1.resolve_left ho.2⟩

theorem card_eq (h : Parted r r₁ freed) : r.card = r₁.card + freed.length := by
  rw [Finset.card_def, h, Multiset.card_add, Multiset.coe_card, Finset.card_def]

end Parted

-- What `r'` has lost of `r` was freed on the way from `d` to `d'`.
def Spent {σ : Type} (r : Finset Nat) (d : Decrements σ) (r' : Finset Nat) (d' : Decrements σ) : Prop :=
  ∃ more, d'.freed = more ++ d.freed ∧ Parted r r' more

theorem Spent.refl {σ : Type} (r : Finset Nat) {d d' : Decrements σ} (h : d'.freed = d.freed) :
    Spent r d r d' := ⟨[], h, .refl r⟩

theorem Spent.trans {σ : Type} {r r₁ r₂ : Finset Nat} {d d₁ d₂ : Decrements σ} (h : Spent r d r₁ d₁)
    (h' : Spent r₁ d₁ r₂ d₂) : Spent r d r₂ d₂ := by
  obtain ⟨more, heq, hp⟩ := h
  obtain ⟨more', heq', hp'⟩ := h'
  exact ⟨more' ++ more, by rw [heq', heq, List.append_assoc],
    (hp.trans hp').perm List.perm_append_comm⟩

variable {σ : Type} [CountedHeap σ]

-- The objects among `r` that have a count.
def live (h : σ) (r : Finset Nat) : Finset Nat := r.filter fun o => 0 < count h o

-- How many references to `x` the objects of `s` hold, acyclic targets included.
def held (k : Census) (s : Finset Nat) (x : Nat) : Nat := ∑ o ∈ s, (k.references o).count x

-- References that all of `s` hold.
def references (k : Census) (s : Finset Nat) : Nat := ∑ o ∈ s, (k.references o).length

theorem mem_live {h : σ} {r : Finset Nat} {o : Nat} : o ∈ live h r ↔ o ∈ r ∧ 0 < count h o := by
  simp [live]

theorem live_congr {h h' : σ} {r : Finset Nat} (hc : ∀ x ∈ r, count h' x = count h x) :
    live h' r = live h r :=
  Finset.filter_congr fun x hx => by rw [hc x hx]

theorem le_held {k : Census} {s : Finset Nat} {o : Nat} (ho : o ∈ s) (x : Nat) :
    (k.references o).count x ≤ held k s x :=
  Finset.single_le_sum (f := fun o => (k.references o).count x) (fun _ _ => Nat.zero_le _) ho

theorem held_erase {k : Census} {s : Finset Nat} {o : Nat} (ho : o ∈ s) (x : Nat) :
    held k (s.erase o) x + (k.references o).count x = held k s x :=
  Finset.sum_erase_add _ _ ho

-- `ext` counts the references from outside, `work` lists those that are to be taken away.
structure Account (L : Lawful σ) (k : Census) (ext : Nat → Nat) (r : Finset Nat) (h : σ)
    (work : List Nat) : Prop where
  shows : L.Shows h k r
  word : ∀ x ∈ r, status h x < Word.bound
  green_iff : ∀ x ∈ r, color h x = .green ↔ k.isGreen x = true
  plain : ∀ x ∈ r, color h x ≠ .grey ∧ color h x ≠ .white
  closed : ∀ o ∈ live h r, ∀ x ∈ k.references o, k.isCounted x = true → x ∈ r
  pending : ∀ x ∈ work, k.isCounted x = true → x ∈ r
  anchored : ∀ x, k.isCounted x = true → 0 < ext x → x ∈ r
  count_eq : ∀ x ∈ r, count h x = held k (live h r) x + ext x + work.count x

-- The candidates of a collector between two collections.
structure Candidates (k : Census) (r : Finset Nat) (h : σ) (c : Collector) : Prop where
  valid : c.Valid
  once : c.queued.Nodup
  mem : ∀ x ∈ c.queued, x ∈ r ∧ k.isGreen x = false
  flagged : ∀ x ∈ r, isBuffered h x = true ↔ x ∈ c.queued
  filtered_eq : c.filtered.contents = []
  cycleA_eq : c.cycleA.contents = []
  cycleB_eq : c.cycleB.contents = []

-- Objects without a count wait in a queue, all others were freed.
structure Tally (L : Lawful σ) (k : Census) (ext : Nat → Nat) (r : Finset Nat) (h : σ)
    (c : Collector) (work : List Nat) : Prop where
  account : Account L k ext r h work
  candidates : Candidates k r h c
  dead : ∀ x ∈ r, count h x = 0 → x ∈ c.queued

variable {L : Lawful σ} {k : Census} {ext : Nat → Nat} {r : Finset Nat} {h h' : σ}
variable {c : Collector} {work rest : List Nat} {o : Nat}

-- An object without a count is none of those that hold references.
theorem live_erase (hz : count h o = 0) (hsame : ∀ x ∈ r.erase o, status h' x = status h x) :
    live h' (r.erase o) = live h r := by
  ext x
  rw [mem_live, mem_live, Finset.mem_erase]
  constructor
  · rintro ⟨hx, hpos⟩
    rw [count, hsame x (Finset.mem_erase.mpr hx)] at hpos
    exact ⟨hx.2, hpos⟩
  · rintro ⟨hx, hpos⟩
    have hne : x ≠ o := by
      rintro rfl
      omega
    refine ⟨⟨hne, hx⟩, ?_⟩
    rw [count, hsame x (Finset.mem_erase.mpr ⟨hne, hx⟩)]
    exact hpos

namespace Account

theorem isCounted_of_mem (ha : Account L k ext r h work) {x : Nat} (hx : x ∈ r) :
    k.isCounted x = true := by
  by_contra hn
  have h1 := L.isCounted_self ha.shows hx
  rw [L.isCounted_false ha.shows (Bool.not_eq_true _ ▸ hn)] at h1
  cases h1

theorem isCounted_ok (ha : Account L k ext r h work) {x : Nat} (hx : x ∈ work) :
    CountedHeap.isCounted h x = .ok (k.isCounted x) := by
  cases hc : k.isCounted x with
  | false => exact L.isCounted_false ha.shows hc
  | true => exact L.isCounted_self ha.shows (ha.pending x hx hc)

-- A decrement that is none.
theorem skip (ha : Account L k ext r h (o :: rest)) (ho : k.isCounted o = false) :
    Account L k ext r h rest :=
  { ha with
    pending := fun x hx => ha.pending x (List.mem_cons_of_mem _ hx)
    count_eq := fun x hx => by
      have hne : o ≠ x := by
        rintro rfl
        rw [ha.isCounted_of_mem hx] at ho
        cases ho
      rw [ha.count_eq x hx, List.count_cons_of_ne hne] }

-- The count of one object goes down by one.
structure Lowered (L : Lawful σ) (k : Census) (r : Finset Nat) (h : σ) (o : Nat) (h' : σ) : Prop where
  shows : L.Shows h' k r
  others : ∀ x ∈ r, x ≠ o → status h' x = status h x
  word : status h' o < Word.bound
  green_iff : color h' o = .green ↔ color h o = .green
  plain : color h' o ≠ .grey ∧ color h' o ≠ .white
  count_eq : count h' o + 1 = count h o

theorem Lowered.isBuffered_eq (hl : Lowered L k r h o h') (hb : isBuffered h' o = isBuffered h o) :
    ∀ x ∈ r, isBuffered h' x = isBuffered h x := by
  intro x hx
  by_cases hxo : x = o
  · rw [hxo]
    exact hb
  · rw [isBuffered, hl.others x hx hxo, isBuffered]

theorem Lowered.live_eq (hl : Lowered L k r h o h') :
    live h' r = if count h' o = 0 then (live h r).erase o else live h r := by
  ext x
  have hcount : x ∈ r → x ≠ o → count h' x = count h x := fun hx hne => by
    rw [count, hl.others x hx hne, count]
  have heq := hl.count_eq
  split_ifs with hz
  · rw [Finset.mem_erase, mem_live, mem_live]
    by_cases hxo : x = o
    · subst hxo
      simp [hz]
    · exact ⟨fun hx => ⟨hxo, hx.1, hcount hx.1 hxo ▸ hx.2⟩,
        fun hx => ⟨hx.2.1, (hcount hx.2.1 hxo).symm ▸ hx.2.2⟩⟩
  · rw [mem_live, mem_live]
    by_cases hxo : x = o
    · subst hxo
      exact and_congr_right fun _ => by omega
    · exact and_congr_right fun hx => by rw [hcount hx hxo]

-- An object that has lost its last reference gives up the references that it holds.
theorem lower (ha : Account L k ext r h (o :: rest)) (ho : o ∈ r) (hl : Lowered L k r h o h') :
    Account L k ext r h' ((if count h' o = 0 then k.references o else []).reverse ++ rest) := by
  have heq := hl.count_eq
  have holive : o ∈ live h r := mem_live.mpr ⟨ho, by omega⟩
  have hsub : live h' r ⊆ live h r := by
    rw [hl.live_eq]
    split_ifs
    · exact Finset.erase_subset _ _
    · exact le_refl _
  have hcolor : ∀ x ∈ r, x ≠ o → color h' x = color h x := fun x hx hne => by
    rw [color, hl.others x hx hne, color]
  exact {
    shows := hl.shows
    word := fun x hx => by
      by_cases hxo : x = o
      · exact hxo ▸ hl.word
      · rw [hl.others x hx hxo]
        exact ha.word x hx
    green_iff := fun x hx => by
      by_cases hxo : x = o
      · subst hxo
        exact hl.green_iff.trans (ha.green_iff x hx)
      · rw [hcolor x hx hxo]
        exact ha.green_iff x hx
    plain := fun x hx => by
      by_cases hxo : x = o
      · exact hxo ▸ hl.plain
      · rw [hcolor x hx hxo]
        exact ha.plain x hx
    closed := fun p hp => ha.closed p (hsub hp)
    pending := fun x hx => by
      rcases List.mem_append.mp hx with hx | hx
      · split_ifs at hx
        · exact ha.closed o holive x (List.mem_reverse.mp hx)
        · cases hx
      · exact ha.pending x (List.mem_cons_of_mem _ hx)
    anchored := ha.anchored
    count_eq := fun x hx => by
      have hold := ha.count_eq x hx
      have hsum := held_erase (k := k) holive x
      have hcount : count h' x + (if o = x then 1 else 0) = count h x := by
        split_ifs with hxo
        · exact hxo ▸ heq
        · rw [count, hl.others x hx (Ne.symm hxo), count]
          rfl
      rw [List.count_append, List.count_reverse, hl.live_eq]
      rw [List.count_cons] at hold
      simp only [beq_iff_eq] at hold
      split_ifs with hz
      · omega
      · rw [List.count_nil]
        omega }

-- An object without a count is not referenced, so the account goes on without it.
theorem erase (ha : Account L k ext r h work) (ho : o ∈ r) (hz : count h o = 0)
    (hs : L.Shows h' k (r.erase o)) (hsame : ∀ x ∈ r.erase o, status h' x = status h x) :
    Account L k ext (r.erase o) h' work := by
  have heq := ha.count_eq o ho
  have hlive := live_erase hz hsame
  exact {
    shows := hs
    word := fun x hx => by
      rw [hsame x hx]
      exact ha.word x (Finset.mem_of_mem_erase hx)
    green_iff := fun x hx => by
      rw [color, hsame x hx]
      exact ha.green_iff x (Finset.mem_of_mem_erase hx)
    plain := fun x hx => by
      rw [color, hsame x hx]
      exact ha.plain x (Finset.mem_of_mem_erase hx)
    closed := fun p hp x hx hc => by
      rw [hlive] at hp
      refine Finset.mem_erase.mpr ⟨?_, ha.closed p hp x hx hc⟩
      rintro rfl
      have hle := le_held (k := k) hp x
      have hpos := List.count_pos_iff.mpr hx
      omega
    pending := fun x hx hc => by
      refine Finset.mem_erase.mpr ⟨?_, ha.pending x hx hc⟩
      rintro rfl
      have hpos := List.count_pos_iff.mpr hx
      omega
    anchored := fun x hc hpos => by
      refine Finset.mem_erase.mpr ⟨?_, ha.anchored x hc hpos⟩
      rintro rfl
      omega
    count_eq := fun x hx => by
      rw [hlive, count, hsame x hx]
      exact ha.count_eq x (Finset.mem_of_mem_erase hx) }

namespace Lowered

theorem decrement (ha : Account L k ext r h work) (ho : o ∈ r) (hpos : 0 < count h o) :
    ∃ s, Status.decrement? (status h o) = some s ∧ Lowered L k r h o (setStatus h o s) ∧
      isBuffered (setStatus h o s) o = isBuffered h o := by
  obtain ⟨s, hs, hcount, hcolor, hbuffered, hle⟩ := Status.decrement?_of_pos hpos
  have hself : status (setStatus h o s) o = s := by
    rw [L.status_setStatus ha.shows ho ho, if_pos rfl]
  have hlow : Lowered L k r h o (CountedHeap.setStatus h o s) := {
    shows := L.shows_setStatus ha.shows ho s
    others := fun x hx hne => by rw [L.status_setStatus ha.shows ho hx, if_neg hne]
    word := by
      rw [hself]
      exact hle.trans_lt (ha.word o ho)
    green_iff := by rw [color, hself, hcolor, color]
    plain := by
      rw [color, hself, hcolor]
      exact ha.plain o ho
    count_eq := by
      rw [count, hself]
      exact hcount }
  exact ⟨s, hs, hlow, by rw [isBuffered, hself, hbuffered, isBuffered]⟩

variable (hl : Lowered L k r h o h') (ho : o ∈ r)
include hl ho

theorem setStatus {s : Nat} (hword : s < Word.bound)
    (hgreen : Status.color s = .green ↔ color h o = .green)
    (hplain : Status.color s ≠ .grey ∧ Status.color s ≠ .white)
    (hcount : Status.count s = count h' o) : Lowered L k r h o (setStatus h' o s) := by
  have hself : status (CountedHeap.setStatus h' o s) o = s := by
    rw [L.status_setStatus hl.shows ho ho, if_pos rfl]
  exact {
    shows := L.shows_setStatus hl.shows ho s
    others := fun x hx hne => by
      rw [L.status_setStatus hl.shows ho hx, if_neg hne]
      exact hl.others x hx hne
    word := by rwa [hself]
    green_iff := by rwa [color, hself]
    plain := by rwa [color, hself]
    count_eq := by
      rw [count, hself, hcount]
      exact hl.count_eq }

theorem setColor (hgreen : color h o ≠ .green) {c : Color} (hc : c = .black ∨ c = .purple) :
    Lowered L k r h o (setColor h' o c) := by
  refine hl.setStatus ho (Status.setColor_lt c hl.word) ?_ ?_ (Status.count_setColor _ c)
  · rw [Status.color_setColor]
    rcases hc with rfl | rfl <;> simp [hgreen]
  · rw [Status.color_setColor]
    rcases hc with rfl | rfl <;> simp

theorem setBuffered : Lowered L k r h o (setBuffered h' o) := by
  refine hl.setStatus ho (Status.setBuffered_lt hl.word) ?_ ?_ (Status.count_setBuffered _)
  · rw [Status.color_setBuffered]
    exact hl.green_iff
  · rw [Status.color_setBuffered]
    exact hl.plain

end Lowered

end Account

namespace Candidates

theorem congr (hc : Candidates k r h c) (hb : ∀ x ∈ r, isBuffered h' x = isBuffered h x) :
    Candidates k r h' c :=
  { hc with flagged := fun x hx => by rw [hb x hx, hc.flagged x hx] }

-- An object that waits in no queue is freed.
theorem erase (hc : Candidates k r h c) (ho : o ∉ c.queued)
    (hb : ∀ x ∈ r.erase o, isBuffered h' x = isBuffered h x) : Candidates k (r.erase o) h' c :=
  { hc with
    mem := fun x hx => ⟨Finset.mem_erase.mpr ⟨fun heq => ho (heq ▸ hx), (hc.mem x hx).1⟩,
      (hc.mem x hx).2⟩
    flagged := fun x hx => by rw [hb x hx, hc.flagged x (Finset.mem_of_mem_erase hx)] }

theorem insert (hc : Candidates k r h c) (ho : o ∈ r) (hg : k.isGreen o = false)
    (hq : o ∉ c.queued) (h' : σ) (hb : ∀ x ∈ r, isBuffered h' x = if x = o then true else isBuffered h x) :
    Candidates k r h' { c with unfiltered := c.unfiltered.insert o } ∧
      ∀ x, x ∈ ({ c with unfiltered := c.unfiltered.insert o } : Collector).queued ↔
        x = o ∨ x ∈ c.queued := by
  have hperm : ({ c with unfiltered := c.unfiltered.insert o } : Collector).queued.Perm
      (o :: c.queued) := by
    rw [List.perm_iff_count]
    intro x
    simp only [Collector.queued, Solo.contents_insert, List.count_append, List.count_cons,
      List.count_nil]
    omega
  have hmem : ∀ x, x ∈ ({ c with unfiltered := c.unfiltered.insert o } : Collector).queued ↔
      x = o ∨ x ∈ c.queued := fun x => hperm.mem_iff.trans List.mem_cons
  refine ⟨⟨{ hc.valid with unfiltered := hc.valid.unfiltered.insert o }, hperm.nodup_iff.mpr (List.nodup_cons.mpr ⟨hq, hc.once⟩), fun x hx => ?_,
    fun x hx => ?_, hc.filtered_eq, hc.cycleA_eq, hc.cycleB_eq⟩, hmem⟩
  · rcases (hmem x).mp hx with rfl | hx
    · exact ⟨ho, hg⟩
    · exact hc.mem x hx
  · rw [hb x hx, hmem]
    split_ifs with hxo
    · simp [hxo]
    · rw [hc.flagged x hx]
      simp [hxo]

end Candidates

-- Objects in use that only each other refer to.
structure Isolated (k : Census) (h : σ) (r s : Finset Nat) : Prop where
  nonempty : s.Nonempty
  subset : s ⊆ live h r
  cyclic : ∀ x ∈ s, k.isGreen x = false
  count_le : ∀ x ∈ s, count h x ≤ held k s x

-- Wherever objects are isolated, one of them is a candidate.
def Tended (k : Census) (h : σ) (r : Finset Nat) (c : Collector) : Prop :=
  ∀ s, Isolated k h r s → ∃ x ∈ s, color h x = .purple ∧ x ∈ c.queued

-- One object lost a reference. The others are as they were, and if it is still in use it is a
-- candidate.
structure Handled (k : Census) (r : Finset Nat) (h : σ) (c : Collector) (o : Nat) (r' : Finset Nat)
    (h' : σ) (c' : Collector) : Prop where
  subset : r' ⊆ r
  others : ∀ x ∈ r', x ≠ o → status h' x = status h x
  queued : ∀ x ∈ c.queued, x ∈ c'.queued
  candidate : o ∈ r' → 0 < count h' o → k.isGreen o = false →
    color h' o = .purple ∧ o ∈ c'.queued

theorem Tended.handled {r' : Finset Nat} {c' : Collector} (ht : Tended k h r c)
    (hh : Handled k r h c o r' h' c') : Tended k h' r' c' := by
  intro s hs
  by_cases ho : o ∈ s
  · have hlive := mem_live.mp (hs.subset ho)
    exact ⟨o, ho, hh.candidate hlive.1 hlive.2 (hs.cyclic o ho)⟩
  · have hsame : ∀ x ∈ s, status h' x = status h x := fun x hx =>
      hh.others x (mem_live.mp (hs.subset hx)).1 fun hxo => ho (hxo ▸ hx)
    have hcount : ∀ x ∈ s, count h' x = count h x := fun x hx => congrArg Status.count (hsame x hx)
    obtain ⟨x, hx, hp, hq⟩ := ht s ⟨hs.nonempty, fun x hx => mem_live.mpr
      ⟨hh.subset (mem_live.mp (hs.subset hx)).1, hcount x hx ▸ (mem_live.mp (hs.subset hx)).2⟩,
      hs.cyclic, fun x hx => hcount x hx ▸ hs.count_le x hx⟩
    exact ⟨x, hx, (congrArg Status.color (hsame x hx)).trans hp, hh.queued x hq⟩

namespace Tally

open Account

-- The children of an object whose count has become zero.
def children (k : Census) (h : σ) (o : Nat) : List Nat :=
  if count h o = 0 then k.references o else []

theorem lower (ht : Tally L k ext r h c (o :: rest)) (ho : o ∈ r) (hl : Lowered L k r h o h')
    {c' : Collector} (hc : Candidates k r h' c') (hsub : ∀ x ∈ c.queued, x ∈ c'.queued)
    (hdead : count h' o = 0 → o ∈ c'.queued) :
    Tally L k ext r h' c' ((children k h' o).reverse ++ rest) :=
  ⟨ht.account.lower ho hl, hc, fun x hx hz => by
    by_cases hxo : x = o
    · subst hxo
      exact hdead hz
    · rw [count, hl.others x hx hxo] at hz
      exact hsub x (ht.dead x hx hz)⟩

-- What the objects hold that have not given up their references.
theorem references_lower (hl : Lowered L k r h o h') (ho : o ∈ r) :
    (children k h' o).length + references k (live h' r) = references k (live h r) := by
  have heq := hl.count_eq
  rw [hl.live_eq, children]
  split_ifs
  · rw [Nat.add_comm]
    exact Finset.sum_erase_add _ _ (mem_live.mpr ⟨ho, by omega⟩)
  · exact Nat.zero_add _

theorem suspect (ht : Tally L k ext r h c (o :: rest)) (ho : o ∈ r) (d : Decrements σ)
    (hd : d.collector = c) (hl : Lowered L k r h o d.timed.heap) (hpos : 0 < count d.timed.heap o)
    (hb : isBuffered d.timed.heap o = isBuffered h o) :
    Tally L k ext r (suspect o d).timed.heap (suspect o d).collector rest ∧
      Lowered L k r h o (suspect o d).timed.heap ∧
      (suspect o d).collector.settings = c.settings ∧
      (∀ x ∈ c.queued, x ∈ (suspect o d).collector.queued) ∧
      (k.isGreen o = false → color (suspect o d).timed.heap o = .purple ∧
        o ∈ (suspect o d).collector.queued) := by
  subst hd
  have hsame := hl.isBuffered_eq hb
  have hdone : ∀ {h₁ : σ} {c₁ : Collector}, Lowered L k r h o h₁ → 0 < count h₁ o →
      Candidates k r h₁ c₁ → (∀ x ∈ d.collector.queued, x ∈ c₁.queued) →
        Tally L k ext r h₁ c₁ rest := by
    intro h₁ c₁ hl₁ hp₁ hc₁ hsub
    have htally := ht.lower ho hl₁ hc₁ hsub (by omega)
    rwa [children, if_neg (by omega), List.reverse_nil, List.nil_append] at htally
  unfold Counting.suspect
  by_cases hgreen : color d.timed.heap o = .green
  · rw [if_pos (beq_iff_eq.mpr hgreen)]
    refine ⟨hdone hl hpos (ht.candidates.congr hsame) fun _ hx => hx, hl, rfl, fun _ hx => hx,
      fun hg => ?_⟩
    rw [(ht.account.green_iff o ho).mp (hl.green_iff.mp hgreen)] at hg
    cases hg
  rw [if_neg fun he => hgreen (beq_iff_eq.mp he)]
  have hgreen' : color h o ≠ .green := fun he => hgreen (hl.green_iff.mpr he)
  have hl₁ := hl.setColor ho hgreen' (c := .purple) (Or.inr rfl)
  have hcount₁ : count (setColor d.timed.heap o .purple) o = count d.timed.heap o := by
    rw [L.count_setColor hl.shows ho ho]
  have hsame₁ : ∀ x ∈ r, isBuffered (setColor d.timed.heap o .purple) x = isBuffered h x :=
    fun x hx => by rw [L.isBuffered_setColor hl.shows ho hx, hsame x hx]
  have hpurple : color (setColor d.timed.heap o .purple) o = .purple := by
    rw [L.color_setColor hl.shows ho ho, if_pos rfl]
  unfold Collector.nominate
  by_cases hbuf : isBuffered (setColor d.timed.heap o .purple) o = true
  · simp only [hbuf, if_true]
    exact ⟨hdone hl₁ (hcount₁.symm ▸ hpos) (ht.candidates.congr hsame₁) fun _ hx => hx, hl₁,
      trivial, fun _ hx => hx, fun _ => ⟨hpurple,
        (ht.candidates.flagged o ho).mp ((hsame₁ o ho).symm.trans hbuf)⟩⟩
  · simp only [hbuf]
    have hl₂ := hl₁.setBuffered ho
    have hstatus : ∀ x ∈ r, status (setBuffered (setColor d.timed.heap o .purple) o) x =
        if x = o then Status.setBuffered (status (setColor d.timed.heap o .purple) o)
        else status (setColor d.timed.heap o .purple) x := fun x hx =>
      L.status_setStatus hl₁.shows ho hx _
    have hcount₂ : count (setBuffered (setColor d.timed.heap o .purple) o) o =
        count d.timed.heap o := by
      rw [count, hstatus o ho, if_pos rfl, Status.count_setBuffered]
      exact hcount₁
    have hqueued : o ∉ d.collector.queued := fun hq =>
      hbuf ((hsame₁ o ho).trans ((ht.candidates.flagged o ho).mpr hq))
    have hnot : k.isGreen o = false := by
      rw [← Bool.not_eq_true]
      exact fun he => hgreen' ((ht.account.green_iff o ho).mpr he)
    obtain ⟨hc₂, hmem⟩ := ht.candidates.insert
      ho hnot hqueued
      (setBuffered (setColor d.timed.heap o .purple) o) fun x hx => by
        rw [isBuffered, hstatus x hx]
        split_ifs with hxo
        · exact Status.isBuffered_setBuffered _
        · exact hsame₁ x hx
    have hcolor₂ : color (setBuffered (setColor d.timed.heap o .purple) o) o = .purple := by
      rw [color, hstatus o ho, if_pos rfl, Status.color_setBuffered]
      exact hpurple
    exact ⟨hdone hl₂ (hcount₂.symm ▸ hpos) hc₂ fun x hx => (hmem x).mpr (Or.inr hx), hl₂, rfl,
      fun x hx => (hmem x).mpr (Or.inr hx), fun _ => ⟨hcolor₂, (hmem o).mpr (Or.inl rfl)⟩⟩

-- What becomes of an object that has lost its last reference, after `d`.
structure Released (L : Lawful σ) (k : Census) (ext : Nat → Nat) (r : Finset Nat) (h : σ)
    (c : Collector) (o : Nat) (rest : List Nat) (d : Decrements σ) (r' : Finset Nat)
    (d' : Decrements σ) : Prop where
  spent : Spent r d r' d'
  tally : Tally L k ext r' d'.timed.heap d'.collector ((k.references o).reverse ++ rest)
  references_eq : references k (live d'.timed.heap r') = references k (live d.timed.heap r)
  settings_eq : d'.collector.settings = c.settings
  handled : Handled k r h c o r' d'.timed.heap d'.collector

section Release

variable (ht : Tally L k ext r h c (o :: rest)) (ho : o ∈ r) (d : Decrements σ)
variable (hd : d.collector = c) (hl : Lowered L k r h o d.timed.heap)
variable (hz : count d.timed.heap o = 0) (hb : isBuffered d.timed.heap o = isBuffered h o)
include ht ho hd hl hz hb

-- If it waits in a queue, it is left to the cycle collector.
theorem release_queued (hq : o ∈ c.queued) :
    ∃ d', release o d = .ok (k.references o, d') ∧ Released L k ext r h c o rest d r d' := by
  subst hd
  have hrefs := L.references_eq hl.shows ho
  have hbuf : isBuffered (setColor d.timed.heap o .black) o = true :=
    (L.isBuffered_setColor hl.shows ho ho .black).trans
      (hb.trans ((ht.candidates.flagged o ho).mpr hq))
  have hgreen : color h o ≠ .green := fun he => by
    have hg := (ht.account.green_iff o ho).mp he
    rw [(ht.candidates.mem o hq).2] at hg
    cases hg
  have hl₁ := hl.setColor ho hgreen (c := .black) (Or.inl rfl)
  have hz₁ : count (setColor d.timed.heap o .black) o = 0 := by
    rw [L.count_setColor hl.shows ho ho]
    exact hz
  have htally := ht.lower ho hl₁ (ht.candidates.congr fun x hx => by
    rw [L.isBuffered_setColor hl.shows ho hx, hl.isBuffered_eq hb x hx]) (fun _ hx => hx) fun _ => hq
  rw [children, if_pos hz₁] at htally
  refine ⟨{ d with timed := ⟨setColor d.timed.heap o .black, d.timed.clock.visit⟩ }, ?_, {
    spent := .refl r rfl
    tally := htally
    references_eq := congrArg _ (live_congr fun x hx => L.count_setColor hl.shows ho hx .black)
    settings_eq := rfl
    handled := {
      subset := le_refl _
      others := hl₁.others
      queued := fun _ hx => hx
      candidate := fun _ hpos _ => absurd hz₁ hpos.ne' } }⟩
  simp only [Counting.release, Timed.references, hrefs, ok_bind, Timed.onHeap, hbuf, if_true]

-- Otherwise it is freed.
theorem release_free (hkeeps : L.keeps = false) (hq : o ∉ c.queued) :
    ∃ d', release o d = .ok (k.references o, d') ∧
      Released L k ext r h c o rest d (r.erase o) d' := by
  subst hd
  have hrefs := L.references_eq hl.shows ho
  have hbuf : isBuffered (setColor d.timed.heap o .black) o = false := by
    rw [L.isBuffered_setColor hl.shows ho ho .black, hb, ← Bool.not_eq_true]
    exact fun hbuf => hq ((ht.candidates.flagged o ho).mp hbuf)
  obtain ⟨h₂, hfree, hs₂, hstatus₂⟩ := L.free_ok (L.shows_setColor hl.shows ho .black) ho
  simp only [hkeeps, Bool.false_eq_true, if_false] at hs₂ hstatus₂
  have hall : ∀ x ∈ r.erase o, status h₂ x = status d.timed.heap x := fun x hx => by
    rw [hstatus₂ x hx, setColor, L.status_setStatus hl.shows ho (Finset.mem_of_mem_erase hx),
      if_neg (Finset.ne_of_mem_erase hx)]
  have hothers : ∀ x ∈ r.erase o, status h₂ x = status h x := fun x hx =>
    (hall x hx).trans (hl.others x (Finset.mem_of_mem_erase hx) (Finset.ne_of_mem_erase hx))
  have haccount := (ht.account.lower ho hl).erase ho hz hs₂ hall
  rw [if_pos hz] at haccount
  refine ⟨{ d with timed := ⟨h₂, d.timed.clock.visit⟩, freed := o :: d.freed }, ?_, {
    spent := ⟨[o], rfl, .erase ho⟩
    tally := {
      account := haccount
      candidates := ht.candidates.erase hq fun x hx => by
        rw [isBuffered, hothers x hx, ← isBuffered]
      dead := fun x hx hzx => ht.dead x (Finset.mem_of_mem_erase hx) (by
        rw [count, ← hothers x hx]
        exact hzx) }
    references_eq := congrArg _ (live_erase hz hall)
    settings_eq := rfl
    handled := {
      subset := Finset.erase_subset _ _
      others := fun x hx _ => hothers x hx
      queued := fun _ hx => hx
      candidate := fun ho' => absurd rfl (Finset.ne_of_mem_erase ho') } }⟩
  simp only [Counting.release, Timed.references, hrefs, ok_bind, Timed.onHeap, hbuf, hfree,
    Bool.false_eq_true, if_false]

-- An object that lost its last reference is freed, unless it waits in a queue.
theorem release (hkeeps : L.keeps = false) :
    ∃ d' r', Counting.release o d = .ok (k.references o, d') ∧
      Released L k ext r h c o rest d r' d' := by
  by_cases hq : o ∈ c.queued
  · obtain ⟨d', hrun, hreleased⟩ := ht.release_queued ho d hd hl hz hb hq
    exact ⟨d', r, hrun, hreleased⟩
  · obtain ⟨d', hrun, hreleased⟩ := ht.release_free ho d hd hl hz hb hkeeps hq
    exact ⟨d', r.erase o, hrun, hreleased⟩

end Release

theorem decrement (hkeeps : L.keeps = false) {d : Decrements σ}
    (ht : Tally L k ext r d.timed.heap d.collector (o :: rest)) :
    ∃ found d' r', decrement o d = .ok (found, d') ∧ Spent r d r' d' ∧
      Tally L k ext r' d'.timed.heap d'.collector (found.reverse ++ rest) ∧
      found.length + references k (live d'.timed.heap r') ≤ references k (live d.timed.heap r) ∧
      d'.collector.settings = d.collector.settings ∧
      Handled k r d.timed.heap d.collector o r' d'.timed.heap d'.collector := by
  have hcounted := ht.account.isCounted_ok List.mem_cons_self
  cases hc : k.isCounted o with
  | false =>
    refine ⟨[], d, r, ?_, .refl r rfl, ⟨ht.account.skip hc, ht.candidates, ht.dead⟩, ?_, rfl,
      le_refl _, fun _ _ _ => rfl, fun _ hx => hx, fun ho => ?_⟩
    · simp only [Counting.decrement, hcounted, hc, ok_bind, Bool.not_false, if_true]
    · exact (Nat.zero_add _).le
    · rw [ht.account.isCounted_of_mem ho] at hc
      cases hc
  | true =>
    have ho := ht.account.pending o List.mem_cons_self hc
    have hpos : 0 < count d.timed.heap o := by
      have heq := ht.account.count_eq o ho
      rw [List.count_cons_self] at heq
      omega
    obtain ⟨s, hs, hl, hb⟩ := Lowered.decrement ht.account ho hpos
    have hcount : Status.count s = count (setStatus d.timed.heap o s) o := by
      rw [count, L.status_setStatus ht.account.shows ho ho, if_pos rfl]
    have hlower := references_lower hl ho
    have hrun : Counting.decrement o d =
        if Status.count s = 0 then Counting.release o { d with
          timed := { d.timed with heap := setStatus d.timed.heap o s }, applied := d.applied + 1 }
        else .ok ([], Counting.suspect o { d with
          timed := { d.timed with heap := setStatus d.timed.heap o s },
          applied := d.applied + 1 }) := by
      simp only [Counting.decrement, hcounted, hc, ok_bind, Bool.not_true, Bool.false_eq_true,
        if_false, decrement?, hs, Option.map_some]
    rw [hrun, hcount]
    by_cases hz : count (setStatus d.timed.heap o s) o = 0
    · obtain ⟨d', r', hrelease, hreleased⟩ := ht.release ho { d with
        timed := { d.timed with heap := setStatus d.timed.heap o s }, applied := d.applied + 1 }
        rfl hl hz hb hkeeps
      rw [children, if_pos hz] at hlower
      refine ⟨_, d', r', (if_pos hz).trans hrelease, hreleased.spent, hreleased.tally, ?_,
        hreleased.settings_eq, hreleased.handled⟩
      rw [hreleased.references_eq]
      exact hlower.le
    · have hfreed : ∀ d : Decrements σ, (Counting.suspect o d).freed = d.freed := fun d => by
        unfold Counting.suspect
        split <;> rfl
      obtain ⟨htally, hl', hsettings, hqueued, hcandidate⟩ := ht.suspect ho { d with
        timed := { d.timed with heap := setStatus d.timed.heap o s }, applied := d.applied + 1 }
        rfl hl (Nat.pos_of_ne_zero hz) hb
      refine ⟨_, _, r, if_neg hz, .refl r (hfreed _), htally, ?_, hsettings, le_refl _, hl'.others, hqueued,
        fun _ _ => hcandidate⟩
      have hless := references_lower hl' ho
      rw [List.length_nil]
      omega

-- Decrements are applied one after the other, and those that they lead to.
theorem run (hkeeps : L.keeps = false) (fuel : Nat) {d : Decrements σ}
    (ht : Tally L k ext r d.timed.heap d.collector work)
    (hfuel : work.length + references k (live d.timed.heap r) ≤ fuel) :
    ∃ d' r', worklist Counting.decrement fuel work d = .ok d' ∧ Spent r d r' d' ∧
      Tally L k ext r' d'.timed.heap d'.collector [] ∧
      d'.collector.settings = d.collector.settings ∧
      (Tended k d.timed.heap r d.collector → Tended k d'.timed.heap r' d'.collector) := by
  induction fuel generalizing work d r with
  | zero =>
    obtain rfl : work = [] := List.length_eq_zero_iff.mp (by omega)
    exact ⟨d, r, rfl, .refl r rfl, ht, rfl, id⟩
  | succ fuel ih =>
    cases work with
    | nil => exact ⟨d, r, rfl, .refl r rfl, ht, rfl, id⟩
    | cons o rest =>
      obtain ⟨found, d₁, r₁, hstep, hspent₁, ht₁, hless, hset₁, hhandled⟩ := ht.decrement hkeeps
      obtain ⟨d', r', hrest, hspent, ht', hset, htended⟩ := ih ht₁ (by
        simp only [List.length_append, List.length_reverse, List.length_cons] at hfuel ⊢
        omega)
      refine ⟨d', r', ?_, hspent₁.trans hspent, ht', hset.trans hset₁,
        fun hold => htended (hold.handled hhandled)⟩
      rw [worklist, hstep]
      exact hrest

theorem perm (ht : Tally L k ext r h c work) {work' : List Nat} (hp : work.Perm work') :
    Tally L k ext r h c work' :=
  ⟨{ ht.account with
      pending := fun x hx => ht.account.pending x (hp.mem_iff.mpr hx)
      count_eq := fun x hx => by rw [ht.account.count_eq x hx, hp.count_eq] },
    ht.candidates, ht.dead⟩

-- References from outside that are to be taken away.
theorem owe (ht : Tally L k ext r h c []) {ext' : Nat → Nat}
    (hext : ∀ x, ext x = ext' x + work.count x) : Tally L k ext' r h c work :=
  ⟨{ ht.account with
      pending := fun x hx hc => ht.account.anchored x hc (by
        have := List.count_pos_iff.mpr hx
        rw [hext]
        omega)
      anchored := fun x hc hx => ht.account.anchored x hc (by
        rw [hext]
        omega)
      count_eq := fun x hx => by
        have heq := ht.account.count_eq x hx
        rw [List.count_nil, hext] at heq
        omega },
    ht.candidates, ht.dead⟩

-- The time of a collection has no part in the account.
theorem setTimeCap (ht : Tally L k ext r h c work) (cap : Nat) :
    Tally L k ext r h (c.setTimeCap cap) work :=
  ⟨ht.account, { ht.candidates with valid := { ht.candidates.valid with } }, ht.dead⟩

-- Applying decrements never takes a reference away that is not there.
theorem apply (hkeeps : L.keeps = false) {t : Timed σ} (ht : Tally L k ext r t.heap c work) :
    ∃ d r', Counting.apply work c t = .ok d ∧ Parted r r' d.freed ∧
      Tally L k ext r' d.timed.heap d.collector [] ∧ d.collector.settings = c.settings ∧
      (Tended k t.heap r c → Tended k d.timed.heap r' d.collector) := by
  have hfuel : work.reverse.length + references k (live t.heap r) ≤ work.length + extent t.heap := by
    have hextent := L.sum_le_extent ht.account.shows
    have hle : references k (live t.heap r) ≤ ∑ o ∈ r, (k.references o).length :=
      Finset.sum_le_sum_of_subset (Finset.filter_subset _ _)
    rw [List.length_reverse]
    exact Nat.add_le_add_left (hle.trans hextent) _
  obtain ⟨d, r', hrun, ⟨more, hfreed, hparted⟩, hrest⟩ :=
    run hkeeps _ (d := { timed := t, collector := c }) (ht.perm work.reverse_perm.symm) hfuel
  rw [List.append_nil] at hfreed
  exact ⟨d, r', hrun, hfreed ▸ hparted, hrest⟩

end Tally

end Reclaim.Counting
