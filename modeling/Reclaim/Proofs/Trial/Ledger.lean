import Reclaim.Proofs.Status
import Reclaim.Proofs.Trial.Census

/-!
Heaps that keep what they show of a census, and the account of counts that trial deletion keeps: a
count that is missing was taken off for a grey or white object, or belonged to an object that is
gone.
-/
namespace Reclaim

namespace CountedHeap

variable {σ : Type} [CountedHeap σ]

def count (h : σ) (o : Nat) : Nat := Status.count (status h o)

theorem isLive_iff (h : σ) (o : Nat) : isLive h o = true ↔ 0 < count h o := Status.isLive_iff _

theorem isLive_eq_false_iff (h : σ) (o : Nat) : isLive h o = false ↔ count h o = 0 := by
  have hl := isLive_iff h o
  cases hv : isLive h o with
  | false =>
    simp only [hv, Bool.false_eq_true, false_iff] at hl
    simp only [true_iff]
    omega
  | true =>
    have hp := hl.mp hv
    simp only [Bool.true_eq_false, false_iff]
    omega

end CountedHeap

namespace Trial

open CountedHeap

-- What the collector relies on: as long as a heap shows some objects of a census, their references
-- are those of the census, and their status words change only when they are set.
structure Lawful (σ : Type) [CountedHeap σ] where
  -- Whether an object stays where it is when it is freed.
  keeps : Bool
  Shows : σ → Census → Finset Nat → Prop
  references_eq : ∀ {h k r o}, Shows h k r → o ∈ r → references h o = .ok (k.references o)
  isCounted_eq : ∀ {h k r o c}, Shows h k r → o ∈ r → c ∈ k.references o →
    CountedHeap.isCounted h c = .ok (k.isCounted c)
  isCounted_self : ∀ {h k r o}, Shows h k r → o ∈ r → CountedHeap.isCounted h o = .ok true
  isCounted_false : ∀ {h k r c}, Shows h k r → k.isCounted c = false →
    CountedHeap.isCounted h c = .ok false
  status_setStatus : ∀ {h k r o x}, Shows h k r → o ∈ r → x ∈ r → ∀ s,
    status (setStatus h o s) x = if x = o then s else status h x
  shows_setStatus : ∀ {h k r o}, Shows h k r → o ∈ r → ∀ s, Shows (setStatus h o s) k r
  recount : ∀ {h k r}, Shows h k r → ∀ objects count, Shows h { k with objects, count } r
  free_ok : ∀ {h k r o}, Shows h k r → o ∈ r → ∃ h', free h o = .ok h' ∧
    Shows h' k (if keeps then r else r.erase o) ∧
    ∀ x ∈ (if keeps then r else r.erase o), status h' x = status h x
  sum_le_extent : ∀ {h k r}, Shows h k r → ∑ o ∈ r, (k.references o).length ≤ extent h

namespace Lawful

variable {σ : Type} [CountedHeap σ] (L : Lawful σ)
variable {h : σ} {k : Census} {r : Finset Nat} {o x : Nat}

theorem shows_setColor (hs : L.Shows h k r) (ho : o ∈ r) (c : Color) :
    L.Shows (setColor h o c) k r := L.shows_setStatus hs ho _

theorem shows_clearBuffered (hs : L.Shows h k r) (ho : o ∈ r) :
    L.Shows (clearBuffered h o) k r := L.shows_setStatus hs ho _

section SetStatus

variable (hs : L.Shows h k r) (ho : o ∈ r) (hx : x ∈ r)
include hs ho hx

theorem color_setColor (c : Color) :
    color (setColor h o c) x = if x = o then c else color h x := by
  simp only [color, setColor, L.status_setStatus hs ho hx]
  split <;> simp

theorem count_setColor (c : Color) : count (setColor h o c) x = count h x := by
  simp only [count, setColor, L.status_setStatus hs ho hx]
  split <;> simp_all

theorem isBuffered_setColor (c : Color) : isBuffered (setColor h o c) x = isBuffered h x := by
  simp only [isBuffered, setColor, L.status_setStatus hs ho hx]
  split <;> simp_all

theorem color_clearBuffered : color (clearBuffered h o) x = color h x := by
  simp only [color, clearBuffered, L.status_setStatus hs ho hx]
  split <;> simp_all

theorem count_clearBuffered : count (clearBuffered h o) x = count h x := by
  simp only [count, clearBuffered, L.status_setStatus hs ho hx]
  split <;> simp_all

theorem isBuffered_clearBuffered :
    isBuffered (clearBuffered h o) x = if x = o then false else isBuffered h x := by
  simp only [isBuffered, clearBuffered, L.status_setStatus hs ho hx]
  split <;> simp

theorem status_setColor_lt (c : Color) (hw : status h x < Word.bound) :
    status (setColor h o c) x < Word.bound := by
  simp only [setColor, L.status_setStatus hs ho hx]
  split
  · rename_i hxo
    exact Status.setColor_lt c (hxo ▸ hw)
  · exact hw

theorem status_clearBuffered_lt (hw : status h x < Word.bound) :
    status (clearBuffered h o) x < Word.bound := by
  simp only [clearBuffered, L.status_setStatus hs ho hx]
  split
  · rename_i hxo
    exact (Status.clearBuffered_le _).trans_lt (hxo ▸ hw)
  · exact hw

end SetStatus

end Lawful

variable {σ : Type} [CountedHeap σ]

-- The grey and white objects among `r`.
def tinted (h : σ) (r : Finset Nat) : Finset Nat := r.filter fun o => isGreyOrWhite h o = true

theorem isGreyOrWhite_iff (h : σ) (o : Nat) :
    isGreyOrWhite h o = true ↔ color h o = .grey ∨ color h o = .white := by
  simp [isGreyOrWhite]

theorem mem_tinted {h : σ} {r : Finset Nat} {o : Nat} :
    o ∈ tinted h r ↔ o ∈ r ∧ (color h o = .grey ∨ color h o = .white) := by
  simp [tinted, isGreyOrWhite_iff]

theorem tinted_congr {h h' : σ} {r : Finset Nat} (hc : ∀ x ∈ r, color h' x = color h x) :
    tinted h' r = tinted h r := by
  ext x
  simp only [mem_tinted]
  constructor
  · rintro ⟨hx, ht⟩
    exact ⟨hx, hc x hx ▸ ht⟩
  · rintro ⟨hx, ht⟩
    exact ⟨hx, (hc x hx).symm ▸ ht⟩

theorem filter_setColor (L : Lawful σ) {h : σ} {k : Census} {r : Finset Nat} {o : Nat}
    (hs : L.Shows h k r) (ho : o ∈ r) (c : Color) (p : Color → Prop) [DecidablePred p] :
    (r.filter fun x => p (color (setColor h o c) x)) =
      if p c then insert o (r.filter fun x => p (color h x))
      else (r.filter fun x => p (color h x)).erase o := by
  ext x
  by_cases hx : x ∈ r
  · obtain rfl | hxo := eq_or_ne x o
    · split <;> simp [L.color_setColor hs hx hx, *]
    · split <;> simp [hx, hxo, L.color_setColor hs ho hx]
  · have hxo : x ≠ o := fun he => hx (he ▸ ho)
    split <;> simp [hx, hxo]

theorem tinted_eq_filter (h : σ) (r : Finset Nat) :
    tinted h r = r.filter fun x => color h x = .grey ∨ color h x = .white := by
  ext x
  rw [mem_tinted, Finset.mem_filter]

theorem tinted_setColor_tint (L : Lawful σ) {h : σ} {k : Census} {r : Finset Nat} {o : Nat}
    (hs : L.Shows h k r) (ho : o ∈ r) {c : Color} (hc : c = .grey ∨ c = .white) :
    tinted (setColor h o c) r = insert o (tinted h r) := by
  rw [tinted_eq_filter, tinted_eq_filter,
    filter_setColor L hs ho c fun d => d = .grey ∨ d = .white, if_pos hc]

theorem tinted_setColor_plain (L : Lawful σ) {h : σ} {k : Census} {r : Finset Nat} {o : Nat}
    (hs : L.Shows h k r) (ho : o ∈ r) {c : Color} (hg : c ≠ .grey) (hw : c ≠ .white) :
    tinted (setColor h o c) r = (tinted h r).erase o := by
  rw [tinted_eq_filter, tinted_eq_filter,
    filter_setColor L hs ho c fun d => d = .grey ∨ d = .white, if_neg (not_or.mpr ⟨hg, hw⟩)]

-- The account in the course of an increment. The heap still holds the objects `r`; those of `gone`
-- were found to be garbage.
structure Ledger (L : Lawful σ) (k : Census) (h : σ) (r gone : Finset Nat) : Prop where
  shows : L.Shows h k r
  subset : r ⊆ k.objects
  kept : ∀ x ∈ k.objects, x ∈ r ∨ x ∈ gone ∨ (k.count x = 0 ∧ k.isGreen x = false)
  word : ∀ x ∈ r, status h x < Word.bound
  green_iff : ∀ x ∈ r, color h x = .green ↔ k.isGreen x = true
  gone_live : gone ⊆ k.live
  tinted_live : tinted h r ⊆ k.live
  disjoint : Disjoint (tinted h r) gone
  count_eq : ∀ x ∈ r, count h x + k.held (tinted h r) x + k.held gone x = k.count x

namespace Ledger

variable {L : Lawful σ} {k : Census} {h : σ} {r gone : Finset Nat}

theorem mem_of_live (hl : Ledger L k h r gone) {x : Nat} (hx : x ∈ k.live) (hg : x ∉ gone) :
    x ∈ r := by
  obtain ⟨hobj, -, hpos⟩ := Census.mem_live.mp hx
  rcases hl.kept x hobj with hr | hz | hz
  · exact hr
  · exact absurd hz hg
  · omega

theorem mem_live_of_count_pos (hl : Ledger L k h r gone) {x : Nat} (hx : x ∈ r)
    (hg : k.isGreen x = false) (hp : 0 < count h x) : x ∈ k.live := by
  have he := hl.count_eq x hx
  exact Census.mem_live.mpr ⟨hl.subset hx, hg, by omega⟩

theorem not_mem_gone_of_count_pos (hl : Ledger L k h r gone) (hgar : k.Garbage gone) {x : Nat}
    (hx : x ∈ r) (hp : 0 < count h x) : x ∉ gone := by
  intro hz
  have he := hl.count_eq x hx
  have hle := hgar x hz
  omega

-- Followed references of objects that are still there lead to objects that are still there.
theorem traced_mem (hl : Ledger L k h r gone) (hk : k.Consistent) (hgar : k.Garbage gone)
    {o c : Nat} (ho : o ∈ k.live) (hog : o ∉ gone) (hc : c ∈ k.traced o) :
    c ∈ k.live ∧ c ∉ gone ∧ c ∈ r := by
  have hlive := hk.mem_live_of_traced ho hc
  have hout := hk.not_mem_of_traced hl.gone_live hgar ho hog hc
  exact ⟨hlive, hout, hl.mem_of_live hlive hout⟩

theorem tinted_subset : tinted h r ⊆ r := Finset.filter_subset _ _

theorem child_mem (hl : Ledger L k h r gone) (hk : k.Consistent) (hgar : k.Garbage gone)
    {o c : Nat} (ho : o ∈ k.live) (hog : o ∉ gone) (hc : c ∈ k.references o)
    (hcount : k.isCounted c = true) : c ∈ r := by
  cases hgreen : k.isGreen c with
  | false => exact (hl.traced_mem hk hgar ho hog (Census.mem_traced.mpr ⟨hc, hcount, hgreen⟩)).2.2
  | true =>
    rcases hl.kept c (hk.closed o ho c hc hcount) with hr | hz | hz
    · exact hr
    · have hn := (Census.mem_live.mp (hl.gone_live hz)).2.1
      simp [hn] at hgreen
    · simp [hz.2] at hgreen

-- A change that moves counts between the objects and the account.
theorem rebalance (hl : Ledger L k h r gone) {h' : σ} (hs : L.Shows h' k r)
    (hw : ∀ x ∈ r, status h' x < Word.bound) (hg : ∀ x ∈ r, color h' x = .green ↔ color h x = .green)
    (hlive : tinted h' r ⊆ k.live) (hdisjoint : Disjoint (tinted h' r) gone)
    (hc : ∀ x ∈ r, count h' x + k.held (tinted h' r) x = count h x + k.held (tinted h r) x) :
    Ledger L k h' r gone where
  shows := hs
  subset := hl.subset
  kept := hl.kept
  word := hw
  green_iff x hx := (hg x hx).trans (hl.green_iff x hx)
  gone_live := hl.gone_live
  tinted_live := hlive
  disjoint := hdisjoint
  count_eq x hx := by rw [hc x hx]; exact hl.count_eq x hx

-- A change that is none to the account.
theorem congr (hl : Ledger L k h r gone) {h' : σ} (hs : L.Shows h' k r)
    (hw : ∀ x ∈ r, status h' x < Word.bound)
    (hg : ∀ x ∈ r, color h' x = .green ↔ color h x = .green)
    (ht : tinted h' r = tinted h r) (hc : ∀ x ∈ r, count h' x = count h x) :
    Ledger L k h' r gone :=
  hl.rebalance hs hw hg (ht ▸ hl.tinted_live) (ht ▸ hl.disjoint) fun x hx => by rw [ht, hc x hx]

-- A colour is none of the account's business, as long as no object turns grey or white or is so no more.
theorem recolor (hl : Ledger L k h r gone) {o : Nat} (ho : o ∈ r) {c : Color}
    (ht : tinted (setColor h o c) r = tinted h r) (hgreen : c = .green ↔ color h o = .green) :
    Ledger L k (setColor h o c) r gone := by
  apply hl.congr (L.shows_setColor hl.shows ho c)
  · intro x hx
    exact L.status_setColor_lt hl.shows ho hx c (hl.word x hx)
  · intro x hx
    rw [L.color_setColor hl.shows ho hx]
    split
    · rename_i hxo
      rw [hxo]
      exact hgreen
    · rfl
  · exact ht
  · intro x hx
    exact L.count_setColor hl.shows ho hx c

theorem clearBuffered (hl : Ledger L k h r gone) {o : Nat} (ho : o ∈ r) :
    Ledger L k (clearBuffered h o) r gone := by
  apply hl.congr (L.shows_clearBuffered hl.shows ho)
  · intro x hx
    exact L.status_clearBuffered_lt hl.shows ho hx (hl.word x hx)
  · intro x hx
    rw [L.color_clearBuffered hl.shows ho hx]
  · exact tinted_congr fun x hx => L.color_clearBuffered hl.shows ho hx
  · intro x hx
    exact L.count_clearBuffered hl.shows ho hx

end Ledger

-- One object has turned to a colour; counts aside, nothing else has changed.
structure Turned (r : Finset Nat) (c : Color) (o : Nat) (t t' : Timed σ) : Prop where
  time_eq : t'.clock.time = t.clock.time
  color_self : color t'.heap o = c
  color_ne : ∀ x ∈ r, x ≠ o → color t'.heap x = color t.heap x
  buffered : ∀ x ∈ r, isBuffered t'.heap x = isBuffered t.heap x

theorem turned_of_setColor {L : Lawful σ} {k : Census} {r : Finset Nat} {o : Nat} {c : Color}
    {t t' : Timed σ} (hs : L.Shows t.heap k r) (ho : o ∈ r) (htime : t'.clock.time = t.clock.time)
    (hcolor : ∀ x ∈ r, color t'.heap x = color (setColor t.heap o c) x)
    (hbuffered : ∀ x ∈ r, isBuffered t'.heap x = isBuffered (setColor t.heap o c) x) :
    Turned r c o t t' where
  time_eq := htime
  color_self := by rw [hcolor o ho, L.color_setColor hs ho ho, if_pos rfl]
  color_ne x hx hxo := by rw [hcolor x hx, L.color_setColor hs ho hx, if_neg hxo]
  buffered x hx := by rw [hbuffered x hx, L.isBuffered_setColor hs ho hx]

-- An object that is not green stays so with any other colour.
theorem green_iff_setColor {L : Lawful σ} {k : Census} {h : σ} {r : Finset Nat} {o : Nat} {c : Color}
    (hs : L.Shows h k r) (hgreen : ∀ x ∈ r, color h x = .green ↔ k.isGreen x = true) (ho : o ∈ r)
    (hong : k.isGreen o = false) (hc : c ≠ .green) :
    ∀ x ∈ r, color (setColor h o c) x = .green ↔ k.isGreen x = true := by
  intro x hx
  rw [L.color_setColor hs ho hx]
  split
  · rename_i hxo
    simp [hxo, hong, hc]
  · exact hgreen x hx

end Trial

end Reclaim
