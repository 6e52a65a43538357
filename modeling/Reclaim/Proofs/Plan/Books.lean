import Reclaim.Proofs.Cycles
import Reclaim.Proofs.Heap.Counted

/-!
The account of a heap between two operations of a plan that counts references: each count is the
number of references that live objects hold and that are held outside of the counted objects.
-/
namespace Reclaim

open CountedHeap Counting Heap Sizes Trial

-- `ext` lists the references from outside, `r` the counted objects.
structure Books (h : Heap) (r : Finset Nat) (ext : List Nat) (c : Collector) : Prop where
  word : ∀ x ∈ r, status h x < Word.bound
  plain : ∀ x ∈ r, color h x ≠ .grey ∧ color h x ≠ .white
  closed : ∀ o ∈ live h r, ∀ x ∈ h.refs o, h.inCountedSpace x = true → x ∈ r
  anchored : ∀ x ∈ ext, h.inCountedSpace x = true → x ∈ r
  count_eq : ∀ x ∈ r, count h x = held (h.census r) (live h r) x + ext.count x
  candidates : Candidates (h.census r) r h c
  dead : ∀ x ∈ r, count h x = 0 → x ∈ c.queued

namespace Books

variable {base h h' : Heap} {l₀ l : Layout} {r : Finset Nat} {ext ext' : List Nat} {c c' : Collector}
variable {k : Census} {o : Nat}

theorem count_congr {x : Nat} (hstatus : status h' x = status h x) : count h' x = count h x := by
  rw [count, hstatus, count]

theorem color_congr {x : Nat} (hstatus : status h' x = status h x) : color h' x = color h x := by
  rw [color, hstatus, color]

theorem isBuffered_congr {x : Nat} (hstatus : status h' x = status h x) :
    isBuffered h' x = isBuffered h x := by
  rw [isBuffered, hstatus, isBuffered]

-- Only the colours of a census matter to the candidates.
theorem candidates_congr {k' : Census} (hc : Candidates k r h c)
    (hgreen : ∀ x ∈ r, k.isGreen x = false → k'.isGreen x = false) : Candidates k' r h c :=
  { hc with mem := fun x hx => ⟨(hc.mem x hx).1, hgreen x (hc.mem x hx).1 (hc.mem x hx).2⟩ }

theorem isGreen_census (h : Heap) (r : Finset Nat) (x : Nat) :
    (h.census r).isGreen x = true ↔ color h x = .green := beq_iff_eq

theorem isGreen_census_eq_false (h : Heap) (r : Finset Nat) (x : Nat) :
    (h.census r).isGreen x = false ↔ color h x ≠ .green := beq_eq_false_iff_ne

theorem shown (hp : base.Populated l₀) (ha : base.Aligned l₀) (ht : Trimmed base l₀ h l)
    (hr : Roll h l r) : Shown base l₀ h (h.census r) r l where
  populated := hp
  aligned := ha
  trimmed := ht
  roll := hr
  references o ho := by
    obtain ⟨kind, bytes, -, hroom⟩ := (hr o).mp ho
    exact (ht.same hp hroom).2
  isCounted := ht.inCountedSpace_eq

-- What a collection works on.
theorem tally (hb : Books h r ext c) (hp : base.Populated l₀) (ha : base.Aligned l₀)
    (ht : Trimmed base l₀ h l) (hr : Roll h l r) :
    Tally (lawful base l₀) (h.census r) (ext.count ·) r h c [] where
  account := {
    shows := ⟨l, shown hp ha ht hr⟩
    word := hb.word
    green_iff := fun x _ => (isGreen_census h r x).symm
    plain := hb.plain
    closed := hb.closed
    pending := nofun
    anchored := fun x hc hx => hb.anchored x (List.count_pos_iff.mp hx) hc
    count_eq := hb.count_eq }
  candidates := hb.candidates
  dead := hb.dead

-- What a collection leaves.
theorem of_tally (ht : Tally (lawful base l₀) k (ext.count ·) r h c []) :
    ∃ l, Shown base l₀ h k r l ∧ Books h r ext c := by
  obtain ⟨l, hs⟩ := ht.account.shows
  have hcounted : ∀ x, h.inCountedSpace x = k.isCounted x := fun x => by
    rw [hs.trimmed.inCountedSpace_eq, hs.isCounted]
  exact ⟨l, hs, {
    word := ht.account.word
    plain := ht.account.plain
    closed := fun o ho x hx hc => by
      rw [hs.refs_eq (mem_live.mp ho).1] at hx
      exact ht.account.closed o ho x hx (hcounted x ▸ hc)
    anchored := fun x hx hc => ht.account.anchored x (hcounted x ▸ hc) (List.count_pos_iff.mpr hx)
    count_eq := fun x hx => by
      rw [ht.account.count_eq x hx, List.count_nil, Nat.add_zero]
      exact congrArg (· + ext.count x) (Finset.sum_congr rfl fun o ho => congrArg _
        (hs.refs_eq (mem_live.mp ho).1).symm)
    candidates := candidates_congr ht.candidates fun x hx hg => by
      rw [isGreen_census_eq_false]
      intro hgreen
      rw [(ht.account.green_iff x hx).mp hgreen] at hg
      cases hg
    dead := ht.dead }⟩

-- Another heap with the same live objects. Where a count changes, so does what is held.
theorem recast (hb : Books h r ext c) (hspace : ∀ x, h'.inCountedSpace x = h.inCountedSpace x)
    (hword : ∀ x ∈ r, status h' x < Word.bound)
    (hplain : ∀ x ∈ r, color h' x ≠ .grey ∧ color h' x ≠ .white)
    (hgreen : ∀ x ∈ r, color h x ≠ .green → color h' x ≠ .green) (hlive : live h' r = live h r)
    (hclosed : ∀ o ∈ live h r, ∀ x ∈ h'.refs o, x ∈ h.refs o ∨ (h.inCountedSpace x = true → x ∈ r))
    (hext : ∀ x ∈ ext', x ∈ ext ∨ (h.inCountedSpace x = true → x ∈ r))
    (hcount : ∀ x ∈ r, count h' x + (held (h.census r) (live h r) x + ext.count x) =
      count h x + (held (h'.census r) (live h r) x + ext'.count x))
    (hcand : Candidates (h.census r) r h' c') (hdead : ∀ x ∈ r, count h' x = 0 → x ∈ c'.queued) :
    Books h' r ext' c' where
  word := hword
  plain := hplain
  closed p hp x hx hc := by
    rw [hlive] at hp
    rw [hspace] at hc
    exact (hclosed p hp x hx).elim (fun hx => hb.closed p hp x hx hc) fun hr => hr hc
  anchored x hx hc := by
    rw [hspace] at hc
    exact (hext x hx).elim (fun hx => hb.anchored x hx hc) fun hr => hr hc
  count_eq x hx := by
    have hold := hb.count_eq x hx
    have hnew := hcount x hx
    rw [hlive]
    omega
  candidates := candidates_congr hcand fun x hx hg => (isGreen_census_eq_false h' r x).mpr
    (hgreen x hx ((isGreen_census_eq_false h r x).mp hg))
  dead := hdead

-- The status words stay as they are, and so does what is held altogether.
theorem congr (hb : Books h r ext c) (hspace : ∀ x, h'.inCountedSpace x = h.inCountedSpace x)
    (hstatus : ∀ x ∈ r, status h' x = status h x)
    (hclosed : ∀ o ∈ live h r, ∀ x ∈ h'.refs o, x ∈ h.refs o ∨ (h.inCountedSpace x = true → x ∈ r))
    (hext : ∀ x ∈ ext', x ∈ ext ∨ (h.inCountedSpace x = true → x ∈ r))
    (hheld : ∀ x ∈ r, held (h'.census r) (live h r) x + ext'.count x =
      held (h.census r) (live h r) x + ext.count x) : Books h' r ext' c := by
  have hcount : ∀ x ∈ r, count h' x = count h x := fun x hx => count_congr (hstatus x hx)
  have hcolor : ∀ x ∈ r, color h' x = color h x := fun x hx => color_congr (hstatus x hx)
  exact hb.recast hspace (fun x hx => hstatus x hx ▸ hb.word x hx)
    (fun x hx => hcolor x hx ▸ hb.plain x hx) (fun x hx hg => hcolor x hx ▸ hg) (live_congr hcount)
    hclosed hext (fun x hx => by rw [hcount x hx, hheld x hx])
    (hb.candidates.congr fun x hx => isBuffered_congr (hstatus x hx))
    fun x hx hz => hb.dead x hx (hcount x hx ▸ hz)

-- The references from outside may be listed in any order.
theorem perm (hb : Books h r ext c) (hp : ext.Perm ext') : Books h r ext' c :=
  hb.congr (fun _ => rfl) (fun _ _ => rfl) (fun _ _ _ hx => Or.inl hx)
    (fun _ hx => Or.inl (hp.mem_iff.mpr hx)) fun x _ => by rw [hp.count_eq]

theorem mem_of_pos (hb : Books h r ext c) {x : Nat} (hx : x ∈ ext)
    (hc : h.inCountedSpace x = true) : x ∈ r ∧ 0 < count h x := by
  have hr := hb.anchored x hx hc
  have hpos := List.count_pos_iff.mpr hx
  have hcount := hb.count_eq x hr
  exact ⟨hr, by omega⟩

-- A status word is replaced by one that stands for the same state but for the count.
theorem setStatus (hb : Books h r ext c) (ho : o ∈ r) (hpos : 0 < count h o) {s : Nat}
    (hself : status h' o = s) (hother : ∀ x ∈ r, x ≠ o → status h' x = status h x)
    (hspace : ∀ x, h'.inCountedSpace x = h.inCountedSpace x)
    (hrefs : ∀ x ∈ r, h'.refs x = h.refs x)
    (hword : s < Word.bound) (hgreen : Status.color s = .green ↔ color h o = .green)
    (hplain : Status.color s ≠ .grey ∧ Status.color s ≠ .white)
    (hbuffered : Status.isBuffered s = isBuffered h o)
    (hcount : ∀ x ∈ r, (if x = o then Status.count s else count h x) + ext.count x =
      count h x + ext'.count x)
    (hpos' : 0 < Status.count s) (hext : ∀ x ∈ ext', x ∈ ext ∨ x = o) : Books h' r ext' c := by
  have hcases : ∀ {P : Nat → Prop}, P o → (∀ x ∈ r, x ≠ o → P x) → ∀ x ∈ r, P x := by
    intro P hself hother x hx
    by_cases hxo : x = o
    · exact hxo ▸ hself
    · exact hother x hx hxo
  have hlive : live h' r = live h r := Finset.filter_congr (hcases
    (by rw [count, hself]; exact iff_of_true hpos' hpos)
    fun x hx hxo => by rw [count_congr (hother x hx hxo)])
  have hheld : ∀ x, held (h'.census r) (live h r) x = held (h.census r) (live h r) x := fun x =>
    Finset.sum_congr rfl fun p hp => congrArg (List.count x) (hrefs p (mem_live.mp hp).1)
  refine hb.recast hspace (hcases (hself ▸ hword) fun x hx hxo => hother x hx hxo ▸ hb.word x hx)
    (hcases (by rwa [color, hself]) fun x hx hxo => color_congr (hother x hx hxo) ▸ hb.plain x hx)
    (hcases (fun hg => by rw [color, hself]; exact mt hgreen.mp hg) fun x hx hxo hg =>
      color_congr (hother x hx hxo) ▸ hg) hlive
    (fun p hp x hx => Or.inl (hrefs p (mem_live.mp hp).1 ▸ hx))
    (fun x hx => (hext x hx).imp_right fun (hxo : x = o) _ => hxo ▸ ho) (fun x hx => ?_)
    (hb.candidates.congr (hcases (by rw [isBuffered, hself, hbuffered]) fun x hx hxo =>
      isBuffered_congr (hother x hx hxo)))
    (hcases (by rw [count, hself]; exact fun hz => absurd hz hpos'.ne') fun x hx hxo hz =>
      hb.dead x hx (count_congr (hother x hx hxo) ▸ hz))
  have hsum := hcount x hx
  rw [hheld]
  split_ifs at hsum with hxo
  · rw [count, hxo, hself]
    rw [hxo] at hsum
    omega
  · rw [count_congr (hother x hx hxo)]
    omega

-- One more reference to an object in use is counted.
theorem retain (hb : Books h r ext c) (ho : o ∈ r) (hpos : 0 < count h o)
    (hmax : count h o + 1 < 2 ^ 56)
    (hs : status h' o = Status.increment (status h o) ∨
      status h' o = Status.setColor (Status.increment (status h o)) .black ∧ color h o ≠ .green)
    (hother : ∀ x ∈ r, x ≠ o → status h' x = status h x)
    (hspace : ∀ x, h'.inCountedSpace x = h.inCountedSpace x)
    (hrefs : ∀ x ∈ r, h'.refs x = h.refs x) : Books h' r (o :: ext) c := by
  have hcount := Status.count_increment hmax
  have hcolor := Status.color_increment
  have hbuffered := Status.isBuffered_increment hmax
  have hword := Status.increment_lt hmax
  generalize hself : status h' o = s at hs
  have hfields : s < Word.bound ∧ (Status.color s = .green ↔ color h o = .green) ∧
      (Status.color s ≠ .grey ∧ Status.color s ≠ .white) ∧
      Status.isBuffered s = isBuffered h o ∧ Status.count s = count h o + 1 := by
    rcases hs with rfl | ⟨rfl, hg⟩
    · exact ⟨hword, by rw [hcolor, color], by rw [hcolor]; exact hb.plain o ho, hbuffered, hcount⟩
    · rw [Status.color_setColor, Status.isBuffered_setColor, Status.count_setColor]
      exact ⟨Status.setColor_lt _ hword, iff_of_false (by decide) hg, by decide, hbuffered, hcount⟩
  obtain ⟨hw, hgreen, hplain, hbuf, hcnt⟩ := hfields
  refine hb.setStatus ho hpos hself hother hspace hrefs hw hgreen hplain hbuf (fun x _ => ?_)
    (by omega) fun x hx => ?_
  · by_cases hxo : x = o
    · rw [if_pos hxo, hcnt, hxo, List.count_cons_self]
      omega
    · rw [if_neg hxo, List.count_cons_of_ne (Ne.symm hxo)]
  · rcases List.mem_cons.mp hx with rfl | hx
    · exact Or.inr rfl
    · exact Or.inl hx

-- A new object holds nothing and is held by whoever has made it.
theorem create (hb : Books h r ext c) (ho : o ∉ r)
    (hspace : ∀ x, h'.inCountedSpace x = h.inCountedSpace x) (hc : h.inCountedSpace o = true)
    (hstatus : ∀ x ∈ r, status h' x = status h x) (hrefs : ∀ x ∈ r, h'.refs x = h.refs x)
    (hword : status h' o < Word.bound) (hplain : color h' o ≠ .grey ∧ color h' o ≠ .white)
    (hbuffered : isBuffered h' o = false) (hcount : count h' o = 1) (hnone : h'.refs o = []) :
    Books h' (insert o r) (o :: ext) c := by
  have hlive : live h' (insert o r) = insert o (live h r) := by
    ext x
    rw [Finset.mem_insert, mem_live, mem_live, Finset.mem_insert]
    by_cases hxo : x = o
    · subst hxo
      simp [hcount]
    · by_cases hx : x ∈ r
      · simp [hxo, hx, count_congr (hstatus x hx)]
      · simp [hxo, hx]
  have hol : o ∉ live h r := fun h' => ho (mem_live.mp h').1
  have hheld : ∀ x, held (h'.census (insert o r)) (insert o (live h r)) x =
      held (h.census r) (live h r) x := by
    intro x
    rw [held, Finset.sum_insert hol]
    refine (congrArg₂ (· + ·) (show ((h'.census (insert o r)).references o).count x = 0 by
      rw [show (h'.census (insert o r)).references o = [] from hnone, List.count_nil]) rfl).trans ?_
    rw [Nat.zero_add]
    exact Finset.sum_congr rfl fun p hp => congrArg (List.count x) (hrefs p (mem_live.mp hp).1)
  have hcases : ∀ {P : Nat → Prop}, P o → (∀ x ∈ r, P x) → ∀ x ∈ insert o r, P x := by
    intro P h1 h2 x hx
    rcases Finset.mem_insert.mp hx with rfl | hx
    · exact h1
    · exact h2 x hx
  have hcand := hb.candidates
  exact {
    word := hcases hword fun x hx => hstatus x hx ▸ hb.word x hx
    plain := hcases hplain fun x hx => color_congr (hstatus x hx) ▸ hb.plain x hx
    closed := fun p hp x hx hcx => by
      rw [hlive, Finset.mem_insert] at hp
      rcases hp with rfl | hp
      · rw [hnone] at hx
        exact absurd hx List.not_mem_nil
      · rw [hrefs p (mem_live.mp hp).1] at hx
        rw [hspace] at hcx
        exact Finset.mem_insert_of_mem (hb.closed p hp x hx hcx)
    anchored := fun x hx hcx => by
      rcases List.mem_cons.mp hx with rfl | hx
      · exact Finset.mem_insert_self _ _
      · rw [hspace] at hcx
        exact Finset.mem_insert_of_mem (hb.anchored x hx hcx)
    count_eq := by
      rw [hlive]
      refine hcases ?_ fun x hx => ?_
      · have hzero : held (h.census r) (live h r) o = 0 := Finset.sum_eq_zero fun p hp =>
          List.count_eq_zero.mpr fun hmem => ho (hb.closed p hp o hmem hc)
        rw [hheld, hzero, hcount, List.count_cons_self,
          List.count_eq_zero.mpr fun hmem => ho (hb.anchored o hmem hc)]
      · have hne : o ≠ x := fun heq => ho (heq ▸ hx)
        rw [hheld, count_congr (hstatus x hx), hb.count_eq x hx, List.count_cons_of_ne hne]
    candidates := { hcand with
      mem := fun x hx => by
        obtain ⟨hx, hg⟩ := hcand.mem x hx
        rw [isGreen_census_eq_false] at hg ⊢
        exact ⟨Finset.mem_insert_of_mem hx, by rwa [color_congr (hstatus x hx)]⟩
      flagged := hcases (by
        rw [hbuffered]
        exact ⟨nofun, fun hq => absurd (hcand.mem o hq).1 ho⟩) fun x hx => by
          rw [isBuffered_congr (hstatus x hx)]
          exact hcand.flagged x hx }
    dead := hcases (by omega) fun x hx hz => by
      rw [count_congr (hstatus x hx)] at hz
      exact hb.dead x hx hz }

-- An object that waits in no queue yet is queued.
theorem enqueue (hb : Books h r ext c) (ho : o ∈ r) (hg : color h o ≠ .green)
    (hbuf : isBuffered h o = false)
    (hrefs : ∀ x ∈ r, refs (setBuffered h o) x = h.refs x) :
    Books (setBuffered h o) r ext { c with unfiltered := c.unfiltered.insert o } := by
  have hself : status (setBuffered h o) o = Status.setBuffered (status h o) :=
    Memory.read_write_self _ _ _
  have hother : ∀ x, x ≠ o → status (setBuffered h o) x = status h x := fun x hx =>
    Memory.read_write_of_ne hx _
  have hcount : ∀ x, count (setBuffered h o) x = count h x := by
    intro x
    by_cases hxo : x = o
    · rw [hxo, count, hself, Status.count_setBuffered, count]
    · exact count_congr (hother x hxo)
  have hcolor : ∀ x, color (setBuffered h o) x = color h x := by
    intro x
    by_cases hxo : x = o
    · rw [hxo, color, hself, Status.color_setBuffered, color]
    · exact color_congr (hother x hxo)
  have hq : o ∉ c.queued := fun hq => by
    rw [(hb.candidates.flagged o ho).mpr hq] at hbuf
    cases hbuf
  have hflag : ∀ x ∈ r, isBuffered (setBuffered h o) x =
      if x = o then true else isBuffered h x := by
    intro x _
    split_ifs with hxo
    · rw [hxo, isBuffered, hself, Status.isBuffered_setBuffered]
    · exact isBuffered_congr (hother x hxo)
  obtain ⟨hc, hmem⟩ := hb.candidates.insert ho ((isGreen_census_eq_false h r o).mpr hg) hq _ hflag
  refine hb.recast (fun _ => rfl) (fun x hx => ?_) (fun x hx => hcolor x ▸ hb.plain x hx)
    (fun x _ hgx => hcolor x ▸ hgx) (live_congr fun x _ => hcount x)
    (fun p hp x hx => Or.inl (hrefs p (mem_live.mp hp).1 ▸ hx)) (fun _ hx => Or.inl hx)
    (fun x _ => ?_) hc fun x hx hz => (hmem x).mpr (Or.inr (hb.dead x hx (hcount x ▸ hz)))
  · by_cases hxo : x = o
    · rw [hxo, hself]
      exact Status.setBuffered_lt (hb.word o ho)
    · exact hother x hxo ▸ hb.word x hx
  · have hheld : held ((setBuffered h o).census r) (live h r) x =
        held (h.census r) (live h r) x := Finset.sum_congr rfl fun p hp =>
      congrArg (List.count x) (hrefs p (mem_live.mp hp).1)
    rw [hcount, hheld]

-- An object in use becomes a candidate.
theorem nominate (hb : Books h r ext c) (ho : o ∈ r) (hpos : 0 < count h o)
    (hg : color h o ≠ .green)
    (hrefs : ∀ h', h'.types = h.types → (∀ a, a ≠ o → h'.memory.read a = h.memory.read a) →
      ∀ x ∈ r, refs h' x = h.refs x) :
    Books (c.nominate h o).2.2 r ext (c.nominate h o).2.1 := by
  have hself : status (setColor h o .purple) o = Status.setColor (status h o) .purple :=
    Memory.read_write_self _ _ _
  have hpurple := hb.setStatus ho hpos hself
    (fun x _ hx => Memory.read_write_of_ne hx _) (fun _ => rfl)
    (hrefs _ rfl fun a ha => Memory.read_write_of_ne ha _)
    (Status.setColor_lt _ (hb.word o ho)) (by rw [Status.color_setColor]; exact iff_of_false nofun hg)
    (by rw [Status.color_setColor]; exact ⟨nofun, nofun⟩) (Status.isBuffered_setColor _ _)
    (fun x _ => by
      rw [Status.count_setColor]
      split_ifs with hxo
      · rw [hxo, count]
      · rfl)
    (by rw [Status.count_setColor]; exact hpos) fun x hx => Or.inl hx
  simp only [Collector.nominate]
  split_ifs with hbuf
  · exact hpurple
  · refine hpurple.enqueue ho ?_ (Bool.eq_false_iff.mpr hbuf) fun x hx => ?_
    · rw [color, hself, Status.color_setColor]
      nofun
    · have hone := hrefs (setColor h o .purple) rfl (fun a ha => Memory.read_write_of_ne ha _) x hx
      have htwo := hrefs (setBuffered (setColor h o .purple) o) rfl (fun a ha =>
        (Memory.read_write_of_ne ha _).trans (Memory.read_write_of_ne ha _)) x hx
      exact htwo.trans hone.symm

end Books

end Reclaim
