import Reclaim.Proofs.Plan.Mutations

/-!
Writing a reference. The new reference is counted before it is written; the one that it replaces stays
counted until its decrement is applied, so the account is balanced at every moment.
-/
namespace Reclaim

open CountedHeap Counting Heap Queue Sizes

variable {p p' : Plan} {m m' : Mutator} {rest mutators : List Mutator} {counts : CountState}
variable {l : Layout} {r : Finset Nat} {hand : List Nat} {known : Set Nat} {kind : SpaceKind}
variable {h h' : Heap}
variable {o bytes slot u w : Nat} {ext : List Nat} {c : Trial.Collector}

namespace Heap

theorem Sound.nodup_immortals (hs : h.Sound l) : l.immortals.Nodup := by
  rw [Layout.immortals, List.nodup_iff_pairwise_ne, List.pairwise_map]
  refine hs.immortal.rooms_apart.imp_of_mem fun {a b} ha hb hab => ?_
  have h1 := (hs.immortal.aligned a ha).2.2
  have h2 := (hs.immortal.aligned b hb).2.2
  omega

-- The null word is no reference.
theorem Sound.ne_zero_of_counted (hs : h.Sound l) {x : Nat} (hx : h.inCountedSpace x = true) :
    x ≠ 0 := by
  rintro rfl
  rw [inCountedSpace_eq, Option.any_eq_true] at hx
  obtain ⟨kind, hk, -⟩ := hx
  obtain ⟨s, hspace, hin⟩ := contains_of_spaceOf? hk
  have h1 := hs.start_pos hspace
  rw [Space.contains_iff] at hin
  omega

-- The reference in a word, if it counts.
def countedRef (h : Heap) (w : Nat) : List Nat := if h.inCountedSpace w then [w] else []

theorem count_countedRef {x : Nat} (hx : h.inCountedSpace x = true) (w : Nat) :
    (h.countedRef w).count x = if w = x then 1 else 0 := by
  unfold countedRef
  split_ifs with h1 h2 h2
  · rw [h2, List.count_singleton_self]
  · exact List.count_eq_zero.mpr fun hmem => h2 (List.mem_singleton.mp hmem).symm
  · exact absurd (h2 ▸ hx) h1
  · rfl

theorem mem_countedRef {x : Nat} : x ∈ h.countedRef w ↔ x = w ∧ h.inCountedSpace x = true := by
  unfold countedRef
  split_ifs with hc
  · exact ⟨fun hx => by rw [List.mem_singleton.mp hx]; exact ⟨rfl, hc⟩, fun hx => by simp [hx.1]⟩
  · exact ⟨fun hx => absurd hx List.not_mem_nil, fun hx => absurd (hx.1 ▸ hx.2) hc⟩

-- One slot of the object `o` refers to `w` where it referred to `u`.
structure Rewritten (h : Heap) (l : Layout) (o u w : Nat) (h' : Heap) : Prop where
  populated : h'.Populated l
  room_iff : ∀ kind x bytes, Room h' l kind x bytes ↔ Room h l kind x bytes
  spaceOf?_eq : ∀ a, h'.spaceOf? a = h.spaceOf? a
  status_eq : ∀ kind x bytes, Room h l kind x bytes → status h' x = status h x
  refs_eq : ∀ kind x bytes, Room h l kind x bytes → x ≠ o → h'.refs x = h.refs x
  old_mem : h.inCountedSpace u = true → u ∈ h.refs o
  added : ∀ y ∈ h'.refs o, y ∈ h.refs o ∨ y = w
  lost : ∀ y ∈ h.refs o, h.inCountedSpace y = true → y ∈ h'.refs o ∨ y = u
  count_eq : ∀ x, h.inCountedSpace x = true → (h'.refs o).count x + (h.countedRef u).count x =
    (h.refs o).count x + (h.countedRef w).count x
  frame : ∀ a, h.spaceOf? a = none → h'.memory.read a = h.memory.read a

theorem Populated.writeSlot (hp : h.Populated l) (hroom : Room h l kind o bytes)
    (hslot : slot ∈ Object.slotsOf h.types h.memory o) (w : Nat) :
    Rewritten h l o (h.memory.read slot) w { h with memory := h.memory.write slot w } := by
  have hformed := hp.formed _ _ _ hroom
  obtain ⟨hformed', -, hcount⟩ := hformed.write_slot hslot w
  obtain ⟨-, hslot1, hslot2⟩ := hformed.slot_mem hslot
  simp only [Types.scalarHeaderBytes, wordBytes] at hslot1 hslot2
  obtain ⟨hp', hrooms, hother⟩ := hp.write hroom (by omega) (by omega) hformed'
  exact {
    populated := hp'
    room_iff := hrooms
    spaceOf?_eq := fun _ => rfl
    status_eq := fun kind' x bytes' hr => by
      by_cases hxo : x = o
      · subst hxo
        exact Memory.read_write_of_ne (by omega) _
      · exact (hother _ _ _ hr hxo).2
    refs_eq := fun kind' x bytes' hr hne => (hother _ _ _ hr hne).1
    old_mem := fun hc => List.mem_filter.mpr ⟨List.mem_map_of_mem hslot,
      bne_iff_ne.mpr (hp.sound.ne_zero_of_counted hc)⟩
    added := fun y hy => by
      have hy0 : y ≠ 0 := bne_iff_ne.mp (List.mem_filter.mp hy).2
      have hpos : 0 < (Object.refs h.types (h.memory.write slot w) o).count y :=
        List.count_pos_iff.mpr hy
      have hy' := hcount y hy0
      by_cases hwy : w = y
      · exact Or.inr hwy.symm
      · rw [if_neg hwy] at hy'
        have hpos' : 0 < (Object.refs h.types h.memory o).count y := by omega
        exact Or.inl (List.count_pos_iff.mp hpos')
    lost := fun y hy hc => by
      have hpos : 0 < (Object.refs h.types h.memory o).count y := List.count_pos_iff.mpr hy
      have hy' := hcount y (hp.sound.ne_zero_of_counted hc)
      by_cases huy : h.memory.read slot = y
      · exact Or.inr huy.symm
      · rw [if_neg huy] at hy'
        have hpos' : 0 < (Object.refs h.types (h.memory.write slot w) o).count y := by omega
        exact Or.inl (List.count_pos_iff.mp hpos')
    count_eq := fun x hx => by
      rw [count_countedRef hx, count_countedRef hx]
      exact hcount x (hp.sound.ne_zero_of_counted hx)
    frame := fun a ha => Memory.read_write_of_ne (fun heq => by
      rw [heq, hp.sound.spaceOf?_room hroom (by omega) (by omega)] at ha
      cases ha) _ }

theorem Rewritten.inCountedSpace_eq (hw : Rewritten h l o u w h') (x : Nat) :
    h'.inCountedSpace x = h.inCountedSpace x := inCountedSpace_congr hw.spaceOf?_eq x

end Heap

-- What the live objects hold, with `o` rewritten.
theorem held_rewrite {s : Finset Nat} {x : Nat} (ho : o ∈ s)
    (hrefs : ∀ y ∈ s, y ≠ o → h'.refs y = h.refs y) :
    held (h'.census r) s x + (h.refs o).count x = held (h.census r) s x + (h'.refs o).count x := by
  have hrest : held (h'.census r) (s.erase o) x = held (h.census r) (s.erase o) x :=
    Finset.sum_congr rfl fun y hy =>
      congrArg (List.count x) (hrefs y (Finset.mem_of_mem_erase hy) (Finset.ne_of_mem_erase hy))
  have h1 := held_erase (k := h'.census r) ho x
  have h2 := held_erase (k := h.census r) ho x
  change _ + (h'.refs o).count x = _ at h1
  change _ + (h.refs o).count x = _ at h2
  omega

-- What a list of objects refers to, with one of them rewritten.
theorem count_flatMap_rewrite {objects : List Nat} {x : Nat} (hn : objects.Nodup) (ho : o ∈ objects)
    (hrefs : ∀ y ∈ objects, y ≠ o → h'.refs y = h.refs y) :
    (objects.flatMap h'.refs).count x + (h.refs o).count x =
      (objects.flatMap h.refs).count x + (h'.refs o).count x := by
  obtain ⟨before, after, rfl⟩ := List.append_of_mem ho
  rw [List.nodup_middle, List.nodup_cons] at hn
  have hne : ∀ y ∈ before ++ after, y ≠ o := fun y hy heq => hn.1 (heq ▸ hy)
  have hbefore : before.flatMap h'.refs = before.flatMap h.refs := List.flatMap_congr fun y hy =>
    hrefs y (List.mem_append_left _ hy) (hne y (List.mem_append_left _ hy))
  have hafter : after.flatMap h'.refs = after.flatMap h.refs := List.flatMap_congr fun y hy =>
    hrefs y (List.mem_append_right _ (List.mem_cons_of_mem _ hy))
      (hne y (List.mem_append_right _ hy))
  simp only [List.flatMap_append, List.flatMap_cons, List.count_append, hbefore, hafter]
  omega

namespace Standing

theorem counted_of_mem (hs : Standing p mutators counts l r hand known) {x : Nat} (hx : x ∈ r) :
    p.heap.inCountedSpace x = true := by
  obtain ⟨kind, bytes, hk, hr⟩ := hs.room_of_mem hx
  rw [hs.populated.sound.inCountedSpace_room hr, hk]

theorem not_mem_of_immortal (hs : Standing p mutators counts l r hand known) {x : Nat}
    (hx : x ∈ l.immortals) : x ∉ r := by
  intro hr
  obtain ⟨bytes, hroom⟩ := (mem_immortals (p := p)).mp hx
  have := hs.counted_of_mem hr
  rw [hs.populated.sound.inCountedSpace_room hroom] at this
  cases this

theorem mem_of_known (hs : Standing p mutators counts l r hand known) {x : Nat}
    (hx : x = 0 ∨ x ∈ known) (hc : p.heap.inCountedSpace x = true) :
    x ∈ r := by
  rcases hx with rfl | hx
  · exact absurd rfl (hs.populated.sound.ne_zero_of_counted hc)
  · rcases hs.of_known hx with h1 | h1
    · exact h1.1
    · rw [hc] at h1
      cases h1.2

section Rewrite

variable (hs : Standing p mutators counts l r (p.heap.countedRef w) known)
  (hrw : Rewritten p.heap l o u w h')
include hs hrw

theorem refs_eq_of_mem {x : Nat} (hx : x ∈ r) (hne : x ≠ o) : h'.refs x = p.heap.refs x := by
  obtain ⟨kind, bytes, -, hr⟩ := hs.room_of_mem hx
  exact hrw.refs_eq _ _ _ hr hne

theorem status_eq_of_mem {x : Nat} (hx : x ∈ r) : status h' x = status p.heap x := by
  obtain ⟨kind, bytes, -, hr⟩ := hs.room_of_mem hx
  exact hrw.status_eq _ _ _ hr

omit hs in
theorem refs_eq_of_immortal {x : Nat} (hx : x ∈ l.immortals) (hne : x ≠ o) :
    h'.refs x = p.heap.refs x := by
  obtain ⟨bytes, hr⟩ := (mem_immortals (p := p)).mp hx
  exact hrw.refs_eq _ _ _ hr hne

-- The references from outside and those that live objects hold change by as much as the hand does.
theorem total_rewrite (ho : o ∈ known) {x : Nat} (hx : x ∈ r) :
    held (h'.census r) (live p.heap r) x +
        (p.heap.countedRef u ++ outside h' l.immortals counts mutators).count x =
      held (p.heap.census r) (live p.heap r) x +
        (p.heap.countedRef w ++ outside p.heap l.immortals counts mutators).count x := by
  have hcount := hrw.count_eq x (hs.counted_of_mem hx)
  rcases hs.of_known ho with ⟨hr, hpos, -⟩ | ⟨hi, -⟩
  · have houtside : outside h' l.immortals counts mutators =
        outside p.heap l.immortals counts mutators := outside_congr fun y hy =>
      refs_eq_of_immortal hrw hy fun hyo => hs.not_mem_of_immortal hy (hyo ▸ hr)
    have hheld := held_rewrite (r := r) (x := x) (mem_live.mpr ⟨hr, hpos⟩) fun y hy hyo =>
      hs.refs_eq_of_mem hrw (mem_live.mp hy).1 hyo
    rw [houtside, List.count_append, List.count_append]
    omega
  · have hheld : held (h'.census r) (live p.heap r) x = held (p.heap.census r) (live p.heap r) x :=
      Finset.sum_congr rfl fun y hy => congrArg (List.count x) (hs.refs_eq_of_mem hrw
        (mem_live.mp hy).1 fun hyo => hs.not_mem_of_immortal hi (hyo ▸ (mem_live.mp hy).1))
    have hflat := count_flatMap_rewrite (x := x) hs.populated.sound.nodup_immortals hi
      fun y hy hyo => refs_eq_of_immortal hrw hy hyo
    rw [hheld]
    simp only [outside, List.count_append]
    omega

theorem old_mem_roll (ho : o ∈ known) (hc : p.heap.inCountedSpace u = true) : u ∈ r := by
  have hu := hrw.old_mem hc
  rcases hs.of_known ho with ⟨hr, hpos, -⟩ | ⟨hi, -⟩
  · exact hs.books.closed o (mem_live.mpr ⟨hr, hpos⟩) u hu hc
  · refine hs.books.anchored u (List.mem_append_right _ ?_) hc
    simp only [outside, List.mem_append, List.mem_flatMap]
    exact Or.inl (Or.inl (Or.inl ⟨o, hi, hu⟩))

theorem books_rewrite (ho : o ∈ known) (hw : w = 0 ∨ w ∈ known) :
    Books h' r (p.heap.countedRef u ++ outside h' l.immortals counts mutators) counts.cycles := by
  refine hs.books.congr hrw.inCountedSpace_eq (fun x hx => hs.status_eq_of_mem hrw hx)
    (fun x hx y hy => ?_) (fun x hx => ?_) fun x hx => hs.total_rewrite hrw ho hx
  · by_cases hxo : x = o
    · subst hxo
      rcases hrw.added y hy with hy | rfl
      · exact Or.inl hy
      · exact Or.inr (hs.mem_of_known hw)
    · rw [hs.refs_eq_of_mem hrw (mem_live.mp hx).1 hxo] at hy
      exact Or.inl hy
  · rcases List.mem_append.mp hx with hx | hx
    · obtain ⟨rfl, -⟩ := mem_countedRef.mp hx
      exact Or.inr (hs.old_mem_roll hrw ho)
    · simp only [outside, List.mem_append, List.mem_flatMap] at hx ⊢
      rcases hx with ((⟨y, hy, hxy⟩ | hx) | hx) | hx
      · by_cases hyo : y = o
        · subst hyo
          rcases hrw.added x hxy with hxy | rfl
          · exact Or.inl (Or.inr (Or.inl (Or.inl (Or.inl ⟨y, hy, hxy⟩))))
          · exact Or.inr (hs.mem_of_known hw)
        · rw [refs_eq_of_immortal hrw hy hyo] at hxy
          exact Or.inl (Or.inr (Or.inl (Or.inl (Or.inl ⟨y, hy, hxy⟩))))
      · exact Or.inl (Or.inr (Or.inl (Or.inl (Or.inr hx))))
      · exact Or.inl (Or.inr (Or.inl (Or.inr hx)))
      · exact Or.inl (Or.inr (Or.inr hx))

-- What could be reached through the old reference is reached from the writer's hand.
theorem anchored_rewrite {x : Nat}
    (hx : Anchored p.heap (outside p.heap l.immortals counts mutators) x) :
    Anchored h' (p.heap.countedRef u ++ outside h' l.immortals counts mutators) x := by
  have hu : ∀ y, y = u → p.heap.inCountedSpace y = true →
      Anchored h' (p.heap.countedRef u ++ outside h' l.immortals counts mutators) y :=
    fun y hy hc => .of_mem (List.mem_append_left _ (mem_countedRef.mpr ⟨hy, hc⟩))
      ((hrw.inCountedSpace_eq y).trans hc)
  refine hx.trans hs.books (fun a ha => List.mem_append_right _ ha) (fun a ha hc => ?_)
    fun a ha b hl => ?_
  · have hmem : a ∈ outside h' l.immortals counts mutators → Anchored h'
        (p.heap.countedRef u ++ outside h' l.immortals counts mutators) a := fun ha =>
      .of_mem (List.mem_append_right _ ha) ((hrw.inCountedSpace_eq a).trans hc)
    simp only [outside, List.mem_append, List.mem_flatMap] at ha hmem
    rcases ha with ((⟨y, hy, hay⟩ | ha) | ha) | ha
    · by_cases hyo : y = o
      · subst hyo
        rcases hrw.lost a hay hc with hay | rfl
        · exact hmem (Or.inl (Or.inl (Or.inl ⟨y, hy, hay⟩)))
        · exact hu a rfl hc
      · rw [← refs_eq_of_immortal hrw hy hyo] at hay
        exact hmem (Or.inl (Or.inl (Or.inl ⟨y, hy, hay⟩)))
    · exact hmem (Or.inl (Or.inl (Or.inr ha)))
    · exact hmem (Or.inl (Or.inr ha))
    · exact hmem (Or.inr ha)
  · by_cases hao : a = o
    · subst hao
      rcases hrw.lost b hl.1 hl.2 with hb | rfl
      · exact Or.inl ⟨hb, (hrw.inCountedSpace_eq b).trans hl.2⟩
      · exact Or.inr (hu b rfl hl.2)
    · exact Or.inl ⟨by rw [hs.refs_eq_of_mem hrw (mem_live.mp ha).1 hao]; exact hl.1,
        (hrw.inCountedSpace_eq b).trans hl.2⟩

end Rewrite

-- The writer's hand goes from the new reference to the old one.
theorem writeSlot (hs : Standing p mutators counts l r (p.heap.countedRef w) known) (ho : o ∈ known)
    (hroom : Room p.heap l kind o bytes)
    (hslot : slot ∈ Object.slotsOf p.heap.types p.heap.memory o) (hw : w = 0 ∨ w ∈ known)
    (hknown : ∀ x ∈ known, x ∈ l.immortals ∨
      Anchored p.heap (outside p.heap l.immortals counts mutators) x) :
    Standing (p.setMemory (p.heap.memory.write slot w)) mutators counts l r
      (p.heap.countedRef (p.heap.memory.read slot)) known := by
  have hrw := hs.populated.writeSlot hroom hslot w
  have hbooks := hs.books_rewrite hrw ho hw
  have hanchored : ∀ x ∈ known, x ∈ l.immortals ∨ Anchored _ _ x := fun x hx =>
    (hknown x hx).imp_right fun ha => hs.anchored_rewrite hrw ha
  have hfree : ∀ s, Island { p.heap with memory := p.heap.memory.write slot w } r s → o ∉ s := by
    intro s hi hos
    rcases hanchored o ho with himm | ha
    · exact hs.not_mem_of_immortal himm (hi.mem hos).1
    · exact hi.not_mem_of_anchored hbooks ha hos
  refine hs.setMemory hrw.populated hrw.room_iff (fun kind' x bytes' hr y hy => ?_) hbooks
    (hs.rooted.congr rfl rfl (fun _ => rfl) hrw.frame (Set.Subset.refl _)) ?_ hanchored
  · by_cases hxo : x = o
    · subst hxo
      refine (hrw.added y hy).imp_right fun hyw => ?_
      subst hyw
      refine hw.resolve_left fun h0 => ?_
      exact bne_iff_ne.mp (List.mem_filter.mp hy).2 h0
    · exact Or.inl (hrw.refs_eq _ _ _ hr hxo ▸ hy)
  · exact hs.tended.congr (fun s hi x hx => (hi.mem hx).1)
      (fun s hi x hx => hs.status_eq_of_mem hrw (hi.mem hx).1)
      (fun s hi x hx => hs.refs_eq_of_mem hrw (hi.mem hx).1 fun hxo => hfree s hi (hxo ▸ hx))
      fun x hx => hx

end Standing

namespace Mutator

-- The reference that is about to be written is counted, if it counts.
def retainNew (p : Plan) (value : Option Nat) : Except Fault Plan :=
  match value.filter p.isCounted with
  | some new => retain p new
  | none => .ok p

-- The slot changes hands.
def overwrite (m : Mutator) (p : Plan) (slot : Nat) (value : Option Nat) :
    Except Fault (Mutator × Plan) := do
  let old ← p.memory.loadRef slot
  let p := p.setMemory (← p.memory.storeRef slot value)
  match old.filter p.isCounted with
  | some old => m.defer p old
  | none => .ok (m, p)

theorem writeReference_eq (hcounts : p.counts = some counts) (m : Mutator) (o index : Nat)
    (value : Option Nat) :
    m.writeReference p o index value =
      (fieldSlot p o index >>= fun slot => retainNew p value >>= fun p =>
        m.overwrite p slot value) := by
  unfold writeReference retainNew overwrite
  rw [hcounts, Option.isNone_some]
  cases value.filter p.isCounted <;> rfl

-- The reference that is about to be written passes into the writer's hand.
theorem retainNew_ok (hs : Standing p mutators counts l r [] known) {value : Option Nat}
    (hvalue : ∀ v ∈ value, v ∈ known)
    (hmax : ∀ v ∈ value, p.heap.inCountedSpace v = true → count p.heap v + 1 < 2 ^ 56)
    (h : retainNew p value = .ok p') :
    ∃ memory, p' = p.setMemory memory ∧
      Standing p' mutators counts l r (p'.heap.countedRef (value.getD 0)) known ∧
      (∀ kind x bytes, Room p.heap l kind x bytes →
        Object.slotsOf p'.heap.types p'.heap.memory x =
          Object.slotsOf p.heap.types p.heap.memory x) ∧
      ∀ x ∈ known, x ∈ l.immortals ∨
        Anchored p'.heap (outside p'.heap l.immortals counts mutators) x := by
  by_cases hc : p.heap.inCountedSpace (value.getD 0) = true
  on_goal 2 =>
    have hsame : p' = p := by
      cases value with
      | none =>
        cases h
        rfl
      | some v =>
        simp only [retainNew, Option.filter, hs.isCounted_eq] at h
        rw [Bool.not_eq_true, Option.getD_some] at hc
        rw [hc, if_neg Bool.false_ne_true] at h
        cases h
        rfl
    subst hsame
    rw [countedRef, if_neg hc]
    exact ⟨p'.heap.memory, rfl, hs, fun _ _ _ _ => rfl, hs.anchored⟩
  cases value with
  | none => exact absurd rfl (hs.populated.sound.ne_zero_of_counted hc)
  | some v =>
    have hv := hvalue v rfl
    rw [Option.getD_some] at hc
    simp only [retainNew, Option.filter, hs.isCounted_eq, hc, if_true] at h
    obtain ⟨memory, hrun, hself, hother⟩ :=
      Mutator.retain_eq (hs.aligned_of_known hv)
    change retain p v = _ at h
    cases hrun.symm.trans h
    obtain ⟨kind, bytes, -, hroom⟩ := hs.room_of_mem (hs.mem_of_known (Or.inr hv) hc)
    obtain ⟨-, -, hrefs⟩ := hs.populated.setHead hroom hother
    refine ⟨memory, rfl, ?_, fun _ _ _ hx => (hrefs _ _ _ hx).2, fun x hx =>
      (hs.anchored x hx).imp_right fun ha => ha.mono hs.books (fun _ ha => ha) (fun a ha => ?_)
        (fun _ => rfl) fun a ha => ?_⟩
    · rw [show (p.setMemory memory).heap.countedRef ((some v).getD 0) = [v] from if_pos hc]
      exact hs.retain hv hc (hmax v rfl hc) hself hother
    · rw [Standing.outside_congr fun y hy => ?_]
      · exact ha
      · obtain ⟨bytes', hy⟩ := (Standing.mem_immortals (p := p)).mp hy
        exact (hrefs _ _ _ hy).1
    · obtain ⟨kind', bytes', -, ha⟩ := hs.room_of_mem ha
      exact (hrefs _ _ _ ha).1

-- The reference that was overwritten passes from the writer's hand into the buffer.
theorem overwrite_ok {value : Option Nat}
    (hs : Standing p (m :: rest) counts l r (p.heap.countedRef (value.getD 0)) known)
    (ho : o ∈ known) (hroom : Room p.heap l kind o bytes)
    (hslot : slot ∈ Object.slotsOf p.heap.types p.heap.memory o)
    (hvalue : ∀ v ∈ value, v ∈ known)
    (hknown : ∀ x ∈ known, x ∈ l.immortals ∨
      Anchored p.heap (outside p.heap l.immortals counts (m :: rest)) x)
    (h : m.overwrite p slot value = .ok (m', p')) :
    ∃ counts' memory, Standing p' (m' :: rest) counts' l r [] known ∧
      counts'.cycles = counts.cycles ∧
      p' = { p with heap := { p.heap with memory }, counts := some counts' } := by
  obtain ⟨hmod, -, -⟩ := (hs.populated.formed _ _ _ hroom).slot_mem hslot
  have hw : value.getD 0 = 0 ∨ value.getD 0 ∈ known := by
    cases value with
    | none => exact Or.inl rfl
    | some v => exact Or.inr (hvalue v rfl)
  have hstand := hs.writeSlot ho hroom hslot hw hknown
  unfold overwrite at h
  simp only [Plan.memory, Memory.loadRef, Memory.load_ok _ hmod, ok_bind, Memory.storeRef,
    Memory.store_ok _ hmod] at h
  generalize hu : p.heap.memory.read slot = u at h hstand
  have hcounted := hstand.isCounted_eq u
  by_cases hc : p.heap.inCountedSpace u = true
  · have hne := hs.populated.sound.ne_zero_of_counted hc
    rw [if_neg hne, Option.filter, hcounted.trans hc, if_pos rfl] at h
    rw [countedRef, if_pos hc] at hstand
    obtain ⟨decrements, chain, rfl, rfl, hdone⟩ := hstand.defer h
    exact ⟨_, _, hdone, rfl, rfl⟩
  · rw [countedRef, if_neg hc] at hstand
    have hnone : Option.filter (p.setMemory (p.heap.memory.write slot (value.getD 0))).isCounted
        (if u = 0 then none else some u) = none := by
      split_ifs
      · rfl
      · rw [Option.filter, hcounted.trans (Bool.eq_false_iff.mpr hc), if_neg Bool.false_ne_true]
    rw [hnone] at h
    cases h
    exact ⟨counts, _, hstand, rfl, by rw [← hs.counts_eq]; rfl⟩

-- Writing a reference into a field.
theorem writeReference_ok (hs : Standing p (m :: rest) counts l r [] known) {index : Nat}
    {value : Option Nat} (ho : o ∈ known) (hvalue : ∀ v ∈ value, v ∈ known)
    (hmax : ∀ v ∈ value, p.heap.inCountedSpace v = true → count p.heap v + 1 < 2 ^ 56)
    (h : m.writeReference p o index value = .ok (m', p')) :
    ∃ counts' memory, Standing p' (m' :: rest) counts' l r [] known ∧
      counts'.cycles = counts.cycles ∧
      p' = { p with heap := { p.heap with memory }, counts := some counts' } := by
  rw [writeReference_eq hs.counts_eq] at h
  obtain ⟨slot, hfield, h⟩ := bind_eq_ok.mp h
  obtain ⟨kind, bytes, hroom⟩ := hs.room_of_known ho
  have hslot := fieldSlot_mem (hs.populated.formed _ _ _ hroom) hfield
  obtain ⟨p₁, hretain, h⟩ := bind_eq_ok.mp h
  obtain ⟨memory, rfl, hstand, hslots, hknown⟩ := retainNew_ok hs hvalue hmax hretain
  obtain ⟨kind', bytes', hroom'⟩ := hstand.room_of_known ho
  obtain ⟨counts', memory', hdone, hcycles, rfl⟩ := overwrite_ok hstand ho hroom'
    ((hslots _ _ _ hroom).symm ▸ hslot) hvalue hknown h
  exact ⟨counts', memory', hdone, hcycles, rfl⟩

end Mutator

end Reclaim
