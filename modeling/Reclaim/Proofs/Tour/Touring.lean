import Reclaim.Proofs.Heap.Counted
import Reclaim.Proofs.Tour.Owing

/-!
A collector in a closure that copies and marks. It may take part with others, whose work it continues;
whatever it takes next, the closure comes closer to its end, and each object is visited once.
-/
namespace Reclaim

open Heap Queue Sizes

-- A closure as one of its collectors takes part in it.
structure Part where
  ground : Ground
  -- The allocators of the other collectors, and what these have done.
  others : List CellAllocator := []
  earlier : TraceStats := {}
  -- The entries of a buffer.
  buffer : Nat

instance (g : Ground) : DecidablePred g.Young := fun x =>
  inferInstanceAs (Decidable (g.heap.spaceOf? x = some .nursery))

namespace Tracing

-- The queues as a collector alone sees them.
abbrev objects (t : Tracing) : Solo Nat := ⟨t.shared.queues.values, t.values⟩

abbrev slots (t : Tracing) : Solo Nat := ⟨t.shared.queues.locations, t.locations⟩

abbrev pointers (t : Tracing) : Solo (Nat × Nat) := ⟨t.shared.queues.interior, t.interior⟩

-- What waits in the queues.
def tasks (t : Tracing) : List Task :=
  t.objects.contents.map .scan ++ (t.slots.contents.map .edge ++
    t.pointers.contents.map fun e => .root (.interior e.1 e.2))

end Tracing

-- Nothing waits for a collector that finds the queues empty and has no entries of its own.
theorem Tracing.tasks_of_idle {t : Tracing} {capacity : Nat} (h : t.shared.queues.Idle capacity)
    (hvalues : t.values = {}) (hlocations : t.locations = {}) (hinterior : t.interior = {}) :
    t.tasks = [] := by
  rw [Tracing.tasks, Tracing.objects, Tracing.slots, Tracing.pointers, hvalues, hlocations, hinterior,
    Solo.contents_fresh, Solo.contents_fresh, Solo.contents_fresh, h.values.2.1, h.locations.2.1,
    h.interior.2.1]
  rfl

-- The closure has come as far as `q` tells. The collector has still to take `rest`, besides what is in its
-- queues; from those it takes no more than `n` entries.
structure Touring (e : Part) (n : Nat) (t : Tracing) (q : Progress) (rest : List Task) : Prop where
  policy_eq : t.shared.policy = .hybrid
  newRoots_eq : t.shared.newRoots = none
  copy : ∃ x, t.copy = some x ∧ x.Owns t.heap.mature
  others : ∀ x ∈ e.others, x.Owns t.heap.mature
  objects : t.objects.Valid ∧ t.shared.queues.values.Sized e.buffer 1
  slots : t.slots.Valid ∧ t.shared.queues.locations.Sized e.buffer 1
  pointers : t.pointers.Valid ∧ t.shared.queues.interior.Sized e.buffer 2
  toured : Toured e.ground t.heap q.layout q.seen q.place
  owing : Owing e.ground t.memory q (t.tasks ++ rest)
  level : t.tasks.length + e.ground.heap.maxObjects = n + q.seen.length
  scanned_eq : e.earlier.scanned + t.stats.scanned = q.scanned.length
  copied_eq : e.earlier.copied + t.stats.copied = q.seen.countP fun x => e.ground.Young x
  marked_eq : e.earlier.marked + t.stats.marked = q.seen.countP fun x => ¬e.ground.Young x

-- What was visited stays where it is.
structure Progress.Follows (q q' : Progress) : Prop where
  subset : q.seen ⊆ q'.seen
  place_eq : ∀ x ∈ q.seen, q'.place x = q.place x

-- A reference to `o` is traced. That visits `o`, or nothing.
structure Progress.Meets (q : Progress) (o : Nat) (q' : Progress) : Prop where
  scanned_eq : q'.scanned = q.scanned
  seen_eq : q'.seen = q.seen ∨ q'.seen = o :: q.seen

theorem Progress.Meets.refl (q : Progress) (o : Nat) : q.Meets o q := ⟨rfl, Or.inl rfl⟩

theorem Queue.Chain.Sized.affords {α : Type} {c : Chain α} {capacity words : Nat}
    (hc : c.Sized capacity words) : Affords c.check fun _ => True := by
  rw [hc.check_eq]
  exact checkTable_affords _

theorem Queue.Ends.push_sized {α : Type} (e : Ends α) {c : Chain α} {capacity words : Nat}
    (hc : c.Sized capacity words) (x : α) : (e.push c x).2.Sized capacity words := by
  unfold push
  split
  · split
    · exact hc
    · exact (hc.enqueueFront _).allocate
  · exact hc.allocate

theorem Toured.length_le {g : Ground} {h : Heap} {l : Layout} {seen : List Nat} {place : Nat → Nat}
    (ht : Toured g h l seen place) (hg : g.Ready) : seen.length ≤ g.heap.maxObjects := by
  rw [← List.toFinset_card_of_nodup ht.nodup]
  exact hg.populated.sound.card_le_maxObjects fun o ho => (ht.seen_room o (List.mem_toFinset.mp ho)).1

-- Marking a cell again changes nothing.
theorem Block.setMarked_of_isMarked {m : Memory} {a : Nat} (h : isMarked m a = true) :
    setMarked m a = m := by
  have hword : Bitmap.setMarked (m.read (bitmapWord a)) (place a) = m.read (bitmapWord a) := by
    refine Nat.eq_of_testBit_eq fun i => ?_
    rw [Bitmap.setMarked, Nat.testBit_or, Nat.one_shiftLeft, Nat.testBit_two_pow, Bool.or_eq_left_iff_imp,
      decide_eq_true_eq]
    rintro rfl
    exact h
  rw [setMarked, update, hword, Memory.write_read_self]

theorem Cells.testAndMark_marked {m : Memory} {a : Nat} (h : Block.isMarked m a = true) :
    testAndMark m a = (false, m) := by
  rw [testAndMark, h, Block.setMarked_of_isMarked h]
  rfl

namespace Touring

variable {e : Part} {n : Nat} {t : Tracing} {q : Progress} {rest : List Task}
variable (ht : Touring e n t q rest)

-- An object that was visited waits in the queue.
theorem pushValue {o : Nat} (ht : Touring e n t q (.scan o :: rest)) :
    Affords (t.pushValue o) fun t' => Touring e (n + 1) t' q rest ∧ t'.memory = t.memory := by
  obtain ⟨hvalid, hsized⟩ := ht.objects
  let pushed := t.values.push t.shared.queues.values o
  have hcontents : Solo.contents ⟨pushed.2, pushed.1⟩ =
      o :: t.objects.contents := t.objects.contents_push o
  let t' : Tracing :=
    { t with values := pushed.1 }.setQueues { t.shared.queues with values := pushed.2 }
  have htasks : t'.tasks = .scan o :: t.tasks := by
    change (Solo.contents ⟨pushed.2, pushed.1⟩).map _ ++ _ = _
    rw [hcontents]
    rfl
  simp only [Tracing.pushValue]
  refine hsized.affords.bind fun _ _ => Affords.of_ok (a := t') rfl ⟨{ ht with
    objects := ⟨hvalid.push o, Ends.push_sized _ hsized o⟩
    owing := ?_
    level := ?_ }, rfl⟩
  · rw [htasks]
    exact ht.owing.perm List.perm_middle
  · rw [htasks, List.length_cons]
    have := ht.level
    omega

theorem insertLocation {slot : Nat} (ht : Touring e n t q (.edge slot :: rest)) :
    Affords (t.insertLocation slot) fun t' => Touring e (n + 1) t' q rest := by
  obtain ⟨hvalid, hsized⟩ := ht.slots
  let added := t.locations.insert t.shared.queues.locations slot
  have hcontents : Solo.contents ⟨added.2, added.1⟩ =
      t.slots.contents ++ [slot] := t.slots.contents_insert slot
  let t' : Tracing :=
    { t with locations := added.1 }.setQueues { t.shared.queues with locations := added.2 }
  have htasks : (Task.edge slot :: t.tasks).Perm t'.tasks := by
    change List.Perm _ (_ ++ ((Solo.contents ⟨added.2, added.1⟩).map _ ++ _))
    rw [hcontents, List.map_append, List.map_singleton, List.append_assoc, List.singleton_append]
    refine List.perm_middle.symm.trans (List.Perm.append_left _ ?_)
    exact List.perm_middle.symm
  simp only [Tracing.insertLocation]
  refine hsized.affords.bind fun _ _ => Affords.of_ok (a := t') rfl { ht with
    slots := ⟨hvalid.insert slot, Ends.insert_sized _ hsized slot⟩
    owing := ht.owing.perm (List.perm_middle.trans (htasks.append_right rest))
    level := ?_ }
  have := htasks.length_eq
  have := ht.level
  rw [List.length_cons] at *
  omega

theorem insertInterior {base slot : Nat} (ht : Touring e n t q (.root (.interior base slot) :: rest)) :
    Affords (t.insertInterior (base, slot)) fun t' => Touring e (n + 1) t' q rest := by
  obtain ⟨hvalid, hsized⟩ := ht.pointers
  let added := t.interior.insert t.shared.queues.interior (base, slot)
  have hcontents : Solo.contents ⟨added.2, added.1⟩ =
      t.pointers.contents ++ [(base, slot)] := t.pointers.contents_insert (base, slot)
  let t' : Tracing :=
    { t with interior := added.1 }.setQueues { t.shared.queues with interior := added.2 }
  have htasks : t'.tasks = t.tasks ++ [.root (.interior base slot)] := by
    change _ ++ (_ ++ (Solo.contents ⟨added.2, added.1⟩).map _) = (_ ++ (_ ++ _)) ++ _
    rw [hcontents, List.map_append, List.append_assoc, List.append_assoc]
    rfl
  simp only [Tracing.insertInterior]
  refine hsized.affords.bind fun _ _ => Affords.of_ok (a := t') rfl { ht with
    pointers := ⟨hvalid.insert _, Ends.insert_sized _ hsized _⟩
    owing := ?_
    level := ?_ }
  · rw [htasks, List.append_assoc]
    exact ht.owing
  · have := ht.level
    rw [htasks, List.length_append, List.length_singleton]
    omega

variable (hg : e.ground.Ready)
include ht hg

-- An object has been visited for the first time. It waits in the queue.
theorem arrive {kind : SpaceKind} {x target bytes : Nat} {h' : Heap} {l' : Layout}
    (hv : Visited t.heap q.layout kind x target h' l') (hr : e.ground.IsRoom kind x bytes)
    (hx : x ∉ q.seen) (hfresh : ¬e.ground.Stale x) (htraces : e.ground.Traces x)
    (copy : Option CellAllocator) (hcopy : ∃ y, copy = some y ∧ y.Owns h'.mature) (stats : TraceStats)
    (hscanned : stats.scanned = t.stats.scanned)
    (hcopied : stats.copied = t.stats.copied + if kind = .nursery then 1 else 0)
    (hmarked : stats.marked = t.stats.marked + if kind = .nursery then 0 else 1) :
    Affords (Tracing.pushValue { t.setHeap h' with copy, stats } target) fun t' =>
      Touring e n t' (q.visit l' x target) rest ∧ t'.memory = h'.memory := by
  have htoured := ht.toured.visit hg hv hr hx hfresh
  have hlength : q.seen.length + 1 ≤ e.ground.heap.maxObjects := htoured.length_le hg
  have hlevel := ht.level
  have hyoung := hg.young_iff hr
  obtain ⟨k, rfl⟩ : ∃ k, n = k + 1 := ⟨n - 1, by omega⟩
  refine pushValue (n := k) (q := q.visit l' x target) {
    policy_eq := ht.policy_eq
    newRoots_eq := ht.newRoots_eq
    copy := hcopy
    others := fun y hy => (ht.others y hy).mono hv.listing_subset
    objects := ht.objects
    slots := ht.slots
    pointers := ht.pointers
    toured := htoured
    owing := (ht.owing.visit hg ht.toured hv hr hx hfresh htraces).perm List.perm_middle.symm
    level := ?_
    scanned_eq := ?_
    copied_eq := ?_
    marked_eq := ?_ }
  · change t.tasks.length + _ = k + (q.seen.length + 1)
    omega
  · exact (congrArg (_ + ·) hscanned).trans ht.scanned_eq
  · have := ht.copied_eq
    simp only [hcopied, Progress.visit, List.countP_cons, decide_eq_true_eq, hyoung]
    omega
  · have := ht.marked_eq
    simp only [hmarked, Progress.visit, List.countP_cons, decide_eq_true_eq, hyoung]
    by_cases hk : kind = .nursery
    · rw [if_pos hk, if_neg (not_not.mpr hk)]
      omega
    · rw [if_neg hk, if_pos hk]
      omega

omit ht hg in
-- An object outside of the nursery that is marked already.
theorem traceObject_marked {a : Nat} {kind : SpaceKind} (hpolicy : t.shared.policy = .hybrid)
    (hspace : t.heap.spaceOf? a = some kind) (hk : kind ≠ .nursery)
    (hmark : t.mark a kind = .ok (false, t)) : t.traceObject a = .ok (a, t) := by
  unfold Tracing.traceObject
  simp only [hspace, hpolicy, Tracing.traceMarking, if_neg hk, hmark, ok_bind, Bool.false_eq_true,
    if_false]

-- An object that was visited before.
theorem traceObject_again {v w : Nat} (hv : e.ground.Traces v)
    (hw : Shows e.ground q.seen q.place v w) (harrived : Arrived e.ground q.seen v) :
    t.traceObject w = .ok (q.place v, t) := by
  obtain ⟨kind, bytes, hr⟩ := hg.traced v hv
  have hroom := ht.toured.room _ _ _ hr
  have hs := ht.toured.sound
  have hspace : t.heap.spaceOf? v = some kind := hs.spaceOf?_start hroom
  have hspace₀ := hg.spaceOf?_eq hr
  by_cases hy : v ∈ q.seen ∧ e.ground.Young v
  · obtain ⟨hhead, -, b, m, hcell, -⟩ := ht.toured.moved v hy.1 hy.2
    rcases hw with rfl | ⟨-, rfl⟩
    · have hk : kind = .nursery := Option.some.inj (hspace₀.symm.trans hy.2)
      obtain ⟨x, hx, -⟩ := ht.copy
      have hbound := (hs.room_bound hcell).1
      obtain ⟨hclaim, hforward⟩ := Status.forwarding_forwardedTo (hs.room_mem hcell).1 hbound
      have hstatus : Object.status t.memory w = Status.forwardedTo (q.place w) := hhead
      unfold Tracing.traceObject
      simp only [hspace, hk, ht.policy_eq, Tracing.traceMarking, if_true, Tracing.traceNursery, hx,
        Nursery.forward, Object.check, (hs.room_mem hroom).1, hstatus, hclaim, hforward, ok_bind]
      rfl
    · have hmarked := (ht.toured.cells _ _ hcell).mpr ⟨v, hy.1, rfl⟩
      refine traceObject_marked ht.policy_eq
        (hs.spaceOf?_start hcell) (by decide) ?_
      have hsame : Cells.testAndMark t.memory (q.place v) = _ := Cells.testAndMark_marked hmarked
      simp only [Tracing.mark, hsame]
      rfl
  · have hplace : q.place v = v := ht.toured.still v fun h1 h2 => hy ⟨h1, h2⟩
    have hwv : w = v := hw.elim id fun h1 => h1.2.trans hplace
    have hseen : kind ≠ .immortal → v ∈ q.seen := fun hk => harrived.resolve_right fun h1 =>
      hk (Option.some.inj (hspace₀.symm.trans h1.1))
    have hnursery : kind ≠ .nursery := fun hk =>
      hy ⟨hseen (hk ▸ by decide), hspace₀.trans (congrArg some hk)⟩
    rw [hplace, hwv]
    refine traceObject_marked ht.policy_eq hspace hnursery ?_
    cases kind with
    | nursery => exact absurd rfl hnursery
    | mature =>
      have hmarked := (ht.toured.cells _ _ hroom).mpr ⟨v, hseen (by decide), hplace.symm⟩
      have hsame : Cells.testAndMark t.memory v = _ := Cells.testAndMark_marked hmarked
      simp only [Tracing.mark, hsame]
      rfl
    | large =>
      have hmarked := (ht.toured.chunks _ _ hr).mpr (hseen (by decide))
      rw [← ht.toured.markState_eq] at hmarked
      simp only [Tracing.mark, Treadmill.testAndMark, Object.check, (hs.room_mem hroom).1, if_true,
        ok_bind, Status.testAndMark?, Object.status, Tracing.memory, Tracing.heap] at hmarked ⊢
      simp only [hmarked, if_true]
      rfl
    | immortal =>
      have hmarked := (ht.toured.plots _ _ hr).mpr harrived
      rw [← ht.toured.immortal_eq] at hmarked
      simp only [Tracing.mark, Immortal.testAndMark, Object.check, (hs.room_mem hroom).1, if_true,
        ok_bind, Status.testAndMark?, Object.status, Tracing.memory, Tracing.heap] at hmarked ⊢
      simp only [hmarked, if_true]
      rfl

-- An object that nobody has visited before.
theorem traceObject_fresh {v : Nat} (hv : e.ground.Traces v) (hnew : ¬Arrived e.ground q.seen v) :
    Affords (t.traceObject v) fun p => ∃ l', Touring e n p.2 (q.visit l' v p.1) rest ∧
      ∀ s s', e.ground.Site (· ∈ q.seen) q.place s s' → p.2.memory.read s' = t.memory.read s' := by
  obtain ⟨hx, hfresh⟩ := not_or.mp hnew
  obtain ⟨kind, bytes, hr⟩ := hg.traced v hv
  have hroom := ht.toured.room _ _ _ hr
  have hs := ht.toured.sound
  have hspace : t.heap.spaceOf? v = some kind := hs.spaceOf?_start hroom
  have hplace : q.place v = v := ht.toured.still v fun h1 => absurd h1 hx
  obtain ⟨x, hcopy, hown⟩ := ht.copy
  have hsites : ∀ {h' : Heap} {l' : Layout} {target : Nat},
      Visited t.heap q.layout kind v target h' l' → ∀ {m : Memory}, m = h'.memory →
        ∀ s s', e.ground.Site (· ∈ q.seen) q.place s s' → m.read s' = t.memory.read s' :=
    fun hvisited _ hm _ _ hsite => hm ▸ ht.toured.read_site hg hvisited hr hx hsite
  unfold Tracing.traceObject
  simp only [hspace, ht.policy_eq]
  by_cases hk : kind = .nursery
  · subst hk
    obtain ⟨m, hsize, -⟩ := hg.size_ok hr
    obtain ⟨k', b', hhome, -, hformed, -⟩ := ht.toured.formed hg hr hsize
    rw [hplace] at hhome hformed
    obtain ⟨-, rfl⟩ := hs.room_unique hroom hhome
    obtain ⟨hstatus, hle⟩ := hg.young v _ hr
    have hread := ht.toured.young v _ hr hx
    simp only [Tracing.traceMarking, if_true, Tracing.traceNursery, hcopy]
    refine (hs.visitYoung hroom hformed hle (by rw [hread, hstatus]) hown).bind ?_
    rintro ⟨target, moved, m'⟩ ⟨y, c, hmoved, howns, hvisited⟩
    simp only at hmoved hvisited
    subst hmoved
    refine (ht.arrive hg hvisited hr hx hfresh hv (some y) ⟨y, rfl, howns⟩
      { t.stats with copied := t.stats.copied + 1 } rfl rfl rfl).bind
      fun t' ht' => .ok ⟨_, ht'.1, hsites hvisited ht'.2⟩
  · have harrive : ∀ h' l', Visited t.heap q.layout kind v v h' l' →
        t.mark v kind = .ok (true, t.setHeap h') →
        Affords (t.traceMarking v kind) fun p => ∃ l', Touring e n p.2 (q.visit l' v p.1) rest ∧
          ∀ s s', e.ground.Site (· ∈ q.seen) q.place s s' →
            p.2.memory.read s' = t.memory.read s' := by
      intro h' l' hvisited hmark
      have howns := hown.mono hvisited.listing_subset
      simp only [Tracing.traceMarking, if_neg hk, hmark, ok_bind, if_true]
      exact (ht.arrive hg hvisited hr hx hfresh hv t.copy ⟨x, hcopy, howns⟩
        { t.stats with marked := t.stats.marked + 1 } rfl (by rw [if_neg hk]; rfl)
        (by rw [if_neg hk])).bind fun t' ht' => .ok ⟨_, ht'.1, hsites hvisited ht'.2⟩
    cases kind with
    | nursery => exact absurd rfl hk
    | mature =>
      have hmarked : Block.isMarked t.memory v = false := Bool.eq_false_iff.mpr fun hm => by
        obtain ⟨y, hy, heq⟩ := (ht.toured.cells _ _ hroom).mp hm
        obtain ⟨k, b, hry⟩ := (ht.toured.seen_room y hy).1
        exact hx (ht.toured.place_inj hr hry (hplace.trans heq) ▸ hy)
      refine harrive _ _ (hs.visitCell hroom) ?_
      simp only [Tracing.mark, Cells.testAndMark, hmarked]
      rfl
    | large =>
      have hmarked := Bool.eq_false_iff.mpr fun hm => hx ((ht.toured.chunks _ _ hr).mp hm)
      rw [← ht.toured.markState_eq] at hmarked
      obtain ⟨tm, m, unreached, reached, hrun, hvisited⟩ := hs.visitChunk hroom hmarked
        fun chunk hin heq => hx (heq ▸ ((ht.toured.reached_iff chunk).mp hin).1)
      refine harrive _ _ hvisited ?_
      change t.heap.large.testAndMark t.heap.memory v >>= _ = _
      rw [hrun]
      rfl
    | immortal =>
      have hmarked := Bool.eq_false_iff.mpr fun hm => hnew ((ht.toured.plots _ _ hr).mp hm)
      rw [← ht.toured.immortal_eq] at hmarked
      obtain ⟨m, hrun, hvisited⟩ := hs.visitPlot hroom hmarked
      refine harrive _ _ hvisited ?_
      change t.heap.immortal.testAndMark t.heap.memory v >>= _ = _
      rw [hrun]
      rfl

-- A reference is traced to where its object is from now on.
theorem traceObject {v w : Nat} (hv : e.ground.Traces v)
    (hw : Shows e.ground q.seen q.place v w) :
    Affords (t.traceObject w) fun p => ∃ q', Touring e n p.2 q' rest ∧ q.Follows q' ∧ q.Meets w q' ∧
      p.1 = q'.place v ∧ Arrived e.ground q'.seen v ∧
      ∀ s s', e.ground.Site (· ∈ q.seen) q.place s s' → p.2.memory.read s' = t.memory.read s' := by
  by_cases harrived : Arrived e.ground q.seen v
  · exact .of_ok (ht.traceObject_again hg hv hw harrived)
      ⟨q, ht, ⟨List.Subset.refl _, fun _ _ => rfl⟩, .refl q w, rfl, harrived, fun _ _ _ => rfl⟩
  · obtain rfl : w = v := hw.resolve_right fun h1 => harrived h1.1
    obtain ⟨hx, -⟩ := not_or.mp harrived
    refine (ht.traceObject_fresh hg hv harrived).mono fun p ⟨l', ht', hsites⟩ =>
      ⟨_, ht', ⟨List.subset_cons_self _ _, fun y hy => Toured.update_place hx hy⟩,
        ⟨rfl, Or.inr rfl⟩, ?_, Or.inl List.mem_cons_self, hsites⟩
    exact (Function.update_self w p.1 q.place).symm

end Touring

end Reclaim
