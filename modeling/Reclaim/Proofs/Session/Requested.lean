import Reclaim.Proofs.Session.Schedules

/-!
The sizes of objects in a session that copies. The header of an object tells what was asked for when the
object was made, wherever it has gone since, also while a closure moves it. What lies in the nursery fits
into a cell therefore, and no copy is asked to be larger than cells are.
-/
namespace Reclaim

open Heap Queue Sizes

namespace Heap

-- Where an object is. A copy leaves its address in the nursery.
def whereabouts (h : Heap) (o : Nat) : Nat :=
  match h.spaceOf? o, Status.forwarding (h.memory.read o) with
  | some .nursery, .forwarded target => target
  | _, _ => o

-- `o`, which has `bytes` bytes, was copied to `target`: to a cell that was free and is large enough.
structure Rehoused (h : Heap) (o bytes target : Nat) (h' : Heap) : Prop where
  forwarded : h'.memory.read o = Status.forwardedTo target
  fresh : ∀ size, ¬Cells.Used h.memory h.mature.listing size target
  cell : ∃ size, Cells.Used h'.memory h'.mature.listing size target ∧ bytes ≤ SizeClass.bytes size
  words : ∀ a, a % wordBytes = 0 → 0 < a → a < bytes →
    h'.memory.read (target + a) = h.memory.read (o + a)

variable {h h' : Heap} {l l' : Layout} {x t n : Nat}

theorem Visited.rehoused (hv : Visited h l .nursery x t h' l')
    (hsize : Object.size h.types h.memory x = .ok n) : Rehoused h x n t h' := by
  obtain ⟨hforwarded, hfresh, bytes, n', hcell, hsize', hle, hwords⟩ := hv.copied rfl
  obtain rfl := Except.ok.inj (hsize.symm.trans hsize')
  refine ⟨hforwarded, fun size hused => hfresh _ _ (.cell hused), ?_, hwords⟩
  cases hcell with
  | cell hused => exact ⟨_, hused, hle⟩

end Heap

namespace Toured

variable {g : Ground} {h : Heap} {l : Layout} {seen : List Nat} {place : Nat → Nat}
variable {kind : SpaceKind} {x bytes n : Nat}
variable (ht : Toured g h l seen place) (hg : g.Ready) (hr : g.IsRoom kind x bytes)
include ht hg hr

theorem whereabouts_eq : h.whereabouts x = place x := by
  have hspace : h.spaceOf? x = some kind := (ht.spaceOf?_eq x).trans (hg.spaceOf?_eq hr)
  by_cases hmoved : x ∈ seen ∧ g.Young x
  · obtain ⟨hhead, -, b, m, hcell, -⟩ := ht.moved x hmoved.1 hmoved.2
    obtain ⟨-, hforward⟩ := Status.forwarding_forwardedTo (ht.sound.room_mem hcell).1
      (ht.sound.room_bound hcell).1
    have hyoung : kind = .nursery := Option.some.inj ((hg.spaceOf?_eq hr).symm.trans hmoved.2)
    simp only [whereabouts, hspace, hyoung, hhead, hforward]
  · rw [ht.still x fun h1 h2 => hmoved ⟨h1, h2⟩]
    unfold whereabouts
    split
    · rename_i target hkind hforward
      obtain rfl : kind = .nursery := Option.some.inj (hspace.symm.trans hkind)
      have hseen : x ∉ seen := fun h1 => hmoved ⟨h1, hg.spaceOf?_eq hr⟩
      have hfree : h.memory.read x % 4 = 0 := by
        rw [ht.young x _ hr hseen]
        exact (hg.young x _ hr).1
      simp only [Status.forwarding, hfree, if_true] at hforward
      cases hforward
    · rfl

end Toured

-- A member copies an object of the nursery that nobody has visited.
theorem Team.Sound.traceNursery {g : Ground} {p : Plan} {s : Team} {q : Progress} {m : Member}
    {x bytes n : Nat} (hs : s.Sound g p q) (hq : p.queues.Idle p.buffer) (hg : g.Ready)
    (hm : m ∈ s.members) (hr : g.IsRoom .nursery x bytes) (hx : x ∉ q.seen) (hsize : g.size x = .ok n) :
    Affords ((m.tracing s.shared).traceNursery x) fun r =>
      Rehoused s.shared.heap x n r.1 r.2.heap := by
  have hplace : q.place x = x := hs.toured.still x fun h1 => absurd h1 hx
  obtain ⟨k, b, hhome, -, hformed, hsize', -⟩ := hs.toured.formed hg hr hsize
  rw [hplace] at hhome hformed hsize'
  obtain ⟨-, rfl⟩ := hs.toured.sound.room_unique (hs.toured.room _ _ _ hr) hhome
  obtain ⟨hstatus, hle⟩ := hg.young x _ hr
  have hfree : s.shared.heap.memory.read x % 4 = 0 := by
    rw [hs.toured.young x _ hr hx, hstatus]
  have hidle : s.shared.queues.Idle p.buffer := hs.queues_eq ▸ hq
  unfold Tracing.traceNursery
  simp only [Member.tracing]
  refine (hs.toured.sound.visitYoung (hs.toured.room _ _ _ hr) hformed hle hfree
    (hs.owners m hm)).bind ?_
  rintro ⟨target, moved, memory⟩ ⟨y, c, hmoved, -, hvisited⟩
  simp only at hmoved hvisited
  subst hmoved
  have hpush : ∀ {t : Tracing}, t.shared.queues = s.shared.queues →
      Affords (t.pushValue target) fun t' => t'.heap = t.heap := fun ht => by
    unfold Tracing.pushValue
    rw [ht]
    exact hidle.values.2.2.affords.bind fun _ _ => .ok rfl
  refine (hpush ?_).bind fun t' ht' => .ok ?_
  · rfl
  · rw [ht']
    exact hvisited.rehoused hsize'

-- What is left of an object tells its size.
theorem Evacuated.size_eq {p p₀ p₁ p' : Plan} {stopped : List Mutator} {l l₀ l' : Layout}
    {known : Set Nat} {stats : TraceStats} {q : Progress} {kind kind' : SpaceKind} {x n bytes bytes' : Nat}
    (he : Evacuated p p₀ p₁ p' stopped l l₀ l' known stats q) (hr : (p₀.ground l₀).IsRoom kind x bytes)
    (hsize : (p₀.ground l₀).size x = .ok n) (hr' : Room p'.heap l' kind' (q.place x) bytes') :
    Object.size p'.heap.types p'.memory (q.place x) = .ok n := by
  obtain ⟨k, b, hhome, -, hformed, htold, -⟩ := he.closed.toured.formed he.opened.ready hr hsize
  have hleft := he.released.left
  obtain ⟨rfl, rfl⟩ := he.closed.toured.sound.room_unique hhome ((hleft.room_iff _ _ _).mp hr').1
  rw [hleft.types_eq, ← htold]
  exact hformed.size_congr fun a _ h1 h2 => hleft.word _ _ _ hr' a (le_of_lt h1) h2

-- A collection that has a result, step by step.
theorem Plan.evacuated_of_collect {p p' : Plan} {mutators stopped : List Mutator} {l : Layout}
    {known : Set Nat} (hs : Tidy p mutators l known) (hc : p.Collectable known)
    (h : p.collect mutators = .ok (stopped, p')) : ∃ c stats p₁ p₂ l₀ l' q,
      Collection.opened p mutators = .ok (stopped, c) ∧ Collection.runClosure c.plan = .ok (stats, p₁) ∧
      p₂.heap = p₁.heap ∧ Evacuated p c.plan p₂ p' stopped l l₀ l' known stats q := by
  obtain ⟨stopped', c, l₀, hopened, hnew, ho⟩ := Collection.opened_ok hs hc
  rcases ho.closed_or_starves hopened hc.numbered with ⟨stats, p₁, q, hrun, hclosed⟩ | hstarves
  · obtain ⟨p₂, plan, l', hconclude, hheap, he⟩ := hclosed.conclude ho hnew
    simp only [Plan.collect_eq, hopened, hrun, hconclude, ok_bind] at h
    cases h
    exact ⟨c, stats, p₁, p₂, l₀, l', q, hopened, hrun, hheap, he⟩
  · obtain ⟨f, hf, -⟩ := hstarves.collect_error
    rw [h] at hf
    cases hf

namespace Session

variable {s s' : Session} {op : Op} {l : Layout} {o bytes : Nat} {mutators stopped : List Mutator}

-- The object at `o` was made by a request for `bytes` bytes.
inductive Made : Session → Nat → Nat → Prop
  | create {s s' : Session} {i type length o bytes : Nat} {semantics : Semantics} {info : TypeInfo} :
    Trail s → s.Permits (.create i type length semantics) →
    s.perform (.create i type length semantics) = .ok s' →
    .made o ∈ s.changes (.create i type length semantics) →
    s.plan.heap.types.info type = .ok info → info.bytesRequired length = .ok bytes → Made s' o bytes
  | step {s s' : Session} {op : Op} {o bytes : Nat} : Made s o bytes → s.Permits op →
    s.perform op = .ok s' → Made s' o bytes
  -- It is where the closure has left it, if it is still there.
  | collect {s : Session} {mutators stopped : List Mutator} {c : Collection} {stats : TraceStats}
    {p₁ plan : Plan} {o bytes : Nat} : Made s o bytes → mutators.Perm s.mutators →
    s.plan.Collectable s.known → Collection.opened s.plan mutators = .ok (stopped, c) →
    Collection.runClosure c.plan = .ok (stats, p₁) → s.plan.collect mutators = .ok (stopped, plan) →
    p₁.heap.whereabouts o ∈ (s.resume stopped plan).known →
    Made (s.resume stopped plan) (p₁.heap.whereabouts o) bytes

namespace InOrder

variable (hs : s.InOrder l)
include hs

-- Whatever mutators do, the objects that there are keep their sizes.
theorem size_eq (ha : s.Permits op) (h : s.perform op = .ok s') (ho : o ∈ s.known) :
    o ∈ s'.known ∧ Object.size s'.plan.heap.types s'.plan.memory o =
      Object.size s.plan.heap.types s.plan.memory o := by
  obtain ⟨kind, bytes, hr⟩ := hs.tidy.room_of_known ho
  have hp := hs.tidy.populated
  have hformed := hp.formed _ _ _ hr
  -- Words outside of the spaces are in no header.
  have houtside : ∀ {memory : Memory}, (∀ a kind, s.plan.heap.spaceOf? a = some kind →
      memory.read a = s.plan.memory.read a) → Object.size s.plan.heap.types memory o =
        Object.size s.plan.heap.types s.plan.memory o := fun hm =>
    hformed.size_congr fun a _ h1 h2 => hm a kind (hp.sound.spaceOf?_room hr (le_of_lt h1) h2)
  cases op with
  | bind | setTimeCap cap | setClock clock =>
    cases h
    exact ⟨ho, rfl⟩
  | drop i =>
    obtain ⟨m, hm, hperm, -⟩ := perm_of_mutator ha
    obtain ⟨cells, l', hdrop, -, -⟩ := (hs.tidy.perm hperm).drop
    simp only [Session.perform, hm, hdrop, ok_bind] at h
    cases h
    exact ⟨ho, rfl⟩
  | create i type length semantics =>
    obtain ⟨m, hm, hperm, -⟩ := perm_of_mutator ha.1
    simp only [Session.perform, hm, ok_bind] at h
    obtain ⟨⟨x, m', plan⟩, hnew, h⟩ := bind_eq_ok.mp h
    cases h
    obtain ⟨kind', size, l', hext, -, -, -⟩ := (hs.tidy.perm hperm).newObject ha.2 hnew
    refine ⟨Or.inr ho, ?_⟩
    rw [hext.types_eq]
    exact hformed.size_congr fun a _ h1 h2 => hext.kept _ _ _ hr a (le_of_lt h1) h2
  | write i x index value =>
    obtain ⟨m, hm, hperm, -⟩ := perm_of_mutator ha.1
    simp only [Session.perform, hm, ok_bind] at h
    obtain ⟨⟨m', plan⟩, hwrite, h⟩ := bind_eq_ok.mp h
    cases h
    obtain ⟨-, memory, rfl, -, hsizes⟩ := (hs.tidy.perm hperm).writeReference ha.2 hwrite
    exact ⟨ho, hsizes _ _ _ hr⟩
  | fill a w =>
    cases h
    obtain ⟨x, hx, info, n, hinfo, hsize, h1, h2, -⟩ := ha
    obtain ⟨kind', b, hr'⟩ := hs.tidy.room_of_known hx
    obtain ⟨n', hsize', -, hle⟩ := (hp.formed _ _ _ hr').size_ok
    obtain rfl := Except.ok.inj (hsize.symm.trans hsize')
    exact ⟨ho, hp.size_write hr' hinfo h1 (by omega) w hr⟩
  | setGlobal index value =>
    obtain ⟨memory, hset, h⟩ := bind_eq_ok.mp h
    cases h
    obtain ⟨slot, hslot, hother⟩ := Globals.set_ok hset
    refine ⟨ho, houtside fun a kind hkind => hother a ?_⟩
    rintro rfl
    rw [(hs.tidy.globals a hslot).2] at hkind
    cases hkind
  | setStacks scheduler words =>
    cases h
    refine ⟨ho, houtside fun a kind hkind => read_writeAll ?_ _⟩
    rintro word hword rfl
    rw [ha word hword] at hkind
    cases hkind
  | suspect x =>
    obtain ⟨⟨fresh, plan⟩, hrun, h⟩ := bind_eq_ok.mp h
    cases h
    simp only [Plan.enqueueForCycleCheck, hs.tidy.counts_eq] at hrun
    cases hrun
    exact ⟨ho, rfl⟩
  | collect mutators => exact absurd ha id

end InOrder

-- What was made is an object of the size that was asked for.
theorem Made.size_eq (hm : Made s o bytes) : Trail s ∧ o ∈ s.known ∧
    Object.size s.plan.heap.types s.plan.memory o = .ok bytes := by
  induction hm with
  | create ht ha h hmade hinfo hbytes =>
    obtain ⟨l, hs⟩ := ht.inOrder
    obtain ⟨m, hm, hperm, -⟩ := perm_of_mutator ha.1
    refine ⟨ht.step ha h, mem_known_of_made h hmade, ?_⟩
    simp only [perform, hm, ok_bind] at h
    obtain ⟨⟨x, m', plan⟩, hnew, h⟩ := bind_eq_ok.mp h
    cases h
    simp only [changes, hm, ok_bind, hnew, List.mem_singleton, Change.made.injEq] at hmade
    subst hmade
    obtain ⟨-, -, -, -, -, -, info', bytes', hinfo', hbytes', hsize⟩ :=
      (hs.tidy.perm hperm).newObject ha.2 hnew
    obtain rfl := Except.ok.inj (hinfo.symm.trans hinfo')
    obtain rfl := Except.ok.inj (hbytes.symm.trans hbytes')
    exact hsize
  | step _ ha h ih =>
    obtain ⟨ht, ho, hsize⟩ := ih
    obtain ⟨l, hs⟩ := ht.inOrder
    obtain ⟨ho', hsame⟩ := hs.size_eq ha h ho
    exact ⟨ht.step ha h, ho', hsame.trans hsize⟩
  | @collect s mutators stopped c stats p₁ plan o bytes _ hall hc hopened hrun hcollect hknown ih =>
    obtain ⟨ht, ho, hsize⟩ := ih
    obtain ⟨l, hs⟩ := ht.inOrder
    obtain ⟨c', stats', p₁', p₂, l₀, l', q, hopened', hrun', hheap, he⟩ :=
      Plan.evacuated_of_collect (hs.tidy.perm hall.symm) hc hcollect
    rw [hopened] at hopened'
    cases hopened'
    rw [hrun] at hrun'
    cases hrun'
    obtain ⟨kind, b, hr⟩ := hs.tidy.room_of_known ho
    have hr₀ : (c.plan.ground l₀).IsRoom kind o b := (he.opened.rearranged.room_iff _ _ _).mpr hr
    have hplace : p₁.heap.whereabouts o = q.place o :=
      hheap ▸ he.closed.toured.whereabouts_eq he.opened.ready hr₀
    obtain ⟨kind', b', hr'⟩ := (hs.resume he).tidy.room_of_known hknown
    refine ⟨.collect ht hall hc hcollect, hknown, ?_⟩
    rw [hplace] at hr' ⊢
    exact he.size_eq hr₀ ((he.opened.size_eq o).trans hsize) hr'

-- In the heap `h` of the session every object tells what was asked for, whatever its status word shows. An
-- object that was moved is in a cell that is large enough.
structure Whole (s : Session) (h : Heap) : Prop where
  size_eq : ∀ o bytes, s.Made o bytes →
    Object.size h.types h.memory (h.whereabouts o) = .ok bytes
  claimed : ∀ o bytes w, s.Made o bytes →
    Object.size h.types (h.memory.write (h.whereabouts o) w) (h.whereabouts o) = .ok bytes
  cell : ∀ o bytes, s.Made o bytes → h.whereabouts o ≠ o →
    ∃ size, Cells.Used h.memory h.mature.listing size (h.whereabouts o) ∧ bytes ≤ SizeClass.bytes size

-- Between collections objects are where they are known to be.
theorem InOrder.whereabouts_eq (hs : s.InOrder l) (ho : o ∈ s.known) : s.plan.heap.whereabouts o = o := by
  obtain ⟨kind, b, hr⟩ := hs.tidy.room_of_known ho
  unfold whereabouts
  split
  · rename_i target hkind hforward
    rw [hs.tidy.populated.sound.spaceOf?_start hr] at hkind
    cases hkind
    have hfree := (hs.tidy.young _ _ hr).1
    simp only [Status.forwarding, hfree, if_true] at hforward
    cases hforward
  · rfl

theorem InOrder.whole (hs : s.InOrder l) : s.Whole s.plan.heap where
  size_eq o bytes hm := by
    obtain ⟨-, ho, hsize⟩ := hm.size_eq
    rw [hs.whereabouts_eq ho]
    exact hsize
  claimed o bytes w hm := by
    obtain ⟨-, ho, hsize⟩ := hm.size_eq
    obtain ⟨kind, b, hr⟩ := hs.tidy.room_of_known ho
    rw [hs.whereabouts_eq ho, ← hsize]
    exact (hs.tidy.populated.formed _ _ _ hr).size_congr fun a _ h1 _ =>
      Memory.read_write_of_ne (by omega) w
  cell o bytes hm hne := absurd (hs.whereabouts_eq hm.size_eq.2.1) hne

end Session

end Reclaim
