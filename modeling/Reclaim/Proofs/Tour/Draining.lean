import Reclaim.Proofs.Tour.Touring

/-!
What a collector does with a task: it traces a reference, moves a pointer along with the object that it
points into, takes a root, or scans an object. Taking tasks until none is left ends.
-/
namespace Reclaim

open Heap Queue Sizes

-- A collector counts the object that it is about to scan.
def Tracing.startScan (t : Tracing) : Tracing := { t with
  shared := { t.shared with clock := t.shared.clock.visit }
  stats := { t.stats with scanned := t.stats.scanned + 1 } }

namespace Touring

variable {e : Part} {n : Nat} {t : Tracing} {q : Progress} {rest : List Task}
variable (hg : e.ground.Ready)
include hg

-- No reference is null where an object is, and null leads nowhere.
theorem place_zero (ht : Touring e n t q rest) : q.place 0 = 0 :=
  ht.toured.still 0 fun hx => absurd rfl (hg.object_pos (ht.toured.seen_room 0 hx).1)

-- A slot follows the object that has been traced.
theorem settle {s s' w : Nat} (ht : Touring e n t q (.edge s' :: rest))
    (hsite : e.ground.Site (· ∈ q.seen) q.place s s')
    (hsettled : Settled e.ground q.seen q.place (e.ground.heap.memory.read s) w) :
    Touring e n (t.setMemory (t.memory.write s' w)) q rest := by
  have hsite' : e.ground.Site e.ground.IsObject q.place s s' :=
    hsite.mono fun x hx => ⟨(ht.toured.seen_room x hx).1, rfl⟩
  have huniq : ∀ s₁, e.ground.Site e.ground.IsObject q.place s₁ s' → s₁ = s := fun s₁ h₁ =>
    ht.toured.site_inj hg h₁ hsite'
  have hshows : Shows e.ground q.seen q.place (e.ground.heap.memory.read s) w := by
    rcases hsettled with ⟨h0 | harrived, hw⟩
    · exact Or.inl (by rw [hw, h0, ht.place_zero hg])
    · exact Or.inr ⟨harrived, hw⟩
  have hself : (t.memory.write s' w).read s' = w := Memory.read_write_self _ _ _
  have hinner : ∀ base slot, .interior base slot ∈ e.ground.roots → slot ≠ s' := by
    rintro base slot hroot rfl
    obtain ⟨⟨-, hnone⟩, hnot, -⟩ := hg.inner base slot hroot
    obtain ⟨-, ⟨hloc, -, -⟩ | ⟨k, x, b, m, hr, hsize, -, h1, h2, h3⟩⟩ := ht.toured.site_mem hg hsite'
    · exact hnot hloc
    · obtain ⟨k', b', hhome, hle⟩ := ht.toured.home hg hr hsize
      have hspace := ht.toured.sound.spaceOf?_room hhome (a := slot) (by omega) (by omega)
      rw [ht.toured.spaceOf?_eq, hnone] at hspace
      cases hspace
  exact { ht with
    toured := ht.toured.write hg (Or.inr ⟨s, hsite'⟩) fun s₁ h₁ => huniq s₁ h₁ ▸ hshows
    owing := (ht.owing.perm List.perm_middle).settleEdge
      (fun s₁ h₁ => by
        rw [huniq s₁ (h₁.mono fun x hx => ⟨(ht.toured.seen_room x hx).1, rfl⟩)]
        exact hself.symm ▸ hsettled)
      hinner fun a ha => Memory.read_write_of_ne ha _ }

-- A slot that shows where its object is.
theorem settle_self {s s' : Nat} (ht : Touring e n t q (.edge s' :: rest))
    (hsite : e.ground.Site (· ∈ q.seen) q.place s s')
    (hsettled : Settled e.ground q.seen q.place (e.ground.heap.memory.read s) (t.memory.read s')) :
    Touring e n t q rest := by
  have hsame := ht.settle hg hsite hsettled
  rwa [Memory.write_read_self] at hsame

theorem processEdge {s' : Nat} (ht : Touring e n t q (.edge s' :: rest)) :
    Affords (t.processEdge s') fun t' =>
      ∃ q', Touring e n t' q' rest ∧ q.Meets (t.memory.read s') q' := by
  obtain ⟨s, hsite⟩ := ht.owing.edges s' (List.mem_append_right _ List.mem_cons_self)
  have hsite' : e.ground.Site e.ground.IsObject q.place s s' :=
    hsite.mono fun x hx => ⟨(ht.toured.seen_room x hx).1, rfl⟩
  have hmod := (ht.toured.site_mem hg hsite').1
  have hshows := ht.toured.shows s s' hsite'
  change Shows _ _ _ _ (t.memory.read s') at hshows
  simp only [Tracing.processEdge, Memory.loadRef, Memory.load_ok _ hmod, ok_bind]
  by_cases hv : e.ground.heap.memory.read s = 0
  · have hzero : t.memory.read s' = 0 := by
      rw [hv] at hshows
      exact hshows.elim id fun h1 => h1.2.trans (ht.place_zero hg)
    rw [if_pos hzero]
    refine .ok ⟨q, ht.settle_self hg hsite ⟨Or.inl hv, ?_⟩, .refl q _⟩
    rw [hzero, hv, ht.place_zero hg]
  · have htraces : e.ground.Traces (e.ground.heap.memory.read s) := by
      cases hsite with
      | root hroot => exact .root hroot hv
      | field hx hslot =>
        exact .field (ht.owing.traced _ hx) (ht.toured.seen_room _ hx).2 hslot hv
    have hne : t.memory.read s' ≠ 0 := by
      rcases hshows with h1 | ⟨-, h1⟩
      · rwa [h1]
      · obtain ⟨kind, bytes, hr⟩ := hg.traced _ htraces
        obtain ⟨m, hsize, -⟩ := hg.size_ok hr
        obtain ⟨k, b, hhome, -⟩ := ht.toured.home hg hr hsize
        rw [h1]
        exact (ht.toured.sound.room_bound hhome).1.ne'
    rw [if_neg hne]
    refine (ht.traceObject hg htraces hshows).bind ?_
    rintro ⟨target, t'⟩ ⟨q', ht', hfollows, hmeets, htarget, harrived, hsites⟩
    have hsite₁ : e.ground.Site (· ∈ q'.seen) q'.place s s' := hsite.mono fun x hx =>
      ⟨hfollows.subset hx, hfollows.place_eq x hx⟩
    simp only at htarget ht' hsites
    split
    · rename_i heq
      refine .ok ⟨q', ht'.settle_self hg hsite₁ ⟨Or.inr harrived, ?_⟩, hmeets⟩
      rw [hsites s s' hsite, ← heq, htarget]
    · simp only [Memory.storeRef, Option.getD_some, Memory.store_ok _ hmod, ok_bind]
      exact .ok ⟨q', ht'.settle hg hsite₁ ⟨Or.inr harrived, htarget⟩, hmeets⟩

theorem processInterior {base slot : Nat}
    (ht : Touring e n t q (.root (.interior base slot) :: rest)) :
    Affords (t.processInterior base slot) fun t' =>
      ∃ q', Touring e n t' q' rest ∧ q.Meets base q' := by
  have hin : ∀ {t : Tracing} {q : Progress},
      Touring e n t q (.root (.interior base slot) :: rest) →
        .interior base slot ∈ e.ground.roots ∧
          t.memory.read slot = e.ground.heap.memory.read slot := by
    intro t q ht
    have hmem : Task.root (.interior base slot) ∈ t.tasks ++ .root (.interior base slot) :: rest :=
      List.mem_append_right _ List.mem_cons_self
    have hroot := (ht.owing.roots _ hmem).resolve_left (by
      rintro ⟨_, heq⟩
      cases heq)
    have hread := ht.owing.inner base slot hroot
    rw [if_pos hmem] at hread
    exact ⟨hroot, hread⟩
  obtain ⟨hroot, hread⟩ := hin ht
  obtain ⟨⟨hmod, hnone⟩, hnot, ⟨kind, bytes, hr⟩, m, hsize, hlow, hhigh⟩ := hg.inner base slot hroot
  simp only [Tracing.processInterior, Memory.load_ok _ hmod, hread, Word.sub_ok hlow, ok_bind]
  refine (ht.traceObject hg (hg.traces_inner hroot) (Or.inl rfl)).bind ?_
  rintro ⟨target, t'⟩ ⟨q', ht', -, hmeets, htarget, harrived, -⟩
  simp only at htarget ht'
  obtain ⟨k, b, hhome, hle⟩ := ht'.toured.home hg hr hsize
  have hbound := (ht'.toured.sound.room_bound hhome).2
  have hsites : ∀ s s', e.ground.Site e.ground.IsObject q'.place s s' → s' ≠ slot := by
    rintro s s' hsite rfl
    obtain ⟨-, ⟨hloc, -, -⟩ | ⟨k, x, b, m, hr, hsize, -, h1, h2, h3⟩⟩ :=
      ht'.toured.site_mem hg hsite
    · exact hnot hloc
    · obtain ⟨k', b', hhome, hle⟩ := ht'.toured.home hg hr hsize
      have hspace := ht'.toured.sound.spaceOf?_room hhome (a := s') (by omega) (by omega)
      rw [ht'.toured.spaceOf?_eq, hnone] at hspace
      cases hspace
  rw [Word.add_ok (by rw [htarget]; omega), ok_bind, Memory.store_ok _ hmod, ok_bind]
  refine .ok ⟨q', { ht' with
    toured := ht'.toured.write hg (Or.inl ((ht'.toured.spaceOf?_eq slot).trans hnone))
      fun s hsite => absurd rfl (hsites s slot hsite)
    owing := (ht'.owing.perm List.perm_middle).settleInner hg harrived ?_
      (fun s s' hsite => hsites s s'
        (hsite.mono fun x hx => ⟨(ht'.toured.seen_room x hx).1, rfl⟩))
      fun a ha => Memory.read_write_of_ne ha _ }, hmeets⟩
  exact (Memory.read_write_self _ _ _).trans (congrArg (· + _) htarget)

theorem addPinned {o : Nat} (ht : Touring e n t q (.root (.value o) :: rest)) :
    Affords (t.addRoot (.value o)) fun t' => ∃ q', Touring e n t' q' rest ∧ q.Meets o q' := by
  have hmem : Task.root (.value o) ∈ t.tasks ++ .root (.value o) :: rest :=
    List.mem_append_right _ List.mem_cons_self
  have hroot := (ht.owing.roots _ hmem).resolve_left (by
    rintro ⟨_, heq⟩
    cases heq)
  have hyoung : t.heap.inNursery o = false := Bool.eq_false_iff.mpr fun hin =>
    (hg.pinned o hroot).2 (by
      rw [Ground.Young, ← ht.toured.spaceOf?_eq, spaceOf?]
      exact if_pos hin)
  simp only [Tracing.addRoot, hyoung, Bool.false_eq_true, if_false]
  refine (ht.traceObject hg (hg.traces_pinned hroot) (Or.inl rfl)).bind ?_
  rintro ⟨target, t'⟩ ⟨q', ht', -, hmeets, -, harrived, -⟩
  exact .ok ⟨q', { ht' with
    owing := (ht'.owing.perm List.perm_middle).settlePinned harrived }, hmeets⟩

-- A root is taken.
theorem addRoot {r : Root} (ht : Touring e n t q (.root r :: rest)) :
    Affords (t.addRoot r) fun t' => ∃ n' q', n' ≤ n + 1 ∧ Touring e n' t' q' rest ∧
      q.Meets (r.target t.memory) q' := by
  cases r with
  | location slot =>
    exact ht.insertLocation.mono fun t' ht' => ⟨_, q, le_refl _, ht', .refl q _⟩
  | interior base slot =>
    exact ht.insertInterior.mono fun t' ht' => ⟨_, q, le_refl _, ht', .refl q _⟩
  | value o =>
    exact (ht.addPinned hg).mono fun t' ⟨q', ht', hmeets⟩ => ⟨n, q', Nat.le_succ n, ht', hmeets⟩

-- The references of an object are to be traced.
theorem startScan {o : Nat} (ht : Touring e n t q (.scan o :: rest)) :
    ∃ x ∈ q.seen, ∃ slots, slots.length = (e.ground.slots x).length ∧
      Object.slots t.heap.types t.memory o = .ok slots ∧
      t.scanObject o = slots.foldlM Tracing.processEdge t.startScan ∧
      Touring e n t.startScan { q with scanned := o :: q.scanned } (slots.map .edge ++ rest) := by
  obtain ⟨x, hx, rfl, howing⟩ := (ht.owing.perm List.perm_middle).openObject ht.toured.injective
  obtain ⟨kind, bytes, hr⟩ := (ht.toured.seen_room x hx).1
  obtain ⟨m, hsize, -⟩ := hg.size_ok hr
  obtain ⟨k, b, -, -, hformed, -, hslots⟩ := ht.toured.formed hg hr hsize
  have hscan : t.scanObject (q.place x) = (Object.slotsOf t.heap.types t.heap.memory
      (q.place x)).foldlM Tracing.processEdge t.startScan := hformed.scan_eq _ _
  refine ⟨x, hx, (e.ground.slots x).map fun slot => slot - x + q.place x, List.length_map _,
    hformed.slots_ok.trans (congrArg _ hslots), hslots ▸ hscan, { ht with
      owing := by
        refine howing.perm ?_
        rw [List.map_map]
        exact List.perm_append_comm_assoc _ _ _
      scanned_eq := by
        have := ht.scanned_eq
        change e.earlier.scanned + (t.stats.scanned + 1) = q.scanned.length + 1
        omega }⟩

-- An object is scanned.
theorem scanObject {o : Nat} (ht : Touring e n t q (.scan o :: rest)) :
    Affords (t.scanObject o) fun t' => ∃ q', Touring e n t' q' rest := by
  obtain ⟨-, -, slots, -, -, hscan, ht₀⟩ := ht.startScan hg
  rw [hscan]
  exact Affords.foldlM (fun slots t' => ∃ q', Touring e n t' q' (slots.map .edge ++ rest))
    (fun slot slots t' ⟨q', ht'⟩ => (ht'.processEdge hg).mono fun _ ⟨q₁, ht₁, _⟩ => ⟨q₁, ht₁⟩)
    _ _ ⟨_, ht₀⟩

-- An entry is taken off a queue.
theorem take {task : Task} {t' : Tracing} (ht : Touring e n t q rest)
    (htasks : t.tasks.Perm (task :: t'.tasks)) :
    ∃ k, n = k + 1 ∧ t'.tasks.length + e.ground.heap.maxObjects = k + q.seen.length ∧
      Owing e.ground t.memory q (t'.tasks ++ task :: rest) := by
  have hlevel := ht.level
  have hlength := htasks.length_eq
  have hseen := ht.toured.length_le hg
  rw [List.length_cons] at hlength
  refine ⟨n - 1, by omega, by omega, ht.owing.perm ?_⟩
  exact (htasks.append_right rest).trans List.perm_middle.symm

-- Slots come first. Either one is taken off its queue, or there is none.
theorem popLocation (ht : Touring e n t q rest) : ∃ t',
    (∃ slot k, t.popLocation = (some slot, t') ∧ n = k + 1 ∧ Touring e k t' q (.edge slot :: rest)) ∨
      t.popLocation = (none, t') ∧ Touring e n t' q rest ∧ t'.slots.contents = [] := by
  obtain ⟨hvalid, hsized⟩ := ht.slots
  obtain ⟨ends, chain, hpop, hvalid', hrest, hsized'⟩ := Ends.pop_ok hvalid hsized
  let t' : Tracing :=
    { t with locations := ends }.setQueues { t.shared.queues with locations := chain }
  refine ⟨t', ?_⟩
  have hpop' : t.popLocation = (t.slots.contents.head?, t') := by
    simp only [Tracing.popLocation, hpop, t']
  rw [hpop']
  cases hcontents : t.slots.contents with
  | cons slot more =>
    rw [hcontents] at hrest
    have htasks : t.tasks.Perm (.edge slot :: t'.tasks) := by
      change List.Perm (_ ++ (t.slots.contents.map _ ++ _))
        (_ :: (_ ++ ((Solo.contents ⟨chain, ends⟩).map _ ++ _)))
      rw [hcontents, hrest]
      exact List.perm_middle
    obtain ⟨k, hk, hlevel, howing⟩ := ht.take hg htasks
    exact Or.inl ⟨slot, k, rfl, hk, { ht with
      slots := ⟨hvalid', hsized'⟩
      owing := howing
      level := hlevel }⟩
  | nil =>
    rw [hcontents] at hrest
    have htasks : t'.tasks = t.tasks := by
      change _ ++ ((Solo.contents ⟨chain, ends⟩).map _ ++ _) = _ ++ (t.slots.contents.map _ ++ _)
      rw [hcontents, hrest]
      rfl
    exact Or.inr ⟨rfl, { ht with
      slots := ⟨hvalid', hsized'⟩
      owing := by
        rw [htasks]
        exact ht.owing
      level := by rw [htasks, ht.level] }, hrest⟩

theorem popInterior (ht : Touring e n t q rest) : ∃ t',
    (∃ base slot k, t.popInterior = (some (base, slot), t') ∧ n = k + 1 ∧
      Touring e k t' q (.root (.interior base slot) :: rest)) ∨
      t.popInterior = (none, t') ∧ Touring e n t' q rest ∧ t'.pointers.contents = [] ∧
        t'.slots = t.slots := by
  obtain ⟨hvalid, hsized⟩ := ht.pointers
  obtain ⟨ends, chain, hpop, hvalid', hrest, hsized'⟩ := Ends.pop_ok hvalid hsized
  let t' : Tracing :=
    { t with interior := ends }.setQueues { t.shared.queues with interior := chain }
  refine ⟨t', ?_⟩
  have hpop' : t.popInterior = (t.pointers.contents.head?, t') := by
    simp only [Tracing.popInterior, hpop, t']
  rw [hpop']
  cases hcontents : t.pointers.contents with
  | cons entry more =>
    rw [hcontents] at hrest
    have htasks : t.tasks.Perm (.root (.interior entry.1 entry.2) :: t'.tasks) := by
      change List.Perm (_ ++ (_ ++ t.pointers.contents.map _))
        (_ :: (_ ++ (_ ++ (Solo.contents ⟨chain, ends⟩).map _)))
      rw [hcontents, hrest, ← List.append_assoc, ← List.append_assoc]
      exact List.perm_middle
    obtain ⟨k, hk, hlevel, howing⟩ := ht.take hg htasks
    exact Or.inl ⟨entry.1, entry.2, k, rfl, hk, { ht with
      pointers := ⟨hvalid', hsized'⟩
      owing := howing
      level := hlevel }⟩
  | nil =>
    rw [hcontents] at hrest
    have htasks : t'.tasks = t.tasks := by
      change _ ++ (_ ++ (Solo.contents ⟨chain, ends⟩).map _) =
        _ ++ (_ ++ t.pointers.contents.map _)
      rw [hcontents, hrest]
      rfl
    exact Or.inr ⟨rfl, { ht with
      pointers := ⟨hvalid', hsized'⟩
      owing := by
        rw [htasks]
        exact ht.owing
      level := by rw [htasks, ht.level] }, hrest, rfl⟩

theorem popValue (ht : Touring e n t q rest) : ∃ t',
    (∃ o k, t.popValue = (some o, t') ∧ n = k + 1 ∧ Touring e k t' q (.scan o :: rest)) ∨
      t.popValue = (none, t') ∧ Touring e n t' q rest ∧ t'.objects.contents = [] ∧
        t'.slots = t.slots ∧ t'.pointers = t.pointers := by
  obtain ⟨hvalid, hsized⟩ := ht.objects
  obtain ⟨ends, chain, hpop, hvalid', hrest, hsized'⟩ := Ends.pop_ok hvalid hsized
  let t' : Tracing :=
    { t with values := ends }.setQueues { t.shared.queues with values := chain }
  refine ⟨t', ?_⟩
  have hpop' : t.popValue = (t.objects.contents.head?, t') := by
    simp only [Tracing.popValue, hpop, t']
  rw [hpop']
  cases hcontents : t.objects.contents with
  | cons o more =>
    rw [hcontents] at hrest
    have htasks : t.tasks.Perm (.scan o :: t'.tasks) := by
      change List.Perm (t.objects.contents.map _ ++ _)
        (_ :: ((Solo.contents ⟨chain, ends⟩).map _ ++ _))
      rw [hcontents, hrest]
      exact List.Perm.refl _
    obtain ⟨k, hk, hlevel, howing⟩ := ht.take hg htasks
    exact Or.inl ⟨o, k, rfl, hk, { ht with
      objects := ⟨hvalid', hsized'⟩
      owing := howing
      level := hlevel }⟩
  | nil =>
    rw [hcontents] at hrest
    have htasks : t'.tasks = t.tasks := by
      change (Solo.contents ⟨chain, ends⟩).map _ ++ _ = t.objects.contents.map _ ++ _
      rw [hcontents, hrest]
      rfl
    exact Or.inr ⟨rfl, { ht with
      objects := ⟨hvalid', hsized'⟩
      owing := by
        rw [htasks]
        exact ht.owing
      level := by rw [htasks, ht.level] }, hrest, rfl, rfl⟩

-- Takes the next task, and tells whether there was one.
theorem processNext (ht : Touring e n t q rest) : Affords t.processNext fun p =>
    (p.1 = true ∧ ∃ k q', n = k + 1 ∧ Touring e k p.2 q' rest) ∨
      (p.1 = false ∧ p.2.tasks = [] ∧ Touring e n p.2 q rest) := by
  unfold Tracing.processNext
  obtain ⟨t₁, ⟨slot, k, hpop, hk, ht₁⟩ | ⟨hpop, ht₁, hslots⟩⟩ := ht.popLocation hg
  · simp only [hpop]
    exact (ht₁.processEdge hg).bind fun t' ⟨q', ht', _⟩ => .ok (Or.inl ⟨rfl, k, q', hk, ht'⟩)
  obtain ⟨t₂, ⟨base, slot, k, hpop₂, hk, ht₂⟩ | ⟨hpop₂, ht₂, hpointers, hsame⟩⟩ := ht₁.popInterior hg
  · simp only [hpop, hpop₂]
    exact (ht₂.processInterior hg).bind fun t' ⟨q', ht', _⟩ => .ok (Or.inl ⟨rfl, k, q', hk, ht'⟩)
  obtain ⟨t₃, ⟨o, k, hpop₃, hk, ht₃⟩ | ⟨hpop₃, ht₃, hobjects, hsame₃, hsame₃'⟩⟩ := ht₂.popValue hg
  · simp only [hpop, hpop₂, hpop₃]
    exact (ht₃.scanObject hg).bind fun t' ⟨q', ht'⟩ => .ok (Or.inl ⟨rfl, k, q', hk, ht'⟩)
  · simp only [hpop, hpop₂, hpop₃]
    refine .ok (Or.inr ⟨rfl, ?_, ht₃⟩)
    rw [Tracing.tasks, hobjects, hsame₃', hpointers, hsame₃, hsame, hslots]
    rfl

-- Tasks are taken until none is left.
theorem drain (fuel : Nat) (hfuel : n < fuel) (ht : Touring e n t q rest) :
    Affords (t.drain fuel) fun t' => t'.tasks = [] ∧ ∃ n' q', Touring e n' t' q' rest := by
  induction fuel generalizing n t q with
  | zero => omega
  | succ fuel ih =>
    unfold Tracing.drain
    refine (ht.processNext hg).bind ?_
    rintro ⟨more, t'⟩ (⟨hmore, k, q', hk, ht'⟩ | ⟨hmore, htasks, ht'⟩)
    · simp only at hmore ht'
      subst hmore
      exact ih (by omega) ht'
    · simp only at hmore ht' htasks
      subst hmore
      exact .ok ⟨htasks, n, q, ht'⟩

omit hg in
theorem maxObjects_eq (ht : Touring e n t q rest) :
    t.heap.maxObjects = e.ground.heap.maxObjects := by
  simp only [maxObjects, spaces, ht.toured.nursery_eq, ht.toured.immortal_eq, List.map_append,
    List.map_cons, (Space.range_congr ht.toured.mature_eq).2.1,
    (Space.range_congr ht.toured.large_eq).2.1]

omit hg in
theorem drainSteps_gt (ht : Touring e n t q rest) : n < t.drainSteps := by
  have hobjects : t.values.length t.shared.queues.values = t.objects.contents.length :=
    t.objects.length_eq
  have hslots : t.locations.length t.shared.queues.locations = t.slots.contents.length :=
    t.slots.length_eq
  have hpointers : t.interior.length t.shared.queues.interior = t.pointers.contents.length :=
    t.pointers.length_eq
  have hlevel := ht.level
  simp only [Tracing.tasks, List.length_append, List.length_map] at hlevel
  rw [Tracing.drainSteps, hobjects, hslots, hpointers, ht.maxObjects_eq]
  omega

omit hg in
-- What a collector publishes when it has nothing left to do.
theorem flush (ht : Touring e n t q rest) (htasks : t.tasks = []) :
    Touring e n t.flush q rest ∧ t.flush.tasks = [] ∧ t.flush.shared.queues.Idle e.buffer := by
  have hempty : t.objects.contents = [] ∧ t.slots.contents = [] ∧ t.pointers.contents = [] := by
    simpa [Tracing.tasks] using htasks
  have hv := Ends.flush_empty ht.objects.1 hempty.1 ht.objects.2
  have hl := Ends.flush_empty ht.slots.1 hempty.2.1 ht.slots.2
  have hi := Ends.flush_empty ht.pointers.1 hempty.2.2 ht.pointers.2
  have hidle : t.flush.shared.queues.Idle e.buffer := ⟨hv, hl, hi⟩
  have htasks' : t.flush.tasks = [] := Tracing.tasks_of_idle hidle rfl rfl rfl
  refine ⟨{ ht with
    objects := ⟨hv.1, hv.2.2⟩
    slots := ⟨hl.1, hl.2.2⟩
    pointers := ⟨hi.1, hi.2.2⟩
    owing := ?_
    level := ?_ }, htasks', hidle⟩
  · rw [htasks']
    have howing := ht.owing
    rw [htasks] at howing
    exact howing
  · have hlevel := ht.level
    rw [htasks] at hlevel
    rwa [htasks']

-- Everything is processed and published.
theorem work (ht : Touring e n t q rest) : Affords t.work fun t' =>
    t'.tasks = [] ∧ t'.shared.queues.Idle e.buffer ∧ ∃ n' q', Touring e n' t' q' rest :=
  (ht.drain hg _ ht.drainSteps_gt).bind fun _ ⟨htasks, n', q', ht'⟩ =>
    let ⟨h1, h2, h3⟩ := ht'.flush htasks
    .ok ⟨h2, h3, n', q', h1⟩

end Touring

end Reclaim
