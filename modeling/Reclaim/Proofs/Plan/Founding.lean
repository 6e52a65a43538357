import Reclaim.Proofs.Plan.Standing

/-!
A new plan. Its spaces lie one behind the other, the table of globals behind them, and all of them are
empty.
-/
namespace Reclaim

open CountedHeap Counting Heap Queue Sizes

variable {base : Nat} {types : Types}

namespace Mapping

-- Where systems place the first mapping.
structure Origin (base : Nat) : Prop where
  aligned : base % pageBytes = 0
  pos : 0 < base
  lt_limit : base < systemLimit

-- A mapping of blocks, as it is placed.
structure Placed (m : Mapping) (base length : Nat) : Prop where
  start_dvd : blockBytes ∣ m.start
  start_ge : base ≤ m.start
  stop_lt : m.start + length < base + length + blockBytes
  length_eq : m.length = length
  length_lt : length + blockBytes < systemLimit
  behind_eq : m.behind = base + length + blockBytes + gap

theorem map_ok {o : Options} {m : Mapping} (halign : o.align = blockBytes)
    (h : o.map (placeAt base) = .ok m) : m.Placed base o.length := by
  have hmax : max blockBytes 1 = blockBytes := rfl
  have hpadding : padding blockBytes = blockBytes := rfl
  have hpower : Word.isPowerOfTwo blockBytes = true := by decide
  simp only [Options.map, halign, hmax, hpadding, hpower, Bool.not_true, Bool.false_eq_true,
    if_false, placeAt] at h
  split at h
  · cases h
  split at h
  · cases h
  by_cases hlt : o.length + blockBytes < systemLimit
  on_goal 2 =>
    rw [if_neg hlt] at h
    cases h
  rw [if_pos hlt] at h
  have hround := Word.ceilDiv_mul_bounds (by decide : 0 < blockBytes) base
  have hstart : base + (Word.ceilDiv base blockBytes * blockBytes - base) =
      Word.ceilDiv base blockBytes * blockBytes := Nat.add_sub_cancel' hround.1
  cases h
  refine ⟨?_, ?_, ?_, rfl, hlt, by simp only [behind]; omega⟩
  · rw [Mapping.start, hstart]
    exact Dvd.intro_left _ rfl
  · rw [Mapping.start, hstart]
    exact hround.1
  · rw [Mapping.start, hstart]
    omega

end Mapping

namespace Space

-- A space of which nothing is in use.
structure Fresh (s : Space) (unit base : Nat) : Prop where
  sound : s.Sound [] .empty
  unit_eq : s.unit = unit
  start_ge : base ≤ s.start
  stop_le : s.stop ≤ s.mapping.behind
  extent_lt : s.extent < Mapping.systemLimit
  behind_mod : base % pageBytes = 0 → s.mapping.behind % pageBytes = 0
  lt_behind : base < s.mapping.behind
  behind_lt : s.mapping.behind < base + Mapping.systemLimit + Mapping.gap

theorem sound_new {name : String} {mapping : Mapping} {unit length : Nat}
    (hm : mapping.Placed base length) (hunit : 0 < unit) (hlength : blockBytes ∣ length)
    (hpos : 0 < base) (hlimit : base + Mapping.systemLimit < Word.bound) :
    Space.Sound { name, mapping, unit } [] .empty where
  unit_pos := hunit
  start_dvd := hm.start_dvd
  extent_dvd := by rw [extent, hm.length_eq]; exact hlength
  start_pos := hpos.trans_le hm.start_ge
  stop_lt := by
    have h1 := hm.stop_lt
    have h2 := hm.length_lt
    have h3 := hm.length_eq
    change mapping.start + mapping.length < Word.bound
    omega
  mapped_fits := by rw [Nat.zero_mul]; exact Nat.zero_le _
  unit_dvd := dvd_zero _
  runs := by rintro r (hr | hr) <;> cases hr
  cover_eq _ := rfl
  used_eq := rfl
  highWater_le := le_refl _
  blank a _ _ := Memory.read_empty a

-- What a reservation gives.
theorem reserve_ok {s : Space} {name : String} {bytes unit : Nat}
    (h : Plan.reserve name bytes unit base = .ok s) (hpos : 0 < base)
    (hlimit : base + Mapping.systemLimit < Word.bound) : s.Fresh unit base := by
  unfold Plan.reserve reserve at h
  split at h
  · cases h
  rename_i hpower
  have hunit : 0 < unit := by
    by_contra hzero
    rw [Nat.eq_zero_of_not_pos hzero] at hpower
    exact hpower (by decide)
  obtain ⟨extent, hextent, h⟩ := bind_eq_ok.mp h
  have hdvd := (Word.nextMultiple_ok (by decide) hextent).2.2
  dsimp only at h
  split at h
  on_goal 2 => cases h
  rename_i mapping hmap
  cases h
  have hm : mapping.Placed base extent := Mapping.map_ok rfl hmap
  have h1 := hm.stop_lt
  have h2 := hm.length_eq
  have h3 := hm.length_lt
  have h4 := hm.behind_eq
  exact {
    sound := sound_new hm hunit hdvd hpos hlimit
    unit_eq := rfl
    start_ge := hm.start_ge
    stop_le := by
      change mapping.start + mapping.length ≤ mapping.behind
      omega
    extent_lt := by
      change mapping.length < Mapping.systemLimit
      omega
    behind_mod := fun hmod => by
      change mapping.behind % pageBytes = 0
      simp only [pageBytes, blockBytes, Mapping.gap] at hmod hdvd h4 ⊢
      omega
    lt_behind := by
      change base < mapping.behind
      simp only [blockBytes] at h4
      omega
    behind_lt := by
      change mapping.behind < _
      omega }

end Space

theorem Treadmill.sound_new {s : Space} (hs : s.Fresh 1 base) :
    Treadmill.Sound { space := s } .empty [] [] where
  space := hs.sound
  unit_eq := hs.unit_eq
  start_le := nofun
  aligned := nofun
  live_iff chunk := by simp
  unreached_valid := ⟨rfl, rfl, trivial⟩
  reached_valid := ⟨rfl, rfl, trivial⟩
  tag_le := Nat.zero_le 1
  unreached_tag := nofun
  reached_tag := nofun

theorem Plots.new {s : Space} (hs : s.Fresh blockPages base) : Plots s .empty [] [] [] where
  space := hs.sound
  unit_eq := hs.unit_eq
  aligned := nofun
  room_in := nofun
  rooms_apart := List.Pairwise.nil
  owned_in := nofun
  owned_blank := nofun
  owned_apart := nofun
  bumps_apart := List.Pairwise.nil

-- The spaces of a new plan lie one behind the other from `base` on.
structure Spaces (base : Nat) (nursery : Option Space) (mature large immortal : Space) : Prop where
  first : ∀ s, nursery = some s → s.Fresh blockPages base
  second : mature.Fresh blockPages ((nursery.map (·.mapping.behind)).getD base)
  third : large.Fresh 1 mature.mapping.behind
  fourth : immortal.Fresh blockPages large.mapping.behind

namespace Spaces

variable {nursery : Option Space} {mature large immortal : Space}
variable (hs : Spaces base nursery mature large immortal)
include hs

theorem base_le_mature : base ≤ mature.start ∧ ∀ s, nursery = some s → s.stop ≤ mature.start := by
  have h1 := hs.second.start_ge
  cases hn : nursery with
  | none =>
    rw [hn] at h1
    exact ⟨h1, nofun⟩
  | some s =>
    rw [hn] at h1
    have hnursery := hs.first s hn
    refine ⟨hnursery.lt_behind.le.trans h1, fun t ht => ?_⟩
    cases ht
    exact hnursery.stop_le.trans h1

theorem behind_mod (hmod : base % pageBytes = 0) : immortal.mapping.behind % pageBytes = 0 := by
  refine hs.fourth.behind_mod (hs.third.behind_mod (hs.second.behind_mod ?_))
  cases hn : nursery with
  | none => exact hmod
  | some s => exact (hs.first s hn).behind_mod hmod

-- All spaces end before the table of globals.
theorem stop_le : (∀ s, nursery = some s → s.stop ≤ immortal.mapping.behind) ∧
    mature.stop ≤ immortal.mapping.behind ∧ large.stop ≤ immortal.mapping.behind ∧
    immortal.stop ≤ immortal.mapping.behind := by
  have h1 := hs.second.stop_le
  have h2 := hs.third.stop_le
  have h3 := hs.fourth.stop_le
  have h4 := hs.third.lt_behind
  have h5 := hs.fourth.lt_behind
  have h6 : mature.start ≤ mature.stop := Nat.le_add_right _ _
  exact ⟨fun s hn => by
    have := hs.base_le_mature.2 s hn
    omega, by omega, by omega, h3⟩

end Spaces

namespace Heap

-- A heap of which nothing is in use.
def ofSpaces (types : Types) (nursery : Option Space) (mature large immortal : Space) : Heap where
  types := types
  nursery := nursery
  mature := { space := mature }
  large := { space := large }
  immortal := { space := immortal }

theorem sound_new {nursery : Option Space} {mature large immortal : Space} (htypes : types.Sound)
    (hs : Spaces base nursery mature large immortal) :
    Sound (.ofSpaces types nursery mature large immortal) {} where
  types := htypes
  nursery s hn := Plots.new (hs.first s hn)
  nursery_none _ := rfl
  mature := Cells.sound_new hs.second.sound hs.second.unit_eq
  large := Treadmill.sound_new hs.third
  immortal := Plots.new hs.fourth
  ordered := by
    have h1 := hs.second.stop_le.trans hs.third.start_ge
    have h2 := hs.third.stop_le.trans hs.fourth.start_ge
    have h3 : large.start ≤ large.stop := Nat.le_add_right _ _
    have h4 : mature.start ≤ mature.stop := Nat.le_add_right _ _
    have hrest : [mature, large, immortal].Pairwise fun s t => s.stop ≤ t.start :=
      .cons (by simpa using ⟨h1, h1.trans (h3.trans h2)⟩) (.cons (by simpa using h2) (.cons nofun .nil))
    cases hn : nursery with
    | none => exact hrest
    | some s =>
      have h5 := hs.base_le_mature.2 s hn
      have h6 : s.stop ≤ large.start ∧ s.stop ≤ immortal.start := by omega
      exact .cons (by simpa using ⟨h5, h6⟩) hrest
  extents := by
    have hrest : ∀ s ∈ [mature, large, immortal], s.extent < Mapping.systemLimit := by
      simpa using ⟨hs.second.extent_lt, hs.third.extent_lt, hs.fourth.extent_lt⟩
    intro s hmem
    rcases List.mem_append.mp hmem with hmem | hmem
    · exact (hs.first s (Option.mem_toList.mp hmem)).extent_lt
    · exact hrest s hmem

theorem not_room_new {h : Heap} (hmature : h.mature.listing = []) {kind : SpaceKind} {o bytes : Nat} :
    ¬Room h {} kind o bytes := by
  intro hr
  cases hr with
  | young hr => cases hr
  | cell hr =>
    obtain ⟨block, hb, -⟩ := hr
    rw [hmature] at hb
    cases hb
  | chunk hr => cases hr
  | plot hr => cases hr

end Heap

namespace Config

-- Numbers that must not be zero, and one that must not be too large.
theorem validate_ok {c : Config} (h : c.validate = .ok ()) : c.collectorThreads ≠ 0 ∧
    c.greyVisitGrain ≠ 0 ∧ c.greyVisitBound ≠ 0 ∧ c.filterBound ≠ 0 ∧
    c.largeObjectThreshold ≤ SizeClass.largest := by
  have hcheck : ∀ {field reason : String} {holds : Bool},
      check field reason holds = .ok () → holds = true := by
    intro field reason holds hc
    unfold check at hc
    split at hc
    · assumption
    · cases hc
  simp only [validate, bind_eq_ok] at h
  obtain ⟨_, -, _, -, _, -, _, -, _, -, _, h1, _, -, _, h3, _, -, h2⟩ := h
  have h1 := hcheck h1
  have h2 := hcheck h2
  have h3 := hcheck h3
  simp only [Bool.and_eq_true, bne_iff_ne, decide_eq_true_eq] at h1 h2 h3
  exact ⟨h1, h2.1.1, h2.1.2, h2.2, h3.2⟩

end Config

-- Nothing waits in a new state.
theorem CountState.new_ok {c : Config} {counts : CountState} (h : CountState.new c = .ok counts) :
    ∃ settings : Trial.Settings, settings.visitGrain = c.greyVisitGrain ∧
      settings.visitBound = c.greyVisitBound ∧ settings.filterBound = c.filterBound ∧
      counts = { decrements := .new "decrements" c.queueBufferEntries
                 newRoots := .new "new-roots" c.queueBufferEntries, cycles := .new settings } := by
  obtain ⟨settings, hsettings, hcounts⟩ := bind_eq_ok.mp h
  obtain ⟨limit, -, hsettings⟩ := bind_eq_ok.mp hsettings
  cases hsettings
  exact ⟨_, rfl, rfl, rfl, (Except.ok.inj hcounts).symm⟩

-- The account of an empty heap.
theorem Books.new (h : Heap) (settings : Trial.Settings) : Books h ∅ [] (.new settings) where
  word := nofun
  plain := nofun
  closed o ho := absurd (mem_live.mp ho).1 (Finset.notMem_empty o)
  anchored := nofun
  count_eq := nofun
  candidates := {
    valid := ⟨Solo.Valid.new _ _, Solo.Valid.new _ _, Solo.Valid.new _ _, Solo.Valid.new _ _,
      Solo.Valid.new _ _⟩
    once := List.nodup_nil
    mem := nofun
    flagged := nofun
    filtered_eq := rfl
    cycleA_eq := rfl
    cycleB_eq := rfl }
  dead := nofun

theorem Tended.new (h : Heap) (c : Trial.Collector) : Tended h ∅ c := fun s hs => by
  obtain ⟨x, hx⟩ := hs.nonempty
  exact absurd (mem_live.mp (hs.subset hx)).1 (Finset.notMem_empty x)

namespace Plan

variable {p : Plan} {config : Config} {scheduler : Scheduler}

theorem reserve_spaces (horigin : Mapping.Origin base) {nursery : Option Space}
    {mature large immortal : Space} {sizes : Config}
    (hfirst : ∀ s, nursery = some s → s.Fresh blockPages base)
    (hmature : reserve "mature" sizes.matureBytes blockPages
      ((nursery.map (·.mapping.behind)).getD base) = .ok mature)
    (hlarge : reserve "large" sizes.largeBytes 1 mature.mapping.behind = .ok large)
    (himmortal : reserve "immortal" sizes.immortalBytes blockPages large.mapping.behind =
      .ok immortal) : Spaces base nursery mature large immortal := by
  have hlimit := horigin.lt_limit
  have hpos := horigin.pos
  have hroom : 8 * Mapping.systemLimit < Word.bound := by decide
  have hgap : Mapping.gap < Mapping.systemLimit := by decide
  have hnext : 0 < (nursery.map (·.mapping.behind)).getD base ∧
      (nursery.map (·.mapping.behind)).getD base ≤ base + Mapping.systemLimit + Mapping.gap := by
    cases hn : nursery with
    | none => exact ⟨hpos, by simp only [Option.map_none, Option.getD_none]; omega⟩
    | some s => exact ⟨hpos.trans (hfirst s hn).lt_behind, (hfirst s hn).behind_lt.le⟩
  have hsecond := Space.reserve_ok hmature hnext.1 (by omega)
  have h1 := hsecond.lt_behind
  have h2 := hsecond.behind_lt
  have hthird := Space.reserve_ok hlarge (by omega) (by omega)
  have h3 := hthird.lt_behind
  have h4 := hthird.behind_lt
  exact ⟨hfirst, hsecond, hthird, Space.reserve_ok himmortal (by omega) (by omega)⟩

-- A new plan and its spaces, with the table of globals behind them.
structure Founded (base : Nat) (config : Config) (types : Types) (scheduler : Scheduler)
    (nursery : Option Space) (mature large immortal : Space) (counts : Option CountState)
    (p : Plan) : Prop where
  spaces : Spaces base nursery mature large immortal
  valid : config.validate = .ok ()
  plan_eq : p = {
    config, scheduler
    heap := .ofSpaces types nursery mature large immortal
    globals := ⟨immortal.mapping.behind, config.globalRootSlots⟩
    queues := .new config.queueBufferEntries
    workers := (List.range config.collectorThreads).map fun i => { ordinal := i + 1 }
    counts
    timeCap := capNanos config.timeCap }

theorem Globals.new_eq {base size : Nat} {g : Globals} (h : Globals.new base size = .ok g) :
    g = ⟨base, size⟩ := by
  obtain ⟨_, -, h⟩ := bind_eq_ok.mp h
  exact (Except.ok.inj h).symm

theorem Worker.table_eq {n : Nat} {workers : List Worker} (h : Worker.table n = .ok workers) :
    workers = (List.range n).map fun i => { ordinal := i + 1 } := by
  obtain ⟨_, -, h⟩ := bind_eq_ok.mp h
  exact (Except.ok.inj h).symm

-- One that counts references has no nursery.
theorem founded_refcount (h : Plan.new base config types scheduler = .ok p)
    (hpolicy : config.policy = .refcount) (horigin : Mapping.Origin base) :
    ∃ mature large immortal counts, CountState.new config = .ok counts ∧
      Founded base config types scheduler none mature large immortal (some counts) p := by
  simp only [Plan.new, hpolicy, bind_eq_ok] at h
  obtain ⟨_, hvalid, nursery, hnursery, h⟩ := h
  cases hnursery
  obtain ⟨mature, hmature, large, hlarge, immortal, himmortal, workers, hworkers, counts, hcounts,
    shared, hshared, globals, hglobals, h⟩ := h
  cases hshared
  cases h
  exact ⟨mature, large, immortal, counts, hcounts,
    reserve_spaces horigin nofun hmature hlarge himmortal, hvalid,
    by rw [Globals.new_eq hglobals, Worker.table_eq hworkers]; rfl⟩

-- One that copies counts nothing.
theorem founded_hybrid (h : Plan.new base config types scheduler = .ok p)
    (hpolicy : config.policy = .hybrid) (horigin : Mapping.Origin base) :
    ∃ nursery mature large immortal,
      Founded base config types scheduler (some nursery) mature large immortal none p := by
  simp only [Plan.new, hpolicy, bind_eq_ok] at h
  obtain ⟨_, hvalid, nursery, hnursery, young, hyoung, h⟩ := h
  cases hyoung
  obtain ⟨mature, hmature, large, hlarge, immortal, himmortal, workers, hworkers, counts, hcounts,
    globals, hglobals, h⟩ := h
  cases hcounts
  cases h
  have hlimit := horigin.lt_limit
  have hroom : 8 * Mapping.systemLimit < Word.bound := by decide
  have hfirst := Space.reserve_ok hnursery horigin.pos (by omega)
  refine ⟨nursery, mature, large, immortal,
    reserve_spaces horigin (fun s hs => ?_) hmature hlarge himmortal, hvalid,
    by rw [Globals.new_eq hglobals, Worker.table_eq hworkers]; rfl⟩
  cases hs
  exact hfirst

-- The slots of globals lie behind the spaces.
theorem slot_new (types : Types) {nursery : Option Space} {mature large immortal : Space}
    (hmod : base % pageBytes = 0) (hs : Spaces base nursery mature large immortal) (i : Nat) :
    Slot (.ofSpaces types nursery mature large immortal)
      (immortal.mapping.behind + wordBytes * i) := by
  have hbehind := hs.behind_mod hmod
  obtain ⟨hn, h1, h2, h3⟩ := hs.stop_le
  have hout : ∀ s : Space, s.stop ≤ immortal.mapping.behind →
      s.contains (immortal.mapping.behind + wordBytes * i) = false := fun s hs => by
    rw [Bool.eq_false_iff, Ne, Space.contains_iff]
    omega
  refine ⟨?_, ?_⟩
  · simp only [pageBytes, wordBytes] at hbehind ⊢
    omega
  · cases nursery with
    | none =>
      simp [ofSpaces, spaceOf?, inNursery, Cells.contains, Treadmill.contains, Immortal.contains,
        hout mature h1, hout large h2, hout immortal h3]
    | some s =>
      simp [ofSpaces, spaceOf?, inNursery, Cells.contains, Treadmill.contains, Immortal.contains,
        hout s (hn s rfl), hout mature h1, hout large h2, hout immortal h3]

-- A new plan is in order, whatever its configuration.
theorem standing_new (h : Plan.new base config types scheduler = .ok p)
    (hpolicy : config.policy = .refcount) (horigin : Mapping.Origin base) (htypes : types.Sound)
    (hnumbered : ∀ t ∈ scheduler.threads, t.Numbered)
    (hleads : ∀ t ∈ scheduler.threads, ∀ root ∈ t.roots, root.Leads p.heap ∅) :
    ∃ counts, Standing p [] counts {} ∅ [] ∅ := by
  obtain ⟨mature, large, immortal, counts, hcounts, hspaces, hvalid, rfl⟩ :=
    founded_refcount h hpolicy horigin
  obtain ⟨hthreads, hgrain, hbound, hfilter, -⟩ := Config.validate_ok hvalid
  obtain ⟨settings, h1, h2, h3, hcounts⟩ := CountState.new_ok hcounts
  refine ⟨counts, ?_⟩
  have hslot := slot_new types horigin.aligned hspaces
  generalize hheap : Heap.ofSpaces types none mature large immortal = heap at hleads hslot ⊢
  have hroom : ∀ kind o bytes, ¬Room heap {} kind o bytes := fun kind o bytes => by
    subst hheap
    exact not_room_new rfl
  subst hcounts
  exact {
    policy_eq := hpolicy
    counts_eq := rfl
    nursery_eq := by subst hheap; rfl
    workers_eq := ⟨config.collectorThreads - 1, by
      rw [Nat.sub_add_cancel (Nat.pos_of_ne_zero hthreads)]⟩
    populated := ⟨hheap ▸ sound_new htypes hspaces,
      fun _ _ _ hr => absurd hr (hroom _ _ _)⟩
    aligned := fun _ _ _ hr => absurd hr (hroom _ _ _)
    reached_eq := rfl
    roll := fun o => ⟨nofun, fun ⟨_, _, _, hr⟩ => absurd hr (hroom _ _ _)⟩
    inner := fun _ _ _ hr => absurd hr (hroom _ _ _)
    owners := nofun
    bumps := List.Perm.refl _
    books := Books.new heap settings
    decrements := Chain.Valid.new _ _ _
    newRoots := ⟨Chain.Valid.new _ _ _, Chain.entries_new _ _ _, Chain.Sized.new _ _ _⟩
    queues := ⟨⟨Chain.Valid.new _ _ _, Chain.entries_new _ _ _, Chain.Sized.new _ _ _⟩,
      ⟨Chain.Valid.new _ _ _, Chain.entries_new _ _ _, Chain.Sized.new _ _ _⟩,
      ⟨Chain.Valid.new _ _ _, Chain.entries_new _ _ _, Chain.Sized.new _ _ _⟩⟩
    rooted := {
      leads := fun root hroot => by
        rcases List.mem_append.mp hroot with hroot | hroot
        · obtain ⟨i, -, rfl⟩ := List.mem_map.mp hroot
          refine ⟨hslot i, Or.inl ?_⟩
          subst hheap
          exact Memory.read_empty _
        · obtain ⟨t, ht, hroot⟩ := List.mem_flatMap.mp hroot
          exact hleads t ht root hroot
      numbered := hnumbered }
    tended := Tended.new heap _
    anchored := nofun
    grain := h1 ▸ hgrain
    bound := h2 ▸ hbound
    filterBound := h3 ▸ hfilter }

end Plan

end Reclaim
