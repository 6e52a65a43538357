import Reclaim.Proofs.Immortal
import Reclaim.Proofs.Space.Tenancy
import Reclaim.Proofs.Treadmill.Turning

/-!
A space of large objects over time. Objects are allocated, written and freed one by one; between the
start of a collection and its end some of them are visited, and the end frees the others. The books of
the space are compared with a record of what was called.
-/
namespace Reclaim

open Sizes Treadmill

structure LargeObjects where
  treadmill : Treadmill
  memory : Memory := .empty
  -- Whether a collection has begun and not ended.
  collecting : Bool := false
  -- The objects that were neither freed nor left unvisited, and the bytes that each was asked for with.
  live : List (Nat × Nat) := []
  -- The objects that were visited since the last collection began.
  visited : List Nat := []

namespace LargeObjects

inductive Op where
  -- The header is written before anything else can happen.
  | alloc (bytes align : Nat) (color : Color) (count : Nat)
  | prepare
  | visit (o : Nat)
  | release
  | free (o : Nat)
  | write (a v : Nat)

def perform (s : LargeObjects) : Op → Except Fault LargeObjects
  | .alloc bytes align color count => do
    let (o, treadmill, memory) ← s.treadmill.alloc s.memory bytes align
    .ok { s with
      treadmill
      memory := Object.setStatus memory o (Status.initial treadmill.markState color count)
      live := (o, bytes) :: s.live }
  | .prepare =>
    .ok { s with treadmill := s.treadmill.prepare, collecting := true, visited := [] }
  | .visit o => do
    let (_, treadmill, memory) ← s.treadmill.testAndMark s.memory o
    .ok { s with treadmill, memory, visited := o :: s.visited }
  | .release => do
    let (_, treadmill, memory) ← s.treadmill.release s.memory
    .ok { s with
      treadmill, memory, collecting := false, live := s.live.filter fun p => p.1 ∈ s.visited }
  | .free o => do
    let (treadmill, memory) ← s.treadmill.free s.memory o
    .ok { s with treadmill, memory, live := s.live.filter fun p => p.1 ≠ o }
  | .write a v => .ok { s with memory := s.memory.write a v }

def objects (s : LargeObjects) : List Nat := s.live.map Prod.fst

-- Nothing is allocated during a collection, only live objects are visited and freed, and what is written
-- lies in one of them or outside of the space. No write changes a mark.
def Allowed (s : LargeObjects) : Op → Prop
  | .alloc bytes _ _ _ => s.collecting = false ∧ bytes < 2 ^ 63
  | .prepare => s.collecting = false
  | .visit o | .free o => o ∈ s.objects
  | .release => s.collecting = true
  | .write a v => s.treadmill.contains a = false ∨ ∃ p ∈ s.live, p.1 ≤ a ∧ a < p.1 + p.2 ∧
    (a = p.1 → Status.mark v = Status.mark (Object.status s.memory p.1))

instance (s : LargeObjects) (op : Op) : Decidable (s.Allowed op) :=
  match op with
  | .alloc .. => inferInstanceAs (Decidable (_ ∧ _))
  | .prepare | .release => inferInstanceAs (Decidable (_ = _))
  | .visit _ | .free _ => inferInstanceAs (Decidable (_ ∈ _))
  | .write .. => inferInstanceAs (Decidable (_ ∨ _))

-- Operations in a row, as long as they are allowed and succeed.
def run (s : LargeObjects) : List Op → Option LargeObjects
  | [] => some s
  | op :: ops => if s.Allowed op then (s.perform op).toOption.bind fun s => run s ops else none

-- What a new space can come to. At first all its words are zero.
inductive Reached : LargeObjects → Prop
  | start (name : String) (bytes : Nat) {system : Nat → Option Nat} {space : Space} {memory : Memory} :
    Tenancy.Honest system → Space.reserve name bytes 1 system = .ok space →
    (∀ a, space.contains a = true → memory.read a = 0) → Reached { treadmill := { space }, memory }
  | step {s s' : LargeObjects} (op : Op) : Reached s → s.Allowed op → s.perform op = .ok s' → Reached s'

-- The lists, the set of live chunks, the tags, the marks and the pages in use fit together.
structure InOrder (s : LargeObjects) (unreached reached : List Nat) : Prop where
  unreached_valid : s.treadmill.unreached.Valid s.memory unreached
  reached_valid : s.treadmill.reached.Valid s.memory reached
  nodup : (unreached ++ reached).Nodup
  live_iff : ∀ chunk, s.treadmill.live.contains chunk = true ↔ chunk ∈ unreached ++ reached
  objects_perm : s.objects.Perm ((unreached ++ reached).map Chunk.object)
  count_eq : s.treadmill.objectCount = s.live.length
  tag_iff : ∀ chunk ∈ unreached ++ reached,
    (Chunk.tag s.memory chunk = .ok s.treadmill.tag ↔ chunk ∈ reached)
  mark_iff : s.collecting = true → ∀ chunk ∈ unreached ++ reached,
    (Status.mark (Object.status s.memory (Chunk.object chunk)) = s.treadmill.markState ↔
      chunk ∈ reached)
  used_eq : s.treadmill.space.used =
    (s.live.map fun p => bytesToPages (p.2 + Chunk.headerBytes)).sum

-- What every operation keeps.
structure Sound (s : LargeObjects) (unreached reached : List Nat) : Prop where
  treadmill : s.treadmill.Sound s.memory unreached reached
  room : s.treadmill.space.extent + blockBytes ≤ Word.bound / 2
  objects_perm : s.objects.Perm ((unreached ++ reached).map Chunk.object)
  pages : ∀ chunk ∈ unreached ++ reached, ∀ bytes, (Chunk.object chunk, bytes) ∈ s.live →
    s.memory.read (chunk + 16) = bytesToPages (bytes + Chunk.headerBytes)
  marked : ∀ chunk ∈ unreached ++ reached,
    (Status.isMarked (Object.status s.memory (Chunk.object chunk)) s.treadmill.markState = true ↔
      (s.collecting = true → chunk ∈ reached))
  visited : s.collecting = true → ∀ chunk ∈ unreached ++ reached,
    (chunk ∈ reached ↔ Chunk.object chunk ∈ s.visited)
  settled : s.collecting = false → reached = []

theorem extent_of_reserve {name : String} {bytes unit : Nat} {system : Nat → Option Nat}
    {space : Space} (hsystem : Tenancy.Honest system)
    (h : Space.reserve name bytes unit system = .ok space) :
    space.extent + blockBytes ≤ Word.bound / 2 := by
  simp only [Space.reserve] at h
  split at h
  · cases h
  obtain ⟨extent, -, h⟩ := bind_eq_ok.mp h
  split at h
  on_goal 2 => cases h
  rename_i mapping hmap
  cases h
  have hmax : max blockBytes 1 = blockBytes := rfl
  have hblock : Word.isPowerOfTwo blockBytes = true := by decide
  simp only [Mapping.Options.map, hmax, hblock, Bool.not_true, Bool.false_eq_true, if_false] at hmap
  split at hmap
  · cases hmap
  split at hmap
  · cases hmap
  split at hmap
  · cases hmap
  rename_i base hbase
  cases hmap
  obtain ⟨-, -, hend⟩ := hsystem _ _ hbase
  exact (Nat.le_add_left _ base).trans hend

variable {s s' : LargeObjects} {unreached reached : List Nat} {chunk : Nat}

theorem sound_start {name : String} {bytes : Nat} {system : Nat → Option Nat} {space : Space}
    {memory : Memory} (hsystem : Tenancy.Honest system)
    (h : Space.reserve name bytes 1 system = .ok space)
    (hblank : ∀ a, space.contains a = true → memory.read a = 0) :
    Sound { treadmill := { space }, memory } [] [] := by
  have hs := Tenancy.sound_reserve hsystem h hblank
  exact {
    treadmill := {
      space := hs.space
      unit_eq := Space.unit_of_reserve h
      start_le := nofun
      aligned := nofun
      live_iff := fun _ => ⟨nofun, nofun⟩
      unreached_valid := ⟨rfl, rfl, trivial⟩
      reached_valid := ⟨rfl, rfl, trivial⟩
      tag_le := Nat.zero_le 1
      unreached_tag := nofun
      reached_tag := nofun }
    room := extent_of_reserve hsystem h
    objects_perm := .refl _
    pages := nofun
    marked := nofun
    visited := nofun
    settled := fun _ => rfl }

namespace Sound

variable (hs : s.Sound unreached reached)
include hs

-- An object that lives has its chunk on one of the lists.
theorem exists_chunk {o : Nat} (ho : o ∈ s.objects) :
    ∃ chunk ∈ unreached ++ reached, o = Chunk.object chunk := by
  obtain ⟨chunk, hc, rfl⟩ := List.mem_map.mp (hs.objects_perm.mem_iff.mp ho)
  exact ⟨chunk, hc, rfl⟩

theorem object_mem : Chunk.object chunk ∈ s.objects ↔ chunk ∈ unreached ++ reached := by
  rw [hs.objects_perm.mem_iff, List.mem_map]
  exact ⟨fun ⟨c, hc, heq⟩ => object_inj.mp heq ▸ hc, fun hc => ⟨chunk, hc, rfl⟩⟩

-- Live objects that are picked by some condition.
theorem filter_perm (p : Nat → Bool) : ((s.live.filter fun q => p q.1).map Prod.fst).Perm
    ((unreached.filter (fun c => p (Chunk.object c)) ++
      reached.filter fun c => p (Chunk.object c)).map Chunk.object) := by
  have hperm := hs.objects_perm.filter p
  rw [objects, List.filter_map, List.filter_map, List.filter_append] at hperm
  exact hperm

theorem prepare (h : s.collecting = false) :
    Sound { s with treadmill := s.treadmill.prepare, collecting := true, visited := [] } unreached
      reached := by
  have hempty := hs.settled h
  subst hempty
  have ht := hs.treadmill
  refine { hs with
    treadmill := { ht with }
    marked := fun c hc => ?_
    visited := fun _ _ _ => by simp
    settled := nofun }
  have hmark : Status.isMarked (Object.status s.memory (Chunk.object c)) s.treadmill.markState = true :=
    (hs.marked c hc).mpr fun hcollecting => by rw [h] at hcollecting; cases hcollecting
  have hflip : Status.isMarked (Object.status s.memory (Chunk.object c)) s.treadmill.prepare.markState =
      false := (Immortal.isMarked_not _ _).trans (congrArg (!·) hmark)
  exact ⟨fun hfound => absurd (hfound.symm.trans hflip) (by decide), fun h => absurd (h rfl) (by simp)⟩

theorem alloc {bytes align count : Nat} {color : Color} (hrest : s.collecting = false)
    (hbytes : bytes < 2 ^ 63) (h : s.perform (.alloc bytes align color count) = .ok s') :
    ∃ chunk, s'.Sound (chunk :: unreached) reached := by
  have hempty := hs.settled hrest
  subst hempty
  have ht := hs.treadmill
  have hroom : bytes + 2 * pageBytes + s.treadmill.space.extent < Word.bound := by
    have hroom := hs.room
    simp only [pageBytes, blockBytes, Word.bound] at hroom ⊢
    omega
  simp only [perform, bind_eq_ok, Prod.exists] at h
  obtain ⟨o, t', m', hrun, hlast⟩ := h
  cases hlast
  obtain ⟨chunk, rfl, hsound, hgrown⟩ := ht.alloc hroom hrun
  have hpages := ht.alloc_pages hroom hrun hsound hgrown.pages_eq
  have hsame : ∀ a, a ≠ Chunk.object chunk → (Object.setStatus m' (Chunk.object chunk)
      (Status.initial t'.markState color count)).read a = m'.read a :=
    fun a ha => Memory.read_write_of_ne ha _
  have hword : ∀ c ∈ chunk :: unreached ++ [], c + 16 ≠ Chunk.object chunk := fun c hc =>
    (hsound.ne_header (Or.inr (hsound.inside_object List.mem_cons_self List.mem_cons_self)) hc (by decide)).symm
  exact ⟨chunk, {
    treadmill := hsound.congr fun a _ hnot => hsame a fun heq => hnot (by
      rw [heq]
      exact hsound.inside_object List.mem_cons_self List.mem_cons_self)
    room := by
      rw [(Space.range_congr hgrown.mapping_eq).2.1]
      exact hs.room
    objects_perm := hs.objects_perm.cons _
    pages := fun c hc bytes' hlive => by
      show (Object.setStatus m' _ _).read (c + 16) = _
      rw [hsame _ (hword c hc)]
      rcases List.mem_cons.mp hc with rfl | hc
      · rcases List.mem_cons.mp hlive with heq | hold
        · cases heq
          exact hpages
        · exact absurd (hs.object_mem.mp (List.mem_map_of_mem hold)) hgrown.fresh
      · have hne : c ≠ chunk := fun heq => hgrown.fresh (heq ▸ hc)
        rcases List.mem_cons.mp hlive with heq | hold
        · exact absurd (object_inj.mp (congrArg Prod.fst heq)) hne
        · rw [hgrown.pages_eq c hc]
          exact hs.pages c hc bytes' hold
    marked := fun c hc => by
      show Status.isMarked ((Object.setStatus m' _ _).read _) t'.markState = true ↔ _
      rcases List.mem_cons.mp hc with rfl | hc
      · rw [Object.setStatus, Memory.read_write_self, Immortal.isMarked_initial]
        exact ⟨fun _ h => absurd (h.symm.trans hrest) (by decide), fun _ => rfl⟩
      · have hne : Chunk.object c ≠ Chunk.object chunk := fun heq =>
          hgrown.fresh (object_inj.mp heq ▸ hc)
        rw [hsame _ hne, hgrown.frame _ (Or.inr (ht.inside_object hc hc)), hgrown.markState_eq]
        exact hs.marked c hc
    visited := fun hcollecting => by
      rw [hrest] at hcollecting
      cases hcollecting
    settled := fun _ => rfl }⟩

-- A visit finds an object unmarked that was not visited before, if a collection is under way.
theorem visit {o : Nat} (ho : o ∈ s.objects) :
    ∃ t' m' unreached' reached', s.treadmill.testAndMark s.memory o =
        .ok (s.collecting && !decide (o ∈ s.visited), t', m') ∧
      Sound { s with treadmill := t', memory := m', visited := o :: s.visited } unreached'
        reached' := by
  obtain ⟨chunk, hc, rfl⟩ := hs.exists_chunk ho
  have ht := hs.treadmill
  have hmark := hs.marked chunk hc
  have hvisited : s.collecting = true → ∀ c ∈ unreached ++ reached,
      ((c = chunk ∨ c ∈ reached) ↔ Chunk.object c ∈ Chunk.object chunk :: s.visited) :=
    fun h c hc => by rw [List.mem_cons, object_inj, hs.visited h c hc]
  cases hfound : Status.isMarked (Object.status s.memory (Chunk.object chunk))
      s.treadmill.markState with
  | true =>
    have hreached := hmark.mp hfound
    have hanswer : (s.collecting && !decide (Chunk.object chunk ∈ s.visited)) = false := by
      cases hcollecting : s.collecting with
      | false => rfl
      | true =>
        have hold := (hs.visited hcollecting chunk hc).mp (hreached hcollecting)
        rw [decide_eq_true hold]
        rfl
    refine ⟨s.treadmill, s.memory, unreached, reached, ?_, { hs with
      visited := fun h c hc => ?_ }⟩
    · rw [hanswer]
      exact ht.testAndMark_marked hc hfound
    · rw [← hvisited h c hc]
      exact ⟨Or.inr, fun hin => hin.elim (fun heq => heq ▸ hreached h) id⟩
  | false =>
    rw [hfound, iff_false_left Bool.false_ne_true, Classical.not_imp] at hmark
    obtain ⟨hcollecting, hnew⟩ := hmark
    have hold : Chunk.object chunk ∉ s.visited := fun hin =>
      hnew ((hs.visited hcollecting chunk hc).mpr hin)
    have hu := (List.mem_append.mp hc).resolve_right hnew
    have hset : ∀ a, a ≠ Chunk.object chunk → (Object.setStatus s.memory (Chunk.object chunk)
        (Status.flipMark (Object.status s.memory (Chunk.object chunk)))).read a = s.memory.read a :=
      fun a ha => Memory.read_write_of_ne ha _
    have hword : ∀ c ∈ unreached ++ reached, c + 16 ≠ Chunk.object chunk := fun c hmem =>
      (ht.ne_header (Or.inr (ht.inside_object hc hc)) hmem (by decide)).symm
    obtain ⟨t', m', hrun, hsound, hspace, hstate, hmarked, hkept⟩ := ht.testAndMark_unmarked hu hfound
    have hperm := perm_reach hu reached
    refine ⟨t', m', unreached.erase chunk, chunk :: reached, ?_, {
      treadmill := hsound
      room := by
        rw [hspace]
        exact hs.room
      objects_perm := hs.objects_perm.trans (hperm.symm.map _)
      pages := fun c hmem bytes hlive => by
        have hmem := hperm.mem_iff.mp hmem
        rw [hkept.pages_eq c hmem, hset _ (hword c hmem)]
        exact hs.pages c hmem bytes hlive
      marked := fun c hmem => by
        have hmem := hperm.mem_iff.mp hmem
        show Status.isMarked (m'.read (Chunk.object c)) t'.markState = true ↔ _
        rw [hkept.frame _ (Or.inr (hmarked.inside_object hmem hmem)), hstate]
        by_cases heq : c = chunk
        · subst heq
          rw [Object.setStatus, Memory.read_write_self, Immortal.isMarked_flipMark, hfound]
          exact ⟨fun _ _ => List.mem_cons_self, fun _ => rfl⟩
        · rw [hset _ fun h => heq (object_inj.mp h), List.mem_cons, or_iff_right heq]
          exact hs.marked c hmem
      visited := fun h c hmem => by
        rw [List.mem_cons]
        exact hvisited h c (hperm.mem_iff.mp hmem)
      settled := fun h => by
        rw [hcollecting] at h
        cases h }⟩
    rw [hcollecting, decide_eq_false hold]
    exact hrun

-- The end of a collection frees the objects that were not visited.
theorem release (hcollecting : s.collecting = true) :
    ∃ t' m', s.treadmill.release s.memory =
        .ok ((s.live.filter fun p => p.1 ∉ s.visited).length, t', m') ∧
      Sound { s with
        treadmill := t', memory := m', collecting := false,
        live := s.live.filter fun p => p.1 ∈ s.visited } reached [] := by
  have ht := hs.treadmill
  obtain ⟨t', m', hrun, hsound, hmapping, hstate, hkept⟩ := ht.release
  obtain ⟨-, -, hdisjoint⟩ := List.nodup_append.mp ht.nodup
  have hvisited := hs.visited hcollecting
  have hout : ∀ c ∈ unreached, Chunk.object c ∉ s.visited := fun c hc hin =>
    hdisjoint c hc c ((hvisited c (List.mem_append_left _ hc)).mpr hin) rfl
  have hin : ∀ c ∈ reached, Chunk.object c ∈ s.visited := fun c hc =>
    (hvisited c (List.mem_append_right _ hc)).mp hc
  have hcount : (s.live.filter fun p => p.1 ∉ s.visited).length = unreached.length := by
    have hall : unreached.filter (fun c => decide (Chunk.object c ∉ s.visited)) = unreached :=
      List.filter_eq_self.mpr fun c hc => decide_eq_true (hout c hc)
    have hnone : reached.filter (fun c => decide (Chunk.object c ∉ s.visited)) = [] :=
      List.filter_eq_nil_iff.mpr fun c hc => by simpa using hin c hc
    have hperm := (hs.filter_perm fun o => o ∉ s.visited).length_eq
    rwa [hall, hnone, List.append_nil, List.length_map, List.length_map] at hperm
  have hleft : ((s.live.filter fun p => p.1 ∈ s.visited).map Prod.fst).Perm
      (reached.map Chunk.object) := by
    have hnone : unreached.filter (fun c => decide (Chunk.object c ∈ s.visited)) = [] :=
      List.filter_eq_nil_iff.mpr fun c hc => by simpa using hout c hc
    have hall : reached.filter (fun c => decide (Chunk.object c ∈ s.visited)) = reached :=
      List.filter_eq_self.mpr fun c hc => decide_eq_true (hin c hc)
    have hperm := hs.filter_perm fun o => o ∈ s.visited
    rwa [hall, hnone, List.nil_append] at hperm
  exact ⟨t', m', hcount ▸ hrun, {
    treadmill := hsound
    room := by
      rw [(Space.range_congr hmapping).2.1]
      exact hs.room
    objects_perm := by
      rw [List.append_nil]
      exact hleft
    pages := fun c hc bytes hlive => by
      rw [List.append_nil] at hc
      show m'.read (c + 16) = _
      rw [hkept.pages_eq c hc]
      exact hs.pages c (List.mem_append_right _ hc) bytes (List.mem_of_mem_filter hlive)
    marked := fun c hc => by
      rw [List.append_nil] at hc
      have hmem := List.mem_append_right unreached hc
      show Status.isMarked (m'.read (Chunk.object c)) t'.markState = true ↔ _
      rw [hkept.frame _ (Or.inr (ht.inside_object hmem hc)), hstate]
      exact ⟨fun _ => nofun, fun _ => (hs.marked c hmem).mpr fun _ => hc⟩
    visited := nofun
    settled := fun _ => rfl }⟩

-- A live object can be freed, be it visited or not.
theorem free {o : Nat} (ho : o ∈ s.objects) :
    ∃ t' m' unreached' reached', s.treadmill.free s.memory o = .ok (t', m') ∧
      Sound { s with treadmill := t', memory := m', live := s.live.filter fun p => p.1 ≠ o }
        unreached' reached' := by
  obtain ⟨chunk, hc, rfl⟩ := hs.exists_chunk ho
  have ht := hs.treadmill
  obtain ⟨t', m', hrun, hsound, hmapping, hstate, hkept⟩ := ht.freeLive hc
  obtain ⟨hunreached, hreached, -⟩ := List.nodup_append.mp ht.nodup
  have hmem : ∀ c ∈ unreached.erase chunk ++ reached.erase chunk,
      c ∈ unreached ++ reached ∧ c ≠ chunk := fun c hc => by
    rcases List.mem_append.mp hc with hc | hc
    · obtain ⟨hne, hc⟩ := hunreached.mem_erase_iff.mp hc
      exact ⟨List.mem_append_left _ hc, hne⟩
    · obtain ⟨hne, hc⟩ := hreached.mem_erase_iff.mp hc
      exact ⟨List.mem_append_right _ hc, hne⟩
  have hleft : ((s.live.filter fun p => p.1 ≠ Chunk.object chunk).map Prod.fst).Perm
      ((unreached.erase chunk ++ reached.erase chunk).map Chunk.object) := by
    have hother : ∀ l : List Nat, l.Nodup →
        l.filter (fun c => decide (Chunk.object c ≠ Chunk.object chunk)) = l.erase chunk := by
      intro l hl
      rw [hl.erase_eq_filter]
      refine List.filter_congr fun c _ => ?_
      simp only [ne_eq, object_inj, bne, decide_not]
      rfl
    rw [← hother unreached hunreached, ← hother reached hreached]
    exact hs.filter_perm fun o => o ≠ Chunk.object chunk
  have hiff : ∀ c, c ≠ chunk → (c ∈ reached.erase chunk ↔ c ∈ reached) := fun c hne =>
    List.mem_erase_of_ne hne
  exact ⟨t', m', unreached.erase chunk, reached.erase chunk, hrun, {
    treadmill := hsound
    room := by
      rw [(Space.range_congr hmapping).2.1]
      exact hs.room
    objects_perm := hleft
    pages := fun c hc bytes hlive => by
      rw [hkept.pages_eq c hc]
      exact hs.pages c (hmem c hc).1 bytes (List.mem_of_mem_filter hlive)
    marked := fun c hc => by
      show Status.isMarked (m'.read (Chunk.object c)) t'.markState = true ↔ _
      rw [hkept.frame _ (Or.inr (ht.inside_object (hmem c hc).1 hc)), hstate, hiff c (hmem c hc).2]
      exact hs.marked c (hmem c hc).1
    visited := fun h c hc => by
      rw [hiff c (hmem c hc).2]
      exact hs.visited h c (hmem c hc).1
    settled := fun h => by
      rw [hs.settled h]
      rfl }⟩

-- Whatever else is to be freed is refused at once.
theorem free_error {o : Nat} (ho : o ∉ s.objects) : s.treadmill.free s.memory o =
    .error (if o < Chunk.headerBytes then .overflow else .fatal (.doubleFree o)) := by
  by_cases hlt : o < Chunk.headerBytes
  · have hsub : Chunk.ofObject o = .error .overflow := if_neg (by omega)
    rw [if_pos hlt, Treadmill.free, hsub, error_bind]
  · have hle : Chunk.headerBytes ≤ o := Nat.le_of_not_lt hlt
    have hdead : s.treadmill.live.contains (o - Chunk.headerBytes) = false := by
      refine Bool.eq_false_iff.mpr fun hlive => ho ?_
      rw [hs.treadmill.live_iff, ← hs.object_mem, Chunk.object, Nat.sub_add_cancel hle] at hlive
      exact hlive
    have hsub : Chunk.ofObject o = .ok (o - Chunk.headerBytes) := Word.sub_ok hle
    simp only [Treadmill.free, hsub, ok_bind, hdead, Bool.not_false, if_true, if_neg hlt, error_bind]

theorem write {a v : Nat} (h : s.Allowed (.write a v)) :
    Sound { s with memory := s.memory.write a v } unreached reached := by
  have ht := hs.treadmill
  have hroom : ∀ c ∈ unreached ++ reached, ∀ bytes, (Chunk.object c, bytes) ∈ s.live →
      bytes + Chunk.headerBytes ≤ pageBytes * s.memory.read (c + 16) := fun c hc bytes hlive => by
    rw [hs.pages c hc bytes hlive]
    simp only [bytesToPages, Word.ceilDiv, pageBytes]
    omega
  -- the write keeps to an object, or outside of the space
  have hwhere : s.treadmill.space.contains a = false ∨ Inside s.memory (unreached ++ reached) a := by
    refine h.imp_right ?_
    rintro ⟨⟨o, bytes⟩, hlive, h1, h2, -⟩
    obtain ⟨chunk, hc, rfl⟩ := hs.exists_chunk (List.mem_map_of_mem hlive)
    have hroom := hroom chunk hc bytes hlive
    simp only [Chunk.object] at h1 h2
    exact ⟨chunk, hc, h1, by omega⟩
  -- no object starts within another one
  have hsame : ∀ c ∈ unreached ++ reached, a = Chunk.object c →
      Status.mark v = Status.mark (Object.status s.memory a) := by
    rintro c hc rfl
    have hle := ht.page_le hc
    have hheader : Chunk.headerBytes < pageBytes := by decide
    rcases h with hout | ⟨⟨o, bytes⟩, hlive, h1, h2, hmark⟩
    · have hin : s.treadmill.space.contains (Chunk.object c) = true :=
        ht.contains_of_mem hc (Nat.le_add_right _ _) (by simp only [Chunk.object]; omega)
      exact absurd (hin.symm.trans hout) (by decide)
    · obtain ⟨c', hc', rfl⟩ := hs.exists_chunk (List.mem_map_of_mem hlive)
      have hroom := hroom c' hc' bytes hlive
      by_cases heq : c = c'
      · subst heq
        exact hmark rfl
      · have hd := ht.disjoint hc hc' heq
        simp only [Chunk.object] at h1 h2
        omega
  have hpages : ∀ c ∈ unreached ++ reached, (s.memory.write a v).read (c + 16) = s.memory.read (c + 16) :=
    fun c hc => Memory.read_write_of_ne (ht.ne_header hwhere hc (by decide)).symm _
  refine { hs with
    treadmill := ht.congr fun b hb hnot => Memory.read_write_of_ne (fun heq => ?_) _
    pages := fun c hc bytes hlive => (hpages c hc).trans (hs.pages c hc bytes hlive)
    marked := fun c hc => ?_ }
  · subst heq
    rcases hwhere with hout | hin
    · rw [hout] at hb
      cases hb
    · exact hnot hin
  · have hmark : Status.mark ((s.memory.write a v).read (Chunk.object c)) =
        Status.mark (Object.status s.memory (Chunk.object c)) := by
      by_cases heq : a = Chunk.object c
      · subst heq
        rw [Memory.read_write_self]
        exact hsame c hc rfl
      · rw [Memory.read_write_of_ne (Ne.symm heq)]
        rfl
    rw [← hs.marked c hc]
    simp only [Status.isMarked, Object.status, hmark]

theorem used_eq : s.treadmill.space.used =
    (s.live.map fun p => bytesToPages (p.2 + Chunk.headerBytes)).sum := by
  have hpages : ∀ p ∈ s.live, bytesToPages (p.2 + Chunk.headerBytes) =
      s.memory.read (p.1 - Chunk.headerBytes + 16) := fun p hp => by
    obtain ⟨chunk, hc, heq⟩ := hs.exists_chunk (List.mem_map_of_mem hp)
    have hread := hs.pages chunk hc p.2 (by rw [← heq]; exact hp)
    rw [heq, Chunk.object, Nat.add_sub_cancel, hread]
  have hsum := (hs.objects_perm.map fun o => s.memory.read (o - Chunk.headerBytes + 16)).sum_eq
  rw [objects, List.map_map, List.map_map] at hsum
  rw [hs.treadmill.space.used_eq, List.map_map, List.map_congr_left hpages]
  refine Eq.trans ?_ hsum.symm
  refine congrArg List.sum (List.map_congr_left fun c _ => ?_)
  simp only [Function.comp_apply, runOf, Chunk.object, Nat.add_sub_cancel]

theorem inOrder : s.InOrder unreached reached := by
  have ht := hs.treadmill
  exact { ht, hs with
    nodup := ht.nodup
    used_eq := hs.used_eq
    count_eq := by
      have hlength := hs.objects_perm.length_eq
      rw [objects, List.length_map, List.length_map, List.length_append] at hlength
      rw [hlength, objectCount, ht.unreached_valid.length_eq, ht.reached_valid.length_eq]
    tag_iff := fun c hc => by
      rw [Chunk.tag_ok (ht.fits hc), Except.ok.injEq]
      refine ⟨fun htag => (List.mem_append.mp hc).resolve_left fun hu => ?_, ht.reached_tag c⟩
      have hle := ht.tag_le
      have hother := ht.unreached_tag c hu
      omega
    mark_iff := fun h c hc => by
      have hmark := hs.marked c hc
      rw [Status.isMarked, beq_iff_eq] at hmark
      exact hmark.trans ⟨fun hr => hr h, fun hr _ => hr⟩ }

theorem perform {op : Op} (hallowed : s.Allowed op) (h : s.perform op = .ok s') :
    ∃ unreached' reached', s'.Sound unreached' reached' := by
  cases op with
  | alloc bytes align color count =>
    obtain ⟨chunk, hsound⟩ := hs.alloc hallowed.1 hallowed.2 h
    exact ⟨_, _, hsound⟩
  | prepare =>
    cases h
    exact ⟨_, _, hs.prepare hallowed⟩
  | visit o =>
    obtain ⟨t', m', unreached', reached', hrun, hsound⟩ := hs.visit hallowed
    simp only [LargeObjects.perform, hrun, ok_bind] at h
    cases h
    exact ⟨_, _, hsound⟩
  | release =>
    obtain ⟨t', m', hrun, hsound⟩ := hs.release hallowed
    simp only [LargeObjects.perform, hrun, ok_bind] at h
    cases h
    exact ⟨_, _, hsound⟩
  | free o =>
    obtain ⟨t', m', unreached', reached', hrun, hsound⟩ := hs.free hallowed
    simp only [LargeObjects.perform, hrun, ok_bind] at h
    cases h
    exact ⟨_, _, hsound⟩
  | write a v =>
    cases h
    exact ⟨_, _, hs.write hallowed⟩

end Sound

theorem Reached.sound (h : Reached s) : ∃ unreached reached, s.Sound unreached reached := by
  induction h with
  | start _ _ hsystem hreserve hblank => exact ⟨[], [], sound_start hsystem hreserve hblank⟩
  | step _ _ hallowed hrun ih =>
    obtain ⟨unreached, reached, hs⟩ := ih
    exact hs.perform hallowed hrun

-- Whatever was called before: the lists, the live set, the tags, the marks and the pages fit together.
-- A visit answers whether it is the first one since the collection began, the end of a collection frees
-- all that was not visited, a live object can be freed at any time, and nothing else can be.
theorem Reached.turns (h : Reached s) :
    (∃ unreached reached, s.InOrder unreached reached) ∧
      (∀ o ∈ s.objects, ∃ t m, s.treadmill.testAndMark s.memory o =
        .ok (s.collecting && !decide (o ∈ s.visited), t, m)) ∧
      (s.collecting = true → ∃ t m, s.treadmill.release s.memory =
          .ok ((s.live.filter fun p => p.1 ∉ s.visited).length, t, m) ∧
        ∀ chunk, t.live.contains chunk = true ↔
          Chunk.object chunk ∈ s.objects ∧ Chunk.object chunk ∈ s.visited) ∧
      (∀ o ∈ s.objects, ∃ t m, s.treadmill.free s.memory o = .ok (t, m)) ∧
      ∀ o ∉ s.objects, s.treadmill.free s.memory o =
        .error (if o < Chunk.headerBytes then .overflow else .fatal (.doubleFree o)) := by
  obtain ⟨unreached, reached, hs⟩ := h.sound
  refine ⟨⟨_, _, hs.inOrder⟩, fun o ho => ?_, fun hcollecting => ?_, fun o ho => ?_,
    fun o ho => hs.free_error ho⟩
  · obtain ⟨t, m, -, -, hrun, -⟩ := hs.visit ho
    exact ⟨t, m, hrun⟩
  · obtain ⟨t, m, hrun, hsound⟩ := hs.release hcollecting
    refine ⟨t, m, hrun, fun chunk => ?_⟩
    rw [hsound.treadmill.live_iff, ← hsound.object_mem]
    simp [objects]
  · obtain ⟨t, m, -, -, hrun, -⟩ := hs.free ho
    exact ⟨t, m, hrun⟩

theorem Reached.run {ops : List Op} (hs : Reached s) (h : s.run ops = some s') : Reached s' := by
  induction ops generalizing s with
  | nil =>
    cases h
    exact hs
  | cons op ops ih =>
    unfold LargeObjects.run at h
    split at h
    · rename_i hallowed
      obtain ⟨s₁, hstep, hrest⟩ := Option.bind_eq_some_iff.mp h
      refine ih (hs.step op hallowed ?_) hrest
      cases hrun : s.perform op with
      | ok s₂ =>
        rw [hrun] at hstep
        cases hstep
        rfl
      | error fault =>
        rw [hrun] at hstep
        cases hstep
    · cases h

-- Three objects, one of which the first collection leaves unvisited. The second one has begun.
def turned : Option LargeObjects :=
  (Space.reserve "large" blockBytes 1 (Mapping.placeAt blockBytes)).toOption.bind fun space =>
    run { treadmill := { space } }
      [.alloc 100 8 .black 0, .alloc 5000 8 .black 0, .prepare, .visit (blockBytes + 32), .release,
        .alloc 100 8 .green 1, .prepare, .visit (blockBytes + pageBytes + 32)]

-- One of the two that live was visited by now.
theorem Reached.turns_twice : ∃ s, turned = some s ∧ Reached s ∧ s.treadmill.space.used = 2 ∧
    (∃ t m, s.treadmill.testAndMark s.memory (blockBytes + 32) = .ok (true, t, m)) ∧
    (∃ t m, s.treadmill.testAndMark s.memory (blockBytes + pageBytes + 32) = .ok (false, t, m)) ∧
    ∃ t m, s.treadmill.release s.memory = .ok (1, t, m) := by
  have hsystem : Tenancy.Honest (Mapping.placeAt blockBytes) :=
    Tenancy.honest_placeAt (by decide) (by decide) (by decide)
  obtain ⟨s, hs⟩ := Option.isSome_iff_exists.mp (show turned.isSome by decide +kernel)
  have hreached : Reached s := by
    obtain ⟨space, hspace, hrun⟩ := Option.bind_eq_some_iff.mp hs
    refine (Reached.start "large" blockBytes hsystem ?_ fun a _ => Memory.read_empty a).run hrun
    rw [eq_ok_get (Option.isSome_of_eq_some hspace)]
    simp only [hspace, Option.get_some]
  have hrecord : turned.all (fun s => s.collecting = true ∧ s.treadmill.space.used = 2 ∧
      s.objects = [blockBytes + pageBytes + 32, blockBytes + 32] ∧
      s.visited = [blockBytes + pageBytes + 32] ∧
      (s.live.filter fun p => p.1 ∉ s.visited).length = 1) = true := by decide +kernel
  rw [hs, Option.all_some, decide_eq_true_eq] at hrecord
  obtain ⟨hcollecting, hused, hobjects, hvisited, hcount⟩ := hrecord
  obtain ⟨-, hvisit, hrelease, -⟩ := hreached.turns
  rw [hobjects, hvisited, hcollecting] at hvisit
  obtain ⟨t, m, hrun, -⟩ := hrelease hcollecting
  rw [hcount] at hrun
  exact ⟨s, hs, hreached, hused, hvisit _ (by decide), hvisit _ (by decide), t, m, hrun⟩

end LargeObjects

end Reclaim
