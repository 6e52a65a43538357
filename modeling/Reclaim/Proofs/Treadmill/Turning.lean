import Reclaim.Proofs.Treadmill

/-!
A treadmill that turns: chunks move from the unreached list to the reached one, those left behind are
given back, and the two lists change roles.
-/
namespace Reclaim

open Sizes

namespace ChunkList

variable {m : Memory} {chunks : List Nat} {prev : Nat}

theorem Links.follow (h : Links m prev chunks 0) (hfits : ∀ x ∈ chunks, Chunk.Fits x) {steps : Nat}
    (hsteps : chunks.length ≤ steps) :
    ChunkList.follow m steps (chunks.headD 0) = .ok chunks := by
  induction chunks generalizing prev steps with
  | nil => cases steps <;> rfl
  | cons chunk rest ih =>
    obtain ⟨-, hnext, hrest⟩ := h
    cases steps with
    | zero => cases hsteps
    | succ steps =>
      have hchunk := hfits chunk List.mem_cons_self
      have htail := ih hrest (fun x hx => hfits x (List.mem_cons_of_mem _ hx)) (Nat.le_of_succ_le_succ hsteps)
      have hnz : chunk ≠ 0 := hchunk.1
      simp only [ChunkList.follow, List.headD_cons, hnz, if_false, Chunk.next_ok hchunk, ok_bind, hnext,
        htail]

end ChunkList

namespace Treadmill

variable {t t' : Treadmill} {m m' : Memory} {unreached reached before after : List Nat} {chunk : Nat}

-- The lists change roles.
def swap (t : Treadmill) : Treadmill :=
  { t with unreached := t.reached, reached := t.unreached, tag := 1 - t.tag }

namespace Sound

variable (h : t.Sound m unreached reached)
include h

theorem swap : t.swap.Sound m reached unreached :=
  { space := h.space.perm (List.perm_append_comm.map _)
    unit_eq := h.unit_eq
    start_le := fun c hc => h.start_le c (List.perm_append_comm.mem_iff.mp hc)
    aligned := fun c hc => h.aligned c (List.perm_append_comm.mem_iff.mp hc)
    live_iff := fun c => (h.live_iff c).trans List.perm_append_comm.mem_iff
    unreached_valid := h.reached_valid
    reached_valid := h.unreached_valid
    tag_le := Nat.sub_le 1 t.tag
    unreached_tag := fun c hc => (h.reached_tag c hc).trans (Nat.sub_sub_self h.tag_le).symm
    reached_tag := h.unreached_tag }

end Sound

-- A chunk comes off the list that its tag names.
theorem free_swap (h : t.Sound m unreached reached) (hc : chunk ∈ reached) :
    t.free m (Chunk.object chunk) =
      (t.swap.free m (Chunk.object chunk)).map fun p => (p.1.swap, p.2) := by
  have hmem := List.mem_append_right unreached hc
  have hfits := h.fits hmem
  have htag := h.reached_tag chunk hc
  have hle := h.tag_le
  have hne : t.tag ≠ 1 - t.tag := by omega
  have hback : 1 - (1 - t.tag) = t.tag := Nat.sub_sub_self hle
  have hlive : t.live.contains chunk = true := (h.live_iff chunk).mpr hmem
  simp only [free, swap, ofObject_object, ok_bind, hlive, Chunk.pages_ok hfits, Chunk.tag_ok hfits, htag, hne,
    Bool.not_true, Bool.false_eq_true, if_true, if_false]
  cases t.reached.unlink m chunk with
  | error e => rfl
  | ok p =>
    simp only [ok_bind]
    cases t.space.release p.2 chunk (m.read (chunk + 16)) with
    | error e => rfl
    | ok q => simp only [ok_bind, Except.map, hback]

theorem erase_middle (hnodup : (before ++ chunk :: after).Nodup) :
    (before ++ chunk :: after).erase chunk = before ++ after := by
  have hbefore : chunk ∉ before := fun hmem =>
    (List.nodup_append.mp hnodup).2.2 chunk hmem chunk List.mem_cons_self rfl
  rw [List.erase_append_right _ hbefore, List.erase_cons_head]

-- One of the live chunks is given back.
theorem Sound.freeLive (h : t.Sound m unreached reached) (hc : chunk ∈ unreached ++ reached) :
    ∃ t' m', t.free m (Chunk.object chunk) = .ok (t', m') ∧
      t'.Sound m' (unreached.erase chunk) (reached.erase chunk) ∧
      t'.space.mapping = t.space.mapping ∧ t'.markState = t.markState ∧
      Kept t.space m (unreached.erase chunk ++ reached.erase chunk) m' := by
  obtain ⟨hunreached, hreached, hdisjoint⟩ := List.nodup_append.mp h.nodup
  rcases List.mem_append.mp hc with hu | hr
  · have hnone : reached.erase chunk = reached :=
      List.erase_of_not_mem fun hr => hdisjoint chunk hu chunk hr rfl
    obtain ⟨before, after, rfl⟩ := List.append_of_mem hu
    rw [erase_middle hunreached, hnone]
    exact h.free
  · have hnone : unreached.erase chunk = unreached :=
      List.erase_of_not_mem fun hu => hdisjoint chunk hu chunk hr rfl
    have hfree := free_swap h hr
    obtain ⟨before, after, rfl⟩ := List.append_of_mem hr
    obtain ⟨t', m', hrun, hsound, hmapping, hmark, hkept⟩ := h.swap.free
    rw [erase_middle hreached, hnone]
    rw [hrun] at hfree
    exact ⟨t'.swap, m', hfree, hsound.swap, hmapping, hmark, hkept.perm List.perm_append_comm⟩

-- Chunks are linked in another way: links and tags are written, and no other words.
theorem Sound.relink (h : t.Sound m unreached reached) {unreached' reached' : List Nat}
    {l l' : ChunkList} (hperm : (unreached' ++ reached').Perm (unreached ++ reached))
    (hvalid : l.Valid m' unreached') (hvalid' : l'.Valid m' reached')
    (htag : ∀ c ∈ unreached', m'.read (c + 24) = 1 - t.tag)
    (htag' : ∀ c ∈ reached', m'.read (c + 24) = t.tag)
    (hread : ∀ a, (∀ c ∈ unreached ++ reached, a ≠ c ∧ a ≠ c + 8 ∧ a ≠ c + 24) →
      m'.read a = m.read a) :
    Sound { t with unreached := l, reached := l' } m' unreached' reached' ∧
      Kept t.space m (unreached ++ reached) m' := by
  have hkept := h.kept hread
  exact ⟨h.rebuild hperm.subset (fun c hc => hkept.pages_eq c (hperm.subset hc))
    ((h.space_linked hread).perm (hperm.symm.map _)) rfl h.unit_eq
    (fun c => (h.live_iff c).trans hperm.mem_iff.symm) hvalid hvalid' h.tag_le htag htag', hkept⟩

-- A chunk moves from the unreached list to the reached one.
theorem Sound.reach (h : t.Sound m unreached reached) (hc : chunk ∈ unreached) :
    ∃ t' m', t.reach m chunk = .ok (t', m') ∧
      t'.Sound m' (unreached.erase chunk) (chunk :: reached) ∧ t'.space = t.space ∧
      t'.markState = t.markState ∧ Kept t.space m (unreached ++ reached) m' := by
  obtain ⟨hunreached, hreached, hdisjoint⟩ := List.nodup_append.mp h.nodup
  obtain ⟨before, after, rfl⟩ := List.append_of_mem hc
  rw [erase_middle hunreached]
  have hperm : (before ++ after ++ chunk :: reached).Perm (before ++ chunk :: after ++ reached) :=
    List.perm_middle.trans (List.perm_middle.symm.append_right reached)
  have hrest : ∀ c ∈ before ++ after, c ∈ before ++ chunk :: after ++ reached := fun c hc =>
    hperm.mem_iff.mp (List.mem_append_left _ hc)
  have hmoved : ∀ c ∈ chunk :: reached, c ∈ before ++ chunk :: after ++ reached := fun c hc =>
    hperm.mem_iff.mp (List.mem_append_right _ hc)
  obtain ⟨-, hapart, -⟩ := List.pairwise_append.mp
    ((hperm.pairwise_iff fun hxy => Or.symm hxy).mpr h.apart)
  obtain ⟨-, hnodup, hne⟩ := List.nodup_append.mp (hperm.nodup_iff.mpr h.nodup)
  have hfits := h.fits (hmoved chunk List.mem_cons_self)
  -- off the one list
  obtain ⟨l, m₁, hunlink, hvalid, hoff⟩ := h.unreached_valid.unlink
    (fun x hx => h.fits (List.mem_append_left _ hx)) (List.pairwise_append.mp h.apart).1
  have hkeep : ∀ c ∈ chunk :: reached, ∀ k < Chunk.headerBytes, m₁.read (c + k) = m.read (c + k) :=
    fun c hc k hk => h.word_of_links hrest hoff (hmoved c hc) hk fun hin => absurd rfl (hne c hin c hc)
  -- onto the other
  have hfar : ∀ c ∈ before ++ chunk :: after ++ reached, ∀ k < Chunk.headerBytes, (c = chunk → k ≠ 24) →
      (m₁.write (chunk + 24) t.tag).read (c + k) = m₁.read (c + k) := fun c hc k hk hck =>
    Memory.read_write_of_ne (h.header_ne hc (hmoved chunk List.mem_cons_self) hk (by decide) hck) _
  have hold : t.reached.Valid (m₁.write (chunk + 24) t.tag) reached := by
    refine h.reached_valid.congr fun x hx => ?_
    have hx := List.mem_cons_of_mem chunk hx
    exact ⟨(hfar x (hmoved x hx) 0 (by decide) fun _ => by decide).trans (hkeep x hx 0 (by decide)),
      (hfar x (hmoved x hx) 8 (by decide) fun _ => by decide).trans (hkeep x hx 8 (by decide))⟩
  obtain ⟨l', m₂, hpush, hvalid', hoff'⟩ := hold.push (fun x hx => h.fits (hmoved x hx)) hapart
  have hread : ∀ a, (∀ c ∈ chunk :: reached, a ≠ c ∧ a ≠ c + 8) →
      m₂.read a = (m₁.write (chunk + 24) t.tag).read a := fun a ha => by
    obtain ⟨h0, h8⟩ := ha chunk List.mem_cons_self
    exact hoff' a h0 h8 fun hr => (ha a (List.mem_cons_of_mem _ hr)).1 rfl
  have hleft : ∀ c ∈ before ++ after, ∀ k < Chunk.headerBytes, m₂.read (c + k) = m₁.read (c + k) :=
    fun c hc k hk =>
      (h.word_of_links hmoved hread (hrest c hc) hk fun hin => absurd rfl (hne c hc c hin)).trans
        (hfar c (hrest c hc) k hk fun heq => absurd heq (hne c hc chunk List.mem_cons_self))
  -- only links are written otherwise, so the tags are as before
  have htags : ∀ c ∈ before ++ chunk :: after ++ reached, c ≠ chunk →
      m₂.read (c + 24) = m.read (c + 24) := fun c hc hother =>
    (h.word_of_links hmoved hread hc (by decide) fun _ => by decide).trans
      ((hfar c hc 24 (by decide) fun heq => absurd heq hother).trans
        (h.word_of_links hrest hoff hc (by decide) fun _ => by decide))
  have hself : m₂.read (chunk + 24) = t.tag :=
    (h.word_of_links hmoved hread (hmoved chunk List.mem_cons_self) (by decide)
      fun _ => by decide).trans (Memory.read_write_self _ _ _)
  obtain ⟨hsound, hkept⟩ := h.relink hperm
    (hvalid.congr fun x hx => ⟨hleft x hx 0 (by decide), hleft x hx 8 (by decide)⟩) hvalid'
    (fun c hc => (htags c (hrest c hc) (hne c hc chunk List.mem_cons_self)).trans
      (h.unreached_tag c (List.perm_middle.mem_iff.mpr (List.mem_cons_of_mem _ hc))))
    (fun c hc => by
      rcases List.mem_cons.mp hc with rfl | hr
      · exact hself
      · rw [htags c (hmoved c hc) fun e => (List.nodup_cons.mp hnodup).1 (e ▸ hr)]
        exact h.reached_tag c hr)
    fun a ha => by
      rw [hread a fun c hc => ⟨(ha c (hmoved c hc)).1, (ha c (hmoved c hc)).2.1⟩,
        Memory.read_write_of_ne (ha chunk (hmoved chunk List.mem_cons_self)).2.2,
        hoff a fun c hc => ⟨(ha c (hrest c hc)).1, (ha c (hrest c hc)).2.1⟩]
  exact ⟨{ t with unreached := l, reached := l' }, m₂, by
    simp only [Treadmill.reach, hunlink, ok_bind, Chunk.setTag_ok hfits, hpush], hsound, rfl, rfl,
    hkept⟩

theorem perm_reach (hc : chunk ∈ unreached) (reached : List Nat) :
    (unreached.erase chunk ++ chunk :: reached).Perm (unreached ++ reached) :=
  List.perm_middle.trans ((List.perm_cons_erase hc).symm.append_right reached)

theorem Sound.check_object (h : t.Sound m unreached reached) (hc : chunk ∈ unreached ++ reached) :
    Object.check (Chunk.object chunk) = .ok () := by
  have halign := h.aligned chunk hc
  refine if_pos ?_
  simp only [Chunk.object, Chunk.headerBytes, wordBytes, pageBytes] at halign ⊢
  omega

theorem Sound.testAndMark_marked (h : t.Sound m unreached reached) (hc : chunk ∈ unreached ++ reached)
    (hmark : Status.isMarked (Object.status m (Chunk.object chunk)) t.markState = true) :
    t.testAndMark m (Chunk.object chunk) = .ok (false, t, m) := by
  simp only [Treadmill.testAndMark, h.check_object hc, ok_bind, Status.testAndMark?, hmark, if_true]

-- The mark is set first, then the chunk is moved.
theorem Sound.testAndMark_unmarked (h : t.Sound m unreached reached) (hc : chunk ∈ unreached)
    (hmark : Status.isMarked (Object.status m (Chunk.object chunk)) t.markState = false) :
    let m₁ := Object.setStatus m (Chunk.object chunk)
      (Status.flipMark (Object.status m (Chunk.object chunk)))
    ∃ t' m', t.testAndMark m (Chunk.object chunk) = .ok (true, t', m') ∧
      t'.Sound m' (unreached.erase chunk) (chunk :: reached) ∧ t'.space = t.space ∧
      t'.markState = t.markState ∧ t.Sound m₁ unreached reached ∧
      Kept t.space m₁ (unreached ++ reached) m' := by
  intro m₁
  have hmem := List.mem_append_left reached hc
  have hset : t.Sound m₁ unreached reached := h.congr fun a _ hnot =>
    Memory.read_write_of_ne (fun heq : a = _ => hnot (heq ▸ h.inside_object hmem hmem)) _
  obtain ⟨t', m', hrun, hsound, hspace, hstate, hkept⟩ := hset.reach hc
  refine ⟨t', m', ?_, hsound, hspace, hstate, hset, hkept⟩
  simp only [Treadmill.testAndMark, h.check_object hmem, ok_bind, Status.testAndMark?, hmark,
    Bool.false_eq_true, if_false, ofObject_object, m₁, hrun]

-- Some of the unreached chunks were given back, those of `rest` were not.
structure Releasing (t : Treadmill) (m : Memory) (unreached reached rest : List Nat)
    (state : Treadmill × Memory) : Prop where
  sub : (rest ++ reached).Sublist (unreached ++ reached)
  space : state.1.space.Sound ((rest ++ reached).map (runOf t.space m)) state.2
  mapping_eq : state.1.space.mapping = t.space.mapping
  unit_eq : state.1.space.unit = 1
  live_iff : ∀ c, state.1.live.contains c = true ↔ c ∈ rest ++ reached
  reached_eq : state.1.reached = t.reached
  tag_eq : state.1.tag = t.tag
  markState_eq : state.1.markState = t.markState
  frame : ∀ a, t.space.contains a = false ∨
    (∃ c ∈ rest ++ reached, c ≤ a ∧ a < c + pageBytes * m.read (c + 16)) → state.2.read a = m.read a

theorem Sound.releaseChunk (h : t.Sound m unreached reached) {rest : List Nat}
    {state : Treadmill × Memory} (hs : Releasing t m unreached reached (chunk :: rest) state) :
    ∃ state', releaseChunk state chunk = .ok state' ∧ Releasing t m unreached reached rest state' := by
  obtain ⟨t₁, m₁⟩ := state
  have hmem := hs.sub.subset List.mem_cons_self
  have hle := h.page_le hmem
  have hheader : Chunk.headerBytes < pageBytes := by decide
  simp only [Chunk.headerBytes] at hheader
  have hpages : m₁.read (chunk + 16) = m.read (chunk + 16) :=
    hs.frame _ (Or.inr ⟨chunk, List.mem_cons_self, by omega, by omega⟩)
  have hnot : chunk ∉ rest ++ reached := (List.nodup_cons.mp (hs.sub.nodup h.nodup)).1
  obtain ⟨s', m', hrelease, hspace, hmapping, hunit, hframe⟩ := h.release_pages
    (fun c hc => hs.sub.subset hc) hnot hs.space hs.mapping_eq hs.unit_eq
  refine ⟨({ t₁ with space := s', live := t₁.live.erase chunk }, m'), ?_,
    (List.sublist_cons_self _ _).trans hs.sub, hspace, hmapping, hunit, live_erase hs.live_iff hnot,
    hs.reached_eq, hs.tag_eq, hs.markState_eq, fun a ha => (hframe a ha).trans (hs.frame a ?_)⟩
  · simp only [Treadmill.releaseChunk, Chunk.pages_ok (h.fits hmem), hpages, hrelease, ok_bind]
  · exact ha.imp_right (Exists.imp fun _ hc => hc.imp_left (List.mem_cons_of_mem _))

-- No more chunks than pages, and no more pages than there is room for.
theorem Sound.length_le (h : t.Sound m unreached reached) :
    (unreached ++ reached).length ≤ t.steps := by
  have hpages := List.length_le_sum_of_one_le
    (((unreached ++ reached).map (runOf t.space m)).map (·.pages)) fun n hn => by
      obtain ⟨r, hr, rfl⟩ := List.mem_map.mp hn
      exact (h.space.runs r (Or.inr hr)).pos
  rw [← h.space.used_eq, List.length_map, List.length_map] at hpages
  have hused := h.space.used_le
  simp only [steps, wordBytes, pageBytes] at hused ⊢
  omega

-- What was not reached is given back, and what was reached is to be reached anew.
theorem Sound.release (h : t.Sound m unreached reached) :
    ∃ t' m', t.release m = .ok (unreached.length, t', m') ∧ t'.Sound m' reached [] ∧
      t'.space.mapping = t.space.mapping ∧ t'.markState = t.markState ∧
      Kept t.space m reached m' := by
  have hsteps : unreached.length ≤ t.steps :=
    (List.length_append ▸ Nat.le_add_right _ _).trans h.length_le
  have hfollow : ChunkList.follow m t.steps t.unreached.head = .ok unreached := by
    rw [h.unreached_valid.head_eq]
    exact h.unreached_valid.links.follow (fun x hx => h.fits (List.mem_append_left _ hx)) hsteps
  obtain ⟨⟨t₁, m'⟩, hrun, hend⟩ := foldlM_ok (f := Treadmill.releaseChunk)
    (Releasing t m unreached reached) (fun _ _ _ => h.releaseChunk) unreached (t, m)
    ⟨.refl _, h.space, rfl, h.unit_eq, h.live_iff, rfl, rfl, rfl, fun _ _ => rfl⟩
  have hmem : ∀ c ∈ reached, c ∈ unreached ++ reached := fun c hc => List.mem_append_right _ hc
  have hheader : ∀ c ∈ reached, ∀ k < Chunk.headerBytes, m'.read (c + k) = m.read (c + k) := by
    intro c hc k hk
    have hle := h.page_le (hmem c hc)
    have hsmall : Chunk.headerBytes < pageBytes := by decide
    exact hend.frame _ (Or.inr ⟨c, hc, by omega, by omega⟩)
  have hpages : ∀ c ∈ reached, m'.read (c + 16) = m.read (c + 16) := fun c hc =>
    hheader c hc 16 (by decide)
  have hsound : Sound { t₁ with unreached := t.reached, reached := {}, tag := 1 - t.tag } m' reached
      [] := by
    refine h.rebuild ?_ ?_ ?_ hend.mapping_eq hend.unit_eq ?_
      (h.reached_valid.congr fun x hx => ⟨hheader x hx 0 (by decide), hheader x hx 8 (by decide)⟩)
      ⟨rfl, rfl, trivial⟩ (Nat.sub_le 1 _) (fun c hc => ?_) (fun _ hc => absurd hc List.not_mem_nil)
    all_goals try rw [List.append_nil]
    · exact hmem
    · exact hpages
    · exact hend.space
    · exact hend.live_iff
    · rw [hheader c hc 24 (by decide), Nat.sub_sub_self h.tag_le]
      exact h.reached_tag c hc
  refine ⟨_, m', ?_, hsound, hend.mapping_eq, hend.markState_eq, hpages, fun a ha => ?_⟩
  · simp only [Treadmill.release, hfollow, ok_bind, hrun, h.unreached_valid.length_eq]
  · refine hend.frame a (ha.imp_right (Exists.imp fun c hc => hc.imp_right (And.imp_left ?_)))
    omega

-- A new chunk takes as many pages as the object and its header need.
theorem Sound.alloc_pages (h : t.Sound m unreached reached) {bytes align o : Nat}
    (hroom : bytes + 2 * pageBytes + t.space.extent < Word.bound)
    (hrun : t.alloc m bytes align = .ok (o, t', m'))
    (hsound : t'.Sound m' (chunk :: unreached) reached)
    (hkept : ∀ c ∈ unreached ++ reached, m'.read (c + 16) = m.read (c + 16)) :
    m'.read (chunk + 16) = bytesToPages (bytes + Chunk.headerBytes) := by
  simp only [Treadmill.alloc] at hrun
  split at hrun
  · cases hrun
  simp only [bind_eq_ok, Prod.exists] at hrun
  obtain ⟨total, htotal, c, s, hacquire, m₁, -, m₂, -, l, m₃, -, hlast⟩ := hrun
  cases hlast
  obtain ⟨rfl, -⟩ := Word.add_eq_ok.mp htotal
  have hlt : 0 < bytesToPages (bytes + Chunk.headerBytes) ∧
      pageBytes * bytesToPages (bytes + Chunk.headerBytes) < bytes + 2 * pageBytes := by
    simp only [bytesToPages, Word.ceilDiv, Chunk.headerBytes, pageBytes]
    omega
  -- the pages in use are counted once by the space and once by the headers
  have hspace := (h.spare hlt.1 (by omega) hacquire).space.used_eq
  have hheaders : s.used = _ := hsound.space.used_eq
  have hothers : ((unreached ++ reached).map (runOf s m')).map (·.pages) =
      ((unreached ++ reached).map (runOf t.space m)).map (·.pages) := by
    rw [List.map_map, List.map_map]
    exact List.map_congr_left hkept
  rw [List.cons_append, List.map_cons, List.map_cons, List.sum_cons, hothers] at hheaders
  rw [List.map_cons, List.sum_cons, hheaders] at hspace
  exact Nat.add_right_cancel hspace

end Treadmill

end Reclaim
