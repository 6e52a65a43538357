import Reclaim.Proofs.ChunkList
import Reclaim.Proofs.Space

/-!
The space of large objects. Together its two lists hold the chunks of the live objects, and no two
chunks overlap.
-/
namespace Reclaim

open Sizes

namespace Treadmill

variable {t t' : Treadmill} {m m' : Memory} {unreached reached : List Nat} {chunk : Nat}

-- The pages of a chunk, as its header tells.
def runOf (s : Space) (m : Memory) (chunk : Nat) : Run :=
  ⟨(chunk - s.start) / pageBytes, m.read (chunk + 16)⟩

-- The address lies behind the header of one of the chunks.
def Inside (m : Memory) (chunks : List Nat) (a : Nat) : Prop :=
  ∃ chunk ∈ chunks, chunk + Chunk.headerBytes ≤ a ∧ a < chunk + pageBytes * m.read (chunk + 16)

-- The pages of these chunks, what lies in them, and what lies outside of the space stay as they are.
structure Kept (s : Space) (m : Memory) (chunks : List Nat) (m' : Memory) : Prop where
  pages_eq : ∀ c ∈ chunks, m'.read (c + 16) = m.read (c + 16)
  frame : ∀ a, s.contains a = false ∨ Inside m chunks a → m'.read a = m.read a

theorem Kept.perm {s : Space} {chunks chunks' : List Nat} (h : Kept s m chunks m')
    (hperm : chunks.Perm chunks') : Kept s m chunks' m' :=
  ⟨fun c hc => h.pages_eq c (hperm.mem_iff.mpr hc), fun a ha =>
    h.frame a (ha.imp_right fun ⟨c, hc, hin⟩ => ⟨c, hperm.mem_iff.mpr hc, hin⟩)⟩

structure Sound (t : Treadmill) (m : Memory) (unreached reached : List Nat) : Prop where
  space : t.space.Sound ((unreached ++ reached).map (runOf t.space m)) m
  unit_eq : t.space.unit = 1
  start_le : ∀ chunk ∈ unreached ++ reached, t.space.start ≤ chunk
  aligned : ∀ chunk ∈ unreached ++ reached, chunk % pageBytes = 0
  live_iff : ∀ chunk, t.live.contains chunk = true ↔ chunk ∈ unreached ++ reached
  unreached_valid : t.unreached.Valid m unreached
  reached_valid : t.reached.Valid m reached
  tag_le : t.tag ≤ 1
  unreached_tag : ∀ chunk ∈ unreached, m.read (chunk + 24) = 1 - t.tag
  reached_tag : ∀ chunk ∈ reached, m.read (chunk + 24) = t.tag

namespace Sound

variable (h : t.Sound m unreached reached)
include h

theorem run_first (hc : chunk ∈ unreached ++ reached) :
    t.space.start + pageBytes * (runOf t.space m chunk).first = chunk ∧
      t.space.start + pageBytes * (runOf t.space m chunk).stop =
        chunk + pageBytes * m.read (chunk + 16) := by
  have h1 := h.start_le chunk hc
  have h2 := h.aligned chunk hc
  have h3 := Nat.mod_eq_zero_of_dvd h.space.start_dvd
  have hfirst : t.space.start + pageBytes * (runOf t.space m chunk).first = chunk := by
    simp only [runOf, pageBytes, blockBytes] at h2 h3 ⊢
    omega
  exact ⟨hfirst, by rw [Run.stop, Nat.mul_add, ← Nat.add_assoc, hfirst, runOf]⟩

theorem pages_pos (hc : chunk ∈ unreached ++ reached) : 0 < m.read (chunk + 16) :=
  (h.space.runs _ (Or.inr (List.mem_map_of_mem hc))).pos

theorem chunk_le (hc : chunk ∈ unreached ++ reached) :
    chunk + pageBytes * m.read (chunk + 16) ≤ t.space.stop := by
  have hle := h.space.run_le (List.mem_map_of_mem hc)
  rwa [(h.run_first hc).2] at hle

-- Every chunk takes a page at least.
theorem page_le (hc : chunk ∈ unreached ++ reached) :
    chunk + pageBytes ≤ chunk + pageBytes * m.read (chunk + 16) :=
  Nat.add_le_add_left (Nat.le_mul_of_pos_right _ (h.pages_pos hc)) _

theorem fits (hc : chunk ∈ unreached ++ reached) : Chunk.Fits chunk := by
  have h1 := h.start_le chunk hc
  have h2 := h.aligned chunk hc
  have h3 := h.space.start_pos
  have h4 := h.chunk_le hc
  have h5 := h.page_le hc
  have h6 := h.space.stop_lt
  have h7 : Chunk.headerBytes ≤ pageBytes := by decide
  refine ⟨by omega, ?_, by omega⟩
  simp only [wordBytes, pageBytes] at h2 ⊢
  omega

theorem nodup : (unreached ++ reached).Nodup := List.Nodup.of_map _ h.space.nodup

theorem cover_pos (hc : chunk ∈ unreached ++ reached) {a : Nat} (h1 : chunk ≤ a)
    (h2 : a < chunk + pageBytes * m.read (chunk + 16)) :
    0 < Run.cover ((unreached ++ reached).map (runOf t.space m)) (t.space.page a) := by
  obtain ⟨h3, h4⟩ := h.run_first hc
  exact Space.cover_of_run (List.mem_map_of_mem hc) (by omega) (by omega)

theorem contains_of_mem (hc : chunk ∈ unreached ++ reached) {a : Nat} (h1 : chunk ≤ a)
    (h2 : a < chunk + pageBytes * m.read (chunk + 16)) : t.space.contains a = true := by
  have h3 := h.start_le chunk hc
  have h4 := h.chunk_le hc
  exact (Space.contains_iff _ a).mpr (by omega)

theorem contains_header (hc : chunk ∈ unreached ++ reached) {a : Nat} (h1 : chunk ≤ a)
    (h2 : a < chunk + Chunk.headerBytes) : t.space.contains a = true := by
  have h3 := h.page_le hc
  have h4 : Chunk.headerBytes ≤ pageBytes := by decide
  exact h.contains_of_mem hc h1 (by omega)

-- Chunks do not overlap.
theorem disjoint {chunk' : Nat} (hc : chunk ∈ unreached ++ reached)
    (hc' : chunk' ∈ unreached ++ reached) (hne : chunk ≠ chunk') :
    chunk + pageBytes * m.read (chunk + 16) ≤ chunk' ∨
      chunk' + pageBytes * m.read (chunk' + 16) ≤ chunk := by
  have hperm := (List.perm_cons_erase hc).map (runOf t.space m)
  have hmem : chunk' ∈ (unreached ++ reached).erase chunk :=
    (List.mem_erase_of_ne (Ne.symm hne)).mpr hc'
  have hd := h.space.disjoint hperm (List.mem_map_of_mem hmem)
  obtain ⟨h1, h2⟩ := h.run_first hc
  obtain ⟨h3, h4⟩ := h.run_first hc'
  rcases hd with hd | hd
  · have := Nat.mul_le_mul_left pageBytes hd
    omega
  · have := Nat.mul_le_mul_left pageBytes hd
    omega

theorem apart : ChunkList.Apart (unreached ++ reached) := by
  refine List.Pairwise.imp_of_mem (fun {x y} hx hy hne => ?_) h.nodup
  have h1 := h.page_le hx
  have h2 := h.page_le hy
  have h3 : Chunk.headerBytes ≤ pageBytes := by decide
  have hd := h.disjoint hx hy hne
  omega

theorem not_inside_header (hc : chunk ∈ unreached ++ reached) {a : Nat} (h1 : chunk ≤ a)
    (h2 : a < chunk + Chunk.headerBytes) : ¬Inside m (unreached ++ reached) a := by
  rintro ⟨chunk', hc', h3, h4⟩
  have h5 := h.page_le hc
  have h6 : Chunk.headerBytes ≤ pageBytes := by decide
  by_cases heq : chunk = chunk'
  · subst heq
    omega
  · have hd := h.disjoint hc hc' heq
    omega

theorem inside_object (hc : chunk ∈ unreached ++ reached) {chunks : List Nat} (hmem : chunk ∈ chunks) :
    Inside m chunks (Chunk.object chunk) := by
  have hle := h.page_le hc
  have hheader : Chunk.headerBytes < pageBytes := by decide
  exact ⟨chunk, hmem, le_refl _, by simp only [Chunk.object]; omega⟩

-- What is written behind the headers is no concern of the space.
theorem congr (hm : ∀ a, t.space.contains a = true → ¬Inside m (unreached ++ reached) a →
    m'.read a = m.read a) : t.Sound m' unreached reached := by
  have hheader : ∀ chunk ∈ unreached ++ reached, ∀ k < Chunk.headerBytes,
      m'.read (chunk + k) = m.read (chunk + k) := by
    intro chunk hc k hk
    have h1 := h.page_le hc
    have h2 : Chunk.headerBytes ≤ pageBytes := by decide
    exact hm _ (h.contains_of_mem hc (by omega) (by omega))
      (h.not_inside_header hc (by omega) (by omega))
  have hlinks : ∀ chunk ∈ unreached ++ reached,
      m'.read chunk = m.read chunk ∧ m'.read (chunk + 8) = m.read (chunk + 8) := fun chunk hc =>
    ⟨hheader chunk hc 0 (by decide), hheader chunk hc 8 (by decide)⟩
  have hruns : (unreached ++ reached).map (runOf t.space m') =
      (unreached ++ reached).map (runOf t.space m) := by
    refine List.map_congr_left fun chunk hc => ?_
    rw [runOf, hheader chunk hc 16 (by decide), runOf]
  exact { h with
    space := by
      rw [hruns]
      refine h.space.congr fun a ha hz => hm a ha ?_
      rintro ⟨chunk, hc, h1, h2⟩
      have hpos := h.cover_pos hc (a := a) (by omega) h2
      omega
    unreached_valid := h.unreached_valid.congr fun x hx => hlinks x (List.mem_append_left _ hx)
    reached_valid := h.reached_valid.congr fun x hx => hlinks x (List.mem_append_right _ hx)
    unreached_tag := fun chunk hc => by
      rw [hheader chunk (List.mem_append_left _ hc) 24 (by decide)]
      exact h.unreached_tag chunk hc
    reached_tag := fun chunk hc => by
      rw [hheader chunk (List.mem_append_right _ hc) 24 (by decide)]
      exact h.reached_tag chunk hc }

-- Headers do not overlap.
theorem header_ne {x y i j : Nat} (hx : x ∈ unreached ++ reached) (hy : y ∈ unreached ++ reached)
    (hi : i < Chunk.headerBytes) (hj : j < Chunk.headerBytes) (hne : x = y → i ≠ j) :
    x + i ≠ y + j := by
  have h1 := h.aligned x hx
  have h2 := h.aligned y hy
  simp only [pageBytes, Chunk.headerBytes] at h1 h2 hi hj
  intro heq
  have hxy : x = y := by omega
  have hij := hne hxy
  omega

-- What is not a header is none of the words that are linked.
theorem ne_header {a : Nat} (ha : t.space.contains a = false ∨ Inside m (unreached ++ reached) a)
    {c k : Nat} (hc : c ∈ unreached ++ reached) (hk : k < Chunk.headerBytes) : a ≠ c + k := by
  rintro rfl
  have hle := h.page_le hc
  have hheader : Chunk.headerBytes < pageBytes := by decide
  rcases ha with ha | ha
  · rw [h.contains_of_mem hc (Nat.le_add_right _ _) (by omega)] at ha
    cases ha
  · exact h.not_inside_header hc (Nat.le_add_right _ _) (by omega) ha

-- Where only links of some chunks are written, the other chunks keep theirs, and all keep what stands
-- behind the links.
theorem word_of_links {linked : List Nat} (hsub : linked ⊆ unreached ++ reached) {m₁ m₂ : Memory}
    (hread : ∀ a, (∀ c ∈ linked, a ≠ c ∧ a ≠ c + 8) → m₂.read a = m₁.read a) {c k : Nat}
    (hc : c ∈ unreached ++ reached) (hk : k < Chunk.headerBytes) (hlink : c ∈ linked → 8 < k) :
    m₂.read (c + k) = m₁.read (c + k) := by
  refine hread _ fun x hx => ⟨h.header_ne (j := 0) hc (hsub hx) hk (by decide) fun heq => ?_,
    h.header_ne hc (hsub hx) hk (by decide) fun heq => ?_⟩
  all_goals
    have := hlink (heq ▸ hx)
    omega

-- Links and tags are written, and no other words.
section Linking

variable (hread : ∀ a, (∀ c ∈ unreached ++ reached, a ≠ c ∧ a ≠ c + 8 ∧ a ≠ c + 24) →
  m'.read a = m.read a)
include hread

theorem kept : Kept t.space m (unreached ++ reached) m' where
  pages_eq c hc := hread _ fun x hx =>
    ⟨h.header_ne (j := 0) hc hx (by decide) (by decide) fun _ => by decide,
      h.header_ne hc hx (by decide) (by decide) fun _ => by decide,
      h.header_ne hc hx (by decide) (by decide) fun _ => by decide⟩
  frame a ha := hread a fun c hc =>
    ⟨h.ne_header ha (k := 0) hc (by decide), h.ne_header ha hc (by decide),
      h.ne_header ha hc (by decide)⟩

-- The headers lie in pages that are handed out.
theorem space_linked : t.space.Sound ((unreached ++ reached).map (runOf t.space m)) m' := by
  refine h.space.congr fun a _ hz => hread a fun c hc => ?_
  have hnot : ∀ k < Chunk.headerBytes, a ≠ c + k := by
    rintro k hk rfl
    have hle := h.page_le hc
    have hheader : Chunk.headerBytes < pageBytes := by decide
    have hpos := h.cover_pos hc (Nat.le_add_right c k) (by omega)
    omega
  exact ⟨hnot 0 (by decide), hnot 8 (by decide), hnot 24 (by decide)⟩

end Linking

-- Some of the chunks are left, and their pages are still handed out.
theorem rebuild {unreached' reached' : List Nat} (hsub : unreached' ++ reached' ⊆ unreached ++ reached)
    (hpages : ∀ c ∈ unreached' ++ reached', m'.read (c + 16) = m.read (c + 16))
    (hspace : t'.space.Sound ((unreached' ++ reached').map (runOf t.space m)) m')
    (hmapping : t'.space.mapping = t.space.mapping) (hunit : t'.space.unit = 1)
    (hlive : ∀ c, t'.live.contains c = true ↔ c ∈ unreached' ++ reached')
    (hvalid : t'.unreached.Valid m' unreached') (hvalid' : t'.reached.Valid m' reached')
    (hle : t'.tag ≤ 1) (htag : ∀ c ∈ unreached', m'.read (c + 24) = 1 - t'.tag)
    (htag' : ∀ c ∈ reached', m'.read (c + 24) = t'.tag) : t'.Sound m' unreached' reached' := by
  obtain ⟨hstart, -, -⟩ := Space.range_congr hmapping
  have hruns : (unreached' ++ reached').map (runOf t'.space m') =
      (unreached' ++ reached').map (runOf t.space m) :=
    List.map_congr_left fun c hc => by rw [runOf, hpages c hc, hstart, runOf]
  exact {
    space := hruns ▸ hspace
    unit_eq := hunit
    start_le := fun c hc => hstart ▸ h.start_le c (hsub hc)
    aligned := fun c hc => h.aligned c (hsub hc)
    live_iff := hlive
    unreached_valid := hvalid
    reached_valid := hvalid'
    tag_le := hle
    unreached_tag := htag
    reached_tag := htag' }

end Sound

-- A run of pages that no chunk takes.
structure Spare (t : Treadmill) (m : Memory) (chunks : List Nat) (chunk pages : Nat)
    (s : Space) : Prop where
  space : s.Sound (⟨(chunk - t.space.start) / pageBytes, pages⟩ :: chunks.map (runOf t.space m)) m
  mapping_eq : s.mapping = t.space.mapping
  unit_eq : s.unit = 1
  aligned : chunk % pageBytes = 0
  start_le : t.space.start ≤ chunk
  stop_le : chunk + pageBytes * pages ≤ t.space.stop
  pages_pos : 0 < pages
  apart : ∀ c ∈ chunks, chunk + pageBytes * pages ≤ c ∨ c + pageBytes * m.read (c + 16) ≤ chunk

theorem Sound.spare (h : t.Sound m unreached reached) {pages : Nat} {s : Space}
    (hpos : 0 < pages) (hroom : pageBytes * pages + t.space.extent < Word.bound)
    (hacquire : t.space.acquire pages = .ok (chunk, s)) :
    Spare t m (unreached ++ reached) chunk pages s := by
  have hround : ∀ rounded, t.space.roundPages (max pages 1) = .ok rounded → rounded = pages := by
    intro rounded hr
    rw [Space.roundPages, h.unit_eq, Word.nextMultiple_self (one_dvd _)] at hr
    cases hr
    omega
  obtain ⟨r, hr, rfl, hspace, hmapping, hunit, -⟩ := h.space.acquire hacquire fun rounded hr => by
    rw [hround rounded hr, Nat.mul_comm]
    exact hroom
  obtain ⟨hstart, -, hstop⟩ := Space.range_congr hmapping
  have hrun : r = ⟨(t.space.start + pageBytes * r.first - t.space.start) / pageBytes, pages⟩ := by
    rw [Nat.add_sub_cancel_left, Nat.mul_div_cancel_left _ (by decide), ← hround _ hr]
  have hend := hspace.run_le List.mem_cons_self
  rw [hstart, hstop, Run.stop, hround _ hr, Nat.mul_add, ← Nat.add_assoc] at hend
  refine ⟨hrun ▸ hspace, hmapping, hunit.trans h.unit_eq, ?_, by omega, hend, hpos, fun c hc => ?_⟩
  · have hdvd := h.space.start_dvd
    simp only [pageBytes, blockBytes] at hdvd ⊢
    omega
  · have hd := hspace.disjoint (.refl _) (List.mem_map_of_mem hc)
    obtain ⟨h1, h2⟩ := h.run_first hc
    simp only [Run.stop, hround _ hr] at hd h2
    rcases hd with hd | hd
    · have hmul := Nat.mul_le_mul_left pageBytes hd
      rw [Nat.mul_add] at hmul
      omega
    · have hmul := Nat.mul_le_mul_left pageBytes hd
      omega

namespace Spare

variable {chunks : List Nat} {pages : Nat} {s : Space} (h : Spare t m chunks chunk pages s)
include h

theorem page_le : chunk + pageBytes ≤ chunk + pageBytes * pages :=
  Nat.add_le_add_left (Nat.le_mul_of_pos_right _ h.pages_pos) _

theorem contains {a : Nat} (h1 : chunk ≤ a) (h2 : a < chunk + pageBytes * pages) :
    t.space.contains a = true := by
  have h3 := h.start_le
  have h4 := h.stop_le
  exact (Space.contains_iff _ a).mpr (by omega)

theorem fits : Chunk.Fits chunk := by
  have h1 := h.aligned
  have h2 := h.space.start_pos
  have h3 := h.space.stop_lt
  have h4 := h.start_le
  have h5 := h.stop_le
  have h6 := h.page_le
  obtain ⟨hstart, -, hstop⟩ := Space.range_congr h.mapping_eq
  have h7 : Chunk.headerBytes < pageBytes := by decide
  refine ⟨by omega, ?_, by omega⟩
  simp only [wordBytes, pageBytes] at h1 ⊢
  omega

-- The pages of the run are those of the addresses in it.
theorem page_mem {a : Nat} (h1 : chunk ≤ a) (h2 : a < chunk + pageBytes * pages) :
    0 < Run.cover [⟨(chunk - t.space.start) / pageBytes, pages⟩] (s.page a) := by
  have h3 := h.aligned
  have h4 := h.start_le
  have h5 := Nat.mod_eq_zero_of_dvd h.space.start_dvd
  obtain ⟨hstart, -, -⟩ := Space.range_congr h.mapping_eq
  refine Space.cover_of_run List.mem_cons_self ?_ ?_
  · simp only [pageBytes, blockBytes, hstart] at h3 h5 ⊢
    omega
  · simp only [Run.stop, pageBytes, blockBytes, hstart] at h2 h3 h5 ⊢
    omega

-- Nothing was written to the run before.
theorem blank (ht : t.space.Sound (chunks.map (runOf t.space m)) m) {a : Nat} (h1 : chunk ≤ a)
    (h2 : a < chunk + pageBytes * pages) : m.read a = 0 := by
  refine ht.blank a (h.contains h1 h2) ?_
  have hpage : s.page a = t.space.page a := by
    rw [Space.page, (Space.range_congr h.mapping_eq).1, Space.page]
  have hle := h.space.cover_le (s.page a)
  have hpos := h.page_mem h1 h2
  simp only [Run.cover_cons, Run.cover_nil] at hle hpos
  rw [hpage] at hle hpos
  split_ifs at hle hpos <;> omega

end Spare

-- A chunk is made of the run: its header is written, and the chunk that was the first one before is
-- linked back to it.
section Making

variable {pages : Nat} {s : Space} (h : t.Sound m unreached reached)
  (hs : Spare t m (unreached ++ reached) chunk pages s)
include h hs

theorem Spare.far {c : Nat} (hc : c ∈ unreached ++ reached) :
    chunk + pageBytes ≤ c ∨ c + pageBytes ≤ chunk := by
  have h1 := hs.apart c hc
  have h2 := hs.page_le
  have h3 := h.page_le hc
  omega

variable (hread : ∀ a, a < chunk ∨ chunk + Chunk.headerBytes ≤ a → a ∉ unreached →
  m'.read a = m.read a)
include hread

theorem Spare.header_eq {c k : Nat} (hc : c ∈ unreached ++ reached) (hpos : 0 < k)
    (hk : k < Chunk.headerBytes) : m'.read (c + k) = m.read (c + k) := by
  have h1 := h.aligned c hc
  have h2 := hs.far h hc
  simp only [Chunk.headerBytes, pageBytes] at hk h1 h2
  refine hread _ ?_ fun hmem => ?_
  · simp only [Chunk.headerBytes]
    omega
  · have h3 := h.aligned _ (List.mem_append_left _ hmem)
    simp only [pageBytes] at h3
    omega

-- Pages that are not handed out are still blank.
theorem Spare.space_made : s.Sound (⟨(chunk - t.space.start) / pageBytes, pages⟩ ::
    (unreached ++ reached).map (runOf t.space m)) m' := by
  refine hs.space.congr fun a _ hz => hread a ?_ fun hu => ?_
  · by_contra hn
    have hle := hs.page_le
    have hheader : Chunk.headerBytes < pageBytes := by decide
    have hc := hs.page_mem (a := a) (by omega) (by omega)
    rw [Run.cover_cons, Run.cover_nil] at hc
    rw [Run.cover_cons] at hz
    omega
  · have hu := List.mem_append_left reached hu
    have hle := h.page_le hu
    have hpos : 0 < pageBytes := by decide
    have hc := h.cover_pos hu (le_refl a) (by omega)
    have hpage : s.page a = t.space.page a := by
      rw [Space.page, (Space.range_congr hs.mapping_eq).1, Space.page]
    rw [Run.cover_cons, hpage] at hz
    omega

theorem Spare.kept : Kept t.space m (unreached ++ reached) m' where
  pages_eq c hc := hs.header_eq h hread hc (by decide) (by decide)
  frame a ha := by
    refine hread a ?_ fun hu => h.ne_header ha (k := 0) (List.mem_append_left _ hu) (by decide) rfl
    by_contra hn
    have hle := hs.page_le
    have hheader : Chunk.headerBytes < pageBytes := by decide
    rcases ha with ha | ⟨c, hc, h1, h2⟩
    · rw [hs.contains (a := a) (by omega) (by omega)] at ha
      cases ha
    · have h3 := hs.apart c hc
      omega

-- Nothing was written behind the header.
theorem Spare.blank_made {a : Nat} (h1 : chunk + Chunk.headerBytes ≤ a)
    (h2 : a < chunk + pageBytes * pages) : m'.read a = 0 := by
  rw [hread a (Or.inr h1) fun hu => ?_]
  · exact hs.blank h.space (by omega) h2
  · have h3 := hs.apart a (List.mem_append_left _ hu)
    have h4 := h.page_le (List.mem_append_left reached hu)
    have h5 : 0 < pageBytes := by decide
    omega

end Making

-- A new object takes a chunk of its own, and nothing is in it.
structure Grown (t : Treadmill) (m : Memory) (chunks : List Nat) (chunk bytes : Nat) (t' : Treadmill)
    (m' : Memory) : Prop where
  mapping_eq : t'.space.mapping = t.space.mapping
  markState_eq : t'.markState = t.markState
  fresh : chunk ∉ chunks
  room : bytes + Chunk.headerBytes ≤ pageBytes * m'.read (chunk + 16)
  blank : ∀ a, chunk + Chunk.headerBytes ≤ a → a < chunk + pageBytes * m'.read (chunk + 16) →
    m'.read a = 0
  pages_eq : ∀ c ∈ chunks, m'.read (c + 16) = m.read (c + 16)
  frame : ∀ a, t.space.contains a = false ∨ Inside m chunks a → m'.read a = m.read a

-- The header of a new chunk is written and linked into the unreached list.
theorem Spare.link (h : t.Sound m unreached reached) {pages : Nat} {s : Space}
    (hs : Spare t m (unreached ++ reached) chunk pages s) :
    ∃ l m', t.unreached.push ((m.write (chunk + 16) pages).write (chunk + 24) (1 - t.tag)) chunk =
        .ok (l, m') ∧ l.Valid m' (chunk :: unreached) ∧ m'.read (chunk + 16) = pages ∧
      m'.read (chunk + 24) = 1 - t.tag ∧
      ∀ a, a < chunk ∨ chunk + Chunk.headerBytes ≤ a → a ∉ unreached → m'.read a = m.read a := by
  have hwrites : ∀ a, a ≠ chunk + 16 → a ≠ chunk + 24 →
      ((m.write (chunk + 16) pages).write (chunk + 24) (1 - t.tag)).read a = m.read a := by
    intro a h1 h2
    rw [Memory.read_write_of_ne h2, Memory.read_write_of_ne h1]
  have hold : t.unreached.Valid ((m.write (chunk + 16) pages).write (chunk + 24) (1 - t.tag))
      unreached := by
    refine h.unreached_valid.congr fun x hx => ?_
    have hx := hs.far h (List.mem_append_left _ hx)
    simp only [pageBytes] at hx
    exact ⟨hwrites _ (by omega) (by omega), hwrites _ (by omega) (by omega)⟩
  have hchunks : ChunkList.Apart (chunk :: unreached) := by
    refine List.pairwise_cons.mpr ⟨fun y hy => ?_, (List.pairwise_append.mp h.apart).1⟩
    have hy := hs.far h (List.mem_append_left _ hy)
    have hheader : Chunk.headerBytes < pageBytes := by decide
    omega
  obtain ⟨l, m', hpush, hvalid, hframe⟩ := hold.push (List.forall_mem_cons.mpr
    ⟨hs.fits, fun x hx => h.fits (List.mem_append_left _ hx)⟩) hchunks
  have hown : ∀ k, 0 < k → k < Chunk.headerBytes → chunk + k ∉ unreached := by
    intro k hpos hk hu
    have h1 := h.aligned _ (List.mem_append_left _ hu)
    have h2 := hs.aligned
    simp only [pageBytes, Chunk.headerBytes] at h1 h2 hk
    omega
  refine ⟨l, m', hpush, hvalid, ?_, ?_, fun a ha hn => ?_⟩
  · rw [hframe _ (by omega) (by omega) (hown 16 (by decide) (by decide)),
      Memory.read_write_of_ne (by omega), Memory.read_write_self]
  · rw [hframe _ (by omega) (by omega) (hown 24 (by decide) (by decide)), Memory.read_write_self]
  · simp only [Chunk.headerBytes] at ha
    rw [hframe a (by omega) (by omega) hn, hwrites a (by omega) (by omega)]

theorem Sound.push (h : t.Sound m unreached reached) {pages bytes : Nat} {s : Space}
    (hs : Spare t m (unreached ++ reached) chunk pages s)
    (hbytes : bytes + Chunk.headerBytes ≤ pageBytes * pages) :
    ∃ l m', t.unreached.push ((m.write (chunk + 16) pages).write (chunk + 24) (1 - t.tag)) chunk =
        .ok (l, m') ∧
      Sound { t with space := s, unreached := l, live := t.live.insert chunk } m'
        (chunk :: unreached) reached ∧
      Grown t m (unreached ++ reached) chunk bytes
        { t with space := s, unreached := l, live := t.live.insert chunk } m' := by
  obtain ⟨l, m', hpush, hvalid, hpages, htag, hread⟩ := hs.link h
  obtain ⟨hstart, -, -⟩ := Space.range_congr hs.mapping_eq
  have hkept := hs.kept h hread
  have htags : ∀ c ∈ unreached ++ reached, m'.read (c + 24) = m.read (c + 24) := fun c hc =>
    hs.header_eq h hread hc (by decide) (by decide)
  have hruns : (chunk :: unreached ++ reached).map (runOf s m') =
      ⟨(chunk - t.space.start) / pageBytes, pages⟩ ::
        (unreached ++ reached).map (runOf t.space m) := by
    rw [List.cons_append, List.map_cons, runOf, hpages, hstart]
    congr 1
    exact List.map_congr_left fun c hc => by rw [runOf, hkept.pages_eq c hc, hstart, runOf]
  refine ⟨l, m', hpush, {
    space := hruns ▸ hs.space_made h hread
    unit_eq := hs.unit_eq
    start_le := hstart ▸ List.forall_mem_cons.mpr ⟨hs.start_le, h.start_le⟩
    aligned := List.forall_mem_cons.mpr ⟨hs.aligned, h.aligned⟩
    live_iff := fun c => ?live
    unreached_valid := hvalid
    reached_valid := h.reached_valid.congr fun x hx => ⟨?link, ?_⟩
    tag_le := h.tag_le
    unreached_tag := List.forall_mem_cons.mpr ⟨htag, fun c hc =>
      (htags c (List.mem_append_left _ hc)).trans (h.unreached_tag c hc)⟩
    reached_tag := fun c hc => (htags c (List.mem_append_right _ hc)).trans (h.reached_tag c hc) }, {
    mapping_eq := hs.mapping_eq
    markState_eq := rfl
    fresh := fun hc => ?fresh
    room := hpages ▸ hbytes
    blank := fun a h1 h2 => hs.blank_made h hread h1 (hpages ▸ h2)
    pages_eq := hkept.pages_eq
    frame := hkept.frame }⟩
  case live =>
    rw [Std.TreeSet.contains_insert, Bool.or_eq_true, h.live_iff, List.cons_append, List.mem_cons,
      beq_iff_eq, Nat.compare_eq_eq]
    exact or_congr_left eq_comm
  case link =>
    have h1 := hs.far h (List.mem_append_right _ hx)
    refine hread x (by simp only [Chunk.headerBytes, pageBytes] at h1 ⊢; omega) fun hu => ?_
    exact (List.nodup_append.mp h.nodup).2.2 x hu x hx rfl
  case fresh =>
    have h1 := hs.far h hc
    simp only [pageBytes] at h1
    omega
  exact hs.header_eq h hread (List.mem_append_right _ hx) (by decide) (by decide)

theorem Sound.alloc (h : t.Sound m unreached reached) {bytes align o : Nat}
    (hroom : bytes + 2 * pageBytes + t.space.extent < Word.bound)
    (hrun : t.alloc m bytes align = .ok (o, t', m')) :
    ∃ chunk, o = Chunk.object chunk ∧ t'.Sound m' (chunk :: unreached) reached ∧
      Grown t m (unreached ++ reached) chunk bytes t' m' := by
  simp only [Treadmill.alloc] at hrun
  split at hrun
  · cases hrun
  simp only [bind_eq_ok, Prod.exists] at hrun
  obtain ⟨total, htotal, chunk, s, hacquire, m₁, hm₁, m₂, hm₂, l, m₃, hpush, hlast⟩ := hrun
  cases hlast
  obtain ⟨rfl, -⟩ := Word.add_eq_ok.mp htotal
  -- the pages cover the object and its header
  have hpages : bytes + Chunk.headerBytes ≤ pageBytes * bytesToPages (bytes + Chunk.headerBytes) ∧
      pageBytes * bytesToPages (bytes + Chunk.headerBytes) < bytes + 2 * pageBytes := by
    simp only [bytesToPages, Word.ceilDiv, Chunk.headerBytes, pageBytes]
    omega
  have hpos : 0 < bytesToPages (bytes + Chunk.headerBytes) := by
    simp only [Chunk.headerBytes, pageBytes] at hpages ⊢
    omega
  have hs := h.spare hpos (by omega) hacquire
  rw [Chunk.setPages_ok hs.fits] at hm₁
  cases hm₁
  rw [Chunk.setTag_ok hs.fits] at hm₂
  cases hm₂
  obtain ⟨l', m₄, hpush', hsound, hgrown⟩ := h.push hs hpages.1
  rw [hpush'] at hpush
  cases hpush
  exact ⟨chunk, rfl, hsound, hgrown⟩

-- The pages of a chunk are given back, perhaps after those of others. Chunks that stay keep theirs.
theorem Sound.release_pages (h : t.Sound m unreached reached) {s : Space} {rest : List Nat}
    (hmem : ∀ c ∈ chunk :: rest, c ∈ unreached ++ reached) (hnot : chunk ∉ rest)
    (hspace : s.Sound ((chunk :: rest).map (runOf t.space m)) m')
    (hmapping : s.mapping = t.space.mapping) (hunit : s.unit = 1) :
    ∃ s' m₂, s.release m' chunk (m.read (chunk + 16)) = .ok (s', m₂) ∧
      s'.Sound (rest.map (runOf t.space m)) m₂ ∧ s'.mapping = t.space.mapping ∧ s'.unit = 1 ∧
      ∀ a, t.space.contains a = false ∨
        (∃ c ∈ rest, c ≤ a ∧ a < c + pageBytes * m.read (c + 16)) → m₂.read a = m'.read a := by
  have hc := hmem chunk List.mem_cons_self
  have hround : s.roundPages (max (m.read (chunk + 16)) 1) = .ok (runOf t.space m chunk).pages := by
    rw [Space.roundPages, hunit, Word.nextMultiple_self (one_dvd _), runOf,
      Nat.max_eq_left (h.pages_pos hc)]
  obtain ⟨s', m₂, hrelease, hspace', hmapping', hunit', -, -, -, -, hread⟩ :=
    hspace.release (.refl _) hround
  obtain ⟨hstart, -, -⟩ := Space.range_congr hmapping
  rw [hstart, (h.run_first hc).1] at hrelease
  simp only [hstart, (h.run_first hc).1, (h.run_first hc).2] at hread
  refine ⟨s', m₂, hrelease, hspace', hmapping'.trans hmapping, hunit'.trans hunit, fun a ha => ?_⟩
  rw [hread, if_neg]
  rintro ⟨h1, h2⟩
  rcases ha with ha | ⟨c, hr, h3, h4⟩
  · rw [h.contains_of_mem hc h1 h2] at ha
    cases ha
  · have hd := h.disjoint (hmem c (List.mem_cons_of_mem _ hr)) hc fun heq => hnot (heq ▸ hr)
    omega

theorem live_erase {live : Std.TreeSet Nat} {rest : List Nat}
    (hlive : ∀ c, live.contains c = true ↔ c ∈ chunk :: rest) (hnot : chunk ∉ rest) (c : Nat) :
    (live.erase chunk).contains c = true ↔ c ∈ rest := by
  rw [Std.TreeSet.contains_erase, Bool.and_eq_true, hlive, bne_iff_ne, Ne, Nat.compare_eq_eq,
    List.mem_cons]
  constructor
  · rintro ⟨hne, hc⟩
    exact hc.resolve_left fun heq => hne heq.symm
  · exact fun hc => ⟨fun heq => hnot (heq ▸ hc), Or.inr hc⟩

theorem object_inj {c c' : Nat} : Chunk.object c = Chunk.object c' ↔ c = c' := Nat.add_right_cancel_iff

theorem ofObject_object (chunk : Nat) : Chunk.ofObject (Chunk.object chunk) = .ok chunk := by
  rw [Chunk.ofObject, Chunk.object, Word.sub_ok (Nat.le_add_left _ _), Nat.add_sub_cancel]

-- The chunk of a live object can be given back.
theorem Sound.free {before after : List Nat} (h : t.Sound m (before ++ chunk :: after) reached) :
    ∃ t' m', t.free m (Chunk.object chunk) = .ok (t', m') ∧ t'.Sound m' (before ++ after) reached ∧
      t'.space.mapping = t.space.mapping ∧ t'.markState = t.markState ∧
      Kept t.space m (before ++ after ++ reached) m' := by
  have hperm : (before ++ chunk :: after ++ reached).Perm (chunk :: (before ++ after ++ reached)) :=
    List.perm_middle.append_right reached
  have hmem : ∀ c ∈ chunk :: (before ++ after ++ reached), c ∈ before ++ chunk :: after ++ reached :=
    fun c hc => hperm.mem_iff.mpr hc
  obtain ⟨hnot, hnodup⟩ := List.nodup_cons.mp (hperm.nodup_iff.mp h.nodup)
  have hc := hmem chunk List.mem_cons_self
  have hrest : ∀ c ∈ before ++ after ++ reached, c ∈ before ++ chunk :: after ++ reached :=
    fun c hr => hmem c (List.mem_cons_of_mem _ hr)
  have hother : ∀ c ∈ before ++ after, c ∈ before ++ chunk :: after ++ reached :=
    fun c hr => hrest c (List.mem_append_left _ hr)
  -- off the list
  obtain ⟨l, m₁, hunlink, hvalid, hoff⟩ := h.unreached_valid.unlink
    (fun x hx => h.fits (List.mem_append_left _ hx)) (List.pairwise_append.mp h.apart).1
  have hlinks : ∀ a, (∀ c ∈ before ++ chunk :: after ++ reached, a ≠ c ∧ a ≠ c + 8 ∧ a ≠ c + 24) →
      m₁.read a = m.read a :=
    fun a ha => hoff a fun x hx => ⟨(ha x (hother x hx)).1, (ha x (hother x hx)).2.1⟩
  have hkept := h.kept hlinks
  have htags : ∀ c ∈ before ++ chunk :: after ++ reached, m₁.read (c + 24) = m.read (c + 24) :=
    fun c hc => h.word_of_links hother hoff hc (by decide) fun _ => by decide
  have hreached : ∀ x ∈ reached, ∀ k < Chunk.headerBytes, m₁.read (x + k) = m.read (x + k) :=
    fun x hx k hk => h.word_of_links hother hoff (hrest x (List.mem_append_right _ hx)) hk fun hin =>
      absurd rfl ((List.nodup_append.mp hnodup).2.2 x hin x hx)
  -- back to the space
  obtain ⟨s', m', hrelease, hspace, hmapping, hunit, hframe⟩ := h.release_pages hmem hnot
    ((h.space_linked hlinks).perm (hperm.map _)) rfl h.unit_eq
  have hheader : ∀ c ∈ before ++ after ++ reached, ∀ k < Chunk.headerBytes,
      m'.read (c + k) = m₁.read (c + k) := by
    intro c hr k hk
    have hle := h.page_le (hrest c hr)
    have hsmall : Chunk.headerBytes < pageBytes := by decide
    exact hframe _ (Or.inr ⟨c, hr, by omega, by omega⟩)
  have hpages : ∀ c ∈ before ++ after ++ reached, m'.read (c + 16) = m.read (c + 16) := fun c hr =>
    (hheader c hr 16 (by decide)).trans (hkept.pages_eq c (hrest c hr))
  have htags' : ∀ c ∈ before ++ after ++ reached, m'.read (c + 24) = m.read (c + 24) := fun c hr =>
    (hheader c hr 24 (by decide)).trans (htags c (hrest c hr))
  have hsound : Sound { t with space := s', unreached := l, live := t.live.erase chunk } m'
      (before ++ after) reached := by
    refine h.rebuild hrest hpages hspace hmapping hunit
      (live_erase (fun c => (h.live_iff c).trans hperm.mem_iff) hnot) (hvalid.congr fun x hx => ?_)
      (h.reached_valid.congr fun x hx => ?_) h.tag_le (fun c hr => ?_) (fun c hr => ?_)
    · have hx := List.mem_append_left reached hx
      exact ⟨hheader x hx 0 (by decide), hheader x hx 8 (by decide)⟩
    · have hr := List.mem_append_right (before ++ after) hx
      exact ⟨(hheader x hr 0 (by decide)).trans (hreached x hx 0 (by decide)),
        (hheader x hr 8 (by decide)).trans (hreached x hx 8 (by decide))⟩
    · rw [htags' c (List.mem_append_left _ hr)]
      exact h.unreached_tag c (List.perm_middle.mem_iff.mpr (List.mem_cons_of_mem _ hr))
    · rw [htags' c (List.mem_append_right _ hr)]
      exact h.reached_tag c hr
  refine ⟨_, m', ?_, hsound, hmapping, rfl, hpages, fun a ha => ?_⟩
  · have hlive : t.live.contains chunk = true := (h.live_iff chunk).mpr hc
    have htag : m.read (chunk + 24) ≠ t.tag := by
      have h1 := h.unreached_tag chunk (by simp)
      have h2 := h.tag_le
      omega
    simp only [Treadmill.free, ofObject_object, ok_bind, hlive, Chunk.pages_ok (h.fits hc),
      Chunk.tag_ok (h.fits hc), htag, hunlink, hrelease, Bool.not_true, Bool.false_eq_true, if_false]
  · rcases ha with ha | ⟨c, hr, h1, h2⟩
    · exact (hframe a (Or.inl ha)).trans (hkept.frame a (Or.inl ha))
    · exact (hframe a (Or.inr ⟨c, hr, by omega, h2⟩)).trans
        (hkept.frame a (Or.inr ⟨c, hrest c hr, h1, h2⟩))

end Treadmill

end Reclaim
