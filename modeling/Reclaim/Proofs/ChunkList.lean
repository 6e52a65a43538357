import Reclaim.Proofs.Memory
import Reclaim.Proofs.Word
import Reclaim.Treadmill

/-!
Lists that are doubly linked through the headers of chunks. A list stands for the chunks on it, front
first.
-/
namespace Reclaim

open Sizes

namespace Chunk

variable {m : Memory} {chunk : Nat}

-- The header of a chunk can be addressed.
def Fits (chunk : Nat) : Prop :=
  chunk ≠ 0 ∧ chunk % wordBytes = 0 ∧ chunk + headerBytes < Word.bound

section Fields

variable (h : Fits chunk)
include h

theorem field_ok (m : Memory) {offset : Nat} (hmod : offset % wordBytes = 0)
    (hlt : offset < headerBytes) : field m chunk offset = .ok (m.read (chunk + offset)) := by
  obtain ⟨-, h1, h2⟩ := h
  have hadd : (chunk + offset) % wordBytes = 0 := by
    simp only [wordBytes] at h1 hmod ⊢
    omega
  simp only [field, Word.add_ok (show chunk + offset < Word.bound by omega), ok_bind,
    m.load_ok hadd]

theorem setField_ok (m : Memory) {offset : Nat} (hmod : offset % wordBytes = 0)
    (hlt : offset < headerBytes) (v : Nat) :
    setField m chunk offset v = .ok (m.write (chunk + offset) v) := by
  obtain ⟨-, h1, h2⟩ := h
  have hadd : (chunk + offset) % wordBytes = 0 := by
    simp only [wordBytes] at h1 hmod ⊢
    omega
  simp only [setField, Word.add_ok (show chunk + offset < Word.bound by omega), ok_bind,
    m.store_ok hadd]

theorem prev_ok (m : Memory) : prev m chunk = .ok (m.read chunk) := field_ok h m rfl (by decide)

theorem next_ok (m : Memory) : next m chunk = .ok (m.read (chunk + 8)) :=
  field_ok h m rfl (by decide)

theorem pages_ok (m : Memory) : pages m chunk = .ok (m.read (chunk + 16)) :=
  field_ok h m rfl (by decide)

theorem tag_ok (m : Memory) : tag m chunk = .ok (m.read (chunk + 24)) :=
  field_ok h m rfl (by decide)

theorem setPrev_ok (m : Memory) (v : Nat) : setPrev m chunk v = .ok (m.write chunk v) :=
  setField_ok h m rfl (by decide) v

theorem setNext_ok (m : Memory) (v : Nat) : setNext m chunk v = .ok (m.write (chunk + 8) v) :=
  setField_ok h m rfl (by decide) v

theorem setPages_ok (m : Memory) (v : Nat) : setPages m chunk v = .ok (m.write (chunk + 16) v) :=
  setField_ok h m rfl (by decide) v

theorem setTag_ok (m : Memory) (v : Nat) : setTag m chunk v = .ok (m.write (chunk + 24) v) :=
  setField_ok h m rfl (by decide) v

end Fields

end Chunk

namespace ChunkList

variable {l : ChunkList} {m m' : Memory} {chunk prev next : Nat} {chunks : List Nat}

-- Every chunk points at the one before it and the one behind it. `prev` stands before the first
-- chunk, `next` behind the last.
def Links (m : Memory) : Nat → List Nat → Nat → Prop
  | _, [], _ => True
  | prev, chunk :: rest, next =>
    m.read chunk = prev ∧ m.read (chunk + 8) = rest.headD next ∧ Links m chunk rest next

theorem Links.congr (h : Links m prev chunks next)
    (hm : ∀ x ∈ chunks, m'.read x = m.read x ∧ m'.read (x + 8) = m.read (x + 8)) :
    Links m' prev chunks next := by
  induction chunks generalizing prev with
  | nil => trivial
  | cons chunk rest ih =>
    obtain ⟨h1, h2, h3⟩ := h
    obtain ⟨h4, h5⟩ := hm chunk List.mem_cons_self
    exact ⟨h4.trans h1, h5.trans h2, ih h3 fun x hx => hm x (List.mem_cons_of_mem _ hx)⟩

theorem links_append {before after : List Nat} :
    Links m prev (before ++ after) next ↔
      Links m prev before (after.headD next) ∧ Links m (before.getLastD prev) after next := by
  induction before generalizing prev with
  | nil => simp [Links]
  | cons chunk rest ih =>
    have hhead : (rest ++ after).headD next = rest.headD (after.headD next) := by
      cases rest <;> rfl
    have hlast : (chunk :: rest).getLastD prev = rest.getLastD chunk := by
      cases rest with
      | nil => rfl
      | cons x xs => simp [List.getLast?_cons]
    rw [List.cons_append, Links, Links, ih, hhead, hlast]
    simp only [and_assoc]

-- Headers do not overlap.
def Apart (chunks : List Nat) : Prop :=
  chunks.Pairwise fun x y => x + Chunk.headerBytes ≤ y ∨ y + Chunk.headerBytes ≤ x

theorem Apart.of_cons (h : Apart (chunk :: chunks)) :
    (∀ y ∈ chunks, chunk + Chunk.headerBytes ≤ y ∨ y + Chunk.headerBytes ≤ chunk) ∧ Apart chunks :=
  List.pairwise_cons.mp h

-- Another chunk is put behind the last one.
theorem Links.setNext {before : List Nat} {last : Nat} (h : Links m prev (before ++ [last]) next)
    (ha : Apart (before ++ [last])) (v : Nat) :
    Links (m.write (last + 8) v) prev (before ++ [last]) v := by
  obtain ⟨h1, h2, h3, -⟩ := links_append.mp h
  have hne := (List.pairwise_append.mp ha).2.2
  refine links_append.mpr ⟨h1.congr fun x hx => ?_, ?_, ?_, trivial⟩
  · have hx := hne x hx last List.mem_cons_self
    simp only [Chunk.headerBytes] at hx
    exact ⟨Memory.read_write_of_ne (by omega) v, Memory.read_write_of_ne (by omega) v⟩
  · rw [Memory.read_write_of_ne (by omega)]
    exact h2
  · exact Memory.read_write_self _ _ _

-- Another chunk is put before the first one.
theorem Links.setPrev {first : Nat} {rest : List Nat} (h : Links m prev (first :: rest) next)
    (ha : Apart (first :: rest)) (v : Nat) :
    Links (m.write first v) v (first :: rest) next := by
  obtain ⟨-, h2, h3⟩ := h
  obtain ⟨hne, -⟩ := ha.of_cons
  refine ⟨Memory.read_write_self _ _ _, ?_, h3.congr fun x hx => ?_⟩
  · rw [Memory.read_write_of_ne (by omega)]
    exact h2
  · have hx := hne x hx
    simp only [Chunk.headerBytes] at hx
    exact ⟨Memory.read_write_of_ne (by omega) v, Memory.read_write_of_ne (by omega) v⟩

-- A link that is written, unless there is no chunk to write it in.
section Relink

variable (hfits : ∀ x ∈ chunks, Chunk.Fits x) (ha : Apart chunks) (h : Links m prev chunks next)
  (v : Nat)
include hfits ha h

theorem Links.relinkPrev : ∃ m', (if chunks.headD 0 = 0 then .ok m
      else Chunk.setPrev m (chunks.headD 0) v) = .ok m' ∧ Links m' v chunks next ∧
    ∀ a, (∀ first ∈ chunks.head?, a ≠ first) → m'.read a = m.read a := by
  cases chunks with
  | nil => exact ⟨m, rfl, trivial, fun _ _ => rfl⟩
  | cons first rest =>
    have hfirst := hfits first List.mem_cons_self
    refine ⟨m.write first v, ?_, h.setPrev ha v, fun a hne => Memory.read_write_of_ne (hne first rfl) v⟩
    rw [List.headD_cons, if_neg hfirst.1, Chunk.setPrev_ok hfirst]

theorem Links.relinkNext : ∃ m', (if chunks.getLastD 0 = 0 then .ok m
      else Chunk.setNext m (chunks.getLastD 0) v) = .ok m' ∧ Links m' prev chunks v ∧
    ∀ a, (∀ last ∈ chunks.getLast?, a ≠ last + 8) → m'.read a = m.read a := by
  rcases List.eq_nil_or_concat chunks with rfl | ⟨front, last, rfl⟩
  · exact ⟨m, rfl, trivial, fun _ _ => rfl⟩
  · rw [List.concat_eq_append] at *
    have hlast := hfits last (by simp)
    refine ⟨m.write (last + 8) v, ?_, h.setNext ha v, fun a hne =>
      Memory.read_write_of_ne (hne last (by simp)) v⟩
    rw [show (front ++ [last]).getLastD 0 = last by simp, if_neg hlast.1, Chunk.setNext_ok hlast]

end Relink

structure Valid (l : ChunkList) (m : Memory) (chunks : List Nat) : Prop where
  head_eq : l.head = chunks.headD 0
  length_eq : l.length = chunks.length
  links : Links m 0 chunks 0

theorem Valid.congr (h : l.Valid m chunks)
    (hm : ∀ x ∈ chunks, m'.read x = m.read x ∧ m'.read (x + 8) = m.read (x + 8)) :
    l.Valid m' chunks := { h with links := h.links.congr hm }

theorem Valid.push (h : l.Valid m chunks) (hfits : ∀ x ∈ chunk :: chunks, Chunk.Fits x)
    (ha : Apart (chunk :: chunks)) :
    ∃ l' m', l.push m chunk = .ok (l', m') ∧ l'.Valid m' (chunk :: chunks) ∧
      ∀ a, a ≠ chunk → a ≠ chunk + 8 → a ∉ chunks → m'.read a = m.read a := by
  obtain ⟨hne, hapart⟩ := ha.of_cons
  have hchunk := hfits chunk List.mem_cons_self
  have hold : Links ((m.write chunk 0).write (chunk + 8) l.head) 0 chunks 0 := by
    refine h.links.congr fun x hx => ?_
    have hx := hne x hx
    simp only [Chunk.headerBytes] at hx
    constructor
    · rw [Memory.read_write_of_ne (by omega), Memory.read_write_of_ne (by omega)]
    · rw [Memory.read_write_of_ne (by omega), Memory.read_write_of_ne (by omega)]
  obtain ⟨m', hrun, hlinks, hframe⟩ :=
    hold.relinkPrev (fun x hx => hfits x (List.mem_cons_of_mem _ hx)) hapart chunk
  -- The new chunk is not the one that stood first.
  have hfirst : ∀ k ≤ 8, ∀ first ∈ chunks.head?, chunk + k ≠ first := by
    intro k hk first hf
    have hx := hne first (List.mem_of_mem_head? hf)
    simp only [Chunk.headerBytes] at hx
    omega
  refine ⟨⟨chunk, l.length + 1⟩, m', ?_, ⟨rfl, by rw [h.length_eq]; rfl, ?_, ?_, hlinks⟩,
    fun a h1 h2 h3 => ?_⟩
  · rw [← h.head_eq] at hrun
    simp only [ChunkList.push, Chunk.setPrev_ok hchunk, Chunk.setNext_ok hchunk, ok_bind]
    exact ite_bind_of_ok hrun _
  · rw [hframe chunk (hfirst 0 (by decide)), Memory.read_write_of_ne (by omega), Memory.read_write_self]
  · rw [hframe (chunk + 8) (hfirst 8 (by decide)), Memory.read_write_self, h.head_eq]
  · rw [hframe a fun first hf heq => h3 (heq ▸ List.mem_of_mem_head? hf),
      Memory.read_write_of_ne h2, Memory.read_write_of_ne h1]

-- What stands before a chunk is linked to what stands behind it.
theorem Valid.unlink {before after : List Nat} (h : l.Valid m (before ++ chunk :: after))
    (hfits : ∀ x ∈ before ++ chunk :: after, Chunk.Fits x)
    (ha : Apart (before ++ chunk :: after)) :
    ∃ l' m', l.unlink m chunk = .ok (l', m') ∧ l'.Valid m' (before ++ after) ∧
      ∀ a, (∀ x ∈ before ++ after, a ≠ x ∧ a ≠ x + 8) → m'.read a = m.read a := by
  obtain ⟨hbefore, hprev, hnext, hafter⟩ := links_append.mp h.links
  obtain ⟨hab, hac, hcross⟩ := List.pairwise_append.mp ha
  obtain ⟨-, haa⟩ := List.pairwise_cons.mp hac
  have hchunk := hfits chunk (by simp)
  have hlen : l.length = (before ++ after).length + 1 := by
    rw [h.length_eq]
    simp only [List.length_append, List.length_cons]
    omega
  have hfar : ∀ x ∈ before, ∀ y ∈ after, x + 32 ≤ y ∨ y + 32 ≤ x := fun x hx y hy =>
    hcross x hx y (List.mem_cons_of_mem _ hy)
  obtain ⟨m₁, hrun₁, hbefore₁, hoff₁⟩ := hbefore.relinkNext
    (fun x hx => hfits x (List.mem_append_left _ hx)) hab (after.headD 0)
  have hafter₁ : Links m₁ chunk after 0 := by
    refine hafter.congr fun y hy => ⟨hoff₁ _ fun x hx => ?_, hoff₁ _ fun x hx => ?_⟩ <;>
    · have := hfar x (List.mem_of_mem_getLast? hx) y hy
      omega
  obtain ⟨m₂, hrun₂, hafter₂, hoff₂⟩ := hafter₁.relinkPrev
    (fun x hx => hfits x (by simp [hx])) haa (before.getLastD 0)
  have hbefore₂ : Links m₂ 0 before (after.headD 0) := by
    refine hbefore₁.congr fun x hx => ⟨hoff₂ _ fun y hy => ?_, hoff₂ _ fun y hy => ?_⟩ <;>
    · have := hfar x hx y (List.mem_of_mem_head? hy)
      omega
  refine ⟨⟨if before.getLastD 0 = 0 then after.headD 0 else l.head, l.length - 1⟩, m₂, ?_,
    ⟨?_, ?_, links_append.mpr ⟨hbefore₂, hafter₂⟩⟩, fun a hne => ?_⟩
  · have hnext' : m.read (chunk + 8) = after.headD 0 := hnext
    simp only [ChunkList.unlink, Chunk.prev_ok hchunk, Chunk.next_ok hchunk, ok_bind, hprev, hnext',
      Word.sub_ok (show 1 ≤ l.length by omega)]
    exact (ite_bind_of_ok hrun₁ _).trans (ite_bind_of_ok hrun₂ _)
  · rcases List.eq_nil_or_concat before with rfl | ⟨front, last, rfl⟩
    · simp
    · rw [List.concat_eq_append] at *
      have hlast := (hfits last (by simp)).1
      rw [show (front ++ [last]).getLastD 0 = last by simp, if_neg hlast, h.head_eq]
      cases front <;> rfl
  · rw [hlen]
    rfl
  · rw [hoff₂ a fun y hy => (hne y (List.mem_append_right _ (List.mem_of_mem_head? hy))).1,
      hoff₁ a fun x hx => (hne x (List.mem_append_left _ (List.mem_of_mem_getLast? hx))).2]

end ChunkList

end Reclaim
