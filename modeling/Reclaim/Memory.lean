import Std.Data.TreeMap
import Std.Data.TreeMap.Lemmas
import Reclaim.Word

/-!
Word-addressed memory. Every word reads as zero until it is written, and again once its page is
discarded. What each operation does to `read` is all that later proofs use.

Words that lie side by side are kept together in lines. Words that start at different bytes of a
machine word never share a line, so that every address has a word of its own.
-/
namespace Reclaim

open Std

-- Words that lie side by side.
abbrev Memory.Line := Vector Nat 64

structure Memory where
  lines : TreeMap Nat Memory.Line := ∅

namespace Memory

open Sizes

def empty : Memory := {}

-- The line that holds the word at an address.
def lineOf (a : Nat) : Nat := a / 512 * 8 + a % 8

-- The position of a word in its line.
def placeOf (a : Nat) : Fin 64 := ⟨a % 512 / 8, by omega⟩

theorem eq_iff_line_place (a b : Nat) : a = b ↔ lineOf a = lineOf b ∧ placeOf a = placeOf b := by
  simp only [lineOf, placeOf, Fin.mk.injEq]
  omega

-- Lines of a page have the same quotient.
theorem lineOf_div (a : Nat) : lineOf a / 64 = a / pageBytes := by
  simp only [lineOf, pageBytes]
  omega

def blank : Line := Vector.replicate 64 0

def read (m : Memory) (a : Nat) : Nat :=
  match m.lines[lineOf a]? with
  | some words => words[placeOf a]
  | none => 0

-- A word that holds the value already is left alone.
def write (m : Memory) (a v : Nat) : Memory :=
  if m.read a = v then m
  else if m.lines.contains (lineOf a) then
    ⟨m.lines.modify (lineOf a) fun words => words.set (placeOf a) v⟩
  else ⟨m.lines.insert (lineOf a) (blank.set (placeOf a) v)⟩

def eraseLine (lines : TreeMap Nat Line) (line : Nat) : TreeMap Nat Line :=
  if lines.contains line then lines.erase line else lines

-- Forgets the contents of `count` pages from page `first` on, looking at the lines or at the range,
-- whichever is shorter.
def discard (m : Memory) (first count : Nat) : Memory :=
  if 64 * count < m.lines.size then
    ⟨(List.range' (64 * first) (64 * count)).foldl eraseLine m.lines⟩
  else ⟨m.lines.filter fun line _ =>
    !(decide (first ≤ line / 64) && decide (line / 64 < first + count))⟩

theorem read_eq (m : Memory) (a : Nat) :
    m.read a = (m.lines[lineOf a]?.getD blank)[placeOf a] := by
  simp only [read]
  cases m.lines[lineOf a]? <;> simp [blank]

theorem read_empty (a : Nat) : empty.read a = 0 := by
  simp [read, empty]

-- The lines after a write that changes something.
theorem getElem?_lines_write (m : Memory) (a v k : Nat) (hv : m.read a ≠ v) :
    (m.write a v).lines[k]? =
      if lineOf a = k then some ((m.lines[k]?.getD blank).set (placeOf a) v)
      else m.lines[k]? := by
  simp only [write, hv, if_false]
  split
  · rename_i h
    rw [TreeMap.getElem?_modify]
    simp only [Nat.compare_eq_eq]
    split
    · rename_i hk
      rw [TreeMap.contains_eq_isSome_getElem?, hk] at h
      obtain ⟨words, hwords⟩ := Option.isSome_iff_exists.mp h
      simp [hk, hwords]
    · rfl
  · rename_i h
    rw [TreeMap.getElem?_insert]
    simp only [Nat.compare_eq_eq]
    split
    · rename_i hk
      rw [TreeMap.contains_eq_isSome_getElem?, hk, Bool.not_eq_true, Option.isSome_eq_false_iff,
        Option.isNone_iff_eq_none] at h
      simp [h]
    · rfl

theorem read_write (m : Memory) (a b v : Nat) :
    (m.write a v).read b = if a = b then v else m.read b := by
  by_cases hv : m.read a = v
  · simp only [write, hv, if_true]
    split
    · rename_i hab
      rw [← hab, hv]
    · rfl
  · rw [read_eq, read_eq, getElem?_lines_write m a v _ hv]
    simp only [eq_iff_line_place a b]
    by_cases hl : lineOf a = lineOf b
    · simp [hl, Vector.getElem_set, Fin.ext_iff]
    · simp [hl]

theorem getElem?_eraseLine (lines : TreeMap Nat Line) (line k : Nat) :
    (eraseLine lines line)[k]? = if line = k then none else lines[k]? := by
  simp only [eraseLine]
  split
  · rw [TreeMap.getElem?_erase]
    simp only [Nat.compare_eq_eq]
  · rename_i h
    split
    · rename_i hk
      rw [TreeMap.contains_eq_isSome_getElem?, hk, Bool.not_eq_true, Option.isSome_eq_false_iff,
        Option.isNone_iff_eq_none] at h
      exact h
    · rfl

theorem getElem?_foldl_eraseLine (keys : List Nat) (lines : TreeMap Nat Line) (k : Nat) :
    (keys.foldl eraseLine lines)[k]? = if k ∈ keys then none else lines[k]? := by
  induction keys generalizing lines with
  | nil => simp
  | cons key keys ih =>
    rw [List.foldl_cons, ih, getElem?_eraseLine]
    by_cases hk : key = k
    · simp [hk]
    · have : ¬ k = key := fun h => hk h.symm
      simp [hk, this]

theorem getElem?_lines_discard (m : Memory) (first count k : Nat) :
    (m.discard first count).lines[k]? =
      if first ≤ k / 64 ∧ k / 64 < first + count then none else m.lines[k]? := by
  simp only [discard]
  split
  · simp only [getElem?_foldl_eraseLine, List.mem_range'_1]
    congr 1
    simp only [eq_iff_iff]
    omega
  · simp only [TreeMap.getElem?_filter']
    split
    · rename_i h
      cases m.lines[k]? <;> simp [Option.filter, h]
    · rename_i h
      have hkeep : (!(decide (first ≤ k / 64) && decide (k / 64 < first + count))) = true := by
        simp only [Bool.not_eq_true', Bool.and_eq_false_iff, decide_eq_false_iff_not]
        exact Decidable.not_and_iff_not_or_not.mp h
      cases m.lines[k]? <;> simp [Option.filter, hkeep]

theorem read_discard (m : Memory) (first count a : Nat) :
    (m.discard first count).read a =
      if first ≤ a / pageBytes ∧ a / pageBytes < first + count then 0 else m.read a := by
  rw [read_eq, read_eq, getElem?_lines_discard, lineOf_div]
  split <;> simp [blank]

-- Words lie on word boundaries.
def load (m : Memory) (a : Nat) : Except Fault Nat :=
  if a % wordBytes = 0 then .ok (m.read a) else .error .assertion

def store (m : Memory) (a v : Nat) : Except Fault Memory :=
  if a % wordBytes = 0 then .ok (m.write a v) else .error .assertion

-- A null word holds no reference.
def loadRef (m : Memory) (a : Nat) : Except Fault (Option Nat) := do
  let word ← m.load a
  .ok (if word = 0 then none else some word)

def storeRef (m : Memory) (a : Nat) (value : Option Nat) : Except Fault Memory :=
  m.store a (value.getD 0)

-- Writes words side by side, the first at `a`.
def writeWords (m : Memory) (a : Nat) : List Nat → Memory
  | [] => m
  | word :: rest => (m.write a word).writeWords (a + wordBytes) rest

-- The `count` words from `a` on.
def readWords (m : Memory) (a count : Nat) : List Nat :=
  (List.range count).map fun i => m.read (a + wordBytes * i)

-- What is left of the word at `a` when the bytes of `[first, stop)` are cleared.
def clearedWord (m : Memory) (first stop a : Nat) : Nat :=
  if first ≤ a ∧ a + wordBytes ≤ stop then 0
  else
    let below := 1 <<< (8 * (first - a))
    let above := 1 <<< (8 * min (stop - a) wordBytes)
    m.read a % below + m.read a / above * above

-- Clears the bytes of `[a, a + bytes)`.
def zero (m : Memory) (a bytes : Nat) : Memory :=
  let first := a / wordBytes
  let words := (List.range' first (Word.ceilDiv (a + bytes) wordBytes - first)).map (wordBytes * ·)
  words.foldl (fun m word => m.write word (m.clearedWord a (a + bytes) word)) m

-- Copies the words of `[source, source + bytes)` to `target`.
def copy (m : Memory) (source target bytes : Nat) : Memory :=
  m.writeWords target (m.readWords source (bytes / wordBytes))

end Memory

end Reclaim
