import Mathlib.Data.List.GetD
import Mathlib.Data.List.Nodup
import Reclaim.Cells.Block
import Reclaim.Proofs.Memory
import Reclaim.Proofs.Word

/-!
The bits that tell which cells of a block are in use and which are marked. Addresses of one granule
share their bits, and the words that hold the bits of a block lie in its header, before its cells.
-/
namespace Reclaim

open Sizes

namespace SizeClass

-- The number of cells of a block.
def perBlock (size : Nat) : Nat := (blockBytes - Block.headerBytes) / bytes size

variable {size : Nat}

theorem bytes_mem (h : size < count) :
    bytes size % wordBytes = 0 ∧ 16 ≤ bytes size ∧ bytes size ≤ largest := by
  have hall : ∀ size < count,
      bytes size % wordBytes = 0 ∧ 16 ≤ bytes size ∧ bytes size ≤ largest := by decide
  exact hall size h

theorem forBytes?_some {n : Nat} (h : forBytes? n = some size) : size < count ∧ n ≤ bytes size := by
  unfold forBytes? at h
  obtain ⟨hlt, hle, -⟩ := List.findIdx?_eq_some_iff_getElem.mp h
  refine ⟨hlt, ?_⟩
  unfold bytes
  rw [List.getD_eq_getElem _ _ hlt]
  exact of_decide_eq_true hle

-- No smaller class serves the request.
theorem forBytes?_least {n size' : Nat} (h : forBytes? n = some size) (hlt : size' < count)
    (hle : n ≤ bytes size') : bytes size ≤ bytes size' := by
  have hmono : ∀ i < count, ∀ j < count, i ≤ j → bytes i ≤ bytes j := by decide
  obtain ⟨hsize, -⟩ := forBytes?_some h
  refine hmono _ hsize _ hlt (Nat.le_of_not_lt fun hsmall => ?_)
  obtain ⟨_, -, hleast⟩ := List.findIdx?_eq_some_iff_getElem.mp h
  refine hleast _ hsmall (decide_eq_true ?_)
  unfold bytes at hle
  rwa [List.getD_eq_getElem _ _ hlt] at hle

theorem perBlock_mul_le (size : Nat) :
    perBlock size * bytes size ≤ blockBytes - Block.headerBytes := Nat.div_mul_le_self _ _

end SizeClass

namespace Bitmap

theorem isInUse_setInUse (w p q : Nat) :
    isInUse (setInUse w p) q = (decide (p = q) || isInUse w q) := by
  unfold isInUse setInUse inUseBit
  rw [Nat.testBit_or, Nat.one_shiftLeft, Nat.testBit_two_pow, Bool.or_comm]
  have hiff : 2 * p = 2 * q ↔ p = q := by omega
  simp only [hiff]

theorem isMarked_setInUse (w p q : Nat) : isMarked (setInUse w p) q = isMarked w q := by
  unfold isMarked setInUse inUseBit markBit
  rw [Nat.testBit_or, Nat.one_shiftLeft, Nat.testBit_two_pow]
  have hne : ¬2 * p = 2 * q + 1 := by omega
  simp only [hne, decide_false, Bool.or_false]

theorem isInUse_setMarked (w p q : Nat) : isInUse (setMarked w p) q = isInUse w q := by
  unfold isInUse setMarked inUseBit markBit
  rw [Nat.testBit_or, Nat.one_shiftLeft, Nat.testBit_two_pow]
  have hne : ¬2 * p + 1 = 2 * q := by omega
  simp only [hne, decide_false, Bool.or_false]

theorem isMarked_setMarked (w p q : Nat) :
    isMarked (setMarked w p) q = (decide (p = q) || isMarked w q) := by
  unfold isMarked setMarked markBit
  rw [Nat.testBit_or, Nat.one_shiftLeft, Nat.testBit_two_pow, Bool.or_comm]
  have hiff : 2 * p + 1 = 2 * q + 1 ↔ p = q := by omega
  simp only [hiff]

-- Clearing the two bits of a granule clears no other bit.
theorem testBit_clear (w p i : Nat) :
    (clear w p).testBit i = (!decide (i / 2 = p) && w.testBit i) := by
  have hthree : ∀ d, Nat.testBit 3 d = decide (d < 2) := by
    intro d
    match d with
    | 0 | 1 => decide
    | d + 2 =>
      have hpow : 2 ^ 2 ≤ 2 ^ (d + 2) := Nat.pow_le_pow_right (by decide) (by omega)
      rw [decide_eq_false (by omega)]
      exact Nat.testBit_lt_two_pow (Nat.lt_of_lt_of_le (by decide) hpow)
  have hiff : (2 * p ≤ i ∧ i - 2 * p < 2) ↔ i / 2 = p := by omega
  unfold clear inUseBit
  rw [Nat.testBit_xor, Nat.testBit_and, Nat.testBit_shiftLeft, hthree, ← Bool.decide_and,
    decide_eq_decide.mpr hiff]
  cases w.testBit i <;> cases decide (i / 2 = p) <;> rfl

theorem isInUse_clear (w p q : Nat) :
    isInUse (clear w p) q = (!decide (p = q) && isInUse w q) := by
  have hiff : 2 * q / 2 = p ↔ p = q := by omega
  unfold isInUse inUseBit
  simp only [testBit_clear, hiff]

theorem isMarked_clear (w p q : Nat) :
    isMarked (clear w p) q = (!decide (p = q) && isMarked w q) := by
  have hiff : (2 * q + 1) / 2 = p ↔ p = q := by omega
  unfold isMarked markBit
  simp only [testBit_clear, hiff]

-- The mask has the in-use bits of a word and no mark bits.
theorem testBit_inUseMask {p : Nat} (hp : p < granulesPerWord) :
    inUseMask.testBit (inUseBit p) = true ∧ inUseMask.testBit (markBit p) = false := by
  have hall : ∀ p < granulesPerWord,
      inUseMask.testBit (inUseBit p) = true ∧ inUseMask.testBit (markBit p) = false := by decide
  exact hall p hp

theorem isInUse_clearMarks (w : Nat) {p : Nat} (hp : p < granulesPerWord) :
    isInUse (clearMarks w) p = isInUse w p := by
  unfold isInUse clearMarks
  rw [Nat.testBit_and, (testBit_inUseMask hp).1, Bool.and_true]

theorem isMarked_clearMarks (w : Nat) {p : Nat} (hp : p < granulesPerWord) :
    isMarked (clearMarks w) p = false := by
  unfold isMarked clearMarks
  rw [Nat.testBit_and, (testBit_inUseMask hp).2, Bool.and_false]

theorem isInUse_sweep (w : Nat) {p : Nat} (hp : p < granulesPerWord) :
    isInUse (sweep w) p = (isInUse w p && isMarked w p) := by
  unfold isInUse isMarked sweep
  rw [Nat.testBit_and, Nat.testBit_and, Nat.testBit_shiftRight, (testBit_inUseMask hp).1,
    Bool.and_true, markBit, Nat.add_comm 1, inUseBit]

theorem isMarked_sweep (w : Nat) {p : Nat} (hp : p < granulesPerWord) :
    isMarked (sweep w) p = false := by
  unfold isMarked sweep
  rw [Nat.testBit_and, (testBit_inUseMask hp).2, Bool.and_false]

end Bitmap

namespace Block

variable {m m' : Memory} {a b block size : Nat}

theorem blockOf_add (hblock : block % blockBytes = 0) {x : Nat} (hx : x < blockBytes) :
    blockOf (block + x) = block := by
  simp only [blockOf, blockBytes] at hblock hx ⊢
  omega

theorem add_mod_blockBytes (hblock : block % blockBytes = 0) {x : Nat} (hx : x < blockBytes) :
    (block + x) % blockBytes = x := by
  simp only [blockBytes] at hblock hx ⊢
  omega

-- Addresses share their bits when they lie in the same granule.
theorem same_bit_iff (a b : Nat) :
    bitmapWord a = bitmapWord b ∧ place a = place b ↔ a / granuleBytes = b / granuleBytes := by
  simp only [bitmapWord, place, granule, blockOf, bitmapOffset, granuleBytes, blockBytes, wordBytes,
    Bitmap.granulesPerWord]
  omega

theorem place_lt (a : Nat) : place a < Bitmap.granulesPerWord := Nat.mod_lt _ (by decide)

-- The bits of a block lie between its first four words and its cells.
theorem bitmapWord_mem (a : Nat) : blockOf a + bitmapOffset ≤ bitmapWord a ∧
    bitmapWord a < blockOf a + headerBytes ∧ bitmapWord a % wordBytes = 0 := by
  simp only [bitmapWord, granule, blockOf, headerBytes, bitmapOffset, granuleBytes, blockBytes,
    wordBytes, Bitmap.granulesPerWord, Bitmap.words]
  omega

theorem bitmapWord_mem_block {a block : Nat} (ha : blockOf a = block) :
    block ≤ bitmapWord a ∧ bitmapWord a < block + blockBytes := by
  obtain ⟨h1, h2, -⟩ := bitmapWord_mem a
  have hle : headerBytes < blockBytes := by decide
  omega

-- Whether the cell at an address is in use once the words of its bitmap have changed.
def survives (f : Nat → Nat) (m : Memory) (a : Nat) : Bool :=
  Bitmap.isInUse (f (m.read (bitmapWord a))) (place a)

theorem survives_sweep (m : Memory) (a : Nat) :
    survives Bitmap.sweep m a = (isInUse m a && isMarked m a) :=
  Bitmap.isInUse_sweep _ (place_lt a)

theorem survives_clearMarks (m : Memory) (a : Nat) :
    survives Bitmap.clearMarks m a = isInUse m a :=
  Bitmap.isInUse_clearMarks _ (place_lt a)

theorem isInUse_congr (h : m'.read (bitmapWord a) = m.read (bitmapWord a)) :
    isInUse m' a = isInUse m a := by
  simp only [isInUse, h]

-- The bits of a block depend on nothing outside of it.
theorem isInUse_of_block {block : Nat} (ha : blockOf a = block)
    (h : ∀ x, block ≤ x → x < block + blockBytes → m'.read x = m.read x) :
    isInUse m' a = isInUse m a :=
  isInUse_congr (h _ (bitmapWord_mem_block ha).1 (bitmapWord_mem_block ha).2)

theorem isMarked_congr (h : m'.read (bitmapWord a) = m.read (bitmapWord a)) :
    isMarked m' a = isMarked m a := by
  simp only [isMarked, h]

-- What an update does to the bits of every address, from what it does to the bits of a word.
theorem bit_update (bit : Nat → Nat → Bool) (f : Nat → Nat → Nat) (g : Bool → Bool → Bool)
    (hf : ∀ w p q, bit (f w p) q = g (decide (p = q)) (bit w q))
    (hg : ∀ x, g false x = x) (m : Memory) (a b : Nat) :
    bit ((update f m a).read (bitmapWord b)) (place b) =
      g (decide (a / granuleBytes = b / granuleBytes)) (bit (m.read (bitmapWord b)) (place b)) := by
  unfold update
  rw [Memory.read_write]
  by_cases hw : bitmapWord a = bitmapWord b
  · have hiff : place a = place b ↔ a / granuleBytes = b / granuleBytes := by
      rw [← same_bit_iff]
      exact ⟨fun h => ⟨hw, h⟩, fun h => h.2⟩
    rw [if_pos hw, hf, hw]
    simp only [hiff]
  · have hne : ¬a / granuleBytes = b / granuleBytes := fun h => hw ((same_bit_iff a b).mpr h).1
    rw [if_neg hw, decide_eq_false hne, hg]

theorem isInUse_setInUse (m : Memory) (a b : Nat) :
    isInUse (setInUse m a) b = (decide (a / granuleBytes = b / granuleBytes) || isInUse m b) :=
  bit_update _ _ (fun x y => x || y) Bitmap.isInUse_setInUse (fun _ => rfl) m a b

theorem isMarked_setInUse (m : Memory) (a b : Nat) :
    isMarked (setInUse m a) b = isMarked m b :=
  bit_update _ _ (fun _ y => y) Bitmap.isMarked_setInUse (fun _ => rfl) m a b

theorem isInUse_setMarked (m : Memory) (a b : Nat) :
    isInUse (setMarked m a) b = isInUse m b :=
  bit_update _ _ (fun _ y => y) Bitmap.isInUse_setMarked (fun _ => rfl) m a b

theorem isMarked_setMarked (m : Memory) (a b : Nat) :
    isMarked (setMarked m a) b = (decide (a / granuleBytes = b / granuleBytes) || isMarked m b) :=
  bit_update _ _ (fun x y => x || y) Bitmap.isMarked_setMarked (fun _ => rfl) m a b

theorem isInUse_clear (m : Memory) (a b : Nat) :
    isInUse (clear m a) b = (!decide (a / granuleBytes = b / granuleBytes) && isInUse m b) :=
  bit_update _ _ (fun x y => !x && y) Bitmap.isInUse_clear (fun _ => rfl) m a b

theorem isMarked_clear (m : Memory) (a b : Nat) :
    isMarked (clear m a) b = (!decide (a / granuleBytes = b / granuleBytes) && isMarked m b) :=
  bit_update _ _ (fun x y => !x && y) Bitmap.isMarked_clear (fun _ => rfl) m a b

theorem read_update_of_ne (f : Nat → Nat → Nat) (m : Memory) (h : b ≠ bitmapWord a) :
    (update f m a).read b = m.read b := Memory.read_write_of_ne h _

-- The header of a block of a size class.
structure Formed (m : Memory) (block size : Nat) : Prop where
  size_eq : Block.size m block = size
  cellBytes_eq : cellBytes m block = SizeClass.bytes size
  cellCount_eq : cellCount m block = SizeClass.perBlock size
  firstCell_eq : firstCell m block = headerBytes

-- The start of a cell.
def cellAt (block size i : Nat) : Nat := block + headerBytes + i * SizeClass.bytes size

theorem Formed.congr (h : Formed m block size)
    (hm : ∀ a, block ≤ a → a < block + bitmapOffset → m'.read a = m.read a) :
    Formed m' block size where
  size_eq := (hm _ (le_refl _) (by simp [bitmapOffset])).trans h.size_eq
  cellBytes_eq := (hm _ (by omega) (by simp [bitmapOffset])).trans h.cellBytes_eq
  cellCount_eq := (hm _ (by omega) (by simp [bitmapOffset])).trans h.cellCount_eq
  firstCell_eq := (hm _ (by omega) (by simp [bitmapOffset])).trans h.firstCell_eq

theorem read_format_of_ge (m : Memory) (h : b < block ∨ block + bitmapOffset ≤ b) :
    (format m block size).read b = m.read b := by
  unfold format
  rw [Memory.read_writeWords, if_neg]
  simp only [bitmapOffset, wordBytes, List.length_cons, List.length_nil] at h ⊢
  omega

theorem formed_format (m : Memory) (block size : Nat) : Formed (format m block size) block size := by
  have h2 : (block + 16) % 8 = block % 8 := by omega
  have h3 : (block + 24) % 8 = block % 8 := by omega
  constructor
  all_goals
    simp [Block.size, cellBytes, cellCount, firstCell, format, Memory.read_writeWords, wordBytes,
      SizeClass.perBlock, h2, h3]

theorem Formed.cell_ok (h : Formed m block size) {i : Nat} (hc : cell m block i = .ok a) :
    a = cellAt block size i := by
  simp only [cell, h.firstCell_eq, h.cellBytes_eq, bind_eq_ok, Word.mul_eq_ok, Word.add_eq_ok] at hc
  obtain ⟨y, ⟨rfl, -⟩, x, ⟨rfl, -⟩, rfl, -⟩ := hc
  unfold cellAt
  omega

-- What the search finds is a free cell of the block.
theorem Formed.findFree?_some (h : Formed m block size) {next i : Nat}
    (hf : findFree? m block next = .ok (some (i, a))) :
    i < SizeClass.perBlock size ∧ a = cellAt block size i ∧ isInUse m a = false := by
  have hfrom : ∀ cells first, findFrom? m block first cells = .ok (some (i, a)) →
      i < first + cells ∧ a = cellAt block size i ∧ isInUse m a = false := by
    intro cells
    induction cells with
    | zero => simp [findFrom?]
    | succ cells ih =>
      intro first hfind
      simp only [findFrom?, bind_eq_ok] at hfind
      obtain ⟨c, hc, hfind⟩ := hfind
      split at hfind
      · cases hfind
      · split at hfind
        · obtain ⟨h1, h2, h3⟩ := ih _ hfind
          exact ⟨by omega, h2, h3⟩
        · rename_i huse
          cases hfind
          exact ⟨by omega, h.cell_ok hc, by simpa using huse⟩
  unfold findFree? at hf
  rw [h.cellCount_eq] at hf
  obtain ⟨h1, h2, h3⟩ := hfrom _ _ hf
  by_cases hn : next ≤ SizeClass.perBlock size
  · exact ⟨by omega, h2, h3⟩
  · -- a search that starts behind the last cell finds nothing
    have hz : SizeClass.perBlock size - next = 0 := by omega
    rw [hz] at hf
    cases hf

theorem mem_bitmap_iff : b ∈ bitmap block ↔
    block + bitmapOffset ≤ b ∧ b < block + headerBytes ∧ b % wordBytes = block % wordBytes := by
  simp only [bitmap, List.mem_map, List.mem_range, headerBytes, bitmapOffset, wordBytes, Bitmap.words]
  constructor
  · rintro ⟨i, hi, rfl⟩
    omega
  · rintro ⟨h1, h2, h3⟩
    exact ⟨(b - block - 32) / 8, by omega, by omega⟩

theorem bitmapWord_mem_bitmap (a : Nat) : bitmapWord a ∈ bitmap (blockOf a) := by
  obtain ⟨h1, h2, h3⟩ := bitmapWord_mem a
  refine mem_bitmap_iff.mpr ⟨h1, h2, ?_⟩
  simp only [blockOf, blockBytes, wordBytes] at h3 ⊢
  omega

theorem read_settle (f : Nat → Nat) (m : Memory) (block b : Nat) :
    (settle f m block).read b = if b ∈ bitmap block then f (m.read b) else m.read b := by
  have hnodup : (bitmap block).Nodup := by
    refine List.Nodup.map (fun i j hij => ?_) List.nodup_range
    simp only [wordBytes] at hij
    omega
  have hfold : ∀ (words : List Nat) (m : Memory), words.Nodup →
      (words.foldl (fun m a => m.write a (f (m.read a))) m).read b =
        if b ∈ words then f (m.read b) else m.read b := by
    intro words
    induction words with
    | nil => simp
    | cons word rest ih =>
      intro m hn
      rw [List.nodup_cons] at hn
      rw [List.foldl_cons, ih _ hn.2, Memory.read_write]
      by_cases hb : b = word
      · subst hb
        simp [hn.1]
      · have hb' : word ≠ b := fun h => hb h.symm
        simp [hb, hb']
  exact hfold _ m hnodup

-- A settled block has all its bits changed, and no other block any.
theorem read_settle_bitmapWord (f : Nat → Nat) (m : Memory) (hblock : block % blockBytes = 0)
    (a : Nat) : (settle f m block).read (bitmapWord a) =
      if blockOf a = block then f (m.read (bitmapWord a)) else m.read (bitmapWord a) := by
  have hiff : bitmapWord a ∈ bitmap block ↔ blockOf a = block := by
    refine ⟨fun hmem => ?_, fun h => h ▸ bitmapWord_mem_bitmap a⟩
    obtain ⟨h1, h2, -⟩ := mem_bitmap_iff.mp hmem
    obtain ⟨h3, h4, -⟩ := bitmapWord_mem a
    simp only [blockOf, blockBytes, bitmapOffset, headerBytes, Bitmap.words, wordBytes]
      at hblock h1 h2 h3 h4 ⊢
    omega
  rw [read_settle]
  simp only [hiff]

-- A new header leaves all bits alone.
theorem read_format_bitmapWord (m : Memory) (hblock : block % blockBytes = 0) (size a : Nat) :
    (format m block size).read (bitmapWord a) = m.read (bitmapWord a) := by
  refine read_format_of_ge m ?_
  obtain ⟨h1, h2, -⟩ := bitmapWord_mem a
  simp only [blockOf, blockBytes, bitmapOffset, headerBytes, Bitmap.words, wordBytes]
    at hblock h1 h2 ⊢
  omega

-- The addresses that a block has bits for.
def granules (block : Nat) : List Nat :=
  (List.range (Bitmap.words * Bitmap.granulesPerWord)).map fun g => block + granuleBytes * g

theorem mem_granules (hblock : block % blockBytes = 0) {a : Nat} :
    a ∈ granules block ↔ blockOf a = block ∧ a % granuleBytes = 0 := by
  simp only [granules, List.mem_map, List.mem_range]
  constructor
  · rintro ⟨g, hg, rfl⟩
    simp only [Bitmap.words, Bitmap.granulesPerWord] at hg
    refine ⟨blockOf_add hblock (by simp only [granuleBytes, blockBytes]; omega), ?_⟩
    simp only [granuleBytes, blockBytes] at hblock ⊢
    omega
  · rintro ⟨rfl, ha⟩
    refine ⟨(a - blockOf a) / granuleBytes, ?_, ?_⟩ <;>
    · simp only [Bitmap.words, Bitmap.granulesPerWord, blockOf, granuleBytes, blockBytes] at ha ⊢
      omega

theorem nodup_granules (block : Nat) : (granules block).Nodup := by
  refine List.nodup_range.map fun x y heq => ?_
  simp only [granuleBytes] at heq
  omega

-- The bits of one word tell about granules that follow one another.
theorem isInUse_granule (m : Memory) (hblock : block % blockBytes = 0) {i p : Nat}
    (hi : i < Bitmap.words) (hp : p < Bitmap.granulesPerWord) :
    isInUse m (block + granuleBytes * (Bitmap.granulesPerWord * i + p)) =
      Bitmap.isInUse (m.read (block + bitmapOffset + wordBytes * i)) p := by
  have hx : granuleBytes * (Bitmap.granulesPerWord * i + p) < blockBytes := by
    simp only [granuleBytes, blockBytes, Bitmap.words, Bitmap.granulesPerWord] at hi hp ⊢
    omega
  have hgranule : granule (block + granuleBytes * (Bitmap.granulesPerWord * i + p)) =
      Bitmap.granulesPerWord * i + p := by
    rw [granule, add_mod_blockBytes hblock hx]
    exact Nat.mul_div_cancel_left _ (by decide)
  rw [isInUse, bitmapWord, place, blockOf_add hblock hx, hgranule, Nat.mul_add_div (by decide),
    Nat.div_eq_of_lt hp, Nat.add_zero, Nat.mul_add_mod, Nat.mod_eq_of_lt hp]

-- The cells in use are counted by their bits.
theorem live_eq_countP (m : Memory) (hblock : block % blockBytes = 0) :
    live m block = (granules block).countP (isInUse m) := by
  have hwords : ∀ n ≤ Bitmap.words,
      ((List.range n).map fun i =>
        Bitmap.live (m.read (block + bitmapOffset + wordBytes * i))).sum =
      (List.range (n * Bitmap.granulesPerWord)).countP fun g =>
        isInUse m (block + granuleBytes * g) := by
    intro n hn
    induction n with
    | zero => rfl
    | succ n ih =>
      rw [List.range_succ, List.map_append, List.sum_append, ih (Nat.le_of_succ_le hn), Nat.succ_mul,
        List.range_add, List.countP_append, List.countP_map, List.map_singleton, List.sum_singleton,
        Bitmap.live]
      refine congrArg _ (List.countP_congr fun p hp => ?_)
      rw [Function.comp_apply, Nat.mul_comm n, isInUse_granule m hblock hn (List.mem_range.mp hp)]
  have hall := hwords Bitmap.words (le_refl _)
  rw [live, ← List.sum_eq_foldl, bitmap, List.map_map, granules, List.countP_map]
  simpa only [Function.comp_def] using hall

theorem live_congr (hblock : block % blockBytes = 0)
    (h : ∀ a, blockOf a = block → isInUse m' a = isInUse m a) : live m' block = live m block := by
  rw [live_eq_countP _ hblock, live_eq_countP _ hblock]
  refine List.countP_congr fun a ha => ?_
  rw [h a ((mem_granules hblock).mp ha).1]

theorem live_le (hblock : block % blockBytes = 0)
    (h : ∀ a, blockOf a = block → isInUse m' a = true → isInUse m a = true) :
    live m' block ≤ live m block := by
  rw [live_eq_countP _ hblock, live_eq_countP _ hblock]
  exact List.countP_mono_left fun a ha => h a ((mem_granules hblock).mp ha).1

-- No cell in use: the bits of no address of the block say so.
theorem live_eq_zero_iff (m : Memory) {block : Nat} (hblock : block % blockBytes = 0) :
    live m block = 0 ↔ ∀ a, blockOf a = block → isInUse m a = false := by
  rw [live_eq_countP m hblock, List.countP_eq_zero]
  constructor
  · intro h a ha
    -- the first address of the granule
    have hgranule : a - a % granuleBytes ∈ granules block := by
      refine (mem_granules hblock).mpr ⟨?_, ?_⟩
      · have hdiv : (a - a % granuleBytes) / blockBytes = a / blockBytes := by
          simp only [granuleBytes, blockBytes]
          omega
        rw [blockOf, hdiv]
        exact ha
      · simp only [granuleBytes]
        omega
    have hbit := (same_bit_iff (a - a % granuleBytes) a).mpr (by
      simp only [granuleBytes]
      omega)
    have hfree := h _ hgranule
    rw [isInUse, hbit.1, hbit.2] at hfree
    exact Bool.eq_false_iff.mpr hfree
  · intro h a ha
    rw [h a ((mem_granules hblock).mp ha).1]
    exact Bool.false_ne_true

end Block

end Reclaim
