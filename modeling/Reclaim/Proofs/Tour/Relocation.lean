import Reclaim.Nursery
import Reclaim.Proofs.Memory
import Reclaim.Proofs.Object
import Reclaim.Proofs.Status

/-!
Objects that move. The status word of the original leads to the copy, and the copy is laid out as the
original was.
-/
namespace Reclaim

open Sizes

namespace Status

-- Objects lie on word boundaries, so the status word leads to every copy.
theorem forwarding_forwardedTo {target : Nat} (h : target % wordBytes = 0) (hpos : 0 < target) :
    claim? (forwardedTo target) = none ∧ forwarding (forwardedTo target) = .forwarded target :=
  forwarding_published (by simp only [wordBytes] at h; omega) hpos

end Status

namespace Memory

-- A copy has the words of the original, and no other word changes.
theorem read_copy (m : Memory) (source target : Nat) {bytes : Nat} (hsource : bytes % wordBytes = 0)
    (b : Nat) : (m.copy source target bytes).read b =
      if target ≤ b ∧ b % wordBytes = target % wordBytes ∧ b < target + bytes then
        m.read (source + (b - target)) else m.read b := by
  rw [copy, read_writeWords]
  simp only [readWords, List.length_map, List.length_range]
  by_cases hin : target ≤ b ∧ b % wordBytes = target % wordBytes ∧ b < target + bytes
  · have hlt : (b - target) / wordBytes < bytes / wordBytes := by
      simp only [wordBytes] at hsource ⊢
      omega
    have hword : source + wordBytes * ((b - target) / wordBytes) = source + (b - target) := by
      simp only [wordBytes] at hin ⊢
      omega
    rw [if_pos ⟨hin.1, hin.2.1, hlt⟩, if_pos hin, List.getD_eq_getElem?_getD, List.getElem?_eq_getElem (by simpa using hlt), Option.getD_some,
      List.getElem_map, List.getElem_range, hword]
  · rw [if_neg hin, if_neg (by simp only [wordBytes] at hsource hin ⊢; omega)]

end Memory

namespace Object

variable {t : Types} {m m' : Memory} {o o' bytes bytes' n : Nat}

-- The word `a` bytes into the object is neither its status word nor a reference.
structure Plain (t : Types) (m : Memory) (o n a : Nat) : Prop where
  aligned : a % wordBytes = 0
  pos : 0 < a
  lt : a < n
  not_slot : o + a ∉ slotsOf t m o

-- Type word and length word are no references.
theorem Formed.plain_header (h : Formed t m o bytes) (hsize : size t m o = .ok n) :
    Plain t m o n 8 ∧ ∀ info, t.info (typeId m o) = .ok info → info.isArray = true →
      Plain t m o n 16 := by
  obtain ⟨info, size, hinfo, hread, hrequired, hle, -, hheader, -, hslots, -⟩ := h.slotsOf_eq
  rw [Object.size, hread, ok_bind, hrequired] at hsize
  cases hsize
  have hlow := info.scalarHeaderBytes_le
  simp only [Types.scalarHeaderBytes] at hlow
  refine ⟨⟨rfl, by decide, by omega, fun hmem => ?_⟩, fun info' hinfo' harray => ?_⟩
  · have := (hslots _ hmem).2.1
    omega
  · obtain rfl : info = info' := Except.ok.inj (hinfo.symm.trans hinfo')
    rw [TypeInfo.headerBytes, if_pos harray, Types.arrayHeaderBytes] at hheader
    refine ⟨rfl, by decide, by omega, fun hmem => ?_⟩
    have hslot := (hslots _ hmem).2.1
    rw [TypeInfo.headerBytes, if_pos harray, Types.arrayHeaderBytes] at hslot
    omega

theorem Formed.size_mod (h : Formed t m o bytes) (hsize : size t m o = .ok n) :
    n % wordBytes = 0 := by
  obtain ⟨info, n', -, hread, hrequired, -, hmod, -⟩ := h.slotsOf_eq
  rw [Object.size, hread, ok_bind, hrequired] at hsize
  cases hsize
  exact hmod

-- An object of the same type and length somewhere else has its slots at the same offsets.
theorem Formed.relocate (h : Formed t m o bytes) (hsize : size t m o = .ok n)
    (haligned : o' % wordBytes = 0) (htop : o' + bytes' < Word.bound) (hle : n ≤ bytes')
    (htype : m'.read (o' + 8) = m.read (o + 8))
    (hlength : ∀ info, t.info (typeId m o) = .ok info → info.isArray = true →
      m'.read (o' + 16) = m.read (o + 16)) :
    Formed t m' o' bytes' ∧ size t m' o' = .ok n ∧
      slotsOf t m' o' = (slotsOf t m o).map fun slot => slot - o + o' := by
  have hid : typeId m' o' = typeId m o := by rw [typeId, htype, typeId]
  obtain ⟨info, size', hinfo, hread, hrequired, -, -, -, hslots, -⟩ := h.slotsOf_eq
  rw [Object.size, hread, ok_bind, hrequired] at hsize
  cases hsize
  obtain ⟨info', size'', hinfo', hsound, -⟩ := h.layout
  obtain rfl : info = info' := Except.ok.inj (hinfo.symm.trans hinfo')
  have hlength' : layoutLength info m' o' = layoutLength info m o := by
    unfold layoutLength
    split
    · rename_i harray
      exact hlength info hinfo harray
    · rfl
  have hinfo₂ : t.info (typeId m' o') = .ok info := by rw [hid, hinfo]
  have hformed : Formed t m' o' bytes' :=
    ⟨haligned, htop, info, n, hinfo₂, hsound, by rw [hlength', hrequired], hle⟩
  refine ⟨hformed, ?_, ?_⟩
  · obtain ⟨info₁, hread₁, hinfo₁⟩ := hformed.info_ok
    obtain rfl : info = info₁ := Except.ok.inj (hinfo₂.symm.trans hinfo₁)
    rw [Object.size, hread₁, ok_bind, hlength', hrequired]
  · simp only [slotsOf, hinfo₂, hinfo, hlength', List.map_map]
    refine List.map_congr_left fun offset _ => ?_
    simp only [Function.comp_apply]
    omega

end Object

end Reclaim
