import Reclaim.Proofs.Memory
import Reclaim.Proofs.Types

/-!
Objects as memory shows them: their slots, the references in these, and what a write to one word of
an object changes.
-/
namespace Reclaim.Object

open Sizes

variable {t : Types} {m m' : Memory} {o bytes a : Nat}

-- The addresses of the reference slots of the object at `o`.
def slotsOf (t : Types) (m : Memory) (o : Nat) : List Nat :=
  match t.info (typeId m o) with
  | .ok info => (info.slotOffsets (layoutLength info m o)).map (o + ·)
  | .error _ => []

def refs (t : Types) (m : Memory) (o : Nat) : List Nat :=
  ((slotsOf t m o).map m.read).filter (· != 0)

-- An object that takes no more than so many bytes.
structure Formed (t : Types) (m : Memory) (o bytes : Nat) : Prop where
  aligned : o % wordBytes = 0
  top : o + bytes < Word.bound
  layout : ∃ info size, t.info (typeId m o) = .ok info ∧ info.Sound ∧
    info.bytesRequired (layoutLength info m o) = .ok size ∧ size ≤ bytes

-- An object of a type, all of which lies in the address range.
structure Instance (t : Types) (m : Memory) (o : Nat) (info : TypeInfo) : Prop where
  aligned : o % wordBytes = 0
  info_eq : t.info (typeId m o) = .ok info
  top : o + info.extent (layoutLength info m o) < Word.bound

section Scan

variable {σ : Type} {visit : σ → Nat → Except Fault σ}

theorem scanWords_eq (first i words : Nat) (s : σ)
    (h : first + (i + words) * wordBytes ≤ Word.bound) :
    scanWords visit first i words s =
      ((List.range' i words).map fun j => first + j * wordBytes).foldlM visit s := by
  induction words generalizing i s with
  | zero => rfl
  | succ words ih =>
    have hmul : (i + (words + 1)) * wordBytes = i * wordBytes + (words + 1) * wordBytes :=
      Nat.add_mul _ _ _
    have hone : 1 * wordBytes ≤ (words + 1) * wordBytes := Nat.mul_le_mul_right _ (by omega)
    simp only [wordBytes] at hmul hone h
    have hword : Word.mul i wordBytes = .ok (i * wordBytes) :=
      Word.mul_ok (by simp only [wordBytes]; omega)
    have hadd : Word.add first (i * wordBytes) = .ok (first + i * wordBytes) :=
      Word.add_ok (by simp only [wordBytes]; omega)
    rw [scanWords, hword, ok_bind, hadd, ok_bind, List.range'_succ, List.map_cons, List.foldlM_cons]
    congr 1
    funext s'
    exact ih (i + 1) s' (by simp only [wordBytes]; omega)

theorem foldlM_offsets {offsets : List Nat} (s : σ)
    (h : ∀ offset ∈ offsets, o + offset < Word.bound) :
    offsets.foldlM (fun s offset => do visit s (← Word.add o offset)) s =
      (offsets.map (o + ·)).foldlM visit s := by
  induction offsets generalizing s with
  | nil => rfl
  | cons offset rest ih =>
    rw [List.forall_mem_cons] at h
    rw [List.foldlM_cons, List.map_cons, List.foldlM_cons, Word.add_ok h.1, ok_bind]
    congr 1
    funext s'
    exact ih s' h.2

end Scan

namespace Instance

variable {info : TypeInfo} (h : Instance t m o info)
include h

theorem slotsOf_eq :
    slotsOf t m o = (info.slotOffsets (layoutLength info m o)).map (o + ·) := by
  rw [slotsOf, h.info_eq]

variable (hr : info.Regular)
include hr

theorem info_ok : Object.info t m o = .ok info := by
  have hheader := (hr.extent_ok (layoutLength info m o)).2.1
  have hscalar := info.scalarHeaderBytes_le
  have haligned := h.aligned
  have htop := h.top
  simp only [Types.scalarHeaderBytes, wordBytes] at hscalar haligned
  have hadd : Word.add o wordBytes = .ok (o + wordBytes) :=
    Word.add_ok (by simp only [wordBytes]; omega)
  have hcheck : check (o + wordBytes) = .ok () := if_pos (by simp only [wordBytes]; omega)
  simp only [Object.info, hadd, ok_bind, hcheck, h.info_eq]

theorem size_eq : Object.size t m o = .ok (info.extent (layoutLength info m o)) := by
  rw [Object.size, h.info_ok hr, ok_bind]
  exact TypeInfo.bytesRequired_eq ((Nat.le_add_left _ o).trans_lt h.top)

-- Slots are words behind the header.
theorem slot_mem {slot : Nat} (hslot : slot ∈ slotsOf t m o) :
    slot % wordBytes = 0 ∧ o + info.headerBytes ≤ slot ∧
      slot + wordBytes ≤ o + info.extent (layoutLength info m o) := by
  rw [h.slotsOf_eq] at hslot
  obtain ⟨offset, hoffset, rfl⟩ := List.mem_map.mp hslot
  obtain ⟨h1, h2, h3⟩ := (hr.extent_ok _).2.2 offset hoffset
  have haligned := h.aligned
  simp only [wordBytes] at h1 h3 haligned ⊢
  omega

omit hr in
-- No slot is listed twice, unless a field is.
theorem nodup_slotsOf_iff :
    (slotsOf t m o).Nodup ↔ (info.element = none → info.offsets.Nodup) := by
  rw [h.slotsOf_eq, List.nodup_map_iff fun i j hij => Nat.add_left_cancel hij]
  exact info.nodup_slotOffsets_iff _

-- A scan visits the slots in order.
theorem scan_eq {σ : Type} (visit : σ → Nat → Except Fault σ) (s : σ) :
    scan t m o visit s = (slotsOf t m o).foldlM visit s := by
  have htop := h.top
  have hlt : ∀ offset ∈ info.slotOffsets (layoutLength info m o), o + offset < Word.bound := by
    intro offset ho
    have hslot := h.slot_mem hr (h.slotsOf_eq ▸ List.mem_map_of_mem ho)
    omega
  have hstop := info.stop_le_extent (layoutLength info m o)
  rw [h.slotsOf_eq]
  simp only [scan, h.info_ok hr, ok_bind]
  cases he : info.element with
  | none =>
    have hoffsets : info.slotOffsets (layoutLength info m o) = info.offsets := by
      rw [TypeInfo.slotOffsets, he]
    rw [hoffsets] at hlt ⊢
    exact foldlM_offsets s hlt
  | some element =>
    cases element with
    | plain bytes =>
      have hoffsets : info.slotOffsets (layoutLength info m o) = [] := by
        rw [TypeInfo.slotOffsets, he]
      rw [hoffsets]
      rfl
    | reference =>
      have harray : info.isArray = true := by rw [TypeInfo.isArray, he]; rfl
      have hlength : layoutLength info m o = arrayLength m o := if_pos harray
      have hoffsets : info.slotOffsets (layoutLength info m o) =
          (List.range (arrayLength m o)).map fun i => Types.arrayHeaderBytes + i * wordBytes := by
        rw [TypeInfo.slotOffsets, he, hlength]
      simp only [TypeInfo.stop, he, Element.bytes, hlength] at hstop
      rw [hlength] at htop
      rw [hoffsets, List.map_map]
      have hadd : Word.add o Types.arrayHeaderBytes = .ok (o + Types.arrayHeaderBytes) :=
        Word.add_ok (by omega)
      rw [hadd, ok_bind, scanWords_eq _ _ _ _ (by rw [Nat.zero_add]; omega), ← List.range_eq_range']
      show List.foldlM visit s _ = List.foldlM visit s _
      congr 2
      funext i
      exact Nat.add_assoc _ _ _

theorem slots_ok : slots t m o = .ok (slotsOf t m o) := by
  have hfold : ∀ (xs found : List Nat), xs.foldlM (m := Except Fault)
      (fun found slot => .ok (slot :: found)) found = .ok (xs.reverse ++ found) := by
    intro xs
    induction xs with
    | nil => exact fun found => rfl
    | cons x xs ih =>
      intro found
      rw [List.foldlM_cons, ok_bind, ih, List.reverse_cons, List.append_assoc]
      rfl
  rw [slots, h.scan_eq hr, hfold, ok_bind, List.append_nil, List.reverse_reverse]

-- Slots are looked up by their number.
theorem slot?_eq (index : Nat) : slot? t m o index = .ok (slotsOf t m o)[index]? := by
  have hoffset := TypeInfo.slotOffset?_eq ((Nat.le_add_left _ o).trans_lt h.top) index
  simp only [slot?, h.info_ok hr, ok_bind, hoffset]
  rw [h.slotsOf_eq, List.getElem?_map]
  cases hget : (info.slotOffsets (layoutLength info m o))[index]? with
  | none => rfl
  | some offset =>
    have hslot := h.slot_mem hr (h.slotsOf_eq ▸ List.mem_map_of_mem (List.mem_of_getElem? hget))
    have htop := h.top
    have hadd : Word.add o offset = .ok (o + offset) := Word.add_ok (by omega)
    simp only [hadd, ok_bind, Option.map_some]

end Instance

-- Sizes, look-ups and scans fit together, whatever types were registered: a scan visits the slots in
-- the order of their numbers, no number beyond them stands for a slot, and each is a word between the
-- header and the end of the object.
theorem Instance.slots_agree {info : TypeInfo} (ht : t.Built) (h : Instance t m o info) :
    Object.size t m o = .ok (info.extent (layoutLength info m o)) ∧
    ∃ slots : List Nat,
      (∀ (σ : Type) (visit : σ → Nat → Except Fault σ) (s : σ),
        scan t m o visit s = slots.foldlM visit s) ∧
      (∀ index, slot? t m o index = .ok slots[index]?) ∧
      ∀ slot ∈ slots, slot % wordBytes = 0 ∧ o + info.headerBytes ≤ slot ∧
        slot + wordBytes ≤ o + info.extent (layoutLength info m o) := by
  have hr : info.Regular := ht.regular info (List.mem_of_getElem? (Types.info_eq_ok.mp h.info_eq))
  refine ⟨h.size_eq hr, slotsOf t m o, fun σ visit s => h.scan_eq hr visit s, h.slot?_eq hr, ?_⟩
  exact fun slot hslot => h.slot_mem hr hslot

-- A scalar type whose only field was listed twice, and arrays of references.
namespace Couple

def types : Types :=
  ⟨[⟨"twice", none, [16, 16], 24, false⟩, ⟨"references", some .reference, [], 0, false⟩]⟩

-- An array of two references at 8.
def memory : Memory := (Memory.empty.write 16 1).write 24 2

theorem built : types.Built :=
  have hscalar : ({} : Types).registerScalar "twice" 1 [0, 0] =
      .ok (0, ⟨[⟨"twice", none, [16, 16], 24, false⟩]⟩) := rfl
  (Types.Built.empty.scalar hscalar).referenceArray "references"

theorem array : Instance types memory 8 ⟨"references", some .reference, [], 0, false⟩ :=
  ⟨rfl, by decide +kernel, by decide +kernel⟩

end Couple

-- The two references follow the three words of the header, and there is no third.
theorem slots_agree_array : Couple.types.Built ∧ Object.size Couple.types Couple.memory 8 = .ok 40 ∧
    ∃ slots : List Nat, slots.length = 2 ∧ slots[0]? = some 32 ∧ slots[1]? = some 40 ∧
      ∀ slot ∈ slots, slot % wordBytes = 0 ∧ 32 ≤ slot ∧ slot + wordBytes ≤ 48 := by
  obtain ⟨hsize, slots, -, hslots, hmem⟩ := Instance.slots_agree Couple.built Couple.array
  have hfound : ∀ index found, slot? Couple.types Couple.memory 8 index = .ok found →
      slots[index]? = found := fun index found h => Except.ok.inj ((hslots index).symm.trans h)
  have hfirst := hfound 0 (some 32) (by decide +kernel)
  have hsecond := hfound 1 (some 40) (by decide +kernel)
  have hnone := List.getElem?_eq_none_iff.mp (hfound 2 none (by decide +kernel))
  have hsome := (List.getElem?_eq_some_iff.mp hsecond).1
  exact ⟨Couple.built, hsize, slots, by omega, hfirst, hsecond, hmem⟩

namespace Formed

variable (h : Formed t m o bytes)
include h

theorem instance_ok : ∃ info, Instance t m o info ∧ info.Sound ∧
    info.extent (layoutLength info m o) ≤ bytes := by
  obtain ⟨info, size, hinfo, hsound, hsize, hle⟩ := h.layout
  obtain rfl := TypeInfo.eq_extent_of_bytesRequired hsize
  exact ⟨info, ⟨h.aligned, hinfo, (Nat.add_le_add_left hle o).trans_lt h.top⟩, hsound, hle⟩

theorem headerBytes_le : Types.scalarHeaderBytes ≤ bytes := by
  obtain ⟨info, -, hsound, hle⟩ := h.instance_ok
  have h1 := (hsound.regular.extent_ok (layoutLength info m o)).2.1
  have h2 := info.scalarHeaderBytes_le
  omega

theorem info_ok : ∃ info, Object.info t m o = .ok info ∧ t.info (typeId m o) = .ok info := by
  obtain ⟨info, hi, hsound, -⟩ := h.instance_ok
  exact ⟨info, hi.info_ok hsound.regular, hi.info_eq⟩

-- Slots are words of their own behind the header.
theorem slotsOf_eq : ∃ info size, t.info (typeId m o) = .ok info ∧
    Object.info t m o = .ok info ∧ info.bytesRequired (layoutLength info m o) = .ok size ∧
    size ≤ bytes ∧ size % wordBytes = 0 ∧ info.headerBytes ≤ size ∧
    slotsOf t m o = (info.slotOffsets (layoutLength info m o)).map (o + ·) ∧
    (∀ slot ∈ slotsOf t m o, slot % wordBytes = 0 ∧ o + info.headerBytes ≤ slot ∧
      slot + wordBytes ≤ o + size) ∧ (slotsOf t m o).Nodup := by
  obtain ⟨info, hi, hsound, hle⟩ := h.instance_ok
  have hsize := TypeInfo.bytesRequired_eq ((Nat.le_add_left _ o).trans_lt hi.top)
  obtain ⟨hmod, hheader, -⟩ := hsound.regular.extent_ok (layoutLength info m o)
  exact ⟨info, _, hi.info_eq, hi.info_ok hsound.regular, hsize, hle, hmod, hheader, hi.slotsOf_eq,
    fun slot hslot => hi.slot_mem hsound.regular hslot, hi.nodup_slotsOf_iff.mpr hsound.nodup⟩

theorem slot_mem {slot : Nat} (hslot : slot ∈ slotsOf t m o) :
    slot % wordBytes = 0 ∧ o + Types.scalarHeaderBytes ≤ slot ∧ slot + wordBytes ≤ o + bytes := by
  obtain ⟨info, size, -, -, -, hle, -, -, -, hslots, -⟩ := h.slotsOf_eq
  obtain ⟨h1, h2, h3⟩ := hslots slot hslot
  have h4 := info.scalarHeaderBytes_le
  exact ⟨h1, by omega, by omega⟩

theorem nodup_slotsOf : (slotsOf t m o).Nodup := by
  obtain ⟨info, size, -, -, -, -, -, -, -, -, hnodup⟩ := h.slotsOf_eq
  exact hnodup

theorem scan_eq {σ : Type} (visit : σ → Nat → Except Fault σ) (s : σ) :
    scan t m o visit s = (slotsOf t m o).foldlM visit s := by
  obtain ⟨info, hi, hsound, -⟩ := h.instance_ok
  exact hi.scan_eq hsound.regular visit s

theorem slots_ok : slots t m o = .ok (slotsOf t m o) := by
  obtain ⟨info, hi, hsound, -⟩ := h.instance_ok
  exact hi.slots_ok hsound.regular

theorem references_ok : references t m o = .ok (refs t m o) := by
  rw [references, h.slots_ok, ok_bind, refs]

end Formed

theorem layoutLength_congr {info : TypeInfo}
    (h : info.isArray = true → m'.read (o + 16) = m.read (o + 16)) :
    layoutLength info m' o = layoutLength info m o := by
  unfold layoutLength
  split
  · exact h ‹_›
  · rfl

-- The header lies behind the status word.
theorem Formed.header_congr (h : Formed t m o bytes)
    (hm : ∀ a, a % wordBytes = 0 → o < a → a < o + bytes → m'.read a = m.read a) :
    m'.read (o + 8) = m.read (o + 8) ∧ ∀ info, t.info (typeId m o) = .ok info →
      info.isArray = true → m'.read (o + 16) = m.read (o + 16) := by
  have h1 := h.aligned
  have h2 := h.headerBytes_le
  simp only [Types.scalarHeaderBytes, wordBytes] at h1 h2 hm
  refine ⟨hm (o + 8) (by omega) (by omega) (by omega), fun info hinfo harray => ?_⟩
  obtain ⟨info', size, hinfo', -, -, hle, -, h3, -⟩ := h.slotsOf_eq
  obtain rfl : info = info' := Except.ok.inj (hinfo.symm.trans hinfo')
  rw [TypeInfo.headerBytes, if_pos harray, Types.arrayHeaderBytes] at h3
  exact hm (o + 16) (by omega) (by omega) (by omega)

-- The header tells where the slots are.
theorem Formed.congr_header (h : Formed t m o bytes) (htype : m'.read (o + 8) = m.read (o + 8))
    (hlength : ∀ info, t.info (typeId m o) = .ok info → info.isArray = true →
      m'.read (o + 16) = m.read (o + 16)) :
    Formed t m' o bytes ∧ slotsOf t m' o = slotsOf t m o := by
  have hid : typeId m' o = typeId m o := by rw [typeId, htype, typeId]
  obtain ⟨info, size, hinfo, hsound, hsize, hle⟩ := h.layout
  have hlength' := layoutLength_congr (hlength info hinfo)
  refine ⟨⟨h.aligned, h.top, info, size, ?_, hsound, ?_, hle⟩, ?_⟩
  · rw [hid]
    exact hinfo
  · rw [hlength']
    exact hsize
  · simp only [slotsOf, hid, hinfo, hlength']

-- The words behind the status word tell everything about an object.
theorem Formed.congr (h : Formed t m o bytes)
    (hm : ∀ a, a % wordBytes = 0 → o < a → a < o + bytes → m'.read a = m.read a) :
    Formed t m' o bytes ∧ slotsOf t m' o = slotsOf t m o ∧ refs t m' o = refs t m o := by
  obtain ⟨htype, hlength⟩ := h.header_congr hm
  obtain ⟨hformed, hslots⟩ := h.congr_header htype hlength
  refine ⟨hformed, hslots, ?_⟩
  rw [refs, hslots, refs]
  congr 1
  refine List.map_congr_left fun slot hslot => ?_
  obtain ⟨h3, h4, h5⟩ := h.slot_mem hslot
  simp only [Types.scalarHeaderBytes, wordBytes] at h3 h4 h5
  exact hm slot h3 (by omega) (by omega)

theorem Formed.size_ok (h : Formed t m o bytes) :
    ∃ size, Object.size t m o = .ok size ∧ Types.scalarHeaderBytes ≤ size ∧ size ≤ bytes := by
  obtain ⟨info, size, -, hinfo, hsize, hle, -, hheader, -⟩ := h.slotsOf_eq
  refine ⟨size, ?_, info.scalarHeaderBytes_le.trans hheader, hle⟩
  rw [Object.size, hinfo]
  exact hsize

-- The header tells the size.
theorem Formed.size_congr_header (h : Formed t m o bytes) (htype : m'.read (o + 8) = m.read (o + 8))
    (hlength : ∀ info, t.info (typeId m o) = .ok info → info.isArray = true →
      m'.read (o + 16) = m.read (o + 16)) : Object.size t m' o = Object.size t m o := by
  obtain ⟨info, hread, hinfo⟩ := h.info_ok
  have hid : typeId m' o = typeId m o := by rw [typeId, htype, typeId]
  have hlength' := layoutLength_congr (hlength info hinfo)
  have hread' : Object.info t m' o = .ok info := by
    rw [Object.info, hid]
    exact hread
  rw [Object.size, Object.size, hread, hread', ok_bind, ok_bind, hlength']

theorem Formed.size_congr (h : Formed t m o bytes)
    (hm : ∀ a, a % wordBytes = 0 → o < a → a < o + bytes → m'.read a = m.read a) :
    Object.size t m' o = Object.size t m o :=
  let ⟨htype, hlength⟩ := h.header_congr hm
  h.size_congr_header htype hlength

-- What is written behind the header leaves the header as it was.
theorem Formed.read_header (h : Formed t m o bytes) {info : TypeInfo}
    (hinfo : Object.info t m o = .ok info) (ha : o + info.headerBytes ≤ a) (v : Nat) :
    (m.write a v).read (o + 8) = m.read (o + 8) ∧ ∀ info', t.info (typeId m o) = .ok info' →
      info'.isArray = true → (m.write a v).read (o + 16) = m.read (o + 16) := by
  have h1 := info.scalarHeaderBytes_le
  simp only [Types.scalarHeaderBytes] at h1
  refine ⟨Memory.read_write_of_ne (by omega) v, fun info' hinfo' harray => ?_⟩
  obtain ⟨info₁, hinfo₁, hinfo₂⟩ := h.info_ok
  obtain rfl : info = info₁ := Except.ok.inj (hinfo.symm.trans hinfo₁)
  obtain rfl : info = info' := Except.ok.inj (hinfo₂.symm.trans hinfo')
  rw [TypeInfo.headerBytes, if_pos harray, Types.arrayHeaderBytes] at ha
  exact Memory.read_write_of_ne (by omega) v

theorem Formed.size_write (h : Formed t m o bytes) {info : TypeInfo}
    (hinfo : Object.info t m o = .ok info) (ha : o + info.headerBytes ≤ a) (v : Nat) :
    Object.size t (m.write a v) o = Object.size t m o :=
  let ⟨htype, hlength⟩ := h.read_header hinfo ha v
  h.size_congr_header htype hlength

-- The slots stay where they are.
theorem Formed.write_behind (h : Formed t m o bytes) {info : TypeInfo}
    (hinfo : Object.info t m o = .ok info) (ha : o + info.headerBytes ≤ a) (v : Nat) :
    Formed t (m.write a v) o bytes ∧ slotsOf t (m.write a v) o = slotsOf t m o :=
  let ⟨htype, hlength⟩ := h.read_header hinfo ha v
  h.congr_header htype hlength

-- One reference takes the place of another.
theorem Formed.write_slot (h : Formed t m o bytes) {slot : Nat} (hslot : slot ∈ slotsOf t m o)
    (v : Nat) :
    Formed t (m.write slot v) o bytes ∧ slotsOf t (m.write slot v) o = slotsOf t m o ∧
      ∀ x, x ≠ 0 → (refs t (m.write slot v) o).count x + (if m.read slot = x then 1 else 0) =
        (refs t m o).count x + if v = x then 1 else 0 := by
  obtain ⟨info, size, -, hinfo, -, -, -, -, -, hmem, hnodup⟩ := h.slotsOf_eq
  obtain ⟨hformed, hslots⟩ := h.write_behind hinfo (hmem slot hslot).2.1 v
  refine ⟨hformed, hslots, fun x hx => ?_⟩
  have hperm := List.perm_cons_erase hslot
  have hrest : ((slotsOf t m o).erase slot).map (m.write slot v).read =
      ((slotsOf t m o).erase slot).map m.read := by
    refine List.map_congr_left fun a ha => ?_
    exact Memory.read_write_of_ne ((hnodup.mem_erase_iff.mp ha).1) v
  have hcount : ∀ m' : Memory, (((slotsOf t m o).map m'.read).filter (· != 0)).count x =
      (((slotsOf t m o).erase slot).map m'.read).count x + if m'.read slot = x then 1 else 0 := by
    intro m'
    rw [List.count_filter (by simpa using hx), (hperm.map m'.read).count_eq, List.map_cons,
      List.count_cons]
    simp only [beq_iff_eq]
  rw [refs, refs, hslots, hcount, hcount, hrest, Memory.read_write_self]
  omega

-- Data is no reference.
theorem Formed.write_data (h : Formed t m o bytes) {info : TypeInfo}
    (hinfo : Object.info t m o = .ok info) (ha : o + info.headerBytes ≤ a)
    (hdata : a ∉ slotsOf t m o) (v : Nat) :
    Formed t (m.write a v) o bytes ∧ slotsOf t (m.write a v) o = slotsOf t m o ∧
      refs t (m.write a v) o = refs t m o := by
  obtain ⟨hformed, hslots⟩ := h.write_behind hinfo ha v
  refine ⟨hformed, hslots, ?_⟩
  rw [refs, hslots, refs]
  congr 1
  exact List.map_congr_left fun slot hslot =>
    Memory.read_write_of_ne (fun heq : slot = a => hdata (heq ▸ hslot)) v

theorem Formed.slot?_some (h : Formed t m o bytes) {index slot : Nat}
    (hslot : slot? t m o index = .ok (some slot)) : slot ∈ slotsOf t m o := by
  obtain ⟨info, hi, hsound, -⟩ := h.instance_ok
  rw [hi.slot?_eq hsound.regular] at hslot
  exact List.mem_of_getElem? (Except.ok.inj hslot)

-- A new object is laid out as it was asked for.
theorem layout_writeHeader (ht : t.Sound) {id length size s : Nat} {info : TypeInfo}
    (hinfo : t.info id = .ok info) (hsize : info.bytesRequired length = .ok size) :
    typeId (writeHeader m info o s id length) o = id ∧
      info.bytesRequired (layoutLength info (writeHeader m info o s id length) o) = .ok size := by
  have hid := (ht.info hinfo).2
  constructor
  · unfold writeHeader typeId
    split
    · rw [setArrayLength, Memory.read_write_of_ne (by omega), setTypeId, Memory.read_write_self,
        Nat.mod_mod, Nat.mod_eq_of_lt hid]
    · rw [setTypeId, Memory.read_write_self, Nat.mod_mod, Nat.mod_eq_of_lt hid]
  · rw [← hsize]
    by_cases harray : info.isArray = true
    · have hlength : layoutLength info (writeHeader m info o s id length) o = length := by
        simp only [layoutLength, arrayLength, writeHeader, harray, if_true, setArrayLength,
          Memory.read_write_self]
      rw [hlength]
    · have hnone : info.element = none := by simpa [TypeInfo.isArray] using harray
      simp only [TypeInfo.bytesRequired, hnone]

-- It holds nothing.
theorem formed_writeHeader (ht : t.Sound) {id length size s : Nat} {info : TypeInfo}
    (hinfo : t.info id = .ok info) (hsize : info.bytesRequired length = .ok size)
    (hle : size ≤ bytes) (ho : o % wordBytes = 0) (htop : o + bytes < Word.bound)
    (hzero : ∀ a, a % wordBytes = 0 → o ≤ a → a < o + bytes → m.read a = 0) :
    Formed t (writeHeader m info o s id length) o bytes ∧
      refs t (writeHeader m info o s id length) o = [] ∧
      status (writeHeader m info o s id length) o = s ∧
      ∀ a, a ≠ o → a ≠ o + 8 → (info.isArray = true → a ≠ o + 16) →
        (writeHeader m info o s id length).read a = m.read a := by
  have hsound := (ht.info hinfo).1
  have hframe : ∀ a, a ≠ o → a ≠ o + 8 → (info.isArray = true → a ≠ o + 16) →
      (writeHeader m info o s id length).read a = m.read a := by
    intro a h1 h2 h3
    unfold writeHeader
    split
    · rename_i harray
      rw [setArrayLength, Memory.read_write_of_ne (h3 harray), setTypeId,
        Memory.read_write_of_ne h2, setStatus, Memory.read_write_of_ne h1]
    · rw [setTypeId, Memory.read_write_of_ne h2, setStatus, Memory.read_write_of_ne h1]
  have hstatus : status (writeHeader m info o s id length) o = s := by
    unfold writeHeader status
    split
    · rw [setArrayLength, Memory.read_write_of_ne (by omega), setTypeId,
        Memory.read_write_of_ne (by omega), setStatus, Memory.read_write_self]
    · rw [setTypeId, Memory.read_write_of_ne (by omega), setStatus, Memory.read_write_self]
  obtain ⟨htype, hrequired⟩ := layout_writeHeader (m := m) (o := o) (s := s) ht hinfo hsize
  have hformed : Formed t (writeHeader m info o s id length) o bytes :=
    ⟨ho, htop, info, size, by rw [htype]; exact hinfo, hsound, hrequired, hle⟩
  refine ⟨hformed, ?_, hstatus, hframe⟩
  rw [refs, List.filter_eq_nil_iff]
  intro x hx
  obtain ⟨slot, hslot, rfl⟩ := List.mem_map.mp hx
  obtain ⟨info', size', hinfo', -, -, h4, -, -, -, hmem, -⟩ := hformed.slotsOf_eq
  rw [htype] at hinfo'
  obtain rfl : info = info' := Except.ok.inj (hinfo.symm.trans hinfo')
  obtain ⟨h1, h2, h3⟩ := hmem slot hslot
  have h5 := info.scalarHeaderBytes_le
  simp only [Types.scalarHeaderBytes, wordBytes] at h3 h5
  rw [hframe slot (by omega) (by omega) fun harray => by
    rw [TypeInfo.headerBytes, if_pos harray, Types.arrayHeaderBytes] at h2
    omega, hzero slot h1 (by omega) (by omega)]
  simp

theorem size_writeHeader (ht : t.Sound) {id length size s : Nat} {info : TypeInfo}
    (hinfo : t.info id = .ok info) (hsize : info.bytesRequired length = .ok size)
    (h : Formed t (writeHeader m info o s id length) o bytes) :
    Object.size t (writeHeader m info o s id length) o = .ok size := by
  obtain ⟨htype, hrequired⟩ := layout_writeHeader (m := m) (o := o) (s := s) ht hinfo hsize
  obtain ⟨info', hread, hinfo'⟩ := h.info_ok
  rw [htype] at hinfo'
  obtain rfl : info = info' := Except.ok.inj (hinfo.symm.trans hinfo')
  rw [Object.size, hread, ok_bind, hrequired]

end Reclaim.Object
