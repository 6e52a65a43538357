import Mathlib.Data.List.Nodup
import Mathlib.Data.List.Range
import Reclaim.Object
import Reclaim.Proofs.Word

/-!
Layouts of instances. The reference slots of an instance are words behind its header, each of its
own.
-/
namespace Reclaim

open Sizes

namespace TypeInfo

variable {info : TypeInfo} {length bytes index offset : Nat}

-- Where an instance with so many elements holds references, from its start.
def slotOffsets (info : TypeInfo) (length : Nat) : List Nat :=
  match info.element with
  | some .reference => (List.range length).map fun i => Types.arrayHeaderBytes + i * wordBytes
  | some (.plain _) => []
  | none => info.offsets

-- Bytes before the elements or the payload.
def headerBytes (info : TypeInfo) : Nat :=
  if info.isArray then Types.arrayHeaderBytes else Types.scalarHeaderBytes

-- One past the last byte of the payload or of so many elements.
def stop (info : TypeInfo) (length : Nat) : Nat :=
  match info.element with
  | some element => Types.arrayHeaderBytes + length * element.bytes
  | none => info.scalarBytes

-- Bytes that an instance with so many elements takes.
def extent (info : TypeInfo) (length : Nat) : Nat :=
  Word.ceilDiv (info.stop length) wordBytes * wordBytes

theorem stop_le_extent (info : TypeInfo) (length : Nat) : info.stop length ≤ info.extent length := by
  simp only [extent, Word.ceilDiv, wordBytes]
  omega

-- The size is that of the payload in whole words, if this is a word.
theorem bytesRequired_eq (h : info.extent length < Word.bound) :
    info.bytesRequired length = .ok (info.extent length) := by
  have hnext := Word.nextMultiple_eq_ceilDiv (by decide) h
  have hstop := (info.stop_le_extent length).trans_lt h
  unfold bytesRequired
  unfold stop at hnext hstop
  cases he : info.element with
  | none =>
    simp only [he] at hnext
    simp only [hnext, extent, stop, he]
  | some element =>
    simp only [he] at hnext hstop
    have hproduct : Word.mul length element.bytes = .ok (length * element.bytes) :=
      Word.mul_ok (by omega)
    simp only [hproduct, ok_bind, Word.add_ok hstop, hnext, extent, stop, he]

theorem eq_extent_of_bytesRequired (h : info.bytesRequired length = .ok bytes) :
    bytes = info.extent length := by
  have hround : ∀ {a}, Word.nextMultiple a wordBytes = .ok bytes →
      bytes = Word.ceilDiv a wordBytes * wordBytes := by
    intro a ha
    obtain ⟨h1, h2, h3⟩ := Word.nextMultiple_ok (by decide) ha
    simp only [Word.ceilDiv, wordBytes] at h2 h3 ⊢
    omega
  unfold bytesRequired at h
  cases he : info.element with
  | none =>
    rw [he] at h
    simpa only [extent, stop, he] using hround h
  | some element =>
    rw [he] at h
    simp only [bind_eq_ok] at h
    obtain ⟨product, hproduct, total, htotal, h⟩ := h
    obtain ⟨rfl, -⟩ := Word.mul_eq_ok.mp hproduct
    obtain ⟨rfl, -⟩ := Word.add_eq_ok.mp htotal
    simpa only [extent, stop, he] using hround h

-- The fields of a scalar are words of its payload.
structure Regular (info : TypeInfo) : Prop where
  bytes : info.element = none →
    Types.scalarHeaderBytes ≤ info.scalarBytes ∧ info.scalarBytes % wordBytes = 0
  fields : info.element = none → ∀ offset ∈ info.offsets, offset % wordBytes = 0 ∧
    Types.scalarHeaderBytes ≤ offset ∧ offset + wordBytes ≤ info.scalarBytes

-- The fields of a scalar are words of its payload, each listed once.
structure Sound (info : TypeInfo) : Prop where
  bytes : info.element = none →
    Types.scalarHeaderBytes ≤ info.scalarBytes ∧ info.scalarBytes % wordBytes = 0
  fields : info.element = none → ∀ offset ∈ info.offsets, offset % wordBytes = 0 ∧
    Types.scalarHeaderBytes ≤ offset ∧ offset + wordBytes ≤ info.scalarBytes
  nodup : info.element = none → info.offsets.Nodup

theorem Sound.regular (h : info.Sound) : info.Regular := { h with }

-- No slot is listed twice, unless a field of a scalar is.
theorem nodup_slotOffsets_iff (info : TypeInfo) (length : Nat) :
    (info.slotOffsets length).Nodup ↔ (info.element = none → info.offsets.Nodup) := by
  cases he : info.element with
  | none =>
    rw [slotOffsets, he]
    exact ⟨fun h _ => h, fun h => h rfl⟩
  | some element =>
    refine iff_of_true ?_ nofun
    cases element with
    | plain bytes =>
      rw [slotOffsets, he]
      exact List.nodup_nil
    | reference =>
      rw [slotOffsets, he]
      refine List.Nodup.map (fun i j hij => ?_) List.nodup_range
      simp only [wordBytes] at hij
      omega

theorem scalarHeaderBytes_le (info : TypeInfo) : Types.scalarHeaderBytes ≤ info.headerBytes := by
  unfold headerBytes
  split <;> decide

-- An instance has room for its header and its slots, which are words.
theorem Regular.extent_ok (h : info.Regular) (length : Nat) :
    info.extent length % wordBytes = 0 ∧ info.headerBytes ≤ info.extent length ∧
      ∀ offset ∈ info.slotOffsets length, offset % wordBytes = 0 ∧ info.headerBytes ≤ offset ∧
        offset + wordBytes ≤ info.extent length := by
  have hle := info.stop_le_extent length
  refine ⟨Nat.mul_mod_left _ _, ?_⟩
  cases he : info.element with
  | none =>
    obtain ⟨h1, h2⟩ := h.bytes he
    have hheader : info.headerBytes = Types.scalarHeaderBytes := by
      simp [headerBytes, isArray, he]
    simp only [stop, he] at hle
    rw [hheader, slotOffsets, he]
    refine ⟨by omega, fun offset ho => ?_⟩
    obtain ⟨h3, h4, h5⟩ := h.fields he offset ho
    exact ⟨h3, h4, by omega⟩
  | some element =>
    have hheader : info.headerBytes = Types.arrayHeaderBytes := by
      simp [headerBytes, isArray, he]
    simp only [stop, he] at hle
    rw [hheader, slotOffsets, he]
    refine ⟨by omega, fun offset ho => ?_⟩
    cases element with
    | plain bytes => cases ho
    | reference =>
      obtain ⟨i, hi, rfl⟩ := List.mem_map.mp ho
      have hi := List.mem_range.mp hi
      simp only [Element.bytes, wordBytes, Types.arrayHeaderBytes] at hle ⊢
      omega

theorem Sound.bytesRequired_ok (h : info.Sound) (hb : info.bytesRequired length = .ok bytes) :
    bytes % wordBytes = 0 ∧ info.headerBytes ≤ bytes ∧
      ∀ offset ∈ info.slotOffsets length, offset % wordBytes = 0 ∧ info.headerBytes ≤ offset ∧
        offset + wordBytes ≤ bytes :=
  eq_extent_of_bytesRequired hb ▸ h.regular.extent_ok length

-- Slots are numbered in order, and no number stands for a word behind the last of them.
theorem slotOffset?_eq (h : info.extent length < Word.bound) (index : Nat) :
    info.slotOffset? length index = .ok (info.slotOffsets length)[index]? := by
  have hstop := (info.stop_le_extent length).trans_lt h
  unfold slotOffset? slotOffsets
  unfold stop at hstop
  cases he : info.element with
  | none => rfl
  | some element =>
    cases element with
    | plain bytes => rfl
    | reference =>
      simp only [he, Element.bytes, wordBytes] at hstop
      simp only [wordBytes]
      split
      · rename_i hi
        rw [Word.mul_ok (by omega), ok_bind, Word.add_ok (by omega), ok_bind]
        simp [hi]
      · rename_i hi
        simp [hi]

end TypeInfo

namespace Types

variable {t t' : Types}

-- Tables that registration makes when it is given distinct fields. No more types are registered
-- than type words can tell apart.
inductive Registered : Types → Prop where
  | empty : Registered {}
  | scalar {t t' : Types} {name : String} {words id : Nat} {fields : List Nat} :
    Registered t → t.table.length < Object.idBound → fields.Nodup →
      t.registerScalar name words fields = .ok (id, t') → Registered t'
  | referenceArray {t : Types} (name : String) :
    Registered t → t.table.length < Object.idBound → Registered (t.registerReferenceArray name).2
  | plainArray {t : Types} (name : String) (bytes : Nat) :
    Registered t → t.table.length < Object.idBound → Registered (t.registerPlainArray name bytes).2
  | acyclic {t t' : Types} {id : Nat} {acyclic : Bool} :
    Registered t → t.setAcyclic id acyclic = .ok t' → Registered t'

-- Tables that registration makes, whatever fields it is given.
inductive Built : Types → Prop where
  | empty : Built {}
  | scalar {t t' : Types} {name : String} {words id : Nat} {fields : List Nat} :
    Built t → t.registerScalar name words fields = .ok (id, t') → Built t'
  | referenceArray {t : Types} (name : String) : Built t → Built (t.registerReferenceArray name).2
  | plainArray {t : Types} (name : String) (bytes : Nat) :
    Built t → Built (t.registerPlainArray name bytes).2
  | acyclic {t t' : Types} {id : Nat} {acyclic : Bool} :
    Built t → t.setAcyclic id acyclic = .ok t' → Built t'

theorem Registered.built (h : Registered t) : t.Built := by
  induction h with
  | empty => exact .empty
  | scalar _ _ _ hrun ih => exact ih.scalar hrun
  | referenceArray name _ _ ih => exact ih.referenceArray name
  | plainArray name bytes _ _ ih => exact ih.plainArray name bytes
  | acyclic _ hrun ih => exact ih.acyclic hrun

structure Sound (t : Types) : Prop where
  infos : ∀ info ∈ t.table, info.Sound
  length_le : t.table.length ≤ Object.idBound

theorem mapM_fieldOffset {words : Nat} {fields offsets : List Nat}
    (h : fields.mapM (fieldOffset words) = .ok offsets) :
    offsets = fields.map (fun field => scalarHeaderBytes + field * wordBytes) ∧
      ∀ field ∈ fields, field < words := by
  induction fields generalizing offsets with
  | nil =>
    cases h
    exact ⟨rfl, by simp⟩
  | cons field fields ih =>
    rw [List.mapM_cons] at h
    simp only [bind_eq_ok] at h
    obtain ⟨offset, hoffset, rest, hrest, h⟩ := h
    cases h
    obtain ⟨rfl, hfields⟩ := ih hrest
    unfold fieldOffset at hoffset
    split at hoffset
    · rename_i hfield
      simp only [bind_eq_ok] at hoffset
      obtain ⟨product, hproduct, hoffset⟩ := hoffset
      obtain ⟨rfl, -⟩ := Word.mul_eq_ok.mp hproduct
      obtain ⟨rfl, -⟩ := Word.add_eq_ok.mp hoffset
      exact ⟨rfl, List.forall_mem_cons.mpr ⟨hfield, hfields⟩⟩
    · cases hoffset

-- A scalar type is listed with the offsets of its fields, which lie in its payload.
theorem registerScalar_ok {name : String} {words id : Nat} {fields : List Nat}
    (h : t.registerScalar name words fields = .ok (id, t')) :
    ∃ info, t' = (t.register info).2 ∧ info.Regular ∧
      info.offsets = fields.map fun field => scalarHeaderBytes + field * wordBytes := by
  simp only [registerScalar, bind_eq_ok] at h
  obtain ⟨offsets, hoffsets, product, hproduct, bytes, hbytes, h⟩ := h
  cases h
  obtain ⟨rfl, hfields⟩ := mapM_fieldOffset hoffsets
  obtain ⟨rfl, -⟩ := Word.mul_eq_ok.mp hproduct
  obtain ⟨rfl, -⟩ := Word.add_eq_ok.mp hbytes
  refine ⟨_, rfl, ⟨fun _ => ?_, fun _ offset ho => ?_⟩, rfl⟩
  · simp only [scalarHeaderBytes, wordBytes]
    omega
  · obtain ⟨field, hfield, rfl⟩ := List.mem_map.mp ho
    have hlt := hfields field hfield
    simp only [scalarHeaderBytes, wordBytes]
    omega

theorem info_eq_ok {id : Nat} {info : TypeInfo} :
    t.info id = .ok info ↔ t.table[id]? = some info := by
  unfold Types.info
  split
  · rename_i heq
    simp [heq]
  · rename_i heq
    simp [heq]

theorem setAcyclic_ok {id : Nat} {acyclic : Bool} (h : t.setAcyclic id acyclic = .ok t') :
    ∃ info ∈ t.table, t' = ⟨t.table.set id { info with acyclic }⟩ := by
  simp only [setAcyclic, bind_eq_ok] at h
  obtain ⟨info, hinfo, h⟩ := h
  cases h
  exact ⟨info, List.mem_of_getElem? (info_eq_ok.mp hinfo), rfl⟩

theorem mem_register {info x : TypeInfo} (hx : x ∈ (t.register info).2.table) :
    x ∈ t.table ∨ x = info := by
  simpa only [Types.register, List.mem_append, List.mem_singleton] using hx

theorem sound_array {name : String} {element : Element} {acyclic : Bool} :
    TypeInfo.Sound ⟨name, some element, [], 0, acyclic⟩ := ⟨nofun, nofun, nofun⟩

theorem Built.regular (h : Built t) : ∀ info ∈ t.table, info.Regular := by
  induction h with
  | empty => exact nofun
  | scalar _ hrun ih =>
    obtain ⟨info, rfl, hinfo, -⟩ := registerScalar_ok hrun
    intro x hx
    exact (mem_register hx).elim (ih x) fun heq => heq ▸ hinfo
  | referenceArray name _ ih | plainArray name bytes _ ih =>
    intro x hx
    exact (mem_register hx).elim (ih x) fun heq => heq ▸ sound_array.regular
  | acyclic _ hrun ih =>
    obtain ⟨info, hinfo, rfl⟩ := setAcyclic_ok hrun
    intro x hx
    rcases List.mem_or_eq_of_mem_set hx with hx | rfl
    · exact ih x hx
    · exact { ih info hinfo with }

theorem Sound.register (h : t.Sound) (hlt : t.table.length < Object.idBound) {info : TypeInfo}
    (hinfo : info.Sound) : (t.register info).2.Sound where
  infos x hx := (mem_register hx).elim (h.infos x) fun heq => heq ▸ hinfo
  length_le := by
    simp only [Types.register, List.length_append, List.length_singleton]
    exact hlt

theorem Registered.sound (h : Registered t) : t.Sound := by
  induction h with
  | empty => exact ⟨by simp, Nat.zero_le _⟩
  | scalar _ hlt hnodup hrun ih =>
    obtain ⟨info, rfl, hinfo, hoffsets⟩ := registerScalar_ok hrun
    refine ih.register hlt { hinfo with nodup := fun _ => ?_ }
    rw [hoffsets]
    refine hnodup.map fun i j hij => ?_
    simp only [wordBytes] at hij
    omega
  | referenceArray _ _ hlt ih => exact ih.register hlt sound_array
  | plainArray _ _ _ hlt ih => exact ih.register hlt sound_array
  | acyclic _ hrun ih =>
    obtain ⟨info, hinfo, rfl⟩ := setAcyclic_ok hrun
    refine ⟨fun x hx => ?_, by simpa using ih.length_le⟩
    rcases List.mem_or_eq_of_mem_set hx with hx | rfl
    · exact ih.infos x hx
    · exact { ih.infos info hinfo with }

theorem Sound.info (h : t.Sound) {id : Nat} {info : TypeInfo} (hinfo : t.info id = .ok info) :
    info.Sound ∧ id < Object.idBound := by
  have hget := info_eq_ok.mp hinfo
  have hlt := (List.getElem?_eq_some_iff.mp hget).1
  exact ⟨h.infos _ (List.mem_of_getElem? hget), hlt.trans_le h.length_le⟩

end Types

end Reclaim
