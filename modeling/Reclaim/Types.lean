import Reclaim.Word

/-!
The table of object types, and the layout it gives to their instances. A scalar has a status word, a
type word and then its payload words; an array has a length word after the type word and then its
elements.
-/
namespace Reclaim

-- What an array holds.
inductive Element where
  | reference
  | plain (bytes : Nat)
deriving DecidableEq, Repr

def Element.bytes : Element → Nat
  | .reference => Sizes.wordBytes
  | .plain bytes => bytes

structure TypeInfo where
  name : String
  -- The element kind of an array type, nothing for scalars.
  element : Option Element
  -- Where a scalar holds references, from the start of the object.
  offsets : List Nat
  scalarBytes : Nat
  -- Instances never take part in a cycle of references.
  acyclic : Bool
deriving DecidableEq, Repr

structure Types where
  table : List TypeInfo := []
deriving DecidableEq, Repr

namespace Types

def scalarHeaderBytes : Nat := 16
def arrayHeaderBytes : Nat := 24

def register (t : Types) (info : TypeInfo) : Nat × Types :=
  (t.table.length, ⟨t.table ++ [info]⟩)

def fieldOffset (words field : Nat) : Except Fault Nat :=
  if field < words then do Word.add scalarHeaderBytes (← Word.mul field Sizes.wordBytes)
  else .error .fieldOutOfRange

-- A scalar type with `words` payload words, those listed in `fields` holding references. A type
-- without references is acyclic.
def registerScalar (t : Types) (name : String) (words : Nat) (fields : List Nat) :
    Except Fault (Nat × Types) := do
  let offsets ← fields.mapM (fieldOffset words)
  let bytes ← Word.add scalarHeaderBytes (← Word.mul words Sizes.wordBytes)
  .ok (t.register ⟨name, none, offsets, bytes, offsets.isEmpty⟩)

def registerReferenceArray (t : Types) (name : String) : Nat × Types :=
  t.register ⟨name, some .reference, [], 0, false⟩

def registerPlainArray (t : Types) (name : String) (bytes : Nat) : Nat × Types :=
  t.register ⟨name, some (.plain bytes), [], 0, true⟩

def info (t : Types) (id : Nat) : Except Fault TypeInfo :=
  match t.table[id]? with
  | some info => .ok info
  | none => .error (.fatal (.unknownType id))

def setAcyclic (t : Types) (id : Nat) (acyclic : Bool) : Except Fault Types := do
  let info ← t.info id
  .ok ⟨t.table.set id { info with acyclic }⟩

end Types

namespace TypeInfo

def isArray (info : TypeInfo) : Bool := info.element.isSome

-- The size of an instance with `length` elements, in whole words. Scalars ignore the length.
def bytesRequired (info : TypeInfo) (length : Nat) : Except Fault Nat :=
  match info.element with
  | some element => do
    let bytes ← Word.add Types.arrayHeaderBytes (← Word.mul length element.bytes)
    Word.nextMultiple bytes Sizes.wordBytes
  | none => Word.nextMultiple info.scalarBytes Sizes.wordBytes

-- Where the reference slot of number `index` lies, if the instance has one.
def slotOffset? (info : TypeInfo) (length index : Nat) : Except Fault (Option Nat) :=
  match info.element with
  | some .reference =>
    if index < length then do
      .ok (some (← Word.add Types.arrayHeaderBytes (← Word.mul index Sizes.wordBytes)))
    else .ok none
  | some (.plain _) => .ok none
  | none => .ok info.offsets[index]?

end TypeInfo

end Reclaim
