import Reclaim.Memory
import Reclaim.Status
import Reclaim.Types

/-!
Objects in memory. An object is named by the address of its status word; its type word and length
word tell, through the type table, how large it is and which of its words hold references.
-/
namespace Reclaim.Object

open Sizes

-- The text that describes a reference.
def describeRef (o : Nat) : String := "ObjectReference(" ++ Word.hex o ++ ")"

def status (m : Memory) (o : Nat) : Nat := m.read o

def setStatus (m : Memory) (o s : Nat) : Memory := m.write o s

-- Type words keep 32 bits.
@[noinline] def idBound : Nat := 1 <<< 32

def typeId (m : Memory) (o : Nat) : Nat := m.read (o + 8) % idBound

def setTypeId (m : Memory) (o id : Nat) : Memory := m.write (o + 8) (id % idBound)

def arrayLength (m : Memory) (o : Nat) : Nat := m.read (o + 16)

def setArrayLength (m : Memory) (o length : Nat) : Memory := m.write (o + 16) length

-- Writes the header of an object; `length` only counts for arrays.
def writeHeader (m : Memory) (info : TypeInfo) (o s id length : Nat) : Memory :=
  let m := setTypeId (setStatus m o s) o id
  if info.isArray then setArrayLength m o length else m

-- Objects lie on word boundaries. Whoever follows a reference to a header checks this first.
def check (o : Nat) : Except Fault Unit :=
  if o % wordBytes = 0 then .ok () else .error .assertion

-- Where an object has gone.
def forwarding (m : Memory) (o : Nat) : Except Fault Forwarding := do
  check o
  .ok (Status.forwarding (status m o))

-- The type word is checked, not the object: an object at the very end of memory has none.
def info (t : Types) (m : Memory) (o : Nat) : Except Fault TypeInfo := do
  check (← Word.add o wordBytes)
  t.info (typeId m o)

-- The length that counts for the layout: scalars have none.
def layoutLength (info : TypeInfo) (m : Memory) (o : Nat) : Nat :=
  if info.isArray then arrayLength m o else 0

def size (t : Types) (m : Memory) (o : Nat) : Except Fault Nat := do
  let info ← info t m o
  info.bytesRequired (layoutLength info m o)

-- The address of reference slot `index`.
def slot? (t : Types) (m : Memory) (o index : Nat) : Except Fault (Option Nat) := do
  let info ← info t m o
  match ← info.slotOffset? (layoutLength info m o) index with
  | some offset => do .ok (some (← Word.add o offset))
  | none => .ok none

-- Visits the words `i`, `i + 1`, ... that follow `first`, so many of them.
def scanWords {σ : Type} (visit : σ → Nat → Except Fault σ) (first i : Nat) :
    Nat → σ → Except Fault σ
  | 0, s => .ok s
  | words + 1, s => do
    let s ← visit s (← Word.add first (← Word.mul i wordBytes))
    scanWords visit first (i + 1) words s

-- Visits every reference slot, in order. No address is worked out before its turn, so a visit may
-- end the scan of an array whose length is damaged.
def scan {σ : Type} (t : Types) (m : Memory) (o : Nat) (visit : σ → Nat → Except Fault σ) (s : σ) :
    Except Fault σ := do
  let info ← info t m o
  match info.element with
  | some .reference =>
    scanWords visit (← Word.add o Types.arrayHeaderBytes) 0 (arrayLength m o) s
  | some (.plain _) => .ok s
  | none => info.offsets.foldlM (fun s offset => do visit s (← Word.add o offset)) s

-- The addresses of all reference slots, in order.
def slots (t : Types) (m : Memory) (o : Nat) : Except Fault (List Nat) := do
  .ok (← scan t m o (fun found slot => .ok (slot :: found)) []).reverse

-- The references that the object holds, one per slot that is not null.
def references (t : Types) (m : Memory) (o : Nat) : Except Fault (List Nat) := do
  let slots ← slots t m o
  .ok ((slots.map m.read).filter (· != 0))

end Reclaim.Object
