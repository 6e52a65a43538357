import Reclaim.Fault

/-!
Machine words and the units that memory is handed out in. Sums, differences and products of words
fail when they leave the 64-bit range, and so do remainders by zero; shifts drop the bits that leave
the range.
-/
namespace Reclaim.Word

-- One past the largest word.
def bound : Nat := 1 <<< 64

def add (a b : Nat) : Except Fault Nat :=
  if a + b < bound then .ok (a + b) else .error .overflow

def sub (a b : Nat) : Except Fault Nat :=
  if b ≤ a then .ok (a - b) else .error .overflow

def mul (a b : Nat) : Except Fault Nat :=
  if a * b < bound then .ok (a * b) else .error .overflow

def mod (a b : Nat) : Except Fault Nat :=
  if b = 0 then .error .overflow else .ok (a % b)

-- Counters wrap around instead of failing.
def wrapAdd (a b : Nat) : Nat := (a + b) % bound

def wrapSub (a b : Nat) : Nat := (a + bound - b % bound) % bound

def isPowerOfTwo (n : Nat) : Bool := n != 0 && n &&& (n - 1) == 0

-- The least multiple of `unit` that is not below `a`.
def nextMultiple (a unit : Nat) : Except Fault Nat :=
  if a % unit = 0 then .ok a else add a (unit - a % unit)

def alignUp (a align : Nat) : Except Fault Nat :=
  if isPowerOfTwo align then do
    let top ← add a align
    .ok ((top - 1) / align * align)
  else .error .assertion

def alignDown (a align : Nat) : Except Fault Nat :=
  if isPowerOfTwo align then .ok (a / align * align) else .error .assertion

-- The test masks the low bits, so it is about multiples only when `align` is a power of two.
def isAlignedTo (a align : Nat) : Except Fault Bool := do
  let mask ← sub align 1
  .ok (a &&& mask == 0)

def ceilDiv (a b : Nat) : Nat := (a + b - 1) / b

def hex (a : Nat) : String := "0x" ++ String.ofList (Nat.toDigits 16 a)

end Reclaim.Word

namespace Reclaim.Sizes

def wordBytes : Nat := 8
def pageBytes : Nat := 4096
def blockPages : Nat := 8
def blockBytes : Nat := 32768

def bytesToPages (bytes : Nat) : Nat := Word.ceilDiv bytes pageBytes

-- A shift: page counts that do not fit lose their high bits.
def pagesToBytes (pages : Nat) : Nat := pages * pageBytes % Word.bound

def blockOf (a : Nat) : Nat := a / blockBytes * blockBytes

-- Whether a table of so many words can be had. Its bytes must lie in half of the address range.
def checkTable (words : Nat) : Except Fault Unit :=
  if words * wordBytes < Word.bound / 2 then .ok () else .error .capacityOverflow

end Reclaim.Sizes
