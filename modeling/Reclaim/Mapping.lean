import Reclaim.Memory

/-!
Reserved ranges of address space. The system picks the base of a mapping; a mapping that asks for
more than page alignment reserves that much more and starts at the first aligned address inside.
Its pages are committed and decommitted in whole runs, and read as zero after a decommit.
-/
namespace Reclaim

open Sizes

namespace Mapping

structure Options where
  length : Nat := 0
  align : Nat := 0
  reserveOnly : Bool := false
  noReserve : Bool := false
deriving DecidableEq, Repr

-- The text that describes the options.
def Options.describe (o : Options) : String :=
  s!"MmapOptions \x7b len: {o.length}, align: {o.align}, reserve_only: {o.reserveOnly}, " ++
    s!"no_reserve: {o.noReserve} \x7d"

end Mapping

structure Mapping where
  -- What the system returned.
  base : Nat
  total : Nat
  -- The usable part.
  offset : Nat
  length : Nat
deriving DecidableEq, Repr

namespace Mapping

def start (m : Mapping) : Nat := m.base + m.offset

-- Systems place mappings of fewer bytes than this.
def systemLimit : Nat := 1 <<< 47

-- Unmapped bytes that a system leaves between two mappings.
def gap : Nat := 1 <<< 40

-- Where a system places the mapping after this one.
def behind (m : Mapping) : Nat := m.base + m.total + gap

-- A system that places the next mapping at `base`, if it has room for it.
def placeAt (base : Nat) (total : Nat) : Option Nat :=
  if total < systemLimit then some base else none

def padding (align : Nat) : Nat := if pageBytes < align then align else 0

-- Maps a range where the system, asked for so many bytes, places it.
def Options.map (o : Options) (system : Nat → Option Nat) : Except MapFault Mapping :=
  let align := max o.align 1
  if o.length = 0 then .error .emptyLength
  else if !Word.isPowerOfTwo align then .error .alignmentNotPowerOfTwo
  else if Word.bound ≤ o.length + padding align then .error .lengthOverflow
  else
    match system (o.length + padding align) with
    | none => .error .refused
    | some base =>
      .ok { base, total := o.length + padding align,
            offset := Word.ceilDiv base align * align - base, length := o.length }

-- Whole pages inside the mapping.
def inRange (m : Mapping) (offset length : Nat) : Bool :=
  decide (offset + length < Word.bound) && decide (offset + length ≤ m.length) &&
    offset % pageBytes == 0 && length % pageBytes == 0

def checkRange (m : Mapping) (offset length : Nat) : Except MapFault Unit :=
  if m.inRange offset length then .ok () else .error .badRange

-- Committed pages keep their contents.
def commit (m : Mapping) (offset length : Nat) : Except MapFault Unit := m.checkRange offset length

def decommit (m : Mapping) (memory : Memory) (offset length : Nat) : Except MapFault Memory := do
  m.checkRange offset length
  .ok (memory.discard ((m.start + offset) / pageBytes) (length / pageBytes))

end Mapping

end Reclaim
