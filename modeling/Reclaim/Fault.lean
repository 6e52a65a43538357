/-!
The ways an operation of the collector can end without a result, each by its cause, and their
wording. Addresses inside a wording are written by a function that the caller supplies, since only
the caller knows which names it has given to memory.
-/
namespace Reclaim

-- Why a mapping was not made, or a range of it not committed.
inductive MapFault where
  | emptyLength
  | alignmentNotPowerOfTwo
  -- The length together with the padding for its alignment exceeds a word.
  | lengthOverflow
  -- The system has no room for the mapping.
  | refused
  | badRange
  | described (text : String)
deriving DecidableEq, Repr

def MapFault.message : MapFault → String
  | .emptyLength => "length must be greater than 0"
  | .alignmentNotPowerOfTwo => "alignment must be a power of two"
  | .lengthOverflow => "out of memory"
  | .refused => "Cannot allocate memory (os error 12)"
  | .badRange => "range must be page aligned and inside the mapping"
  | .described text => text

-- Damage or exhaustion that the collector does not survive.
inductive Fatal where
  | spaceExhausted (space : String) (pages used total : Nat)
  | commitFailed (pages : Nat) (cause : MapFault)
  | decommitFailed (pages : Nat) (cause : MapFault)
  | alignmentOverflowsBlock (align : Nat)
  | unsupportedAlignment (align : Nat)
  | oversizedCell (bytes : Nat)
  | doubleFree (object : Nat)
  | freeOutsideCounted (object : Nat)
  | countUnderflow (object : Nat)
  | greyUnderflow (object : Nat)
  | traceOutside (object : Nat)
  | noCopyAllocator
  | pinnedInNursery (object : Nat)
  | referenceIndex (index object : Nat)
  -- One of several collectors ended without a result.
  | collectorFailed
  | unknownType (id : Nat)
deriving DecidableEq, Repr

def Fatal.message (address : Nat → String) : Fatal → String
  | .spaceExhausted space pages used total =>
    s!"space `{space}` exhausted: {pages} pages requested, {used} of {total} in use"
  | .commitFailed pages cause => s!"failed to commit {pages} pages: " ++ cause.message
  | .decommitFailed pages cause => s!"failed to decommit {pages} pages: " ++ cause.message
  | .alignmentOverflowsBlock align => s!"alignment {align} overflows the block"
  | .unsupportedAlignment align => s!"unsupported alignment {align}"
  | .oversizedCell bytes => s!"request of {bytes} bytes exceeds the largest cell"
  | .doubleFree object => "double free of " ++ address object
  | .freeOutsideCounted object =>
    "free of " ++ address object ++ " outside the reference-counted spaces"
  | .countUnderflow object => "reference count underflow on " ++ address object
  | .greyUnderflow object =>
    "reference count underflow on " ++ address object ++ " during mark grey"
  | .traceOutside object => "trace of " ++ address object ++ " outside every space"
  | .noCopyAllocator => "nursery object traced without a copy allocator"
  | .pinnedInNursery object => "pinned root " ++ address object ++ " lies in a moving space"
  | .referenceIndex index object =>
    s!"reference index {index} out of range for " ++ address object
  | .collectorFailed => "collector thread panicked during the closure"
  | .unknownType id => s!"unknown type id {id}"

inductive Fault where
  -- A sum, difference or product left the range of a word, or a remainder by zero was asked for.
  | overflow
  -- A condition that callers promise did not hold.
  | assertion
  | indexOutOfBounds
  | fieldOutOfRange
  -- A table was asked for that no range of addresses holds.
  | capacityOverflow
  | invalidConfig (field reason : String)
  | unsupportedPlan (name : String)
  | reservation (space : String) (source : MapFault)
  | mapping (source : MapFault)
  | fatal (cause : Fatal)
  -- A wait that only another collector could end.
  | stalled
  -- A loop used up its step bound; no run over a finite heap reaches this.
  | outOfFuel
deriving DecidableEq, Repr

-- The wording of a fault; failed checks have none.
def Fault.message? (address : Nat → String) : Fault → Option String
  | .fieldOutOfRange => some "reference field out of range"
  | .capacityOverflow => some "capacity overflow"
  | .invalidConfig field reason => some s!"invalid configuration for `{field}`: {reason}"
  | .unsupportedPlan name => some s!"unsupported collection plan `{name}`"
  | .reservation space source => some (s!"failed to reserve space `{space}`: " ++ source.message)
  | .mapping source => some source.message
  | .fatal cause => some (cause.message address)
  | _ => none

-- Every mapping fault is one of input or one of room.
def MapFault.kind : MapFault → String
  | .emptyLength | .alignmentNotPowerOfTwo | .badRange => "InvalidInput"
  | _ => "OutOfMemory"

-- The kind of a fault in one word.
def Fault.kind : Fault → String
  | .overflow => "overflow"
  | .assertion => "assertion"
  | .indexOutOfBounds => "index_out_of_bounds"
  | .fieldOutOfRange | .capacityOverflow => "panic"
  | .invalidConfig _ _ => "InvalidConfig"
  | .unsupportedPlan _ => "UnsupportedPlan"
  | .reservation _ _ => "Reservation"
  | .mapping source => source.kind
  | .fatal _ => "fatal"
  | .stalled => "stalled"
  | .outOfFuel => "out_of_fuel"

-- Positions in a table of so many entries count from zero.
def checkIndex (index size : Nat) : Except Fault Unit :=
  if index < size then .ok () else .error .indexOutOfBounds

-- Whether the collector was at fault, and not the bounds of a run.
def Fault.isFailure : Fault → Bool
  | .stalled | .outOfFuel => false
  | _ => true

-- Only a failed reservation has a cause beneath it.
def Fault.source? : Fault → Option MapFault
  | .reservation _ source => some source
  | _ => none

end Reclaim
