import Reclaim.Word

/-!
The status word at the start of every object. From the low end it holds two bits of forwarding
state, the mark bit, three bits of colour, the buffered bit, one spare bit and the reference count.
A forwarded object's word holds the new address with both forwarding bits set instead.

Fields are read and replaced by quotients and remainders, so the independence of the fields is
linear arithmetic.
-/
namespace Reclaim

-- The colours of trial deletion.
inductive Color where
  -- In use, or proved live.
  | black
  -- Tentatively dead.
  | grey
  -- Proved dead, waiting to be collected.
  | white
  -- A candidate root of a garbage cycle.
  | purple
  -- Acyclic: never part of a cycle.
  | green
deriving DecidableEq, Repr

def Color.name : Color → String
  | .black => "black"
  | .grey => "grey"
  | .white => "white"
  | .purple => "purple"
  | .green => "green"

def Color.ofName? (name : String) : Option Color :=
  [black, grey, white, purple, green].find? (·.name == name)

def Color.code : Color → Nat
  | .black => 0
  | .grey => 1
  | .white => 2
  | .purple => 3
  | .green => 4

-- The three spare codes read as green.
def Color.ofCode : Nat → Color
  | 0 => .black
  | 1 => .grey
  | 2 => .white
  | 3 => .purple
  | _ => .green

@[simp] theorem Color.ofCode_code (c : Color) : ofCode c.code = c := by cases c <;> rfl

theorem Color.code_lt (c : Color) : c.code < 8 := by cases c <;> decide

-- Whether an object of a copying space has moved.
inductive Forwarding where
  | unforwarded
  -- Claimed by a collector that has not yet published the copy.
  | claimed
  | forwarded (target : Nat)
deriving DecidableEq, Repr

namespace Status

-- One reference in the count field.
def countUnit : Nat := 256

-- The status word of a new object.
def initial (mark : Bool) (color : Color) (count : Nat) : Nat :=
  (if mark then 4 else 0) + 8 * color.code + countUnit * count % Word.bound

def color (s : Nat) : Color := .ofCode (s / 8 % 8)

def setColor (s : Nat) (c : Color) : Nat := s / 64 * 64 + 8 * c.code + s % 8

def isGreen (s : Nat) : Bool := color s == .green

def isBuffered (s : Nat) : Bool := s / 64 % 2 == 1

def setBuffered (s : Nat) : Nat := if isBuffered s then s else s + 64

def clearBuffered (s : Nat) : Nat := if isBuffered s then s - 64 else s

def count (s : Nat) : Nat := s / countUnit

def isLive (s : Nat) : Bool := 0 < count s

-- The top count wraps around to zero.
def increment (s : Nat) : Nat := Word.wrapAdd s countUnit

-- A count of zero cannot be decremented.
def decrement? (s : Nat) : Option Nat := if count s = 0 then none else some (s - countUnit)

def mark (s : Nat) : Bool := s / 4 % 2 == 1

-- Which value of the mark bit means marked alternates between collections.
def isMarked (s : Nat) (state : Bool) : Bool := mark s == state

def flipMark (s : Nat) : Nat := if mark s then s - 4 else s + 4

-- The marked word, unless the word is marked already.
def testAndMark? (s : Nat) (state : Bool) : Option Nat :=
  if isMarked s state then none else some (flipMark s)

def forwarding (s : Nat) : Forwarding :=
  if s % 4 = 0 then .unforwarded
  else if s % 4 = 3 then (if s / 4 = 0 then .claimed else .forwarded (s / 4 * 4))
  else .claimed

-- The claimed word, unless a collector has claimed the object before.
def claim? (s : Nat) : Option Nat := if s % 4 = 0 then some (s + 1) else none

-- The status word that the copy of an object takes over from it.
def forCopy (claimed : Nat) : Nat := claimed / 4 * 4

def isClaimed (s : Nat) : Bool := s % 4 == 1

-- The word that points at the copy.
def forwardedTo (target : Nat) : Nat := target / 4 * 4 + 3

end Status

end Reclaim
