import Reclaim.Word

/-!
The cell sizes that small objects are rounded up to.
-/
namespace Reclaim.SizeClass

def sizes : List Nat :=
  [16, 24, 32, 48, 64, 96, 128, 192, 256, 384, 512, 768, 1024, 1536, 2048, 3072, 4096, 6144, 8192]

def count : Nat := 19

-- The largest request that a cell serves.
def largest : Nat := 8192

def bytes (size : Nat) : Nat := sizes.getD size 0

-- The smallest class whose cells hold so many bytes.
def forBytes? (bytes : Nat) : Option Nat := sizes.findIdx? (bytes ≤ ·)

end Reclaim.SizeClass
