import ArmBackend.Bits

/-!
Contract: which words a data-processing instruction can hold as an immediate.

The target encodes an immediate as a byte and an even amount to rotate it right by. A byte that does
not wrap around the end of the word lies in the window that starts at the lowest set bit; the three
windows that wrap are tried one by one.
-/

namespace ArmBackend.Immediate

/-- Windows of eight bits that wrap around the end of the word. -/
def wrappedWindows : List (BitVec 32) := [0xc000003f#32, 0xf000000f#32, 0xfc000003#32]

/-- The window of eight bits from the last even position that has no set bit below it, cut at the
end of the word. -/
def lowestWindow (bits : BitVec 32) : BitVec 32 := 0xff#32 <<< (trailingZeros bits / 2 * 2)

def isEncodable (word : Int32) : Bool :=
  let bits := word.toBitVec
  bits == 0#32 || (lowestWindow bits :: wrappedWindows).any fun window => bits &&& ~~~window == 0#32

end ArmBackend.Immediate
