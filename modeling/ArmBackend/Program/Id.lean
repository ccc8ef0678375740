/-!
Contract: the numbers by which a procedure's parts name each other.

Variables, blocks, labels and webs are numbered per procedure in order of creation. Block 0 is
always the entry, and label 0 is always the label of the entry block a procedure starts with.
Numbers are words of 32 bits.
-/

namespace ArmBackend

abbrev VarId := Nat

abbrev BlockId := Nat

abbrev LabelId := Nat

/-- Number of a web: a class of variables that share one stack slot. -/
abbrev WebId := Nat

/-- The part that `n` names: parts are told apart by the low 32 bits of their numbers. -/
def partNumber (n : Nat) : Nat := n % 4294967296

def WebId.name (w : WebId) : String := "web" ++ toString w

end ArmBackend
