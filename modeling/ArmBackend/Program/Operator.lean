/-!
Contract: the operators of three-address code and their meaning on 32-bit words.

Arithmetic wraps, comparisons are signed, and a quotient is rounded toward zero. Division by zero
has no value; the word `-2^31` divided by `-1` is itself.
-/

namespace ArmBackend

inductive BinaryOp where
  | add
  | sub
  | mul
  | div
  /-- Reverse subtraction: `b - a`. -/
  | rsb
deriving DecidableEq, Repr

namespace BinaryOp

def symbol : BinaryOp → String
  | .add => "+"
  | .sub => "-"
  | .mul => "*"
  | .div => "/"
  | .rsb => "RSB"

/-- Value of the operation on two words, if it has one. -/
def eval? (op : BinaryOp) (a b : Int32) : Option Int32 :=
  match op with
  | .add => some (a + b)
  | .sub => some (a - b)
  | .mul => some (a * b)
  | .div => if b = 0 then none else some (a / b)
  | .rsb => some (b - a)

def all : List BinaryOp := [.add, .sub, .mul, .div, .rsb]

end BinaryOp

inductive Comparison where
  | lt
  | gt
  | le
  | ge
  | eq
  | ne
deriving DecidableEq, Repr

namespace Comparison

def symbol : Comparison → String
  | .lt => "<"
  | .gt => ">"
  | .le => "<="
  | .ge => ">="
  | .eq => "=="
  | .ne => "!="

def flip : Comparison → Comparison
  | .lt => .gt
  | .gt => .lt
  | .le => .ge
  | .ge => .le
  | .eq => .eq
  | .ne => .ne

def eval (op : Comparison) (a b : Int32) : Bool :=
  match op with
  | .lt => decide (a < b)
  | .gt => decide (b < a)
  | .le => decide (a ≤ b)
  | .ge => decide (b ≤ a)
  | .eq => a == b
  | .ne => a != b

def all : List Comparison := [.lt, .gt, .le, .ge, .eq, .ne]

end Comparison

end ArmBackend
