/-!
Contract: integers read from written digits, with the reason when a text is not one.

Owns: digit values, decimal 32-bit words and hexadecimal character codes. Does not own: which
characters of a source belong to a number.
-/

namespace ArmBackend.Text

inductive IntegerFault where
  | empty
  | invalidDigit
  | tooLarge
  | tooSmall
deriving DecidableEq, Repr

def IntegerFault.message : IntegerFault → String
  | .empty => "cannot parse integer from empty string"
  | .invalidDigit => "invalid digit found in string"
  | .tooLarge => "number too large to fit in target type"
  | .tooSmall => "number too small to fit in target type"

/-- Value of a digit of bases up to sixteen, in either case. -/
def digitValue? (c : Char) : Option Nat :=
  if '0' ≤ c ∧ c ≤ '9' then some (c.toNat - '0'.toNat)
  else if 'a' ≤ c ∧ c ≤ 'f' then some (c.toNat - 'a'.toNat + 10)
  else if 'A' ≤ c ∧ c ≤ 'F' then some (c.toNat - 'A'.toNat + 10)
  else none

/-- Value of a run of digits, appended to the value `high` of the digits before it. -/
def digitsFrom? (base : Nat) (high : Nat) : List Char → Option Nat
  | [] => some high
  | c :: rest =>
    match digitValue? c with
    | some d => if d < base then digitsFrom? base (high * base + d) rest else none
    | none => none

def readDigits (base : Nat) (text : List Char) : Except IntegerFault Nat :=
  if text.isEmpty then .error .invalidDigit
  else match digitsFrom? base 0 text with
    | some n => .ok n
    | none => .error .invalidDigit

/-- A decimal number with an optional sign, as a 32-bit word. -/
def readWord (text : List Char) : Except IntegerFault Int32 :=
  match text with
  | [] => .error .empty
  | '-' :: digits => do
    let n ← readDigits 10 digits
    if n ≤ 2147483648 then .ok (Int32.ofInt (-(n : Int))) else .error .tooSmall
  | '+' :: digits => do
    let n ← readDigits 10 digits
    if n < 2147483648 then .ok (Int32.ofNat n) else .error .tooLarge
  | digits => do
    let n ← readDigits 10 digits
    if n < 2147483648 then .ok (Int32.ofNat n) else .error .tooLarge

def readUnsigned (base : Nat) (text : List Char) : Except IntegerFault Nat :=
  match text with
  | [] => .error .empty
  | '+' :: digits => readDigits base digits
  | digits => readDigits base digits

def readHex (text : List Char) : Except IntegerFault Nat := readUnsigned 16 text

def showWord (word : Int32) : String := toString word.toInt

/-- Lower-case hexadecimal digits of a number, at least `width` of them. -/
def hexDigits (width n : Nat) : List Char :=
  let digits := Nat.toDigits 16 n
  List.replicate (width - digits.length) '0' ++ digits

end ArmBackend.Text
