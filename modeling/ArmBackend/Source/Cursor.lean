import ArmBackend.Error

/-!
Contract: a place in a program text, and the readers of its tokens.

Every reader first moves past blanks and comments, also one that then finds nothing to read, so a
fault is always reported where the missing token should have stood. A comment runs from two slashes
to the end of its line.
-/

namespace ArmBackend.Source

open ArmBackend.Text

/-- What is left of a text, with the place where it starts. -/
structure Cursor where
  rest : List Char
  line : Nat
  column : Nat
deriving DecidableEq, Repr

namespace Cursor

def ofText (text : List Char) : Cursor := ⟨text, 1, 1⟩

def advance (c : Cursor) : Cursor :=
  match c.rest with
  | [] => c
  | ch :: rest =>
    if ch = '\n' then ⟨rest, c.line + 1, 1⟩ else ⟨rest, c.line, c.column + ch.utf8Size⟩

/-- Move past blanks and comments, starting inside a comment or outside. -/
def skipFrom (inComment : Bool) (line column : Nat) : List Char → Cursor
  | [] => ⟨[], line, column⟩
  | ch :: rest =>
    if ch = '\n' then skipFrom false (line + 1) 1 rest
    else if inComment then skipFrom true line (column + ch.utf8Size) rest
    else if isBlank ch then skipFrom false line (column + ch.utf8Size) rest
    else if ch = '/' ∧ rest.head? = some '/' then skipFrom true line (column + ch.utf8Size) rest
    else ⟨ch :: rest, line, column⟩

def skip (c : Cursor) : Cursor := skipFrom false c.line c.column c.rest

/-- The characters up to the first that fails the test, none of which is a line end. -/
def span (test : Char → Bool) (c : Cursor) : List Char × Cursor :=
  let taken := c.rest.takeWhile test
  let column := taken.foldl (fun column ch => column + ch.utf8Size) c.column
  (taken, ⟨c.rest.dropWhile test, c.line, column⟩)

end Cursor

/-- A reader moves the cursor and gives a result, or fails with the place and the fault. -/
abbrev Reader := StateT Cursor (Except Error)

namespace Reader

def fault {α : Type} (f : SyntaxFault) : Reader α :=
  fun c => .error (.parse c.line c.column f)

def skip : Reader Unit := modify Cursor.skip

def peek? : Reader (Option Char) := return (← get).rest.head?

def tryChar (wanted : Char) : Reader Bool := do
  skip
  if (← peek?) = some wanted then
    modify Cursor.advance
    return true
  else return false

def expect (wanted : Char) : Reader Unit := do
  unless ← tryChar wanted do fault (.expectedChar wanted (← peek?))

def startsIdentifier (c : Char) : Bool := isAlphabetic c || c = '_' || c = '%'

def continuesIdentifier (c : Char) : Bool := isAlphabetic c || isNumeric c || c = '_'

def identifier : Reader String := do
  skip
  match ← peek? with
  | some ch =>
    if startsIdentifier ch then
      modify Cursor.advance
      let more ← modifyGet (Cursor.span continuesIdentifier)
      return String.ofList (ch :: more)
    else fault (.expectedIdentifier (some ch))
  | none => fault (.expectedIdentifier none)

def peekIdentifier? : Reader (Option String) := do
  match identifier (← get) with
  | .ok (name, _) => return some name
  | .error _ => return none

def atIdentifier (name : String) : Reader Bool := return (← peekIdentifier?) = some name

/-- The first character after the next identifier and blanks, with everything left in place. -/
def peekAfterIdentifier? : Reader (Option Char) := do
  match identifier (← get) with
  | .ok (_, c) => return c.skip.rest.head?
  | .error _ => return none

/-- A decimal literal with an optional minus sign. -/
def word : Reader Int32 := do
  skip
  let sign ← modifyGet fun c =>
    if c.rest.head? = some '-' then (['-'], c.advance) else ([], c)
  let digits ← modifyGet (Cursor.span Char.isDigit)
  match readWord (sign ++ digits) with
  | .ok value => return value
  | .error f => fault (.badNumber (String.ofList (sign ++ digits)) f)

/-- The character an escape letter stands for, except for codes. -/
def namedEscape? : Char → Option Char
  | 'n' => some '\n'
  | 't' => some '\t'
  | 'r' => some '\r'
  | 'b' => some '\x08'
  | '\\' => some '\\'
  | '"' => some '"'
  | '\'' => some '\''
  | _ => none

/-- The character with the given code; codes without one show as a question mark. -/
def charOfCode (code : Nat) : Char := if code.isValidChar then Char.ofNat code else '?'

/-- The rest of a string literal, after the opening quote. Each round reads at least one character,
so as many rounds as characters are enough. -/
def stringRest : Nat → Reader (List Char)
  | 0 => fault .unterminatedString
  | rounds + 1 => do
    match ← peek? with
    | none => fault .unterminatedString
    | some ch =>
      modify Cursor.advance
      if ch = '"' then return []
      else if ch = '\\' then
        match ← peek? with
        | none => fault .unterminatedEscape
        | some escape =>
          modify Cursor.advance
          if escape = 'x' then
            let digits := (← get).rest.take 2
            modify (Cursor.advance ∘ Cursor.advance)
            match readHex digits with
            | .ok code => return charOfCode code :: (← stringRest rounds)
            | .error f => fault (.badHexEscape (String.ofList digits) f)
          else
            match namedEscape? escape with
            | some c => return c :: (← stringRest rounds)
            | none => fault (.unknownEscape escape)
      else return ch :: (← stringRest rounds)

def stringLiteral : Reader String := do
  expect '"'
  return String.ofList (← stringRest ((← get).rest.length + 1))

end Reader

end ArmBackend.Source
