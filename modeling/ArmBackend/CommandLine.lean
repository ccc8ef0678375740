import ArmBackend.Compilation
import ArmBackend.Source.Text

/-!
Contract: the command line: what it asks for, and what it answers for a given source text.
-/

namespace ArmBackend

structure Request where
  input : Option String
  output : Option String
  config : Config
  stats : Bool
deriving DecidableEq, Repr

namespace Request

def standard : Request := ⟨none, none, .standard, false⟩

def setOutput (r : Request) (file : String) : Option Request := some { r with output := some file }

def setRegisters (r : Request) (count : String) : Option Request := do
  let count ← (Text.readUnsigned 10 count.toList).toOption
  if 18446744073709551615 < count then none
  return { r with config := { r.config with registers := count } }

def setDump (r : Request) (name : String) : Option Request := do
  let pass ← Pass.ofName? name
  return { r with config := { r.config with dumpAfter := some pass } }

def valueOption? : String → Option (Request → String → Option Request)
  | "-o" | "--output" => some setOutput
  | "--registers" => some setRegisters
  | "--dump-after" => some setDump
  | _ => none

/-- Read one word that takes no other: a switch, an option with its value behind an equals sign, or
the name of the input. -/
def readWord (r : Request) (word : String) : Option Request :=
  match word with
  | "--verify" => some { r with config := { r.config with verify := true } }
  | "--stats" => some { r with stats := true }
  | _ =>
    let (name, value) := (word.toList.takeWhile (· ≠ '='), word.toList.dropWhile (· ≠ '='))
    match word.startsWith "--", valueOption? (String.ofList name), value with
    | true, some set, _ :: value => set r (String.ofList value)
    | false, _, _ =>
      if word.startsWith "-" || r.input.isSome then none else some { r with input := some word }
    | _, _, _ => none

/-- Read a command line; there is no answer if it is not one. -/
def read (r : Request) : List String → Option Request
  | [] => some r
  | [word] => r.readWord word
  | word :: value :: rest =>
    match valueOption? word with
    | some set => do (← set r value).read rest
    | none => do (← r.readWord word).read (value :: rest)

def ofArgs (args : List String) : Option Request := standard.read args

end Request

structure Answer where
  exitCode : UInt32
  stdout : String
  stderr : String
  /-- Content of the output file, if one is written. -/
  file : Option String
deriving DecidableEq, Repr

namespace Answer

/-- A failure shows what was dumped before it, and prints nothing else. -/
def failure (dumps : String) (e : Error) : Answer :=
  ⟨1, "", dumps ++ "Error: " ++ e.record ++ "\n", none⟩

end Answer

def Request.answer (r : Request) (source : String) : Answer :=
  match Program.ofText source with
  | .error e => .failure "" e
  | .ok program =>
    let dumps := String.join (program.dumps r.config)
    match program.compile r.config with
    | .error failure => .failure dumps failure.error
    | .ok (asm, stats) =>
      let text := asm.listing
      let report := if r.stats then stats.report else ""
      match r.output with
      | some _ => ⟨0, "", dumps ++ report, some text⟩
      | none => ⟨0, text, dumps ++ report, none⟩

end ArmBackend
