import ArmBackend.CommandLine

/-!
Contract: the program: reads the input file, answers the request, writes the results.
-/

open ArmBackend

def usage : String :=
  "Usage: armbackend INPUT [-o FILE] [--registers N] [--verify] [--stats] [--dump-after PASS]"

def main (args : List String) : IO UInt32 := do
  match Request.ofArgs args with
  | some request@⟨some input, _, _, _⟩ =>
    let answer := request.answer (← IO.FS.readFile input)
    match request.output, answer.file with
    | some path, some text => IO.FS.writeFile path text
    | _, _ => IO.print answer.stdout
    IO.eprint answer.stderr
    return answer.exitCode
  | _ =>
    IO.eprintln usage
    return 2
