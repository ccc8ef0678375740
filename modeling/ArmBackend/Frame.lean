import ArmBackend.Immediate
import ArmBackend.Program.Lookup

/-!
Contract: the stack frame of a coloured procedure.

The first four arguments are passed in `r0` to `r3`, the others on the stack; a result comes back in
`r0`; a call leaves the registers from `r4` on alone. From the stack pointer upwards a frame holds
the outgoing stack arguments, a slot for each web that needs one, and the saved registers; above it
lie the incoming stack arguments. Its size is rounded up to an even number of words.
-/

namespace ArmBackend

namespace Convention

/-- Registers that carry arguments, which calls may overwrite. -/
def argRegisters : List Reg := Reg.all.take 4

def result : Reg := .r0

/-- Register that holds frame sizes which are no immediates. -/
def scratch : Reg := .r4

def callerSaved : RegSet := .ofList argRegisters

/-- Label of the entry point of a procedure. The start of the program keeps its name. -/
def procedureLabel (name : String) : String :=
  if name = "main" then name
  else "." ++ String.join (name.toList.map fun c => if c = '%' then "__" else c.toString)

end Convention

structure Frame where
  saved : RegSet
  outgoing : Nat
  words : Nat
  /-- Bytes to move the stack pointer by after the registers are saved. -/
  adjust : Int32
  slots : List (WebId × Int32)
deriving DecidableEq, Repr

namespace Frame

def bytes (words : Nat) : Int32 := Int32.ofNat (words * 4)

/-- Registers that a procedure has to save: those its variables are in that a call would preserve,
and the link register if it calls. -/
def savedRegisters (p : Procedure) : RegSet :=
  let colored := (RegSet.ofList (p.locals.filterMap p.reg?)).diff Convention.callerSaved
  if p.insts.any Inst.isCall then colored.insert .lr else colored

def slotAccesses (p : Procedure) : List VarId :=
  p.insts.filterMap fun
    | .spill v | .reload v => some v
    | _ => none

/-- Webs that spill code accesses, in order of the first access. -/
def accessedWebs (p : Procedure) : Except Error (List WebId) := do
  let webs ← (slotAccesses p).mapM p.requireWeb
  return webs.eraseDups

/-- Words up to the one that an instruction stores a stack argument to. -/
def wordsUpTo : Inst → Nat
  | .stackArg _ index => index + 1
  | _ => 0

/-- Words for outgoing stack arguments: enough for the highest one stored. -/
def outgoingWords (p : Procedure) : Nat := p.insts.foldl (fun words i => max words (wordsUpTo i)) 0

/-- Words of a frame with so many words in use. -/
def roundUp (words : Nat) : Nat := words + words % 2

/-- Bytes to move the stack pointer by: all of the frame but the saved registers. -/
def adjustment (used : Nat) (saved : RegSet) : Int32 :=
  bytes (roundUp (used + saved.size) - saved.size)

def setSlot (web : WebId) (offset : Int32) : List (WebId × Int32) → List (WebId × Int32)
  | [] => [(web, offset)]
  | slot :: rest =>
    if slot.1 = web then (web, offset) :: rest else slot :: setSlot web offset rest

/-- Slots of the webs that spill code accesses. -/
def localSlots (outgoing : Nat) (webs : List WebId) : List (WebId × Int32) :=
  webs.zipIdx.map fun web => (web.1, bytes (outgoing + web.2))

/-- Give an incoming argument the slot above the frame that its caller stored it to. -/
def place (p : Procedure) (words : Nat) (slots : List (WebId × Int32)) (arg : VarId × Nat) :
    Except Error (List (WebId × Int32)) := do
  let web ← p.requireWeb arg.1
  return setSlot web (bytes (words + arg.2)) slots

/-- Lay out the frame of a procedure. A frame size that is no immediate takes a scratch register. -/
def ofProcedure (p : Procedure) : Except Error Frame := do
  let webs ← accessedWebs p
  let outgoing := outgoingWords p
  let used := outgoing + webs.length
  let saved := savedRegisters p
  let saved := if Immediate.isEncodable (adjustment used saved) then saved
    else saved.insert Convention.scratch
  let words := roundUp (used + saved.size)
  let incoming := p.args.drop Convention.argRegisters.length
  let slots ← incoming.zipIdx.foldlM (place p words) (localSlots outgoing webs)
  return ⟨saved, outgoing, words, adjustment used saved, slots⟩

def slot? (f : Frame) (web : WebId) : Option Int32 := f.slots.lookup web

def savesLink (f : Frame) : Bool := f.saved.contains .lr

end Frame

end ArmBackend
