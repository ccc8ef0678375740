import ArmBackend.Error
import ArmBackend.Program.Procedure

/-!
Contract: what a variable must have been given by an earlier pass, or the failure to report.
-/

namespace ArmBackend.Procedure

/-- Web of a variable that needs a stack slot. -/
def requireWeb (p : Procedure) (v : VarId) : Except Error WebId :=
  match p.web? v with
  | some w => .ok w
  | none => .error (.missingWeb (p.varName v))

/-- Register of a variable that must be in one. -/
def requireReg (p : Procedure) (v : VarId) : Except Error Reg :=
  match p.reg? v with
  | some r => .ok r
  | none => .error (.unassignedRegister (p.varName v))

end ArmBackend.Procedure
