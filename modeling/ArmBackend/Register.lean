/-!
Contract: the sixteen core registers of the target and sets of them.

Owns: register numbers, assembler names, tables with a value for each register, and `RegSet`, the
set type that register lists, frames and copies are built from. Does not own: which value occupies
which register (`RegisterFile`).
-/

namespace ArmBackend

/-- A core register, by number: `r0` to `r12`, then `sp`, `lr` and `pc`. -/
abbrev Reg := Fin 16

namespace Reg

def r0 : Reg := 0

def r4 : Reg := 4

def sp : Reg := 13

def lr : Reg := 14

def pc : Reg := 15

def name (r : Reg) : String :=
  if r = sp then "sp"
  else if r = lr then "lr"
  else if r = pc then "pc"
  else "r" ++ toString r.val

def ofIndex? (i : Nat) : Option Reg := if h : i < 16 then some ⟨i, h⟩ else none

def all : List Reg := List.finRange 16

end Reg

abbrev RegTable (α : Type) := Vector α 16

namespace RegTable

def fill {α : Type} (x : α) : RegTable α := Vector.replicate 16 x

def lookup {α : Type} (t : RegTable α) (r : Reg) : α := t[r.val]

def update {α : Type} (t : RegTable α) (r : Reg) (x : α) : RegTable α :=
  Vector.set t r.val x r.isLt

theorem lookup_fill {α : Type} (x : α) (r : Reg) : (fill x).lookup r = x := by
  simp [lookup, fill]

theorem lookup_update {α : Type} (t : RegTable α) (r q : Reg) (x : α) :
    (t.update r x).lookup q = if r = q then x else t.lookup q := by
  simp [lookup, update, Vector.getElem_set, Fin.ext_iff]

end RegTable

/-- A set of registers: bit `i` of `mask` says whether register `i` is a member. -/
structure RegSet where
  mask : BitVec 16
deriving DecidableEq, Repr

namespace RegSet

def empty : RegSet := ⟨0⟩

instance : EmptyCollection RegSet := ⟨empty⟩
instance : Inhabited RegSet := ⟨empty⟩

def contains (s : RegSet) (r : Reg) : Bool := s.mask.getLsbD r.val

instance : Membership Reg RegSet := ⟨fun s r => s.contains r = true⟩

instance (r : Reg) (s : RegSet) : Decidable (r ∈ s) :=
  inferInstanceAs (Decidable (s.contains r = true))

def insert (s : RegSet) (r : Reg) : RegSet := ⟨s.mask ||| BitVec.twoPow 16 r.val⟩

def erase (s : RegSet) (r : Reg) : RegSet := ⟨s.mask &&& ~~~BitVec.twoPow 16 r.val⟩

def union (s t : RegSet) : RegSet := ⟨s.mask ||| t.mask⟩

def diff (s t : RegSet) : RegSet := ⟨s.mask &&& ~~~t.mask⟩

def isEmpty (s : RegSet) : Bool := s.mask == 0

def ofList (regs : List Reg) : RegSet := regs.foldl insert empty

def toList (s : RegSet) : List Reg := Reg.all.filter s.contains

def size (s : RegSet) : Nat := s.toList.length

def firstN (count : Nat) : RegSet := ofList (Reg.all.filter (·.val < count))

/-- Lowest member that is not below `floor`. -/
def firstFrom? (s : RegSet) (floor : Reg) : Option Reg :=
  s.toList.find? (floor ≤ ·)

/-! ## Membership after each operation -/

@[simp] theorem contains_empty (r : Reg) : empty.contains r = false := by
  simp [contains, empty]

@[simp] theorem contains_insert (s : RegSet) (r q : Reg) :
    (s.insert r).contains q = (s.contains q || decide (r = q)) := by
  have bound : q.val < 16 := q.isLt
  simp [contains, insert, bound, Fin.ext_iff, eq_comm]

@[simp] theorem contains_erase (s : RegSet) (r q : Reg) :
    (s.erase r).contains q = (s.contains q && !decide (r = q)) := by
  have bound : q.val < 16 := q.isLt
  simp [contains, erase, bound, Fin.ext_iff, eq_comm]

@[simp] theorem contains_union (s t : RegSet) (r : Reg) :
    (s.union t).contains r = (s.contains r || t.contains r) := by
  simp [contains, union]

@[simp] theorem contains_diff (s t : RegSet) (r : Reg) :
    (s.diff t).contains r = (s.contains r && !t.contains r) := by
  have bound : r.val < 16 := r.isLt
  simp [contains, diff, bound]

end RegSet

end ArmBackend
