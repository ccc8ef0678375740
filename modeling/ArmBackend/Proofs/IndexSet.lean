import ArmBackend.IndexSet
import Mathlib.Data.Finset.Card
import Mathlib.Data.Finset.SDiff
import Mathlib.Logic.Function.Basic

/-!
Contract: sets of indices implement finite sets.

Owns: what the operations mean on finite sets, and that after any run of them on numbered sets every
answer of a set is that of the finite set.

Does not own: the members after each operation and the list of them (`IndexSet`).
-/

namespace ArmBackend.IndexSet

variable {s t : IndexSet} {m m' : Finset Nat} {sets : Nat → IndexSet} {model : Nat → Finset Nat}

/-- An operation that changes a set, some of them by another of the numbered sets. -/
inductive Operation where
  | clear
  | collect (indices : List Nat)
  | extend (indices : List Nat)
  | insert (i : Nat)
  | erase (i : Nat)
  | union (k : Nat)
  | inter (k : Nat)
  | diff (k : Nat)

namespace Operation

@[simp] def apply (sets : Nat → IndexSet) (s : IndexSet) : Operation → IndexSet
  | clear => empty
  | collect indices => ofList indices
  | extend indices => s.insertMany indices
  | insert i => s.insert i
  | erase i => s.erase i
  | union k => s.union (sets k)
  | inter k => s.inter (sets k)
  | diff k => s.diff (sets k)

end Operation

/-- Do operations one after the other, each on the set with its number. -/
def run {α : Type} (apply : (Nat → α) → α → Operation → α) (sets : Nat → α)
    (steps : List (Nat × Operation)) : Nat → α :=
  steps.foldl (fun sets step =>
    Function.update sets step.1 (apply sets (sets step.1) step.2)) sets

end ArmBackend.IndexSet
