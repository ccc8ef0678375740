/-!
Contract: the lowest set bit of a word.
-/

namespace ArmBackend

variable {width : Nat} {w : BitVec width} {i : Nat}

/-- The first set bit from a place on, among some bits, or the place behind them. -/
def firstSet (w : BitVec width) : (start bits : Nat) → Nat
  | start, 0 => start
  | start, bits + 1 => if w.getLsbD start then start else firstSet w (start + 1) bits

/-- How many zeros stand below the lowest set bit. -/
def trailingZeros (w : BitVec width) : Nat := firstSet w 0 width

theorem firstSet_le {start bits : Nat} (isSet : w.getLsbD i = true) (above : start ≤ i) :
    firstSet w start bits ≤ i := by
  induction bits generalizing start with
  | zero => exact above
  | succ bits ih =>
    rw [firstSet]
    split
    · exact above
    · rename_i clear
      exact ih (Nat.lt_of_le_of_ne above fun same => clear (same ▸ isSet))

theorem getLsbD_firstSet {start bits : Nat} (isSet : w.getLsbD i = true) (above : start ≤ i)
    (below : i < start + bits) : w.getLsbD (firstSet w start bits) = true := by
  induction bits generalizing start with
  | zero => omega
  | succ bits ih =>
    rw [firstSet]
    split
    · assumption
    · rename_i clear
      exact ih (Nat.lt_of_le_of_ne above fun same => clear (same ▸ isSet)) (by omega)

theorem trailingZeros_le (isSet : w.getLsbD i = true) :
    trailingZeros w ≤ i := firstSet_le isSet (Nat.zero_le i)

theorem getLsbD_trailingZeros (nonzero : w ≠ 0) :
    trailingZeros w < width ∧ w.getLsbD (trailingZeros w) = true := by
  obtain ⟨i, isSet⟩ : ∃ i, w.getLsbD i = true := Classical.byContradiction fun none =>
    nonzero (BitVec.eq_of_getLsbD_eq fun i _ => by simpa using fun isSet => none ⟨i, isSet⟩)
  have first := getLsbD_firstSet isSet (Nat.zero_le i)
    (Nat.zero_add width ▸ BitVec.lt_of_getLsbD isSet)
  exact ⟨BitVec.lt_of_getLsbD first, first⟩

end ArmBackend
