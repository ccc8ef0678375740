import ArmBackend.Emission.Selection
import Mathlib.Data.BitVec
import Mathlib.Logic.Function.Basic

/-!
Contract: constants are put into registers exactly.

An immediate field holds a byte and an even rotation. The set bits of a word that it can hold,
turned back, are among the lowest eight; the windows of the encoding test are the same condition
without a rotation. A constant takes the shortest of three forms: an immediate, a move of the low
half, a load of a literal.
-/

namespace ArmBackend

namespace Immediate

/-- An immediate as an instruction holds it: a byte, and half the amount it is rotated right by. -/
structure Field where
  byte : BitVec 8
  turns : Fin 16

namespace Field

def bits (f : Field) : BitVec 32 := (f.byte.setWidth 32).rotateRight (2 * f.turns)

/-- The word that the machine makes of an immediate. -/
def word (f : Field) : Int32 := .ofBitVec f.bits

end Field

/-- Turned back, the set bits of a word are among the lowest eight. -/
def Fits (bits : BitVec 32) (turns : Nat) :
    Prop := ∀ i < 32, bits.getLsbD i = true → (i + 2 * turns) % 32 < 8

theorem and_not_eq_zero_iff {bits window : BitVec 32} :
    bits &&& ~~~window = 0#32 ↔ ∀ i < 32, bits.getLsbD i = true → window.getLsbD i = true := by
  constructor
  · intro none i lt isSet
    have clear := congrArg (·.getLsbD i) none
    simpa [lt, isSet] using clear
  · intro all
    refine BitVec.eq_of_getLsbD_eq fun i lt => ?_
    cases isSet : bits.getLsbD i with
    | false => simp [isSet]
    | true => simp [isSet, all i lt isSet]

theorem getLsbD_byte (i : Nat) : (0xff#32).getLsbD i = decide (i < 8) := by
  have same : 0xff#32 = (BitVec.allOnes 8).setWidth 32 := by decide
  rw [same, BitVec.getLsbD_setWidth, BitVec.getLsbD_allOnes]
  grind

theorem getLsbD_rotateRight_of_lt {x : BitVec 32} {amount i : Nat} (lt : i < 32) :
    (x.rotateRight amount).getLsbD i = x.getLsbD ((i + amount) % 32) := by
  rw [BitVec.getLsbD_rotateRight]
  by_cases low : i < 32 - amount % 32
  · have place : (i + amount) % 32 = amount % 32 + i := by omega
    simp [low, place]
  · have place : (i + amount) % 32 = i - (32 - amount % 32) := by omega
    simp [low, place, lt]

theorem exists_field_iff {bits : BitVec 32} :
    (∃ f : Field, bits = f.bits) ↔ ∃ turns < 16, Fits bits turns := by
  constructor
  · rintro ⟨f, rfl⟩
    refine ⟨f.turns, f.turns.isLt, fun i lt isSet => ?_⟩
    rw [Field.bits, getLsbD_rotateRight_of_lt lt, BitVec.getLsbD_setWidth] at isSet
    exact BitVec.lt_of_getLsbD (Bool.and_eq_true_iff.mp isSet).2
  · rintro ⟨turns, few, fits⟩
    refine ⟨⟨(bits.rotateRight (32 - 2 * turns)).setWidth 8, turns, few⟩,
      BitVec.eq_of_getLsbD_eq fun i lt => ?_⟩
    have small : (i + 2 * turns) % 32 < 32 := Nat.mod_lt _ (by decide)
    have back : ((i + 2 * turns) % 32 + (32 - 2 * turns)) % 32 = i := by omega
    rw [Field.bits, getLsbD_rotateRight_of_lt lt, BitVec.getLsbD_setWidth, BitVec.getLsbD_setWidth,
      getLsbD_rotateRight_of_lt small, back]
    cases isSet : bits.getLsbD i with
    | false => simp
    | true => simp [fits i lt isSet, small]

/-- No bit below the lowest window is set, so a word lies in it if no bit above is set. -/
theorem lowestWindow_iff {bits : BitVec 32} : bits &&& ~~~lowestWindow bits = 0#32 ↔
    ∀ i < 32, bits.getLsbD i = true → i < trailingZeros bits / 2 * 2 + 8 := by
  rw [and_not_eq_zero_iff]
  refine forall₃_congr fun i lt isSet => ?_
  have above := trailingZeros_le isSet
  rw [lowestWindow, BitVec.getLsbD_shiftLeft, getLsbD_byte]
  simp only [lt, decide_true, Bool.true_and, Bool.and_eq_true,
    Bool.not_eq_true', decide_eq_false_iff_not, decide_eq_true_eq]
  omega

/-- A byte wraps around the end of the word if it is turned by two, four or six. -/
theorem wrappedWindows_iff {bits : BitVec 32} :
    (∃ window ∈ wrappedWindows, bits &&& ~~~window = 0#32) ↔
    ∃ turns ∈ [1, 2, 3], Fits bits turns := by
  have turned : wrappedWindows = [1, 2, 3].map
      fun turns => (0xff#32).rotateRight (2 * turns) := by decide
  have fits : ∀ turns, bits &&& ~~~(0xff#32).rotateRight (2 * turns) = 0#32 ↔ Fits bits turns := by
    intro turns
    rw [and_not_eq_zero_iff]
    refine forall₃_congr fun i lt _ => ?_
    rw [getLsbD_rotateRight_of_lt lt, getLsbD_byte, decide_eq_true_eq]
  simp only [turned, List.mem_map, exists_exists_and_eq_and, fits]

/-- A byte that does not wrap lies in the lowest window of the word, and the lowest window is a byte
turned: by what is left above it, or where it is cut, by what wraps. -/
theorem lowestWindow_iff_fits {bits : BitVec 32} (nonzero : bits ≠ 0#32) :
    bits &&& ~~~lowestWindow bits = 0#32 ∨
      (∃ turns ∈ [1, 2, 3], Fits bits turns) ↔ ∃ turns < 16, Fits bits turns := by
  rw [lowestWindow_iff]
  obtain ⟨bound, lowest⟩ := getLsbD_trailingZeros nonzero
  constructor
  · rintro (all | ⟨turns, few, fits⟩)
    · refine ⟨(16 - trailingZeros bits / 2) % 16, Nat.mod_lt _ (by decide), fun i lt isSet => ?_⟩
      have low := trailingZeros_le isSet
      have high := all i lt isSet
      omega
    · exact ⟨turns, by grind, fits⟩
  · rintro ⟨turns, few, fits⟩
    by_cases wraps : turns ∈ [1, 2, 3]
    · exact .inr ⟨turns, wraps, fits⟩
    · refine .inl fun i lt isSet => ?_
      have here := fits i lt isSet
      have least := fits _ bound lowest
      simp only [List.mem_cons, List.not_mem_nil, or_false, not_or] at wraps
      omega

/-- The test by windows accepts the words that an immediate field can hold. -/
theorem isEncodable_iff (word : Int32) : isEncodable word = true ↔ ∃ f : Field, word = f.word := by
  have same : (∃ f : Field, word = f.word) ↔ ∃ f : Field, word.toBitVec = f.bits :=
    exists_congr fun f => ⟨fun same => same ▸ rfl, fun same => Int32.toBitVec_inj.mp same⟩
  rw [same, exists_field_iff]
  simp only [isEncodable, List.any_cons, Bool.or_eq_true, beq_iff_eq, List.any_eq_true,
    wrappedWindows_iff]
  by_cases zero : word.toBitVec = 0#32
  · refine iff_of_true (.inl zero) ⟨0, by decide, fun i _ isSet => ?_⟩
    simp [zero] at isSet
  · rw [or_iff_right zero]
    exact lowestWindow_iff_fits zero

instance (word : Int32) : Decidable (∃ f : Field, word = f.word) :=
  decidable_of_iff _ (isEncodable_iff word)

end Immediate

namespace Assembly

/-- What instructions that put a constant into a register do. An immediate and a wide move run only
if their fields hold the word: a turned byte, and sixteen bits with zeros above. -/
inductive Instr.Puts (regs : Reg → Int32) : Instr → (Reg → Int32) → Prop where
  | immediate (dst : Reg) (f : Immediate.Field) :
    Puts regs (.mov .always dst (.word f.word)) (Function.update regs dst f.word)
  | wide (dst : Reg) (half : BitVec 16) :
    Puts regs (.movWide dst (.ofBitVec (half.setWidth 32)))
    (Function.update regs dst (.ofBitVec (half.setWidth 32)))
  | literal (dst : Reg) (w : Int32) : Puts regs (.loadWord dst w) (Function.update regs dst w)

variable {regs after : Reg → Int32} {dst : Reg} {w : Int32}

theorem Instr.puts_mov_iff : Puts regs (.mov .always dst (.word w)) after ↔
    (∃ f : Immediate.Field, w = f.word) ∧ after = Function.update regs dst w := by
  constructor
  · intro run
    cases run with
    | immediate dst f => exact ⟨⟨f, rfl⟩, rfl⟩
  · rintro ⟨⟨f, rfl⟩, rfl⟩
    exact .immediate dst f

/-- The words of sixteen bits are those in the range of a wide move. -/
theorem toNat_lt_iff : w.toBitVec.toNat < 65536 ↔ 0 ≤ w ∧ w ≤ 65535 := by
  rw [Int32.le_iff_toInt_le, Int32.le_iff_toInt_le, ← Int32.toInt_toBitVec w,
    BitVec.toInt_eq_toNat_cond]
  have bound := w.toBitVec.isLt
  simp only [Int32.toInt_zero, Int32.reduceToInt]
  split <;> omega

theorem Instr.puts_movWide_iff : Puts regs (.movWide dst w) after ↔
    (0 ≤ w ∧ w ≤ 65535) ∧ after = Function.update regs dst w := by
  constructor
  · intro run
    cases run with
    | wide dst half =>
      refine ⟨toNat_lt_iff.mp ?_, rfl⟩
      simp only [Int32.toBitVec_ofBitVec, BitVec.toNat_setWidth]
      omega
  · rintro ⟨range, rfl⟩
    have small := toNat_lt_iff.mpr range
    have same : w = .ofBitVec ((w.toBitVec.setWidth 16).setWidth 32) := by
      refine Int32.toBitVec_inj.mp (BitVec.eq_of_toNat_eq ?_)
      simp only [Int32.toBitVec_ofBitVec, BitVec.toNat_setWidth]
      omega
    rw [same]
    exact .wide dst (w.toBitVec.setWidth 16)

theorem Instr.puts_loadWord_iff :
    Puts regs (.loadWord dst w) after ↔ after = Function.update regs dst w := by
  constructor
  · intro run
    cases run
    rfl
  · rintro rfl
    exact .literal dst w

/-- A constant is put into a register by one instruction, which runs and leaves the word there and
all other registers as they were: an immediate if and only if a field holds the word, else a wide
move if the word has sixteen bits, else a load of a literal. -/
theorem exact_loadConstant (w : Int32) :
    (Immediate.isEncodable w = true ↔ ∃ f : Immediate.Field, w = f.word) ∧
      ∀ dst, (∀ regs after, Instr.Puts regs (loadConstant dst w) after ↔
        after = Function.update regs dst w) ∧ if ∃ f : Immediate.Field, w = f.word then
          Flexible.imm w = .ok (.word w) ∧ loadConstant dst w = .mov .always dst (.word w)
        else if 0 ≤ w ∧ w ≤ 65535 then
          Instr.moveWide dst w = .ok (.movWide dst w) ∧ loadConstant dst w = .movWide dst w
        else loadConstant dst w = .loadWord dst w := by
  have encodable := Immediate.isEncodable_iff w
  refine ⟨encodable, fun dst => ?_⟩
  by_cases held : ∃ f : Immediate.Field, w = f.word
  · have isImmediate : loadConstant dst w = .mov .always dst (.word w) :=
      if_pos (encodable.mpr held)
    simp only [isImmediate, Instr.puts_mov_iff, Flexible.imm,
      encodable.mpr held, held, true_and, implies_true, if_true, and_self]
  · have free : ¬Immediate.isEncodable w = true := mt encodable.mp held
    by_cases range : 0 ≤ w ∧ w ≤ 65535
    · have isWide : loadConstant dst w = .movWide dst w := (if_neg free).trans (if_pos range)
      simp only [isWide, Instr.puts_movWide_iff, Instr.moveWide,
        range, held, true_and, implies_true, if_true, if_false, and_self]
    · have isLiteral : loadConstant dst w = .loadWord dst w := (if_neg free).trans (if_neg range)
      simp only [isLiteral, Instr.puts_loadWord_iff, range, held, implies_true, if_false, and_self]

end Assembly

end ArmBackend
