import ArmBackend.Source.Cursor
import ArmBackend.Text.Literal
import Mathlib.Data.List.Lemmas

/-!
Contract: string literals read back from their written form.

A code is written with as many digits as it needs, but read with two. So a literal is read back
exactly if no character has a code of more than two digits; of any other character the reader takes
the first two digits for the code and the others for text.

Owns: the value of written digits, and what reading a written literal gives, for every text.
Does not own: which literals occur in programs.
-/

namespace ArmBackend

open List hiding get modify

namespace Text

variable {base n : Nat} {c : Char} {text : List Char}

/-! ## Digits -/

private theorem digitValue?_digitChar :
    ∀ d < 16, digitValue? (Nat.digitChar d) = some d := by decide

theorem digitsFrom?_append (base high : Nat) (front back : List Char) :
    digitsFrom? base high (front ++ back) =
      (digitsFrom? base high front).bind fun value => digitsFrom? base value back := by
  induction front generalizing high with
  | nil => rfl
  | cons c front ih =>
    simp only [cons_append, digitsFrom?]
    cases digitValue? c with
    | none => rfl
    | some d =>
      by_cases small : d < base
      · simp only [small, if_true, ih]
      · simp only [small, if_false, Option.bind_none]

theorem digitsFrom?_digitChar (written : base ≤ 16) (high : Nat) {d : Nat}
    (small : d < base) : digitsFrom? base high [Nat.digitChar d] = some (high * base + d) := by
  simp [digitsFrom?, digitValue?_digitChar d (Nat.lt_of_lt_of_le small written), small]

theorem digitsFrom?_toDigits (two : 1 < base) (written : base ≤ 16) (n : Nat) :
    digitsFrom? base 0 (Nat.toDigits base n) = some n := by
  induction n using Nat.strong_induction_on with
  | _ n ih =>
    by_cases small : n < base
    · rw [Nat.toDigits_of_lt_base small, digitsFrom?_digitChar written 0 small, Nat.zero_mul,
        Nat.zero_add]
    · have positive : 0 < n := by omega
      rw [Nat.toDigits_of_base_le two (Nat.le_of_not_lt small), digitsFrom?_append,
        ih (n / base) (Nat.div_lt_self positive two), Option.bind_some,
        digitsFrom?_digitChar written _ (Nat.mod_lt n (by omega)), Nat.div_add_mod']

private theorem digitsFrom?_hexDigits (width n : Nat) :
    digitsFrom? 16 0 (hexDigits width n) = some n := by
  have zeros : ∀ count, digitsFrom? 16 0 (List.replicate count '0') = some 0 := by
    intro count
    induction count with
    | zero => rfl
    | succ count ih =>
      rw [replicate_succ', digitsFrom?_append, ih]
      rfl
  rw [hexDigits, digitsFrom?_append, zeros, Option.bind_some,
    digitsFrom?_toDigits (by decide) (by decide)]

theorem exists_digit_of_mem_toDigits (two : 1 < base)
    (mem : c ∈ Nat.toDigits base n) : ∃ d < base, c = Nat.digitChar d := by
  induction n using Nat.strong_induction_on with
  | _ n ih =>
    by_cases small : n < base
    · rw [Nat.toDigits_of_lt_base small, mem_singleton] at mem
      exact ⟨n, small, mem⟩
    · have positive : 0 < n := by omega
      rw [Nat.toDigits_of_base_le two (Nat.le_of_not_lt small), mem_append, mem_singleton] at mem
      rcases mem with early | last
      · exact ih (n / base) (Nat.div_lt_self positive two) early
      · exact ⟨n % base, Nat.mod_lt n (by omega), last⟩

theorem exists_digit_of_mem_hexDigits {width : Nat} (mem : c ∈ hexDigits width n) :
    ∃ d < 16, c = Nat.digitChar d := by
  rcases mem_append.mp mem with zero | digit
  · exact ⟨0, by decide, eq_of_mem_replicate zero⟩
  · exact exists_digit_of_mem_toDigits (by decide) digit

theorem length_hexDigits (width n : Nat) :
    (hexDigits width n).length = max width (Nat.toDigits 16 n).length := by
  simp only [hexDigits, length_append, length_replicate]
  omega

theorem length_hexDigits_two (n : Nat) : (hexDigits 2 n).length = 2 ↔ n < 256 := by
  rw [length_hexDigits, show 256 = 16 ^ 2 from rfl,
    ← Nat.length_toDigits_le_iff (by decide) (by decide)]
  omega

private theorem exists_digitsFrom? (digits : ∀ c ∈ text, ∃ d < 16, c = Nat.digitChar d)
    (high : Nat) : ∃ value, digitsFrom? 16 high text = some value := by
  induction text generalizing high with
  | nil => exact ⟨high, rfl⟩
  | cons c text ih =>
    rw [forall_mem_cons] at digits
    obtain ⟨⟨d, small, rfl⟩, digits⟩ := digits
    obtain ⟨value, isValue⟩ := ih digits (high * 16 + d)
    refine ⟨value, ?_⟩
    rw [← singleton_append, digitsFrom?_append, digitsFrom?_digitChar (Nat.le_refl 16) high small]
    exact isValue

/-- Digits carry no sign. -/
theorem readHex_of_digits {value : Nat} (nonempty : text ≠ [])
    (digits : ∀ c ∈ text, ∃ d < 16, c = Nat.digitChar d)
    (isValue : digitsFrom? 16 0 text = some value) : readHex text = .ok value := by
  cases text with
  | nil => exact absurd rfl nonempty
  | cons c rest =>
    obtain ⟨d, small, rfl⟩ := digits c mem_cons_self
    have unsigned : Nat.digitChar d ≠ '+' := (by decide : ∀ d < 16, Nat.digitChar d ≠ '+') d small
    unfold readHex readUnsigned
    split
    · contradiction
    · rename_i same
      exact absurd (List.cons.inj same).1 unsigned
    · simp [readDigits, isValue]

end Text

namespace Source.Reader

open Text Text.Literal

variable {rounds line column : Nat} {rest : List Char}
variable {c : Char} {code : Nat}

/-- Put characters in front of what a reader of characters gives. -/
def prepend (front : List Char) (result : List Char × Cursor) :
    List Char × Cursor := (front ++ result.1, result.2)

/-- A character that stands for itself in a literal and takes one column. -/
structure Ordinary (c : Char) : Prop where
  notQuote : c ≠ '"'
  notEscape : c ≠ '\\'
  notLineEnd : c ≠ '\n'
  narrow : c.utf8Size = 1

private theorem ordinary_digitChar : ∀ d < 16, Ordinary (Nat.digitChar d) := by
  have checked : ∀ d < 16, Nat.digitChar d ≠ '"' ∧ Nat.digitChar d ≠ '\\' ∧
      Nat.digitChar d ≠ '\n' ∧ (Nat.digitChar d).utf8Size = 1 := by decide
  intro d small
  obtain ⟨notQuote, notEscape, notLineEnd, narrow⟩ := checked d small
  exact ⟨notQuote, notEscape, notLineEnd, narrow⟩

theorem Ordinary.advance (ordinary : Ordinary c) :
    Cursor.advance ⟨c :: rest, line, column⟩ = ⟨rest, line, column + 1⟩ := by
  simp [Cursor.advance, ordinary.notLineEnd, ordinary.narrow]

/-! ## Reading characters -/

private theorem stringRest_quote :
    stringRest (rounds + 1) ⟨'"' :: rest, line, column⟩ = .ok ([], ⟨rest, line, column + 1⟩) := by
  rfl

theorem stringRest_ordinary (ordinary : Ordinary c) :
    stringRest (rounds + 1) ⟨c :: rest, line, column⟩ =
      (stringRest rounds ⟨rest, line, column + 1⟩).map (prepend [c]) := by
  rw [stringRest]
  change (if c = '"' then _ else if c = '\\' then _ else _ : Reader (List Char))
    (Cursor.advance ⟨c :: rest, line, column⟩) = _
  rw [if_neg ordinary.notQuote, if_neg ordinary.notEscape, ordinary.advance]
  change Except.bind (stringRest rounds ⟨rest, line, column + 1⟩) _ = _
  cases stringRest rounds ⟨rest, line, column + 1⟩ <;> rfl

theorem map_prepend_map (front back : List Char) (result : Except Error (List Char × Cursor)) :
    (result.map (prepend back)).map (prepend front) = result.map (prepend (front ++ back)) := by
  cases result with
  | error e => rfl
  | ok r => simp [Except.map, prepend]

theorem stringRest_run {run : List Char} (ordinary : ∀ c ∈ run, Ordinary c) :
    stringRest (rounds + run.length) ⟨run ++ rest, line, column⟩ =
      (stringRest rounds ⟨rest, line, column + run.length⟩).map (prepend run) := by
  induction run generalizing column with
  | nil =>
    cases result : stringRest rounds ⟨rest, line, column⟩ <;> simp [result, Except.map, prepend]
  | cons c run ih =>
    rw [forall_mem_cons] at ordinary
    rw [length_cons, ← Nat.add_assoc, cons_append, stringRest_ordinary ordinary.1,
      ih ordinary.2, map_prepend_map, Nat.add_right_comm, Nat.add_assoc column]
    rfl

private theorem stringRest_named {letter : Char} (named : namedEscape? letter = some c) :
    stringRest (rounds + 1) ⟨'\\' :: letter :: rest, line, column⟩ =
      (stringRest rounds ⟨rest, line, column + 2⟩).map (prepend [c]) := by
  unfold namedEscape? at named
  split at named <;> cases named <;> rw [stringRest] <;>
    · change Except.bind (stringRest rounds ⟨rest, line, column + 2⟩) _ = _
      cases stringRest rounds ⟨rest, line, column + 2⟩ <;> rfl

/-- How reading goes on behind the digits of a code. -/
def afterCode (rounds : Nat) (digits : List Char) : Except IntegerFault Nat → Reader (List Char)
  | .ok code => return charOfCode code :: (← stringRest rounds)
  | .error f => fault (.badHexEscape (String.ofList digits) f)

private theorem stringRest_code {digits : List Char} (length : digits.length = 2)
    (ordinary : ∀ c ∈ digits, Ordinary c) (isCode : readHex digits = .ok code) :
    stringRest (rounds + 1) ⟨'\\' :: 'x' :: digits ++ rest, line, column⟩ =
      (stringRest rounds ⟨rest, line, column + 4⟩).map (prepend [charOfCode code]) := by
  obtain ⟨high, low, rfl⟩ := length_eq_two.mp length
  have passed : (Cursor.advance ∘ Cursor.advance) ⟨high :: low :: rest, line, column + 2⟩ =
      ⟨rest, line, column + 4⟩ := by
    rw [Function.comp, (ordinary high (by simp)).advance, (ordinary low (by simp)).advance]
  rw [stringRest]
  change afterCode rounds [high, low] (readHex [high, low]) _ = _
  rw [isCode]
  change Except.bind (stringRest rounds ((Cursor.advance ∘ Cursor.advance)
    ⟨high :: low :: rest, line, column + 2⟩)) _ = _
  rw [passed]
  cases stringRest rounds ⟨rest, line, column + 4⟩ <;> rfl

/-! ## Reading written characters -/

/-- What is read where a character was written: the character, if its code has two digits. Of a
longer code the first two digits are taken for the code, and the others stay. -/
def reread (c : Char) : List Char :=
  if c.toNat < 256 then [c]
  else
    let digits := hexDigits 2 c.toNat
    charOfCode ((digitsFrom? 16 0 (digits.take 2)).getD 0) :: digits.drop 2

theorem encodeChar_cases (c : Char) :
    (∃ letter, encodeChar c = ['\\', letter] ∧ namedEscape? letter = some c ∧ c.toNat < 256) ∨
      encodeChar c = '\\' :: 'x' :: hexDigits 2 c.toNat ∨ encodeChar c = [c] ∧ Ordinary c ∧
      c.toNat < 256 := by
  by_cases named : c = '\'' ∨ c = '"' ∨ c = '\r' ∨ c = '\n' ∨ c = '\t' ∨ c = '\\' ∨ c = '\x08'
  · left
    rcases named with rfl | rfl | rfl | rfl | rfl | rfl | rfl <;> exact ⟨_, rfl, rfl, by decide⟩
  · simp only [not_or] at named
    obtain ⟨notApostrophe, notQuote, notReturn, notLineEnd, notTab, notEscape, notBack⟩ := named
    right
    by_cases coded : c.val < 32 ∨ 127 ≤ c.val
    · left
      simp [encodeChar, *]
    · right
      have plain : encodeChar c = [c] := by simp [encodeChar, *]
      rw [not_or, UInt32.not_le] at coded
      have small : c.val.toNat < 127 := UInt32.lt_iff_toNat_lt.mp coded.2
      refine ⟨plain, ⟨notQuote, notEscape, notLineEnd, ?_⟩, Nat.lt_trans small (by decide)⟩
      exact Char.utf8Size_eq_one_iff.mpr (UInt32.le_iff_toNat_le.mpr (Nat.le_of_lt small))

private theorem charOfCode_toNat (c : Char) : charOfCode c.toNat = c := by
  have valid : c.toNat.isValidChar := c.valid
  rw [charOfCode, if_pos valid, Char.ofNat_toNat]

/-- The first two digits of a code are taken for the code. -/
theorem reread_eq (isCode : digitsFrom? 16 0 ((hexDigits 2 c.toNat).take 2) = some code) :
    reread c = charOfCode code :: (hexDigits 2 c.toNat).drop 2 := by
  rw [reread]
  split
  · rename_i small
    have length := (length_hexDigits_two c.toNat).mpr small
    rw [take_of_length_le (Nat.le_of_eq length), digitsFrom?_hexDigits] at isCode
    rw [drop_eq_nil_of_le (Nat.le_of_eq length), ← Option.some.inj isCode, charOfCode_toNat]
  · change charOfCode ((digitsFrom? 16 0 ((hexDigits 2 c.toNat).take 2)).getD 0) :: _ = _
    rw [isCode]
    rfl

private theorem stringRest_hexDigits (c : Char) : stringRest (rounds + (reread c).length)
        ⟨'\\' :: 'x' :: hexDigits 2 c.toNat ++ rest, line, column⟩ =
      (stringRest rounds ⟨rest, line, column + (2 + (hexDigits 2 c.toNat).length)⟩).map
        (prepend (reread c)) := by
  have digits : ∀ d ∈ hexDigits 2 c.toNat, ∃ n < 16, d = Nat.digitChar n :=
    fun d => exists_digit_of_mem_hexDigits
  have ordinary : ∀ d ∈ hexDigits 2 c.toNat, Ordinary d := fun d mem => by
    obtain ⟨n, small, rfl⟩ := digits d mem
    exact ordinary_digitChar n small
  have long : 2 ≤ (hexDigits 2 c.toNat).length := length_hexDigits 2 c.toNat ▸ Nat.le_max_left ..
  obtain ⟨code, isCode⟩ : ∃ code, digitsFrom? 16 0 ((hexDigits 2 c.toNat).take 2) = some code :=
    exists_digitsFrom? (fun d mem => digits d (mem_of_mem_take mem)) 0
  rw [reread_eq isCode]
  generalize hexDigits 2 c.toNat = written at *
  have length : (written.take 2).length = 2 := length_take_of_le long
  have read : readHex (written.take 2) = .ok code :=
    readHex_of_digits (ne_nil_of_length_pos (by omega))
      (fun d mem => digits d (mem_of_mem_take mem)) isCode
  have split : '\\' :: 'x' :: written ++ rest =
      '\\' :: 'x' :: written.take 2 ++ (written.drop 2 ++ rest) := by
    simp [← append_assoc]
  rw [split, length_cons, ← Nat.add_assoc,
    stringRest_code length (fun d mem => ordinary d (mem_of_mem_take mem)) read,
    stringRest_run fun d mem => ordinary d (mem_of_mem_drop mem), map_prepend_map]
  have columns : column + 4 + (written.drop 2).length = column + (2 + written.length) := by
    rw [length_drop]
    omega
  rw [columns]
  rfl

private theorem stringRest_encodeChar (c : Char) :
    stringRest (rounds + (reread c).length) ⟨encodeChar c ++ rest, line, column⟩ =
      (stringRest rounds ⟨rest, line, column + (encodeChar c).length⟩).map
        (prepend (reread c)) := by
  rcases encodeChar_cases c with
    ⟨letter, written, named, small⟩ | written | ⟨written, ordinary, small⟩
  · rw [written, reread, if_pos small]
    exact stringRest_named named
  · rw [written, stringRest_hexDigits, length_cons, length_cons, Nat.add_comm 2]
  · rw [written, reread, if_pos small]
    exact stringRest_ordinary ordinary

private theorem stringRest_encode (text : List Char) :
    stringRest (rounds + (text.flatMap reread).length) ⟨encode text ++ rest, line, column⟩ =
      (stringRest rounds ⟨rest, line, column + (encode text).length⟩).map
        (prepend (text.flatMap reread)) := by
  induction text generalizing column with
  | nil => exact stringRest_run (forall_mem_nil _)
  | cons c text ih =>
    rw [encode, flatMap_cons, flatMap_cons, ← encode, append_assoc, length_append,
      Nat.add_comm (reread c).length, ← Nat.add_assoc, stringRest_encodeChar, ih,
      map_prepend_map, length_append, Nat.add_assoc]

/-! ## Reading written literals -/

theorem length_reread (c : Char) : (reread c).length = (hexDigits 2 c.toNat).length - 1 := by
  rw [reread]
  split
  · rename_i small
    rw [(length_hexDigits_two c.toNat).mpr small]
    rfl
  · have long := length_hexDigits 2 c.toNat
    rw [length_cons, length_drop]
    omega

theorem reread_length_eq_one (c : Char) : (reread c).length = 1 ↔ c.toNat < 256 := by
  rw [length_reread, ← length_hexDigits_two]
  omega

/-- Every round of reading is paid for by a written character. -/
theorem length_reread_le (c : Char) : (reread c).length ≤ (encodeChar c).length := by
  rcases encodeChar_cases c with ⟨letter, written, -, small⟩ | written | ⟨written, -, small⟩
  · rw [written, (reread_length_eq_one c).mpr small]
    exact Nat.le_add_left 1 _
  · rw [written, length_reread, length_cons, length_cons]
    omega
  · rw [written, (reread_length_eq_one c).mpr small]
    exact Nat.le_add_left 1 _

theorem length_flatMap_reread_le (text : List Char) :
    (text.flatMap reread).length ≤ (encode text).length := by
  induction text with
  | nil => exact Nat.le_refl 0
  | cons c text ih =>
    rw [encode, flatMap_cons, flatMap_cons, ← encode, length_append, length_append]
    exact Nat.add_le_add (length_reread_le c) ih

/-- A written literal is read to its end, whatever follows. -/
theorem stringLiteral_written (text : String) (rest : List Char) (line column : Nat) :
    stringLiteral ⟨(quote text).toList ++ rest, line, column⟩ =
      .ok (String.ofList (text.toList.flatMap reread),
        ⟨rest, line, column + (quote text).length⟩) := by
  have isQuote : (quote text).toList = '"' :: (encode text.toList ++ ['"']) := by
    simp [quote, escape]
  have length : (quote text).length = (encode text.toList).length + 2 := by
    rw [← String.length_toList, isQuote]
    simp
  have enough := length_flatMap_reread_le text.toList
  -- Rounds that are left when the closing quote is read.
  obtain ⟨spare, rounds⟩ : ∃ spare, (encode text.toList ++ '"' :: rest).length + 1 =
      spare + 1 + (text.toList.flatMap reread).length := by
    rw [length_append]
    exact ⟨(encode text.toList).length +
      ('"' :: rest).length - (text.toList.flatMap reread).length, by omega⟩
  rw [isQuote, length, cons_append, append_assoc, singleton_append]
  change Except.bind (stringRest ((encode text.toList ++ '"' :: rest).length + 1)
    ⟨encode text.toList ++ '"' :: rest, line, column + 1⟩) _ = _
  rw [rounds, stringRest_encode, stringRest_quote]
  have columns : column + 1 + (encode text.toList).length + 1 =
      column + ((encode text.toList).length + 2) := by omega
  rw [← columns]
  simp only [Except.map, Except.bind, prepend, append_nil]
  rfl

theorem length_le_flatMap_reread (text : List Char) :
    text.length ≤ (text.flatMap reread).length := by
  induction text with
  | nil => exact Nat.le_refl 0
  | cons c text ih =>
    have long := length_hexDigits 2 c.toNat
    rw [flatMap_cons, length_append, length_cons, length_reread]
    omega

/-- Only characters whose codes have two digits are read back as they were: any other gives more
than one. -/
theorem flatMap_reread_eq_iff (text : List Char) :
    text.flatMap reread = text ↔ ∀ c ∈ text, c.toNat < 256 := by
  constructor
  · intro same
    have lengths := congrArg List.length same
    clear same
    induction text with
    | nil => exact forall_mem_nil _
    | cons c text ih =>
      have more := length_le_flatMap_reread text
      have first := length_le_flatMap_reread [c]
      rw [flatMap_singleton] at first
      rw [flatMap_cons, length_append, length_cons] at lengths
      refine forall_mem_cons.mpr ⟨(reread_length_eq_one c).mp ?_, ih ?_⟩
      · exact Nat.le_antisymm (by omega) first
      · rw [length_singleton] at first
        omega
  · intro small
    induction text with
    | nil => rfl
    | cons c text ih =>
      rw [forall_mem_cons] at small
      rw [flatMap_cons, ih small.2, reread, if_pos small.1]
      rfl

/-- A written literal gives back its string, whatever follows it, exactly if no character of the
string has a code of more than two hexadecimal digits. -/
theorem stringLiteral_quote_iff (text : String) (rest : List Char) (line column : Nat) :
    stringLiteral ⟨(quote text).toList ++ rest, line, column⟩ =
        .ok (text, ⟨rest, line, column + (quote text).length⟩) ↔
      ∀ c ∈ text.toList, c.toNat < 256 := by
  rw [stringLiteral_written, ← flatMap_reread_eq_iff]
  constructor
  · intro same
    have isText := congrArg String.toList (Prod.mk.inj (Except.ok.inj same)).1
    rwa [String.toList_ofList] at isText
  · intro same
    rw [same, String.ofList_toList]

/-- The digit that does not fit is read as text. -/
theorem stringLiteral_quote_macron : stringLiteral ⟨(quote "\u0100").toList, 1, 1⟩ =
      .ok ("\x100", ⟨[], 1, 8⟩) ∧ "\x100" ≠ "\u0100" := by
  decide

end Source.Reader

end ArmBackend
