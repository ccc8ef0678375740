import ArmBackend.Proofs.Source.Reader
import ArmBackend.Proofs.Text.Literal

/-!
Contract: tokens are read back from their written form, wherever they stand.

Owns: what a reader does with a text that was written for it, up to blanks and comments between
tokens; and that names, decimal words, string literals and single characters are read to their end.
Does not own: how tokens make up statements.
-/

namespace ArmBackend.Source

open List Text

/-! ## Places up to blanks -/

namespace Cursor

variable {ch : Char} {c : Cursor}
variable {text : List Char}

/-- What a text shows behind leading blanks and comments. -/
def visible (text : List Char) : List Char := (skipFrom false 1 1 text).rest

/-- The place of a text does not matter for what is skipped. -/
theorem rest_skipFrom (inComment : Bool) (line column line' column' : Nat) (text : List Char) :
    (skipFrom inComment line column text).rest = (skipFrom inComment line' column' text).rest := by
  induction text generalizing inComment line column line' column' with
  | nil => rfl
  | cons ch rest ih =>
    simp only [skipFrom]
    split
    · exact ih ..
    · split
      · exact ih ..
      · split
        · exact ih ..
        · split
          · exact ih ..
          · rfl

theorem rest_skip (c : Cursor) : c.skip.rest = visible c.rest := rest_skipFrom ..

private theorem visible_visible (text : List Char) : visible (visible text) = visible text := by
  rw [← rest_skip ⟨text, 1, 1⟩, ← rest_skip, skip_skip]

theorem visible_blank (blank : isBlank ch = true) (rest : List Char) :
    visible (ch :: rest) = visible rest := by
  by_cases lineEnd : ch = '\n'
  · rw [visible, skipFrom, if_pos lineEnd]
    exact rest_skipFrom ..
  · rw [visible, skipFrom, if_neg lineEnd, if_neg Bool.false_ne_true, if_pos blank]
    exact rest_skipFrom ..

/-- A character that no blank and no comment starts with. -/
structure Solid (ch : Char) : Prop where
  notBlank : isBlank ch = false
  notSlash : ch ≠ '/'

theorem Solid.visible (solid : Solid ch) (rest : List Char) :
    Cursor.visible (ch :: rest) = ch :: rest := by
  have notLineEnd : ch ≠ '\n' := by
    rintro rfl
    exact absurd solid.notBlank (by decide)
  rw [Cursor.visible, skipFrom, if_neg notLineEnd, if_neg Bool.false_ne_true,
    if_neg (Bool.not_eq_true _ ▸ solid.notBlank), if_neg fun comment => solid.notSlash comment.1]

/-- The cursor stands before the text, up to blanks and comments. -/
def At (c : Cursor) (text : List Char) : Prop := visible c.rest = visible text

theorem At.skip (here : c.At text) : c.skip.At text := by
  rw [At, rest_skip, visible_visible]
  exact here

theorem At.of_rest (left : c.rest = text) : c.At text := congrArg visible left

theorem At.rest_skip {rest : List Char} (here : c.At (ch :: rest)) (solid : Solid ch) :
    c.skip.rest = ch :: rest := by
  rw [Cursor.rest_skip, here, solid.visible]

end Cursor

open Cursor

namespace Reader

variable {α β : Type}

variable {ch wanted : Char} {a : α} {fit fit' : List Char → Prop} {r : Reader α}
  {rest written first second : List Char} {next : α → Reader β} {b : β} {c : Cursor}
  {name : String} {limit n : Nat}

/-! ## Rules -/

/-- Wherever the written text stands, if what follows it is fit, the reader gives the value and
stops behind the text. -/
def Takes (r : Reader α) (written : List Char) (a : α) (fit : List Char → Prop) : Prop :=
  ∀ c rest, c.At (written ++ rest) → fit rest → ∃ c', r c = .ok (a, c') ∧ c'.At rest

/-- Nothing is asked of what follows. -/
def Anything (_ : List Char) : Prop := True

/-- What follows does not go on with a name or a number. -/
def Ends (rest : List Char) : Prop := ∀ ch ∈ rest.head?, continuesIdentifier ch = false

/-- The next character, behind blanks and comments, is another one. -/
def Lacks (wanted : Char) (rest : List Char) : Prop := (visible rest).head? ≠ some wanted

theorem Takes.pure (a : α) (fit : List Char → Prop) : Takes (Pure.pure a : Reader α) [] a fit :=
  fun c _ here _ => ⟨c, rfl, here⟩

/-- One step after another, from places that the first one leads to places for the second. -/
theorem takes_bind (start mid : Cursor → Prop)
    (takes : ∀ c rest, start c → c.At (first ++ rest) → fit rest → ∃ c', r c = .ok (a, c') ∧
      c'.At rest)
    (leads : ∀ c c', start c → r c = .ok (a, c') → mid c')
    (more : ∀ c rest, mid c → c.At (second ++ rest) → fit' rest → ∃ c', next a c = .ok (b, c') ∧
      c'.At rest)
    (fits : ∀ rest, fit' rest → fit (second ++ rest)) (c : Cursor) (rest : List Char)
    (isStart : start c) (here : c.At (first ++ second ++ rest)) (isFit : fit' rest) :
    ∃ c', (r >>= next) c = .ok (b, c') ∧ c'.At rest := by
  rw [append_assoc] at here
  obtain ⟨c₁, read, there⟩ := takes c (second ++ rest) isStart here (fits rest isFit)
  obtain ⟨c₂, readMore, last⟩ := more c₁ rest (leads c c₁ isStart read) there isFit
  exact ⟨c₂, (bind_ok read).trans readMore, last⟩

theorem Takes.bind (takes : Takes r first a fit)
    (more : Takes (next a) second b fit') (fits : ∀ rest, fit' rest → fit (second ++ rest)) :
    Takes (r >>= next) (first ++ second) b fit' := fun c rest =>
  takes_bind (fun _ => True) (fun _ => True) (fun c rest _ => takes c rest) (fun _ _ _ _ => trivial)
    (fun c rest _ => more c rest) fits c rest trivial

theorem Takes.look (takes : Takes r [] a fit) (more : Takes (next a) written b fit')
    (fits : ∀ rest, fit' rest → fit (written ++ rest)) : Takes (r >>= next) written b fit' :=
  takes.bind more fits

theorem Takes.cons (takes : Takes r [ch] a fit)
    (more : Takes (next a) written b fit') (fits : ∀ rest, fit' rest → fit (written ++ rest)) :
    Takes (r >>= next) (ch :: written) b fit' :=
  takes.bind more fits

theorem Takes.last (takes : Takes r written a fit) (more : Takes (next a) [] b fit) :
    Takes (r >>= next) written b fit := by
  rw [← append_nil written]
  exact takes.bind more fun _ isFit => isFit

theorem Takes.map (takes : Takes r written a fit) (f : α → β) :
    Takes (r >>= fun a => Pure.pure (f a)) written (f a) fit := takes.last (.pure _ fit)

theorem Takes.weaken (takes : Takes r written a fit) (fits : ∀ rest, fit' rest → fit rest) :
    Takes r written a fit' :=
  fun c rest here isFit => takes c rest here (fits rest isFit)

theorem Takes.blank (takes : Takes r written a fit) (blank : isBlank ch = true) :
    Takes r (ch :: written) a fit := by
  intro c rest here isFit
  rw [cons_append, At, visible_blank blank] at here
  exact takes c rest here isFit

/-- A reader that looks at the character that comes next. -/
theorem Takes.peek {next : Option Char → Reader α} (solid : Solid ch)
    (takes : Takes (next (some ch)) (ch :: written) a fit) :
    Takes (skip >>= fun _ => peek? >>= next) (ch :: written) a fit := by
  intro c rest here isFit
  rw [bind_ok (skip_eq c), bind_ok (peek?_eq _), here.rest_skip solid]
  exact takes c.skip rest here.skip isFit

/-- As `Takes`, from places with at most so much text left. -/
def Within (limit : Nat) (r : Reader α) (written : List Char) (a : α)
    (fit : List Char → Prop) : Prop :=
  ∀ c rest, c.rest.length ≤ limit → c.At (written ++ rest) → fit rest → ∃ c', r c = .ok (a, c') ∧
  c'.At rest

section Within

theorem Takes.within (takes : Takes r first a fit) (limit : Nat) : Within limit r first a fit :=
  fun c rest _ => takes c rest

theorem Within.blank (takes : Within limit r first a fit) {ch : Char} (blank : isBlank ch = true) :
    Within limit r (ch :: first) a fit := by
  intro c rest short here isFit
  rw [cons_append, At, visible_blank blank] at here
  exact takes c rest short here isFit

theorem Within.bind (takes : Takes r first a fit) (forward : r.Forward)
    (more : Within limit (next a) second b fit') (fits : ∀ rest, fit' rest → fit (second ++ rest)) :
    Within limit (r >>= next) (first ++ second) b fit' :=
  takes_bind _ _ (fun c rest _ => takes c rest)
    (fun c c' short read => (forward c a c' read).length_le.trans short) more fits

theorem Within.look (takes : Takes r [] a fit) (forward : r.Forward)
    (more : Within limit (next a) first b fit') (fits : ∀ rest, fit' rest → fit (first ++ rest)) :
    Within limit (r >>= next) first b fit' :=
  .bind takes forward more fits

/-- A first step that takes at least one character. -/
theorem Within.shorten (takes : Takes r first a fit)
    (shortens : ∀ c c', r c = .ok (a, c') → c'.rest.length < c.rest.length)
    (more : ∀ less < limit, Within less (next a) second b fit')
    (fits : ∀ rest, fit' rest → fit (second ++ rest)) :
    Within limit (r >>= next) (first ++ second) b fit' :=
  takes_bind _ (fun c => c.rest.length < limit) (fun c rest _ => takes c rest)
    (fun c c' short read => Nat.lt_of_lt_of_le (shortens c c' read) short)
    (fun c rest short => more _ short c rest (Nat.le_refl _)) fits

/-- Whatever is read behind the limited part. -/
theorem Within.followed (takes : Within limit r first a fit) (more : Takes (next a) second b fit')
    (fits : ∀ rest, fit' rest → fit (second ++ rest)) :
    Within limit (r >>= next) (first ++ second) b fit' :=
  takes_bind _ (fun _ => True) takes (fun _ _ _ _ => trivial) (fun c rest _ => more c rest) fits

theorem Within.map (takes : Within limit r first a fit) (f : α → β) :
    Within limit (r >>= fun a => Pure.pure (f a)) first (f a) fit := by
  intro c rest short here isFit
  obtain ⟨c', read, there⟩ := takes c rest short here isFit
  exact ⟨c', bind_ok read, there⟩

/-- Rounds are enough if there is one for each character that is left. -/
theorem Takes.rounds {loop : Nat → Reader α}
    (takes : ∀ limit rounds, limit < rounds → Within limit (loop rounds) first a fit) :
    Takes (get >>= fun c => loop (c.rest.length + 1)) first a fit :=
  fun c rest here isFit =>
    takes c.rest.length (c.rest.length + 1) (Nat.lt_succ_self _) c rest (Nat.le_refl _) here isFit

end Within

/-! ## Single characters -/

theorem solid_of_decide (checked : (!isBlank ch && ch != '/') = true) : Solid ch := by
  rw [Bool.and_eq_true, Bool.not_eq_true', bne_iff_ne] at checked
  exact ⟨checked.1, checked.2⟩

theorem tryChar_takes (checked : (!isBlank wanted && wanted != '/') = true) :
    Takes (tryChar wanted) [wanted] true Anything := by
  intro c rest here _
  have left := here.rest_skip (solid_of_decide checked)
  refine ⟨c.skip.advance, ?_, .of_rest (rest_advance left)⟩
  rw [tryChar, bind_ok (skip_eq c), bind_ok (peek?_eq _), left, head?_cons, if_pos rfl]
  rfl

theorem visible_slash (single : rest.head? ≠ some '/') : visible ('/' :: rest) = '/' :: rest := by
  rw [visible, skipFrom, if_neg (by decide), if_neg Bool.false_ne_true, if_neg (by decide),
    if_neg fun comment => single comment.2]

theorem tryChar_takes_slash : Takes (tryChar '/') ['/'] true fun rest => rest.head? ≠ some '/' := by
  intro c rest here single
  have left : c.skip.rest = '/' :: rest :=
    (Cursor.rest_skip c).trans (here.trans (visible_slash single))
  refine ⟨c.skip.advance, ?_, .of_rest (rest_advance left)⟩
  rw [tryChar, bind_ok (skip_eq c), bind_ok (peek?_eq _), left, head?_cons, if_pos rfl]
  rfl

theorem tryChar_eq_of_lacks (here : c.At rest) (lacks : Lacks wanted rest) :
    tryChar wanted c = .ok (false, c.skip) := by
  rw [tryChar, bind_ok (skip_eq c), bind_ok (peek?_eq _), Cursor.rest_skip, here, if_neg lacks]
  rfl

theorem Lacks.of_solid (solid : Solid ch) (other : ch ≠ wanted) : Lacks wanted (ch :: rest) := by
  rw [Lacks, solid.visible, head?_cons]
  exact fun same => other (Option.some.inj same)

theorem Lacks.of_sign (checked : (!isBlank ch && ch != '/' && ch != wanted) = true) :
    Lacks wanted (ch :: rest) := by
  rw [Bool.and_eq_true, bne_iff_ne] at checked
  exact .of_solid (solid_of_decide checked.1) checked.2

theorem Lacks.of_blank (blank : isBlank ch = true) (lacks : Lacks wanted rest) :
    Lacks wanted (ch :: rest) := by
  rw [Lacks, visible_blank blank]
  exact lacks

theorem Ends.of_cons (other : continuesIdentifier ch = false) : Ends (ch :: rest) := by
  rintro _ ⟨⟩
  exact other

theorem tryChar_lacks (wanted : Char) : Takes (tryChar wanted) [] false (Lacks wanted) :=
  fun c _ here lacks => ⟨c.skip, tryChar_eq_of_lacks here lacks, here.skip⟩

theorem expect_takes (checked : (!isBlank wanted && wanted != '/') = true) :
    Takes (expect wanted) [wanted] () Anything := by
  intro c rest here isFit
  obtain ⟨c', read, there⟩ := tryChar_takes checked c rest here isFit
  exact ⟨c', by rw [expect, bind_ok read]; rfl, there⟩

theorem expect_shortens {c' : Cursor} (read : expect wanted c = .ok ((), c')) :
    c'.rest.length < c.rest.length := by
  have shorter := c.skip_suffix.length_le
  rw [expect, tryChar] at read
  change (if c.skip.rest.head? = some wanted then modify Cursor.advance >>= fun _ => Pure.pure true
    else Pure.pure false : Reader Bool) c.skip >>= _ = _ at read
  by_cases next : c.skip.rest.head? = some wanted
  · rw [if_pos next] at read
    obtain ⟨rest, left⟩ := head?_eq_some_iff.mp next
    cases read
    rw [rest_advance left]
    rw [left, length_cons] at shorter
    omega
  · rw [if_neg next] at read
    cases read

/-! ## Names -/

theorem solid_of_starts (starts : startsIdentifier ch = true) (notBlank : isBlank ch = false) :
    Solid ch := by
  refine ⟨notBlank, ?_⟩
  rintro rfl
  exact absurd starts (by decide)

theorem Lacks.of_word (isName : Word name) (other : startsIdentifier wanted = false)
    (rest : List Char) : Lacks wanted (name.toList ++ rest) := by
  obtain ⟨first, more, spelt, starts, notBlank, -⟩ := isName
  rw [spelt]
  refine .of_solid (solid_of_starts starts notBlank) ?_
  rintro rfl
  rw [starts] at other
  cases other

theorem identifier_eq_of_rest {first : Char} (left : c.skip.rest = first :: rest)
    (starts : startsIdentifier first = true) :
    ∃ c', identifier c = .ok (String.ofList (first :: rest.takeWhile continuesIdentifier), c') ∧
      c'.rest = rest.dropWhile continuesIdentifier := by
  have moved := rest_advance left
  refine ⟨(c.skip.advance.span continuesIdentifier).2, ?_, by rw [← moved]; rfl⟩
  rw [identifier, bind_ok (skip_eq c), bind_ok (peek?_eq _), left]
  simp only [head?_cons, starts, if_true]
  rw [← moved]
  rfl

theorem identifier_takes (isName : Word name) : Takes identifier name.toList name Ends := by
  intro c rest here ends
  obtain ⟨first, more, spelt, starts, notBlank, continues⟩ := isName
  rw [spelt] at here
  obtain ⟨c', read, left⟩ :=
    identifier_eq_of_rest (here.rest_skip (solid_of_starts starts notBlank)) starts
  have stops : rest.takeWhile continuesIdentifier = [] ∧
      rest.dropWhile continuesIdentifier = rest := by
    cases rest with
    | nil => exact ⟨rfl, rfl⟩
    | cons ch rest =>
      have other := ends ch rfl
      simp [other]
  rw [append_eq, dropWhile_append_of_pos continues, stops.2] at left
  rw [append_eq, takeWhile_append_of_pos continues, stops.1, append_nil, ← spelt,
    String.ofList_toList] at read
  exact ⟨c', read, .of_rest left⟩

theorem ty_takes (isName : Word name) :
    Takes ty name.toList (tyOfName name) Ends := (identifier_takes isName).map tyOfName

/-! ## Literals -/

section

variable (digit : ch.isDigit = true)

include digit

theorem ne_of_isDigit {special : Char} (notDigit : special.isDigit = false) : ch ≠ special := by
  rintro rfl
  rw [digit] at notDigit
  cases notDigit

theorem val_of_isDigit : 48 ≤ ch.toNat ∧ ch.toNat ≤ 57 ∧ ch.val < 128 := by
  simp only [Char.isDigit, Bool.and_eq_true, decide_eq_true_eq] at digit
  exact ⟨UInt32.le_iff_toNat_le.mp digit.1, UInt32.le_iff_toNat_le.mp digit.2,
    UInt32.lt_of_le_of_lt digit.2 (by decide)⟩

theorem continuesIdentifier_of_isDigit : continuesIdentifier ch = true := by
  simp [continuesIdentifier, isNumeric, (val_of_isDigit digit).2.2, digit]

theorem startsIdentifier_of_isDigit : startsIdentifier ch = false := by
  obtain ⟨low, high, small⟩ := val_of_isDigit digit
  have notLetter : ch.isAlpha = false := by
    change (decide (65 ≤ ch.val ∧ ch.val ≤ 90) || (decide (97 ≤ ch.val) && _)) = false
    simp only [UInt32.le_iff_toNat_le]
    simp
    omega
  simp [startsIdentifier, isAlphabetic, small, notLetter, ne_of_isDigit digit
    (show '_'.isDigit = false from rfl), ne_of_isDigit digit (show '%'.isDigit = false from rfl)]

theorem solid_of_isDigit : Solid ch := by
  obtain ⟨low, high, small⟩ := val_of_isDigit digit
  have notControl : ¬ ch.val ≤ 0x0d := by
    rw [UInt32.le_iff_toNat_le]
    simp
    omega
  exact ⟨by
    simp [isBlank, small, notControl, ne_of_isDigit digit (show ' '.isDigit = false from rfl)],
    ne_of_isDigit digit rfl⟩

end

private theorem Ends.not_isDigit (ends : Ends rest) : ∀ ch ∈ rest.head?, ch.isDigit = false := by
  intro ch next
  refine Bool.not_eq_true _ ▸ fun digit => ?_
  exact absurd (ends ch next) (by rw [continuesIdentifier_of_isDigit digit]; decide)

theorem isDigit_of_mem_toDigits (mem : ch ∈ Nat.toDigits 10 n) : ch.isDigit = true := by
  obtain ⟨d, small, rfl⟩ := exists_digit_of_mem_toDigits (by decide) mem
  rw [Nat.isDigit_digitChar, decide_eq_true small]

theorem readDigits_toDigits (n : Nat) : readDigits 10 (Nat.toDigits 10 n) = .ok n := by
  rw [readDigits, if_neg (by simp), digitsFrom?_toDigits (by decide) (by decide)]

private theorem readWord_toDigits (small : n < 2147483648) :
    readWord (Nat.toDigits 10 n) = .ok (Int32.ofNat n) := by
  have read := readDigits_toDigits n
  have digits {ch : Char} : ch ∈ Nat.toDigits 10 n → ch.isDigit = true := isDigit_of_mem_toDigits
  unfold readWord
  split
  · rename_i isNil
    exact absurd isNil (by simp)
  · rename_i written
    exact absurd (digits (written ▸ mem_cons_self)) (by decide)
  · rename_i written
    exact absurd (digits (written ▸ mem_cons_self)) (by decide)
  · rw [read]
    exact if_pos small

private theorem readWord_minus (small : n ≤ 2147483648) :
    readWord ('-' :: Nat.toDigits 10 n) = .ok (Int32.ofInt (-(n : Int))) := by
  rw [readWord, readDigits_toDigits]
  exact if_pos small

/-- A word is written as digits behind an optional minus sign, and these spell it. -/
theorem showWord_eq (w : Int32) : ∃ sign n, (sign = [] ∧ 0 ≤ w ∨ sign = ['-'] ∧ w < 0) ∧
    (showWord w).toList = sign ++ Nat.toDigits 10 n ∧
    readWord (sign ++ Nat.toDigits 10 n) = .ok w := by
  have low := w.minValue_le_toInt
  have high := w.toInt_lt
  rw [showWord, Int.toString_eq_repr]
  cases value : w.toInt with
  | ofNat n =>
    have isWord : Int32.ofNat n = w := by
      rw [← Int32.ofInt_toInt w, value, Int.ofNat_eq_natCast, Int32.ofInt_eq_ofNat]
    refine ⟨[], n, .inl ⟨rfl, ?_⟩, by simp [Int.repr], ?_⟩
    · rw [Int32.le_iff_toInt_le, value]
      exact Int.natCast_nonneg n
    · rw [← isWord]
      exact readWord_toDigits (by rw [value] at high; exact Int.ofNat_lt.mp high)
  | negSucc n =>
    have isWord : Int32.ofInt (-((n + 1 : Nat) : Int)) = w := by
      rw [← Int32.ofInt_toInt w, value, Int.negSucc_eq, Int.natCast_add, Int.natCast_one]
    refine ⟨['-'], n + 1, .inr ⟨rfl, ?_⟩, by simp [Int.repr], ?_⟩
    · rw [Int32.lt_iff_toInt_lt, value]
      exact Int.negSucc_lt_zero n
    · rw [← isWord]
      exact readWord_minus (by rw [value] at low; simp at low; omega)

theorem modifyGet_eq {f : Cursor → α × Cursor} {c' : Cursor} (moves : f c = (a, c')) :
    (modifyGet f : Reader α) c = .ok (a, c') := congrArg Except.ok moves

theorem word_takes (w : Int32) : Takes word (showWord w).toList w Ends := by
  intro c rest here ends
  obtain ⟨sign, n, isSign, written, read⟩ := showWord_eq w
  have digits {ch : Char} : ch ∈ Nat.toDigits 10 n → ch.isDigit = true := isDigit_of_mem_toDigits
  obtain ⟨first, more, isDigits⟩ := exists_cons_of_ne_nil (Nat.toDigits_ne_nil (b := 10) (n := n))
  generalize Nat.toDigits 10 n = text at *
  subst isDigits
  have stops : rest.takeWhile Char.isDigit = [] ∧ rest.dropWhile Char.isDigit = rest := by
    cases rest with
    | nil => exact ⟨rfl, rfl⟩
    | cons ch rest =>
      have other := ends.not_isDigit ch rfl
      simp [other]
  rw [written] at here
  -- The sign is taken on its own, if there is one.
  obtain ⟨c₁, taken, left⟩ : ∃ c₁, (if c.skip.rest.head? = some '-' then (['-'], c.skip.advance)
      else ([], c.skip)) = (sign, c₁) ∧ c₁.rest = first :: more ++ rest := by
    rcases isSign with ⟨rfl, -⟩ | ⟨rfl, -⟩
    · have left := here.rest_skip (solid_of_isDigit (digits mem_cons_self))
      have unsigned : first ≠ '-' := by
        rintro rfl
        exact absurd (digits mem_cons_self) (by decide)
      rw [left, head?_cons, if_neg (by simpa using unsigned)]
      exact ⟨_, rfl, left⟩
    · have left := here.rest_skip (solid_of_decide rfl)
      rw [left, head?_cons, if_pos rfl]
      exact ⟨_, rfl, rest_advance left⟩
  have span : c₁.span Char.isDigit = (first :: more, (c₁.span Char.isDigit).2) := by
    refine Prod.ext ?_ rfl
    change c₁.rest.takeWhile Char.isDigit = _
    rw [left, takeWhile_append_of_pos fun _ => digits, stops.1, append_nil]
  refine ⟨(c₁.span Char.isDigit).2, ?_, .of_rest ?_⟩
  · rw [word, bind_ok (skip_eq c), bind_ok (modifyGet_eq taken), bind_ok (modifyGet_eq span), read]
    rfl
  · change c₁.rest.dropWhile Char.isDigit = rest
    rw [left, dropWhile_append_of_pos fun _ => digits, stops.2]

private theorem stringLiteral_skip (c : Cursor) : stringLiteral c.skip = stringLiteral c := by
  have sameTry : tryChar '"' c.skip = tryChar '"' c := by
    rw [tryChar, bind_ok (skip_eq _), bind_ok (skip_eq _), skip_skip]
  have sameExpect : expect '"' c.skip = expect '"' c := by
    change (tryChar '"' c.skip >>= _) = (tryChar '"' c >>= _)
    rw [sameTry]
  change (expect '"' c.skip >>= _) = (expect '"' c >>= _)
  rw [sameExpect]

theorem stringLiteral_takes {text : String} (narrow : ∀ ch ∈ text.toList, ch.toNat < 256) :
    Takes stringLiteral (Literal.quote text).toList text Anything := by
  intro c rest here _
  have opened : (Literal.quote text).toList ++ rest =
      '"' :: (Literal.encode text.toList ++ '"' :: rest) := by
    simp [Literal.quote, Literal.escape]
  have left := (opened ▸ here).rest_skip (solid_of_decide rfl)
  rw [← opened] at left
  have read := stringLiteral_written text rest c.skip.line c.skip.column
  rw [(flatMap_reread_eq_iff text.toList).mpr narrow, String.ofList_toList, ← left] at read
  exact ⟨_, (stringLiteral_skip c).symm.trans read, .of_rest rfl⟩

end Reader

end ArmBackend.Source
