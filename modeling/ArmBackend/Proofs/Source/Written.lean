import ArmBackend.Program.Listing
import ArmBackend.Proofs.Source.Statement
import ArmBackend.Proofs.Source.Token

/-!
Contract: every statement is read back from its listing.

Owns: what the readers of operands, arguments, assignments and statements do with a listed
instruction, for every instruction that a statement can give.
Does not own: procedures and programs.
-/

namespace ArmBackend

open List hiding lookup

open Source Source.Cursor Source.Reader Text

/-- The instruction can be read back: its string literals are narrow, and it negates no literal that
would take the sign for its own. -/
structure Inst.Respelt (i : Inst) : Prop where
  narrow : ∀ text, .str text ∈ i.operands → ∀ ch ∈ text.toList, ch.toNat ≤ 0xFF
  signed : ∀ dst word, i = .negate dst (.int word) → word < 0

namespace Source

variable {name : String} {rest : List Char} {ch wanted : Char} {args : List Operand} {c : Cursor}
variable {field : String} {op : Comparison} {right : Operand} {v : VarId}

/-- The procedure lists the variables of the draft by their names. -/
structure Draft.ShownBy (d : Draft) (p : Procedure) : Prop where
  vars : p.vars = d.proc.vars
  uncolored : ∀ v, p.reg? v = none
  words : ∀ x ∈ d.proc.vars, Word x.name

theorem Draft.ShownBy.showVar {d : Draft} {p : Procedure} (shown : d.ShownBy p) (v : VarId) :
    p.showVar v = d.proc.varName v := by
  rw [Procedure.showVar, shown.uncolored]
  simp only [Procedure.varName, Procedure.var, shown.vars]

theorem Draft.ShownBy.word {d : Draft} {p : Procedure} (shown : d.ShownBy p)
    (finds : d.Finds v) : Word (d.proc.varName v) := by
  have inRange : v < d.proc.vars.size := finds.lt
  rw [Procedure.varName, Procedure.var, Array.getD_eq_getD_getElem?,
    Array.getElem?_eq_getElem inRange]
  exact shown.words _ (Array.getElem_mem inRange)

/-- The operand can be read back from where the procedure lists it. -/
structure Draft.Lists (d : Draft) (p : Procedure) (o : Operand) : Prop where
  shown : d.ShownBy p
  reads : d.Reads o
  narrow : ∀ text, o = .str text → ∀ ch ∈ text.toList, ch.toNat ≤ 0xFF

/-! ## Operands -/

theorem word_of_decide {first : Char} {more : List Char} (spelt : name.toList = first :: more)
    (checked : (startsIdentifier first && !isBlank first && more.all continuesIdentifier) = true) :
    Word name := by
  simp only [Bool.and_eq_true, Bool.not_eq_true', all_eq_true] at checked
  exact ⟨first, more, spelt, checked.1.1, checked.1.2, checked.2⟩

variable {d : Draft} {p : Procedure} {o : Operand}

theorem showWord_cases (w : Int32) : ∃ digit more, digit.isDigit = true ∧
    ((showWord w).toList = digit :: more ∧ 0 ≤ w ∨ (showWord w).toList = '-' :: digit :: more ∧
      w < 0) := by
  obtain ⟨sign, n, isSign, written, -⟩ := showWord_eq w
  obtain ⟨first, more, isDigits⟩ := exists_cons_of_ne_nil (Nat.toDigits_ne_nil (b := 10) (n := n))
  have digit : first.isDigit = true := isDigit_of_mem_toDigits (n := n) (by rw [isDigits]; simp)
  rw [isDigits] at written
  refine ⟨first, more, digit, ?_⟩
  rcases isSign with ⟨rfl, positive⟩ | ⟨rfl, negative⟩
  · exact .inl ⟨written, positive⟩
  · exact .inr ⟨written, negative⟩

theorem showOperand_cases (listed : d.Lists p o) : (∃ name, Word name ∧ p.showOperand o = name) ∨
      ∃ ch more, (p.showOperand o).toList = ch :: more ∧ Solid ch ∧ startsIdentifier ch = false ∧
        (ch = '"' ∨ ch.isDigit = true ∧ (∃ word, o = .int word ∧ 0 ≤ word) ∨
          ch = '-' ∧ ∃ next rest, more = next :: rest ∧ next.isDigit = true) := by
  cases o with
  | str text =>
    refine .inr ⟨'"', Literal.encode text.toList ++ ['"'], ?_, solid_of_decide rfl, rfl, .inl rfl⟩
    simp [Procedure.showOperand, Literal.quote, Literal.escape]
  | int w =>
    obtain ⟨digit, more, isDigit, ⟨written, positive⟩ | ⟨written, -⟩⟩ := showWord_cases w
    · exact .inr ⟨digit, more, written, solid_of_isDigit isDigit,
        startsIdentifier_of_isDigit isDigit, .inr (.inl ⟨isDigit, w, rfl, positive⟩)⟩
    · exact .inr ⟨'-', digit :: more, written, solid_of_decide rfl, rfl,
        .inr (.inr ⟨rfl, digit, more, rfl, isDigit⟩)⟩
  | bool value =>
    cases value
    · exact .inl ⟨"false", word_of_decide rfl rfl, rfl⟩
    · exact .inl ⟨"true", word_of_decide rfl rfl, rfl⟩
  | null => exact .inl ⟨"NULL", word_of_decide rfl rfl, rfl⟩
  | var v => exact .inl ⟨_, listed.shown.word listed.reads.1, listed.shown.showVar v⟩

/-- A name that stands for an operand. -/
theorem operand_takes_name (isName : Word name)
    (given : (if name = "true" then pure (.bool true) else if name = "false" then pure (.bool false)
      else if name = "null" ∨ name = "NULL" then pure .null
      else lookup d name >>= fun v => pure (.var v) : Reader Operand) = pure o) :
    Takes (operand d) name.toList o Ends := by
  have takes := identifier_takes isName
  obtain ⟨first, more, spelt, starts, notBlank, -⟩ := isName
  have notQuote : first ≠ '"' := by
    rintro rfl
    exact absurd starts (by decide)
  have notNumber : ¬ (first.isDigit = true ∨ first = '-') := by
    rintro (digit | rfl)
    · rw [startsIdentifier_of_isDigit digit] at starts
      cases starts
    · exact absurd starts (by decide)
  rw [spelt] at takes ⊢
  refine .peek (solid_of_starts starts notBlank) ?_
  simp only [notQuote, notNumber, if_false]
  exact takes.last (given ▸ .pure o Ends)

theorem lookup_eq (finds : d.Finds v) : lookup d (d.proc.varName v) = pure v := by
  rw [lookup, show d.var? (d.proc.varName v) = some v from finds]

theorem operand_takes (listed : d.Lists p o) :
    Takes (operand d) (p.showOperand o).toList o Ends := by
  cases o with
  | str text =>
    have takes := (stringLiteral_takes fun ch mem => Nat.lt_succ_of_le
      (listed.narrow text rfl ch mem)).map Operand.str
    have opened : (Literal.quote text).toList = '"' :: (Literal.encode text.toList ++ ['"']) := by
      simp [Literal.quote, Literal.escape]
    rw [Procedure.showOperand]
    rw [opened] at takes ⊢
    refine .peek (solid_of_decide rfl) ?_
    simp only [if_true]
    exact takes.weaken fun _ _ => trivial
  | int w =>
    have takes := (word_takes w).map Operand.int
    rw [Procedure.showOperand]
    obtain ⟨digit, more, isDigit, ⟨written, -⟩ | ⟨written, -⟩⟩ := showWord_cases w
    · rw [written] at takes ⊢
      refine .peek (solid_of_isDigit isDigit) ?_
      simp only [ne_of_isDigit isDigit (show '"'.isDigit = false from rfl), isDigit, true_or,
        if_true, if_false]
      exact takes
    · rw [written] at takes ⊢
      refine .peek (solid_of_decide rfl) ?_
      simp only [show '-' ≠ '"' by decide, or_true, if_true, if_false]
      exact takes
  | bool value =>
    cases value
    · change Takes (operand d) "false".toList _ Ends
      exact operand_takes_name (word_of_decide rfl rfl) (by simp)
    · change Takes (operand d) "true".toList _ Ends
      exact operand_takes_name (word_of_decide rfl rfl) (by simp)
  | null =>
    change Takes (operand d) "NULL".toList _ Ends
    exact operand_takes_name (word_of_decide rfl rfl) (by simp)
  | var v =>
    have given := lookup_eq listed.reads.1
    have notConstant := listed.reads.2
    simp only [constants, mem_cons, not_mem_nil, or_false, not_or] at notConstant
    rw [Procedure.showOperand, listed.shown.showVar]
    refine operand_takes_name (listed.shown.word listed.reads.1) ?_
    simp [notConstant, given]

private theorem visible_showOperand (listed : d.Lists p o) (rest : List Char) :
    visible ((p.showOperand o).toList ++ rest) = (p.showOperand o).toList ++ rest := by
  rcases showOperand_cases listed with ⟨name, ⟨first, more, spelt, isFirst, notBlank, -⟩, written⟩ |
    ⟨ch, more, written, solid, -, -⟩
  · rw [written, spelt]
    exact (solid_of_starts isFirst notBlank).visible _
  · rw [written]
    exact solid.visible _

theorem lacks_showOperand (listed : d.Lists p o) (rest : List Char)
    (starts : startsIdentifier wanted = false)
    (other : (wanted == '"' || wanted.isDigit || wanted == '-') = false) :
    Lacks wanted ((p.showOperand o).toList ++ rest) := by
  simp only [Bool.or_eq_false_iff, beq_eq_false_iff_ne] at other
  rcases showOperand_cases listed with ⟨name, isName, written⟩ | ⟨ch, more, written, solid, -, kind⟩
  · rw [written]
    exact .of_word isName starts rest
  · rw [written]
    refine .of_solid solid ?_
    rintro rfl
    rcases kind with isQuote | ⟨isDigit, -⟩ | ⟨isMinus, -⟩
    · exact other.1.1 isQuote
    · rw [isDigit] at other
      cases other.1.2
    · exact other.2 isMinus

/-! ## Arguments -/

theorem toList_commaList_cons (first second : String) (more : List String) :
    (commaList (first :: second :: more)).toList =
      first.toList ++ ',' :: ' ' :: (commaList (second :: more)).toList := by
  simp [commaList, String.toList_intercalate, List.intercalate]

theorem commaList_singleton (item : String) : commaList [item] = item := by simp [commaList]

private theorem moreArguments_takes (first : Operand) (more : List Operand)
    (each : ∀ o ∈ first :: more, Takes (operand d) (p.showOperand o).toList o Ends)
    (limit rounds : Nat) (enough : limit < rounds) :
    Within limit (moreArguments d rounds)
      ((commaList ((first :: more).map p.showOperand)).toList ++ [')'])
        (first :: more) Anything := by
  induction more generalizing first limit rounds with
  | nil =>
    obtain ⟨rounds, rfl⟩ := Nat.exists_eq_add_one.mpr (Nat.zero_lt_of_lt enough)
    rw [map_singleton, commaList_singleton]
    refine Takes.within ((each first mem_cons_self).bind ?_ fun _ _ => .of_cons rfl) limit
    exact (tryChar_takes rfl).last (.pure _ _)
  | cons second more ih =>
    obtain ⟨rounds, rfl⟩ := Nat.exists_eq_add_one.mpr (Nat.zero_lt_of_lt enough)
    rw [map_cons, map_cons, toList_commaList_cons, append_assoc]
    refine .bind (each first mem_cons_self) (operand_forward d) ?_ fun _ _ => .of_cons rfl
    refine .look (tryChar_lacks ')') (tryChar_forward ')') ?_ fun _ _ =>
      .of_sign rfl
    change Within limit _ ([','] ++ ' ' :: ((commaList _).toList ++ [')'])) _ _
    refine .shorten (expect_takes rfl) (fun _ _ => expect_shortens)
      (fun less fewer => .blank ?_ rfl) fun _ _ => trivial
    exact (ih second (fun o member => each o (mem_cons_of_mem _ member)) less rounds
      (Nat.lt_of_lt_of_le fewer (Nat.le_of_lt_succ enough))).map _

theorem exists_toList_commaList (first : String) (more : List String) :
    ∃ tail, (commaList (first :: more)).toList = first.toList ++ tail := by
  cases more with
  | nil => exact ⟨[], by rw [commaList_singleton, append_nil]⟩
  | cons second more => exact ⟨_, toList_commaList_cons first second more⟩

theorem arguments_takes (listed : ∀ o ∈ args, d.Lists p o) :
    Takes (arguments d) ((commaList (args.map p.showOperand)).toList ++ [')']) args Anything := by
  cases args with
  | nil => exact (tryChar_takes rfl).last (.pure _ _)
  | cons first more =>
    obtain ⟨tail, written⟩ := exists_toList_commaList (p.showOperand first) (more.map p.showOperand)
    refine (tryChar_lacks ')').look (.rounds (moreArguments_takes first more
      fun o member => operand_takes (listed o member))) fun rest _ => ?_
    rw [map_cons, written, append_assoc, append_assoc]
    exact lacks_showOperand (listed first mem_cons_self) _ rfl rfl

/-! ## Assignments -/

/-- What follows ends the statement. -/
def Closes (rest : List Char) : Prop := ∃ more, rest = ';' :: more

/-- What follows stands apart. -/
def Parts (rest : List Char) : Prop := ∃ more, rest = ' ' :: more

theorem Closes.lacks (closes : Closes rest) (other : ';' ≠ wanted) : Lacks wanted rest := by
  obtain ⟨more, rfl⟩ := closes
  exact .of_solid (solid_of_decide rfl) other

theorem Closes.ends (closes : Closes rest) : Ends rest := by
  obtain ⟨more, rfl⟩ := closes
  exact .of_cons rfl

private theorem identifier_fails (other : ∀ ch ∈ c.skip.rest.head?, startsIdentifier ch = false) :
    (identifier c).toOption = none := by
  rw [identifier, bind_ok (skip_eq c), bind_ok (peek?_eq _)]
  cases next : c.skip.rest.head? with
  | none => rfl
  | some ch =>
    have notStart := other ch next
    simp only [notStart, Bool.false_eq_true, if_false]
    rfl

/-- No name comes next. -/
def Nameless (rest : List Char) : Prop := ∀ ch ∈ (visible rest).head?, startsIdentifier ch = false

theorem Nameless.identifier (here : c.At rest) (nameless : Nameless rest) :
    (identifier c).toOption = none := by
  refine identifier_fails ?_
  rw [Cursor.rest_skip, here]
  exact nameless

theorem Nameless.of_solid (solid : Solid ch) (other : startsIdentifier ch = false) :
    Nameless (ch :: rest) := by
  rw [Nameless, solid.visible]
  rintro _ ⟨⟩
  exact other

private theorem Nameless.of_blank (blank : isBlank ch = true) (nameless : Nameless rest) :
    Nameless (ch :: rest) := by
  rw [Nameless, visible_blank blank]
  exact nameless

private theorem atIdentifier_other (name : String) :
    Takes (atIdentifier name) [] false Nameless := by
  intro c rest here nameless
  refine ⟨c, ?_, here⟩
  rw [atIdentifier_eq, nameless.identifier here]
  rfl

theorem atIdentifier_same (isName : Word name) :
    Takes (atIdentifier name) [] true fun rest => ∃ more, rest = name.toList ++ more ∧
      Ends more := by
  rintro c rest here ⟨more, rfl, ends⟩
  obtain ⟨c', read, -⟩ := identifier_takes isName c more here ends
  refine ⟨c, ?_, here⟩
  rw [atIdentifier_eq, read]
  simp [Except.toOption]

private theorem binaryOp?_none : Takes binaryOp? [] none Closes := by
  refine (tryChar_lacks '+').look ?_ fun rest closes => closes.lacks (by decide)
  refine (tryChar_lacks '-').look ?_ fun rest closes => closes.lacks (by decide)
  refine (tryChar_lacks '*').look ?_ fun rest closes => closes.lacks (by decide)
  refine (tryChar_lacks '/').look ?_ fun rest closes => closes.lacks (by decide)
  refine (atIdentifier_other "RSB").look (.pure _ _) ?_
  rintro _ ⟨more, rfl⟩
  exact .of_solid (solid_of_decide rfl) rfl

private theorem Parts.ends (parts : Parts rest) : Ends rest := by
  obtain ⟨more, rfl⟩ := parts
  exact .of_cons rfl

private theorem binaryOp?_some (op : BinaryOp) :
    Takes binaryOp? op.symbol.toList (some op) Parts := by
  have plain {wanted : Char} (checked : (!isBlank wanted && wanted != '/') = true) :
      Takes (tryChar wanted) [wanted] true Parts :=
      (tryChar_takes checked).weaken fun _ _ => trivial
  have slash {wanted : Char} (other : '/' ≠ wanted) (rest : List Char) (parts : Parts rest) :
      Lacks wanted (['/'] ++ rest) := by
    obtain ⟨more, rfl⟩ := parts
    change (visible ('/' :: ' ' :: more)).head? ≠ _
    rw [visible_slash (by simp), head?_cons]
    exact fun same => other (Option.some.inj same)
  have lacks {wanted ch : Char} (checked : (!isBlank ch && ch != '/' && ch != wanted) = true)
      (written rest : List Char) (_ : Parts rest) : Lacks wanted (ch :: written ++ rest) :=
      .of_sign checked
  cases op with
  | add => exact (plain rfl).last (.pure _ _)
  | sub =>
    refine (tryChar_lacks '+').look ?_ (lacks rfl [])
    exact (plain rfl).last (.pure _ _)
  | mul =>
    refine (tryChar_lacks '+').look ?_ (lacks rfl [])
    refine (tryChar_lacks '-').look ?_ (lacks rfl [])
    exact (plain rfl).last (.pure _ _)
  | div =>
    refine (tryChar_lacks '+').look ?_ (slash (by decide))
    refine (tryChar_lacks '-').look ?_ (slash (by decide))
    refine (tryChar_lacks '*').look ?_ (slash (by decide))
    refine (tryChar_takes_slash.weaken ?_).last (.pure _ _)
    rintro _ ⟨more, rfl⟩
    simp
  | rsb =>
    have isName : Word "RSB" := word_of_decide rfl rfl
    refine (tryChar_lacks '+').look ?_ (lacks rfl ['S', 'B'])
    refine (tryChar_lacks '-').look ?_ (lacks rfl ['S', 'B'])
    refine (tryChar_lacks '*').look ?_ (lacks rfl ['S', 'B'])
    refine (tryChar_lacks '/').look ?_ (lacks rfl ['S', 'B'])
    refine (atIdentifier_same isName).look ?_ fun rest parts => ⟨rest, rfl, parts.ends⟩
    exact ((identifier_takes isName).weaken fun _ parts => parts.ends).last (.pure _ _)

/-- Does a text start with a minus sign that belongs to no literal? -/
def negates : List Char → Bool
  | '-' :: ch :: _ => !ch.isDigit
  | ['-'] => true
  | _ => false

theorem atNegation_eq (c : Cursor) : atNegation c = .ok (negates c.rest, c) := by
  change (match c.rest with
    | '-' :: ch :: _ => pure (!ch.isDigit)
    | ['-'] => pure true
    | _ => pure false : Reader Bool) c = _
  generalize c.rest = text
  unfold negates
  split <;> rfl

theorem negates_eq_false (rest : List Char) (other : ch ≠ '-') : negates (ch :: rest) = false := by
  unfold negates
  split <;> simp_all

private theorem negates_showOperand (listed : d.Lists p o) (rest : List Char) :
    negates ((p.showOperand o).toList ++ rest) = false := by
  rcases showOperand_cases listed with ⟨name, ⟨first, more, spelt, isFirst, -, -⟩, written⟩ |
    ⟨ch, more, written, -, -, kind⟩
  · rw [written, spelt]
    refine negates_eq_false _ ?_
    rintro rfl
    exact absurd isFirst (by decide)
  · rw [written]
    rcases kind with rfl | ⟨isDigit, -⟩ | ⟨rfl, next, rest, rfl, isDigit⟩
    · exact negates_eq_false _ (by decide)
    · exact negates_eq_false _ (ne_of_isDigit isDigit rfl)
    · simp [negates, isDigit]

private theorem atCall_showOperand (listed : d.Lists p o) {c : Cursor} {rest : List Char}
    (here : c.At ((p.showOperand o).toList ++ rest)) (ends : Ends rest) (lacks : Lacks '(' rest) :
    atCall c = .ok (false, c) := by
  rw [atCall_eq]
  rcases showOperand_cases listed with
    ⟨name, isName, written⟩ | ⟨ch, more, written, solid, other, -⟩
  · rw [written] at here
    obtain ⟨c', read, there⟩ := identifier_takes isName c rest here ends
    have next : c'.skip.rest.head? ≠ some '(' := by
      rw [Cursor.rest_skip, there]
      exact lacks
    simp [read, Except.toOption, next]
  · rw [written] at here
    have nameless : Nameless (ch :: more ++ rest) := .of_solid solid other
    simp [nameless.identifier here]

variable {dst : VarId} {i : Inst}

private theorem assignment_takes_operand (listed : d.Lists p o) {written : List Char}
    {fit : List Char → Prop} (more : Takes (afterOperand d dst o) written i fit)
    (ends : ∀ rest, fit rest → Ends (written ++ rest))
    (lacks : ∀ rest, fit rest → Lacks '(' (written ++ rest)) :
    Takes (assignment d dst) ((p.showOperand o).toList ++ written) i fit := by
  intro c rest here isFit
  have takes := (operand_takes listed).bind more ends c.skip rest here.skip isFit
  rw [append_assoc] at here
  have shownLeft : c.skip.rest = (p.showOperand o).toList ++ (written ++ rest) := by
    rw [Cursor.rest_skip, here, visible_showOperand listed]
  rw [assignment, bind_ok (skip_eq c), bind_ok (atNegation_eq _), shownLeft,
    negates_showOperand listed, if_neg Bool.false_ne_true,
    bind_ok (atCall_showOperand listed here.skip (ends rest isFit) (lacks rest isFit)),
    if_neg Bool.false_ne_true]
  exact takes

private theorem afterOperand_takes_nothing :
    Takes (afterOperand d dst o) [] (.assign dst o) Closes := by
  refine (tryChar_lacks '.').look ?_ fun rest closes => closes.lacks (by decide)
  exact binaryOp?_none.last (.pure _ _)

private theorem afterOperand_takes_field (isField : Word field) :
    Takes (afterOperand d dst o) ('.' :: field.toList) (.load dst o field) Closes := by
  refine (tryChar_takes rfl).cons ?_ fun _ _ => trivial
  exact ((identifier_takes isField).weaken fun _ closes => closes.ends).map (Inst.load dst o)

theorem lacks_symbol (op : BinaryOp) (other : (op.symbol.toList.head? == some wanted) = false)
    (rest : List Char) : Lacks wanted (' ' :: op.symbol.toList ++ ' ' :: rest) := by
  refine .of_blank rfl ?_
  have symbol {ch : Char} {more : List Char} (solid : Solid ch)
      (other : (some ch == some wanted) = false) : Lacks wanted (ch :: more) :=
    .of_solid solid fun same => by simp [same] at other
  cases op with
  | div =>
    change (visible ('/' :: ' ' :: rest)).head? ≠ _
    rw [visible_slash (by simp)]
    simpa [BinaryOp.symbol] using other
  | _ => exact symbol (solid_of_decide rfl) other

private theorem afterOperand_takes_operator (op : BinaryOp) (listed : d.Lists p right) :
    Takes (afterOperand d dst o) (' ' :: op.symbol.toList ++ ' ' :: (p.showOperand right).toList)
      (.binary dst op o right) Closes := by
  refine (tryChar_lacks '.').look (.blank ?_ rfl) fun rest _ => ?_
  · refine (binaryOp?_some op).bind (.blank ?_ rfl) fun rest _ => ⟨_, rfl⟩
    exact ((operand_takes listed).weaken fun _ closes => closes.ends).map (Inst.binary dst op o)
  · rw [append_assoc]
    exact lacks_symbol op (by cases op <;> rfl) _

private theorem assignment_takes_call {callee : String} (isName : Word callee)
    (plain : callee ≠ "true" ∧ callee ≠ "false") (listed : ∀ o ∈ args, d.Lists p o) :
    Takes (assignment d dst)
      (callee.toList ++ '(' :: ((commaList (args.map p.showOperand)).toList ++ [')']))
      (.call (some dst) (.external callee) args) Anything := by
  have takes :
      Takes (identifier >>= fun callee => expect '(' >>= fun _ => arguments d >>= fun args =>
      (pure (.call (some dst) (.external callee) args) : Reader Inst))
      (callee.toList ++ '(' :: ((commaList (args.map p.showOperand)).toList ++ [')']))
      (.call (some dst) (.external callee) args) Anything := by
    refine (identifier_takes isName).bind ?_ fun _ _ => .of_cons rfl
    refine (expect_takes rfl).cons ?_ fun _ _ => trivial
    exact (arguments_takes listed).map (Inst.call (some dst) (.external callee))
  intro c rest here isFit
  have result := takes c.skip rest here.skip isFit
  rw [append_assoc] at here
  have ahead : Ends ('(' :: ((commaList (args.map p.showOperand)).toList ++ [')']) ++ rest) :=
    .of_cons rfl
  obtain ⟨c', read, there⟩ := identifier_takes isName c.skip _ here.skip ahead
  have next : c'.skip.rest.head? = some '(' := by
    rw [there.rest_skip (solid_of_decide rfl)]
    rfl
  have called : atCall c.skip = .ok (true, c.skip) := by
    rw [atCall_eq]
    simp [read, Except.toOption, next, plain]
  have notMinus : negates c.skip.rest = false := by
    obtain ⟨first, more, spelt, isFirst, notBlank, -⟩ := isName
    rw [spelt] at here
    rw [here.rest_skip (solid_of_starts isFirst notBlank)]
    refine negates_eq_false _ ?_
    rintro rfl
    exact absurd isFirst (by decide)
  rw [assignment, bind_ok (skip_eq c), bind_ok (atNegation_eq _), notMinus,
    if_neg Bool.false_ne_true, bind_ok called, if_pos rfl]
  exact result

/-- A minus sign belongs to the negation if no literal takes it. -/
theorem assignment_takes_minus (listed : d.Lists p o) (signed : ∀ word, o = .int word → word < 0) :
    Takes (assignment d dst) ('-' :: (p.showOperand o).toList) (.negate dst o) Closes := by
  have takes := ((operand_takes listed).weaken fun _ closes => Closes.ends closes).map
    (Inst.negate dst)
  intro c rest here closes
  have left := here.rest_skip (solid_of_decide rfl)
  have sign : negates c.skip.rest = true := by
    rw [left]
    rcases showOperand_cases listed with ⟨name, ⟨first, more, spelt, isFirst, -, -⟩, written⟩ |
      ⟨ch, more, written, -, -, kind⟩
    · have notDigit : first.isDigit = false := by
        refine Bool.not_eq_true _ ▸ fun digit => ?_
        rw [startsIdentifier_of_isDigit digit] at isFirst
        cases isFirst
      rw [written, spelt]
      simp [negates, notDigit]
    · rw [written]
      rcases kind with rfl | ⟨-, word, isWord, positive⟩ | ⟨rfl, -⟩
      · rfl
      · exact absurd (signed word isWord) (Int32.not_lt.mpr positive)
      · rfl
  obtain ⟨c', read, there⟩ := takes c.skip.advance rest (.of_rest (rest_advance left)) closes
  refine ⟨c', ?_, there⟩
  rw [assignment, bind_ok (skip_eq c), bind_ok (atNegation_eq _), sign, if_pos rfl]
  exact read

/-! ## Statements -/

theorem comparison_eq {length : Nat} (isOp : comparison? c.skip.rest = some (op, length)) :
    comparison c = .ok (op, Nat.repeat Cursor.advance length c.skip) := by
  have here : (get : Reader Cursor) c.skip = .ok (c.skip, c.skip) := rfl
  rw [comparison, bind_ok (skip_eq c), bind_ok here, isOp]
  rfl

private theorem comparison_takes (op : Comparison) :
    Takes comparison op.symbol.toList op Parts := by
  rintro c _ here ⟨more, rfl⟩
  have one {ch : Char} (solid : Solid ch) (here : c.At (ch :: ' ' :: more))
      (isOp : comparison? (ch :: ' ' :: more) = some (op, 1)) :
      ∃ c', comparison c = .ok (op, c') ∧ c'.At (' ' :: more) := by
    have left := here.rest_skip solid
    exact ⟨c.skip.advance, comparison_eq (left ▸ isOp), .of_rest (rest_advance left)⟩
  have two {first second : Char} (solid : Solid first)
      (here : c.At (first :: second :: ' ' :: more))
      (isOp : comparison? (first :: second :: ' ' :: more) = some (op, 2)) :
      ∃ c', comparison c = .ok (op, c') ∧ c'.At (' ' :: more) := by
    have left := here.rest_skip solid
    exact ⟨c.skip.advance.advance, comparison_eq (left ▸ isOp),
      .of_rest (rest_advance (rest_advance left))⟩
  cases op with
  | lt => exact one (solid_of_decide rfl) here rfl
  | gt => exact one (solid_of_decide rfl) here rfl
  | le => exact two (solid_of_decide rfl) here rfl
  | ge => exact two (solid_of_decide rfl) here rfl
  | eq => exact two (solid_of_decide rfl) here rfl
  | ne => exact two (solid_of_decide rfl) here rfl

theorem jumpTarget_takes (d : Draft) (isName : Word name) :
    Takes (jumpTarget d) (name.toList ++ [';']) (d.label name) Anything := by
  refine (identifier_takes isName).bind ?_ fun _ _ => .of_cons rfl
  exact (expect_takes rfl).last (.pure _ _)

private theorem branch_takes {left : Operand} (listedLeft : d.Lists p left)
    (listedRight : d.Lists p right) (isName : Word name) : Takes (branch d)
      ('(' :: ((p.showOperand left).toList ++ ' ' :: (op.symbol.toList ++ ' ' ::
        ((p.showOperand right).toList ++ ')' :: ' ' ::
          ("goto".toList ++ ' ' :: (name.toList ++ [';']))))))
      (.branch op left right (d.label name).1, (d.label name).2) Anything := by
  refine (expect_takes rfl).cons ?_ fun _ _ => trivial
  refine (operand_takes listedLeft).bind (.blank ?_ rfl) fun _ _ => .of_cons rfl
  refine (comparison_takes op).bind (.blank ?_ rfl) fun _ _ => ⟨_, rfl⟩
  refine (operand_takes listedRight).bind ?_ fun _ _ => .of_cons rfl
  refine (expect_takes rfl).cons (.blank ?_ rfl) fun _ _ => trivial
  refine (identifier_takes (word_of_decide rfl rfl)).bind ?_ fun _ _ => .of_cons rfl
  rw [if_neg (by simp)]
  exact (jumpTarget_takes d isName).blank rfl |>.map _

variable {first : String} {written : List Char} {r : Option Inst × Draft}

/-- A first word that is no command. -/
theorem statement_takes_word (isFirst : Word first) (plain : first ∉ commands)
    (more : Takes (tryChar ':' >>= fun isMark => if isMark = true then
      marker d first >>= fun m => pure (some m.1, m.2) else unmarked d first) written r Anything)
    (ends : ∀ rest, Ends (written ++ rest)) :
    Takes (statement d) (first.toList ++ written) r Anything := by
  simp only [commands, mem_cons, not_mem_nil, or_false, not_or] at plain
  refine (identifier_takes isFirst).bind ?_ fun rest _ => ends rest
  rw [if_neg plain.1, if_neg plain.2.1, if_neg plain.2.2]
  exact more

theorem peekAfterIdentifier?_none : Takes peekAfterIdentifier? [] none Nameless := by
  intro c rest here nameless
  refine ⟨c, ?_, here⟩
  rw [peekAfterIdentifier?_eq, nameless.identifier here]
  rfl

private theorem peekAfterIdentifier?_some (isName : Word name) :
    Takes peekAfterIdentifier? [] (some ';') fun rest => ∃ more, rest =
      ' ' :: (name.toList ++ ';' :: more) := by
  rintro c _ here ⟨more, rfl⟩
  have there : c.At (name.toList ++ ';' :: more) := here.trans (visible_blank rfl _)
  obtain ⟨c', read, behind⟩ := identifier_takes isName c _ there (.of_cons rfl)
  refine ⟨c, ?_, here⟩
  rw [peekAfterIdentifier?_eq, read]
  simp [Except.toOption, behind.rest_skip (solid_of_decide rfl)]

/-- A statement whose first word is followed by a sign. -/
theorem statement_takes_sign (isFirst : Word first) (plain : first ∉ commands)
    (more : Takes (unmarked d first) written r Anything) (ends : ∀ rest, Ends (written ++ rest))
    (lacks : ∀ rest, Lacks ':' (written ++ rest)) :
    Takes (statement d) (first.toList ++ written) r Anything :=
  statement_takes_word isFirst plain ((tryChar_lacks ':').look more fun rest _ => lacks rest) ends

private theorem marker_takes (unmarked : (d.label first).1 ∉ (d.label first).2.marked) :
    Takes (marker d first) [] (.label (d.label first).1,
      { (d.label first).2 with marked := (d.label first).1 :: (d.label first).2.marked })
        Anything := by
  unfold marker
  generalize d.label first = labelled at *
  obtain ⟨l, d'⟩ := labelled
  rw [← List.contains_iff_mem] at unmarked
  simp only [unmarked]
  exact .pure _ _

theorem statement_takes_mark (isName : Word first) (plain : first ∉ commands)
    (unmarked : (d.label first).1 ∉ (d.label first).2.marked) :
    Takes (statement d) (first.toList ++ [':']) (some (.label (d.label first).1),
      { (d.label first).2 with marked := (d.label first).1 :: (d.label first).2.marked })
        Anything := by
  refine statement_takes_word isName plain ?_ fun _ => .of_cons rfl
  exact (tryChar_takes rfl).last ((marker_takes unmarked).map _)

theorem statement_takes_declaration {type : String} (isType : Word type) (isName : Word name)
    (plain : type ∉ keywords) (new : d.var? name = none) :
    Takes (statement d) (type.toList ++ ' ' :: (name.toList ++ [';']))
      (none, { d with proc := d.proc.addLocal name (tyOfName type) }) Anything := by
  have notCommand : type ∉ commands := fun member => plain (by
    simp only [commands, mem_cons, not_mem_nil, or_false] at member
    rcases member with rfl | rfl | rfl <;> decide)
  have declared : declare d false name (tyOfName type) =
      pure { d with proc := d.proc.addLocal name (tyOfName type) } := by
    rw [declare, if_neg (by simp [new]), if_neg Bool.false_ne_true]
  have notMark (rest : List Char) : Lacks ':' (' ' :: (name.toList ++ [';']) ++ rest) := by
    rw [cons_append, append_assoc]
    exact .of_blank rfl (.of_word isName rfl _)
  refine statement_takes_sign isType notCommand ?_ (fun _ => .of_cons rfl) notMark
  refine (peekAfterIdentifier?_some isName).look ?_ fun rest _ => ⟨rest, by simp⟩
  rw [if_pos (by simp [plain])]
  refine .blank ((identifier_takes isName).bind ?_ fun _ _ => .of_cons rfl) rfl
  refine (expect_takes rfl).last ?_
  rw [declared]
  exact .pure _ _

private theorem statement_takes_invoke (isName : Word first) (plain : first ∉ commands)
    (listed : ∀ o ∈ args, d.Lists p o) :
    Takes (statement d)
      (first.toList ++ '(' :: ((commaList (args.map p.showOperand)).toList ++ [')'] ++ [';']))
      (some (.call none (.external first) args), d) Anything := by
  refine statement_takes_sign isName plain ?_ (fun _ => .of_cons rfl) fun _ => .of_sign rfl
  refine peekAfterIdentifier?_none.look ?_ fun _ _ => .of_solid (solid_of_decide rfl) rfl
  rw [if_neg (by simp)]
  refine (tryChar_takes rfl).cons ?_ fun _ _ => trivial
  refine (arguments_takes listed).bind ?_ fun _ _ => trivial
  exact (expect_takes rfl).last (.pure _ _)

private theorem statement_takes_store {base : VarId} {src : Operand}
    (leads : d.Leads base) (isField : Word field) (listed : d.Lists p src) :
    Takes (statement d)
      ((d.proc.varName base).toList ++ '.' :: (field.toList ++ ' ' :: '=' :: ' ' ::
      ((p.showOperand src).toList ++ [';']))) (some (.store base field src), d) Anything := by
  refine statement_takes_sign (listed.shown.word leads.1) leads.2 ?_ (fun _ => .of_cons rfl)
    fun _ => .of_sign rfl
  refine peekAfterIdentifier?_none.look ?_ fun _ _ => .of_solid (solid_of_decide rfl) rfl
  rw [if_neg (by simp)]
  refine (tryChar_lacks '(').look ?_ fun _ _ => .of_sign rfl
  refine (tryChar_takes rfl).cons ?_ fun _ _ => trivial
  refine (identifier_takes isField).bind (.blank ?_ rfl) fun _ _ => .of_cons rfl
  refine (expect_takes rfl).cons (.blank ?_ rfl) fun _ _ => trivial
  refine (operand_takes listed).bind ?_ fun _ _ => .of_cons rfl
  refine (expect_takes rfl).last ?_
  rw [lookup_eq leads.1]
  exact .pure _ _

private theorem statement_takes_assignment (shown : d.ShownBy p) (leads : d.Leads dst)
    (takes : Takes (assignment d dst) written i Closes) :
    Takes (statement d)
      ((d.proc.varName dst).toList ++ ' ' :: '=' :: ' ' :: (written ++ [';']))
        (some i, d) Anything := by
  refine statement_takes_sign (shown.word leads.1) leads.2 ?_ (fun _ => .of_cons rfl)
    fun _ => .of_blank rfl (.of_sign rfl)
  refine peekAfterIdentifier?_none.look ?_
    fun _ _ => .of_blank rfl (.of_solid (solid_of_decide rfl) rfl)
  rw [if_neg (by simp)]
  refine (tryChar_lacks '(').look ?_ fun _ _ => .of_blank rfl (.of_sign rfl)
  refine (tryChar_lacks '.').look ?_ fun _ _ => .of_blank rfl (.of_sign rfl)
  rw [lookup_eq leads.1]
  refine (Takes.pure _ Anything).look (.blank ?_ rfl) fun _ _ => trivial
  refine (expect_takes rfl).cons (.blank ?_ rfl) fun _ _ => trivial
  refine takes.bind ?_ fun rest _ => ⟨rest, rfl⟩
  exact (expect_takes rfl).last (.pure _ _)

private theorem Draft.labelName_label
    (known : (d.label name).2.proc.labels.toList <+: p.labels.toList) :
    p.labelName (d.label name).1 = name := by
  have entry : (d.label name).2.proc.labels.toList[(d.label name).1]? = some name := by
    unfold Draft.label
    cases found : d.label? name with
    | none => simp [Procedure.newLabel, Procedure.nextLabel]
    | some l =>
      obtain ⟨k, isHere, rfl⟩ := Option.map_eq_some_iff.mp found
      obtain ⟨inRange, same, -⟩ := findIdx?_eq_some_iff_getElem.mp isHere
      rw [getElem_drop, beq_iff_eq] at same
      have inLabels : 1 + k < d.proc.labels.toList.length := by
        rw [length_drop] at inRange
        exact Nat.add_lt_of_lt_sub' inRange
      change d.proc.labels.toList[k + 1]? = some name
      rw [Nat.add_comm k 1, getElem?_eq_getElem inLabels, same]
  obtain ⟨more, isLabels⟩ := known
  have inRange := (List.getElem?_eq_some_iff.mp entry).1
  rw [← getElem?_append_left inRange, isLabels, Array.getElem?_toList] at entry
  rw [Procedure.labelName, Array.getD_eq_getD_getElem?, entry]
  rfl

/-- A listed instruction is read back, with the draft that its statement leaves. -/
theorem Draft.Step.takes {d' : Draft} (step : d.Step (some i) d') (shown : d.ShownBy p)
    (labels : d'.proc.labels.toList <+: p.labels.toList) (respelt : i.Respelt) :
    Takes (statement d) (p.showInst i).toList (some i, d') Anything := by
  have listed (o : Operand) (reads : d.Reads o) (member : o ∈ i.operands) : d.Lists p o :=
    ⟨shown, reads, fun text isText => respelt.narrow text (isText ▸ member)⟩
  cases step with
  | mark isName plain unmarked =>
    have isLabel := Draft.labelName_label labels
    have written (l : LabelId) : (p.showInst (.label l)).toList =
        (p.labelName l).toList ++ [':'] := by
      simp [Procedure.showInst]
    rw [written, isLabel]
    exact statement_takes_mark isName plain unmarked
  | @branch op left right name readsLeft readsRight isName =>
    have isLabel := Draft.labelName_label labels
    have written (l : LabelId) : (p.showInst (.branch op left right l)).toList = "if".toList ++
        ' ' :: '(' :: ((p.showOperand left).toList ++ ' ' :: (op.symbol.toList ++ ' ' ::
          ((p.showOperand right).toList ++ ')' :: ' ' ::
            ("goto".toList ++ ' ' :: ((p.labelName l).toList ++ [';']))))) := by
      simp [Procedure.showInst]
    rw [written, isLabel]
    refine (identifier_takes (word_of_decide rfl rfl)).bind (.blank ?_ rfl) fun _ _ => .of_cons rfl
    exact (branch_takes (listed left readsLeft (by simp [Inst.operands]))
      (listed right readsRight (by simp [Inst.operands])) isName).map _
  | jump isName =>
    have isLabel := Draft.labelName_label labels
    have written (l : LabelId) : (p.showInst (.jump l)).toList =
        "goto".toList ++ ' ' :: ((p.labelName l).toList ++ [';']) := by
      simp [Procedure.showInst]
    rw [written, isLabel]
    refine (identifier_takes (word_of_decide rfl rfl)).bind (.blank ?_ rfl) fun _ _ => .of_cons rfl
    exact (jumpTarget_takes d isName).map _
  | @ret value reads =>
    cases value with
    | none =>
      have written : (p.showInst (.ret none)).toList = "return".toList ++ [';'] := by
        simp [Procedure.showInst]
      rw [written]
      refine (identifier_takes (word_of_decide rfl rfl)).bind ?_ fun _ _ => .of_cons rfl
      have takes : Takes (Reader.ret d) [';'] (.ret none) Anything :=
        (tryChar_takes rfl).last (.pure _ _)
      exact takes.map _
    | some o =>
      have listed := listed o (reads o rfl) (by simp [Inst.operands])
      have written : (p.showInst (.ret (some o))).toList =
          "return".toList ++ ' ' :: ((p.showOperand o).toList ++ [';']) := by
        simp [Procedure.showInst]
      rw [written]
      refine (identifier_takes (word_of_decide rfl rfl)).bind (.blank ?_ rfl)
        fun _ _ => .of_cons rfl
      have takes : Takes (Reader.ret d) ((p.showOperand o).toList ++ [';'])
          (.ret (some o)) Anything := by
        refine (tryChar_lacks ';').look ?_ fun rest _ => ?_
        · refine (operand_takes listed).bind ?_ fun _ _ => .of_cons rfl
          exact (expect_takes rfl).last (.pure _ _)
        · rw [append_assoc]
          exact lacks_showOperand listed _ rfl rfl
      exact takes.map _
  | @invoke callee args isName plain reads =>
    have written : (p.showInst (.call none (.external callee) args)).toList =
        callee.toList ++ '(' ::
        ((commaList (args.map p.showOperand)).toList ++ [')'] ++ [';']) := by
      simp [Procedure.showInst, Callee.name]
    rw [written]
    exact statement_takes_invoke isName plain fun o mem => listed o (reads o mem) mem
  | @store base field src leads isField reads =>
    have written : (p.showInst (.store base field src)).toList = (d.proc.varName base).toList ++
        '.' :: (field.toList ++ ' ' :: '=' :: ' ' :: ((p.showOperand src).toList ++ [';'])) := by
      simp [Procedure.showInst, shown.showVar]
    rw [written]
    exact statement_takes_store leads isField (listed src reads (by simp [Inst.operands]))
  | @assign dst src leads reads =>
    have written : (p.showInst (.assign dst src)).toList = (d.proc.varName dst).toList ++
        ' ' :: '=' :: ' ' :: ((p.showOperand src).toList ++ [] ++ [';']) := by
      simp [Procedure.showInst, shown.showVar]
    rw [written]
    refine statement_takes_assignment shown leads ?_
    exact assignment_takes_operand (listed src reads (by simp [Inst.operands]))
      afterOperand_takes_nothing (fun _ closes => closes.ends)
        fun _ closes => closes.lacks (by decide)
  | @binary dst op left right leads readsLeft readsRight =>
    have written : (p.showInst (.binary dst op left right)).toList =
        (d.proc.varName dst).toList ++ ' ' :: '=' :: ' ' :: ((p.showOperand left).toList ++
          (' ' :: op.symbol.toList ++ ' ' :: (p.showOperand right).toList) ++ [';']) := by
      simp [Procedure.showInst, shown.showVar]
    rw [written]
    refine statement_takes_assignment shown leads ?_
    refine assignment_takes_operand (listed left readsLeft (by simp [Inst.operands]))
      (afterOperand_takes_operator op (listed right readsRight (by simp [Inst.operands])))
      (fun _ _ => .of_cons rfl) fun rest _ => ?_
    rw [append_assoc]
    exact lacks_symbol op (by cases op <;> rfl) _
  | @negate dst src leads reads =>
    have written : (p.showInst (.negate dst src)).toList = (d.proc.varName dst).toList ++
        ' ' :: '=' :: ' ' :: ('-' :: (p.showOperand src).toList ++ [';']) := by
      simp [Procedure.showInst, shown.showVar]
    rw [written]
    refine statement_takes_assignment shown leads ?_
    exact assignment_takes_minus (listed src reads (by simp [Inst.operands]))
      fun word isWord => respelt.signed dst word (isWord ▸ rfl)
  | @load dst base field leads reads isField =>
    have written : (p.showInst (.load dst base field)).toList = (d.proc.varName dst).toList ++
        ' ' :: '=' :: ' ' :: ((p.showOperand base).toList ++ '.' :: field.toList ++ [';']) := by
      simp [Procedure.showInst, shown.showVar]
    rw [written]
    refine statement_takes_assignment shown leads ?_
    exact assignment_takes_operand (listed base reads (by simp [Inst.operands]))
      (afterOperand_takes_field isField) (fun _ _ => .of_cons rfl)
      fun _ _ => .of_sign rfl
  | @call dst callee args leads isName plain reads =>
    have written : (p.showInst (.call (some dst) (.external callee) args)).toList =
        (d.proc.varName dst).toList ++ ' ' :: '=' :: ' ' ::
          (callee.toList ++ '(' :: ((commaList (args.map p.showOperand)).toList ++ [')']) ++
            [';']) := by
      simp [Procedure.showInst, Callee.name, shown.showVar]
    rw [written]
    refine statement_takes_assignment shown leads ?_
    exact (assignment_takes_call isName plain fun o mem => listed o (reads o mem) mem).weaken
      fun _ _ => trivial

end Source

end ArmBackend
