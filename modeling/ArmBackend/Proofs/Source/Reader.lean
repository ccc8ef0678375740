import ArmBackend.Proofs.Tables
import ArmBackend.Source.Text

/-!
Contract: rules for what readers give and for what they leave of a text.

Owns: the rules by which a fact about a reader is put together from its steps, that no reader moves
back in a text and a statement takes at least one character, and the form of the names that are
read. Does not own: the statements and declarations that are read.
-/

namespace ArmBackend.Source

open List hiding get

open Text

/-- A name as a text spells it: a first character that starts one, and others that go on with it. -/
def Word (name : String) : Prop :=
  ∃ first more, name.toList = first :: more ∧ Reader.startsIdentifier first = true ∧
    isBlank first = false ∧ ∀ ch ∈ more, Reader.continuesIdentifier ch = true

/-! ## Blanks and comments -/

namespace Cursor

variable {c : Cursor} {ch : Char} {rest : List Char}

theorem skipFrom_suffix (inComment : Bool) (line column : Nat) (text : List Char) :
    (skipFrom inComment line column text).rest <:+ text := by
  induction text generalizing inComment line column with
  | nil => exact suffix_refl _
  | cons ch rest ih =>
    have further : ∀ inComment line column,
        (skipFrom inComment line column rest).rest <:+ ch :: rest :=
      fun inComment line column => (ih inComment line column).trans (suffix_cons ch rest)
    rw [skipFrom]
    split
    · exact further ..
    · split
      · exact further ..
      · split
        · exact further ..
        · split
          · exact further ..
          · exact suffix_refl _

theorem skip_suffix (c : Cursor) : c.skip.rest <:+ c.rest := skipFrom_suffix ..

/-- What is left behind blanks and comments does not start with one. -/
theorem skipFrom_skipFrom (inComment : Bool) (line column : Nat) (text : List Char) :
    (skipFrom inComment line column text).skip = skipFrom inComment line column text := by
  induction text generalizing inComment line column with
  | nil => rfl
  | cons ch rest ih =>
    by_cases lineEnd : ch = '\n'
    · simp only [skipFrom, lineEnd, if_true]
      exact ih ..
    cases inComment with
    | true =>
      simp only [skipFrom, lineEnd, if_true, if_false]
      exact ih ..
    | false =>
      by_cases blank : isBlank ch = true
      · simp only [skipFrom, lineEnd, blank, if_true, if_false, Bool.false_eq_true]
        exact ih ..
      · by_cases comment : ch = '/' ∧ rest.head? = some '/'
        · rw [skipFrom, if_neg lineEnd, if_neg Bool.false_ne_true, if_neg blank, if_pos comment]
          exact ih ..
        · rw [skipFrom, if_neg lineEnd, if_neg Bool.false_ne_true, if_neg blank, if_neg comment,
            skip, skipFrom, if_neg lineEnd, if_neg Bool.false_ne_true, if_neg blank, if_neg comment]

theorem skip_skip (c : Cursor) : c.skip.skip = c.skip := skipFrom_skipFrom ..

theorem isBlank_of_skip (left : c.skip.rest = ch :: rest) : isBlank ch = false := by
  refine Bool.not_eq_true _ ▸ fun blank => ?_
  have again := congrArg (fun c : Cursor => c.rest.length) c.skip_skip
  have shorter := (skipFrom_suffix false c.skip.line (c.skip.column + ch.utf8Size) rest).length_le
  have shorter' := (skipFrom_suffix false (c.skip.line + 1) 1 rest).length_le
  rw [skip, left, skipFrom, length_cons] at again
  by_cases lineEnd : ch = '\n'
  · rw [if_pos lineEnd] at again
    omega
  · rw [if_neg lineEnd, if_neg Bool.false_ne_true, if_pos blank] at again
    omega

theorem rest_advance (left : c.rest = ch :: rest) : c.advance.rest = rest := by
  rw [advance, left]
  dsimp only
  split <;> rfl

theorem advance_suffix (c : Cursor) : c.advance.rest <:+ c.rest := by
  unfold advance
  split
  · exact suffix_refl _
  · rename_i rest is
    rw [is]
    split <;> exact suffix_cons _ _

private theorem span_suffix (test : Char → Bool) (c : Cursor) :
    (c.span test).2.rest <:+ c.rest := dropWhile_suffix test

end Cursor

/-! ## Rules -/

namespace Reader

variable {α β : Type}

variable {r s : Reader α} {c c' : Cursor} {next : α → Reader β} {a : α} {condition : Prop}

theorem bind_ok (read : r c = .ok (a, c')) : (r >>= next) c = next a c' := by
  change (r c >>= fun s => next s.1 s.2) = _
  rw [read]
  rfl

/-- Whatever the reader gives at a place, with the place it stops at, has the property. -/
def Yields (r : Reader α) (c : Cursor) (post : α → Cursor → Prop) :
    Prop := ∀ a c', r c = .ok (a, c') → post a c'

theorem Yields.pure {post : α → Cursor → Prop} (holds : post a c) :
    Yields (Pure.pure a : Reader α) c post := by
  intro a' c' result
  cases result
  exact holds

theorem Yields.bind {post : β → Cursor → Prop}
    (rest : ∀ a c', r c = .ok (a, c') → (next a).Yields c' post) : Yields (r >>= next) c post := by
  intro b c'' result
  change (r c >>= fun s => next s.1 s.2) = .ok (b, c'') at result
  cases read : r c with
  | error e => simp [read, Bind.bind, Except.bind] at result
  | ok s =>
    simp only [read, Bind.bind, Except.bind] at result
    exact rest s.1 s.2 read b c'' result

theorem Yields.fault (f : SyntaxFault) (c : Cursor) (post : α → Cursor → Prop) :
    (fault f).Yields c post := by
  intro a c' result
  cases result

theorem Yields.ite [Decidable condition] {post : α → Cursor → Prop}
    (yes : condition → r.Yields c post)
    (no : ¬ condition → s.Yields c post) : Yields (if condition then r else s) c post := by
  by_cases holds : condition
  · rw [if_pos holds]
    exact yes holds
  · rw [if_neg holds]
    exact no holds

/-- Whatever the reader gives has the property. -/
def Ensures (r : Reader α) (post : α → Prop) : Prop := ∀ c, r.Yields c fun a _ => post a

private theorem Ensures.trivial (r : Reader α) :
    r.Ensures fun _ => True := fun _ _ _ _ => True.intro

theorem Ensures.pure {post : α → Prop} (holds : post a) :
    Ensures (Pure.pure a : Reader α) post := fun _ => .pure holds

theorem Ensures.bind {mid : α → Prop} {post : β → Prop} (first : r.Ensures mid)
    (rest : ∀ a, mid a → (next a).Ensures post) :
    Ensures (r >>= next) post :=
  fun c => .bind fun a c' read => rest a (first c a c' read) c'

/-- A first step that nothing has to be known about. -/
theorem Ensures.after {post : β → Prop} (rest : ∀ a, (next a).Ensures post) :
    Ensures (r >>= next) post :=
  (Ensures.trivial r).bind fun a _ => rest a

theorem Ensures.fault (f : SyntaxFault) (post : α → Prop) :
    (fault f).Ensures post := fun c => .fault f c _

theorem Ensures.ite [Decidable condition] {post : α → Prop} (yes : condition → r.Ensures post)
    (no : ¬ condition → s.Ensures post) :
    Ensures (if condition then r else s) post :=
  fun c => .ite (fun holds => yes holds c) (fun fails => no fails c)

/-- The reader never moves back. -/
def Forward (r : Reader α) : Prop := ∀ c, r.Yields c fun _ c' => c'.rest <:+ c.rest

theorem Forward.pure (a : α) : Forward (Pure.pure a : Reader α) :=
  fun c => .pure (suffix_refl c.rest)

theorem Forward.fault (f : SyntaxFault) : Forward (fault f : Reader α) := fun c => .fault f c _

theorem Forward.bind (first : r.Forward) (rest : ∀ a, (next a).Forward) : Forward (r >>= next) :=
  fun c => .bind fun a c' read b c'' last => (rest a c' b c'' last).trans (first c a c' read)

theorem Forward.ite [Decidable condition] (yes : r.Forward) (no : s.Forward) :
    Forward (if condition then r else s) :=
  fun c => .ite (fun _ => yes c) (fun _ => no c)

theorem Forward.get : Forward (MonadState.get : Reader Cursor) := by
  intro c a c' result
  cases result
  exact suffix_refl _

theorem Forward.modifyGet {f : Cursor → α × Cursor} (moves : ∀ c, (f c).2.rest <:+ c.rest) :
    Forward (MonadState.modifyGet f : Reader α) := by
  intro c a c' result
  have moved := moves c
  rw [show f c = (a, c') from Except.ok.inj result] at moved
  exact moved

theorem Forward.modify {f : Cursor → Cursor} (moves : ∀ c, (f c).rest <:+ c.rest) :
    Forward (modify f : Reader Unit) := Forward.modifyGet moves

/-! ## Tokens -/

theorem skip_eq (c : Cursor) : skip c = .ok ((), c.skip) := rfl

theorem peek?_eq (c : Cursor) : peek? c = .ok (c.rest.head?, c) := rfl

theorem skip_forward : Forward skip := .modify Cursor.skip_suffix

theorem peek?_forward : Forward peek? := Forward.get.bind fun _ => .pure _

theorem tryChar_forward (wanted : Char) : Forward (tryChar wanted) :=
  skip_forward.bind fun _ => peek?_forward.bind fun _ =>
    .ite ((Forward.modify Cursor.advance_suffix).bind fun _ => .pure _) (.pure _)

theorem expect_forward (wanted : Char) : Forward (expect wanted) :=
  (tryChar_forward wanted).bind fun _ => .ite (.pure _) (peek?_forward.bind fun _ => .fault _)

theorem tryChar_eq_false {wanted : Char} (read : tryChar wanted c = .ok (false, c')) :
    c' = c.skip := by
  change (if c.skip.rest.head? = some wanted then _ else _ : Reader Bool) c.skip = _ at read
  by_cases next : c.skip.rest.head? = some wanted
  · rw [if_pos next] at read
    cases read
  · rw [if_neg next] at read
    cases read
    rfl

theorem identifier_skip (c : Cursor) : identifier c.skip = identifier c := by
  rw [identifier, bind_ok (skip_eq _), bind_ok (skip_eq _), Cursor.skip_skip]

/-- A name that is read is a word. -/
theorem identifier_eq_ok {name : String} (read : identifier c = .ok (name, c')) :
    Word name ∧ c.skip.rest = name.toList ++ c'.rest := by
  rw [identifier, bind_ok (skip_eq _), bind_ok (peek?_eq _)] at read
  cases left : c.skip.rest with
  | nil =>
    rw [left] at read
    cases read
  | cons first rest =>
    rw [left] at read
    by_cases starts : startsIdentifier first = true
    · simp only [head?_cons, starts, if_true] at read
      have moved := Cursor.rest_advance left
      obtain ⟨rfl, rfl⟩ := Prod.mk.inj (Except.ok.inj read)
      rw [moved, String.toList_ofList, cons_append, takeWhile_append_dropWhile]
      exact ⟨⟨first, _, String.toList_ofList, starts, Cursor.isBlank_of_skip left, fun ch mem =>
        all_eq_true.mp all_takeWhile ch mem⟩, rfl⟩
    · simp only [head?_cons, starts, Bool.false_eq_true, if_false] at read
      cases read

theorem identifier_forward : Forward identifier := by
  intro c name c' read
  have left := (identifier_eq_ok read).2
  exact (left ▸ suffix_append ..).trans c.skip_suffix

theorem identifier_shortens {name : String} (read : identifier c = .ok (name, c')) :
    c'.rest.length < c.rest.length := by
  obtain ⟨⟨first, more, isName, -⟩, left⟩ := identifier_eq_ok read
  have shorter := c.skip_suffix.length_le
  rw [left, length_append, isName, length_cons] at shorter
  omega

theorem ty_yields (c : Cursor) :
    ty.Yields c fun t c' => ∃ type, identifier c = .ok (type, c') ∧ t = tyOfName type :=
  .bind fun type _ read => .pure ⟨type, read, rfl⟩

/-! ## Looking ahead -/

theorem peekIdentifier?_eq (c : Cursor) :
    peekIdentifier? c = .ok ((identifier c).toOption.map Prod.fst, c) := by
  simp only [peekIdentifier?, bind, StateT.bind, Except.bind, get, getThe, MonadStateOf.get,
    StateT.get, pure, Except.pure]
  cases identifier c <;> rfl

theorem peekAfterIdentifier?_eq (c : Cursor) :
    peekAfterIdentifier? c = .ok ((identifier c).toOption.bind (·.2.skip.rest.head?), c) := by
  simp only [peekAfterIdentifier?, bind, StateT.bind, Except.bind, get, getThe, MonadStateOf.get,
    StateT.get, pure, Except.pure]
  cases identifier c <;> rfl

theorem atIdentifier_eq (name : String) (c : Cursor) :
    atIdentifier name c = .ok (decide ((identifier c).toOption.map Prod.fst = some name), c) := by
  simp only [atIdentifier, bind, StateT.bind, Except.bind, peekIdentifier?_eq]
  rfl

/-- A call stands where a name that is no truth value is followed by an opening parenthesis. -/
theorem atCall_eq (c : Cursor) :
    atCall c = .ok (decide (((identifier c).toOption.map Prod.fst).isSome ∧
      (identifier c).toOption.bind (·.2.skip.rest.head?) = some '(' ∧
      (identifier c).toOption.map Prod.fst ≠ some "true" ∧
      (identifier c).toOption.map Prod.fst ≠ some "false"), c) := by
  simp only [atCall, bind, StateT.bind, Except.bind, peekIdentifier?_eq, peekAfterIdentifier?_eq]
  rfl

theorem atIdentifier_forward (name : String) : Forward (atIdentifier name) := by
  intro c a c' look
  rw [atIdentifier_eq] at look
  cases look
  exact suffix_refl _

theorem peekAfterIdentifier?_forward : Forward peekAfterIdentifier? := by
  intro c a c' look
  rw [peekAfterIdentifier?_eq] at look
  cases look
  exact suffix_refl _

theorem atCall_forward : Forward atCall := by
  intro c a c' look
  rw [atCall_eq] at look
  cases look
  exact suffix_refl _

/-! ## Literals and operands -/

theorem word_forward : Forward word := by
  refine skip_forward.bind fun _ => (Forward.modifyGet fun c => ?_).bind fun sign =>
    (Forward.modifyGet (Cursor.span_suffix _)).bind fun digits => ?_
  · split
    · exact c.advance_suffix
    · exact suffix_refl _
  · split
    · exact .pure _
    · exact .fault _

theorem stringRest_forward (rounds : Nat) : Forward (stringRest rounds) := by
  have step : Forward (modify Cursor.advance : Reader Unit) := .modify Cursor.advance_suffix
  induction rounds with
  | zero => exact .fault _
  | succ rounds ih =>
    refine peek?_forward.bind fun next => ?_
    split
    · exact .fault _
    · refine step.bind fun _ => .ite (.pure _) (.ite (peek?_forward.bind fun next => ?_) ?_)
      · split
        · exact .fault _
        · refine step.bind fun _ => .ite (Forward.get.bind fun _ => ?_) ?_
          · refine (Forward.modify fun c => ?_).bind fun _ => ?_
            · exact (c.advance.advance_suffix).trans c.advance_suffix
            · split
              · exact ih.bind fun _ => .pure _
              · exact .fault _
          · split
            · exact ih.bind fun _ => .pure _
            · exact .fault _
      · exact ih.bind fun _ => .pure _

theorem stringLiteral_forward : Forward stringLiteral :=
  (expect_forward _).bind fun _ => Forward.get.bind fun _ => (stringRest_forward _).bind fun _ =>
    .pure _

theorem lookup_forward (d : Draft) (name : String) : Forward (lookup d name) := by
  unfold lookup
  split
  · exact .pure _
  · exact .fault _

theorem operand_forward (d : Draft) : Forward (operand d) := by
  refine skip_forward.bind fun _ => peek?_forward.bind fun next => ?_
  split
  · exact .fault _
  · refine .ite (stringLiteral_forward.bind fun _ => .pure _)
      (.ite (word_forward.bind fun _ => .pure _) (identifier_forward.bind fun name => ?_))
    exact .ite (.pure _)
      (.ite (.pure _) (.ite (.pure _) ((lookup_forward d name).bind fun _ => .pure _)))

theorem moreArguments_forward (d : Draft) (rounds : Nat) : Forward (moreArguments d rounds) := by
  induction rounds with
  | zero => exact .fault _
  | succ rounds ih =>
    exact (operand_forward d).bind fun _ => (tryChar_forward _).bind fun _ => .ite (.pure _)
      ((expect_forward _).bind fun _ => ih.bind fun _ => .pure _)

theorem arguments_forward (d : Draft) : Forward (arguments d) :=
  (tryChar_forward _).bind fun _ => .ite (.pure _)
    (Forward.get.bind fun _ => moreArguments_forward d _)

theorem comparison_forward : Forward comparison := by
  refine skip_forward.bind fun _ => Forward.get.bind fun c => ?_
  split
  · rename_i op length is
    clear is
    refine (Forward.modify fun c => ?_).bind fun _ => .pure _
    induction length with
    | zero => exact suffix_refl _
    | succ length ih =>
      exact (Cursor.advance_suffix _).trans ih
  · exact peek?_forward.bind fun _ => .fault _

theorem binaryOp?_forward : Forward binaryOp? :=
  (tryChar_forward _).bind fun _ => .ite (.pure _) <| (tryChar_forward _).bind fun _ =>
    .ite (.pure _) <| (tryChar_forward _).bind fun _ => .ite (.pure _) <|
      (tryChar_forward _).bind fun _ => .ite (.pure _) <| (atIdentifier_forward _).bind fun _ =>
        .ite (identifier_forward.bind fun _ => .pure _) (.pure _)

theorem atNegation_forward : Forward atNegation := by
  refine Forward.get.bind fun c => ?_
  split <;> exact .pure _

/-! ## Statements -/

theorem assignment_forward (d : Draft) (dst : VarId) : Forward (assignment d dst) := by
  refine skip_forward.bind fun _ => atNegation_forward.bind fun _ => .ite ?_ ?_
  · exact (Forward.modify Cursor.advance_suffix).bind fun _ =>
      (operand_forward d).bind fun _ => .pure _
  · refine atCall_forward.bind fun _ => .ite ?_ ?_
    · exact identifier_forward.bind fun _ => (expect_forward _).bind fun _ =>
        (arguments_forward d).bind fun _ => .pure _
    · refine (operand_forward d).bind fun left => (tryChar_forward _).bind fun _ => .ite ?_ ?_
      · exact identifier_forward.bind fun _ => .pure _
      · refine binaryOp?_forward.bind fun op => ?_
        cases op with
        | none => exact .pure _
        | some op => exact (operand_forward d).bind fun _ => .pure _

theorem jumpTarget_forward (d : Draft) : Forward (jumpTarget d) :=
  identifier_forward.bind fun _ => (expect_forward _).bind fun _ => .pure _

theorem branch_forward (d : Draft) : Forward (branch d) :=
  (expect_forward _).bind fun _ => (operand_forward d).bind fun _ =>
    comparison_forward.bind fun _ => (operand_forward d).bind fun _ =>
      (expect_forward _).bind fun _ => identifier_forward.bind fun _ =>
        .ite ((Forward.fault _).bind fun _ => (jumpTarget_forward d).bind fun _ => .pure _)
          ((jumpTarget_forward d).bind fun _ => .pure _)

theorem ret_forward (d : Draft) : Forward (ret d) :=
  (tryChar_forward _).bind fun _ => .ite (.pure _)
    ((operand_forward d).bind fun _ => (expect_forward _).bind fun _ => .pure _)

theorem marker_forward (d : Draft) (name : String) :
    Forward (marker d name) := .ite (.fault _) (.pure _)

theorem declare_forward (d : Draft) (isArg : Bool) (name : String) (t : Ty) :
    Forward (declare d isArg name t) :=
  .ite (.fault _) (.ite (.pure _) (.pure _))

theorem statement_shortens {d : Draft} {c c' : Cursor} {r : Option Inst × Draft}
    (read : statement d c = .ok (r, c')) : c'.rest <:+ c.rest ∧ c'.rest.length < c.rest.length := by
  have named : (statement d).Yields c fun _ c' => ∃ first c₁, identifier c = .ok (first, c₁) ∧
      c'.rest <:+ c₁.rest := by
    refine .bind fun first c₁ readFirst => ?_
    have further : ∀ {α : Type} {rest : Reader α}, rest.Forward → rest.Yields c₁ fun _ c' =>
        ∃ first c₁, identifier c = .ok (first, c₁) ∧ c'.rest <:+ c₁.rest :=
      fun forward a c' read => ⟨first, c₁, readFirst, forward c₁ a c' read⟩
    apply further
    refine .ite ((branch_forward d).bind fun _ => .pure _)
      (.ite ((jumpTarget_forward d).bind fun _ => .pure _)
        (.ite ((ret_forward d).bind fun _ => .pure _)
          ((tryChar_forward _).bind fun _ => .ite ?_ ?_)))
    · exact (marker_forward d first).bind fun _ => .pure _
    · refine peekAfterIdentifier?_forward.bind fun _ => .ite ?_ ((tryChar_forward _).bind fun _ =>
        .ite ?_ ((tryChar_forward _).bind fun _ => .ite ?_ ?_))
      · exact identifier_forward.bind fun _ => (expect_forward _).bind fun _ =>
          (declare_forward d _ _ _).bind fun _ => .pure _
      · exact (arguments_forward d).bind fun _ => (expect_forward _).bind fun _ => .pure _
      · exact identifier_forward.bind fun _ => (expect_forward _).bind fun _ =>
          (operand_forward d).bind fun _ => (expect_forward _).bind fun _ =>
            (lookup_forward d first).bind fun _ => .pure _
      · exact (lookup_forward d first).bind fun dst => (expect_forward _).bind fun _ =>
          (assignment_forward d dst).bind fun _ => (expect_forward _).bind fun _ => .pure _
  obtain ⟨first, c₁, readFirst, behind⟩ := named r c' read
  refine ⟨behind.trans (identifier_forward c first c₁ readFirst), ?_⟩
  exact Nat.lt_of_le_of_lt behind.length_le (identifier_shortens readFirst)

/-! ## Declarations -/

theorem fields_forward (rounds : Nat) : Forward (fields rounds) := by
  induction rounds with
  | zero => exact .fault _
  | succ rounds ih =>
    exact (tryChar_forward _).bind fun _ => .ite (.pure _) <|
      (identifier_forward.bind fun _ => .pure _).bind fun _ => identifier_forward.bind fun _ =>
        (expect_forward _).bind fun _ => ih.bind fun _ => .pure _

theorem classLayout_forward (program : Program) : Forward (classLayout program) := by
  refine identifier_forward.bind fun _ => identifier_forward.bind fun name => ?_
  have continued : Forward (expect '\x7b' >>= fun _ => get >>= fun c =>
      fields (c.rest.length + 1) >>= fun more => (pure ⟨name, more⟩ : Reader ClassLayout)) :=
    (expect_forward _).bind fun _ => Forward.get.bind fun _ => (fields_forward _).bind
      fun _ => .pure _
  exact .ite ((Forward.fault _).bind fun _ => continued) continued

theorem formals_forward (rounds : Nat) (d : Draft) : Forward (formals d rounds) := by
  induction rounds generalizing d with
  | zero => exact .fault _
  | succ rounds ih =>
    exact (identifier_forward.bind fun _ => .pure _).bind fun _ => identifier_forward.bind fun _ =>
      (declare_forward d _ _ _).bind fun d' => (tryChar_forward _).bind fun _ => .ite (.pure _)
        ((expect_forward _).bind fun _ => ih d')

theorem body_forward (name : String) (rounds : Nat) (d : Draft) : Forward (body name d rounds) := by
  induction rounds generalizing d with
  | zero => exact .fault _
  | succ rounds ih =>
    exact (tryChar_forward _).bind fun _ => .ite (.pure _) <| peek?_forward.bind fun _ =>
      .ite (.fault _) <| Forward.bind (fun c r c' read => (statement_shortens read).1) fun r =>
        (ih r.2).bind fun _ => .pure _

theorem procedure_forward (program : Program) : Forward (procedure program) := by
  refine (identifier_forward.bind fun _ => .pure _).bind fun returns => identifier_forward.bind
    fun name => ?_
  have continued : ∀ d : Draft, Forward (expect '\x7b' >>= fun _ => get >>= fun c =>
      body name d (c.rest.length + 1) >>= fun r =>
        (pure (r.2.proc.setInsts Procedure.entry r.1) : Reader Procedure)) := fun d =>
    (expect_forward _).bind fun _ => Forward.get.bind fun _ => (body_forward name _ d).bind fun _ =>
      .pure _
  refine .ite ((Forward.fault _).bind fun _ => ?_) ?_ <;>
    exact (expect_forward _).bind fun _ => (tryChar_forward _).bind fun _ =>
      .ite ((Forward.pure _).bind continued)
        (Forward.get.bind fun _ => (formals_forward _ _).bind continued)

end Reader

end ArmBackend.Source
