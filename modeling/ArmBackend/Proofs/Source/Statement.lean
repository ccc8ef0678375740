import ArmBackend.Proofs.Source.Reader

/-!
Contract: what reading a statement does to the draft of its procedure.

Owns: the relation between a draft, the instruction that a statement gives and the draft it leaves,
with all that the reader has checked by then, and that every statement that is read is in it.
Does not own: which properties of drafts and procedures follow.
-/

namespace ArmBackend.Source

open List

/-- Words that start statements of their own. -/
def commands : List String := ["if", "goto", "return"]

/-- Words that stand for values. -/
def constants : List String := ["true", "false", "null", "NULL"]

namespace Draft

variable {d : Draft} {name : String} {v : VarId}

/-- A variable that the draft finds under its name. -/
def Finds (d : Draft) (v : VarId) : Prop := d.var? (d.proc.varName v) = some v

/-- A variable that can stand at the start of a statement. -/
def Leads (d : Draft) (v : VarId) : Prop := d.Finds v ∧ d.proc.varName v ∉ commands

/-- An operand that can be read. -/
def Reads (d : Draft) : Operand → Prop
  | .var v => d.Finds v ∧ d.proc.varName v ∉ constants
  | _ => True

/-- What a statement does to a draft, with the instruction that it gives. -/
inductive Step (d : Draft) : Option Inst → Draft → Prop
  | declare {type name : String} (isType : Word type) (isName : Word name)
      (plain : type ∉ keywords) (new : d.var? name = none) :
      Step d none { d with proc := d.proc.addLocal name (tyOfName type) }
  | mark {name : String} (isName : Word name) (plain : name ∉ commands)
      (unmarked : (d.label name).1 ∉ (d.label name).2.marked) :
      Step d (some (.label (d.label name).1))
        { (d.label name).2 with marked := (d.label name).1 :: (d.label name).2.marked }
  | branch {op : Comparison} {left right : Operand} {name : String} (readsLeft : d.Reads left)
      (readsRight : d.Reads right) (isName : Word name) :
      Step d (some (.branch op left right (d.label name).1)) (d.label name).2
  | jump {name : String} (isName : Word name) :
      Step d (some (.jump (d.label name).1)) (d.label name).2
  | ret {value : Option Operand} (reads : ∀ o ∈ value, d.Reads o) : Step d (some (.ret value)) d
  | invoke {callee : String} {args : List Operand} (isName : Word callee)
      (plain : callee ∉ commands)
      (reads : ∀ o ∈ args, d.Reads o) : Step d (some (.call none (.external callee) args)) d
  | store {base : VarId} {field : String} {src : Operand} (leads : d.Leads base)
      (isField : Word field) (reads : d.Reads src) : Step d (some (.store base field src)) d
  | assign {dst : VarId} {src : Operand} (leads : d.Leads dst) (reads : d.Reads src) :
      Step d (some (.assign dst src)) d
  | binary {dst : VarId} {op : BinaryOp} {left right : Operand} (leads : d.Leads dst)
      (readsLeft : d.Reads left) (readsRight : d.Reads right) :
      Step d (some (.binary dst op left right)) d
  | negate {dst : VarId} {src : Operand} (leads : d.Leads dst) (reads : d.Reads src) :
      Step d (some (.negate dst src)) d
  | load {dst : VarId} {base : Operand} {field : String} (leads : d.Leads dst)
      (reads : d.Reads base) (isField : Word field) : Step d (some (.load dst base field)) d
  | call {dst : VarId} {callee : String} {args : List Operand} (leads : d.Leads dst)
      (isName : Word callee) (plain : callee ≠ "true" ∧ callee ≠ "false")
      (reads : ∀ o ∈ args, d.Reads o) : Step d (some (.call (some dst) (.external callee) args)) d

theorem varName_of_var? (found : d.var? name = some v) : d.proc.varName v = name := by
  obtain ⟨inRange, same, -⟩ := Array.findIdx?_eq_some_iff_getElem.mp found
  rw [Procedure.varName, Procedure.var, Array.getD_eq_getD_getElem?,
    Array.getElem?_eq_getElem inRange]
  exact beq_iff_eq.mp same

theorem finds_of_var? (found : d.var? name = some v) :
    d.Finds v := by rw [Finds, varName_of_var? found, found]

theorem Finds.lt (finds : d.Finds v) : v < d.proc.nextVar := by
  obtain ⟨inRange, -⟩ := Array.findIdx?_eq_some_iff_getElem.mp finds
  exact inRange

end Draft

namespace Reader

open Draft

variable {name : String}

theorem identifier_ensures : identifier.Ensures Word := fun _ _ _ read => (identifier_eq_ok read).1

theorem lookup_ensures (d : Draft) (name : String) :
    (lookup d name).Ensures fun v => d.var? name = some v := by
  unfold lookup
  cases found : d.var? name with
  | none => exact .fault _ _
  | some v => exact .pure rfl

theorem operand_ensures (d : Draft) : (operand d).Ensures d.Reads := by
  refine .after fun _ => .after fun next => ?_
  cases next with
  | none => exact .fault _ _
  | some ch =>
    refine .ite (fun _ => .after fun text => .pure trivial) fun _ => .ite ?_ fun _ => ?_
    · exact fun _ => .after fun word => .pure trivial
    · refine .after fun name => .ite (fun _ => .pure trivial) fun notTrue =>
        .ite (fun _ => .pure trivial) fun notFalse => .ite (fun _ => .pure trivial)
          fun notNull => ?_
      refine (lookup_ensures d name).bind fun v found => .pure ⟨finds_of_var? found, ?_⟩
      rw [varName_of_var? found]
      simp only [not_or] at notNull
      simp [constants, notTrue, notFalse, notNull]

private theorem moreArguments_ensures (d : Draft) (rounds : Nat) :
    (moreArguments d rounds).Ensures fun args => ∀ o ∈ args, d.Reads o := by
  induction rounds with
  | zero => exact .fault _ _
  | succ rounds ih =>
    refine (operand_ensures d).bind fun arg reads => .after fun closed =>
      .ite (fun _ => .pure (forall_mem_singleton.mpr reads)) fun _ => ?_
    exact .after fun _ => ih.bind fun more readsMore =>
      .pure (forall_mem_cons.mpr ⟨reads, readsMore⟩)

theorem arguments_ensures (d : Draft) :
    (arguments d).Ensures fun args => ∀ o ∈ args, d.Reads o := by
  refine .after fun closed => .ite (fun _ => .pure (forall_mem_nil _)) fun _ => ?_
  exact .after fun c => moreArguments_ensures d _

private theorem atCall_eq_ok {c c' c₁ : Cursor} {called : Bool} (look : atCall c = .ok (called, c'))
    (holds : called = true)
    (read : identifier c' = .ok (name, c₁)) : name ≠ "true" ∧ name ≠ "false" := by
  rw [atCall_eq] at look
  obtain ⟨isCalled, rfl⟩ := Prod.mk.inj (Except.ok.inj look)
  obtain ⟨-, -, notTrue, notFalse⟩ := of_decide_eq_true (isCalled.trans holds)
  simpa [read, Except.toOption] using And.intro notTrue notFalse

private theorem assignment_ensures (d : Draft) (dst : VarId) (leads : d.Leads dst) :
    (assignment d dst).Ensures fun i => Step d (some i) d := by
  refine .after fun _ => .after fun negated => .ite (fun _ => .after fun _ => ?_) fun _ => ?_
  · exact (operand_ensures d).bind fun src reads => .pure (.negate leads reads)
  intro c
  refine .bind fun called c' isCall => .ite (fun holds => ?_) fun _ => ?_
  · refine .bind fun callee c₁ readName => Ensures.after (fun _ => ?_) c₁
    exact (arguments_ensures d).bind fun args reads =>
      .pure (.call leads (identifier_eq_ok readName).1 (atCall_eq_ok isCall holds readName) reads)
  · refine Ensures.bind (operand_ensures d)
      (fun left readsLeft => .after fun dotted => .ite ?_ ?_) c'
    · exact fun _ => identifier_ensures.bind fun field isField =>
        .pure (.load leads readsLeft isField)
    · refine fun _ => .after fun op => ?_
      cases op with
      | none => exact .pure (.assign leads readsLeft)
      | some op =>
        exact (operand_ensures d).bind fun right readsRight =>
          .pure (.binary leads readsLeft readsRight)

theorem jumpTarget_ensures (d : Draft) :
    (jumpTarget d).Ensures fun r => ∃ name, Word name ∧ r = d.label name :=
  identifier_ensures.bind fun name isName => .after fun _ => .pure ⟨name, isName, rfl⟩

private theorem branch_ensures (d : Draft) : (branch d).Ensures fun r => Step d (some r.1) r.2 := by
  refine .after fun _ => (operand_ensures d).bind fun left readsLeft => .after fun op =>
    (operand_ensures d).bind fun right readsRight => .after fun _ => .after fun word => ?_
  have continued : Ensures (jumpTarget d >>= fun r =>
      (pure (.branch op left right r.1, r.2) : Reader (Inst × Draft)))
      fun r => Step d (some r.1) r.2 := by
    refine (jumpTarget_ensures d).bind fun r isLabel => .pure ?_
    obtain ⟨name, isName, rfl⟩ := isLabel
    exact .branch readsLeft readsRight isName
  exact .ite (fun _ => .after fun _ => continued) fun _ => continued

private theorem ret_ensures (d : Draft) : (ret d).Ensures fun i => Step d (some i) d := by
  refine .after fun closed => .ite (fun _ => .pure (.ret (by simp))) fun _ => ?_
  refine (operand_ensures d).bind fun value reads => .after fun _ => .pure (.ret ?_)
  simpa using reads

private theorem marker_ensures (d : Draft) (isName : Word name) (plain : name ∉ commands) :
    (marker d name).Ensures fun r => Step d (some r.1) r.2 := by
  unfold marker
  refine .ite (fun _ => .fault _ _) fun unmarked => .pure (.mark isName plain ?_)
  rwa [List.contains_iff_mem] at unmarked

private theorem declare_ensures (d : Draft) {type : String} (isType : Word type)
    (isName : Word name) (plain : type ∉ keywords) :
    (declare d false name (tyOfName type)).Ensures fun d' => Step d none d' := by
  refine .ite (fun _ => .fault _ _) fun new => .pure (.declare isType isName plain ?_)
  rwa [Bool.not_eq_true, Option.isSome_eq_false_iff, Option.isNone_iff_eq_none] at new

theorem statement_ensures (d : Draft) : (statement d).Ensures fun r => Step d r.1 r.2 := by
  refine identifier_ensures.bind fun first isFirst => ?_
  refine .ite (fun _ => ?_) fun notIf => .ite (fun _ => ?_) fun notGoto => .ite (fun _ => ?_)
    fun notReturn => ?_
  · exact (branch_ensures d).bind fun r step => .pure step
  · refine (jumpTarget_ensures d).bind fun r isLabel => .pure ?_
    obtain ⟨name, isName, rfl⟩ := isLabel
    exact .jump isName
  · exact (ret_ensures d).bind fun i step => .pure step
  have plain : first ∉ commands := by simp [commands, notIf, notGoto, notReturn]
  refine .after fun marked => .ite (fun _ => ?_) fun _ => .after
    fun next => .ite (fun declared => ?_)
    fun _ => .after fun called => .ite (fun _ => ?_) fun _ => .after
      fun dotted => .ite (fun _ => ?_)
    fun _ => ?_
  · exact (marker_ensures d isFirst plain).bind fun r step => .pure step
  · have notKeyword : first ∉ keywords := by
      rw [Bool.and_eq_true, Bool.not_eq_true', ← Bool.not_eq_true,
        List.contains_iff_mem] at declared
      exact declared.1
    refine identifier_ensures.bind fun name isName => .after fun _ => ?_
    exact (declare_ensures d isFirst isName notKeyword).bind fun d' step => .pure step
  · exact (arguments_ensures d).bind fun args reads => .after fun _ =>
      .pure (.invoke isFirst plain reads)
  · refine identifier_ensures.bind fun field isField => .after fun _ =>
      (operand_ensures d).bind fun src reads => .after fun _ =>
        (lookup_ensures d first).bind fun base found => .pure
          (.store ⟨finds_of_var? found, ?_⟩ isField reads)
    rwa [varName_of_var? found]
  · refine (lookup_ensures d first).bind fun dst found => .after fun _ =>
      (assignment_ensures d dst ⟨finds_of_var? found, ?_⟩).bind fun i step => .after
        fun _ => .pure step
    rwa [varName_of_var? found]

end Reader

end ArmBackend.Source
