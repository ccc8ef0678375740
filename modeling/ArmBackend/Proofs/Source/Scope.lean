import ArmBackend.Proofs.Source

/-!
Contract: a program that was read from a text is well scoped.

Owns: where in the text each variable is declared and each instruction stands, so that variables are
numbered in the order of their declarations and an instruction mentions only what was declared
before it; that names are given once; and which calls are calls of procedures.
-/

namespace ArmBackend

open List

namespace Source

open Reader

/-- Of two places in one text, the one with more of it left is the earlier. -/
def Cursor.Before (a b : Cursor) : Prop := b.rest.length < a.rest.length

theorem Cursor.Before.of_suffix {a b c : Cursor} (before : a.Before b)
    (behind : c.rest <:+ b.rest) : a.Before c := Nat.lt_of_le_of_lt behind.length_le before

/-- A type and a name: how every declaration starts. -/
def Reader.declaration : Reader (Ty × String) := do
  let t ← ty
  let name ← identifier
  return (t, name)

theorem declaration_eq {c c₁ c₂ : Cursor} {type name : String}
    (readType : identifier c = .ok (type, c₁)) (readName : identifier c₁ = .ok (name, c₂)) :
    declaration c = .ok ((tyOfName type, name), c₂) := by
  rw [declaration, ty, bind_ok (bind_ok readType), bind_ok readName]
  rfl

end Source

open Source Source.Reader

/-- Where the variables of a procedure are declared and where its instructions stand in a text. -/
structure Procedure.Placed (text : List Char) (names : List String) (p : Procedure)
    (declared : List Cursor) (body : List (Cursor × Inst)) : Prop where
  count : declared.length = p.vars.size
  declarations : ∀ (v : VarId) a, declared[v]? = some a → a.rest <:+ text ∧
    ∃ c, declaration a = .ok (((p.var v).ty, p.varName v), c)
  declaredInOrder : declared.Pairwise Cursor.Before
  insts : p.insts = body.map fun s => Program.resolveInst names s.2
  statements : ∀ s ∈ body, s.1.rest <:+ text ∧ ∃ d d' c, statement d s.1 = .ok ((some s.2, d'), c)
  statedInOrder : (body.map Prod.fst).Pairwise Cursor.Before
  earlier : ∀ s ∈ body, ∀ v ∈ s.2.defs ++ s.2.uses, ∃ a, declared[v]? = some a ∧ a.Before s.1

namespace Source

variable {d d' : Draft} {c' : Cursor}

/-! ## Places -/

/-- A statement that gives no instruction is a declaration. -/
theorem statement_declares {c : Cursor} (read : statement d c = .ok ((none, d'), c')) :
    ∃ type name c₁ c₂,
      identifier c = .ok (type, c₁) ∧ identifier c₁ = .ok (name, c₂) ∧
      d'.proc.vars = d.proc.vars.push ⟨name, tyOfName type, none, none⟩ := by
  have declares : (statement d).Yields c fun r _ => r.1 = none → ∃ type name c₁ c₂,
      identifier c = .ok (type, c₁) ∧ identifier c₁ = .ok (name, c₂) ∧
      r.2.proc.vars = d.proc.vars.push ⟨name, tyOfName type, none, none⟩ := by
    refine .bind fun first c₁ readFirst => ?_
    refine .ite (fun _ => .bind fun _ _ _ => .pure fun impossible => by cases impossible) fun _ =>
      .ite (fun _ => .bind fun _ _ _ => .pure fun impossible => by cases impossible) fun _ =>
      .ite (fun _ => .bind fun _ _ _ => .pure fun impossible => by cases impossible) fun _ => ?_
    refine .bind fun marked c₂ notMarked => .ite
      (fun _ => .bind fun _ _ _ => .pure fun impossible => by
      cases impossible) fun unmarked => .bind fun next c₃ look => .ite (fun _ => ?_) fun _ => ?_
    · refine .bind fun name c₄ readName => .bind fun _ c₅ _ => .bind fun d' c₆ declared => .pure
        fun _ => ?_
      rw [Bool.not_eq_true] at unmarked
      subst unmarked
      rw [peekAfterIdentifier?_eq] at look
      obtain ⟨-, rfl⟩ := Prod.mk.inj (Except.ok.inj look)
      rw [tryChar_eq_false notMarked, identifier_skip] at readName
      refine ⟨first, name, c₁, c₄, readFirst, readName, ?_⟩
      rw [declare] at declared
      by_cases known : (d.var? name).isSome = true
      · rw [if_pos known] at declared
        cases declared
      · rw [if_neg known, if_neg Bool.false_ne_true] at declared
        cases declared
        rfl
    · refine .bind fun _ _ _ => .ite (fun _ => .bind fun _ _ _ => .bind fun _ _ _ => .pure
        fun impossible => by cases impossible) fun _ => .bind fun _ _ _ => .ite (fun _ => ?_)
          fun _ => ?_
      · exact .bind fun _ _ _ => .bind fun _ _ _ => .bind fun _ _ _ => .bind fun _ _ _ =>
          .bind fun _ _ _ => .pure fun impossible => by cases impossible
      · exact .bind fun _ _ _ => .bind fun _ _ _ => .bind fun _ _ _ => .bind fun _ _ _ =>
          .pure fun impossible => by cases impossible
  exact declares (none, d') c' read rfl

/-- The declarations read up to a place. -/
structure DeclaredAt (text : List Char) (vars : Array Variable) (c : Cursor)
    (declared : List Cursor) : Prop where
  count : declared.length = vars.size
  places : ∀ (v : VarId) a, declared[v]? = some a → a.rest <:+ text ∧
    ∃ c, declaration a = .ok (((vars.getD v default).ty, (vars.getD v default).name), c)
  before : ∀ a ∈ declared, a.Before c
  inOrder : declared.Pairwise Cursor.Before
  inside : c.rest <:+ text

variable {text : List Char} {vars : Array Variable} {c : Cursor} {declared : List Cursor}

theorem DeclaredAt.later (known : DeclaredAt text vars c declared) (behind : c'.rest <:+ c.rest) :
    DeclaredAt text vars c' declared :=
  ⟨known.count, known.places, fun a mem => (known.before a mem).of_suffix behind, known.inOrder,
    behind.trans known.inside⟩

theorem DeclaredAt.push (known : DeclaredAt text vars c declared) {c₁ c₂ : Cursor}
    {type name : String} (readType : identifier c = .ok (type, c₁))
    (readName : identifier c₁ = .ok (name, c₂)) (behind : c'.rest <:+ c.rest)
    (shorter : c.Before c') :
    DeclaredAt text (vars.push ⟨name, tyOfName type, none, none⟩) c' (declared ++ [c]) := by
  refine ⟨by simp [known.count], fun v a isAt => ?_, fun a mem => ?_, ?_, behind.trans known.inside⟩
  · by_cases old : v < declared.length
    · rw [getElem?_append_left old] at isAt
      have same : (vars.push ⟨name, tyOfName type, none, none⟩).getD v default =
          vars.getD v default := by
        have inRange : v < vars.size := known.count ▸ old
        simp [Array.getD_eq_getD_getElem?, Array.getElem?_push, Nat.ne_of_lt inRange]
      rw [same]
      exact known.places v a isAt
    · have isLast : v = vars.size := by
        have inRange := (List.getElem?_eq_some_iff.mp isAt).1
        rw [length_append, length_singleton, known.count] at inRange
        exact Nat.le_antisymm (Nat.le_of_lt_succ inRange) (known.count ▸ Nat.le_of_not_lt old)
      subst isLast
      rw [← known.count, getElem?_concat_length, Option.some.injEq] at isAt
      subst isAt
      simp only [Array.getD_eq_getD_getElem?, Array.getElem?_push_size, Option.getD_some]
      exact ⟨known.inside, c₂, declaration_eq readType readName⟩
  · rcases mem_append.mp mem with old | new
    · exact (known.before a old).of_suffix behind
    · exact mem_singleton.mp new ▸ shorter
  · refine pairwise_append.mpr ⟨known.inOrder, pairwise_singleton .., fun a mem b isNew => ?_⟩
    exact mem_singleton.mp isNew ▸ known.before a mem

private theorem TracedFormals.declaredAt {places : List Cursor}
    (traced : TracedFormals d c places d' c') (known : DeclaredAt text d.proc.vars c declared) :
    DeclaredAt text d'.proc.vars c' (declared ++ places) := by
  induction traced generalizing declared with
  | nil behind =>
    rw [append_nil]
    exact known.later behind
  | @cons d d' c c₀ c₁ c₂ c' type name more behind readType readName new rest ih =>
    have forward := (identifier_forward _ _ _ readName).trans (identifier_forward _ _ _ readType)
    have shorter : c₀.Before c₂ := Nat.lt_of_le_of_lt (identifier_forward _ _ _ readName).length_le
      (identifier_shortens readType)
    rw [append_cons]
    exact ih ((known.later behind).push readType readName forward shorter)

/-- The statements read from a place on, in the scope of the declarations. -/
structure StatedAt (text : List Char) (c : Cursor) (declared : List Cursor)
    (body : List (Cursor × Inst)) : Prop where
  places : ∀ s ∈ body, s.1.rest <:+ c.rest ∧ ∃ d d' c, statement d s.1 = .ok ((some s.2, d'), c)
  inOrder : (body.map Prod.fst).Pairwise Cursor.Before
  earlier : ∀ s ∈ body, ∀ v ∈ s.2.defs ++ s.2.uses, ∃ a, declared[v]? = some a ∧ a.Before s.1

private theorem Traced.placed {trace : List (Cursor × Option Inst)} (traced : Traced d c trace d')
    (known : DeclaredAt text d.proc.vars c declared) :
    ∃ more body c', DeclaredAt text d'.proc.vars c' (declared ++ more) ∧
      body.map Prod.snd = trace.flatMap (·.2.toList) ∧ StatedAt text c (declared ++ more) body := by
  induction traced generalizing declared with
  | nil => exact ⟨[], [], _, by simpa using known, rfl, by simp, by simp, by simp⟩
  | @cons d d' d'' c c₀ c₁ o trace behind read rest ih =>
    obtain ⟨forward, shorter⟩ := statement_shortens read
    have step := statement_ensures d c₀ (o, d') c₁ read
    cases o with
    | none =>
      obtain ⟨type, name, _, _, readType, readName, isVars⟩ := statement_declares read
      have pushed := (known.later behind).push readType readName forward shorter
      rw [← isVars] at pushed
      obtain ⟨more, body, c', final, isBody, stated⟩ := ih pushed
      rw [append_assoc, singleton_append] at final stated
      refine ⟨c₀ :: more, body, c', final, isBody, fun s mem => ?_, stated.inOrder, stated.earlier⟩
      obtain ⟨after, isRead⟩ := stated.places s mem
      exact ⟨after.trans (forward.trans behind), isRead⟩
    | some i =>
      have kept : DeclaredAt text d'.proc.vars c₁ declared := by
        rw [step.vars_eq]
        exact known.later (forward.trans behind)
      obtain ⟨more, body, c', final, isBody, stated⟩ := ih kept
      refine ⟨more, (c₀, i) :: body, c', final, congrArg (i :: ·) isBody, ?_, ?_, ?_⟩
      · refine forall_mem_cons.mpr ⟨⟨behind, d, d', c₁, read⟩, fun s mem => ?_⟩
        obtain ⟨after, isRead⟩ := stated.places s mem
        exact ⟨after.trans (forward.trans behind), isRead⟩
      · refine pairwise_cons.mpr ⟨fun a mem => ?_, stated.inOrder⟩
        obtain ⟨s, inBody, rfl⟩ := mem_map.mp mem
        exact Cursor.Before.of_suffix shorter (stated.places s inBody).1
      · refine forall_mem_cons.mpr ⟨fun v mentioned => ?_, stated.earlier⟩
        -- The variable was declared when the statement was read.
        have inScope : v < declared.length := by
          rw [known.count]
          rcases mem_append.mp mentioned with isDef | isUse
          · exact step.inScope.2.defs v isDef
          · exact step.inScope.2.uses v isUse
        refine ⟨declared[v], by rw [getElem?_append_left inScope, getElem?_eq_getElem inScope], ?_⟩
        exact (known.before _ (getElem_mem inScope)).of_suffix behind

/-! ## Labels -/

theorem Draft.label_lt (numbered : d.Scoped) (name : String) :
    0 < (d.label name).1 ∧ (d.label name).1 < (d.label name).2.proc.nextLabel := by
  obtain ⟨rest, isLabels, -⟩ := numbered.labels
  have size : d.proc.nextLabel = rest.length + 1 := by
    rw [Procedure.nextLabel, ← Array.length_toList, isLabels, length_cons]
  rcases d.label_cases name with ⟨l, known, same⟩ | ⟨unknown, new⟩
  · rw [same]
    obtain ⟨k, found, rfl⟩ := Option.map_eq_some_iff.mp known
    rw [isLabels, drop_one, tail_cons] at found
    obtain ⟨inRange, -⟩ := findIdx?_eq_some_iff_getElem.mp found
    exact ⟨Nat.succ_pos k, by rw [size]; exact Nat.succ_lt_succ inRange⟩
  · rw [new]
    refine ⟨by rw [size]; exact Nat.succ_pos _, ?_⟩
    simp [Procedure.nextLabel, Procedure.newLabel]

/-- The labels that an instruction marks or jumps to. -/
def Labelled (count : Nat) (i : Inst) :
    Prop := ∀ l, i.label? = some l ∨ i.target? = some l → 0 < l ∧ l < count

private theorem Draft.Step.labelled {i : Inst} (step : d.Step (some i) d') (numbered : d.Scoped) :
    Labelled d'.proc.nextLabel i := by
  intro l mentioned
  cases step <;> simp [Inst.label?, Inst.target?] at mentioned
  all_goals
    subst mentioned
    exact Draft.label_lt numbered _

private theorem Draft.Steps.labelled {items : List (Option Inst)} (steps : d.Steps items d')
    (numbered : d.Scoped) : ∀ i ∈ items.flatMap Option.toList, Labelled d'.proc.nextLabel i := by
  induction steps with
  | nil => simp
  | @cons d d' d'' o more first rest ih =>
    have later := ih (first.grows.keeps numbered)
    rw [flatMap_cons]
    refine forall_mem_append.mpr ⟨fun i isHere l mentioned => ?_, later⟩
    obtain rfl := Option.mem_toList.mp isHere
    have inside := first.labelled numbered l mentioned
    exact ⟨inside.1, Nat.lt_of_lt_of_le inside.2 rest.stated.grows.labels.length_le⟩

namespace Reading

variable {p : Procedure}

section

variable (reading : Reading c p)

include reading

theorem final_scoped : reading.final.Scoped :=
  reading.body.steps.stated.grows.keeps reading.formal.1

theorem blocks : p.blocks = #[Block.ofInsts 0 (reading.trace.flatMap (·.2.toList))] := by
  rw [congrArg Procedure.blocks reading.isProc, Procedure.setInsts, Procedure.modifyBlock,
    reading.final_scoped.body]
  rfl

theorem insts : p.insts = reading.trace.flatMap (·.2.toList) := by
  simp [Procedure.insts, reading.blocks, Block.ofInsts]

/-- The variables and labels are those of the last draft. -/
theorem tables : p.vars = reading.final.proc.vars ∧ p.labels = reading.final.proc.labels ∧
    p.args ++ p.locals = reading.final.proc.args ++ reading.final.proc.locals := by
  rw [congrArg Procedure.vars reading.isProc, congrArg Procedure.labels reading.isProc,
    congrArg Procedure.args reading.isProc, congrArg Procedure.locals reading.isProc]
  exact ⟨rfl, rfl, rfl⟩

/-- Where the parts of a procedure stand that was read. -/
theorem placed (lt : c.rest <:+ text) (names : List String) :
    ∃ declared body, Procedure.Placed text names (Program.resolved names p) declared body := by
  have forward := (identifier_forward _ _ _ reading.readName).trans
    (identifier_forward _ _ _ reading.readType)
  have atStart : DeclaredAt text #[] reading.afterName [] :=
    ⟨rfl, by simp, by simp, by simp, forward.trans lt⟩
  have formals := reading.formals.declaredAt atStart
  obtain ⟨more, body, c', declared, isBody, stated⟩ := reading.body.placed formals
  rw [← reading.tables.1] at declared
  refine ⟨_, body, declared.count, declared.places, declared.inOrder, ?_, fun s mem => ?_,
    stated.inOrder, stated.earlier⟩
  · rw [Program.insts_resolved, reading.insts, ← isBody, map_map]
    rfl
  · obtain ⟨behind, isRead⟩ := stated.places s mem
    exact ⟨behind.trans formals.inside, isRead⟩

private theorem nodup_names : ((p.args ++ p.locals).map p.varName).Nodup := by
  have numbered := reading.final_scoped
  have names : (List.range p.vars.size).map p.varName = p.vars.toList.map Variable.name := by
    apply ext_getElem (by simp)
    intro v inRange inRange'
    have lt : v < p.vars.size := by simpa using inRange
    simp [Procedure.varName, Procedure.var, Array.getD_eq_getD_getElem?,
      Array.getElem?_eq_getElem lt]
  have isRange := reading.linear.1.declared
  rw [Procedure.nextVar] at isRange
  rw [isRange, names, reading.tables.1]
  exact numbered.names

private theorem label_injective {l m : LabelId} (posL : 0 < l) (posM : 0 < m)
    (inL : l < p.labels.size) (inM : m < p.labels.size) (same : p.labelName l = p.labelName m) :
    l = m := by
  obtain ⟨rest, isLabels, nodup⟩ := reading.final_scoped.labels
  rw [← reading.tables.2.1] at isLabels
  have name : ∀ k, k + 1 < p.labels.size → rest[k]? = some (p.labelName (k + 1)) := by
    intro k lt
    have found : p.labels.toList[k + 1]? = some (p.labelName (k + 1)) := by
      simp [Procedure.labelName, Array.getD_eq_getD_getElem?, Array.getElem?_eq_getElem lt]
    rwa [isLabels, getElem?_cons_succ] at found
  obtain ⟨l, rfl⟩ := Nat.exists_eq_add_one.mpr posL
  obtain ⟨m, rfl⟩ := Nat.exists_eq_add_one.mpr posM
  have atL := name l inL
  have atM := name m inM
  rw [same, ← atM] at atL
  have inRange : l < rest.length := by
    have size := congrArg List.length isLabels
    rw [Array.length_toList, length_cons] at size
    rw [size] at inL
    exact Nat.lt_of_succ_lt_succ inL
  rw [(getElem?_inj inRange nodup).mp atL]

end

end Reading

end Source

/-! ## Programs -/

/-- A call is resolved exactly if it names one of the procedures. -/
theorem Program.resolved_iff {p : Procedure} (unresolved : p.CallsAmong []) {names : List String}
    {dst : Option VarId} {callee : Callee} {args : List Operand}
    (mem : Inst.call dst callee args ∈ p.insts.map (resolveInst names)) :
    callee = .procedure callee.name ↔ callee.name ∈ names := by
  obtain ⟨i, inBody, resolved⟩ := mem_map.mp mem
  cases i <;> simp only [resolveInst, reduceCtorEq] at resolved
  rename_i dst' callee' args'
  cases callee' with
  | procedure name => exact absurd (unresolved _ _ _ inBody) not_mem_nil
  | external name =>
    simp only [Inst.call.injEq] at resolved
    by_cases known : names.contains name = true
    · rw [if_pos known] at resolved
      obtain ⟨-, rfl, -⟩ := resolved
      simpa [Callee.name] using known
    · rw [if_neg known] at resolved
      obtain ⟨-, rfl, -⟩ := resolved
      simpa [Callee.name] using known

/-- A program read from a text is well scoped. Names of classes, of procedures and, within a
procedure, of variables and of labels other than the entry's are given once. The variables are the
arguments and then the locals in the order of the text, and an instruction mentions only variables
that are declared before it. A label is marked at most once, the body is one block of instructions
that a text can spell, and a call is one of a procedure exactly if the program has a procedure of
that name. -/
theorem Program.wellScoped_ofText {text : String} {program : Program}
    (read : Program.ofText text = .ok program) :
    (program.classes.map (·.name)).Nodup ∧ (program.procedures.map (·.name)).Nodup ∧
    ∀ p ∈ program.procedures, ((p.args ++ p.locals).map p.varName).Nodup ∧
      p.args ++ p.locals = List.range p.vars.size ∧
      (∃ declared body, p.Placed text.toList (program.procedures.map (·.name)) declared body) ∧
      (∀ l m, 0 < l → 0 < m → l < p.labels.size → m < p.labels.size →
        p.labelName l = p.labelName m → l = m) ∧
      (∀ i ∈ p.insts, ∀ l, i.label? = some l ∨ i.target? = some l → 0 < l ∧ l < p.labels.size) ∧
      (p.insts.filterMap Inst.label?).Nodup ∧
      (∃ b, p.blocks = #[b]) ∧
      (∀ i ∈ p.insts, i.isSource = true ∨ ∃ l, i = .label l) ∧
      ∀ dst callee args, Inst.call dst callee args ∈ p.insts →
        (callee = .procedure callee.name ↔ ∃ q ∈ program.procedures, q.name = callee.name) := by
  have linear := linear_of_ofText read
  obtain ⟨unresolved, known, rfl⟩ := exists_readFrom read
  have names := unresolved.names_resolveCallees
  refine ⟨known.classNames, names ▸ known.procedureNames, fun p mem => ?_⟩
  have isLinear := linear p mem
  obtain ⟨q, inProgram, rfl⟩ := mem_map.mp mem
  obtain ⟨c, inside, ⟨reading⟩⟩ := known.procedures q inProgram
  refine ⟨reading.nodup_names, isLinear.declared, names ▸ reading.placed inside _, ?_, ?_,
    isLinear.marked, isLinear.body, fun i inBody => (isLinear.inScope i inBody).source, ?_⟩
  · exact fun l m posL posM inL inM => reading.label_injective posL posM inL inM
  · intro i inBody l mentioned
    rw [insts_resolved] at inBody
    obtain ⟨j, inOriginal, rfl⟩ := mem_map.mp inBody
    rw [label?_resolveInst, target?_resolveInst] at mentioned
    have labelled := reading.body.steps.labelled reading.formal.1
    rw [reading.insts_eq, ← reading.insts] at labelled
    change 0 < l ∧ l < q.labels.size
    rw [reading.tables.2.1]
    exact labelled j inOriginal l mentioned
  · intro dst callee args inBody
    rw [insts_resolved] at inBody
    rw [resolved_iff reading.linear.2 inBody, ← names, mem_map]

/-- A label and a call that are met before what they name, a declaration behind an instruction, and
a variable whose name starts a statement elsewhere. -/
def Program.forwardText : String :=
  "class T \x7b Int n; \x7d
Int f(T t) \x7b
L:
  Int x;
  x = g(t, 1);
  if (x < 0) goto M;
  goto L;
M:
  return x;
\x7d
Int g(T u, Int goto) \x7b
  return goto;
\x7d
"

theorem Program.wellScoped_ofText_forward : ∃ program, Program.ofText Program.forwardText =
      .ok program ∧ program.procedures.map (·.name) = ["f", "g"] ∧
      ∀ p ∈ program.procedures,
      (∃ declared body, p.Placed Program.forwardText.toList ["f", "g"] declared body) ∧
        ∀ dst callee args, Inst.call dst callee args ∈ p.insts →
          (callee = .procedure callee.name ↔ ∃ q ∈ program.procedures, q.name = callee.name) := by
  have evaluated : (Program.ofText Program.forwardText).toOption.map
      (fun program => program.procedures.map (·.name)) = some ["f", "g"] := by
    decide +kernel
  obtain ⟨program, isRead, names⟩ := Tables.exists_ok_of_map evaluated
  obtain ⟨-, -, each⟩ := Program.wellScoped_ofText isRead
  refine ⟨program, isRead, names, fun p mem => ?_⟩
  obtain ⟨-, -, placed, -, -, -, -, -, calls⟩ := each p mem
  exact ⟨names ▸ placed, calls⟩

end ArmBackend
