import ArmBackend.Proofs.FlowGraph.Form
import ArmBackend.Proofs.Source.Statement

/-!
Contract: what every procedure read from a text is.

Owns: the scoping of bodies: variables are numbered as they are declared, arguments first,
instructions mention declared ones only, no label is marked twice, and calls of procedures name
procedures of the text; and how a procedure comes from the statements of its body.
Does not own: which texts are accepted.
-/

namespace ArmBackend

open List

variable {i : Inst} {text : String} {program : Program}

/-- The label that an instruction marks. -/
def Inst.label? : Inst → Option LabelId
  | .label l => some l
  | _ => none

theorem Inst.label?_eq_some {l : LabelId} : i.label? = some l ↔ i = .label l := by
  cases i <;> simp [label?]

theorem Inst.label?_of_isSource (source : i.isSource = true) : i.label? = none := by
  cases i <;> simp_all [isSource, label?]

/-- The instruction can stand in a linear body and mentions only the first `count` variables. -/
structure Inst.Scoped (count : Nat) (i : Inst) : Prop where
  source : i.isSource = true ∨ ∃ l, i = .label l
  defs : ∀ v ∈ i.defs, v < count
  uses : ∀ v ∈ i.uses, v < count

/-- The instruction is not a label marker, and a call in it is not resolved yet. -/
def Inst.isRead : Inst → Bool
  | .call _ (.procedure _) _ => false
  | i => i.isSource

theorem Inst.isSource_of_isRead (isRead : i.isRead = true) : i.isSource = true := by
  unfold Inst.isRead at isRead
  split at isRead
  · cases isRead
  · exact isRead

/-- A procedure as read: its variables are its arguments and then its locals, none has a register,
and its body is one block of instructions that mention them and mark each label at most once. -/
structure Procedure.Linear (p : Procedure) : Prop where
  declared : p.args ++ p.locals = List.range p.nextVar
  uncolored : ∀ v, p.reg? v = none
  body : ∃ b : Block, p.blocks = #[b]
  inScope : ∀ i ∈ p.insts, i.Scoped p.nextVar
  marked : (p.insts.filterMap Inst.label?).Nodup

/-- Calls of procedures name one of the given ones. -/
def Procedure.CallsAmong (p : Procedure) (names : List String) : Prop :=
  ∀ dst name args, Inst.call dst (.procedure name) args ∈ p.insts → name ∈ names

theorem Inst.Scoped.mono {few many : Nat} (inFew : i.Scoped few) (le : few ≤ many) :
    i.Scoped many where
  source := inFew.source
  defs v mem := Nat.lt_of_lt_of_le (inFew.defs v mem) le
  uses v mem := Nat.lt_of_lt_of_le (inFew.uses v mem) le

theorem Inst.Scoped.withTarget {vars : Nat} (inScope : i.Scoped vars) (target : LabelId) :
    (i.withTarget target).Scoped vars := by
  cases i with
  | branch op left right old => exact ⟨.inl rfl, inScope.defs, inScope.uses⟩
  | jump old => exact ⟨.inl rfl, inScope.defs, inScope.uses⟩
  | _ => exact inScope

namespace Source

open Reader

variable {d d' : Draft} {c : Cursor} {name : String} {o : Option Inst}
variable {c' c₀ : Cursor} {items : List (Option Inst)} {places : List Cursor}
  {trace : List (Cursor × Option Inst)}

/-- A draft whose variables are numbered in order of declaration, under different names, whose
labels other than the entry's have different names, and whose body is still empty. -/
structure Draft.Scoped (d : Draft) : Prop where
  declared : d.proc.args ++ d.proc.locals = List.range d.proc.nextVar
  uncolored : ∀ v, d.proc.reg? v = none
  body : d.proc.blocks = #[Block.ofInsts 0 []]
  names : (d.proc.vars.toList.map Variable.name).Nodup
  labels : ∃ rest, d.proc.labels.toList = "entry" :: rest ∧ rest.Nodup

/-- What reading on does to a draft. -/
structure Draft.Grows (d d' : Draft) : Prop where
  keeps : d.Scoped → d'.Scoped
  vars : d.proc.vars.toList <+: d'.proc.vars.toList
  labels : d.proc.labels.toList <+: d'.proc.labels.toList
  marked : ∀ l ∈ d.marked, l ∈ d'.marked

theorem Draft.Grows.refl (d : Draft) : d.Grows d := ⟨id, prefix_refl _, prefix_refl _, fun _ => id⟩

theorem Draft.Grows.trans {a b c : Draft} (first : a.Grows b) (second : b.Grows c) : a.Grows c :=
  ⟨second.keeps ∘ first.keeps, first.vars.trans second.vars, first.labels.trans second.labels,
    fun l mem => second.marked l (first.marked l mem)⟩

theorem Draft.Grows.count (grows : d.Grows d') :
    d.proc.nextVar ≤ d'.proc.nextVar := grows.vars.length_le

private theorem Draft.not_mem_labels (unknown : d.label? name = none) :
    name ∉ d.proc.labels.toList.drop 1 := by
  rw [Draft.label?, Option.map_eq_none_iff, findIdx?_eq_none_iff] at unknown
  exact fun mem => absurd (unknown name mem) (by simp)

theorem Draft.label_cases (d : Draft) (name : String) :
    (∃ l, d.label? name = some l ∧ d.label name = (l, d)) ∨
      d.label? name = none ∧ d.label name =
        (d.proc.nextLabel, { d with proc := d.proc.newLabel name }) := by
  unfold Draft.label
  cases known : d.label? name with
  | none => exact .inr ⟨rfl, rfl⟩
  | some l => exact .inl ⟨l, rfl, rfl⟩

theorem Draft.label_grows (d : Draft) (name : String) : d.Grows (d.label name).2 := by
  rcases d.label_cases name with ⟨l, known, same⟩ | ⟨unknown, new⟩
  · rw [same]
    exact .refl d
  · rw [new]
    refine ⟨fun numbered => ⟨numbered.declared, numbered.uncolored,
      numbered.body, numbered.names, ?_⟩, prefix_refl _, by simp [Procedure.newLabel], fun _ => id⟩
    obtain ⟨rest, isLabels, nodup⟩ := numbered.labels
    have fresh := Draft.not_mem_labels unknown
    rw [isLabels, drop_one, tail_cons] at fresh
    refine ⟨rest ++ [name], by simp [Procedure.newLabel, isLabels], ?_⟩
    exact nodup_append.mpr ⟨nodup, by simp, fun a mem b isName => by
      rintro rfl
      exact fresh (mem_singleton.mp isName ▸ mem)⟩

theorem Draft.names_newVar (t : Ty) (new : d.var? name = none)
    (names : (d.proc.vars.toList.map Variable.name).Nodup) :
    ((d.proc.newVar name t).vars.toList.map Variable.name).Nodup := by
  rw [Draft.var?, Array.findIdx?_eq_none_iff] at new
  rw [Procedure.newVar, Array.toList_push, map_append]
  refine nodup_append.mpr ⟨names, by simp, fun a mem b isName => ?_⟩
  rintro rfl
  obtain ⟨v, inVars, rfl⟩ := mem_map.mp mem
  have other := new v (Array.mem_toList_iff.mp inVars)
  simp at isName
  simp [isName] at other

/-- A local goes behind everything declared before it. -/
theorem Draft.addLocal_grows (t : Ty) (new : d.var? name = none) :
    d.Grows { d with proc := d.proc.addLocal name t } := by
  refine ⟨fun numbered => ⟨?_, fun v => ?_, numbered.body, Draft.names_newVar t new numbered.names,
    numbered.labels⟩, by simp [Procedure.addLocal, Procedure.newVar], prefix_refl _, fun _ => id⟩
  · change d.proc.args ++ (d.proc.locals ++ [d.proc.nextVar]) =
      List.range (d.proc.addLocal ..).nextVar
    rw [Procedure.nextVar_addLocal, range_succ, ← numbered.declared, append_assoc]
  · exact (d.proc.reg?_newVar name t v).trans (numbered.uncolored v)

/-! ## Statements -/

/-- The operand mentions only the first `count` variables. -/
def InScope (count : Nat) (o : Operand) : Prop := ∀ v ∈ o.var?, v < count

private theorem Draft.Reads.inScope {o : Operand} (reads : d.Reads o) :
    InScope d.proc.nextVar o := by
  cases o with
  | var v => exact fun w isVar => Option.some.inj isVar ▸ reads.1.lt
  | _ => exact fun w impossible => by cases impossible

/-- The variables an instruction reads are those of its operands and the base of a store. -/
theorem scoped_of_operands {count : Nat} (isRead : i.isRead = true) (defs : ∀ v ∈ i.defs, v < count)
    (operands : ∀ o ∈ i.operands, InScope count o)
    (base : ∀ b f s, i = .store b f s → b < count) : i.Scoped count := by
  have source := Inst.isSource_of_isRead isRead
  refine ⟨.inl source, defs, fun v mem => ?_⟩
  rcases mem_append.mp mem with read | read
  · obtain ⟨o, inOperands, isVar⟩ := mem_filterMap.mp read
    exact operands o inOperands v isVar
  · cases i <;> simp [Inst.isSource] at source read
    rename_i b field src
    exact read ▸ base b field src rfl

/-- An instruction is a marker, or is not one and has no resolved call; it mentions the variables
that were declared before it. -/
theorem Draft.Step.inScope (step : d.Step (some i) d') :
    (i.isRead = true ∨ ∃ l, i = .label l) ∧ i.Scoped d.proc.nextVar := by
  cases step with
  | mark isName plain unmarked =>
    exact ⟨.inr ⟨_, rfl⟩, .inr ⟨_, rfl⟩, by simp [Inst.defs], by simp [Inst.uses, Inst.operands]⟩
  | branch readsLeft readsRight isName =>
    exact ⟨.inl rfl, scoped_of_operands rfl (by simp [Inst.defs])
      (by simpa [Inst.operands] using ⟨readsLeft.inScope, readsRight.inScope⟩) (by simp)⟩
  | jump isName =>
    exact ⟨.inl rfl, .inl rfl, by simp [Inst.defs], by simp [Inst.uses, Inst.operands]⟩
  | ret reads =>
    exact ⟨.inl rfl, scoped_of_operands rfl (by simp [Inst.defs])
      (fun o mem => (reads o (by simpa [Inst.operands] using mem)).inScope) (by simp)⟩
  | invoke isName plain reads =>
    exact ⟨.inl rfl, scoped_of_operands rfl (by simp [Inst.defs])
      (fun o mem => (reads o mem).inScope) (by simp)⟩
  | store leads isField reads =>
    refine ⟨.inl rfl, scoped_of_operands rfl (by simp [Inst.defs])
      (by simpa [Inst.operands] using reads.inScope) ?_⟩
    rintro b f s ⟨⟩
    exact leads.1.lt
  | assign leads reads =>
    exact ⟨.inl rfl, scoped_of_operands rfl (by simpa [Inst.defs] using leads.1.lt)
      (by simpa [Inst.operands] using reads.inScope) (by simp)⟩
  | binary leads readsLeft readsRight =>
    exact ⟨.inl rfl, scoped_of_operands rfl (by simpa [Inst.defs] using leads.1.lt)
      (by simpa [Inst.operands] using ⟨readsLeft.inScope, readsRight.inScope⟩) (by simp)⟩
  | negate leads reads =>
    exact ⟨.inl rfl, scoped_of_operands rfl (by simpa [Inst.defs] using leads.1.lt)
      (by simpa [Inst.operands] using reads.inScope) (by simp)⟩
  | load leads reads isField =>
    exact ⟨.inl rfl, scoped_of_operands rfl (by simpa [Inst.defs] using leads.1.lt)
      (by simpa [Inst.operands] using reads.inScope) (by simp)⟩
  | call leads isName plain reads =>
    exact ⟨.inl rfl, scoped_of_operands rfl (by simpa [Inst.defs] using leads.1.lt)
      (fun o mem => (reads o mem).inScope) (by simp)⟩

/-- Statements do not touch the name and the type of their procedure. -/
def Draft.SameHeader (d d' : Draft) : Prop :=
  d'.proc.name = d.proc.name ∧ d'.proc.returns = d.proc.returns

theorem Draft.label_proc (d : Draft) (name : String) :
    d.SameHeader (d.label name).2 ∧ (d.label name).2.proc.vars = d.proc.vars := by
  rcases d.label_cases name with ⟨l, known, same⟩ | ⟨unknown, new⟩
  · rw [same]
    exact ⟨⟨rfl, rfl⟩, rfl⟩
  · rw [new]
    exact ⟨⟨rfl, rfl⟩, rfl⟩

/-- A statement that gives an instruction declares nothing. -/
theorem Draft.Step.vars_eq (step : d.Step (some i) d') : d'.proc.vars = d.proc.vars := by
  cases step with
  | mark isName plain unmarked => exact (d.label_proc _).2
  | branch readsLeft readsRight isName => exact (d.label_proc _).2
  | jump isName => exact (d.label_proc _).2
  | _ => rfl

private theorem Draft.Step.sameHeader (step : d.Step o d') : d.SameHeader d' := by
  cases step with
  | mark isName plain unmarked => exact (d.label_proc _).1
  | branch readsLeft readsRight isName => exact (d.label_proc _).1
  | jump isName => exact (d.label_proc _).1
  | _ => exact ⟨rfl, rfl⟩

theorem Draft.Step.grows (step : d.Step o d') : d.Grows d' := by
  cases step with
  | declare isType isName plain new => exact Draft.addLocal_grows _ new
  | mark isName plain unmarked =>
    have grows := d.label_grows ‹String›
    refine ⟨fun numbered => ?_, grows.vars, grows.labels, fun l mem =>
      mem_cons_of_mem _ (grows.marked l mem)⟩
    have kept := grows.keeps numbered
    exact ⟨kept.declared, kept.uncolored, kept.body, kept.names, kept.labels⟩
  | branch readsLeft readsRight isName => exact d.label_grows _
  | jump isName => exact d.label_grows _
  | _ => exact .refl d

/-- Instructions read from a draft on: they are in the scope of the draft that they leave, no call
is resolved, and each label they mark was unmarked until then. -/
structure Stated (d : Draft) (insts : List Inst) (d' : Draft) : Prop where
  grows : d.Grows d'
  inScope : ∀ i ∈ insts, i.Scoped d'.proc.nextVar
  unresolved : ∀ i ∈ insts, i.isRead = true ∨ ∃ l, i = .label l
  unmarked : ∀ l ∈ insts.filterMap Inst.label?, l ∉ d.marked ∧ l ∈ d'.marked
  once : (insts.filterMap Inst.label?).Nodup

theorem Stated.nil (grows : d.Grows d') :
    Stated d [] d' := ⟨grows, by simp, by simp, by simp, nodup_nil⟩

theorem Stated.append {d'' : Draft} {first second : List Inst} (one : Stated d first d')
    (two : Stated d' second d'') : Stated d (first ++ second) d'' := by
  refine ⟨one.grows.trans two.grows, fun i mem => ?_,
    forall_mem_append.mpr ⟨one.unresolved, two.unresolved⟩, ?_, ?_⟩
  · rcases mem_append.mp mem with early | late
    · exact (one.inScope i early).mono two.grows.count
    · exact two.inScope i late
  · rw [filterMap_append]
    intro l mem
    rcases mem_append.mp mem with early | late
    · exact ⟨(one.unmarked l early).1, two.grows.marked l (one.unmarked l early).2⟩
    · exact ⟨fun marked => (two.unmarked l late).1 (one.grows.marked l marked),
        (two.unmarked l late).2⟩
  · rw [filterMap_append]
    refine nodup_append.mpr ⟨one.once, two.once, ?_⟩
    rintro l early _ late rfl
    exact (two.unmarked l late).1 (one.unmarked l early).2

/-- A statement marks only a label that was unmarked. -/
theorem Draft.Step.unmarked (step : d.Step (some i) d') {l : LabelId} (isLabel : i.label? = some l)
    : l ∉ d.marked ∧ l ∈ d'.marked := by
  cases step <;> simp [Inst.label?] at isLabel
  rename_i name isName plain unmarked
  subst isLabel
  exact ⟨fun marked => unmarked ((d.label_grows name).marked _ marked), mem_cons_self⟩

private theorem Draft.Step.stated (step : d.Step o d') : Stated d o.toList d' := by
  cases o with
  | none => exact .nil step.grows
  | some i =>
    refine ⟨step.grows, forall_mem_singleton.mpr (step.inScope.2.mono step.grows.count),
      forall_mem_singleton.mpr step.inScope.1, fun l mem => ?_, ?_⟩
    · obtain ⟨j, isHere, isLabel⟩ := mem_filterMap.mp mem
      exact (mem_singleton.mp isHere ▸ step).unmarked isLabel
    · cases isLabel : i.label? <;> simp [isLabel]

/-- Statements one after another, with what each of them gives. -/
inductive Draft.Steps : Draft → List (Option Inst) → Draft → Prop
  | nil {d : Draft} : Steps d [] d
  | cons {d d' d'' : Draft} {o : Option Inst} {more : List (Option Inst)} (first : d.Step o d')
      (rest : Steps d' more d'') : Steps d (o :: more) d''

theorem Draft.Steps.stated (steps : d.Steps items d') :
    Stated d (items.flatMap Option.toList) d' := by
  induction steps with
  | nil => exact .nil (.refl _)
  | cons first rest ih => exact first.stated.append ih

private theorem Draft.Steps.sameHeader (steps : d.Steps items d') : d.SameHeader d' := by
  induction steps with
  | nil => exact ⟨rfl, rfl⟩
  | cons first rest ih =>
    exact ⟨ih.1.trans first.sameHeader.1, ih.2.trans first.sameHeader.2⟩

/-- Formal arguments one after another. -/
inductive Draft.Formals : Draft → Draft → Prop
  | nil {d : Draft} : Formals d d
  | cons {d d' : Draft} {type name : String} (isType : Word type) (isName : Word name)
      (new : d.var? name = none)
      (rest : Formals { d with proc := d.proc.addArg name (tyOfName type) } d') : Formals d d'

/-- A draft with arguments only. -/
def Formal (d : Draft) : Prop := d.Scoped ∧ d.proc.locals = []

private theorem Draft.Formals.formal (formals : d.Formals d') (formal : Formal d) : Formal d' := by
  induction formals with
  | nil => exact formal
  | @cons d d' type name isType isName new rest ih =>
    have uncolored (v : VarId) :=
      (d.proc.reg?_newVar name (tyOfName type) v).trans (formal.1.uncolored v)
    refine ih ⟨⟨?_, uncolored, formal.1.body, Draft.names_newVar _ new formal.1.names,
      formal.1.labels⟩, formal.2⟩
    have declared := formal.1.declared
    rw [formal.2, append_nil] at declared
    change (d.proc.args ++ [d.proc.nextVar]) ++ d.proc.locals =
      List.range (d.proc.newVar ..).nextVar
    rw [Procedure.nextVar_newVar, range_succ, formal.2, append_nil, declared]

private theorem Draft.Formals.sameHeader (formals : d.Formals d') : d.SameHeader d' := by
  induction formals with
  | nil => exact ⟨rfl, rfl⟩
  | cons isType isName new rest ih => exact ih

/-- A scoped draft given instructions that were read with it is a linear procedure, without calls of
procedures. -/
theorem linear_setInsts {insts : List Inst} (numbered : d.Scoped) (stated : Stated d insts d') :
    (d'.proc.setInsts Procedure.entry insts).Linear ∧
    (d'.proc.setInsts Procedure.entry insts).CallsAmong [] := by
  have blocks : (d'.proc.setInsts Procedure.entry insts).blocks = #[Block.ofInsts 0 insts] := by
    rw [Procedure.setInsts, Procedure.modifyBlock, (stated.grows.keeps numbered).body]
    rfl
  have isInsts : (d'.proc.setInsts Procedure.entry insts).insts = insts := by
    simp [Procedure.insts, blocks, Block.ofInsts]
  have kept := stated.grows.keeps numbered
  refine ⟨⟨kept.declared, kept.uncolored, ⟨_, blocks⟩, ?_, ?_⟩, fun dst name args mem => ?_⟩
  · rw [isInsts]
    exact stated.inScope
  · rw [isInsts]
    exact stated.once
  · rw [isInsts] at mem
    rcases stated.unresolved _ mem with isRead | ⟨l, isLabel⟩
    · cases isRead
    · cases isLabel

/-! ## Procedures -/

/-- Statements read one after another: where each of them starts and what it gives. -/
inductive Traced : Draft → Cursor → List (Cursor × Option Inst) → Draft → Prop
  | nil {d : Draft} {c : Cursor} : Traced d c [] d
  | cons {d d' d'' : Draft} {c c₀ c₁ : Cursor} {o : Option Inst}
      {more : List (Cursor × Option Inst)} (behind : c₀.rest <:+ c.rest)
      (read : statement d c₀ = .ok ((o, d'), c₁)) (rest : Traced d' c₁ more d'') :
      Traced d c ((c₀, o) :: more) d''

/-- Formal arguments read one after another: where each of them starts. -/
inductive TracedFormals : Draft → Cursor → List Cursor → Draft → Cursor → Prop
  | nil {d : Draft} {c c' : Cursor} (behind : c'.rest <:+ c.rest) : TracedFormals d c [] d c'
  | cons {d d' : Draft} {c c₀ c₁ c₂ c' : Cursor} {type name : String} {more : List Cursor}
      (behind : c₀.rest <:+ c.rest) (readType : identifier c₀ = .ok (type, c₁))
      (readName : identifier c₁ = .ok (name, c₂)) (new : d.var? name = none)
      (rest : TracedFormals { d with proc := d.proc.addArg name (tyOfName type) } c₂ more d' c') :
      TracedFormals d c (c₀ :: more) d' c'

theorem Traced.steps (traced : Traced d c trace d') : d.Steps (trace.map Prod.snd) d' := by
  induction traced with
  | nil => exact .nil
  | cons behind read rest ih =>
    exact .cons (statement_ensures _ _ _ _ read) ih

theorem TracedFormals.formals (traced : TracedFormals d c places d' c') : d.Formals d' := by
  induction traced with
  | nil behind => exact .nil
  | cons behind readType readName new rest ih =>
    exact .cons (identifier_eq_ok readType).1 (identifier_eq_ok readName).1 new ih

private theorem Traced.earlier (traced : Traced d c trace d') (behind : c.rest <:+ c₀.rest) :
    Traced d c₀ trace d' := by
  cases traced with
  | nil => exact .nil
  | cons first read rest => exact .cons (first.trans behind) read rest

theorem TracedFormals.earlier (traced : TracedFormals d c places d' c')
    (behind : c.rest <:+ c₀.rest) : TracedFormals d c₀ places d' c' := by
  cases traced with
  | nil last => exact .nil (last.trans behind)
  | cons first readType readName new rest =>
    exact .cons (first.trans behind) readType readName new rest

/-- How a procedure was read from a place on. -/
structure Reading (c : Cursor) (p : Procedure) where
  type : String
  name : String
  /-- Places behind the type, behind the name and behind the arguments. -/
  afterType : Cursor
  afterName : Cursor
  afterArgs : Cursor
  start : Draft
  final : Draft
  args : List Cursor
  trace : List (Cursor × Option Inst)
  readType : identifier c = .ok (type, afterType)
  notClass : type ≠ "class"
  readName : identifier afterType = .ok (name, afterName)
  formals : TracedFormals ⟨Procedure.ofName name (tyOfName type), []⟩ afterName args start afterArgs
  body : Traced start afterArgs trace final
  isProc : p = final.proc.setInsts Procedure.entry (trace.flatMap (·.2.toList))

namespace Reading

variable {p : Procedure}

theorem header (reading : Reading c p) :
    p.name = reading.name ∧ p.returns = tyOfName reading.type := by
  have formals := reading.formals.formals.sameHeader
  have body := reading.body.steps.sameHeader
  exact ⟨(congrArg Procedure.name reading.isProc).trans (body.1.trans formals.1),
    (congrArg Procedure.returns reading.isProc).trans (body.2.trans formals.2)⟩

theorem formal (reading : Reading c p) : Formal reading.start :=
  reading.formals.formals.formal
    ⟨⟨rfl, fun _ => rfl, rfl, by simp [Procedure.ofName], [], rfl, by simp⟩, rfl⟩

theorem insts_eq (reading : Reading c p) :
    (reading.trace.map Prod.snd).flatMap Option.toList = reading.trace.flatMap (·.2.toList) := by
  rw [flatMap_map]

theorem linear (reading : Reading c p) : p.Linear ∧ p.CallsAmong [] := by
  have stated := reading.body.steps.stated
  rw [reading.insts_eq] at stated
  rw [reading.isProc]
  exact linear_setInsts reading.formal.1 stated

end Reading

namespace Reader

private theorem formals_yields (rounds : Nat) (d : Draft) (c : Cursor) :
    (formals d rounds).Yields c fun d' c' => ∃ places, TracedFormals d c places d' c' := by
  induction rounds generalizing d c with
  | zero => exact .fault _ _ _
  | succ rounds ih =>
    refine .bind fun t c₁ readTy => .bind fun name c₂ readName => .bind fun d' c₃ declared => ?_
    obtain ⟨type, readType, rfl⟩ := ty_yields c t c₁ readTy
    obtain ⟨new, rfl, rfl⟩ : d.var? name = none ∧
        d' = { d with proc := d.proc.addArg name (tyOfName type) } ∧ c₃ = c₂ := by
      rw [declare] at declared
      by_cases known : (d.var? name).isSome = true
      · rw [if_pos known] at declared
        cases declared
      · rw [if_neg known, if_pos rfl] at declared
        cases declared
        exact ⟨by simpa using known, rfl, rfl⟩
    refine .bind fun closed c₄ readClose => .ite (fun _ => .pure ?_) fun _ => .bind
      fun _ c₅ comma => ?_
    · exact ⟨_, .cons (suffix_refl _) readType readName new
        (.nil (tryChar_forward _ _ _ _ readClose))⟩
    · intro d' c' read
      obtain ⟨places, traced⟩ := ih _ _ d' c' read
      have behind := (expect_forward _ _ _ _ comma).trans (tryChar_forward _ _ _ _ readClose)
      exact ⟨_, .cons (suffix_refl _) readType readName new (traced.earlier behind)⟩

private theorem body_yields (name : String) (rounds : Nat) (d : Draft) (c : Cursor) :
    (body name d rounds).Yields c fun r _ => ∃ trace : List (Cursor × Option Inst),
      r.1 = trace.flatMap (·.2.toList) ∧ Traced d c trace r.2 := by
  induction rounds generalizing d c with
  | zero => exact .fault _ _ _
  | succ rounds ih =>
    refine .bind fun closed c₁ readClose => .ite (fun _ => .pure ⟨[], rfl, .nil⟩) fun _ =>
      .bind fun next c₂ look => .ite (fun _ => .fault _ _ _) fun _ => .bind fun first c₃ read =>
        .bind fun more c₄ readMore => .pure ?_
    obtain ⟨trace, isMore, traced⟩ := ih _ _ more c₄ readMore
    have behind := (peek?_forward _ _ _ look).trans (tryChar_forward _ _ _ _ readClose)
    exact ⟨(c₂, first.1) :: trace, congrArg (first.1.toList ++ ·) isMore, .cons behind read traced⟩

/-- The procedure is read from its type on; its name is a new one. -/
theorem procedure_yields (program : Program) (c : Cursor)
    (notClass : ∀ type c', identifier c = .ok (type, c') → type ≠ "class") :
    (procedure program).Yields c fun p _ =>
      program.procedure? p.name = none ∧ Nonempty (Reading c p) := by
  refine .bind fun returns afterType readTy => .bind fun name afterName readName => ?_
  obtain ⟨type, readType, rfl⟩ := ty_yields c returns afterType readTy
  have continued : ∀ start args afterArgs,
      TracedFormals ⟨Procedure.ofName name (tyOfName type), []⟩ afterName args start afterArgs →
      program.procedure? name = none →
      Yields
      (expect '\x7b' >>= fun _ => get >>= fun c => body name start (c.rest.length + 1) >>= fun r =>
        (pure (r.2.proc.setInsts Procedure.entry r.1) : Reader Procedure)) afterArgs
        fun p _ => program.procedure? p.name = none ∧ Nonempty (Reading c p) := by
    intro start args afterArgs traced new
    refine .bind fun _ c₁ opened => .bind fun at_ c₂ look => .bind fun r c₃ readBody => .pure ?_
    obtain ⟨trace, isInsts, body⟩ := body_yields name _ start c₂ r c₃ readBody
    have behind := (Forward.get _ _ _ look).trans (expect_forward _ _ _ _ opened)
    let reading : Reading c (r.2.proc.setInsts Procedure.entry r.1) :=
      ⟨type, name, afterType, afterName, afterArgs, start, r.2, args, trace, readType,
        notClass type afterType readType, readName, traced, body.earlier behind, by rw [isInsts]⟩
    exact ⟨reading.header.1 ▸ new, ⟨reading⟩⟩
  refine .ite (fun _ => .bind fun _ _ impossible => by cases impossible) fun known => ?_
  have new : program.procedure? name = none := by simpa using known
  refine .bind fun _ c₁ opened => .bind fun closed c₂ readClose => .ite (fun _ => ?_) fun _ => ?_
  · have behind := (tryChar_forward _ _ _ _ readClose).trans (expect_forward _ _ _ _ opened)
    refine .bind fun d c₃ isPure => ?_
    obtain ⟨rfl, rfl⟩ := Prod.mk.inj (Except.ok.inj isPure)
    exact continued _ [] _ (.nil behind) new
  · refine .bind fun at_ c₃ look => .bind fun d c₄ readArgs => ?_
    obtain ⟨args, traced⟩ := formals_yields _ _ _ d c₄ readArgs
    have behind := (Forward.get _ _ _ look).trans
      ((tryChar_forward _ _ _ _ readClose).trans (expect_forward _ _ _ _ opened))
    exact continued d args c₄ (traced.earlier behind) new

/-! ## Texts -/

/-- A field of a class, with its type. -/
def SpeltField (field : String × Ty) : Prop :=
  Word field.1 ∧ ∃ type, Word type ∧ field.2 = tyOfName type

private theorem fields_ensures (rounds : Nat) :
    (fields rounds).Ensures fun entries => ∀ field ∈ entries, SpeltField field := by
  induction rounds with
  | zero => exact .fault _ _
  | succ rounds ih =>
    refine .after fun closed => .ite (fun _ => .pure (forall_mem_nil _)) fun _ => ?_
    have typed : ty.Ensures fun t => ∃ type, Word type ∧ t = tyOfName type := by
      intro c t c' read
      obtain ⟨type, readType, isType⟩ := ty_yields c t c' read
      exact ⟨type, (identifier_eq_ok readType).1, isType⟩
    refine typed.bind fun t isType => identifier_ensures.bind fun name isName => .after fun _ => ?_
    exact ih.bind fun more spelt =>
      .pure (forall_mem_cons.mpr ⟨⟨isName, isType⟩, spelt⟩)

private theorem classLayout_ensures (program : Program) :
    (classLayout program).Ensures fun layout =>
    program.class? layout.name = none ∧ Word layout.name ∧
      ∀ field ∈ layout.fields, SpeltField field := by
  refine .after fun _ => identifier_ensures.bind fun name isName => .ite
    (fun _ => (Ensures.fault _ fun _ => False).bind fun _ impossible => impossible.elim)
      fun known => ?_
  have new : program.class? name = none := by simpa using known
  refine .after fun _ => .after fun _ => (fields_ensures _).bind fun entries spelt => .pure ?_
  exact ⟨new, isName, spelt⟩

/-- A program whose classes and procedures were read from a text, no two of a kind under one
name. -/
structure ReadFrom (text : List Char) (program : Program) : Prop where
  classes : ∀ layout ∈ program.classes, Word layout.name ∧ ∀ field ∈ layout.fields, SpeltField field
  classNames : (program.classes.map ClassLayout.name).Nodup
  procedures : ∀ p ∈ program.procedures, ∃ c : Cursor, c.rest <:+ text ∧ Nonempty (Reading c p)
  procedureNames : (program.procedures.map Procedure.name).Nodup

private theorem nodup_concat {α : Type} {name : α → String} {entries : List α} {entry : α}
    (nodup : (entries.map name).Nodup) (new : entries.find? (name · == name entry) = none) :
    ((entries ++ [entry]).map name).Nodup := by
  rw [map_append, nodup_append]
  refine ⟨nodup, by simp, ?_⟩
  rintro a mem b isName rfl
  obtain ⟨other, inEntries, rfl⟩ := mem_map.mp mem
  rw [map_singleton, mem_singleton] at isName
  exact absurd isName (by simpa using find?_eq_none.mp new other inEntries)

private theorem declarations_yields {text : List Char} (rounds : Nat)
    (program : Program) (c : Cursor) (behind : c.rest <:+ text) (known : ReadFrom text program) :
    (declarations program rounds).Yields c fun result _ => ReadFrom text result := by
  induction rounds generalizing program c with
  | zero => exact .pure known
  | succ rounds ih =>
    refine .bind fun _ c₁ skipped => .bind fun next c₂ look => .ite (fun _ => .pure known) fun _ =>
      .bind fun isClass c₃ ahead => ?_
    have forward : c₃.rest <:+ text := (atIdentifier_forward _ _ _ _ ahead).trans
      ((peek?_forward _ _ _ look).trans ((skip_forward _ _ _ skipped).trans behind))
    refine .ite (fun _ => .bind fun layout c₄ read => ?_) fun other => .bind fun p c₄ read => ?_
    · obtain ⟨new, spelt⟩ := classLayout_ensures program c₃ layout c₄ read
      refine ih _ c₄ ((classLayout_forward _ _ _ _ read).trans forward) ?_
      refine ⟨forall_mem_append.mpr ⟨known.classes, forall_mem_singleton.mpr spelt⟩,
        nodup_concat known.classNames new, known.procedures, known.procedureNames⟩
    · have notClass : ∀ type c', identifier c₃ = .ok (type, c') → type ≠ "class" := by
        rintro type c' readType rfl
        rw [atIdentifier_eq] at ahead
        obtain ⟨isFalse, rfl⟩ := Prod.mk.inj (Except.ok.inj ahead)
        rw [readType] at isFalse
        exact other (isFalse.symm.trans (by simp [Except.toOption]))
      obtain ⟨new, reading⟩ := procedure_yields program c₃ notClass p c₄ read
      refine ih _ c₄ ((procedure_forward _ _ _ _ read).trans forward) ?_
      exact ⟨known.classes, known.classNames, forall_mem_append.mpr
        ⟨known.procedures, forall_mem_singleton.mpr ⟨c₃, forward, reading⟩⟩,
        nodup_concat known.procedureNames new⟩

end Reader

end Source

/-! ## Programs -/

private theorem Inst.Scoped.resolve {count : Nat} (inScope : i.Scoped count) (names : List String) :
    (Program.resolveInst names i).Scoped count := by
  cases i with
  | call dst callee args =>
    cases callee with
    | procedure name => exact inScope
    | external name => exact ⟨.inl rfl, inScope.defs, inScope.uses⟩
  | _ => exact inScope

theorem Program.label?_resolveInst (names : List String) (i : Inst) :
    (Program.resolveInst names i).label? = i.label? := by
  cases i with
  | call dst callee args => cases callee <;> rfl
  | _ => rfl

theorem Program.target?_resolveInst (names : List String) (i : Inst) :
    (Program.resolveInst names i).target? = i.target? := by
  cases i with
  | call dst callee args => cases callee <;> rfl
  | _ => rfl

theorem Program.insts_resolved (names : List String) (q : Procedure) :
    (resolved names q).insts = q.insts.map (resolveInst names) := by
  simp [resolved, Procedure.insts, flatMap_map, map_flatMap]

theorem Program.names_resolveCallees (program : Program) :
    program.resolveCallees.procedures.map (·.name) = program.procedures.map (·.name) := by
  simp [resolveCallees, resolved, Function.comp_def]

section

variable (read : Program.ofText text = .ok program)

include read

/-- A program as read is one of procedures without resolved calls, resolved. -/
theorem Program.exists_readFrom : ∃ unresolved : Program,
      Source.Reader.ReadFrom text.toList unresolved ∧ program = unresolved.resolveCallees := by
  unfold Program.ofText at read
  cases result : Source.Reader.declarations .empty (text.toList.length + 1)
      (Source.Cursor.ofText text.toList) with
  | error e => simp [result, Bind.bind, Except.bind] at read
  | ok r =>
    simp only [result, Bind.bind, Except.bind, Pure.pure, Except.pure, Except.ok.injEq] at read
    refine ⟨r.1, Source.Reader.declarations_yields _ .empty _ (suffix_refl _) ?_ _ _ result,
      read.symm⟩
    exact ⟨by simp [Program.empty], by simp [Program.empty], by simp [Program.empty],
      by simp [Program.empty]⟩

theorem Program.exists_of_ofText :
    ∃ unresolved : Program, (∀ p ∈ unresolved.procedures, p.Linear ∧ p.CallsAmong []) ∧
      program = unresolved.resolveCallees := by
  obtain ⟨unresolved, known, isProgram⟩ := exists_readFrom read
  refine ⟨unresolved, fun p mem => ?_, isProgram⟩
  obtain ⟨c, -, ⟨reading⟩⟩ := known.procedures p mem
  exact reading.linear

theorem Program.linear_of_ofText : ∀ p ∈ program.procedures, p.Linear := by
  obtain ⟨unresolved, linear, rfl⟩ := exists_of_ofText read
  intro p mem
  obtain ⟨q, inProgram, rfl⟩ := mem_map.mp mem
  have linear := (linear q inProgram).1
  obtain ⟨b, isBody⟩ := linear.body
  refine ⟨linear.declared, linear.uncolored, ⟨_, by simp [resolved, isBody]; rfl⟩, ?_, ?_⟩ <;>
    rw [insts_resolved]
  · intro i inBody
    obtain ⟨j, inOriginal, rfl⟩ := mem_map.mp inBody
    exact (linear.inScope j inOriginal).resolve _
  · rw [filterMap_map]
    simpa only [Function.comp_def, Program.label?_resolveInst] using linear.marked

/-- In a program that was read, only its own procedures are called as procedures. -/
theorem Program.callsAmong_of_ofText :
    ∀ p ∈ program.procedures, p.CallsAmong (program.procedures.map (·.name)) := by
  obtain ⟨unresolved, linear, rfl⟩ := exists_of_ofText read
  rw [names_resolveCallees]
  intro p mem dst name args inBody
  obtain ⟨q, inProgram, rfl⟩ := mem_map.mp mem
  rw [insts_resolved] at inBody
  obtain ⟨i, inOriginal, resolved⟩ := mem_map.mp inBody
  unfold resolveInst at resolved
  split at resolved
  · by_cases known : (unresolved.procedures.map (·.name)).contains ‹String› = true
    · rw [if_pos known] at resolved
      cases resolved
      exact List.contains_iff_mem.mp known
    · rw [if_neg known] at resolved
      cases resolved
  · exact absurd ((linear q inProgram).2 dst name args (resolved ▸ inOriginal)) not_mem_nil

end

/-- What is computed from the first procedure of a text is computed from one of its program. -/
theorem Program.exists_of_first {α : Type} {f : Procedure → Option α} {a : α}
    (found : ((ofText text).toOption.bind fun program => program.procedures.head?.bind f) =
      some a) : ∃ program p, ofText text = .ok program ∧ p ∈ program.procedures ∧ f p = some a := by
  obtain ⟨program, read, found⟩ := Tables.exists_ok_of_bind found
  obtain ⟨p, isFirst, found⟩ := Option.bind_eq_some_iff.mp found
  exact ⟨program, p, read, mem_of_head? isFirst, found⟩

end ArmBackend
