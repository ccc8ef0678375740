import ArmBackend.Proofs.Source.Scope
import ArmBackend.Proofs.Source.Written

/-!
Contract: a procedure that was read is read back from its listing.

The listing of a body starts with the label of its block, which is read as a marker of a label of
that name. So the body gains that marker, and every other label the next number.

Owns: how declarations, bodies and procedures are read from their listings.
Does not own: classes and programs.
-/

namespace ArmBackend

open List Source Source.Cursor Source.Reader

variable {type : String} {items : List (Option Inst)}

/-- The instruction with its labels numbered one higher. -/
def Inst.raiseLabels : Inst → Inst
  | .label l => .label (l + 1)
  | .branch op left right target => .branch op left right (target + 1)
  | .jump target => .jump (target + 1)
  | i => i

/-- The procedure with a marker of a further label named `entry`, numbered 1, in front of its
body. -/
def Procedure.withEntryMarker (p : Procedure) : Procedure :=
  { p with
    blocks := p.blocks.map fun b => { b with insts := .label 1 :: b.insts.map Inst.raiseLabels }
    labels := #["entry"] ++ p.labels }

/-- A variable as it is declared. -/
def Variable.ofDeclaration (x : String × Ty) : Variable := ⟨x.1, x.2, none, none⟩

namespace Source

variable {d d' : Draft}

/-! ## Types -/

/-- The name of a type stands for the type. -/
structure Spelt (t : Ty) : Prop where
  isName : Word t.name
  same : tyOfName t.name = t

theorem name_tyOfName (type : String) : (tyOfName type).name = type ∨
    (tyOfName type).name ∈ ["Int", "Bool", "String", "Void"] := by
  unfold tyOfName
  split
  · exact .inr (by simp [Ty.name])
  split
  · exact .inr (by simp [Ty.name])
  split
  · exact .inr (by simp [Ty.name])
  split
  · exact .inr (by simp [Ty.name])
  · exact .inl rfl

private theorem tyOfName_name (type : String) : tyOfName (tyOfName type).name = tyOfName type := by
  unfold tyOfName
  split
  · rfl
  split
  · rfl
  split
  · rfl
  split
  · rfl
  · rename_i notInt notBool notString notVoid
    simp [Ty.name, notInt, notBool, notString, notVoid]

theorem spelt_tyOfName (isType : Word type) : Spelt (tyOfName type) := by
  refine ⟨?_, tyOfName_name type⟩
  rcases name_tyOfName type with same | builtin
  · rwa [same]
  · simp only [mem_cons, not_mem_nil, or_false] at builtin
    rcases builtin with isName | isName | isName | isName <;> exact isName ▸ word_of_decide rfl rfl

/-- A type that is none of some words is not listed as one of them, unless they are built in. -/
theorem name_tyOfName_not_mem {words : List String} (other : type ∉ words)
    (notBuiltin : ∀ word ∈ ["Int", "Bool", "String", "Void"], word ∉ words) :
    (tyOfName type).name ∉ words := by
  rcases name_tyOfName type with same | builtin
  · rwa [same]
  · exact notBuiltin _ builtin

/-! ## Declarations -/

/-- A declaration of a variable or field, as it is listed. -/
def spelling (x : String × Ty) : String := x.2.name ++ " " ++ x.1

theorem toList_spelling (x : String × Ty) :
    (spelling x).toList = x.2.name.toList ++ ' ' :: x.1.toList := by simp [spelling]

/-- A variable or field that can be declared again. -/
structure SpeltPair (x : String × Ty) : Prop where
  isName : Word x.1
  spelt : Spelt x.2

/-- A local that can be declared again. -/
structure SpeltLocal (x : String × Ty) : Prop extends SpeltPair x where
  plain : x.2.name ∉ keywords

namespace Draft

def addArgs (d : Draft) (args : List (String × Ty)) : Draft :=
  args.foldl (fun d x => { d with proc := d.proc.addArg x.1 x.2 }) d

def addLocals (d : Draft) (more : List (String × Ty)) : Draft :=
  more.foldl (fun d x => { d with proc := d.proc.addLocal x.1 x.2 }) d

theorem vars_addArgs (d : Draft) (args : List (String × Ty)) :
    (d.addArgs args).proc.vars.toList = d.proc.vars.toList ++ args.map Variable.ofDeclaration := by
  induction args generalizing d with
  | nil => simp [addArgs]
  | cons x args ih =>
    rw [addArgs, foldl_cons, ← addArgs, ih]
    simp [Procedure.addArg, Procedure.newVar, Variable.ofDeclaration]

private theorem vars_addLocals (d : Draft) (more : List (String × Ty)) :
    (d.addLocals more).proc.vars.toList =
    d.proc.vars.toList ++ more.map Variable.ofDeclaration := by
  induction more generalizing d with
  | nil => simp [addLocals]
  | cons x more ih =>
    rw [addLocals, foldl_cons, ← addLocals, ih]
    simp [Procedure.addLocal, Procedure.newVar, Variable.ofDeclaration]

theorem length_args_addArgs (d : Draft) (args : List (String × Ty)) :
    (d.addArgs args).proc.args.length = d.proc.args.length + args.length := by
  induction args generalizing d with
  | nil => rfl
  | cons x args ih =>
    rw [addArgs, foldl_cons, ← addArgs, ih]
    simp [Procedure.addArg]
    omega

private theorem args_addLocals (d : Draft) (more : List (String × Ty)) :
    (d.addLocals more).proc.args = d.proc.args := by
  induction more generalizing d with
  | nil => rfl
  | cons x more ih => exact ih _

private theorem marked_addArgs (d : Draft) (args : List (String × Ty)) :
    (d.addArgs args).marked = d.marked ∧ (d.addArgs args).proc.labels = d.proc.labels := by
  induction args generalizing d with
  | nil => exact ⟨rfl, rfl⟩
  | cons x args ih => exact ih _

private theorem marked_addLocals (d : Draft) (more : List (String × Ty)) :
    (d.addLocals more).marked = d.marked ∧ (d.addLocals more).proc.labels = d.proc.labels := by
  induction more generalizing d with
  | nil => exact ⟨rfl, rfl⟩
  | cons x more ih => exact ih _

private theorem addLocals_relabel {e : Draft} {labels : Array String}
    (same : e.proc = { d.proc with labels := labels }) (more : List (String × Ty)) :
    (e.addLocals more).proc = { (d.addLocals more).proc with labels := labels } := by
  induction more generalizing d e with
  | nil => exact same
  | cons x more ih =>
    refine ih ?_
    change e.proc.addLocal x.1 x.2 = _
    rw [same]
    rfl

private theorem Formals.exists_args (formals : d.Formals d') :
    ∃ args, (∀ x ∈ args, SpeltPair x) ∧ d' = d.addArgs args := by
  induction formals with
  | nil => exact ⟨[], by simp, rfl⟩
  | @cons d d' type name isType isName new rest ih =>
    obtain ⟨args, spelt, isDraft⟩ := ih
    exact ⟨(name, tyOfName type) :: args,
      forall_mem_cons.mpr ⟨⟨isName, spelt_tyOfName isType⟩, spelt⟩, isDraft⟩

/-- A statement that gives an instruction changes labels only. -/
theorem Step.proc_eq {i : Inst} (step : d.Step (some i) d') :
    d'.proc = { d.proc with labels := d'.proc.labels } := by
  have label (name : String) : (d.label name).2.proc =
      { d.proc with labels := (d.label name).2.proc.labels } := by
    rcases d.label_cases name with ⟨l, known, same⟩ | ⟨unknown, new⟩
    · rw [same]
    · rw [new]
      rfl
  cases step with
  | mark isName plain unmarked => exact label _
  | branch readsLeft readsRight isName => exact label _
  | jump isName => exact label _
  | _ => rfl

private theorem Steps.exists_locals (steps : d.Steps items d') :
    ∃ more, (∀ x ∈ more, SpeltLocal x) ∧ d'.proc =
      { (d.addLocals more).proc with labels := d'.proc.labels } := by
  induction steps with
  | nil => exact ⟨[], by simp, rfl⟩
  | @cons d d' d'' o items first rest ih =>
    obtain ⟨more, spelt, isProc⟩ := ih
    cases o with
    | none =>
      cases first with
      | @declare type name isType isName plain new =>
        refine ⟨(name, tyOfName type) :: more, forall_mem_cons.mpr ⟨⟨⟨isName,
          spelt_tyOfName isType⟩, name_tyOfName_not_mem plain (by decide)⟩, spelt⟩, isProc⟩
    | some i =>
      refine ⟨more, spelt, ?_⟩
      rw [addLocals_relabel first.proc_eq] at isProc
      exact isProc

theorem var?_eq_none {name : String} (new : name ∉ d.proc.vars.toList.map Variable.name) :
    d.var? name = none := by
  rw [var?, Array.findIdx?_eq_none_iff]
  intro x mem
  refine beq_eq_false_iff_ne.mpr fun same => new ?_
  exact same ▸ mem_map_of_mem (Array.mem_toList_iff.mpr mem)

end Draft

variable {lines : List (List Char × Option Inst)}

/-! ## Bodies -/

/-- Lines that are read as statements one after another, with what each of them gives. -/
inductive Listed : Draft → List (List Char × Option Inst) → Draft → Prop
  | nil {d : Draft} : Listed d [] d
  | cons {d d' d'' : Draft} {line : List Char} {o : Option Inst}
      {more : List (List Char × Option Inst)} (takes : Takes (statement d) line (o, d') Anything)
      (rest : Listed d' more d'') : Listed d ((line, o) :: more) d''

theorem Listed.append {d'' : Draft} {more : List (List Char × Option Inst)}
    (first : Listed d lines d') (second : Listed d' more d'') : Listed d (lines ++ more) d'' := by
  induction first with
  | nil => exact second
  | cons takes rest ih => exact .cons takes (ih second)

private theorem statement_first {c c' : Cursor} {r : Option Inst × Draft}
    (read : statement d c = .ok (r, c')) :
    ∃ ch rest, c.skip.rest = ch :: rest ∧ startsIdentifier ch = true := by
  have named : (statement d).Yields c fun _ _ => ∃ first c₁, identifier c = .ok (first, c₁) :=
    .bind fun first c₁ readFirst _ _ _ => ⟨first, c₁, readFirst⟩
  obtain ⟨first, c₁, readFirst⟩ := named r c' read
  obtain ⟨⟨ch, more, spelt, starts, -, -⟩, left⟩ := identifier_eq_ok readFirst
  exact ⟨ch, more ++ c₁.rest, by rw [left, spelt]; rfl, starts⟩

/-- The text of lines. -/
def linesText (lines : List (List Char × Option Inst)) : List Char := lines.flatMap (·.1 ++ ['\n'])

private theorem Listed.takes (listed : Listed d lines d') (name : String) (limit rounds : Nat)
    (enough : limit < rounds) :
    Within limit (body name d rounds) (linesText lines ++ ['\x7d'])
      (lines.flatMap (·.2.toList), d') Anything := by
  induction listed generalizing limit rounds with
  | nil =>
    obtain ⟨rounds, rfl⟩ := Nat.exists_eq_add_one.mpr (Nat.zero_lt_of_lt enough)
    refine Takes.within ?_ limit
    exact (tryChar_takes rfl).last (.pure _ _)
  | @cons d d' d'' line o more takes rest ih =>
    obtain ⟨rounds, rfl⟩ := Nat.exists_eq_add_one.mpr (Nat.zero_lt_of_lt enough)
    intro c after short here isFit
    have text : linesText ((line, o) :: more) ++ ['\x7d'] ++ after =
        line ++ '\n' :: (linesText more ++ ['\x7d'] ++ after) := by
      simp [linesText]
    rw [text] at here
    obtain ⟨c₁, read, there⟩ := takes c.skip _ here.skip trivial
    obtain ⟨ch, left, shows, starts⟩ := statement_first read
    rw [skip_skip] at shows
    have open_ : Lacks '\x7d' (line ++ '\n' :: (linesText more ++ ['\x7d'] ++ after)) := by
      rw [Lacks, ← here, ← Cursor.rest_skip, shows, head?_cons]
      rintro ⟨⟩
      exact absurd starts (by decide)
    have shorter := Nat.lt_of_lt_of_le (statement_shortens read).2
      (c.skip_suffix.length_le.trans short)
    obtain ⟨c₂, readMore, last⟩ := ih _ rounds
      (Nat.lt_of_lt_of_le shorter (Nat.le_of_lt_succ enough)) c₁ after (Nat.le_refl _)
      (there.trans (visible_blank rfl _)) isFit
    refine ⟨c₂, ?_, last⟩
    rw [body, bind_ok (tryChar_eq_of_lacks here open_), if_neg Bool.false_ne_true,
      bind_ok (peek?_eq _), shows, if_neg (by simp), bind_ok read]
    exact bind_ok readMore

private theorem listed_addLocals {more : List (String × Ty)} (spelt : ∀ x ∈ more, SpeltLocal x)
    (distinct : (d.proc.vars.toList.map Variable.name ++ more.map Prod.fst).Nodup) :
    Listed d (more.map fun x => (' ' :: ' ' :: ((spelling x).toList ++ [';']), none))
      (d.addLocals more) := by
  induction more generalizing d with
  | nil => exact .nil
  | cons x more ih =>
    have isSpelt := spelt x mem_cons_self
    have new : d.var? x.1 = none := by
      refine Draft.var?_eq_none fun mem => ?_
      exact disjoint_of_nodup_append distinct mem (by simp)
    refine .cons (.blank (.blank ?_ rfl) rfl) (ih (fun y mem => spelt y (mem_cons_of_mem _ mem)) ?_)
    · rw [toList_spelling, append_assoc]
      have takes :=
        statement_takes_declaration isSpelt.spelt.isName isSpelt.isName isSpelt.plain new
      rw [isSpelt.spelt.same] at takes
      exact takes
    · simpa [Procedure.addLocal, Procedure.newVar] using distinct

/-! ## Labels -/

namespace Draft

/-- The draft of a body behind the marker of its entry: all variables are declared, and every label
has the next number. -/
def raise (all : Procedure) (d : Draft) : Draft :=
  ⟨{ all with labels := #["entry"] ++ d.proc.labels }, d.marked.map (· + 1) ++ [1]⟩

variable {all : Procedure} {name : String} {v : VarId}

private theorem label?_raise (numbered : d.Scoped) (other : name ≠ "entry") :
    (d.raise all).label? name = (d.label? name).map (· + 1) := by
  obtain ⟨rest, isLabels, -⟩ := numbered.labels
  simp [label?, raise, isLabels, findIdx?_cons, other.symm, Function.comp_def]

private theorem label_raise (numbered : d.Scoped) (other : name ≠ "entry") :
    (d.raise all).label name = ((d.label name).1 + 1, (d.label name).2.raise all) := by
  rw [label, label?_raise numbered other]
  rcases d.label_cases name with ⟨l, known, same⟩ | ⟨unknown, new⟩
  · rw [known, same]
    rfl
  · rw [unknown, new]
    simp [raise, Procedure.newLabel, Procedure.nextLabel, Nat.add_comm]

section

variable (declared : d.proc.vars.toList <+: all.vars.toList)

include declared

theorem varName_raise (known : v < d.proc.nextVar) :
    (d.raise all).proc.varName v = d.proc.varName v := by
  obtain ⟨more, isVars⟩ := declared
  have same : all.vars[v]? = d.proc.vars[v]? := by
    rw [← Array.getElem?_toList, ← isVars, getElem?_append_left known, Array.getElem?_toList]
  simp only [raise, Procedure.varName, Procedure.var, Array.getD_eq_getD_getElem?, same]

theorem Finds.raise (finds : d.Finds v) : (d.raise all).Finds v := by
  rw [Finds, varName_raise declared finds.lt]
  obtain ⟨more, isVars⟩ := declared
  have isArray : all.vars = d.proc.vars ++ more.toArray := by
    apply Array.toList_inj.mp
    simp [isVars]
  have found : d.proc.vars.findIdx? (·.name == d.proc.varName v) = some v := finds
  change all.vars.findIdx? (·.name == d.proc.varName v) = some v
  rw [isArray, Array.findIdx?_append, found]
  rfl

private theorem Leads.raise (leads : d.Leads v) : (d.raise all).Leads v :=
  ⟨leads.1.raise declared, by rw [varName_raise declared leads.1.lt]; exact leads.2⟩

private theorem Reads.raise {o : Operand} (reads : d.Reads o) : (d.raise all).Reads o := by
  cases o with
  | var v =>
    exact ⟨reads.1.raise declared, by rw [varName_raise declared reads.1.lt]; exact reads.2⟩
  | _ => exact trivial

end

theorem mem_labels_label (numbered : d.Scoped) (name : String) :
    name ∈ (d.label name).2.proc.labels.toList.drop 1 := by
  obtain ⟨rest, isLabels, -⟩ := numbered.labels
  rcases d.label_cases name with ⟨l, known, same⟩ | ⟨unknown, new⟩
  · rw [same]
    obtain ⟨k, found, -⟩ := Option.map_eq_some_iff.mp known
    obtain ⟨inRange, isName, -⟩ := findIdx?_eq_some_iff_getElem.mp found
    exact beq_iff_eq.mp isName ▸ getElem_mem inRange
  · rw [new]
    simp [Procedure.newLabel, isLabels]

private theorem ne_entry (numbered : d.Scoped)
    (noEntry : "entry" ∉ (d.label name).2.proc.labels.toList.drop 1) : name ≠ "entry" := by
  rintro rfl
  exact noEntry (mem_labels_label numbered _)

private theorem Step.raise {i : Inst} (step : d.Step (some i) d') (numbered : d.Scoped)
    (declared : d.proc.vars.toList <+: all.vars.toList)
    (noEntry : "entry" ∉ d'.proc.labels.toList.drop 1) :
    (d.raise all).Step (some i.raiseLabels) (d'.raise all) := by
  cases step with
  | @mark name isName plain unmarked =>
    have raised : (d.raise all).label name = _ := label_raise numbered (ne_entry numbered noEntry)
    have positive := (d.label_lt numbered name).1
    have step := Step.mark (d := d.raise all) isName plain (by
      rw [raised]
      simp only [Draft.raise, mem_append, mem_map, mem_singleton, not_or]
      exact ⟨fun ⟨l, mem, same⟩ => unmarked (Nat.succ_inj.mp same ▸ mem),
        fun same => Nat.ne_of_gt positive (Nat.succ_inj.mp same)⟩)
    rw [raised] at step
    exact step
  | @branch op left right name readsLeft readsRight isName =>
    have raised : (d.raise all).label name = _ := label_raise numbered (ne_entry numbered noEntry)
    have step := @Step.branch (d.raise all) op left right name (readsLeft.raise declared)
      (readsRight.raise declared) isName
    rw [raised] at step
    exact step
  | @jump name isName =>
    have raised : (d.raise all).label name = _ := label_raise numbered (ne_entry numbered noEntry)
    have step := Step.jump (d := d.raise all) isName
    rw [raised] at step
    exact step
  | ret reads => exact .ret fun o mem => (reads o mem).raise declared
  | invoke isName plain reads =>
    exact .invoke isName plain fun o mem => (reads o mem).raise declared
  | store leads isField reads => exact .store (leads.raise declared) isField (reads.raise declared)
  | assign leads reads => exact .assign (leads.raise declared) (reads.raise declared)
  | binary leads readsLeft readsRight =>
    exact .binary (leads.raise declared) (readsLeft.raise declared) (readsRight.raise declared)
  | negate leads reads => exact .negate (leads.raise declared) (reads.raise declared)
  | load leads reads isField => exact .load (leads.raise declared) (reads.raise declared) isField
  | call leads isName plain reads =>
    exact .call (leads.raise declared) isName plain fun o mem => (reads o mem).raise declared

end Draft

variable {i : Inst} {p : Procedure} {α : Type}

/-- A listed instruction, without the end of its line. -/
def instText (p : Procedure) (i : Inst) : List Char :=
  match i with
  | .label _ => (p.showInst i).toList
  | _ => ' ' :: ' ' :: (p.showInst i).toList

private theorem toList_instLine (p : Procedure) (i : Inst) :
    (p.instLine i).toList = instText p i ++ ['\n'] := by
  cases i <;> simp [Procedure.instLine, instText]

private theorem Takes.instText {r : Reader α} {a : α} {fit : List Char → Prop}
    (takes : Takes r (p.showInst i).toList a fit) : Takes r (instText p i) a fit := by
  unfold Source.instText
  split
  · exact takes
  · exact .blank (.blank takes rfl) rfl

private theorem labelName_withEntryMarker (p : Procedure) (l : LabelId) :
    p.withEntryMarker.labelName (l + 1) = p.labelName l := by
  simp [Procedure.withEntryMarker, Procedure.labelName, Array.getD_eq_getD_getElem?,
    Array.getElem?_append]

private theorem showInst_raiseLabels (p : Procedure) (i : Inst) :
    p.withEntryMarker.showInst i.raiseLabels = p.showInst i := by
  cases i with
  | label l => simp only [Inst.raiseLabels, Procedure.showInst, labelName_withEntryMarker]
  | branch op left right target =>
    simp only [Inst.raiseLabels, Procedure.showInst, labelName_withEntryMarker]
    rfl
  | jump target => simp only [Inst.raiseLabels, Procedure.showInst, labelName_withEntryMarker]
  | ret value => cases value <;> rfl
  | _ => rfl

private theorem respelt_raiseLabels (respelt : i.Respelt) : i.raiseLabels.Respelt := by
  have operands : i.raiseLabels.operands = i.operands := by cases i <;> rfl
  refine ⟨operands ▸ respelt.narrow, fun dst word isNegation => respelt.signed dst word ?_⟩
  cases i <;> simp_all [Inst.raiseLabels]

/-- The lines of a body are read back from the marker of the entry on. -/
theorem Draft.Steps.listed (steps : d.Steps items d')
    (numbered : d.Scoped) (uncolored : ∀ v, p.reg? v = none)
    (words : ∀ x ∈ p.vars, Word x.name) (vars : d'.proc.vars.toList <+: p.vars.toList)
    (labels : d'.proc.labels.toList <+: p.labels.toList)
    (respelt : ∀ i ∈ items.flatMap Option.toList, i.Respelt)
    (noEntry : "entry" ∉ p.labels.toList.drop 1) (all : Procedure) (same : all.vars = p.vars) :
    Listed (d.raise all)
      ((items.flatMap Option.toList).map fun i => (instText p i, some i.raiseLabels))
      (d'.raise all) := by
  induction steps with
  | nil => exact .nil
  | @cons d d' d'' o items first rest ih =>
    have grows := rest.stated.grows
    rw [flatMap_cons] at respelt ⊢
    rw [forall_mem_append] at respelt
    have later := ih (first.grows.keeps numbered) vars labels respelt.2
    cases o with
    | none =>
      cases first with
      | declare isType isName plain new => exact later
    | some i =>
      refine .cons (Takes.instText ?_) later
      have known := grows.labels.trans labels
      have noEntry' : "entry" ∉ d'.proc.labels.toList.drop 1 := fun mem =>
        noEntry ((known.drop 1).subset mem)
      have declared : d.proc.vars.toList <+: all.vars.toList :=
        same ▸ (first.grows.vars.trans grows.vars).trans vars
      have step : (d.raise all).Step _ (d'.raise all) := first.raise numbered declared noEntry'
      rw [← showInst_raiseLabels]
      refine step.takes ⟨same.symm, uncolored, same ▸ words⟩ ?_
        (respelt_raiseLabels (respelt.1 i (by simp)))
      simpa [Draft.raise, Procedure.withEntryMarker] using known

/-! ## Procedures -/

private theorem formal_takes {x : String × Ty} {next : Draft → Reader α} {written : List Char}
    {a : α} {limit : Nat} (isSpelt : SpeltPair x) (new : x.1 ∉ d.proc.vars.toList.map Variable.name)
    (more : Within limit (next { d with proc := d.proc.addArg x.1 x.2 }) written a Anything)
    (ends : ∀ rest, Ends (written ++ rest)) :
    Within limit (ty >>= fun t => identifier >>= fun name => declare d true name t >>= next)
      ((spelling x).toList ++ written) a Anything := by
  have declared : declare d true x.1 x.2 = pure { d with proc := d.proc.addArg x.1 x.2 } := by
    rw [declare, if_neg (by simp [Draft.var?_eq_none new]), if_pos rfl]
  have takesTy := ty_takes isSpelt.spelt.isName
  rw [isSpelt.spelt.same] at takesTy
  rw [toList_spelling, append_assoc]
  refine .bind takesTy (identifier_forward.bind fun _ => .pure _) (.blank ?_ rfl)
    fun _ _ => .of_cons rfl
  refine .bind (identifier_takes isSpelt.isName) identifier_forward ?_ fun rest _ => ends rest
  rw [declared]
  exact more

private theorem formals_takes (first : String × Ty) (more : List (String × Ty))
    (spelt : ∀ x ∈ first :: more, SpeltPair x)
    (distinct : (d.proc.vars.toList.map Variable.name ++ (first :: more).map Prod.fst).Nodup)
    (limit rounds : Nat) (enough : limit < rounds) :
    Within limit (formals d rounds) ((commaList ((first :: more).map spelling)).toList ++ [')'])
      (d.addArgs (first :: more)) Anything := by
  induction more generalizing d first limit rounds with
  | nil =>
    obtain ⟨rounds, rfl⟩ := Nat.exists_eq_add_one.mpr (Nat.zero_lt_of_lt enough)
    rw [map_singleton, commaList_singleton]
    refine formal_takes (spelt first mem_cons_self) (fun mem =>
      disjoint_of_nodup_append distinct mem (by simp)) (Takes.within ?_ limit) fun _ => .of_cons rfl
    exact (tryChar_takes rfl).last (.pure _ _)
  | cons second more ih =>
    obtain ⟨rounds, rfl⟩ := Nat.exists_eq_add_one.mpr (Nat.zero_lt_of_lt enough)
    rw [map_cons, map_cons, toList_commaList_cons, append_assoc]
    refine formal_takes (spelt first mem_cons_self) (fun mem =>
      disjoint_of_nodup_append distinct mem (by simp)) ?_ fun _ => .of_cons rfl
    refine .look (tryChar_lacks ')') (tryChar_forward ')') ?_ fun _ _ =>
      .of_sign rfl
    change Within limit _ ([','] ++ ' ' :: ((commaList _).toList ++ [')'])) _ _
    refine .shorten (expect_takes rfl) (fun _ _ => expect_shortens)
      (fun less fewer => .blank ?_ rfl) fun _ _ => trivial
    refine ih second (fun x mem => spelt x (mem_cons_of_mem _ mem)) ?_ less
      rounds (Nat.lt_of_lt_of_le fewer (Nat.le_of_lt_succ enough))
    simpa [Procedure.addArg, Procedure.newVar] using distinct

/-- In a body without labels, the label of the block is read as a marker of the next one. -/
theorem statement_takes_entry (labels : d.proc.labels = #["entry"]) (marked : d.marked = []) :
    Takes (statement d) ("entry".toList ++ [':'])
      (some (.label 1), ⟨d.proc.newLabel "entry", [1]⟩) Anything := by
  have isLabel : d.label "entry" = (1, { d with proc := d.proc.newLabel "entry" }) := by
    simp [Draft.label, Draft.label?, labels, Procedure.nextLabel]
  have takes : Takes (statement d) ("entry".toList ++ [':']) (some (.label (d.label "entry").1),
      { (d.label "entry").2 with marked := (d.label "entry").1 :: (d.label "entry").2.marked })
      Anything :=
    statement_takes_mark (word_of_decide rfl rfl) (by decide) (by simp [isLabel, marked])
  rw [isLabel, marked] at takes
  exact takes

namespace Reading

variable {c : Cursor} {p : Procedure}

/-- What a procedure declares: its arguments and its locals. -/
structure Declares (reading : Reading c p) (args more : List (String × Ty)) : Prop where
  speltArgs : ∀ x ∈ args, SpeltPair x
  speltMore : ∀ x ∈ more, SpeltLocal x
  start : reading.start =
    (⟨Procedure.ofName reading.name (tyOfName reading.type), []⟩ : Draft).addArgs args
  final : reading.final.proc =
    { (reading.start.addLocals more).proc with labels := reading.final.proc.labels }
  vars : p.vars.toList = args.map Variable.ofDeclaration ++ more.map Variable.ofDeclaration
  showArgs : p.args.map p.showDeclaration = args.map spelling
  showMore : p.locals.map p.showDeclaration = more.map spelling

theorem exists_declares (reading : Reading c p) : ∃ args more, reading.Declares args more := by
  obtain ⟨args, speltArgs, isStart⟩ := reading.formals.formals.exists_args
  obtain ⟨more, speltMore, isFinal⟩ := reading.body.steps.exists_locals
  have vars : p.vars.toList = args.map Variable.ofDeclaration ++
      more.map Variable.ofDeclaration := by
    rw [reading.tables.1, isFinal]
    change (reading.start.addLocals more).proc.vars.toList = _
    rw [Draft.vars_addLocals, isStart, Draft.vars_addArgs]
    rfl
  have isArgs : p.args.length = args.length := by
    rw [congrArg Procedure.args reading.isProc]
    change reading.final.proc.args.length = _
    rw [isFinal]
    change (reading.start.addLocals more).proc.args.length = _
    rw [Draft.args_addLocals, isStart, Draft.length_args_addArgs]
    exact Nat.zero_add _
  have shown : p.args.map p.showDeclaration ++ p.locals.map p.showDeclaration =
      args.map spelling ++ more.map spelling := by
    have all : (List.range p.vars.size).map p.var = p.vars.toList := by
      apply ext_getElem (by simp)
      intro v inRange inRange'
      have lt : v < p.vars.size := by simpa using inRange
      simp [Procedure.var, Array.getD_eq_getD_getElem?, Array.getElem?_eq_getElem lt]
    have asVars : ∀ vs : List VarId, vs.map p.showDeclaration =
        (vs.map p.var).map fun x => x.ty.name ++ " " ++ x.name := by
      intro vs
      rw [map_map]
      rfl
    rw [← map_append, asVars, reading.linear.1.declared, Procedure.nextVar, all, vars, map_append,
      map_map, map_map]
    rfl
  obtain ⟨showArgs, showMore⟩ := append_inj shown (by simpa using isArgs)
  exact ⟨args, more, speltArgs, speltMore, isStart, isFinal, vars, showArgs, showMore⟩

/-- The lines of a listed body. -/
def bodyLines (p : Procedure) (more : List (String × Ty)) : List (List Char × Option Inst) :=
  more.map (fun x => (' ' :: ' ' :: ((spelling x).toList ++ [';']), none)) ++
    ('\n' :: ("entry".toList ++ [':']), some (.label 1)) :: p.insts.map
    fun i => (instText p i, some i.raiseLabels)

/-- A listed procedure, without the end of its last line. -/
def headText (p : Procedure) (args : List (String × Ty)) : List Char :=
  p.returns.name.toList ++ ' ' ::
    (p.name.toList ++ '(' :: ((commaList (args.map spelling)).toList ++ [')']))

variable {reading : Reading c p} {args more : List (String × Ty)}

theorem Declares.toList_listing (declares : reading.Declares args more) :
    p.listing.toList = headText p args ++ ' ' :: '\x7b' :: '\n' ::
      (linesText (bodyLines p more) ++ ['\x7d']) ++ ['\n'] := by
  obtain ⟨rest, isLabels, -⟩ := reading.final_scoped.labels
  have entry : p.labelName 0 = "entry" := by
    rw [Procedure.labelName, reading.tables.2.1, Array.getD_eq_getD_getElem?,
      ← Array.getElem?_toList, isLabels]
    rfl
  have blocks := reading.blocks
  rw [← reading.insts] at blocks
  have locals_ : String.join (p.locals.map fun v => "  " ++ p.showDeclaration v ++ ";\n") =
      String.join ((p.locals.map p.showDeclaration).map fun text => "  " ++ text ++ ";\n") := by
    rw [map_map]
    rfl
  rw [Procedure.listing, declares.showArgs, locals_, declares.showMore, blocks]
  simp [headText, linesText, bodyLines, Procedure.blockLines, Block.ofInsts, entry, toList_instLine,
    flatMap_map]

theorem Declares.names (declares : reading.Declares args more) :
    (args.map Prod.fst ++ more.map Prod.fst).Nodup := by
  have distinct := reading.final_scoped.names
  rw [← reading.tables.1, declares.vars, map_append, map_map, map_map] at distinct
  exact distinct

private theorem Declares.listed (declares : reading.Declares args more)
    (respelt : ∀ i ∈ p.insts, i.Respelt) (noEntry : "entry" ∉ p.labels.toList.drop 1) :
    Listed reading.start (bodyLines p more) (reading.final.raise reading.final.proc) := by
  have marked : reading.start.marked = [] := by rw [declares.start, (Draft.marked_addArgs _ _).1]
  have labels : reading.start.proc.labels = #["entry"] := by
    rw [declares.start, (Draft.marked_addArgs _ _).2]
    rfl
  have afterLocals := reading.start.marked_addLocals more
  rw [marked, labels] at afterLocals
  have raised : reading.start.raise reading.final.proc =
      ⟨(reading.start.addLocals more).proc.newLabel "entry", [1]⟩ := by
    have same :=
      congrArg (fun q : Procedure => { q with labels := #["entry", "entry"] }) declares.final
    rw [Draft.raise, marked, labels, Procedure.newLabel, afterLocals.2]
    exact congrArg (Draft.mk · [1]) same
  have entry := (statement_takes_entry afterLocals.2 afterLocals.1).blank
    (show Text.isBlank '\n' = true from rfl)
  rw [← raised] at entry
  refine (listed_addLocals declares.speltMore ?_).append (.cons entry ?_)
  · rw [declares.start, Draft.vars_addArgs]
    simpa [Procedure.ofName, Function.comp_def, Variable.ofDeclaration] using declares.names
  · have steps := reading.body.steps
    have items := reading.insts_eq.trans reading.insts.symm
    have words : ∀ x ∈ p.vars, Word x.name := by
      intro x mem
      rw [← Array.mem_toList_iff, declares.vars, ← map_append] at mem
      obtain ⟨y, inDeclared, rfl⟩ := mem_map.mp mem
      rcases mem_append.mp inDeclared with isArg | isLocal
      · exact (declares.speltArgs y isArg).isName
      · exact (declares.speltMore y isLocal).isName
    rw [← items]
    exact steps.listed reading.formal.1 reading.linear.1.uncolored words
      (by rw [reading.tables.1]) (by rw [reading.tables.2.1]) (items ▸ respelt) noEntry _
      reading.tables.1.symm

theorem returns_spelt (reading : Reading c p) : Spelt p.returns ∧ p.returns.name ≠ "class" := by
  have other := @name_tyOfName_not_mem reading.type ["class"] (by simpa using reading.notClass)
    (by decide)
  rw [reading.header.2]
  exact ⟨spelt_tyOfName (identifier_eq_ok reading.readType).1, by simpa using other⟩

/-- The body that is read back is the one with the marker. -/
theorem setInsts_raise (reading : Reading c p) (more : List (String × Ty)) :
    (reading.final.raise reading.final.proc).proc.setInsts Procedure.entry
      ((bodyLines p more).flatMap (·.2.toList)) = p.withEntryMarker := by
  have insts : (bodyLines p more).flatMap (·.2.toList) =
      .label 1 :: p.insts.map Inst.raiseLabels := by
    simp [bodyLines, flatMap_map, ← map_eq_flatMap]
  rw [insts, reading.insts, congrArg Procedure.withEntryMarker reading.isProc]
  have modified (f : Block → Block) : #[Block.ofInsts 0 []].modify Procedure.entry f =
      #[f (Block.ofInsts 0 [])] := rfl
  simp only [Draft.raise, Procedure.withEntryMarker, Procedure.setInsts, Procedure.modifyBlock,
    reading.final_scoped.body, modified, map_toArray, map_cons, map_nil]

section

variable (declares : reading.Declares args more) (respelt : ∀ i ∈ p.insts, i.Respelt)
  (noEntry : "entry" ∉ p.labels.toList.drop 1)

include declares respelt noEntry

private theorem Declares.takes_body : Takes (expect '\x7b' >>= fun _ => get >>= fun c =>
        Reader.body p.name reading.start (c.rest.length + 1) >>= fun r =>
          (pure (r.2.proc.setInsts Procedure.entry r.1) : Reader Procedure))
      (' ' :: '\x7b' :: '\n' :: (linesText (bodyLines p more) ++ ['\x7d'])) p.withEntryMarker
        Anything := by
  have listed := declares.listed respelt noEntry
  rw [← setInsts_raise reading more]
  refine .blank ((expect_takes rfl).cons (.blank ?_ rfl) fun _ _ => trivial) rfl
  have bounded : ∀ limit rounds, limit < rounds →
      Within limit (Reader.body p.name reading.start rounds >>=
      fun r => (pure (r.2.proc.setInsts Procedure.entry r.1) : Reader Procedure))
      (linesText (bodyLines p more) ++ ['\x7d']) _ Anything :=
    fun limit rounds enough => (listed.takes p.name limit rounds enough).map _
  exact .rounds bounded

/-- A procedure that was read is read back from its listing, with the marker of its entry. -/
theorem Declares.takes {program : Program} (new : program.procedure? p.name = none) :
    Takes (procedure program)
      (headText p args ++ ' ' :: '\x7b' :: '\n' :: (linesText (bodyLines p more) ++ ['\x7d']))
      p.withEntryMarker Anything := by
  have takesBody := declares.takes_body respelt noEntry
  have spelt := reading.returns_spelt.1
  have isName : Word p.name := reading.header.1 ▸ (identifier_eq_ok reading.readName).1
  have takesTy := ty_takes spelt.isName
  rw [spelt.same] at takesTy
  have isStart := declares.start
  rw [← reading.header.1, ← reading.header.2] at isStart
  have text (rest : List Char) : headText p args ++ rest = p.returns.name.toList ++ ' ' ::
      (p.name.toList ++ '(' :: ((commaList (args.map spelling)).toList ++ [')'] ++ rest)) := by
    simp [headText]
  rw [text]
  refine takesTy.bind (.blank ?_ rfl) fun _ _ => .of_cons rfl
  refine (identifier_takes isName).bind ?_ fun _ _ => .of_cons rfl
  rw [if_neg (by simp [new])]
  refine (expect_takes rfl).cons ?_ fun _ _ => trivial
  rw [isStart] at takesBody
  cases args with
  | nil =>
    refine (tryChar_takes rfl).cons ?_ fun _ _ => trivial
    refine (Takes.pure _ Anything).look ?_ fun _ _ => trivial
    exact takesBody
  | cons first others =>
    have distinct := (nodup_append.mp declares.names).1
    have takesFormals := formals_takes (d := ⟨Procedure.ofName p.name p.returns, []⟩) first others
      declares.speltArgs distinct
    have bounded : ∀ limit rounds, limit < rounds → Within limit
        (Reader.formals ⟨Procedure.ofName p.name p.returns, []⟩ rounds >>= fun d =>
          expect '\x7b' >>= fun _ =>
          get >>= fun c => Reader.body p.name d (c.rest.length + 1) >>= fun r =>
            (pure (r.2.proc.setInsts Procedure.entry r.1) : Reader Procedure))
        ((commaList ((first :: others).map spelling)).toList ++ [')'] ++ ' ' :: '\x7b' :: '\n' ::
          (linesText (bodyLines p more) ++ ['\x7d'])) p.withEntryMarker Anything :=
      fun limit rounds enough => (takesFormals limit rounds enough).followed takesBody
        fun _ _ => trivial
    refine (tryChar_lacks ')').look (.rounds bounded) fun rest _ => ?_
    obtain ⟨tail, written⟩ := exists_toList_commaList (spelling first) (others.map spelling)
    rw [map_cons, written, toList_spelling]
    simp only [append_assoc]
    exact .of_word (declares.speltArgs first mem_cons_self).spelt.isName rfl _

end

end Reading

end Source

end ArmBackend
