import ArmBackend.Proofs.Descent.Run
import ArmBackend.Proofs.Emission.Layout

/-!
Contract: the labels of a compiled program, and what mentions of them stand for.

All labels but those of procedures are numbered, so labels clash only where the label of a procedure
is that of another one or looks like a number that was handed out. Branches stay in their procedure,
calls go to procedures of the program or to shared symbols, and literals are found in the data.

Owns: when labels are distinct, and that every label mentioned resolves.
Does not own: what the code between the labels does.
-/

namespace ArmBackend

open List Assembly Procedure

variable {asm : Module} {config : Config} {done : List Procedure} {e : Emitter} {p : Procedure}
  {program : Program} {sections : List Section} {stats : Statistics} {text : String}

/-! ## Compilation as emission of what the passes leave -/

theorem names_of_compiled {procedures : List Procedure}
    (compiled : List.Forall₂ Procedure.Compiled procedures done) :
    done.map (·.name) = procedures.map (·.name) := by
  induction compiled with
  | nil => rfl
  | cons one _ ih =>
    rw [map_cons, map_cons, one.lineage.name, ih]

theorem Program.compile_eq_ok (ok : program.compile config = .ok (asm, stats)) :
    ∃ colored stats', program.allocate config = .ok (colored, stats') ∧
      colored.emit stats' = (.ok asm, stats) := by
  unfold Program.compile at ok
  split at ok
  · cases ok
  · obtain ⟨⟨colored, stats'⟩, allocated, ok⟩ := bind_eq_ok ok
    refine ⟨colored, stats', allocated, ?_⟩
    dsimp only at ok
    split at ok
    · cases ok
    · rename_i emitted
      cases ok
      exact emitted

/-- The module of a program is all there is of some emission of what the passes left. -/
theorem Program.holds_compile (read : Program.ofText text = .ok program)
    (ok : program.compile config = .ok (asm, stats)) :
    ∃ colored stats' e, program.allocate config = .ok (colored, stats') ∧
      List.Forall₂ Procedure.Compiled program.procedures colored.procedures ∧
      Emitter.Holds e colored.procedures ∧ asm = e.module := by
  obtain ⟨colored, stats', allocated, emitted⟩ := Program.compile_eq_ok ok
  have compiled := Program.compiled_allocate read allocated
  have inForm : ∀ q ∈ colored.procedures, q.WellFormed ∧ q.Ordered := by
    intro q mem
    obtain ⟨p, -, one⟩ := Tables.exists_of_forall₂ compiled mem
    exact one.inForm
  obtain ⟨e, holds, isModule⟩ := Program.holds_emit inForm emitted
  exact ⟨colored, stats', e, allocated, compiled, holds, isModule⟩

/-! ## Labels -/

/-- Labels, with those of procedures in front. -/
theorem Emitter.Holds.labels_module (holds : e.Holds done) :
    ((e.module.code ++ e.module.data).map (·.label)).Perm
      ((done.map (·.name)).map Convention.procedureLabel ++
        (List.range e.nextLabel).map localLabel) := by
  have areLabels : (e.module.code ++ e.module.data).map (·.label) =
      e.code.map (·.label) ++ e.strings.map (·.2) := by
    simp [Emitter.module, Function.comp_def]
  rw [areLabels, map_map]
  exact holds.labels

/-- Labels are distinct exactly if those of procedures are, and none of them is one of the numbered
labels that the module has besides. -/
theorem Program.nodup_labels_iff {text : String} {program : Program}
    {config : Config} {asm : Module} {stats : Statistics} (read : Program.ofText text = .ok program)
    (ok : program.compile config = .ok (asm, stats)) :
    ((asm.code ++ asm.data).map (·.label)).Nodup ↔
      (program.procedures.map fun p => Convention.procedureLabel p.name).Nodup ∧
        ∀ p ∈ program.procedures, ∀ n, n + program.procedures.length <
          (asm.code ++ asm.data).length → Convention.procedureLabel p.name ≠ localLabel n := by
  obtain ⟨colored, stats', e, -, compiled, holds, rfl⟩ := Program.holds_compile read ok
  have labels := holds.labels_module
  rw [names_of_compiled compiled] at labels
  have length : (e.module.code ++ e.module.data).length =
      program.procedures.length + e.nextLabel := by
    have same := labels.length_eq
    simpa only [length_append, length_map, length_range] using same
  have numbered : ((List.range e.nextLabel).map localLabel).Nodup :=
    nodup_range.map fun _ _ => localLabel_inj.mp
  rw [labels.nodup_iff, nodup_append, map_map, length]
  constructor
  · rintro ⟨distinct, -, apart⟩
    refine ⟨distinct, fun p mem n below => apart _ (mem_map_of_mem mem) _ ?_⟩
    exact mem_map_of_mem (mem_range.mpr (by omega))
  · rintro ⟨distinct, apart⟩
    refine ⟨distinct, numbered, fun label isProcedure label' isNumber => ?_⟩
    obtain ⟨p, mem, rfl⟩ := mem_map.mp isProcedure
    obtain ⟨n, below, rfl⟩ := mem_map.mp isNumber
    exact apart p mem n (by have := mem_range.mp below; omega)

/-- The labels of the module of a text. -/
def Program.labelsOf (text : String) : Option (List String) :=
  (Program.ofText text).toOption.bind fun program =>
    (program.compile .standard).toOption.map fun result =>
      (result.1.code ++ result.1.data).map (·.label)

theorem Program.exists_of_labelsOf {labels : List String}
    (evaluated : Program.labelsOf text = some labels) :
    ∃ program asm stats, Program.ofText text = .ok program ∧
      program.compile .standard = .ok (asm, stats) ∧
      (asm.code ++ asm.data).map (·.label) = labels := by
  obtain ⟨program, read, evaluated⟩ := Tables.exists_ok_of_bind evaluated
  obtain ⟨⟨asm, stats⟩, compiled, areLabels⟩ := Tables.exists_ok_of_map evaluated
  exact ⟨program, asm, stats, read, compiled, areLabels⟩

/-- The label of the procedure is none of the four numbered ones. -/
theorem Program.nodup_labels_f :
    ∃ program asm stats, Program.ofText "Void f() \x7b return; \x7d" = .ok program ∧
      program.compile .standard = .ok (asm, stats) ∧ ((asm.code ++ asm.data).map (·.label)).Nodup ∧
      ∀ p ∈ program.procedures, ∀ n, n + program.procedures.length < (asm.code ++ asm.data).length →
        Convention.procedureLabel p.name ≠ localLabel n := by
  have evaluated : Program.labelsOf "Void f() \x7b return; \x7d" =
      some [".f", ".L0", ".L1", ".L2"] := by
    decide +kernel
  obtain ⟨program, asm, stats, read, compiled, areLabels⟩ := Program.exists_of_labelsOf evaluated
  have distinct : ((asm.code ++ asm.data).map (·.label)).Nodup := areLabels ▸ by decide
  exact ⟨program, asm, stats, read, compiled, distinct,
    ((Program.nodup_labels_iff read compiled).mp distinct).2⟩

/-- A procedure can have the label of a block. -/
theorem Program.not_nodup_labels_L0 :
    ∃ program asm stats, Program.ofText "Void L0() \x7b\n  return;\n\x7d\n" = .ok program ∧
      program.compile .standard = .ok (asm, stats) ∧
      ¬((asm.code ++ asm.data).map (·.label)).Nodup := by
  have evaluated : Program.labelsOf "Void L0() \x7b\n  return;\n\x7d\n" =
      some [".L0", ".L0", ".L1", ".L2"] := by
    decide +kernel
  obtain ⟨program, asm, stats, read, compiled, areLabels⟩ := Program.exists_of_labelsOf evaluated
  exact ⟨program, asm, stats, read, compiled, areLabels ▸ by decide⟩

/-! ## Mentions of labels -/

/-- The data section of a string literal. -/
def Assembly.Section.ofLiteral (text label : String) : Section := ⟨label, [.string text], false⟩

/-- The sections that a procedure contributes to a module: one for its entry, one for each block,
and one for its epilogue. The code of a block calls what the block calls, and takes the addresses of
its literals; the entry and the epilogue do neither. Branches stay among the blocks and the
epilogue. -/
structure Procedure.Contributes (p : Procedure) (data sections : List Section) : Prop where
  parts : ∃ entry order blocks epilogue, sections = entry :: (blocks ++ [epilogue]) ∧
    entry.label = Convention.procedureLabel p.name ∧ entry.isEntryPoint = true ∧
    order.Perm p.blockIds ∧ (∀ s ∈ blocks ++ [epilogue], s.isEntryPoint = false) ∧
    List.Forall₂ (fun b s =>
      s.instrs.filterMap Instr.callTarget? =
        ((p.block b).insts.filterMap Inst.callee?).map Callee.symbol ∧
      List.Forall₂ (fun text label => Section.ofLiteral text label ∈ data)
        ((p.block b).insts.filterMap Inst.literal?)
        (s.instrs.filterMap Instr.loadedLabel?)) order blocks ∧
    Quiet entry.instrs ∧ Quiet epilogue.instrs
  branches : ∀ s ∈ sections, ∀ label ∈ s.instrs.filterMap Instr.branchTarget?,
    label ∈ sections.tail.map (·.label)

/-- Every label that a module mentions stands for what it should. -/
structure Assembly.Module.Resolves (asm : Module) (procedures : List Procedure) : Prop where
  sections : ∃ parts : List (List Section), asm.code = parts.flatten ∧
    List.Forall₂ (fun p part => p.Contributes asm.data part) procedures parts
  calls : ∀ s ∈ asm.code, ∀ label ∈ s.instrs.filterMap Instr.callTarget?,
    (∃ p ∈ procedures, label = Convention.procedureLabel p.name) ∨ label ∈ asm.globals
  data : ∃ literals : List (String × String),
    asm.data = literals.map (fun literal => Section.ofLiteral literal.1 literal.2) ∧
    (literals.map (·.1)).Nodup ∧
    ∀ text, text ∈ literals.map (·.1) ↔ ∃ p ∈ procedures, text ∈ p.insts.filterMap Inst.literal?
  globals : asm.globals.Nodup ∧ ∀ symbol, symbol ∈ asm.globals ↔
    symbol = "main" ∨ ∃ p ∈ procedures, symbol ∈ p.insts.filterMap Inst.external?

theorem Procedure.Emitted.contributes {first : Nat}
    (emitted : p.Emitted first e.strings sections) : p.Contributes e.module.data sections := by
  obtain ⟨prologue, order, blocks, epilogue, perm, renders, quiet, quiet', rfl⟩ := emitted.parts
  have notEntry : ∀ s ∈ blocks, s.isEntryPoint = false := fun s mem => by
    obtain ⟨b, -, one⟩ := Tables.exists_of_forall₂ renders mem
    exact one.notEntry
  refine ⟨⟨_, order, blocks, _, rfl, rfl, rfl, perm, ?_, ?_, quiet, quiet'⟩,
    fun s mem label isTarget => ?_⟩
  · exact forall_mem_append.mpr ⟨notEntry, forall_mem_singleton.mpr rfl⟩
  · refine renders.imp fun b s one => ⟨one.calls, one.loads.imp fun text label mem => ?_⟩
    exact mem_map.mpr ⟨(text, label), mem, rfl⟩
  · obtain ⟨n, atMost, rfl⟩ := emitted.branches s mem label isTarget
    have labels := emitted.labels
    rw [map_cons, perm_cons] at labels
    refine labels.mem_iff.mpr (mem_map_of_mem (mem_range'_1.mpr ?_))
    omega

/-- What a contributed section calls is called by an instruction of the procedure. -/
theorem Procedure.Contributes.exists_callee {data : List Section}
    (contributes : p.Contributes data sections) {s : Section} (mem : s ∈ sections) {label : String}
    (isTarget : label ∈ s.instrs.filterMap Instr.callTarget?) :
    ∃ callee ∈ p.insts.filterMap Inst.callee?, label = callee.symbol := by
  obtain ⟨entry, order, blocks, epilogue, rfl, -, -, perm, -, all, quiet, quiet'⟩ :=
    contributes.parts
  rcases mem_cons.mp mem with rfl | mem
  · rw [quiet.1] at isTarget
    cases isTarget
  · rcases mem_append.mp mem with inBlocks | isLast
    · obtain ⟨b, -, calls, -⟩ := Tables.exists_of_forall₂ all inBlocks
      rw [calls] at isTarget
      obtain ⟨callee, inBlock, rfl⟩ := mem_map.mp isTarget
      obtain ⟨i, inInsts, isCallee⟩ := mem_filterMap.mp inBlock
      exact ⟨callee, mem_filterMap.mpr ⟨i, mem_insts.mpr ⟨b, inInsts⟩, isCallee⟩, rfl⟩
    · obtain rfl := mem_singleton.mp isLast
      rw [quiet'.1] at isTarget
      cases isTarget

theorem Inst.eq_call_of_callee? {i : Inst} {callee : Callee} (calls : i.callee? = some callee) :
    ∃ dst args, i = .call dst callee args := by
  cases i with
  | call dst callee' args =>
    obtain rfl := Option.some.inj calls
    exact ⟨dst, args, rfl⟩
  | _ => cases calls

/-- In a compiled program every mention of a label resolves: branches in their procedure, calls to a
procedure of the program or to a shared symbol, and addresses to the one data section that holds the
literal. -/
theorem Program.resolves_compile {text : String} {program : Program}
    {config : Config} {asm : Module} {stats : Statistics} (read : Program.ofText text = .ok program)
    (ok : program.compile config = .ok (asm, stats)) :
    ∃ colored stats', program.allocate config = .ok (colored, stats') ∧
      colored.procedures.map (·.name) = program.procedures.map (·.name) ∧
      asm.Resolves colored.procedures := by
  obtain ⟨colored, stats', e, allocated, compiled, holds, rfl⟩ := Program.holds_compile read ok
  have names := names_of_compiled compiled
  refine ⟨colored, stats', allocated, names, ?_⟩
  obtain ⟨parts, isCode, emitted⟩ := holds.sections
  have contributed : List.Forall₂ (fun p part => p.Contributes e.module.data part)
      colored.procedures (parts.map (·.2)) :=
    List.forall₂_map_right_iff.mpr (emitted.imp fun _ _ one => one.contributes)
  have isFlat : e.module.code = (parts.map (·.2)).flatten := by rw [← flatMap_def]; exact isCode
  refine ⟨⟨_, isFlat, contributed⟩, fun s mem label isTarget => ?_, ?_, ?_, holds.globals⟩
  · rw [isFlat] at mem
    obtain ⟨part, isPart, inPart⟩ := mem_flatten.mp mem
    obtain ⟨q, isDone, one⟩ := Tables.exists_of_forall₂ contributed isPart
    obtain ⟨callee, isCallee, rfl⟩ := one.exists_callee inPart isTarget
    obtain ⟨i, inInsts, calls⟩ := mem_filterMap.mp isCallee
    cases callee with
    | external name =>
      refine .inr ((holds.globals name).mpr (.inr ⟨q, isDone, mem_filterMap.mpr ⟨i, inInsts, ?_⟩⟩))
      rw [Inst.external?, calls]
      rfl
    | procedure name =>
      obtain ⟨dst, args, rfl⟩ := Inst.eq_call_of_callee? calls
      obtain ⟨p, inProgram, known⟩ := Tables.exists_of_forall₂ compiled isDone
      have among :=
        known.lineage.calls _ (Program.callsAmong_of_ofText read p inProgram) _ _ _ inInsts
      rw [← names] at among
      obtain ⟨r, isDone', rfl⟩ := mem_map.mp among
      exact .inl ⟨r, isDone', rfl⟩
  · exact ⟨e.strings, rfl, holds.literalsNodup, holds.literals⟩
  · exact holds.ascending.imp fun below same => absurd (same ▸ below) (String.lt_irrefl _)

/-- A procedure, and one that calls it and a procedure of another module. -/
def Program.greetingText : String :=
  "Void f() \x7b return; \x7d Void main() \x7b f(); print(\"hi\"); print(\"hi\"); \x7d"

theorem Program.resolves_compile_greeting :
    ∃ program asm stats, Program.ofText Program.greetingText = .ok program ∧
      program.compile .standard = .ok (asm, stats) ∧ asm.globals = ["main", "print"] ∧
      asm.data = [Section.ofLiteral "hi" ".L6"] ∧
      ∃ colored stats', program.allocate .standard = .ok (colored, stats') ∧
        colored.procedures.map (·.name) = program.procedures.map (·.name) ∧
        asm.Resolves colored.procedures := by
  have evaluated : ((Program.ofText Program.greetingText).toOption.bind fun program =>
      (program.compile .standard).toOption.map fun result => (result.1.globals, result.1.data)) =
      some (["main", "print"], [Section.ofLiteral "hi" ".L6"]) := by
    decide +kernel
  obtain ⟨program, isRead, evaluated⟩ := Tables.exists_ok_of_bind evaluated
  obtain ⟨⟨asm, stats⟩, isCompiled, isResult⟩ := Tables.exists_ok_of_map evaluated
  obtain ⟨globals, data⟩ := Prod.mk.inj isResult
  exact ⟨program, asm, stats, isRead, isCompiled, globals, data,
    Program.resolves_compile isRead isCompiled⟩

end ArmBackend
