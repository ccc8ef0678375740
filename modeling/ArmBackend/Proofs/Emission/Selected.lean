import ArmBackend.Emission.Layout
import ArmBackend.Proofs.Fixpoint
import Mathlib.Data.List.Nodup

/-!
Contract: the labels that the code of an instruction mentions, and what emission leaves behind
besides code.

An action of emission adds a label for each string literal that it meets for the first time, and a
shared symbol for each external call; it takes nothing away. Branches stay in the procedure, calls
go to the symbol of the callee, and addresses are taken of the string literals of the instruction.
All other code mentions no label.

Owns: how actions succeed one after the other, the growth of labels, literals and shared symbols,
and the labels mentioned by selected code.
Does not own: where the labels stand.
-/

namespace ArmBackend

open List Assembly

variable {u : Unit} {s field : String}

namespace Emit

variable {α β : Type} {e e' : Emitter}

/-- The result of an action from a state, with the state it leaves. -/
def outcome (m : Emit α) (e : Emitter) : Except Error α × Emitter := m.run.run e

/-- The action succeeds from a state, with a result and the state it leaves. -/
def Gives (m : Emit α) (e : Emitter) (a : α) (e' : Emitter) : Prop := m.outcome e = (.ok a, e')

theorem outcome_bind (m : Emit α) (f : α → Emit β) (e : Emitter) :
    (m >>= f).outcome e = match m.outcome e with
      | (.ok a, mid) => (f a).outcome mid
      | (.error fault, mid) => (.error fault, mid) := by
  change (match m.outcome e with
    | (r, mid) => (StateT.run (ExceptT.bindCont (m := StateM Emitter) f r) mid : Id _)) = _
  rcases m.outcome e with ⟨_ | _, _⟩ <;> rfl

@[simp] theorem gives_pure {a b : α} : Gives (pure a) e b e' ↔ b = a ∧ e' = e := by
  change ((.ok a, e) : Except Error α × Emitter) = (.ok b, e') ↔ _
  simp [eq_comm]

@[simp] theorem gives_bind {m : Emit α} {f : α → Emit β} {b : β} :
    Gives (m >>= f) e b e' ↔ ∃ a mid, Gives m e a mid ∧ Gives (f a) mid b e' := by
  unfold Gives
  rw [outcome_bind]
  rcases m.outcome e with ⟨fault | a, mid⟩
  · simp
  · constructor
    · exact fun gives => ⟨a, mid, rfl, gives⟩
    · rintro ⟨a', mid', same, gives⟩
      cases same
      exact gives

@[simp] theorem gives_lift {x : Except Error α} {a : α} :
    Gives (liftM x) e a e' ↔ x = .ok a ∧ e' = e := by
  change ((x, e) : Except Error α × Emitter) = (.ok a, e') ↔ _
  simp [eq_comm]

@[simp] theorem gives_modify {f : Emitter → Emitter} :
    Gives (modify f) e u e' ↔ e' = f e := by
  change ((.ok (), f e) : Except Error Unit × Emitter) = (.ok u, e') ↔ _
  simp [eq_comm]

@[simp] theorem gives_get {a : Emitter} : Gives get e a e' ↔ a = e ∧ e' = e := by
  change ((.ok e, e) : Except Error Emitter × Emitter) = (.ok a, e') ↔ _
  simp [eq_comm]

@[simp] theorem gives_set {s : Emitter} {u : PUnit} : Gives (set s) e u e' ↔ e' = s := by
  change ((.ok (), s) : Except Error Unit × Emitter) = (.ok u, e') ↔ _
  simp [eq_comm]

private theorem not_gives_throw {a : α} {fault : Error} : ¬Gives (throw fault) e a e' := by
  intro gives
  cases gives

theorem gives_reserveLabels {count n : Nat} : Gives (reserveLabels count) e n e' ↔
    n = e.nextLabel ∧ e' = { e with nextLabel := e.nextLabel + count } := by
  simp only [reserveLabels, gives_bind, gives_get, gives_set, gives_pure]
  constructor
  · rintro ⟨_, _, ⟨rfl, rfl⟩, _, _, rfl, rfl, rfl⟩
    exact ⟨rfl, rfl⟩
  · rintro ⟨rfl, rfl⟩
    exact ⟨_, _, ⟨rfl, rfl⟩, (), _, rfl, rfl, rfl⟩

theorem gives_mapM_cons {f : α → Emit β} {a : α} {rest : List α} {results : List β} :
    Gives ((a :: rest).mapM f) e results e' ↔ ∃ first mid others,
      Gives (f a) e first mid ∧ Gives (rest.mapM f) mid others e' ∧ results = first :: others := by
  rw [mapM_cons]
  simp only [gives_bind, gives_pure]
  constructor
  · rintro ⟨first, mid, one, others, _, more, rfl, rfl⟩
    exact ⟨first, mid, others, one, more, rfl⟩
  · rintro ⟨first, mid, others, one, more, rfl⟩
    exact ⟨first, mid, one, others, _, more, rfl, rfl⟩

end Emit

/-! ## Growth -/

/-- What an action does to the state that meets the string literals `literals` and calls the
external symbols `externals`. -/
structure Emitter.Grows (e e' : Emitter) (literals externals : List String) : Prop where
  code : e'.code = e.code
  strings : ∃ more, e'.strings = e.strings ++ more ∧ e'.nextLabel = e.nextLabel + more.length ∧
    more.map (·.2) = (List.range' e.nextLabel more.length).map localLabel ∧
    (more.map (·.1)).Nodup ∧
    ∀ s, s ∈ more.map (·.1) ↔ s ∈ literals ∧ s ∉ e.strings.map (·.1)
  globals : ∀ s, s ∈ e'.globals ↔ s ∈ e.globals ∨ s ∈ externals
  ascending : e.globals.Pairwise (· < ·) → e'.globals.Pairwise (· < ·)

namespace Emitter.Grows

variable {e e₁ e₂ : Emitter} {literals more externals others : List String}

theorem refl (e : Emitter) : e.Grows e [] [] where
  code := rfl
  strings := ⟨[], by simp⟩
  globals := by simp
  ascending := id

private theorem of_stats {e' : Emitter} (grows : e.Grows e' literals externals)
    (stats : Statistics) : e.Grows { e' with stats := stats } literals externals :=
  ⟨grows.code, grows.strings, grows.globals, grows.ascending⟩

theorem trans (first : e.Grows e₁ literals externals) (second : e₁.Grows e₂ more others) :
    e.Grows e₂ (literals ++ more) (externals ++ others) := by
  obtain ⟨early, isEarly, count, labels, nodup, mem⟩ := first.strings
  obtain ⟨late, isLate, count', labels', nodup', mem'⟩ := second.strings
  have known : ∀ s, s ∈ e₁.strings.map (·.1) ↔ s ∈ e.strings.map (·.1) ∨ s ∈ early.map (·.1) := by
    intro s
    rw [isEarly, map_append, mem_append]
  refine ⟨second.code.trans first.code, ⟨early ++ late, ?_, ?_, ?_, ?_, fun s => ?_⟩, fun s => ?_,
    second.ascending ∘ first.ascending⟩
  · rw [isLate, isEarly, append_assoc]
  · rw [count', count, length_append, Nat.add_assoc]
  · rw [map_append, labels, labels', count, length_append, ← map_append, range'_append_1]
  · rw [map_append]
    refine nodup_append.mpr ⟨nodup, nodup', ?_⟩
    rintro s isEarly _ isLate rfl
    exact ((mem' s).mp isLate).2 ((known s).mpr (.inr isEarly))
  · rw [map_append, mem_append, mem, mem', known, mem, mem_append]
    tauto
  · rw [second.globals, first.globals, mem_append, or_assoc]

/-- The order in which literals and symbols are met does not matter here. -/
theorem of_perm (grows : e.Grows e₁ literals externals) (sameLiterals : literals.Perm more)
    (sameExternals : externals.Perm others) : e.Grows e₁ more others := by
  obtain ⟨added, isAdded, count, labels, nodup, mem⟩ := grows.strings
  refine ⟨grows.code, ⟨added, isAdded, count, labels, nodup, fun s => ?_⟩, fun s => ?_,
    grows.ascending⟩
  · rw [mem, sameLiterals.mem_iff]
  · rw [grows.globals, sameExternals.mem_iff]

theorem mem_strings {e' : Emitter} (grows : e.Grows e' literals externals) {entry : String × String}
    (mem : entry ∈ e.strings) : entry ∈ e'.strings := by
  obtain ⟨added, isAdded, -⟩ := grows.strings
  rw [isAdded]
  exact mem_append_left _ mem

end Emitter.Grows

namespace Assembly.Module

variable {symbol : String} {symbols : List String}

theorem mem_insertSorted : s ∈ insertSorted symbol symbols ↔ s = symbol ∨ s ∈ symbols := by
  fun_induction insertSorted symbol symbols with
  | case1 => simp
  | case2 rest => simp
  | case3 s' rest _ _ => simp
  | case4 s' rest _ _ ih =>
    rw [mem_cons, ih, mem_cons]
    tauto

private theorem ascending_insertSorted (ascending : symbols.Pairwise (· < ·)) :
    (insertSorted symbol symbols).Pairwise (· < ·) := by
  fun_induction insertSorted symbol symbols with
  | case1 => exact pairwise_singleton ..
  | case2 rest => exact ascending
  | case3 s rest _ before =>
    refine pairwise_cons.mpr ⟨fun t mem => ?_, ascending⟩
    rcases mem_cons.mp mem with rfl | later
    · exact before
    · exact String.lt_trans before ((pairwise_cons.mp ascending).1 t later)
  | case4 s rest other notBefore ih =>
    obtain ⟨least, ascending⟩ := pairwise_cons.mp ascending
    refine pairwise_cons.mpr ⟨fun t mem => ?_, ih ascending⟩
    rcases mem_insertSorted.mp mem with rfl | later
    · exact Std.lt_of_le_of_ne (String.not_lt.mp notBefore) (Ne.symm other)
    · exact least t later

end Assembly.Module

namespace Emit

variable {e e' : Emitter}

/-- A literal gets its label on first use. -/
theorem stringLabel_spec {label : String} (gives : Gives (stringLabel s) e label e') :
    e.Grows e' [s] [] ∧ (s, label) ∈ e'.strings := by
  simp only [stringLabel, gives_bind, gives_get] at gives
  obtain ⟨_, e, ⟨rfl, rfl⟩, gives⟩ := gives
  split at gives
  · rename_i known found
    obtain ⟨rfl, rfl⟩ := gives_pure.mp gives
    obtain ⟨front, back, isStrings, -⟩ := lookup_eq_some_iff.mp found
    have mem : (s, label) ∈ e'.strings := by simp [isStrings]
    refine ⟨⟨rfl, ⟨[], by simp, rfl, rfl, nodup_nil, fun t => ?_⟩, by simp, id⟩, mem⟩
    simp only [map_nil, not_mem_nil, mem_singleton, false_iff, not_and, not_not]
    rintro rfl
    exact mem_map_of_mem mem
  · rename_i absent
    simp only [gives_bind, gives_reserveLabels, gives_modify, gives_pure] at gives
    obtain ⟨_, _, ⟨rfl, rfl⟩, _, _, rfl, rfl, rfl⟩ := gives
    have new : s ∉ e.strings.map (·.1) := by
      intro mem
      obtain ⟨entry, isEntry, same⟩ := mem_map.mp mem
      simpa [same] using lookup_eq_none_iff.mp absent entry isEntry
    refine ⟨⟨rfl, ⟨[(s, localLabel e.nextLabel)], rfl, rfl, rfl, nodup_singleton _,
      fun t => ?_⟩, by simp, id⟩, by simp⟩
    simp only [map_cons, map_nil, mem_singleton]
    constructor
    · rintro rfl
      exact ⟨rfl, new⟩
    · exact And.left

private theorem addGlobal_spec {symbol : String} (gives : Gives (addGlobal symbol) e u e') :
    e.Grows e' [] [symbol] := by
  simp only [addGlobal, gives_modify] at gives
  subst gives
  refine ⟨rfl, ⟨[], by simp⟩, fun s => ?_, Module.ascending_insertSorted⟩
  simp only [Module.mem_insertSorted, mem_singleton]
  exact Or.comm

end Emit

open Emit

namespace Assembly.Instr

variable {i : Instr}

/-- The label that a branch goes to. -/
def branchTarget? : Instr → Option String
  | .branch _ label => some label
  | _ => none

/-- The label that a call goes to. -/
def callTarget? : Instr → Option String
  | .branchLink _ label => some label
  | _ => none

/-- The label whose address is taken. -/
def loadedLabel? : Instr → Option String
  | .loadAddress _ label => some label
  | _ => none

/-- Does the instruction mention a label? -/
def namesLabel : Instr → Bool
  | .branch .. | .branchLink .. | .loadAddress .. => true
  | _ => false

theorem branchTarget?_of_plain (plain : i.namesLabel = false) : i.branchTarget? = none := by
  cases i <;> simp_all [namesLabel, branchTarget?]

theorem callTarget?_of_plain (plain : i.namesLabel = false) : i.callTarget? = none := by
  cases i <;> simp_all [namesLabel, callTarget?]

theorem loadedLabel?_of_plain (plain : i.namesLabel = false) : i.loadedLabel? = none := by
  cases i <;> simp_all [namesLabel, loadedLabel?]

end Assembly.Instr

namespace Callee

/-- The label under which the target of a call is known. -/
def symbol : Callee → String
  | .procedure name => Convention.procedureLabel name
  | .external name => name

/-- The symbol, if the program does not define it. -/
def external? : Callee → Option String
  | .procedure _ => none
  | .external name => some name

end Callee

namespace Inst

def callee? : Inst → Option Callee
  | .call _ callee _ => some callee
  | _ => none

/-- The string literal whose address the instruction takes. -/
def literal? : Inst → Option String
  | .assign _ (.str s) | .ret (some (.str s)) => some s
  | _ => none

/-- The symbol of another module that the instruction calls. -/
def external? (i : Inst) : Option String := i.callee?.bind Callee.external?

end Inst

namespace EmissionContext

variable {c : EmissionContext} {b : BlockId} {e e' : Emitter}

variable {code : List Instr} {i : Instr} {dst : VarId} {src : Operand}

/-- The label is that of a block or of the epilogue of the procedure. -/
def Owns (c : EmissionContext) (label : String) : Prop :=
  ∃ n ≤ c.proc.blocks.size, label = localLabel (c.firstLabel + n)

theorem owns_epilogueLabel : c.Owns c.epilogueLabel := ⟨c.proc.blocks.size, Nat.le_refl _, rfl⟩

theorem owns_blockLabel (lt : b < c.proc.blocks.size) :
    c.Owns (c.blockLabel b) := ⟨b, Nat.le_of_lt lt, rfl⟩

/-- What the code of some instructions mentions, and what emitting it does to the state. -/
structure Codes (c : EmissionContext) (insts : List Inst) (code : List Instr) (e e' : Emitter) :
    Prop where
  grows : e.Grows e' (insts.filterMap Inst.literal?) (insts.filterMap Inst.external?)
  loads : List.Forall₂ (fun s label => (s, label) ∈ e'.strings) (insts.filterMap Inst.literal?)
    (code.filterMap Instr.loadedLabel?)
  calls : code.filterMap Instr.callTarget? = (insts.filterMap Inst.callee?).map Callee.symbol
  branches : ∀ label ∈ code.filterMap Instr.branchTarget?, c.Owns label

namespace Codes

variable {insts more : List Inst} {rest : List Instr} {e₁ e₂ : Emitter}

theorem nil (c : EmissionContext) (e : Emitter) : c.Codes [] [] e e := ⟨.refl e, .nil, rfl, by simp⟩

theorem append (first : c.Codes insts code e e₁) (second : c.Codes more rest e₁ e₂) :
    c.Codes (insts ++ more) (code ++ rest) e e₂ := by
  refine ⟨?_, ?_, ?_, ?_⟩
  · rw [filterMap_append, filterMap_append]
    exact first.grows.trans second.grows
  · rw [filterMap_append, filterMap_append]
    refine rel_append (first.loads.imp fun _ _ mem => ?_) second.loads
    exact second.grows.mem_strings mem
  · rw [filterMap_append, filterMap_append, map_append, first.calls, second.calls]
  · rw [filterMap_append]
    exact forall_mem_append.mpr ⟨first.branches, second.branches⟩

theorem of_stats (codes : c.Codes insts code e e') (stats : Statistics) :
    c.Codes insts code e { e' with stats := stats } :=
  ⟨codes.grows.of_stats stats, codes.loads, codes.calls, codes.branches⟩

/-- Code that only branches, for instructions that take no address and call nothing. -/
theorem of_branches (literal : insts.filterMap Inst.literal? = [])
    (callee : insts.filterMap Inst.callee? = [])
    (other : ∀ i ∈ code, i.namesLabel = false ∨ ∃ condition label, i = .branch condition label ∧
      c.Owns label) : c.Codes insts code e e := by
  have external : insts.filterMap Inst.external? = [] := by
    rw [filterMap_eq_nil_iff] at callee ⊢
    intro i mem
    rw [Inst.external?, callee i mem]
    rfl
  have quiet : code.filterMap Instr.loadedLabel? = [] ∧ code.filterMap Instr.callTarget? = [] := by
    refine ⟨filterMap_eq_nil_iff.mpr fun i mem => ?_, filterMap_eq_nil_iff.mpr fun i mem => ?_⟩ <;>
    rcases other i mem with plain | ⟨condition, label, rfl, -⟩
    · exact Instr.loadedLabel?_of_plain plain
    · rfl
    · exact Instr.callTarget?_of_plain plain
    · rfl
  refine ⟨?_, ?_, ?_, fun label mem => ?_⟩
  · rw [literal, external]
    exact .refl e
  · rw [literal, quiet.1]
    exact .nil
  · rw [callee, quiet.2]
    rfl
  · obtain ⟨i, inCode, isTarget⟩ := mem_filterMap.mp mem
    rcases other i inCode with plain | ⟨condition, label', rfl, owns⟩
    · rw [Instr.branchTarget?_of_plain plain] at isTarget
      cases isTarget
    · obtain rfl := Option.some.inj isTarget
      exact owns

theorem of_plain (literal : insts.filterMap Inst.literal? = [])
    (callee : insts.filterMap Inst.callee? = []) (plain : ∀ i ∈ code, i.namesLabel = false) :
    c.Codes insts code e e :=
  of_branches literal callee fun i mem => .inl (plain i mem)

end Codes

variable {moves : List (Reg × Reg)} {target : LabelId}

/-! ## Code without labels -/

theorem namesLabel_loadConstant (dst : Reg) (w : Int32) :
    (loadConstant dst w).namesLabel = false := by
  unfold loadConstant
  split
  · rfl
  · split <;> rfl

private theorem namesLabel_binary {op : BinaryOp} {left right : Operand}
    (ok : c.binary dst op left right = .ok i) : i.namesLabel = false := by
  obtain ⟨r, -, ok⟩ := bind_eq_ok ok
  split at ok
  · split at ok
    · obtain rfl := Except.ok.inj ok
      exact namesLabel_loadConstant r _
    · cases ok
  · obtain ⟨a, -, ok⟩ := bind_eq_ok ok
    cases op with
    | div => cases ok
    | add | sub | rsb | mul =>
      obtain ⟨b, -, rfl⟩ := bind_pure_eq_ok ok
      rfl

private theorem namesLabel_negate (ok : c.negate dst src = .ok i) : i.namesLabel = false := by
  obtain ⟨r, -, ok⟩ := bind_eq_ok ok
  split at ok
  · obtain rfl := Except.ok.inj ok
    exact namesLabel_loadConstant r _
  · obtain ⟨a, -, rfl⟩ := bind_pure_eq_ok ok
    rfl

private theorem namesLabel_load {base : Operand} (ok : c.load dst base field = .ok i) :
    i.namesLabel = false := by
  unfold load at ok
  split at ok
  · cases ok
  · obtain ⟨offset, -, ok⟩ := bind_eq_ok ok
    obtain ⟨r, -, ok⟩ := bind_eq_ok ok
    obtain ⟨a, -, rfl⟩ := bind_pure_eq_ok ok
    rfl

private theorem namesLabel_store {base : VarId} (ok : c.store base field src = .ok i) :
    i.namesLabel = false := by
  obtain ⟨offset, -, ok⟩ := bind_eq_ok ok
  obtain ⟨r, -, ok⟩ := bind_eq_ok ok
  obtain ⟨a, -, rfl⟩ := bind_pure_eq_ok ok
  rfl

private theorem namesLabel_sequence (copy : Copy) (clobberable : RegSet) :
    ∀ i ∈ (copy.sequence clobberable).instrs, i.namesLabel = false := by
  have moves : ∀ moves : List (Reg × Reg), ∀ i ∈ moves.map fun m => Instr.move m.1 m.2,
      i.namesLabel = false := by
    intro moves i mem
    obtain ⟨m, -, rfl⟩ := mem_map.mp mem
    rfl
  unfold Copy.sequence
  dsimp only
  split
  · simp only [forall_mem_append, forall_mem_singleton]
    exact ⟨⟨⟨moves _, rfl⟩, moves _⟩, rfl⟩
  · simp only [forall_mem_append]
    exact ⟨moves _, moves _⟩

/-- A copy mentions no label and changes counts only. -/
theorem copy_spec (gives : Gives (c.copy moves) e code e') :
    (∀ i ∈ code, i.namesLabel = false) ∧ ∃ stats, e' = { e with stats := stats } := by
  simp only [copy, gives_bind, gives_lift] at gives
  obtain ⟨sequence, _, ⟨made, rfl⟩, gives⟩ := gives
  obtain ⟨copy, -, rfl⟩ := bind_pure_eq_ok made
  split at gives
  · simp only [gives_bind, gives_modify, gives_pure] at gives
    obtain ⟨_, _, rfl, rfl, rfl⟩ := gives
    exact ⟨namesLabel_sequence copy _, _, rfl⟩
  · obtain ⟨rfl, rfl⟩ := gives_pure.mp gives
    exact ⟨namesLabel_sequence copy _, _, rfl⟩

/-! ## Code with labels -/

private theorem codes_assign {dst : Reg} {i : Inst} (callee : i.callee? = none)
    (literal : ∀ s, i.literal? = some s ↔ src = .str s)
    (gives : Gives (c.assign dst src) e code e') : c.Codes [i] code e e' := by
  have external : i.external? = none := by
    rw [Inst.external?, callee]
    rfl
  have plain : i.literal? = none → (∀ j ∈ code, j.namesLabel = false) → e' = e →
      c.Codes [i] code e e' := by
    rintro none isPlain rfl
    exact .of_plain (by simp [none]) (by simp [callee]) isPlain
  have noLiteral : (∀ s, src ≠ .str s) → i.literal? = none := fun other =>
    Option.eq_none_iff_forall_ne_some.mpr fun s isLiteral => other s ((literal s).mp isLiteral)
  cases src with
  | str s =>
    simp only [assign, gives_bind, gives_pure] at gives
    obtain ⟨label, _, labelled, rfl, rfl⟩ := gives
    obtain ⟨grows, mem⟩ := stringLabel_spec labelled
    have isLiteral := (literal s).mpr rfl
    refine ⟨?_, ?_, by simp [callee, Instr.callTarget?], by simp [Instr.branchTarget?]⟩
    · simpa [isLiteral, external] using grows
    · simpa [isLiteral, Instr.loadedLabel?] using mem
  | var v =>
    simp only [assign, gives_bind, gives_lift, gives_pure] at gives
    obtain ⟨src, _, ⟨-, rfl⟩, rfl, rfl⟩ := gives
    refine plain (noLiteral (by simp)) ?_ rfl
    split
    · simp
    · simp [Instr.move, Instr.namesLabel]
  | int | bool | null =>
    simp only [assign, gives_bind, gives_lift, gives_pure] at gives
    obtain ⟨w, _, ⟨-, rfl⟩, rfl, rfl⟩ := gives
    exact plain (noLiteral (by simp)) (forall_mem_singleton.mpr (namesLabel_loadConstant _ _)) rfl

theorem owns_successorLabel {kind : String} {next : Option BlockId} {label : String}
    (inside : ∀ s ∈ next, s < c.proc.blocks.size)
    (ok : c.successorLabel b kind next = .ok label) : c.Owns label := by
  cases next with
  | none => cases ok
  | some s =>
    obtain rfl := Except.ok.inj ok
    exact owns_blockLabel (inside s rfl)

private theorem codes_branch (inside : ∀ s ∈ (c.proc.block b).succs, s < c.proc.blocks.size)
    {op : Comparison} {left right : Operand}
    (ok : c.branch b op left right = .ok code) :
    c.Codes [.branch op left right target] code e e := by
  obtain ⟨taken, isTaken, ok⟩ := bind_eq_ok ok
  obtain ⟨next, isNext, ok⟩ := bind_eq_ok ok
  have ownsTaken := owns_successorLabel (fun s isCond => inside s (by
    simp [Block.succs, Option.mem_def.mp isCond])) isTaken
  have ownsNext := owns_successorLabel (fun s isDirect => inside s (by
    simp [Block.succs, Option.mem_def.mp isDirect])) isNext
  refine .of_branches rfl rfl ?_
  split at ok
  · obtain rfl := Except.ok.inj ok
    refine forall_mem_singleton.mpr (.inr ⟨_, _, rfl, ?_⟩)
    split
    · exact ownsTaken
    · exact ownsNext
  · obtain ⟨a, -, ok⟩ := bind_eq_ok ok
    obtain ⟨f, -, rfl⟩ := bind_pure_eq_ok ok
    simp only [forall_mem_cons]
    exact ⟨.inl rfl, .inr ⟨_, _, rfl, ownsTaken⟩, .inr ⟨_, _, rfl, ownsNext⟩, by simp⟩

private theorem codes_jump (inside : ∀ s ∈ (c.proc.block b).succs, s < c.proc.blocks.size)
    (gives : Gives (c.jump b) e code e') : c.Codes [.jump target] code e e' := by
  simp only [jump, gives_bind, gives_lift] at gives
  obtain ⟨label, _, ⟨isLabel, rfl⟩, gives⟩ := gives
  have owns := owns_successorLabel (fun s isDirect => inside s (by
    simp [Block.succs, Option.mem_def.mp isDirect])) isLabel
  split at gives
  · obtain ⟨rfl, rfl⟩ := gives_pure.mp gives
    exact .of_branches rfl rfl (forall_mem_singleton.mpr (.inr ⟨_, _, rfl, owns⟩))
  · simp only [gives_bind, gives_lift, gives_pure] at gives
    obtain ⟨moves, _, ⟨-, rfl⟩, copies, _, copied, rfl, rfl⟩ := gives
    obtain ⟨plain, stats, rfl⟩ := copy_spec copied
    refine Codes.of_stats (.of_branches rfl rfl fun i mem => ?_) stats
    rcases mem_append.mp mem with inCopies | isLast
    · exact .inl (plain i inCopies)
    · obtain rfl := mem_singleton.mp isLast
      exact .inr ⟨_, _, rfl, owns⟩

private theorem plain_resultMove (r : Reg) : ∀ i ∈ if r = Convention.result then []
    else [Instr.move r Convention.result], i.namesLabel = false := by
  split
  · exact forall_mem_nil _
  · exact forall_mem_singleton.mpr rfl

private theorem codes_call {dst : Option VarId} {callee : Callee} {args : List Operand}
    (gives : Gives (c.call dst callee) e code e') : c.Codes [.call dst callee args] code e e' := by
  cases callee with
  | procedure name =>
    simp only [call, gives_bind, gives_pure] at gives
    obtain ⟨_, _, ⟨rfl, rfl⟩, rfl, rfl⟩ := gives
    have called : c.Codes [.call dst (.procedure name) args]
        [.branchLink .always (Convention.procedureLabel name)] e' e' :=
      ⟨.refl e', .nil, rfl, by simp [Instr.branchTarget?]⟩
    refine called.append (.of_plain rfl rfl ?_)
    split
    · exact plain_resultMove _
    · exact forall_mem_nil _
  | external name =>
    simp only [call, gives_bind, gives_pure] at gives
    obtain ⟨_, _, shared, label, _, ⟨isLabel, rfl⟩, rfl, rfl⟩ := gives
    subst label
    have called : c.Codes [.call dst (.external name) args] [.branchLink .always name] e e' :=
      ⟨addGlobal_spec shared, .nil, rfl, by simp [Instr.branchTarget?]⟩
    refine called.append (.of_plain rfl rfl ?_)
    split
    · exact plain_resultMove _
    · exact forall_mem_nil _

/-! ## Instructions and blocks -/

theorem codes_select (inside : ∀ s ∈ (c.proc.block b).succs, s < c.proc.blocks.size) {i : Inst}
    (gives : Gives (c.select b i) e code e') : c.Codes [i] code e e' := by
  cases i with
  | branch op left right target =>
    obtain ⟨ok, rfl⟩ := gives_lift.mp gives
    exact codes_branch inside ok
  | jump target => exact codes_jump inside gives
  | assign dst src =>
    simp only [select, gives_bind, gives_lift] at gives
    obtain ⟨r, _, ⟨-, rfl⟩, gives⟩ := gives
    refine codes_assign rfl (fun s => ?_) gives
    cases src <;> simp [Inst.literal?]
  | binary dst op left right =>
    simp only [select, gives_bind, gives_lift, gives_pure] at gives
    obtain ⟨i, _, ⟨ok, rfl⟩, rfl, rfl⟩ := gives
    exact .of_plain rfl rfl (forall_mem_singleton.mpr (namesLabel_binary ok))
  | negate dst src =>
    simp only [select, gives_bind, gives_lift, gives_pure] at gives
    obtain ⟨i, _, ⟨ok, rfl⟩, rfl, rfl⟩ := gives
    exact .of_plain rfl rfl (forall_mem_singleton.mpr (namesLabel_negate ok))
  | load dst base field =>
    simp only [select, gives_bind, gives_lift, gives_pure] at gives
    obtain ⟨i, _, ⟨ok, rfl⟩, rfl, rfl⟩ := gives
    exact .of_plain rfl rfl (forall_mem_singleton.mpr (namesLabel_load ok))
  | store base field src =>
    simp only [select, gives_bind, gives_lift, gives_pure] at gives
    obtain ⟨i, _, ⟨ok, rfl⟩, rfl, rfl⟩ := gives
    exact .of_plain rfl rfl (forall_mem_singleton.mpr (namesLabel_store ok))
  | ret value =>
    have leaves : ∀ e, c.Codes [] [.jump c.epilogueLabel] e e := fun e =>
      .of_branches rfl rfl (forall_mem_singleton.mpr (.inr ⟨_, _, rfl, owns_epilogueLabel⟩))
    cases value with
    | none =>
      obtain ⟨rfl, rfl⟩ := gives_pure.mp gives
      have codes : c.Codes [.ret none] [] e' e' := .of_plain rfl rfl (by simp)
      exact codes.append (leaves e')
    | some value =>
      simp only [select, gives_bind, gives_pure] at gives
      obtain ⟨code, _, assigned, rfl, rfl⟩ := gives
      have codes : c.Codes [.ret (some value)] code e e' := by
        refine codes_assign rfl (fun s => ?_) assigned
        cases value <;> simp [Inst.literal?]
      exact codes.append (leaves e')
  | call dst callee args => exact codes_call gives
  | prepare defs srcs argCount =>
    simp only [select, gives_bind, gives_lift] at gives
    obtain ⟨moves, _, ⟨-, rfl⟩, copied⟩ := gives
    obtain ⟨plain, stats, rfl⟩ := copy_spec copied
    exact Codes.of_stats (.of_plain rfl rfl plain) stats
  | phi node =>
    obtain ⟨rfl, rfl⟩ := gives_pure.mp gives
    exact .of_plain rfl rfl (by simp)
  | spill v | reload v =>
    simp only [select, gives_bind, gives_lift, gives_pure] at gives
    obtain ⟨offset, _, ⟨-, rfl⟩, r, _, ⟨-, rfl⟩, rfl, rfl⟩ := gives
    exact .of_plain rfl rfl (forall_mem_singleton.mpr rfl)
  | stackArg v index =>
    simp only [select, gives_bind, gives_lift, gives_pure] at gives
    obtain ⟨r, _, ⟨-, rfl⟩, rfl, rfl⟩ := gives
    exact .of_plain rfl rfl (forall_mem_singleton.mpr rfl)
  | label l => exact absurd gives not_gives_throw

end EmissionContext

end ArmBackend
