import ArmBackend.Proofs.Dominance.Path
import ArmBackend.Proofs.Emission.Selected

/-!
Contract: what the sections of a module are.

Every procedure contributes a section for its entry, one for each of its blocks and one for its
epilogue; every string literal that its code loads has one data section. Labels other than those of
procedures are numbered, and every number that was handed out labels one section.

Owns: the sections of procedures and of programs, and the labels under which they stand.
Does not own: which calls a program makes.
-/

namespace ArmBackend

open List Assembly Emit Procedure

/-! ## The order of blocks -/

/-- Taking the innermost block off the stack, a place without a new block is the same as passed
over. -/
theorem Layout.resume_pass {succs : BlockId → List (Option BlockId)} {seen : IndexSet} {b : BlockId}
    {next : Nat} {place : Option BlockId} {rest : List (Option BlockId)}
    (here : (succs b).drop next = place :: rest) (old : Walk.unseen? seen place = none)
    (steps : Nat) (stack : List (BlockId × Nat)) (placed : List BlockId) :
    Layout.resume succs (steps + 1) seen ((b, next) :: stack) placed =
      Layout.resume succs (steps + 1) seen ((b, next + 1) :: stack) placed := by
  rw [Layout.resume, Layout.resume, here, (Walk.getElem?_of_drop here).2, findIdx?_cons, old]
  cases rest.findIdx? fun place => (Walk.unseen? seen place).isSome with
  | none => rfl
  | some offset => simp [Nat.add_assoc, Nat.add_comm 1]

/-- With a block on top of the stack, the layout explores the places that the block has left and
then places the block. -/
theorem Layout.resume_explores {succs : BlockId → List (Option BlockId)} {seen after : IndexSet}
    {places : List (Option BlockId)} {pre post : List BlockId}
    (run : Walk.Explores succs seen places pre post after) (b : BlockId) (next : Nat)
    (here : (succs b).drop next = places) (steps : Nat) (stack : List (BlockId × Nat))
    (placed : List BlockId) :
    Layout.resume succs (steps + 2 * post.length + 1) seen ((b, next) :: stack) placed =
      Layout.resume succs steps after stack (b :: (post.reverse ++ placed)) := by
  induction run generalizing b next steps stack placed with
  | done => simp [Layout.resume, here]
  | pass old _ ih =>
    rw [Layout.resume_pass here old]
    exact ih b (next + 1) (Walk.getElem?_of_drop here).2 steps stack placed
  | @enter _ _ _ _ _ s _ post _ post' new _ _ inner later =>
    obtain ⟨isHere, ahead⟩ := Walk.getElem?_of_drop here
    have lt := inner s 0 rfl (steps + 2 * post'.length + 1) ((b, next + 1) :: stack) placed
    have outside := later b (next + 1) ahead steps stack (s :: (post.reverse ++ placed))
    have count : steps + 2 * (post ++ s :: post').length + 1 =
        steps + 2 * post'.length + 1 + 2 * post.length + 1 + 1 := by
      simp
      omega
    obtain ⟨isPlace, -⟩ := Walk.unseen?_eq_some.mp new
    rw [count, Layout.resume, here, findIdx?_cons, new]
    simp only [Option.isSome_some, if_true, Nat.add_zero, isHere, isPlace, Option.join_some]
    rw [lt, outside]
    simp

namespace Procedure

variable {p : Procedure}

theorem edge_branchFirst {b s : BlockId} : Walk.Edge p.branchFirst b s ↔ s ∈ (p.block b).succs := by
  simp [Walk.Edge, branchFirst, Block.succs, eq_comm, or_comm]

/-- The layout places the blocks that a search from the entry leaves, in reverse. -/
theorem layoutOrder_eq (nonempty : 0 < p.blocks.size)
    (inside : ∀ b s, s ∈ (p.block b).succs → s < p.blocks.size) :
    ∃ pre post after, Walk.Explores p.branchFirst .empty [some entry] pre post after ∧
      Walk.ofGraph p.blocks.size entry p.branchFirst = ⟨pre, post⟩ ∧ p.layoutOrder = post.reverse ∧
      p.layoutOrder.head? = some entry := by
  have range : ∀ b < p.blocks.size, ∀ s, Walk.Edge p.branchFirst b s → s < p.blocks.size :=
    fun b _ s edge => inside b s (edge_branchFirst.mp edge)
  have entered : entry < p.blocks.size := nonempty
  obtain ⟨pre, post, after, isWalk, inner⟩ := Walk.exists_ofGraph_eq range entered
  have run := inner.of_inner
  have few : (post ++ [entry]).length ≤ (List.range p.blocks.size).length :=
    (subperm_of_subset run.nodup.1 fun b mem =>
      mem_range.mpr (run.within range entered b mem)).length_le
  rw [length_append, length_singleton, length_range] at few
  have steps : 2 * p.blocks.size = 2 * (p.blocks.size - post.length) - 1 + 2 * post.length +
      1 := by omega
  have order : p.layoutOrder = entry :: post.reverse := by
    rw [layoutOrder, steps, Layout.resume_explores inner entry 0 rfl, append_nil]
    cases 2 * (p.blocks.size - post.length) - 1 <;> rfl
  exact ⟨_, _, _, run, isWalk, by simp [order], by simp [order]⟩

/-- Every walk with a stack is the recursive search, and the stack of the layout gives the reverse
of its postorder: the blocks that are reached, each once, from the entry on. -/
theorem recursive_walks {count : Nat} {start : BlockId} {succs : BlockId → List (Option BlockId)}
    (range : ∀ d < count, ∀ x, Walk.Edge succs d x → x < count) (inRange : start < count)
    (nonempty : 0 < p.blocks.size)
    (inside : ∀ b < p.blocks.size, ∀ s ∈ (p.block b).succs, s < p.blocks.size) :
    Walk.Recursive succs start (Walk.ofGraph count start succs) ∧
      p.layoutOrder = (Walk.ofGraph p.blocks.size entry p.branchFirst).postorder.reverse ∧
      p.layoutOrder.Nodup ∧ p.layoutOrder.head? = some entry ∧
      ∀ b, b ∈ p.layoutOrder ↔ Relation.ReflTransGen
        (fun d s => s ∈ (p.block d).succs) entry b := by
  refine ⟨Walk.recursive_ofGraph range inRange, ?_⟩
  obtain ⟨pre, post, after, run, isWalk, order, first⟩ := layoutOrder_eq nonempty
    fun b s edge => inside b (lt_size_of_mem_succs edge) s edge
  have edges : Walk.Edge p.branchFirst = fun d s => s ∈ (p.block d).succs :=
    funext₂ fun d s => propext edge_branchFirst
  refine ⟨by rw [isWalk, order], order ▸ nodup_reverse.mpr run.nodup.1, first, fun b => ?_⟩
  rw [order, mem_reverse, run.mem_iff, edges]

/-- A branch whose two ways meet in loops, before a block that is not reached. -/
def crossing : Procedure :=
  { ofName "f" .int with
    blocks := #[⟨0, [], [], some 1, some 2, 0⟩, ⟨1, [], [], some 2, none, 0⟩,
      ⟨2, [], [], some 1, some 2, 0⟩, ⟨3, [], [], some 0, none, 0⟩] }

theorem recursive_walks_crossing : crossing.layoutOrder = [0, 2, 1] ∧ crossing.layoutOrder.Nodup ∧
    (Walk.ofGraph 4 entry crossing.branchFirst).postorder = [1, 2, 0] ∧
    Walk.Recursive crossing.branchFirst entry (Walk.ofGraph 4 entry crossing.branchFirst) := by
  have inside : ∀ b < crossing.blocks.size, ∀ s ∈ (crossing.block b).succs, s <
      crossing.blocks.size := by decide
  have walks := recursive_walks (fun b below s edge => inside b below s (edge_branchFirst.mp edge))
    (by decide : entry < crossing.blocks.size) (by decide) inside
  exact ⟨by decide, walks.2.2.1, by decide, walks.1⟩

/-- Every block stands in the layout, once. -/
theorem perm_layoutOrder (wf : p.WellFormed) (ordered : p.Ordered) :
    p.layoutOrder.Perm p.blockIds := by
  have inside := fun b s edge => (wf.inside b s edge).1
  obtain ⟨pre, post, after, run, -, order, -⟩ := layoutOrder_eq wf.nonempty inside
  rw [order]
  refine (reverse_perm _).trans
    ((perm_ext_iff_of_nodup run.nodup.1 nodup_range).mpr fun b => run.mem_iff.trans ?_)
  rw [mem_range]
  refine ⟨fun path => path.recOn wf.nonempty fun _ edge _ => inside _ _ (edge_branchFirst.mp edge),
    fun lt => ?_⟩
  obtain ⟨seen, path⟩ := ordered.exists_path lt
  induction path with
  | start => exact .refl
  | extend path edge ih => exact (ih (lt_size_of_mem_succs edge)).tail (edge_branchFirst.mpr edge)

end Procedure

theorem localLabel_inj {m n : Nat} : localLabel m = localLabel n ↔ m = n := by
  refine ⟨fun same => ?_, congrArg localLabel⟩
  have sameText : m.repr = n.repr := (String.append_right_inj _).mp same
  rw [Nat.repr_eq_ofList_toDigits, Nat.repr_eq_ofList_toDigits] at sameText
  have sameNumber := congrArg (Nat.ofDigitChars 10 · 0) (String.ofList_injective sameText)
  simpa using sameNumber

/-! ## Sections -/

/-- The section holds the code of a block whose label has the given number: calls go where its
instructions call, and the addresses of their literals are taken. -/
structure Assembly.Section.Renders (s : Section) (number : Nat) (insts : List Inst)
    (strings : List (String × String)) : Prop where
  label : s.label = localLabel number
  notEntry : s.isEntryPoint = false
  calls : s.instrs.filterMap Instr.callTarget? = (insts.filterMap Inst.callee?).map Callee.symbol
  loads : List.Forall₂ (fun text label => (text, label) ∈ strings) (insts.filterMap Inst.literal?)
    (s.instrs.filterMap Instr.loadedLabel?)

/-- The code calls nothing and takes no address. -/
def Quiet (code : List Instr) : Prop :=
  code.filterMap Instr.callTarget? = [] ∧ code.filterMap Instr.loadedLabel? = []

/-- The sections of a procedure whose labels are numbered from `first` on: its entry, its blocks in
some order, and its epilogue. Branches stay among the blocks and the epilogue. -/
structure Procedure.Emitted (p : Procedure) (first : Nat) (strings : List (String × String))
    (sections : List Section) : Prop where
  parts : ∃ prologue order blocks epilogue, order.Perm p.blockIds ∧
    List.Forall₂ (fun b s => s.Renders (first + b) (p.block b).insts strings) order blocks ∧
    Quiet prologue ∧ Quiet epilogue ∧
    sections = ⟨Convention.procedureLabel p.name, prologue, true⟩ ::
      (blocks ++ [⟨localLabel (first + p.blocks.size), epilogue, false⟩])
  branches : ∀ s ∈ sections, ∀ label ∈ s.instrs.filterMap Instr.branchTarget?,
    ∃ n ≤ p.blocks.size, label = localLabel (first + n)

theorem Assembly.Section.Renders.mono {s : Section} {number : Nat} {insts : List Inst}
    {strings more : List (String × String)} (renders : s.Renders number insts strings)
    (grows : strings ⊆ more) : s.Renders number insts more :=
  ⟨renders.label, renders.notEntry, renders.calls, renders.loads.imp fun _ _ mem => grows mem⟩

namespace Procedure.Emitted

variable {p : Procedure} {first : Nat} {strings : List (String × String)} {sections : List Section}

theorem mono {more : List (String × String)} (emitted : p.Emitted first strings sections)
    (grows : strings ⊆ more) : p.Emitted first more sections := by
  obtain ⟨prologue, order, blocks, epilogue, perm, renders, rest⟩ := emitted.parts
  exact ⟨⟨prologue, order, blocks, epilogue, perm, renders.imp fun _ _ one => one.mono grows, rest⟩,
    emitted.branches⟩

/-- The labels of a procedure: its own and a run of numbers. -/
theorem labels (emitted : p.Emitted first strings sections) :
    (sections.map (·.label)).Perm (Convention.procedureLabel p.name ::
      (List.range' first (p.blocks.size + 1)).map localLabel) := by
  obtain ⟨prologue, order, blocks, epilogue, perm, renders, -, -, rfl⟩ := emitted.parts
  have areLabels : blocks.map (·.label) = order.map fun b => localLabel (first + b) := by
    clear perm emitted
    induction renders with
    | nil => rfl
    | cons one _ ih =>
      rw [map_cons, map_cons, one.label, ih]
  have numbers : (List.range' first (p.blocks.size + 1)).map localLabel =
      p.blockIds.map (fun b => localLabel (first + b)) ++ [localLabel (first + p.blocks.size)] := by
    rw [range'_1_concat, map_append, range'_eq_map_range, map_map]
    rfl
  rw [map_cons, map_append, areLabels, numbers]
  exact ((perm.map _).append_right _).cons _

end Procedure.Emitted

/-! ## Emission of a procedure -/

namespace EmissionContext

variable {c : EmissionContext} {e e' : Emitter}
variable {b : BlockId} {blocks : List Section} {order : List BlockId}

private theorem codes_insts (inside : ∀ s ∈ (c.proc.block b).succs, s < c.proc.blocks.size)
    {insts : List Inst} {codes : List (List Instr)}
    (gives : Gives (insts.mapM (c.select b)) e codes e') : c.Codes insts codes.flatten e e' := by
  induction insts generalizing e codes with
  | nil =>
    obtain ⟨rfl, rfl⟩ := gives_pure.mp gives
    exact .nil c e'
  | cons i rest ih =>
    obtain ⟨code, mid, others, one, more, rfl⟩ := gives_mapM_cons.mp gives
    exact (codes_select inside one).append (ih more)

private theorem emitBlock_spec (inside : ∀ s ∈ (c.proc.block b).succs, s < c.proc.blocks.size)
    {s : Section} (gives : Gives (c.emitBlock b) e s e') : c.Codes (c.proc.block b).insts
      s.instrs e e' ∧ s.Renders (c.firstLabel + b) (c.proc.block b).insts e'.strings := by
  simp only [emitBlock, gives_bind, gives_pure] at gives
  obtain ⟨codes, _, selected, rfl, rfl⟩ := gives
  have codes := codes_insts inside selected
  exact ⟨codes, rfl, rfl, codes.calls, codes.loads⟩

private theorem emitBlocks_spec (inside : ∀ b, ∀ s ∈ (c.proc.block b).succs, s < c.proc.blocks.size)
    (gives : Gives (order.mapM c.emitBlock) e blocks e') :
    c.Codes (order.flatMap fun b => (c.proc.block b).insts) (blocks.flatMap (·.instrs)) e e' ∧
      List.Forall₂ (fun b s => s.Renders (c.firstLabel + b) (c.proc.block b).insts e'.strings) order
        blocks := by
  induction order generalizing e blocks with
  | nil =>
    obtain ⟨rfl, rfl⟩ := gives_pure.mp gives
    exact ⟨.nil c e', .nil⟩
  | cons b rest ih =>
    obtain ⟨s, mid, others, one, more, rfl⟩ := gives_mapM_cons.mp gives
    obtain ⟨codes, renders⟩ := emitBlock_spec (inside b) one
    obtain ⟨codes', renders'⟩ := ih more
    refine ⟨codes.append codes', .cons (renders.mono fun _ => codes'.grows.mem_strings) renders'⟩

theorem plain_adjustStack {move : Reg → Reg → Flexible → Instr}
    (plain : ∀ a b f, (move a b f).namesLabel = false) :
    ∀ i ∈ c.adjustStack move, i.namesLabel = false := by
  unfold adjustStack
  dsimp only
  split
  · simp
  · split
    · exact forall_mem_singleton.mpr (plain ..)
    · simp only [forall_mem_cons]
      exact ⟨namesLabel_loadConstant .., plain .., by simp⟩

private theorem codes_prologue (inside : ∀ b ∈ order, b < c.proc.blocks.size) :
    c.Codes [] (c.prologue order) e e := by
  refine .of_branches rfl rfl ?_
  unfold prologue pushSaved
  simp only [forall_mem_append, forall_mem_singleton]
  refine ⟨⟨?_, fun i mem => .inl (plain_adjustStack (fun _ _ _ => rfl) i mem)⟩,
    .inr ⟨_, _, rfl, ?_⟩⟩
  · split
    · simp
    · exact forall_mem_singleton.mpr (.inl rfl)
  · split
    · rename_i b isFirst
      exact owns_blockLabel (inside b (mem_of_head? isFirst))
    · exact owns_epilogueLabel

private theorem codes_epilogue : c.Codes [] c.epilogue e e := by
  have status : ∀ i ∈ c.exitStatus, i.namesLabel = false := by
    unfold exitStatus
    split
    · exact forall_mem_singleton.mpr (namesLabel_loadConstant ..)
    · simp
  refine .of_plain rfl rfl ?_
  unfold epilogue
  refine forall_mem_append.mpr ⟨plain_adjustStack fun _ _ _ => rfl, ?_⟩
  split
  · exact forall_mem_append.mpr ⟨status, forall_mem_singleton.mpr rfl⟩
  · refine forall_mem_append.mpr ⟨forall_mem_append.mpr ⟨?_, status⟩, forall_mem_singleton.mpr rfl⟩
    split
    · simp
    · exact forall_mem_singleton.mpr rfl

private theorem emitted_sections (perm : order.Perm c.proc.blockIds)
    (codes : c.Codes (order.flatMap fun b => (c.proc.block b).insts)
      (blocks.flatMap (·.instrs)) e e')
    (renders : List.Forall₂
      (fun b s => s.Renders (c.firstLabel + b) (c.proc.block b).insts e'.strings) order blocks) :
    c.proc.Emitted c.firstLabel e'.strings
      (⟨Convention.procedureLabel c.proc.name, c.prologue order,
      true⟩ :: (blocks ++ [⟨c.epilogueLabel, c.epilogue, false⟩])) := by
  have prologue : c.Codes [] (c.prologue order) e e :=
    codes_prologue fun b mem => mem_blockIds.mp (perm.mem_iff.mp mem)
  have epilogue : c.Codes [] c.epilogue e e := codes_epilogue
  refine ⟨⟨_, order, blocks, _, perm, renders, ⟨prologue.calls, ?_⟩, ⟨epilogue.calls, ?_⟩, rfl⟩, ?_⟩
  · exact List.forall₂_nil_left_iff.mp prologue.loads
  · exact List.forall₂_nil_left_iff.mp epilogue.loads
  · refine forall_mem_cons.mpr ⟨prologue.branches, forall_mem_append.mpr
      ⟨fun s mem label target => codes.branches label ?_,
        forall_mem_singleton.mpr epilogue.branches⟩⟩
    rw [filterMap_flatMap]
    exact mem_flatMap.mpr ⟨s, mem, target⟩

end EmissionContext

/-- What emission of a procedure adds to the module: its sections, under labels that were handed out
for them, and the literals and external symbols of its code. -/
theorem Emit.procedure_spec {program : Program} {p : Procedure} (wf : p.WellFormed)
    (ordered : p.Ordered) {e e' : Emitter} {u : Unit}
    (gives : Gives (Emit.procedure program p) e u e') :
    ∃ sections, e'.code = e.code ++ sections ∧ p.Emitted e.nextLabel e'.strings sections ∧
      Emitter.Grows { e with nextLabel := e.nextLabel + (p.blocks.size + 1) }
        { e' with code := e.code }
        (p.insts.filterMap Inst.literal?) (p.insts.filterMap Inst.external?) := by
  simp only [Emit.procedure, gives_bind, gives_lift, gives_reserveLabels, gives_modify,
    recordInstructions] at gives
  obtain ⟨frame, e, ⟨-, rfl⟩, first, _, ⟨rfl, rfl⟩, blocks, mid, emitted, _, _, rfl, rfl⟩ := gives
  have perm := perm_layoutOrder wf ordered
  obtain ⟨codes, renders⟩ :=
    EmissionContext.emitBlocks_spec (fun b s edge => (wf.inside b s edge).1) emitted
  refine ⟨_, congrArg (· ++ _) codes.grows.code,
    EmissionContext.emitted_sections perm codes renders, ?_⟩
  have insts : (p.layoutOrder.flatMap fun b => (p.block b).insts).Perm p.insts := by
    rw [insts_eq_flatMap]
    exact perm.flatMap_right _
  obtain ⟨-, strings, globals, ascending⟩ :=
    codes.grows.of_perm (insts.filterMap _) (insts.filterMap _)
  exact ⟨rfl, strings, globals, ascending⟩

/-! ## Emission of a program -/

/-- What has been emitted once some procedures are done. Every label but those of procedures is
numbered, and every number handed out so far labels one section. -/
structure Emitter.Holds (e : Emitter) (done : List Procedure) : Prop where
  sections : ∃ parts : List (Nat × List Section), e.code = parts.flatMap (·.2) ∧
    List.Forall₂ (fun p part => p.Emitted part.1 e.strings part.2) done parts
  labels : (e.code.map (·.label) ++ e.strings.map (·.2)).Perm
    (done.map (fun p => Convention.procedureLabel p.name) ++
      (List.range e.nextLabel).map localLabel)
  literalsNodup : (e.strings.map (·.1)).Nodup
  literals : ∀ s, s ∈ e.strings.map (·.1) ↔ ∃ p ∈ done, s ∈ p.insts.filterMap Inst.literal?
  globals : ∀ s, s ∈ e.globals ↔ s = "main" ∨ ∃ p ∈ done, s ∈ p.insts.filterMap Inst.external?
  ascending : e.globals.Pairwise (· < ·)

private theorem perm_append_swap {α : Type} (a b c d : List α) :
    (a ++ b ++ (c ++ d)).Perm (a ++ c ++ (b ++ d)) := by
  rw [append_assoc, append_assoc]
  exact (perm_append_comm_assoc ..).append_left a

namespace Emitter.Holds

variable {done : List Procedure} {e e' : Emitter} {program : Program} {u : Unit}

private theorem start (stats : Statistics) : (Emitter.start stats).Holds [] where
  sections := ⟨[], rfl, .nil⟩
  labels := .refl _
  literalsNodup := nodup_nil
  literals := by simp [Emitter.start]
  globals := by simp [Emitter.start]
  ascending := pairwise_singleton ..

private theorem procedure (holds : e.Holds done) {p : Procedure} (wf : p.WellFormed)
    (ordered : p.Ordered)
    (gives : Gives (Emit.procedure program p) e u e') : e'.Holds (done ++ [p]) := by
  obtain ⟨sections, code, emitted, grows⟩ := procedure_spec wf ordered gives
  obtain ⟨more, isMore, count, labels, nodup, mem⟩ := grows.strings
  dsimp only at isMore count labels mem
  have kept : e.strings ⊆ e'.strings := isMore ▸ subset_append_left ..
  refine ⟨?_, ?_, ?_, fun s => ?_, fun s => ?_, grows.ascending holds.ascending⟩
  · obtain ⟨parts, isCode, all⟩ := holds.sections
    refine ⟨parts ++ [(e.nextLabel, sections)], by simp [code, isCode], ?_⟩
    exact rel_append (all.imp fun _ _ one => one.mono kept) (.cons emitted .nil)
  · have numbers : (List.range e'.nextLabel).map localLabel =
        (List.range e.nextLabel).map localLabel ++
        ((List.range' e.nextLabel (p.blocks.size + 1)).map localLabel ++ more.map (·.2)) := by
      rw [labels, ← map_append, ← map_append, range'_append_1, count, Nat.add_assoc, range_add,
        range'_eq_map_range]
    rw [code, isMore, numbers, map_append, map_append, map_append]
    have added := holds.labels.append (emitted.labels.append_right (more.map (·.2)))
    exact (perm_append_swap ..).trans (added.trans (perm_append_swap _ _ [_] _))
  · rw [isMore, map_append, nodup_append]
    refine ⟨holds.literalsNodup, nodup, ?_⟩
    rintro s old _ new rfl
    exact ((mem s).mp new).2 old
  · rw [isMore, map_append, mem_append, mem, holds.literals]
    simp only [mem_append, mem_singleton, or_and_right, exists_or, exists_eq_left]
    generalize (∃ q, q ∈ done ∧ s ∈ q.insts.filterMap Inst.literal?) = known
    by_cases known <;> simp_all
  · rw [grows.globals, holds.globals]
    simp only [mem_append, mem_singleton, or_and_right, exists_or, exists_eq_left, or_assoc]

private theorem procedures {rest : List Procedure} (holds : e.Holds done)
    (inForm : ∀ p ∈ rest, p.WellFormed ∧ p.Ordered)
    (gives : Gives (rest.forM (Emit.procedure program)) e u e') : e'.Holds (done ++ rest) := by
  induction rest generalizing e done with
  | nil =>
    obtain ⟨-, rfl⟩ := gives_pure.mp gives
    rwa [append_nil]
  | cons p rest ih =>
    obtain ⟨_, mid, first, more⟩ := gives_bind.mp gives
    rw [forall_mem_cons] at inForm
    have now := holds.procedure inForm.1.1 inForm.1.2 first
    rw [append_cons]
    exact ih now inForm.2 more

end Emitter.Holds

/-- A module that was emitted is all there is of some emission. -/
theorem Program.holds_emit {program : Program}
    (inForm : ∀ p ∈ program.procedures, p.WellFormed ∧ p.Ordered)
    {stats stats' : Statistics} {asm : Module} (ok : program.emit stats = (.ok asm, stats')) :
    ∃ e : Emitter, e.Holds program.procedures ∧ asm = e.module := by
  unfold Program.emit at ok
  generalize result : (program.procedures.forM (Emit.procedure program)).run.run (.start stats) =
    run at ok
  obtain ⟨outcome | u, e⟩ := run
  · cases ok
  · refine ⟨e, ?_, ?_⟩
    · exact (Emitter.Holds.start stats).procedures inForm result
    · cases ok
      rfl

end ArmBackend
