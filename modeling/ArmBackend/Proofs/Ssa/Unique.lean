import ArmBackend.Proofs.Check
import ArmBackend.Proofs.Ssa.Construction

/-!
Contract: renaming gives every definition a variable of its own.

Owns: that renaming hands out variables in ascending order and never changes a definition that it
has made, so that each variable is defined once and no argument is.
Does not own: which variables are read where.
-/

namespace ArmBackend

open List Procedure

namespace Renaming

/-- Variables may have been added, but no definition has changed. -/
structure Grows (r r' : Renaming) : Prop where
  args : r'.proc.args = r.proc.args
  grows : r.proc.nextVar ≤ r'.proc.nextVar
  size : r'.proc.blocks.size = r.proc.blocks.size
  defs : ∀ c, (r'.proc.block c).insts.flatMap Inst.defs = (r.proc.block c).insts.flatMap Inst.defs

variable {r r' r'' : Renaming} {t : DomTree} {b : BlockId}

theorem Grows.refl (r : Renaming) : Grows r r := ⟨rfl, Nat.le_refl _, rfl, fun _ => rfl⟩

theorem Grows.trans (first : Grows r r') (second : Grows r' r'') : Grows r r'' where
  args := second.args.trans first.args
  grows := Nat.le_trans first.grows second.grows
  size := second.size.trans first.size
  defs c := (second.defs c).trans (first.defs c)

theorem grows_settle (r : Renaming) (t : DomTree) (b : BlockId) (v : VarId) :
    Grows r (r.settle t b v) := ⟨rfl, Nat.le_refl _, rfl, fun _ => rfl⟩

theorem grows_attach (r : Renaming) (b : BlockId) (v : VarId) : Grows r (r.attach b v) := by
  refine ⟨rfl, ?_, rfl, fun _ => rfl⟩
  rw [Chained.nextVar_attach]
  exact Nat.le_succ _

/-- A computation that changes no definition. -/
def Quiet {α : Type} (m : StateM Renaming α) : Prop := ∀ r, Grows r (m.run r).2

namespace Quiet

variable {α β : Type}

theorem pure (a : α) : Quiet (Pure.pure a : StateM Renaming α) := Grows.refl

theorem bind {m : StateM Renaming α} {next : α → StateM Renaming β} (first : Quiet m)
    (rest : ∀ a, Quiet (next a)) : Quiet (m >>= next) :=
  fun r => (first r).trans (rest _ _)

theorem map {m : StateM Renaming α} (quiet : Quiet m) (f : α → β) :
    Quiet (m >>= fun a => Pure.pure (f a)) := quiet.bind fun a => .pure (f a)

private theorem mapM {f : α → StateM Renaming β} (list : List α) (quiet : ∀ a, Quiet (f a)) :
    Quiet (list.mapM f) := by
  induction list with
  | nil =>
    rw [mapM_nil]
    exact .pure []
  | cons head tail ih =>
    rw [mapM_cons]
    exact (quiet head).bind fun b => ih.map (b :: ·)

private theorem forM {f : α → StateM Renaming Unit} (list : List α) (quiet : ∀ a, Quiet (f a)) :
    Quiet (list.forM f) := by
  induction list with
  | nil => exact .pure ()
  | cons head tail ih => exact (quiet head).bind fun _ => ih

/-- Renaming the reads of an instruction by steps that change no definition changes none. -/
theorem traverseUses {f : VarId → StateM Renaming VarId} (quiet : ∀ v, Quiet (f v)) (i : Inst) :
    Quiet (i.traverseUses f) := by
  have operand : ∀ o : Operand, Quiet (o.traverse f) := by
    intro o
    cases o with
    | var v => exact (quiet v).map Operand.var
    | _ => exact .pure _
  cases i with
  | branch op left right target =>
    exact (operand left).bind fun l => (operand right).map fun r => Inst.branch op l r target
  | binary dst op left right =>
    exact (operand left).bind fun l => (operand right).map fun r => Inst.binary dst op l r
  | assign dst src => exact (operand src).map (Inst.assign dst)
  | negate dst src => exact (operand src).map (Inst.negate dst)
  | load dst base field => exact (operand base).map (Inst.load dst · field)
  | store base field src =>
    exact (operand src).bind fun s => (quiet base).map fun b => Inst.store b field s
  | ret value =>
    cases value with
    | none => exact .pure _
    | some o => exact (operand o).map fun o => Inst.ret (some o)
  | call dst callee args => exact (Quiet.mapM args operand).map (Inst.call dst callee)
  | prepare defs srcs argCount => exact (Quiet.mapM srcs quiet).map (Inst.prepare defs · argCount)
  | spill var => exact (quiet var).map Inst.spill
  | stackArg var index => exact (quiet var).map (Inst.stackArg · index)
  | label l => exact .pure _
  | jump target => exact .pure _
  | phi node => exact .pure _
  | reload dst => exact .pure _

end Quiet

/-! ## Steps -/

private theorem quiet_read (t : DomTree) (b : BlockId) (v : VarId) : Quiet (read t b v) := by
  intro r
  refine (grows_settle r t b v).trans ?_
  cases known : (r.settle t b v).reaching.getD v none with
  | some d =>
    rw [run_read_some known]
    exact .refl _
  | none =>
    rw [run_read_none known]
    exact grows_attach ..

/-- Variables handed out while the state changed from `r` to `r'`, each once. -/
structure Mints (r : Renaming) (vars : List VarId) (r' : Renaming) : Prop extends Grows r r' where
  fresh : ∀ d ∈ vars, r.proc.nextVar ≤ d ∧ d < r'.proc.nextVar
  nodup : vars.Nodup

theorem Mints.none (r : Renaming) : Mints r [] r :=
  ⟨.refl r, fun _ mem => absurd mem not_mem_nil, nodup_nil⟩

theorem Mints.trans {vars more : List VarId} (first : Mints r vars r')
    (second : Mints r' more r'') : Mints r (vars ++ more) r'' where
  toGrows := first.toGrows.trans second.toGrows
  fresh d mem := by
    rcases mem_append.mp mem with early | late
    · exact ⟨(first.fresh d early).1, Nat.lt_of_lt_of_le (first.fresh d early).2 second.grows⟩
    · exact ⟨Nat.le_trans first.grows (second.fresh d late).1, (second.fresh d late).2⟩
  nodup := by
    refine nodup_append.mpr ⟨first.nodup, second.nodup, ?_⟩
    rintro d early _ late rfl
    exact Nat.lt_irrefl _ (Nat.lt_of_lt_of_le (first.fresh d early).2 (second.fresh d late).1)

theorem Grows.mints {vars : List VarId} (first : Grows r r') (second : Mints r' vars r'') :
    Mints r vars r'' where
  toGrows := first.trans second.toGrows
  fresh d mem := ⟨Nat.le_trans first.grows (second.fresh d mem).1, (second.fresh d mem).2⟩
  nodup := second.nodup

theorem mints_define (t : DomTree) (b : BlockId) (v : VarId) (r : Renaming) :
    Mints r [((define t b v).run r).1] ((define t b v).run r).2 := by
  refine (grows_settle r t b v).mints ⟨grows_attach _ b v, ?_, by simp⟩
  intro d mem
  obtain rfl := mem_singleton.mp mem
  exact ⟨Nat.le_refl _, Chained.nextVar_attach.symm ▸ Nat.lt_succ_self _⟩

private theorem mints_mapM_define (t : DomTree) (b : BlockId) (vars : List VarId) (r : Renaming) :
    Mints r ((vars.mapM (define t b)).run r).1 ((vars.mapM (define t b)).run r).2 := by
  induction vars generalizing r with
  | nil => exact .none r
  | cons v rest ih =>
    rw [mapM_cons]
    exact (mints_define t b v r).trans (ih _)

private theorem mints_traverseDefs (t : DomTree) (b : BlockId) (i : Inst) (r : Renaming) :
    Mints r ((i.traverseDefs (define t b)).run r).1.defs
      ((i.traverseDefs (define t b)).run r).2 := by
  cases i with
  | assign dst | binary dst | negate dst | load dst | reload dst => exact mints_define t b dst r
  | phi node => exact mints_define t b node.dst r
  | call dst callee args =>
    cases dst with
    | none => exact .none r
    | some dst => exact mints_define t b dst r
  | prepare defs srcs argCount => exact mints_mapM_define t b defs r
  | label | branch | jump | store | ret | spill | stackArg => exact .none r

private theorem mints_mapM_renameInst (t : DomTree) (b : BlockId) (insts : List Inst)
    (r : Renaming) : Mints r (((insts.mapM (renameInst t b)).run r).1.flatMap Inst.defs)
      ((insts.mapM (renameInst t b)).run r).2 := by
  induction insts generalizing r with
  | nil => exact .none r
  | cons i rest ih =>
    rw [mapM_cons]
    have reads := Quiet.traverseUses (quiet_read t b) i r
    exact (reads.mints (mints_traverseDefs t b _ _)).trans (ih _)

/-! ## Filling phis -/

private theorem grows_mapM_fillPhi (t : DomTree) (pred : BlockId) (preds : List BlockId)
    (phis : List Phi) (r : Renaming) : Grows r ((phis.mapM (fillPhi t pred preds)).run r).2 ∧
      ((phis.mapM (fillPhi t pred preds)).run r).1.map Phi.dst = phis.map Phi.dst := by
  induction phis generalizing r with
  | nil => exact ⟨.refl r, rfl⟩
  | cons phi rest ih =>
    obtain ⟨grows, dsts⟩ := ih (r.settle t pred phi.source)
    have shape : ((phi :: rest).mapM (fillPhi t pred preds)).run r =
        (((fillPhi t pred preds phi).run r).1 ::
            ((rest.mapM (fillPhi t pred preds)).run ((fillPhi t pred preds phi).run r).2).1,
          ((rest.mapM (fillPhi t pred preds)).run ((fillPhi t pred preds phi).run r).2).2) := by
      rw [mapM_cons]
      rfl
    rw [shape, run_fillPhi_eq]
    exact ⟨(grows_settle r t pred phi.source).trans grows, congrArg (phi.dst :: ·) dsts⟩

theorem flatMap_defs_phis (phis : List Phi) :
    (phis.map Inst.phi).flatMap Inst.defs = phis.map Phi.dst := by
  induction phis with
  | nil => rfl
  | cons phi rest ih => exact congrArg (phi.dst :: ·) ih

private theorem grows_withInsts {insts : List Inst}
    (same : insts.flatMap Inst.defs = (r.proc.block b).insts.flatMap Inst.defs) :
    Grows r (r.withInsts b insts) := by
  refine ⟨rfl, Nat.le_refl _, size_setInsts .., fun c => ?_⟩
  change ((r.proc.setInsts b insts).block c).insts.flatMap Inst.defs = _
  rw [block_setInsts]
  split
  · rename_i here
    rw [← here.1]
    exact same
  · rfl

private theorem quiet_fillPhis (t : DomTree) (pred succ : BlockId) :
    Quiet (fillPhis t pred succ) := by
  intro r
  obtain ⟨grows, dsts⟩ := grows_mapM_fillPhi t pred (r.proc.block succ).preds
    (r.proc.block succ).phis r
  rw [run_fillPhis]
  refine grows.trans (grows_withInsts ?_)
  rw [grows.defs succ, flatMap_append, flatMap_defs_phis, dsts, ← flatMap_defs_phis,
    ← flatMap_append, ← Block.insts_eq]

/-! ## The whole procedure -/

/-- The definitions of some blocks. -/
def definitionsIn (r : Renaming) (blocks : List BlockId) : List VarId :=
  blocks.flatMap fun c => (r.proc.block c).insts.flatMap Inst.defs

private theorem Grows.definitionsIn (grows : Grows r r') (blocks : List BlockId) :
    r'.definitionsIn blocks = r.definitionsIn blocks := by
  unfold Renaming.definitionsIn
  congr 1
  funext c
  exact grows.defs c

/-- The blocks that are done define fresh variables, each once. -/
structure Numbered (p : Procedure) (r : Renaming) (done : List BlockId) : Prop where
  args : r.proc.args = p.args
  grows : p.nextVar ≤ r.proc.nextVar
  size : r.proc.blocks.size = p.blocks.size
  nodup : (r.definitionsIn done).Nodup
  fresh : ∀ d ∈ r.definitionsIn done, p.nextVar ≤ d ∧ d < r.proc.nextVar

private theorem Numbered.step {p : Procedure} {done : List BlockId} (numbered : Numbered p r done)
    (lt : b < p.blocks.size) (isNew : b ∉ done) :
    Numbered p ((renameBlock t b).run r).2 (b :: done) := by
  have mints := mints_mapM_renameInst t b (r.proc.block b).insts r
  rw [run_renameBlock]
  generalize ((r.proc.block b).insts.mapM (renameInst t b)).run r = renamed at mints
  obtain ⟨new, r'⟩ := renamed
  have later := Quiet.forM (r.proc.block b).succs (quiet_fillPhis t b) (r'.withInsts b new)
  generalize (((r.proc.block b).succs.forM (fillPhis t b)).run (r'.withInsts b new)).2 =
    r'' at later
  have blockOf : ∀ c, ((r'.withInsts b new).proc.block c).insts.flatMap Inst.defs =
      if c = b then new.flatMap Inst.defs else (r.proc.block c).insts.flatMap Inst.defs := by
    intro c
    change ((r'.proc.setInsts b new).block c).insts.flatMap Inst.defs = _
    rw [block_setInsts, mints.size, numbered.size]
    by_cases here : c = b
    · rw [if_pos ⟨here.symm, here ▸ lt⟩, if_pos here]
    · rw [if_neg fun both => here both.1.symm, if_neg here, mints.defs]
  have isDefs : r''.definitionsIn (b :: done) = new.flatMap Inst.defs ++ r.definitionsIn done := by
    rw [later.definitionsIn]
    unfold definitionsIn
    rw [flatMap_cons, blockOf, if_pos rfl]
    congr 1
    refine flatMap_congr fun c mem => ?_
    rw [blockOf, if_neg fun (here : c = b) => isNew (here ▸ mem)]
  have growsNew : r'.proc.nextVar ≤ r''.proc.nextVar := later.grows
  refine ⟨later.args.trans (mints.args.trans numbered.args),
    Nat.le_trans numbered.grows (Nat.le_trans mints.grows growsNew), ?_, ?_, ?_⟩
  · rw [later.size, ← numbered.size, ← mints.size]
    exact size_setInsts ..
  · rw [isDefs]
    refine nodup_append.mpr ⟨mints.nodup, numbered.nodup, ?_⟩
    rintro d isFresh _ isOld rfl
    exact Nat.lt_irrefl _ (Nat.lt_of_lt_of_le (numbered.fresh d isOld).2 (mints.fresh d isFresh).1)
  · intro d mem
    rw [isDefs] at mem
    rcases mem_append.mp mem with isFresh | isOld
    · exact ⟨Nat.le_trans numbered.grows (mints.fresh d isFresh).1,
        Nat.lt_of_lt_of_le (mints.fresh d isFresh).2 growsNew⟩
    · exact ⟨(numbered.fresh d isOld).1, Nat.lt_of_lt_of_le (numbered.fresh d isOld).2
        (Nat.le_trans mints.grows growsNew)⟩

end Renaming

variable {p q : Procedure} {t : DomTree}

/-- Renaming leaves every variable with at most one definition, and arguments with none. -/
theorem Procedure.singleAssignment_rename (linked : p.Linked)
    (dom : t.Exact p) (size : q.blocks.size = p.blocks.size) (args : ∀ a ∈ q.args, a < q.nextVar) :
    (q.rename t).SingleAssignment := by
  obtain ⟨all, covered, stacked, numbered⟩ :=
    DomTree.preorder_induction linked dom (Renaming.renameBlock t)
      (fun done _ r => Renaming.Numbered q r done) (fun done b stack r stacked known => by
        have isNew : b ∉ done := by
          have nodup := stacked.nodup
          rw [cons_append, nodup_cons, mem_append, not_or] at nodup
          exact nodup.1.2
        exact known.step (size ▸ stacked.inside b (by simp)) isNew)
      (Renaming.start q)
      ⟨rfl, Nat.le_refl _, rfl, nodup_nil, fun d mem => absurd mem not_mem_nil⟩
  generalize isFinal : ((t.preorder.forM (Renaming.renameBlock t)).run (Renaming.start q)).2 = r
    at numbered
  have result : q.rename t = r.finish := by
    rw [← isFinal]
    rfl
  -- Every block has been visited once, so the definitions of the visited blocks are all there are.
  have visited : all.Perm r.proc.blockIds := by
    refine (perm_ext_iff_of_nodup (by simpa using stacked.nodup) nodup_range).mpr fun b => ?_
    rw [← blockIds, mem_blockIds, numbered.size, size]
    exact ⟨fun mem => stacked.inside b (by simpa using mem), covered b⟩
  have isDefs : (r.definitionsIn all).Perm (r.finish.insts.flatMap Inst.defs) := by
    rw [insts_eq_flatMap, flatMap_assoc]
    exact visited.flatMap_right _
  rw [result]
  refine ⟨isDefs.nodup_iff.mp numbered.nodup, fun d isDef isArg => ?_⟩
  have below := args d (numbered.args ▸ isArg)
  exact Nat.lt_irrefl _ (Nat.lt_of_lt_of_le below (numbered.fresh d (isDefs.mem_iff.mpr isDef)).1)

theorem Procedure.singleAssignment_constructSsa (linear : p.Linear) (built : p.Built q)
    (tree : t.Exact q) : (q.constructSsa t (.ofTree q t)).1.SingleAssignment := by
  have declared := built.declared linear
  obtain ⟨vars, placement, -⟩ :=
    placement_placePhis t (declared ▸ nodup_range : (q.args ++ q.locals).Nodup)
  change ((q.placePhis (.ofTree q t)).1.rename t).SingleAssignment
  refine singleAssignment_rename built.wf.linked tree placement.size fun a isArg => ?_
  rw [placement.rest] at isArg ⊢
  exact mem_range.mp (declared ▸ mem_append_left _ isArg)

end ArmBackend
