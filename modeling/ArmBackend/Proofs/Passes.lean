import ArmBackend.Compilation
import ArmBackend.Proofs.Coloring.Registers
import ArmBackend.Proofs.Liveness
import ArmBackend.Proofs.Spill.Steps
import ArmBackend.Proofs.TargetForm
import ArmBackend.Proofs.Web

/-!
Contract: what every procedure of a text is after each pass.

In front of every call stands a copy, of its arguments to temporaries that are numbered in order,
and of what lives across the call to itself.

Owns: the account of prepared calls, what is known after each pass, that every pass that succeeds
leaves the flow graph in form, and that every pass but lowering keeps instructions, up to variables
and jump targets. Does not own: what the passes do to the meaning of a procedure.
-/

namespace ArmBackend

open List Procedure

variable {t : DomTree} {f : Frontiers} {prepared : PreparedCalls}

/-- The second procedure is the first with more locals. -/
inductive Procedure.AddsLocals : Procedure → Procedure → Prop
  | refl (p : Procedure) : AddsLocals p p
  | add {p q : Procedure} (name : String) (ty : Ty) (more : AddsLocals (p.addLocal name ty) q) :
      AddsLocals p q

private theorem Procedure.AddsLocals.sameBlocks {p q : Procedure} (adds : p.AddsLocals q) :
    p.SameBlocks q := by
  induction adds with
  | refl => exact .refl _
  | add _ _ _ ih => exact ⟨ih.blocks, ih.preorder, ih.postorder, ih.rpo⟩

namespace CallPreparation

variable {s s' : CallPreparation} {b : BlockId} {l : Liveness} {g p q : Procedure}
  {old new : List Inst}

/-- Temporaries for the arguments of a call, with the variables that they are copied from. -/
structure Copies (args : List Operand) (copies : List (VarId × VarId)) (p q : Procedure) :
    Prop where
  adds : p.AddsLocals q
  args : args = copies.map fun copy => .var copy.2
  temps : copies.map Prod.fst = List.range' p.nextVar copies.length
  count : q.nextVar = p.nextVar + copies.length

private theorem copies_arguments {args : List Operand} {copies : List (VarId × VarId)}
    (ok : args.mapM (argument b) s = .ok (copies, s')) :
    Copies args copies s.proc s'.proc ∧ s' = { s with proc := s'.proc } := by
  induction args generalizing s copies with
  | nil =>
    rw [mapM_nil] at ok
    obtain ⟨rfl, rfl⟩ := Prod.mk.inj (Except.ok.inj ok)
    exact ⟨⟨.refl _, rfl, rfl, rfl⟩, rfl⟩
  | cons arg rest ih =>
    rw [mapM_cons] at ok
    obtain ⟨⟨copy, s₁⟩, first, ok⟩ := bind_eq_ok ok
    obtain ⟨⟨others, s₂⟩, more, ok⟩ := bind_pure_eq_ok ok
    obtain ⟨rfl, rfl⟩ := Prod.mk.inj ok
    obtain ⟨made, same⟩ := ih more
    cases arg with
    | var src =>
      obtain ⟨rfl, rfl⟩ := Prod.mk.inj (Except.ok.inj first)
      have temps := made.temps
      have count := made.count
      rw [nextVar_addLocal] at temps count
      refine ⟨⟨.add _ _ made.adds, by rw [map_cons, ← made.args], ?_, ?_⟩, same⟩
      · rw [map_cons, temps, length_cons, range'_succ]
      · rw [count, length_cons, Nat.add_assoc, Nat.add_comm 1]
    | _ => cases first

/-- What lives across an instruction, with the given ones behind it. -/
def across (l : Liveness) (g : Procedure) (b : BlockId) (i : Inst) (rest : List Inst) :
    List VarId :=
  ((l.ahead g b (i :: rest)).inter (l.ahead g b rest)).toList

/-- Code with prepared calls in the place of other code. Temporaries are added from the last call
on. -/
inductive Prepared (l : Liveness) (g : Procedure) (b : BlockId) (p : Procedure) :
    List Inst → List Inst → Procedure → Prop
  | nil : Prepared l g b p [] [] p
  | keep {i : Inst} {old new : List Inst} {q : Procedure} (other : i.isCall = false)
      (rest : Prepared l g b p old new q) : Prepared l g b p (i :: old) (i :: new) q
  | call {dst : Option VarId} {callee : Callee} {args : List Operand} {copies : List
      (VarId × VarId)} {old new : List Inst} {q r : Procedure} (rest : Prepared l g b p old new q)
      (made : Copies args copies q r) : Prepared l g b p (.call dst callee args :: old)
        (.prepare (copies.map (·.1) ++ across l g b (.call dst callee args) old)
            (copies.map (·.2) ++ across l g b (.call dst callee args) old) args.length ::
          .call dst callee (copies.map fun copy => .var copy.1) :: new) r

/-- Copies redefine all that is carried. -/
theorem prepared_prepareFrom {earlier code : List Inst} (rest : Prepared l g b p old new s.proc)
    (ok : prepareFrom b (g.exitReads b) earlier (l.ahead g b old) new s = .ok (code, s')) :
    Prepared l g b p (earlier.reverse ++ old) code s'.proc ∧ new <:+ code ∧
      ∀ v, s'.carried.contains v = true → s.carried.contains v = true ∨
      v ∈ code.flatMap Inst.defs := by
  induction earlier generalizing s old new with
  | nil =>
    obtain ⟨rfl, rfl⟩ := Prod.mk.inj (Except.ok.inj ok)
    exact ⟨rest, suffix_refl _, fun v => .inl⟩
  | cons i earlier ih =>
    rw [reverse_cons, append_assoc]
    cases isCall : i.isCall with
    | true =>
      cases i with
      | call dst callee args =>
        obtain ⟨⟨code', s₁⟩, prepared, ok⟩ := bind_eq_ok ok
        obtain ⟨⟨copies, s₂⟩, made, same⟩ := bind_pure_eq_ok prepared
        obtain ⟨rfl, rfl⟩ := Prod.mk.inj same
        obtain ⟨made, same⟩ := copies_arguments made
        obtain ⟨all, suffix, carried⟩ := ih (s := { s₂ with
          carried := s₂.carried.insertMany (across l g b (.call dst callee args) old)
          count := s₂.count + 1 }) (.call rest made) ok
        have isCopy := List.IsSuffix.subset suffix mem_cons_self
        refine ⟨all, ((suffix_cons _ _).trans (suffix_cons _ _)).trans suffix,
          fun v isCarried => ?_⟩
        refine (carried v isCarried).elim (fun early => ?_) .inr
        change (s₂.carried.insertMany _).contains v = true at early
        rw [IndexSet.contains_insertMany, Bool.or_eq_true, List.contains_iff_mem, same] at early
        exact early.imp_right fun isAcross => mem_flatMap.mpr
          ⟨_, isCopy, mem_append_right _ isAcross⟩
      | _ => cases isCall
    | false =>
      have ok' : prepareFrom b (g.exitReads b) earlier (l.ahead g b (i :: old)) (i :: new) s =
          .ok (code, s') := by
        cases i with
        | call => cases isCall
        | _ => exact ok
      obtain ⟨all, suffix, carried⟩ := ih (.keep isCall rest) ok'
      exact ⟨all, (suffix_cons _ _).trans suffix, carried⟩

theorem prepareBlock_eq (ok : prepareBlock l b s = .ok ((), s')) :
    ∃ insts q, Prepared l s.proc b s.proc (s.proc.block b).insts insts q ∧
      s'.proc = q.setInsts b insts ∧
      ∀ v, s'.carried.contains v = true → s.carried.contains v = true ∨
      v ∈ insts.flatMap Inst.defs := by
  obtain ⟨⟨insts, s₁⟩, prepared, ok⟩ := bind_pure_eq_ok ok
  obtain ⟨-, rfl⟩ := Prod.mk.inj ok
  obtain ⟨all, -, carried⟩ := prepared_prepareFrom .nil prepared
  rw [reverse_reverse, append_nil] at all
  exact ⟨insts, s₁.proc, all, rfl, carried⟩

theorem prepareBlocks_induction {motive : CallPreparation → Prop}
    (step : ∀ b s s', motive s → prepareBlock l b s = .ok ((), s') → motive s')
    {blocks : List BlockId}
    (start : motive s) (ok : blocks.forM (prepareBlock l) s = .ok ((), s')) : motive s' := by
  induction blocks generalizing s with
  | nil =>
    obtain ⟨-, rfl⟩ := Prod.mk.inj (Except.ok.inj ok)
    exact start
  | cons b rest ih =>
    obtain ⟨⟨_, s₁⟩, first, ok⟩ := bind_eq_ok ok
    exact ih (step b s s₁ start first) ok

/-! ## Form -/

theorem Prepared.pads (prepared : Prepared l g b p old new q) : Pads old new ∧ p.SameBlocks q := by
  induction prepared with
  | nil => exact ⟨.nil, .refl _⟩
  | keep _ _ ih => exact ⟨.keep (.refl _) ih.1, ih.2⟩
  | call _ made ih =>
    exact ⟨.add rfl rfl (.keep ⟨fun _ same => Inst.noConfusion same, fun _ => rfl,
      fun _ _ => False.elim⟩ ih.1), ih.2.trans made.adds.sameBlocks⟩

theorem padded_prepareBlock (ok : prepareBlock l b s = .ok ((), s')) : s.proc.Padded s'.proc := by
  obtain ⟨insts, q, prepared, isProc, -⟩ := prepareBlock_eq ok
  obtain ⟨pads, same⟩ := prepared.pads
  rw [← same.block b] at pads
  exact isProc ▸ same.padded.trans (padded_setInsts _ b pads)

end CallPreparation

theorem Procedure.reshaped_prepareCalls {p : Procedure} (ok : p.prepareCalls t f = .ok prepared) :
    p.Reshaped prepared.proc := by
  obtain ⟨⟨_, s⟩, ran, rfl⟩ := bind_pure_eq_ok ok
  have padded : p.Padded s.proc :=
    CallPreparation.prepareBlocks_induction (motive := fun s => p.Padded s.proc)
    (fun _ _ _ known stepped => known.trans (CallPreparation.padded_prepareBlock stepped))
      (.refl p) ran
  exact padded.reshaped.trans (retouches_repairAll t f s.carried.toList s.proc 0).reshaped

/-! ## All passes -/

namespace Work

variable {k : Nat} {pass : Pass} {stats : Statistics}

/-- Dominance as found for a flow graph. -/
structure Dominated (w : Work) : Prop where
  tree : w.tree.Exact w.proc
  frontiers : w.frontiers = .ofTree w.proc w.tree

/-- Reads in the flow graph of a procedure are assigned. -/
def Assigned (p : Procedure) : Prop := ∀ graph, p.buildFlowGraph = .ok graph → graph.AssignsReads

/-- What is known of a procedure on its way, after a pass. -/
def After (p : Procedure) (w : Work) : Pass → Prop
  | .flowGraph => p.Built w.proc ∧ p.buildFlowGraph = .ok w.proc
  | .dominance => (p.Built w.proc ∧ p.buildFlowGraph = .ok w.proc) ∧ w.Dominated
  | .ssa => w.proc.Certified (Assigned p) ∧ w.proc.Ordered ∧ w.Dominated
  | .edgeSplitting | .targetForm =>
    w.proc.Certified (Assigned p) ∧ w.proc.Ordered ∧ w.Dominated ∧ w.proc.Uncritical
  | .webs =>
    w.proc.Certified (Assigned p) ∧ w.proc.Ordered ∧ w.Dominated ∧ w.proc.Uncritical ∧
      w.proc.HasWebs (Assigned p)
  | .spilling | .callSites | .liveness | .coloring => w.proc.WellFormed ∧ w.proc.Ordered

variable {p : Procedure} {config : Config} {w w' : Work}

private theorem After.inForm (after : w.After p pass) : w.proc.WellFormed ∧ w.proc.Ordered := by
  cases pass with
  | flowGraph => exact ⟨after.1.wf, after.1.ordered⟩
  | dominance => exact ⟨after.1.1.wf, after.1.1.ordered⟩
  | ssa | edgeSplitting | targetForm | webs => exact ⟨after.1.wf, after.2.1⟩
  | spilling | callSites | liveness | coloring => exact after

theorem Dominated.of_sameGraph (dominated : w.Dominated) (same : w.proc.SameGraph w'.proc)
    (tree : w'.tree = w.tree) (frontiers : w'.frontiers = w.frontiers) : w'.Dominated := by
  refine ⟨tree ▸ same.exact_ dominated.tree, ?_⟩
  rw [frontiers, tree, same.ofTree]
  exact dominated.frontiers

theorem dominated_findDominance (wf : w.proc.WellFormed) (ordered : w.proc.Ordered)
    (ok : w.findDominance = .ok w') : w'.proc = w.proc ∧ w'.Dominated := by
  obtain ⟨t, found, rfl⟩ := bind_pure_eq_ok ok
  exact ⟨rfl, DomTree.exact_ofProcedure wf.linked ordered found, rfl⟩

theorem after_flowGraph (linear : w.proc.Linear) (ok : w.run config .flowGraph = .ok w') :
    w'.After w.proc .flowGraph := by
  obtain ⟨q, graph, rfl⟩ := bind_pure_eq_ok ok
  exact ⟨built_buildFlowGraph linear graph, graph⟩

private theorem after_dominance (after : w.After p .flowGraph)
    (ok : w.run config .dominance = .ok w') : w'.After p .dominance := by
  obtain ⟨built, graph⟩ := after
  obtain ⟨same, dominated⟩ := dominated_findDominance built.wf built.ordered ok
  exact ⟨⟨same ▸ built, same ▸ graph⟩, dominated⟩

private theorem after_ssa (linear : p.Linear) (after : w.After p .dominance)
    (ok : w.run config .ssa = .ok w') : w'.After p .ssa := by
  obtain ⟨⟨built, graph⟩, dominated⟩ := after
  obtain rfl := Except.ok.inj ok
  obtain ⟨vars, origin, ends, pairs, bodies, input, ssa, phiVars⟩ :=
    constructed_constructSsa linear built dominated.tree
  have isProc : w.constructSsa.proc =
      (w.proc.constructSsa w.tree (.ofTree w.proc w.tree)).1 := by
    rw [← dominated.frontiers]
    rfl
  have sameGraph := ssa.sameGraph
  rw [← isProc] at ssa sameGraph
  have cert := ssa.certified input phiVars
  exact ⟨cert.mono fun assigned => assigned _ graph, sameGraph.ordered built.ordered,
    dominated.of_sameGraph sameGraph rfl rfl⟩

private theorem after_edgeSplitting (after : w.After p .ssa)
    (ok : w.run config .edgeSplitting = .ok w') : w'.After p .edgeSplitting := by
  obtain ⟨cert, ordered, dominated⟩ := after
  obtain ⟨w₁, splits, ok⟩ := bind_eq_ok ok
  obtain ⟨⟨q, count⟩, split, rfl⟩ := bind_pure_eq_ok splits
  obtain ⟨cert', ordered', uncritical, unsplit⟩ := certified_splitCriticalEdges cert ordered split
  change (if count = 0 then _ else _) = _ at ok
  by_cases none : count = 0
  · rw [if_pos none] at ok
    obtain rfl := Except.ok.inj ok
    refine ⟨cert', ordered', dominated.of_sameGraph ?_ rfl rfl, uncritical⟩
    exact (unsplit none).symm ▸ .refl _
  · rw [if_neg none] at ok
    obtain ⟨same, dominated'⟩ := dominated_findDominance cert'.wf ordered' ok
    exact ⟨same ▸ cert', same ▸ ordered', dominated', same ▸ uncritical⟩

private theorem after_targetForm (after : w.After p .edgeSplitting)
    (ok : w.run config .targetForm = .ok w') : w'.After p .targetForm := by
  obtain ⟨cert, ordered, dominated, uncritical⟩ := after
  obtain rfl := Except.ok.inj ok
  obtain ⟨cert', sameGraph⟩ := certified_lower cert
  exact ⟨cert', sameGraph.ordered ordered, dominated.of_sameGraph sameGraph rfl rfl,
    sameGraph.uncritical uncritical⟩

theorem after_webs (after : w.After p .targetForm) (ok : w.run config .webs = .ok w') :
    w'.After p .webs := by
  obtain ⟨cert, ordered, dominated, uncritical⟩ := after
  obtain rfl := Except.ok.inj ok
  obtain ⟨cert', hasWebs, sameBlocks⟩ := certified_buildWebs cert
  have sameGraph := sameBlocks.padded.graph
  exact ⟨cert', sameGraph.ordered ordered, dominated.of_sameGraph sameGraph rfl rfl,
    sameGraph.uncritical uncritical, hasWebs⟩

theorem inForm_of_reshaped {q : Procedure} (reshaped : p.Reshaped q)
    (inForm : p.WellFormed ∧ p.Ordered) : q.WellFormed ∧ q.Ordered :=
  ⟨reshaped.wf inForm.1, reshaped.graph.ordered inForm.2⟩

theorem after_spilling (after : w.After p .webs) (ok : w.run config .spilling = .ok w') :
    w'.After p .spilling := by
  obtain ⟨cert, ordered, -⟩ := after
  obtain ⟨spilled, ran, rfl⟩ := bind_pure_eq_ok ok
  exact inForm_of_reshaped (reshaped_spill cert.wf cert.noPhis ran) ⟨cert.wf, ordered⟩

theorem after_callSites (after : w.After p .spilling) (ok : w.run config .callSites = .ok w') :
    w'.After p .callSites := by
  obtain ⟨prepared, ran, rfl⟩ := bind_pure_eq_ok ok
  exact inForm_of_reshaped (reshaped_prepareCalls ran) after

private theorem after_liveness (after : w.After p .callSites)
    (ok : w.run config .liveness = .ok w') : w'.After p .liveness := by
  obtain rfl := Except.ok.inj ok
  exact after

private theorem after_coloring (after : w.After p .liveness)
    (ok : w.run config .coloring = .ok w') : w'.After p .coloring := by
  obtain ⟨q, colored, rfl⟩ := bind_pure_eq_ok ok
  exact inForm_of_reshaped (sameButRegs_color colored).sameBlocks.padded.reshaped after

/-- What is known after a pass follows from what is known after the pass before it. -/
theorem after_next (linear : p.Linear) {prev next : Pass}
    (isPrev : Pass.order[k]? = some prev) (isNext : Pass.order[k + 1]? = some next)
    (after : w.After p prev) (ok : w.run config next = .ok w') : w'.After p next := by
  match k with
  | 0 => cases isPrev; cases isNext; exact after_dominance after ok
  | 1 => cases isPrev; cases isNext; exact after_ssa linear after ok
  | 2 => cases isPrev; cases isNext; exact after_edgeSplitting after ok
  | 3 => cases isPrev; cases isNext; exact after_targetForm after ok
  | 4 => cases isPrev; cases isNext; exact after_webs after ok
  | 5 => cases isPrev; cases isNext; exact after_spilling after ok
  | 6 => cases isPrev; cases isNext; exact after_callSites after ok
  | 7 => cases isPrev; cases isNext; exact after_liveness after ok
  | 8 => cases isPrev; cases isNext; exact after_coloring after ok
  | k + 9 => cases isNext

/-- What holds after the first pass, and after each pass if after the one before it, holds all the
way. -/
theorem take_induction {motive : Pass → Work → Prop}
    (first : ∀ w, (start p stats).run config .flowGraph = .ok w → motive .flowGraph w)
    (next : ∀ {k prev pass w w'}, Pass.order[k]? = some prev → Pass.order[k + 1]? = some pass →
      motive prev w → w.run config pass = .ok w' → motive pass w') (isPass :
      Pass.order[k]? = some pass)
    (ok : (Pass.order.take (k + 1)).foldlM (run config) (start p stats) = .ok w) :
    motive pass w := by
  induction k generalizing pass w with
  | zero =>
    cases isPass
    obtain ⟨w₁, ran, rfl⟩ := bind_pure_eq_ok ok
    exact first w₁ ran
  | succ k ih =>
    obtain ⟨prev, isPrev⟩ : ∃ prev, Pass.order[k]? = some prev := by
      have lt := (List.getElem?_eq_some_iff.mp isPass).1
      exact ⟨_, getElem?_eq_getElem (Nat.lt_of_succ_lt lt)⟩
    have split : Pass.order.take (k + 1 + 1) = Pass.order.take (k + 1) ++ [pass] := by
      rw [take_add_one, isPass]
      rfl
    rw [split, foldlM_append] at ok
    obtain ⟨w₁, ran, ok⟩ := bind_eq_ok ok
    obtain ⟨w₂, last, rfl⟩ := bind_pure_eq_ok ok
    exact next isPrev isPass (ih isPrev ran) last

/-- What is known after each pass of a run of passes. -/
theorem after_take (linear : p.Linear) (isPass : Pass.order[k]? = some pass)
    (ok : (Pass.order.take (k + 1)).foldlM (run config) (start p stats) = .ok w) : w.After p pass :=
  take_induction (motive := fun pass w => w.After p pass) (fun _ => after_flowGraph linear)
    (after_next linear) isPass ok

end Work

namespace Procedure

/-- A flow graph in form. Each block is a run of phis with an argument for each predecessor, then
inner instructions, then one terminator that fits the edges. Predecessors are the sources of edges.
All blocks are reached from the entry, which has no predecessors, and the recorded orders are orders
of all blocks. -/
structure Intact (p : Procedure) : Prop where
  nonempty : entry < p.blocks.size
  shape : ∀ b < p.blocks.size, Nonempty (p.Shape (p.block b))
  inside : ∀ b, ∀ s ∈ (p.block b).succs, s < p.blocks.size
  preds : ∀ b < p.blocks.size, (p.block b).preds.Perm (FlowGraph.predsOf p.blocks b)
  entryPreds : (p.block entry).preds = []
  reached : ∀ b < p.blocks.size, ∃ seen, p.Path seen b
  preorder : p.preorder.Perm p.blockIds
  postorder : p.postorder.Perm p.blockIds
  rpo : p.rpo = p.postorder.reverse
  index : ∀ (i : Nat) b, p.postorder[i]? = some b → (p.block b).postIndex = i

theorem intact_of_inForm {p : Procedure} (wf : p.WellFormed) (ordered : p.Ordered) : p.Intact := by
  have postorder : p.postorder.Perm p.blockIds :=
    (perm_ext_iff_of_nodup ordered.nodup nodup_range).mpr fun b =>
      (ordered.mem b).trans mem_blockIds.symm
  exact {
    nonempty := wf.nonempty
    shape := wf.shape
    inside := fun b s edge => (wf.inside b s edge).1
    preds := wf.preds
    entryPreds := wf.preds_entry
    reached := fun b lt => ordered.exists_path lt
    preorder := ordered.preorder.trans postorder
    postorder := postorder
    rpo := ordered.rpo
    index := ordered.index }

end Procedure

/-- After any number of passes, from the first one on, the flow graph of a procedure of a text is in
form. -/
theorem Work.intact_passes {text : String} {program : Program} {p : Procedure}
    (read : Program.ofText text = .ok program) (mem : p ∈ program.procedures) {config : Config}
    {stats : Statistics} {passes rest : List Pass} (order : Pass.order = passes ++ rest)
    (nonempty : passes ≠ []) {w : Work}
    (ok : passes.foldlM (Work.run config) (Work.start p stats) = .ok w) : w.proc.Intact := by
  have linear := Program.linear_of_ofText read p mem
  obtain ⟨done, pass, rfl⟩ := eq_nil_or_concat passes |>.resolve_left nonempty
  rw [concat_eq_append] at order ok
  have isPass : Pass.order[done.length]? = some pass := by simp [order]
  have isTake : Pass.order.take (done.length + 1) = done ++ [pass] := by
    rw [order]
    exact take_left' (by simp)
  rw [← isTake] at ok
  obtain ⟨wf, ordered⟩ := (after_take linear isPass ok).inForm
  exact intact_of_inForm wf ordered

/-- A loop of one block, whose edge back is critical. -/
def Program.countText : String :=
  "Int f(Int a) \x7b P: a = a - 1; if (a > 0) goto P; return a; \x7d"

theorem Work.intact_passes_count :
    ∃ program p w, Program.ofText Program.countText = .ok program ∧ p ∈ program.procedures ∧
      Pass.order.foldlM (Work.run .standard) (Work.start p .zero) = .ok w ∧
      w.proc.blocks.size = 4 ∧ w.proc.Intact := by
  have evaluated : ((Program.ofText Program.countText).toOption.bind fun program =>
      program.procedures.head?.bind fun p =>
        (Pass.order.foldlM (Work.run .standard) (Work.start p .zero)).toOption.map
          (·.proc.blocks.size)) = some 4 := by
    decide +kernel
  obtain ⟨program, p, isRead, mem, evaluated⟩ := Program.exists_of_first evaluated
  obtain ⟨w, isRan, size⟩ := Tables.exists_ok_of_map evaluated
  exact ⟨program, p, w, isRead, mem, isRan, size,
    Work.intact_passes isRead mem (append_nil _).symm (by decide) isRan⟩

variable {p : Procedure}

/-! ## Spilling -/

private theorem SpillPlan.Changes.continues {s : SpillPlan} (changes : Changes p s) :
    p.Continues s.proc := by
  have own : ∀ v, p.StandsFor s.proc v v := by
    rw [changes.rest]
    exact .of_vars rfl
  refine ⟨by rw [changes.rest], by rw [changes.rest], fun v => by rw [changes.rest]; rfl, own,
    fun j mem => ?_⟩
  obtain ⟨b, inBlock⟩ := mem_insts.mp mem
  rcases changes.insts b j inBlock with old | ⟨phi, mark, -, rfl⟩ | ⟨v, hasWeb, rfl | rfl⟩
  · exact .inr ⟨j, mem_insts.mpr ⟨b, old⟩, .refl own j⟩
  · exact .inl True.intro
  · exact .inl ((congrArg Option.isSome (changes.web? v)).trans hasWeb)
  · exact .inl ((congrArg Option.isSome (changes.web? v)).trans hasWeb)

theorem Procedure.continues_spill {config : Config}
    {spilled : Spilled} (ok : p.spill t f config = .ok spilled) : p.Continues spilled.proc := by
  obtain ⟨s, ran, rfl⟩ := bind_pure_eq_ok ok
  exact (SpillPlan.changes_run ran).continues.trans
    (retouches_repairAll t f s.stored.toList s.proc 0).continues

/-! ## Calls -/

private theorem Procedure.AddsLocals.continues {q : Procedure} (adds : p.AddsLocals q) :
    p.Continues q := by
  induction adds with
  | refl => exact .refl _
  | @add p q name ty _ ih =>
    exact .trans (.of_blocks (.addLocal p name ty) rfl rfl (p.reg?_newVar name ty) rfl) ih

namespace CallPreparation

variable {s s' : CallPreparation} {b : BlockId}

/-- The code of a block once its calls are prepared: copies, and what was there, on other
arguments. -/
theorem Prepared.continues {l : Liveness} {g p q : Procedure} {old new : List Inst}
    (prepared : Prepared l g b p old new q) : p.Continues q ∧ ∀ j ∈ new,
      (∃ defs srcs argCount, j = .prepare defs srcs argCount) ∨
      ∃ i ∈ old, i.Variant (p.StandsFor q) j := by
  induction prepared with
  | nil => exact ⟨.refl _, forall_mem_nil _⟩
  | keep _ _ ih =>
    obtain ⟨continues, known⟩ := ih
    refine ⟨continues, forall_mem_cons.mpr ⟨.inr ⟨_, mem_cons_self, .refl continues.own _⟩,
      fun j mem => (known j mem).imp_right ?_⟩⟩
    exact fun ⟨i, inOld, variant⟩ => ⟨i, mem_cons_of_mem _ inOld, variant⟩
  | call _ made ih =>
    obtain ⟨continues, known⟩ := ih
    have later := made.adds.continues
    refine ⟨continues.trans later, forall_mem_cons.mpr ⟨.inl ⟨_, _, _, rfl⟩, forall_mem_cons.mpr
      ⟨.inr ⟨_, mem_cons_self, .call ..⟩, fun j mem => (known j mem).imp_right ?_⟩⟩⟩
    refine fun ⟨i, inOld, variant⟩ =>
      ⟨i, mem_cons_of_mem _ inOld, variant.trans ?_ (.refl later.own j)⟩
    exact fun _ _ _ => StandsFor.trans

theorem continues_prepareBlock {live : Liveness} (ok : prepareBlock live b s = .ok ((), s')) :
    s.proc.Continues s'.proc := by
  obtain ⟨insts, q, prepared, isProc, -⟩ := prepareBlock_eq ok
  obtain ⟨later, known⟩ := prepared.continues
  rw [isProc]
  refine later.modifyBlock b fun j mem => ?_
  rcases known j mem with ⟨defs, srcs, argCount, rfl⟩ | ⟨i, inBlock, variant⟩
  · exact .inl True.intro
  · exact .inr ⟨i, mem_insts.mpr ⟨b, inBlock⟩, variant⟩

end CallPreparation

theorem Procedure.continues_prepareCalls {p : Procedure} (ok : p.prepareCalls t f = .ok prepared) :
    p.Continues prepared.proc := by
  obtain ⟨⟨_, s⟩, ran, rfl⟩ := bind_pure_eq_ok ok
  have continues : p.Continues s.proc :=
    CallPreparation.prepareBlocks_induction (motive := fun s => p.Continues s.proc)
    (fun _ _ _ known stepped => known.trans (CallPreparation.continues_prepareBlock stepped))
      (.refl p) ran
  exact continues.trans (retouches_repairAll t f s.carried.toList s.proc 0).continues

end ArmBackend
