import ArmBackend.Proofs.Passes
import ArmBackend.Proofs.Descent.Shape
import ArmBackend.Proofs.FlowGraph.Linear

/-!
Contract: what every procedure keeps of its body all the way through the passes.

Flow graphs and landing blocks add jumps and returns and aim jumps anew. Single-assignment form
reads versions of what was read, which have its type. Webs change no instruction.

Owns: the name, arguments, calls and fields of a procedure after each pass, the shape of its
operands from lowering on, and the slots of its variables from the building of webs on.
Does not own: lowering, and which registers are given.
-/

namespace ArmBackend

open List Procedure

variable {relates : VarId → VarId → Prop} {i j : Inst}

/-! ## Flow graphs -/

/-- Where a jump goes does not matter. -/
theorem Inst.Variant.of_unaimed (own : ∀ v, relates v v)
    (same : i.unaimed = j.unaimed) : i.Variant relates j := by
  cases aims : i.target? with
  | none => exact Inst.eq_of_unaimed same aims ▸ .refl own i
  | some l =>
    cases i with
    | branch op left right target =>
      obtain ⟨target', rfl⟩ := FlowGraph.Inst.eq_branch_of_unaimed same.symm
      exact .branch op target target' (.refl own left) (.refl own right)
    | jump target =>
      obtain ⟨target', rfl⟩ := FlowGraph.Inst.eq_jump_of_unaimed same.symm
      exact .jump target target'
    | _ => cases aims

private theorem Procedure.continues_buildFlowGraph {p q : Procedure} (linear : p.Linear)
    (ok : p.buildFlowGraph = .ok q) : p.Continues q := by
  have built := built_buildFlowGraph linear ok
  obtain ⟨raw, is, rfl⟩ := raw_of_buildFlowGraph ok
  have own : ∀ v, p.StandsFor (raw.restrictBlocks raw.reached raw.walk) v v := .of_vars built.vars
  have hosts := FlowGraph.hosts_restrict is linear
  obtain ⟨closing, isClosing, isCode⟩ := FlowGraph.code_segments p.insts
  refine ⟨?_, built.args, fun v => by rw [reg?, reg?, var, var, built.vars], own, fun j mem => ?_⟩
  · obtain ⟨names, same⟩ := raw.restrictBlocks_eq raw.reached raw.walk
    obtain ⟨blocks, others, isRaw⟩ := is.same
    rw [same, isRaw]
    rfl
  obtain ⟨b, inBlock⟩ := mem_insts.mp mem
  have lt : b < raw.reached.length := by
    apply Nat.lt_of_not_le
    intro above
    rw [block_of_size_le _ (Kept.size_restrict raw.reached raw.walk ▸ above)] at inBlock
    cases inBlock
  have isHome : raw.reached[b]? = some raw.reached[b] := getElem?_eq_getElem lt
  obtain ⟨s, isSegment⟩ := hosts.segment isHome
  have unaimed := mem_map_of_mem (f := Inst.unaimed) inBlock
  rw [hosts.insts isHome isSegment, mem_append, mem_map] at unaimed
  rcases unaimed with ⟨i, inSegment, same⟩ | isExit
  · have inCode : i ∈ FlowGraph.code (FlowGraph.segments p.insts) :=
      FlowGraph.mem_code.mpr ⟨s, mem_of_getElem? isSegment, .inr inSegment⟩
    rw [isCode, mem_append, FlowGraph.mem_named] at inCode
    rcases inCode with ⟨inBody, -⟩ | inClosing
    · exact .inr ⟨i, inBody, .of_unaimed own same⟩
    · rcases isClosing with rfl | rfl
      · cases inClosing
      · obtain rfl := mem_singleton.mp inClosing
        obtain rfl := Inst.eq_of_unaimed same rfl
        exact .inl True.intro
  · have isJump : j.unaimed = (Inst.jump 0).unaimed := by
      unfold FlowGraph.Segment.exit at isExit
      split at isExit
      · cases isExit
      · exact mem_singleton.mp isExit
    obtain ⟨target, rfl⟩ := FlowGraph.Inst.eq_jump_of_unaimed isJump
    exact .inl True.intro

/-! ## Single-assignment form -/

namespace Renaming

variable {p q : Procedure} {origin : VarId → Origin} {before after : VersionMap}

section

variable (types : ∀ d, (q.var d).ty = (p.var (origin d).source).ty)
  (faithful : Faithful origin before)

include types faithful

/-- A version holds objects of the class of what it is a version of. -/
theorem sameObject_of_version {x : VarId} (present : (before x).isSome = true) :
    p.SameObject q x (before.reading x) := by
  obtain ⟨d, isVersion⟩ := Option.isSome_iff_exists.mp present
  intro name isObject
  rw [VersionMap.reading, isVersion, Option.getD_some, types d, faithful x d isVersion]
  exact isObject

private theorem Renames.variant (renames : Renames origin before i j after)
    (own : ∀ v, p.SameObject q v v)
    (source : i.isSource = true) : i.Variant (p.SameObject q) j := by
  cases renames with
  | read extends_ present defs =>
    exact .mapUses own fun x isRead =>
      sameObject_of_version types (faithful.extends extends_) (present x isRead)
  | @define mid x d extends_ present defs isOrigin =>
    have reads : i.Variant (p.SameObject q) (i.mapUses mid.reading) := .mapUses own fun x isRead =>
      sameObject_of_version types (faithful.extends extends_) (present x isRead)
    refine reads.trans (fun _ _ _ related same => same ▸ related)
      (.mapDefs (fun _ => rfl) fun v isReload => ?_)
    cases i with
    | reload v => cases source
    | _ => cases isReload

private theorem RenamesAll.variant {insts new : List Inst}
    (renames : RenamesAll origin before insts new after)
    (own : ∀ v, p.SameObject q v v) (source : ∀ i ∈ insts, i.isSource = true) :
    ∀ j ∈ new, ∃ i ∈ insts, i.Variant (p.SameObject q) j := by
  induction renames with
  | nil => simp
  | @cons _ _ _ i j rest rest' first more ih =>
    rw [forall_mem_cons] at source ⊢
    refine ⟨⟨i, mem_cons_self, first.variant types faithful own source.1⟩, fun k mem => ?_⟩
    obtain ⟨i', inRest, variant⟩ := ih (first.faithful faithful) source.2 k mem
    exact ⟨i', mem_cons_of_mem _ inRest, variant⟩

end

private theorem Constructed.descends {t : DomTree} {vars : BlockId → List VarId}
    {ends : BlockId → VersionMap}
    {pairs : BlockId → List (VarId × VarId)} {bodies : BlockId → List Inst} (input : Input p t vars)
    (ssa : Constructed p q t vars origin ends pairs bodies) :
    Descends (p.SameObject q) p q := by
  have own : ∀ v, p.SameObject q v v := by
    intro v name isObject
    rcases Nat.lt_or_ge v p.nextVar with below | above
    · rw [ssa.types v, ssa.own v below]
      exact isObject
    · rw [var, Tables.getD_of_size_le p.vars default above] at isObject
      cases isObject
  refine ⟨by rw [ssa.rest], by rw [ssa.rest], ssa.regs, own, fun j mem => ?_⟩
  obtain ⟨b, inBlock⟩ := mem_insts.mp mem
  rcases Nat.lt_or_ge b p.blocks.size with lt | above
  · rw [ssa.block b lt] at inBlock
    rcases mem_append.mp inBlock with isPhi | inBody
    · obtain ⟨pair, -, rfl⟩ := mem_map.mp isPhi
      exact .inl True.intro
    · obtain ⟨i, inOld, variant⟩ := (ssa.renamed b lt).steps.variant ssa.types
        (ssa.faithful_body input lt) own (fun i mem => (input.inScope b i mem).1) j inBody
      exact .inr ⟨i, mem_insts.mpr ⟨b, inOld⟩, variant⟩
  · rw [block_of_size_le q (ssa.size ▸ above)] at inBlock
    cases inBlock

end Renaming

/-! ## Landing blocks -/

namespace Procedure

private theorem continues_addLanding (p : Procedure) (source target : BlockId) :
    p.Continues (p.addLanding source target) := by
  have named : p.Continues (p.newLabel (FlowGraph.blockLabel p.blocks.size)) :=
    .of_blocks (.of_vars rfl) rfl rfl (fun _ => rfl) rfl
  have landed : p.Continues (p.pushLanding source target) :=
    named.trans (.of_pushBlock _ _ (forall_mem_singleton.mpr True.intro))
  unfold addLanding
  split
  · exact landed.trans (.of_modifyBlock _ target fun j mem =>
      .inr ⟨j, mem, .refl (.refl _) j⟩)
  · exact landed

private theorem continues_splitExit (p : Procedure) (taken : Bool) (b target : BlockId) :
    p.Continues (p.splitExit taken b target) := by
  unfold splitExit
  split
  · exact .refl p
  · refine (p.continues_addLanding b target).trans (.of_modifyBlock _ b fun j mem => .inr ?_)
    cases taken with
    | false => exact ⟨j, mem, .refl (.refl _) j⟩
    | true =>
      rcases exists_of_mem_modify mem with old | ⟨i, old, rfl⟩
      · exact ⟨j, old, .refl (.refl _) j⟩
      · exact ⟨i, old, .withTarget (.refl _) i _⟩

private theorem continues_splitEdgesOf (p : Procedure) (b : BlockId) :
    p.Continues (p.splitEdgesOf b) := by
  unfold splitEdgesOf
  split
  · exact (p.continues_splitExit true b _).trans (continues_splitExit _ false b _)
  · exact .refl p

private theorem continues_installOrders (p : Procedure) (walk : Walk) :
    p.Continues (p.installOrders walk) := by
  refine .of_insts (.of_vars rfl) rfl rfl (fun _ => rfl) fun b => ?_
  obtain ⟨n, same⟩ := p.block_installOrders walk b
  rw [same]

private theorem continues_splitCriticalEdges {p q : Procedure} {count : Nat}
    (ok : p.splitCriticalEdges = .ok (q, count)) : p.Continues q := by
  unfold splitCriticalEdges at ok
  dsimp only at ok
  split at ok
  · cases ok
    exact .refl p
  · obtain ⟨r, ordered, same⟩ := bind_pure_eq_ok ok
    obtain ⟨rfl, -⟩ := Prod.mk.inj same
    have split := Descends.foldl p.blockIds p continues_splitEdgesOf
    unfold recomputeOrders at ordered
    dsimp only at ordered
    split at ordered
    · cases ordered
    · obtain rfl := Except.ok.inj ordered
      exact split.trans (continues_installOrders _ _)

/-! ## Webs -/

private theorem descends_buildWebs (p : Procedure) :
    Descends (p.SameObject p.buildWebs) p p.buildWebs := by
  have same := p.sameButWeb_buildWebs
  have own : ∀ v, p.SameObject p.buildWebs v v := fun v name isObject => by
    rw [same.var v]
    exact isObject
  refine .of_blocks own ?_ ?_ (fun v => by rw [reg?, same.var v]; rfl) ?_ <;> rw [same.rest]

end Procedure

/-- What a procedure has of the one it was made from. -/
structure Procedure.Lineage (p q : Procedure) : Prop where
  name : q.name = p.name
  args : q.args = p.args
  calls : ∀ names, p.CallsAmong names → q.CallsAmong names
  fields : ∀ program : Program, (∀ graph, p.buildFlowGraph = .ok graph →
    program.DeclaresFields graph) → program.DeclaresFields q

namespace Procedure.Lineage

variable {p q r : Procedure}

theorem descends (lineage : p.Lineage q) (descends : Descends relates q r)
    (sameObject : ∀ u v, relates u v → q.SameObject r u v) : p.Lineage r where
  name := descends.name.trans lineage.name
  args := descends.args.trans lineage.args
  calls names among := descends.callsAmong (lineage.calls names among)
  fields program declares := descends.declaresFields sameObject (lineage.fields program declares)

theorem continues (lineage : p.Lineage q) (continues : q.Continues r) : p.Lineage r :=
  lineage.descends continues fun _ _ => StandsFor.object

private theorem lowered (lineage : p.Lineage q) (lowered : q.Lowered r) : p.Lineage r where
  name := lowered.name.trans lineage.name
  args := lowered.args.trans lineage.args
  calls names among := lowered.callsAmong (lineage.calls names among)
  fields program declares := lowered.declaresFields (lineage.fields program declares)

private theorem sameButRegs (lineage : p.Lineage q) (same : q.SameButRegs r) : p.Lineage r where
  name := by rw [same.rest, lineage.name]
  args := by rw [same.rest, lineage.args]
  calls names among := by
    rw [CallsAmong, same.insts]
    exact lineage.calls names among
  fields program declares i mem := by
    have declared := lineage.fields program declares i (same.insts ▸ mem)
    cases i with
    | load dst base field =>
      obtain ⟨v, isVar, name, layout, isObject, rest⟩ := declared
      exact ⟨v, isVar, name, layout, (same.ty v).trans isObject, rest⟩
    | store base field src =>
      obtain ⟨name, layout, isObject, rest⟩ := declared
      exact ⟨name, layout, (same.ty base).trans isObject, rest⟩
    | _ => exact True.intro

end Procedure.Lineage

namespace Work

variable {k : Nat} {pass : Pass}

/-- What a procedure on its way has of the one it was made from, after a pass. -/
def Kept (p : Procedure) (w : Work) : Pass → Prop
  | .flowGraph | .dominance | .ssa | .edgeSplitting => p.Lineage w.proc ∧ ∀ v, w.proc.reg? v = none
  | .targetForm => p.Lineage w.proc ∧ (∀ v, w.proc.reg? v = none) ∧ w.proc.Fits
  | .webs | .spilling | .callSites | .liveness =>
    p.Lineage w.proc ∧ (∀ v, w.proc.reg? v = none) ∧ w.proc.Fits ∧ w.proc.Slotted
  | .coloring => p.Lineage w.proc ∧ w.proc.Fits ∧ w.proc.Slotted

variable {p : Procedure} {config : Config} {w w' : Work}

private theorem kept_flowGraph (linear : w.proc.Linear) (ok : w.run config .flowGraph = .ok w') :
    w'.Kept w.proc .flowGraph := by
  obtain ⟨q, graph, rfl⟩ := bind_pure_eq_ok ok
  have continues := continues_buildFlowGraph linear graph
  refine ⟨⟨continues.name, continues.args, fun _ => continues.callsAmong,
    fun _ declares => declares q graph⟩, fun v => (continues.regs v).trans (linear.uncolored v)⟩

private theorem kept_dominance (kept : w.Kept p .flowGraph)
    (ok : w.run config .dominance = .ok w') : w'.Kept p .dominance := by
  obtain ⟨t, -, rfl⟩ := bind_pure_eq_ok ok
  exact kept

private theorem kept_ssa (linear : p.Linear) (after : w.After p .dominance)
    (kept : w.Kept p .dominance) (ok : w.run config .ssa = .ok w') : w'.Kept p .ssa := by
  obtain ⟨⟨built, graph⟩, dominated⟩ := after
  obtain rfl := Except.ok.inj ok
  obtain ⟨vars, origin, ends, pairs, bodies, input, ssa, -⟩ :=
    constructed_constructSsa linear built dominated.tree
  rw [← dominated.frontiers] at ssa
  have descends := ssa.descends input
  exact ⟨kept.1.descends descends fun _ _ => id, fun v => (descends.regs v).trans (kept.2 v)⟩

private theorem kept_edgeSplitting (kept : w.Kept p .ssa)
    (ok : w.run config .edgeSplitting = .ok w') : w'.Kept p .edgeSplitting := by
  obtain ⟨w₁, splits, ok⟩ := bind_eq_ok ok
  obtain ⟨⟨q, count⟩, split, rfl⟩ := bind_pure_eq_ok splits
  have continues := continues_splitCriticalEdges split
  have isProc : w'.proc = q := by
    split at ok
    · obtain rfl := Except.ok.inj ok
      rfl
    · obtain ⟨t, -, rfl⟩ := bind_pure_eq_ok ok
      rfl
  change p.Lineage w'.proc ∧ ∀ v, w'.proc.reg? v = none
  rw [isProc]
  exact ⟨kept.1.continues continues, fun v => (continues.regs v).trans (kept.2 v)⟩

private theorem kept_targetForm (kept : w.Kept p .edgeSplitting)
    (ok : w.run config .targetForm = .ok w') : w'.Kept p .targetForm := by
  obtain rfl := Except.ok.inj ok
  have lowered := w.proc.lowered_lower
  exact ⟨kept.1.lowered lowered, fun v => (lowered.regs v).trans (kept.2 v), lowered.fits⟩

private theorem kept_webs (after : w.After p .targetForm) (kept : w.Kept p .targetForm)
    (ok : w.run config .webs = .ok w') : w'.Kept p .webs := by
  obtain ⟨cert, -, -, -, vs, versioned, webbed, -⟩ := after_webs after ok
  obtain rfl := Except.ok.inj ok
  have descends := w.proc.descends_buildWebs
  refine ⟨kept.1.descends descends fun _ _ => id, fun v => (descends.regs v).trans (kept.2.1 v),
    descends.fits kept.2.2, fun v access => ?_, fun v isArg => ?_⟩
  -- There is no spill code yet.
  · have ordinary : ∀ i ∈ w.buildWebs.proc.insts, i.isInner = true → i.isOrdinary = true := by
      intro i mem
      obtain ⟨b, inBlock⟩ := mem_insts.mp mem
      exact cert.ordinary b (lt_size_of_mem_insts inBlock) i inBlock
    rcases access with isSpill | isReload
    · cases ordinary _ isSpill rfl
    · cases ordinary _ isReload rfl
  · exact Option.isSome_iff_exists.mpr (webbed.present v (versioned.args v isArg).2)

theorem kept_spilling (kept : w.Kept p .webs) (ok : w.run config .spilling = .ok w') :
    w'.Kept p .spilling := by
  obtain ⟨spilled, ran, rfl⟩ := bind_pure_eq_ok ok
  have continues := continues_spill ran
  exact ⟨kept.1.continues continues, fun v => (continues.regs v).trans (kept.2.1 v),
    continues.fits kept.2.2.1, continues.slotted kept.2.2.2⟩

theorem kept_callSites (kept : w.Kept p .spilling) (ok : w.run config .callSites = .ok w') :
    w'.Kept p .callSites := by
  obtain ⟨prepared, ran, rfl⟩ := bind_pure_eq_ok ok
  have continues := continues_prepareCalls ran
  exact ⟨kept.1.continues continues, fun v => (continues.regs v).trans (kept.2.1 v),
    continues.fits kept.2.2.1, continues.slotted kept.2.2.2⟩

private theorem kept_liveness (kept : w.Kept p .callSites) (ok : w.run config .liveness = .ok w') :
    w'.Kept p .liveness := by
  obtain rfl := Except.ok.inj ok
  exact kept

private theorem kept_coloring (kept : w.Kept p .liveness) (ok : w.run config .coloring = .ok w') :
    w'.Kept p .coloring := by
  obtain ⟨q, colored, rfl⟩ := bind_pure_eq_ok ok
  have same := sameButRegs_color colored
  have args : q.args = w.proc.args := by rw [same.rest]
  obtain ⟨lineage, -, fits, slotted⟩ := kept
  refine ⟨lineage.sameButRegs same, fun i mem => fits i (same.insts ▸ mem), fun v access => ?_,
    fun v isArg => ?_⟩
  · change (q.web? v).isSome = true
    rw [same.web? v]
    exact slotted.access v (same.insts ▸ access)
  · change (q.web? v).isSome = true
    rw [same.web? v]
    exact slotted.args v (args ▸ isArg)

private theorem kept_next (linear : p.Linear) {prev next : Pass}
    (isPrev : Pass.order[k]? = some prev) (isNext : Pass.order[k + 1]? = some next)
    (after : w.After p prev) (kept : w.Kept p prev) (ok : w.run config next = .ok w') :
    w'.Kept p next := by
  match k with
  | 0 => cases isPrev; cases isNext; exact kept_dominance kept ok
  | 1 => cases isPrev; cases isNext; exact kept_ssa linear after kept ok
  | 2 => cases isPrev; cases isNext; exact kept_edgeSplitting kept ok
  | 3 => cases isPrev; cases isNext; exact kept_targetForm kept ok
  | 4 => cases isPrev; cases isNext; exact kept_webs after kept ok
  | 5 => cases isPrev; cases isNext; exact kept_spilling kept ok
  | 6 => cases isPrev; cases isNext; exact kept_callSites kept ok
  | 7 => cases isPrev; cases isNext; exact kept_liveness kept ok
  | 8 => cases isPrev; cases isNext; exact kept_coloring kept ok
  | k + 9 => cases isNext

theorem kept_take (linear : p.Linear) {stats : Statistics} (isPass : Pass.order[k]? = some pass)
    (ok : (Pass.order.take (k + 1)).foldlM (run config) (start p stats) = .ok w) :
    w.After p pass ∧ w.Kept p pass :=
  take_induction (motive := fun pass w => w.After p pass ∧ w.Kept p pass)
    (fun _ ran => ⟨after_flowGraph linear ran, kept_flowGraph linear ran⟩)
    (fun isPrev isNext ⟨after, kept⟩ ran =>
      ⟨after_next linear isPrev isNext after ran, kept_next linear isPrev isNext after kept ran⟩)
    isPass ok

/-! ## Checked runs -/

theorem run_of_step (ok : w.step config pass = .ok w') : w.run config pass = .ok w' ∧
      (config.verify = true → Check.afterPass config w'.proc pass = .ok ()) := by
  obtain ⟨w₁, ran, ok⟩ := bind_eq_ok ok
  split at ok
  · obtain ⟨_, checked, rfl⟩ := bind_pure_eq_ok ok
    exact ⟨ran, fun _ => checked⟩
  · rename_i unchecked
    obtain rfl := Except.ok.inj ok
    exact ⟨ran, fun checks => absurd checks unchecked⟩

theorem run_of_steps {passes : List Pass} (ok : passes.foldlM (step config) w = .ok w') :
    passes.foldlM (run config) w = .ok w' := by
  induction passes generalizing w with
  | nil => exact ok
  | cons pass rest ih =>
    obtain ⟨w₁, stepped, ok⟩ := bind_eq_ok ok
    rw [foldlM_cons, (run_of_step stepped).1]
    exact ih ok

end Work

variable {config : Config} {stats : Statistics}

/-- What is known of a procedure that went through all passes. -/
structure Procedure.Compiled (p q : Procedure) : Prop where
  inForm : q.WellFormed ∧ q.Ordered
  lineage : p.Lineage q

theorem compiled_finish {p : Procedure} {w : Work} (linear : p.Linear)
    (ok : (Work.start p stats).finish config = .ok w) : p.Compiled w.proc := by
  obtain ⟨w₁, steps, rfl⟩ := bind_pure_eq_ok ok
  obtain ⟨after, kept⟩ := Work.kept_take linear (k := 9) rfl (Work.run_of_steps steps)
  exact ⟨after, kept.1⟩

/-- What each procedure has to do with what the passes make of it, in order. -/
theorem forall₂_compileProcedures {relates : Procedure → Procedure → Prop}
    {procedures done : List Procedure} {stats' : Statistics}
    (each : ∀ p ∈ procedures, ∀ stats w, (Work.start p stats).finish config = .ok w →
      relates p w.proc)
    (ok : compileProcedures config procedures stats = .ok (done, stats')) :
    List.Forall₂ relates procedures done := by
  induction procedures generalizing stats done with
  | nil =>
    obtain ⟨rfl, -⟩ := Prod.mk.inj (Except.ok.inj ok)
    exact .nil
  | cons p rest ih =>
    rw [forall_mem_cons] at each
    unfold compileProcedures at ok
    split at ok
    · cases ok
    · rename_i w finished
      obtain ⟨⟨more, stats₁⟩, compiled, same⟩ := bind_pure_eq_ok ok
      obtain ⟨rfl, rfl⟩ := Prod.mk.inj same
      exact .cons (each.1 _ w finished) (ih each.2 compiled)

/-- What the passes leave of a program that was read. -/
theorem Program.compiled_allocate {text : String} {program colored : Program}
    (read : Program.ofText text = .ok program)
    (ok : program.allocate config = .ok (colored, stats)) :
    List.Forall₂ Procedure.Compiled program.procedures colored.procedures := by
  obtain ⟨⟨procedures, stats'⟩, compiled, same⟩ := bind_pure_eq_ok ok
  obtain ⟨rfl, rfl⟩ := Prod.mk.inj same
  exact forall₂_compileProcedures
    (fun p mem _ _ => compiled_finish (linear_of_ofText read p mem)) compiled

end ArmBackend
