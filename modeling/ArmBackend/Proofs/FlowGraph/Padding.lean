import ArmBackend.Proofs.Dominance.Frontier

/-!
Contract: passes that leave the flow graph as it is.

New instructions go between the phis and the terminator of a block, and new phis go to its head; the
others change at most in the variables they mention.

Owns: the relations between instruction lists and between procedures that say so, and that blocks
stay in shape and order, dominance and frontiers carry over.
Does not own: which passes add what.
-/

namespace ArmBackend

open List

namespace Procedure

/-- Two procedures with the same edges and labels. -/
structure SameEdges (p q : Procedure) : Prop where
  size : q.blocks.size = p.blocks.size
  label : ∀ b, (q.block b).label = (p.block b).label
  preds : ∀ b, (q.block b).preds = (p.block b).preds
  direct : ∀ b, (q.block b).direct = (p.block b).direct
  cond : ∀ b, (q.block b).cond = (p.block b).cond

/-- Two procedures with the same edges and labels and the same recorded orders. -/
structure SameGraph (p q : Procedure) : Prop extends p.SameEdges q where
  postIndex : ∀ b, (q.block b).postIndex = (p.block b).postIndex
  preorder : q.preorder = p.preorder
  postorder : q.postorder = p.postorder
  rpo : q.rpo = p.rpo

namespace SameEdges

variable {p q : Procedure}
variable {b : BlockId}

section

variable (same : p.SameEdges q)

include same

theorem symm : q.SameEdges p where
  size := same.size.symm
  label b := (same.label b).symm
  preds b := (same.preds b).symm
  direct b := (same.direct b).symm
  cond b := (same.cond b).symm

theorem succs (b : BlockId) : (q.block b).succs = (p.block b).succs := by
  rw [Block.succs, same.direct b, same.cond b]
  rfl

theorem exits {i : Inst} (exits : p.Exits (p.block b) i) : q.Exits (q.block b) i :=
  exits.transfer (same.direct b) (same.cond b) fun s _ => same.label s

private theorem predsOf (s : BlockId) :
    FlowGraph.predsOf q.blocks s = FlowGraph.predsOf p.blocks s := by
  unfold FlowGraph.predsOf
  rw [same.size]
  have succs : ∀ b, (q.blocks.getD b default).succs = (p.blocks.getD b default).succs := same.succs
  simp only [succs]

theorem wf (wf : p.WellFormed) (shape : ∀ b < p.blocks.size, Nonempty (q.Shape (q.block b)))
    : q.WellFormed where
  nonempty := same.size ▸ wf.nonempty
  inside b s edge := by
    rw [same.size]
    exact wf.inside b s (same.succs b ▸ edge)
  preds s lt := by
    rw [same.preds, same.predsOf]
    exact wf.preds s (same.size ▸ lt)
  shape b lt := shape b (same.size ▸ lt)

theorem shape (shape : p.Shape (p.block b)) (insts : (q.block b).insts = (p.block b).insts)
    : Nonempty (q.Shape (q.block b)) :=
  ⟨⟨shape.phis, shape.inner, shape.last, insts.trans shape.insts, shape.isInner,
    same.exits shape.exits, fun phi mem => by rw [same.preds b]; exact shape.arity phi mem⟩⟩

private theorem path {seen : List BlockId} (path : p.Path seen b) : q.Path seen b := by
  induction path with
  | start => exact .start
  | extend path edge ih =>
    exact ih.extend (same.succs _ ▸ edge)

theorem dominates {a : BlockId} : q.Dominates a b ↔ p.Dominates a b :=
  ⟨fun dominates seen path => dominates seen (same.path path),
    fun dominates seen path => dominates seen (same.symm.path path)⟩

end

end SameEdges

namespace SameGraph

variable {p q : Procedure}

theorem refl (p : Procedure) : p.SameGraph p :=
  ⟨⟨rfl, fun _ => rfl, fun _ => rfl, fun _ => rfl, fun _ => rfl⟩, fun _ => rfl, rfl, rfl, rfl⟩

theorem trans {r : Procedure} (first : p.SameGraph q) (second : q.SameGraph r) : p.SameGraph r where
  size := second.size.trans first.size
  label b := (second.label b).trans (first.label b)
  preds b := (second.preds b).trans (first.preds b)
  direct b := (second.direct b).trans (first.direct b)
  cond b := (second.cond b).trans (first.cond b)
  postIndex b := (second.postIndex b).trans (first.postIndex b)
  preorder := second.preorder.trans first.preorder
  postorder := second.postorder.trans first.postorder
  rpo := second.rpo.trans first.rpo

theorem of_blocks (size : q.blocks.size = p.blocks.size)
    (block : ∀ b, q.block b = { p.block b with insts := (q.block b).insts })
    (preorder : q.preorder = p.preorder) (postorder : q.postorder = p.postorder)
    (rpo : q.rpo = p.rpo) : p.SameGraph q :=
  ⟨⟨size, fun b => by rw [block b], fun b => by rw [block b], fun b => by rw [block b],
    fun b => by rw [block b]⟩, fun b => by rw [block b], preorder, postorder, rpo⟩

theorem ordered (same : p.SameGraph q) (ordered : p.Ordered) : q.Ordered where
  nodup := same.postorder ▸ ordered.nodup
  mem b := by
    rw [same.postorder, same.size]
    exact ordered.mem b
  preorder := by
    rw [same.preorder, same.postorder]
    exact ordered.preorder
  rpo := by
    rw [same.rpo, same.postorder]
    exact ordered.rpo
  index i b found := by
    rw [same.postIndex]
    exact ordered.index i b (same.postorder ▸ found)
  first := same.rpo ▸ ordered.first
  rooted := by
    have succs : (fun b => (q.block b).succs) = fun b => (p.block b).succs := funext same.succs
    rw [succs, same.rpo]
    exact ordered.rooted

theorem exact_ (same : p.SameGraph q) {t : DomTree} (dom : t.Exact p) : t.Exact q where
  size := dom.size.trans same.size.symm
  root := dom.root
  parent b lt other := by
    rw [same.size] at lt ⊢
    simp only [same.postIndex]
    exact dom.parent b lt other
  above b lt a := by
    rw [same.dominates]
    exact dom.above b (same.size ▸ lt) a

theorem ofTree (same : p.SameGraph q) (t : DomTree) :
    Frontiers.ofTree q t = Frontiers.ofTree p t := by
  unfold Frontiers.ofTree Frontiers.climbers blockIds
  simp only [same.size, same.preds]

end SameGraph

end Procedure

/-- The second instruction can stand wherever the first one can. -/
structure Inst.Alike (i j : Inst) : Prop where
  phi : ∀ phi, i = .phi phi → ∃ phi', j = .phi phi' ∧ phi'.args.length = phi.args.length
  inner : i.isInner = true → j.isInner = true
  exits : ∀ (p : Procedure) (b : Block), p.Exits b i → p.Exits b j

namespace Inst.Alike

variable {i j k : Inst}

theorem refl (i : Inst) : i.Alike i := ⟨fun phi isPhi => ⟨phi, isPhi, rfl⟩, id, fun _ _ => id⟩

theorem trans (first : i.Alike j) (second : j.Alike k) : i.Alike k where
  phi phi isPhi := by
    obtain ⟨phi', isPhi', length⟩ := first.phi phi isPhi
    obtain ⟨phi'', isPhi'', length'⟩ := second.phi phi' isPhi'
    exact ⟨phi'', isPhi'', length'.trans length⟩
  inner := second.inner ∘ first.inner
  exits p b := second.exits p b ∘ first.exits p b

theorem isPhi_of_right (alike : i.Alike j) (none : j.isPhi = false) : i.isPhi = false := by
  cases i with
  | phi node =>
    obtain ⟨phi', rfl, -⟩ := alike.phi node rfl
    cases none
  | _ => rfl

theorem mapUses (i : Inst) (f : VarId → VarId) : i.Alike (i.mapUses f) := by
  refine ⟨?_, ?_, ?_⟩
  · rintro phi rfl
    exact ⟨phi, rfl, rfl⟩
  · cases i <;> exact id
  · intro p b
    cases i <;> exact id

theorem mapDefs (i : Inst) (f : VarId → VarId) : i.Alike (i.mapDefs f) := by
  refine ⟨?_, ?_, ?_⟩
  · rintro phi rfl
    exact ⟨_, rfl, rfl⟩
  · cases i <;> exact id
  · intro p b
    cases i <;> exact id

theorem mapPhi (i : Inst) {f : Phi → Phi} (length : ∀ phi, (f phi).args.length = phi.args.length) :
    i.Alike (i.mapPhi f) := by
  refine ⟨?_, ?_, ?_⟩
  · rintro phi rfl
    exact ⟨f phi, rfl, length phi⟩
  · cases i <;> exact id
  · intro p b
    cases i <;> exact id

end Inst.Alike

/-! ## Instruction lists -/

/-- The second list has alike instructions in the place of those of the first, and more inner ones
in front of some that are no phis. -/
inductive Pads : List Inst → List Inst → Prop
  | nil : Pads [] []
  | keep {i j : Inst} {old new : List Inst} (alike : i.Alike j) (rest : Pads old new) :
      Pads (i :: old) (j :: new)
  | add {i j : Inst} {old new : List Inst} (inner : j.isInner = true) (other : i.isPhi = false)
      (rest : Pads (i :: old) new) : Pads (i :: old) (j :: new)

namespace Pads

variable {old new newer : List Inst}
variable {f : Inst → Inst}

theorem refl (insts : List Inst) : Pads insts insts := by
  induction insts with
  | nil => exact .nil
  | cons i rest ih => exact .keep (.refl i) ih

theorem trans (first : Pads old new) (second : Pads new newer) : Pads old newer := by
  induction second generalizing old with
  | nil => exact first
  | keep alike _ ih =>
    cases first with
    | keep alike' rest => exact .keep (alike'.trans alike) (ih rest)
    | add inner other rest => exact .add (alike.inner inner) other (ih rest)
  | add inner other _ ih =>
    have padded := ih first
    cases first with
    | keep alike _ => exact .add inner (alike.isPhi_of_right other) padded
    | add _ other' _ => exact .add inner other' padded

theorem append {front front' : List Inst} (first : Pads front front') (second : Pads old new) :
    Pads (front ++ old) (front' ++ new) := by
  induction first with
  | nil => exact second
  | keep alike _ ih => exact .keep alike ih
  | add inner other _ ih => exact .add inner other ih

theorem map (alike : ∀ i : Inst, i.Alike (f i)) (insts : List Inst) : Pads insts (insts.map f) := by
  induction insts with
  | nil => exact .nil
  | cons i rest ih => exact .keep (alike i) ih

theorem modify (alike : ∀ i : Inst, i.Alike (f i)) (insts : List Inst) (at_ : Nat) :
    Pads insts (insts.modify at_ f) := by
  induction insts generalizing at_ with
  | nil =>
    rw [modify_nil]
    exact .nil
  | cons i rest ih =>
    cases at_ with
    | zero => exact .keep (alike i) (.refl rest)
    | succ at_ => exact .keep (.refl i) (ih at_)

/-- Inner instructions in front of one that is no phi. -/
theorem insert {added : List Inst} (inner : ∀ j ∈ added, j.isInner = true) {i : Inst}
    (other : i.isPhi = false) (front back : List Inst) :
    Pads (front ++ i :: back) (front ++ (added ++ i :: back)) := by
  refine (refl front).append ?_
  induction added with
  | nil => exact refl _
  | cons j added ih =>
    rw [forall_mem_cons] at inner
    exact .add inner.1 other (ih inner.2)

/-- Behind the phis the added instructions leave inner ones and a terminator. -/
theorem exists_inner {inner : List Inst} {last : Inst} (pads : Pads (inner ++ [last]) new)
    (isInner : ∀ i ∈ inner, i.isInner = true) :
    ∃ inner' last', new = inner' ++ [last'] ∧ (∀ i ∈ inner', i.isInner = true) ∧
      last.Alike last' := by
  generalize isOld : inner ++ [last] = old at pads
  induction pads generalizing inner with
  | nil => simp at isOld
  | @keep i j old new alike rest ih =>
    cases inner with
    | nil =>
      obtain ⟨rfl, rfl⟩ := List.cons.inj isOld
      cases rest
      exact ⟨[], j, rfl, by simp, alike⟩
    | cons head inner =>
      obtain ⟨rfl, isRest⟩ := List.cons.inj isOld
      rw [forall_mem_cons] at isInner
      obtain ⟨inner', last', rfl, isInner', alike'⟩ := ih isInner.2 isRest
      exact ⟨j :: inner', last', rfl, forall_mem_cons.mpr ⟨alike.inner isInner.1, isInner'⟩, alike'⟩
  | @add i j old new isAdded _ _ ih =>
    obtain ⟨inner', last', rfl, isInner', alike⟩ := ih isInner isOld
    exact ⟨j :: inner', last', rfl, forall_mem_cons.mpr ⟨isAdded, isInner'⟩, alike⟩

private theorem exists_phis {phis : List Phi} (pads : Pads (phis.map Inst.phi ++ old) new) :
    ∃ (phis' : List Phi) (rest : List Inst), new = phis'.map Inst.phi ++ rest ∧ Pads old rest ∧
      phis'.map (·.args.length) = phis.map (·.args.length) := by
  induction phis generalizing new with
  | nil => exact ⟨[], new, rfl, pads, rfl⟩
  | cons phi phis ih =>
    cases pads with
    | keep alike rest =>
      obtain ⟨phi', rfl, length⟩ := alike.phi phi rfl
      obtain ⟨phis', rest', rfl, pads, lengths⟩ := ih rest
      exact ⟨phi' :: phis', rest', rfl, pads, by rw [map_cons, map_cons, length, lengths]⟩
    | add _ other _ => cases other

end Pads

/-! ## Procedures -/

namespace Procedure

/-- The same graph, with blocks in shape if they were before. -/
structure Reshaped (p q : Procedure) : Prop where
  graph : p.SameGraph q
  shaped : p.Shaped → q.Shaped

/-- The same graph, with inner instructions added to its blocks. -/
structure Padded (p q : Procedure) : Prop where
  graph : p.SameGraph q
  pads : ∀ b, Pads (p.block b).insts (q.block b).insts

/-- The same blocks and orders. -/
structure SameBlocks (p q : Procedure) : Prop where
  blocks : q.blocks = p.blocks
  preorder : q.preorder = p.preorder
  postorder : q.postorder = p.postorder
  rpo : q.rpo = p.rpo

variable {p q r : Procedure}

namespace SameBlocks

theorem refl (p : Procedure) : p.SameBlocks p := ⟨rfl, rfl, rfl, rfl⟩

theorem trans (first : p.SameBlocks q) (second : q.SameBlocks r) : p.SameBlocks r :=
  ⟨second.blocks.trans first.blocks, second.preorder.trans first.preorder,
    second.postorder.trans first.postorder, second.rpo.trans first.rpo⟩

theorem block (same : p.SameBlocks q) (b : BlockId) : q.block b = p.block b := by
  rw [Procedure.block, same.blocks]
  rfl

theorem padded (same : p.SameBlocks q) : p.Padded q := by
  refine ⟨.of_blocks (by rw [same.blocks]) (fun b => by rw [same.block b]) same.preorder
    same.postorder same.rpo, fun b => ?_⟩
  rw [same.block b]
  exact .refl _

end SameBlocks

namespace Reshaped

theorem refl (p : Procedure) : p.Reshaped p := ⟨.refl p, id⟩

theorem trans (first : p.Reshaped q) (second : q.Reshaped r) : p.Reshaped r :=
  ⟨first.graph.trans second.graph, second.shaped ∘ first.shaped⟩

theorem wf (reshaped : p.Reshaped q) (wf : p.WellFormed) : q.WellFormed :=
  reshaped.graph.wf wf fun b lt =>
    reshaped.shaped wf.shape b (reshaped.graph.size.symm ▸ lt)

end Reshaped

namespace Padded

theorem refl (p : Procedure) : p.Padded p := ⟨.refl p, fun _ => .refl _⟩

theorem trans (first : p.Padded q) (second : q.Padded r) : p.Padded r :=
  ⟨first.graph.trans second.graph, fun b => (first.pads b).trans (second.pads b)⟩

private theorem shape (padded : p.Padded q) {b : BlockId} (shape : p.Shape (p.block b)) :
    Nonempty (q.Shape (q.block b)) := by
  have pads := padded.pads b
  rw [shape.insts] at pads
  obtain ⟨phis, rest, insts, pads', lengths⟩ := pads.exists_phis
  obtain ⟨inner, last, rfl, isInner, alike⟩ := pads'.exists_inner shape.isInner
  refine ⟨phis, inner, last, insts, isInner, padded.graph.exits (alike.exits _ _ shape.exits),
    fun phi mem => ?_⟩
  have isLength := mem_map_of_mem (f := (·.args.length)) mem
  rw [lengths] at isLength
  obtain ⟨phi', mem', length⟩ := mem_map.mp isLength
  rw [← length, shape.arity phi' mem', padded.graph.preds]

theorem reshaped (padded : p.Padded q) : p.Reshaped q :=
  ⟨padded.graph, fun shaped b lt => by
    obtain ⟨shape⟩ := shaped b (padded.graph.size ▸ lt)
    exact padded.shape shape⟩

theorem phis_eq_nil (padded : p.Padded q) {b : BlockId} (shape : p.Shape (p.block b))
    (none : (p.block b).phis = []) : (q.block b).phis = [] := by
  have pads := padded.pads b
  rw [Block.insts_eq, none, shape.body_eq] at pads
  obtain ⟨inner, last, insts, isInner, alike⟩ := pads.exists_inner shape.isInner
  have terminates := (alike.exits _ _ shape.exits).isTerminator
  rw [Block.phis, insts]
  cases inner with
  | nil => exact leadingPhis_of_head (Inst.isPhi_of_isTerminator terminates)
  | cons i inner => exact leadingPhis_of_head (Inst.isPhi_of_isInner (isInner i mem_cons_self))

end Padded

variable {f : Block → Block}

theorem sameGraph_modifyBlock (p : Procedure) (b : BlockId)
    (only : ∀ block : Block, f block = { block with insts := (f block).insts }) :
    p.SameGraph (p.modifyBlock b f) := by
  refine .of_blocks (size_modifyBlock ..) (fun c => ?_) rfl rfl rfl
  rw [block_modifyBlock]
  split
  · exact only _
  · rfl

theorem padded_modifyBlock (p : Procedure) (b : BlockId)
    (only : ∀ block : Block, f block = { block with insts := (f block).insts })
    (pads : b < p.blocks.size → Pads (p.block b).insts (f (p.block b)).insts) :
    p.Padded (p.modifyBlock b f) := by
  refine ⟨p.sameGraph_modifyBlock b only, fun c => ?_⟩
  rw [block_modifyBlock]
  split
  · rename_i here
    obtain ⟨rfl, lt⟩ := here
    exact pads lt
  · exact .refl _

theorem padded_setInsts (p : Procedure) (b : BlockId) {insts : List Inst}
    (pads : Pads (p.block b).insts insts) : p.Padded (p.setInsts b insts) :=
  p.padded_modifyBlock b (fun _ => rfl) fun _ => pads

theorem reshaped_insertPhi (p : Procedure) (b : BlockId) {phi : Phi}
    (arity : phi.args.length = (p.block b).preds.length) :
    p.Reshaped (p.modifyBlock b (·.insertInst 0 (.phi phi))) := by
  have graph : p.SameGraph (p.modifyBlock b (·.insertInst 0 (.phi phi))) :=
    p.sameGraph_modifyBlock b fun _ => rfl
  refine ⟨graph, fun shaped c lt => ?_⟩
  obtain ⟨shape⟩ := shaped c (graph.size ▸ lt)
  by_cases here : b = c
  · subst here
    refine ⟨phi :: shape.phis, shape.inner, shape.last, ?_, shape.isInner,
      graph.exits shape.exits, ?_⟩
    · rw [block_modifyBlock, if_pos ⟨rfl, graph.size ▸ lt⟩]
      change .phi phi :: (p.block b).insts = _
      rw [shape.insts]
      rfl
    · rw [graph.preds]
      exact forall_mem_cons.mpr ⟨arity, shape.arity⟩
  · refine graph.shape shape ?_
    rw [block_modifyBlock, if_neg fun both => here both.1]

end Procedure

end ArmBackend
