import ArmBackend.Proofs.FlowGraph.Built
import ArmBackend.Proofs.Ssa.Renaming

/-!
Contract: the procedure that single-assignment construction leaves.

Owns: the induction over the preorder of the dominator tree, and the description of every block of
the result in terms of version maps alone.
Does not own: runs of the procedure.
-/

namespace ArmBackend

open List Procedure

namespace Renaming

variable {c : BlockId} {α : Type}
variable {preds : List BlockId} {q : Procedure} {ends' value : BlockId → VersionMap}

/-- The versions at the entry: arguments are their own. -/
def initial (p : Procedure) : VersionMap := fun x => if p.args.contains x then some x else none

/-- The versions at the start of a block: those at the end of its immediate dominator. -/
def startOf (p : Procedure) (t : DomTree) (ends : BlockId → VersionMap) (b : BlockId) :
    VersionMap :=
  match t.idom? b with
  | none => initial p
  | some a => ends a

/-- The versions at the start of a body, behind the phis. -/
abbrev bodyStart (p : Procedure) (t : DomTree) (ends : BlockId → VersionMap)
    (pairs : BlockId → List (VarId × VarId)) (b : BlockId) : VersionMap :=
  (startOf p t ends b).defineAll (pairs b)

/-- A block renamed: its phis, for the given variables, and then its body. -/
structure RenamesBlock (origin : VarId → Origin) (start : VersionMap) (vars : List VarId)
    (body : List Inst) (pairs : List (VarId × VarId)) (new : List Inst) (finish : VersionMap) :
    Prop where
  sources : pairs.map Prod.fst = vars
  origins : ∀ pair ∈ pairs, origin pair.2 = ⟨pair.1, true⟩
  steps : RenamesAll origin (start.defineAll pairs) body new finish

private theorem isPhi_mapUses (i : Inst) (g : VarId → VarId) : (i.mapUses g).isPhi = i.isPhi := by
  cases i <;> rfl

private theorem isPhi_mapDefs (i : Inst) (g : VarId → VarId) : (i.mapDefs g).isPhi = i.isPhi := by
  cases i <;> rfl

theorem RenamesAll.isPhi {origin : VarId → Origin} {before after : VersionMap}
    {insts new : List Inst} (renames : RenamesAll origin before insts new after)
    (none : ∀ i ∈ insts, i.isPhi = false) : ∀ i ∈ new, i.isPhi = false := by
  induction renames with
  | nil => exact none
  | cons first more ih =>
    rw [forall_mem_cons] at none ⊢
    refine ⟨?_, ih none.2⟩
    cases first with
    | read extends_ present defs =>
      rw [isPhi_mapUses]
      exact none.1
    | define extends_ present defs isOrigin =>
      rw [isPhi_mapDefs, isPhi_mapUses]
      exact none.1

theorem phisWith_eq (preds : List BlockId) (value : BlockId → VersionMap)
    (pairs : List (VarId × VarId)) :
    phisWith preds value pairs = (nodesWith preds value pairs).map Inst.phi := by
  simp [phisWith, nodesWith]

theorem phis_eq_nodesWith {block : Block} {pairs : List (VarId × VarId)} {body : List Inst}
    (insts : block.insts = phisWith preds value pairs ++ body)
    (none : ∀ i ∈ body, i.isPhi = false) :
    block.phis = nodesWith preds value pairs ∧ block.body = body :=
  Block.phis_body_of_insts (phisWith_eq preds value pairs ▸ insts) none

/-! ## States that differ in their blocks -/

variable {p : Procedure} {r : Renaming} {t : DomTree} {b : BlockId} {log : List Origin}
  {homes others : List BlockId}

private theorem traceBack_withInsts (insts : List Inst) (c : BlockId) (steps : Nat)
    (v : Option VarId) : (r.withInsts b insts).traceBack t c steps v = r.traceBack t c steps v := by
  induction steps generalizing v with
  | zero => rfl
  | succ steps ih =>
    cases v with
    | none => rfl
    | some d =>
      rw [traceBack, traceBack, ih]
      rfl

theorem seen_withInsts (insts : List Inst) (c : BlockId) :
    (r.withInsts b insts).seen t c = r.seen t c := by
  funext x
  unfold seen current
  rw [traceBack_withInsts]
  rfl

theorem Chained.withInsts (chained : Chained p r log homes) (insts : List Inst) :
    Chained p (r.withInsts b insts) log homes := by
  refine ⟨chained.base, chained.count, chained.reachingSize, chained.homeSize, fun x below => ?_,
    chained.types, chained.regs⟩
  obtain ⟨chain, is, members⟩ := chained.chain x below
  exact ⟨chain, is.transfer rfl (Nat.le_refl _) (fun _ _ _ => rfl) fun _ _ => rfl, members⟩

theorem Chained.mono {more : List BlockId} (chained : Chained p r log homes)
    (subset : homes ⊆ more) : Chained p r log more := by
  refine ⟨chained.base, chained.count, chained.reachingSize, chained.homeSize, fun x below => ?_,
    chained.types, chained.regs⟩
  obtain ⟨chain, is, members⟩ := chained.chain x below
  refine ⟨chain, is, fun d mem => ⟨(members d mem).1, ?_⟩⟩
  obtain ⟨h, inHomes, isHome⟩ := (members d mem).2
  exact ⟨h, subset inHomes, isHome⟩

/-- Two blocks that the same homes dominate see the same versions. -/
theorem Chained.seen_congr (chained : Chained p r log homes) (rootB : t.dominates entry b = true)
    (rootC : t.dominates entry c = true)
    (same : ∀ h ∈ homes, t.dominates h c = t.dominates h b) : r.seen t c = r.seen t b := by
  funext x
  unfold seen
  split
  · rename_i below
    obtain ⟨chain, is, members⟩ := chained.chain x below
    rw [current_eq chained.base_le is rootB, current_eq chained.base_le is rootC]
    refine find?_congr fun d mem => ?_
    obtain ⟨h, inHomes, isHome⟩ := (members d mem).2
    rw [sees_eq isHome, sees_eq isHome]
    exact same h inHomes
  · rfl

/-- What is recorded about the blocks of the state: of each, the predecessors that its phis have
taken values from. -/
structure Content (p : Procedure) (r : Renaming) (filled : BlockId → List BlockId)
    (ends : BlockId → VersionMap) (pairs : BlockId → List (VarId × VarId))
    (bodies : BlockId → List Inst) : Prop where
  rest : r.proc = { p with blocks := r.proc.blocks, vars := r.proc.vars }
  size : r.proc.blocks.size = p.blocks.size
  block : ∀ c < p.blocks.size, r.proc.block c =
    { p.block c with
      insts := phisWith (p.block c).preds (valueIn (filled c) ends) (pairs c) ++ bodies c }
  noPhi : ∀ c < p.blocks.size, ∀ i ∈ bodies c, i.isPhi = false
  below : ∀ c < p.blocks.size, ∀ pair ∈ pairs c, pair.1 < p.nextVar

theorem Steady.block {r' : Renaming} (steady : Steady t others r r') (c : BlockId) :
    r'.proc.block c = r.proc.block c := by
  rw [steady.proc]
  rfl

/-- What a step leaves alone, when it may also rewrite blocks. -/
def SameView (t : DomTree) (blocks : List BlockId) (r r' : Renaming) :
    Prop := ∀ c ∈ blocks, r'.seen t c = r.seen t c

variable {done : List BlockId} {filled : BlockId → List BlockId} {ends : BlockId → VersionMap}
  {pairs : BlockId → List (VarId × VarId)} {bodies : BlockId → List Inst}

theorem run_fillPhis (t : DomTree) (b s : BlockId) (r : Renaming) : ((fillPhis t b s).run r).2 =
      (((r.proc.block s).phis.mapM (fillPhi t b (r.proc.block s).preds)).run r).2.withInsts s
        ((((r.proc.block s).phis.mapM (fillPhi t b (r.proc.block s).preds)).run r).1.map .phi ++
          (r.proc.block s).body) := rfl

section

variable (content : Content p r filled ends pairs bodies) (chained : Chained p r log homes)
  (waiting : Waiting t b homes others) (fresh : b ∉ done) (isEnd : r.seen t b = ends b)

include content chained waiting fresh isEnd

private theorem Content.fill {s : BlockId} (known : filled s = done ∨ filled s = b :: done)
    (inside : s < p.blocks.size) :
    Chained p ((fillPhis t b s).run r).2 log homes ∧
      SameView t (b :: others) r ((fillPhis t b s).run r).2 ∧
      Content p ((fillPhis t b s).run r).2
        (fun c => if c = s then b :: done else filled c) ends pairs bodies := by
  have block := content.block s inside
  have insts : (r.proc.block s).insts =
      phisWith (p.block s).preds (valueIn (filled s) ends) (pairs s) ++ bodies s := by rw [block]
  obtain ⟨phis, body⟩ := phis_eq_nodesWith insts (content.noPhi s inside)
  have preds : (r.proc.block s).preds = (p.block s).preds := by rw [block]
  obtain ⟨r', run, chained', steady⟩ := run_mapM_fillPhi waiting (p.block s).preds known fresh
    (pairs s) r chained (fun pair mem => chained.base ▸ content.below s inside pair mem) isEnd
  have filledRun : ((r.proc.block s).phis.mapM (fillPhi t b (r.proc.block s).preds)).run r =
      (nodesWith (p.block s).preds (valueIn (b :: done) ends) (pairs s), r') := by
    rw [phis, preds]
    exact run
  rw [run_fillPhis, filledRun, body]
  have sameSize : r'.proc.blocks.size = r.proc.blocks.size := by rw [steady.proc]
  refine ⟨chained'.withInsts _, ?_, ?_, ?_, ?_, content.noPhi, content.below⟩
  · intro c mem
    rw [seen_withInsts]
    exact seen_of_steady steady mem
  · have rest : r'.proc = { p with blocks := r'.proc.blocks, vars := r'.proc.vars } := by
      rw [steady.proc, content.rest]
    change r'.proc.setInsts s _ = _
    rw [rest]
    rfl
  · change (r'.proc.setInsts s _).blocks.size = _
    rw [size_setInsts, sameSize]
    exact content.size
  · intro c lt
    change (r'.proc.setInsts s _).block c = _
    rw [block_setInsts, steady.block, sameSize, content.size, content.block c lt]
    by_cases same : c = s
    · subst same
      rw [if_pos ⟨rfl, lt⟩, if_pos rfl, ← phisWith_eq]
    · rw [if_neg fun both => same both.1.symm, if_neg same]

private theorem Content.fillAll {succs : List BlockId}
    (known : ∀ c, filled c = done ∨ filled c = b :: done)
    (inside : ∀ s ∈ succs, s < p.blocks.size) :
    Chained p ((succs.forM (fillPhis t b)).run r).2 log homes ∧
      SameView t (b :: others) r ((succs.forM (fillPhis t b)).run r).2 ∧
      Content p ((succs.forM (fillPhis t b)).run r).2
        (fun c => if succs.contains c then b :: done else filled c) ends pairs bodies := by
  induction succs generalizing r filled with
  | nil => exact ⟨chained, fun c _ => rfl, content⟩
  | cons s succs ih =>
    rw [forall_mem_cons] at inside
    obtain ⟨chained₁, view₁, content₁⟩ :=
      content.fill chained waiting fresh isEnd (known s) inside.1
    have known₁ : ∀ c, (if c = s then b :: done else filled c) = done ∨
        (if c = s then b :: done else filled c) = b :: done := by
      intro c
      split
      · exact .inr rfl
      · exact known c
    obtain ⟨chained₂, view₂, content₂⟩ :=
      ih content₁ chained₁ ((view₁ b (by simp)).trans isEnd) known₁ inside.2
    refine ⟨chained₂, fun c mem => (view₂ c mem).trans (view₁ c mem), ?_⟩
    have same : (fun c => if (s :: succs).contains c then b :: done else filled c) = fun c =>
        if succs.contains c then b :: done else if c = s then b :: done else filled c := by
      funext c
      by_cases first : c = s <;> by_cases later : c ∈ succs <;> simp [first, later]
    rw [same]
    exact content₂

end

/-! ## The traversal -/

/-- What holds after some blocks were renamed. -/
structure Progress (p : Procedure) (t : DomTree) (vars : BlockId → List VarId) (r : Renaming)
    (done stack : List BlockId) (log : List Origin) (ends : BlockId → VersionMap)
    (pairs : BlockId → List (VarId × VarId)) (bodies : BlockId → List Inst) : Prop where
  chained : Chained p r log (entry :: done)
  content : Content p r (fun _ => done) ends pairs bodies
  waiting : ∀ c ∈ stack, r.seen t c = startOf p t ends c
  undone : ∀ c < p.blocks.size, c ∉ done → pairs c = (vars c).map (fun x => (x, x)) ∧
    bodies c = (p.block c).insts
  renamed : ∀ c ∈ done, ∀ origin, Agrees p.nextVar log origin →
    RenamesBlock origin (startOf p t ends c) (vars c) (p.block c).insts (pairs c) (bodies c)
    (ends c)

/-- The blocks below the top of the stack wait for the top to be renamed. -/
theorem waiting_of_stacked {stack : List BlockId} (ordered : p.Ordered) (dom : t.Exact p)
    (stacked : t.Stacked p done (b :: stack)) : Waiting t b (entry :: b :: done) stack := by
  have insideB := stacked.inside b (by simp)
  have nodup := stacked.nodup
  rw [cons_append, nodup_cons] at nodup
  -- A block further down hangs off a visited block that is above the parent of the top.
  have parents : ∀ c ∈ stack, c < p.blocks.size ∧ c ≠ b ∧ ∃ a x, t.idom? c = some a ∧
      t.idom? b = some x ∧ DomTree.Above t.idom? a x := by
    intro c mem
    have inside := stacked.inside c (by simp [mem])
    have notEntry : entry ∉ b :: stack := by
      intro onStack
      have only := stacked.alone onStack
      rw [List.cons.injEq] at only
      rw [only.2] at mem
      cases mem
    refine ⟨inside, fun same => nodup.1 (same ▸ mem_append_left _ mem), ?_⟩
    obtain ⟨a, -, isParent⟩ := (stacked.waiting c (by simp [mem])).resolve_left
      fun same => notEntry (same ▸ mem_cons_of_mem _ mem)
    obtain ⟨x, -, isParentB⟩ := (stacked.waiting b (by simp)).resolve_left
      fun same => notEntry (same ▸ mem_cons_self)
    refine ⟨a, x, isParent, isParentB, ?_⟩
    exact (pairwise_cons.mp stacked.nested).1 c mem x a isParentB isParent
  refine ⟨by simp, ?_, ?_, ?_, ?_⟩
  · exact (DomTree.dominates_iff ordered dom insideB).mpr .refl
  · intro c mem
    have inside : c < p.blocks.size := stacked.inside c (mem_append_left _ mem)
    exact (DomTree.dominates_iff ordered dom inside).mpr (dom.above_entry inside)
  · intro c mem
    obtain ⟨inside, other, a, x, isParent, isParentB, above⟩ := parents c mem
    rw [Bool.eq_false_iff, ne_eq, DomTree.dominates_iff ordered dom inside]
    intro below
    have aboveA := (below.cases_parent isParent).resolve_left (Ne.symm other)
    have later := (dom.parent_lt isParentB).2
    rcases dom.above_later (aboveA.trans above) with rfl | higher <;> omega
  · intro c mem h inHomes dominates
    obtain ⟨inside, other, a, x, isParent, isParentB, above⟩ := parents c mem
    rw [DomTree.dominates_iff ordered dom inside] at dominates
    rw [DomTree.dominates_iff ordered dom insideB]
    rcases mem_cons.mp inHomes with rfl | inHomes
    · exact dom.above_entry insideB
    rcases mem_cons.mp inHomes with rfl | visited
    · exact .refl
    · have different : h ≠ c := by
        rintro rfl
        exact (nodup_append.mp nodup.2).2.2 h mem h visited rfl
      have aboveA := (dominates.cases_parent isParent).resolve_left different
      exact .up isParentB (dom.lt_of_parent isParentB).2 (aboveA.trans above)

/-- A child of a block is dominated by the same visited blocks. -/
theorem dominates_child (ordered : p.Ordered) (dom : t.Exact p) (isParent : t.idom? c = some b)
    (unvisited : c ∉ homes) :
    ∀ h ∈ homes, t.dominates h c = t.dominates h b := by
  intro h mem
  obtain ⟨inside, notEntry⟩ := dom.lt_of_parent isParent
  have insideB := (dom.parent_lt isParent).1
  rw [Bool.eq_iff_iff, DomTree.dominates_iff ordered dom inside,
    DomTree.dominates_iff ordered dom insideB]
  constructor
  · intro above
    exact (above.cases_parent isParent).resolve_left fun same => unvisited (same ▸ mem)
  · exact .up isParent notEntry

theorem valueIn_congr (same : ∀ q ∈ done, ends q = ends' q) :
    valueIn done ends = valueIn done ends' := by
  funext q
  unfold valueIn
  split
  · rename_i mem
    exact same q (List.contains_iff_mem.mp mem)
  · rfl

theorem phisWith_congr {value' : BlockId → VersionMap}
    (same : ∀ q ∈ preds, value q = value' q) (pairs : List (VarId × VarId)) :
    phisWith preds value pairs = phisWith preds value' pairs := by
  apply map_congr_left
  intro pair _
  have args : preds.map (fun q => value q pair.1) = preds.map fun q => value' q pair.1 := by
    apply map_congr_left
    intro q mem
    rw [same q mem]
  rw [args]

theorem startOf_congr (same : ∀ a, t.idom? c = some a → ends a = ends' a) :
    startOf p t ends c = startOf p t ends' c := by
  unfold startOf
  cases isParent : t.idom? c with
  | none => rfl
  | some a => exact same a isParent

theorem run_renameBlock (t : DomTree) (b : BlockId) (r : Renaming) : ((renameBlock t b).run r).2 =
      (((r.proc.block b).succs.forM (fillPhis t b)).run
        ((((r.proc.block b).insts.mapM (renameInst t b)).run r).2.withInsts b
          (((r.proc.block b).insts.mapM (renameInst t b)).run r).1)).2 := rfl

/-- The value of a map with one entry replaced. -/
def replace {α : Type} (map : BlockId → α) (b : BlockId) (new : α) : BlockId → α :=
  fun c => if c = b then new else map c

theorem replace_self (map : BlockId → α) (b : BlockId) (new : α) :
    replace map b new b = new := if_pos rfl

theorem replace_other (map : BlockId → α) (other : c ≠ b) (new : α) :
    replace map b new c = map c := if_neg other

/-- Procedures whose renaming is studied: flow graphs of bodies as read, with the variables that
each block gets phis for. -/
structure Input (p : Procedure) (t : DomTree) (vars : BlockId → List VarId) : Prop where
  wf : p.WellFormed
  ordered : p.Ordered
  tree : t.Exact p
  inScope : ∀ c, ∀ i ∈ (p.block c).insts, i.isSource = true ∧ i.Scoped p.nextVar
  vars : ∀ c, ∀ x ∈ vars c, x < p.nextVar
  declared : p.args ++ p.locals = List.range p.nextVar

theorem isPhi_of_isSource {i : Inst} (source : i.isSource = true) : i.isPhi = false := by
  cases i <;> simp_all [Inst.isSource, Inst.isPhi, Inst.phi?]

variable {vars : BlockId → List VarId} {stack : List BlockId}

/-- What holds between renaming the instructions of a block and filling the phis of its
successors. -/
structure Renamed (p : Procedure) (t : DomTree) (vars : BlockId → List VarId) (r : Renaming)
    (b : BlockId) (done stack : List BlockId) (log : List Origin) (ends : BlockId → VersionMap)
    (pairs : BlockId → List (VarId × VarId)) (bodies : BlockId → List Inst) : Prop where
  chained : Chained p r log (entry :: b :: done)
  content : Content p r (fun _ => done) ends pairs bodies
  here : r.seen t b = ends b
  waiting : ∀ c ∈ stack, r.seen t c = startOf p t ends c
  undone : ∀ c < p.blocks.size, c ∉ b :: done → pairs c = (vars c).map (fun x => (x, x)) ∧
    bodies c = (p.block c).insts
  renamed : ∀ c ∈ b :: done, ∀ origin, Agrees p.nextVar log origin →
    RenamesBlock origin (startOf p t ends c) (vars c) (p.block c).insts (pairs c) (bodies c)
    (ends c)

namespace Progress

variable (input : Input p t vars) (stacked : t.Stacked p done (b :: stack))
  (progress : Progress p t vars r done (b :: stack) log ends pairs bodies)

include input stacked progress

omit input progress in
private theorem unvisited : b < p.blocks.size ∧ b ∉ done := by
  have nodup := stacked.nodup
  rw [cons_append, nodup_cons, mem_append, not_or] at nodup
  exact ⟨stacked.inside b mem_cons_self, nodup.1.2⟩

omit input in
/-- A block that waits has the phis it was given, in front of its own instructions. -/
private theorem insts_eq : (r.proc.block b).insts =
    phisWith (p.block b).preds (valueIn done ends) ((vars b).map fun x => (x, x)) ++
      (p.block b).insts := by
  obtain ⟨inside, fresh⟩ := unvisited stacked
  obtain ⟨isPairs, isBody⟩ := progress.undone b inside fresh
  rw [progress.content.block b inside, isPairs, isBody]

private theorem inScope : ∀ i ∈ (r.proc.block b).insts, (∀ x ∈ i.uses, x < r.base) ∧
    (∀ x ∈ i.defs, x < r.base) ∧ (i.isSource = true ∨ i.isPhi = true) := by
  intro i mem
  rw [progress.insts_eq stacked] at mem
  rw [progress.chained.base]
  rcases mem_append.mp mem with isPhi | inBody
  · obtain ⟨pair, inPairs, rfl⟩ := mem_map.mp isPhi
    obtain ⟨x, inVars, rfl⟩ := mem_map.mp inPairs
    refine ⟨by simp [Inst.uses, Inst.operands], ?_, .inr rfl⟩
    simpa [Inst.defs] using input.vars b x inVars
  · obtain ⟨source, scope⟩ := input.inScope b i inBody
    exact ⟨scope.uses, scope.defs, .inl source⟩

omit progress in
/-- Where a renamed block starts does not depend on the end of one that is renamed later. -/
private theorem startOf_replace (new : VersionMap)
    (known : c = entry ∨ ∃ a ∈ done, t.idom? c = some a) :
    startOf p t (replace ends b new) c = startOf p t ends c := by
  apply startOf_congr
  intro a isParent
  rcases known with rfl | ⟨a', visited, found⟩
  · rw [input.tree.root] at isParent
    cases isParent
  · rw [isParent, Option.some.injEq] at found
    have other : a ≠ b := fun same => (unvisited stacked).2 (same ▸ found ▸ visited)
    exact replace_other ends other new

/-- The procedure with new instructions for the block. -/
private theorem content_withInsts {r' : Renaming} {pairsB : List (VarId × VarId)}
    {bodyB : List Inst} {new : VersionMap} (steady : Steady t stack r r')
    (sources : pairsB.map Prod.fst = vars b) (noPhi : ∀ i ∈ bodyB, i.isPhi = false) :
    Content p (r'.withInsts b (phisWith (p.block b).preds (valueIn done ends) pairsB ++ bodyB))
      (fun _ => done) (replace ends b new) (replace pairs b pairsB) (replace bodies b bodyB) := by
  have sameEnds : ∀ q ∈ done, replace ends b new q = ends q := by
    intro q mem
    have other : q ≠ b := fun same => (unvisited stacked).2 (same ▸ mem)
    exact replace_other ends other new
  have sameSize : r'.proc.blocks.size = p.blocks.size := by
    rw [steady.proc]
    exact progress.content.size
  refine ⟨?_, ?_, fun c lt => ?_, fun c lt => ?_, fun c lt pair mem => ?_⟩
  · have rest : r'.proc = { p with blocks := r'.proc.blocks, vars := r'.proc.vars } := by
      rw [steady.proc, progress.content.rest]
    change r'.proc.setInsts b _ = _
    rw [rest]
    rfl
  · change (r'.proc.setInsts b _).blocks.size = _
    rw [size_setInsts, sameSize]
  · change (r'.proc.setInsts b _).block c = _
    rw [block_setInsts, steady.block, sameSize, progress.content.block c lt, valueIn_congr sameEnds]
    by_cases same : c = b
    · subst same
      rw [if_pos ⟨rfl, lt⟩, replace_self, replace_self]
    · rw [if_neg fun both => same both.1.symm, replace_other _ same, replace_other _ same]
  all_goals by_cases same : c = b
  · subst same
    rw [replace_self]
    exact noPhi
  · rw [replace_other _ same]
    exact progress.content.noPhi c lt
  · subst same
    rw [replace_self] at mem
    exact input.vars c pair.1 (sources ▸ mem_map_of_mem mem)
  · rw [replace_other _ same] at mem
    exact progress.content.below c lt pair mem

private theorem rename : ∃ log' ends' pairs' bodies', Renamed p t vars
      ((((r.proc.block b).insts.mapM (renameInst t b)).run r).2.withInsts b
        (((r.proc.block b).insts.mapM (renameInst t b)).run r).1)
      b done stack log' ends' pairs' bodies' := by
  have waiting := waiting_of_stacked input.ordered input.tree stacked
  have chained : Chained p r log (entry :: b :: done) :=
    progress.chained.mono (cons_subset_cons _ (subset_cons_self ..))
  obtain ⟨log', isPrefix, chained₁, steady, renames⟩ :=
    renamesAll_mapM waiting (r.proc.block b).insts r log chained (progress.inScope input stacked)
  generalize isNew : ((r.proc.block b).insts.mapM (renameInst t b)).run r = result
    at chained₁ steady renames ⊢
  obtain ⟨new, r₁⟩ := result
  simp only at chained₁ steady renames ⊢
  rw [progress.insts_eq stacked, chained.base, progress.waiting b mem_cons_self] at renames
  -- The shape of the new block does not depend on how origins continue.
  obtain ⟨pairsB, bodyB, rfl, sources, -, renamesBody⟩ :=
    (renames (originIn p.nextVar log') fun _ _ _ => rfl).split
  have renamedB : ∀ origin, Agrees p.nextVar log' origin → RenamesBlock origin
      (startOf p t ends b) (vars b) (p.block b).insts pairsB bodyB (r₁.seen t b) := by
    intro origin agrees
    obtain ⟨pairs', body', shape', sources', origins, renamesBody'⟩ := (renames origin agrees).split
    obtain ⟨rfl, rfl⟩ := phisWith_append_inj shape' (sources.trans sources'.symm)
    exact ⟨sources, origins, renamesBody'⟩
  have noPhi := renamesBody.isPhi fun i mem => isPhi_of_isSource (input.inScope b i mem).1
  refine ⟨log', replace ends b (r₁.seen t b), replace pairs b pairsB, replace bodies b bodyB,
    chained₁.withInsts _, progress.content_withInsts input stacked steady sources noPhi,
    ?_, fun c mem => ?_, fun c lt unvisited => ?_, fun c mem origin agrees => ?_⟩
  · rw [seen_withInsts, replace_self]
  · have onStack := mem_cons_of_mem b mem
    rw [seen_withInsts, seen_of_steady steady mem, progress.waiting c onStack,
      startOf_replace input stacked _ (stacked.waiting c onStack)]
  · rw [mem_cons, not_or] at unvisited
    rw [replace_other _ unvisited.1, replace_other _ unvisited.1]
    exact progress.undone c lt unvisited.2
  · rcases mem_cons.mp mem with rfl | visited
    · rw [replace_self, replace_self, replace_self,
        startOf_replace input stacked _ (stacked.waiting c mem_cons_self)]
      exact renamedB origin agrees
    · have other : c ≠ b := fun same => (unvisited stacked).2 (same ▸ visited)
      rw [replace_other _ other, replace_other _ other, replace_other _ other,
        startOf_replace input stacked _ (stacked.closed c visited)]
      exact progress.renamed c visited origin (agrees.shorten isPrefix)

private theorem step :
    ∃ log' ends' pairs' bodies', Progress p t vars ((renameBlock t b).run r).2
      (b :: done) (t.children b ++ stack) log' ends' pairs' bodies' := by
  have waiting := waiting_of_stacked input.ordered input.tree stacked
  obtain ⟨insideB, fresh⟩ := unvisited stacked
  obtain ⟨log', ends', pairs', bodies', renamed⟩ := progress.rename input stacked
  have succs : (r.proc.block b).succs = (p.block b).succs := by
    rw [progress.content.block b insideB]
    rfl
  obtain ⟨chained, view, content⟩ := renamed.content.fillAll renamed.chained
    waiting fresh renamed.here (fun _ => .inl rfl) fun s edge => (input.wf.inside b s edge).1
  rw [run_renameBlock, succs]
  refine ⟨log', ends', pairs', bodies', chained, ?_, ?_, renamed.undone, renamed.renamed⟩
  · -- A block that is not a successor has no slot for the block that was renamed.
    refine ⟨content.rest, content.size, fun c lt => ?_, content.noPhi, content.below⟩
    have samePhis : phisWith (p.block c).preds
        (valueIn (if (p.block b).succs.contains c then b :: done else done) ends') (pairs' c) =
        phisWith (p.block c).preds (valueIn (b :: done) ends') (pairs' c) := by
      apply phisWith_congr
      intro q isPred
      split
      · rfl
      · rename_i isSucc
        have other : q ≠ b := by
          rintro rfl
          exact isSucc (List.contains_iff_mem.mpr ((input.wf.mem_preds lt).mp isPred))
        simp [valueIn, other]
    rw [content.block c lt, samePhis]
  · intro c mem
    rcases mem_append.mp mem with isChild | onStack
    · have isParent := (DomTree.mem_children input.tree).mp isChild
      have unvisited : c ∉ entry :: b :: done := by
        have disjoint := (nodup_append.mp (stacked.step input.tree).nodup).2.2 c
          (mem_append_left _ isChild)
        intro visited
        rcases mem_cons.mp visited with isEntry | visited
        · exact (input.tree.lt_of_parent isParent).2 isEntry
        · exact disjoint c visited rfl
      have inside := (input.tree.lt_of_parent isParent).1
      have root : ∀ x < p.blocks.size, t.dominates entry x = true := fun x lt =>
        (DomTree.dominates_iff input.ordered input.tree lt).mpr (input.tree.above_entry lt)
      rw [chained.seen_congr (root b insideB) (root c inside)
        (dominates_child input.ordered input.tree isParent unvisited), view b (by simp),
        renamed.here, startOf, isParent]
    · rw [view c (mem_cons_of_mem _ onStack)]
      exact renamed.waiting c onStack

end Progress

/-! ## The whole procedure -/

/-- What single-assignment construction makes of `p`: the versions at the ends of blocks, the phis
of each block as pairs of source and version, and the renamed bodies. -/
structure Constructed (p q : Procedure) (t : DomTree) (vars : BlockId → List VarId)
    (origin : VarId → Origin) (ends : BlockId → VersionMap)
    (pairs : BlockId → List (VarId × VarId)) (bodies : BlockId → List Inst) : Prop where
  rest : q = { p with blocks := q.blocks, vars := q.vars, locals := q.locals }
  size : q.blocks.size = p.blocks.size
  block : ∀ c < p.blocks.size, q.block c =
    { p.block c with insts := phisWith (p.block c).preds ends (pairs c) ++ bodies c }
  renamed : ∀ c < p.blocks.size, RenamesBlock origin (startOf p t ends c) (vars c)
    (p.block c).insts (pairs c) (bodies c) (ends c)
  own : ∀ x < p.nextVar, origin x = ⟨x, p.args.contains x⟩
  types : ∀ d, (q.var d).ty = (p.var (origin d).source).ty
  regs : ∀ d, q.reg? d = p.reg? d
  beyond : ∀ d, q.nextVar ≤ d → origin d = ⟨d, true⟩
  grows : p.nextVar ≤ q.nextVar
  locals : q.locals = (List.range (q.nextVar - p.nextVar)).map (p.nextVar + ·)

theorem getD_foldl_set (value : Nat → α) (numbers : List Nat) (table : Array (Option α))
    (inside : ∀ x ∈ numbers, x < table.size) (i : Nat) :
    (numbers.foldl (fun table x => table.setIfInBounds x (some (value x))) table).getD i none =
      if numbers.contains i then some (value i) else table.getD i none := by
  induction numbers generalizing table with
  | nil => rfl
  | cons x numbers ih =>
    rw [forall_mem_cons] at inside
    rw [foldl_cons, ih _ (by simpa using inside.2), Tables.getD_setIfInBounds]
    by_cases later : i ∈ numbers
    · simp [later]
    · by_cases same : i = x
      · subst same
        simp [later, inside.1]
      · have other : x ≠ i := Ne.symm same
        simp [later, same, other]

theorem size_foldl_set (value : Nat → α) (numbers : List Nat) (table : Array (Option α)) :
    (numbers.foldl (fun table x => table.setIfInBounds x (some (value x))) table).size =
    table.size := by
  induction numbers generalizing table with
  | nil => rfl
  | cons x numbers ih =>
    rw [foldl_cons, ih, Array.size_setIfInBounds]

/-- Before anything is renamed, arguments point at themselves and nothing else points anywhere. -/
theorem progress_start (input : Input p t vars) (placement : p.Placement q vars)
    (ends : BlockId → VersionMap) : Progress p t vars (Renaming.start q) [] [entry] [] ends
      (fun c => (vars c).map fun x => (x, x)) (fun c => (p.block c).insts) := by
  have sameVars : q.vars = p.vars := by rw [placement.rest]
  have nextVar : q.nextVar = p.nextVar := by rw [nextVar, sameVars]; rfl
  have args : q.args = p.args := by rw [placement.rest]
  have locals : q.locals = p.locals := by rw [placement.rest]
  have inRange : ∀ x, x ∈ p.args ++ p.locals ↔ x < p.nextVar := by
    intro x
    rw [input.declared, mem_range]
  have reaching : ∀ x, (Renaming.start q).reaching.getD x none =
      if p.args.contains x then some x else none := by
    intro x
    refine (getD_foldl_set id q.args (Array.replicate q.nextVar none) ?_ x).trans ?_
    · intro a mem
      rw [Array.size_replicate, nextVar]
      exact (inRange a).mp (mem_append_left _ (args ▸ mem))
    · rw [args, Tables.getD_replicate]
      split <;> simp
  have home : ∀ x < p.nextVar, (Renaming.start q).home.getD x none = some entry := by
    intro x below
    refine (getD_foldl_set (fun _ => entry) (q.args ++ q.locals)
      (Array.replicate q.nextVar none) ?_ x).trans ?_
    · intro a mem
      rw [Array.size_replicate, nextVar]
      exact (inRange a).mp (args ▸ locals ▸ mem)
    · rw [args, locals, if_pos (List.contains_iff_mem.mpr ((inRange x).mpr below))]
  have chained : Chained p (Renaming.start q) [] [entry] := by
    refine ⟨nextVar, rfl, ?_, ?_, ?_, ?_, fun d => ?_⟩
    · exact (size_foldl_set id q.args (Array.replicate q.nextVar none)).trans (by simp [start])
    · exact (size_foldl_set (fun _ => entry) (q.args ++ q.locals)
        (Array.replicate q.nextVar none)).trans (by simp [start])
    · intro x below
      have below' : x < p.nextVar := nextVar ▸ below
      rw [reaching x]
      split
      · refine ⟨[x], .own below (home x below'), fun d mem => ?_⟩
        obtain rfl := mem_singleton.mp mem
        exact ⟨by rw [originIn, if_pos below], entry, by simp, home d below'⟩
      · exact ⟨[], .done, by simp⟩
    · intro d below
      rw [originIn, if_pos (show d < (Renaming.start q).base from below)]
      change (q.var d).ty = _
      rw [var, var, sameVars]
    · change q.reg? d = _
      rw [reg?, reg?, var, var, sameVars]
  refine ⟨chained, ⟨?_, placement.size, fun c lt => ?_, ?_, ?_⟩, ?_, ?_, ?_⟩
  · change q = { p with blocks := q.blocks, vars := q.vars }
    rw [placement.rest]
  · change q.block c = _
    rw [placement.block c]
    simp [phisWith, emptyPhi, valueIn]
  · intro c lt i mem
    exact isPhi_of_isSource (input.inScope c i mem).1
  · intro c lt pair mem
    obtain ⟨x, inVars, rfl⟩ := mem_map.mp mem
    exact input.vars c x inVars
  · intro c mem
    obtain rfl := mem_singleton.mp mem
    have root : t.dominates entry entry = true :=
      (DomTree.dominates_iff input.ordered input.tree input.wf.nonempty).mpr .refl
    have isStart : startOf p t ends entry = initial p := by rw [startOf, input.tree.root]
    rw [isStart]
    funext x
    unfold seen initial
    split
    · rename_i below
      have below' : x < p.nextVar := nextVar ▸ below
      have sight : (Renaming.start q).sees t entry x = true := by
        rw [sees_eq (home x below')]
        exact root
      by_cases isArg : p.args.contains x = true
      · have chain : Chain (Renaming.start q) ((Renaming.start q).reaching.getD x none) [x] := by
          rw [reaching x, if_pos isArg]
          exact .own below (home x below')
        rw [current_eq chained.base_le chain root, find?_cons_of_pos sight, if_pos isArg]
      · have chain : Chain (Renaming.start q) ((Renaming.start q).reaching.getD x none) [] := by
          rw [reaching x, if_neg isArg]
          exact .done
        rw [current_eq chained.base_le chain root, if_neg isArg]
        rfl
    · rename_i above
      rw [if_neg]
      intro isArg
      apply above
      rw [show (Renaming.start q).base = p.nextVar from nextVar]
      exact (inRange x).mp (mem_append_left _ (List.contains_iff_mem.mp isArg))
  · exact fun c lt _ => ⟨rfl, rfl⟩
  · intro c impossible
    cases impossible

/-- The origins of the variables after renaming. Of the variables before it, only arguments are
still defined. -/
def originAfter (p : Procedure) (log : List Origin) (d : VarId) : Origin :=
  if d < p.nextVar then ⟨d, p.args.contains d⟩ else originIn p.nextVar log d

private theorem source_originAfter (p : Procedure) (log : List Origin) (d : VarId) :
    (originAfter p log d).source = (originIn p.nextVar log d).source := by
  unfold originAfter
  split
  · rename_i below
    rw [originIn, if_pos below]
  · rfl

private theorem constructed_rename (input : Input p t vars) (placement : p.Placement q vars) :
    ∃ origin ends pairs bodies, Constructed p (q.rename t) t vars origin ends pairs bodies := by
  obtain ⟨all, covered, stacked, log, ends, pairs, bodies, progress⟩ :=
    DomTree.preorder_induction input.wf.linked input.tree (renameBlock t)
      (fun done stack r => ∃ log ends pairs bodies,
        Progress p t vars r done stack log ends pairs bodies)
      (fun done b stack r stacked ⟨log, ends, pairs, bodies, progress⟩ =>
        progress.step input stacked)
      (Renaming.start q) ⟨[], fun _ _ => none, _, _, progress_start input placement _⟩
  generalize isFinal : ((t.preorder.forM (renameBlock t)).run (Renaming.start q)).2 = r at progress
  have result : q.rename t = r.finish := by
    rw [← isFinal]
    rfl
  have base := progress.chained.base
  have grows : p.nextVar ≤ r.proc.nextVar := base ▸ progress.chained.base_le
  have beyond : ∀ d, r.proc.nextVar ≤ d → originAfter p log d = ⟨d, true⟩ := by
    intro d above
    have all : p.nextVar + log.length ≤ d := base ▸ progress.chained.count ▸ above
    have isNew : ¬d < p.nextVar := Nat.not_lt.mpr (Nat.le_trans (Nat.le_add_right _ _) all)
    rw [originAfter, if_neg isNew, originIn, if_neg isNew, getD_eq_getElem?_getD,
      getElem?_eq_none (Nat.le_sub_of_add_le' all)]
    rfl
  rw [result]
  refine ⟨originAfter p log, ends, pairs, bodies, ?_, ?_, ?_, ?_, ?_, ?_, progress.chained.regs,
    ?_, ?_, ?_⟩
  · have rest := progress.content.rest
    unfold finish
    rw [rest]
  · exact progress.content.size
  · intro c lt
    change r.proc.block c = _
    rw [progress.content.block c lt]
    have samePhis : phisWith (p.block c).preds (valueIn all ends) (pairs c) =
        phisWith (p.block c).preds ends (pairs c) := by
      apply phisWith_congr
      intro q isPred
      have visited := covered q (input.wf.lt_of_mem_preds lt isPred)
      simp [valueIn, visited]
    rw [samePhis]
  · intro c lt
    exact progress.renamed c (covered c lt) _ fun d isNew _ => if_neg (Nat.not_lt.mpr isNew)
  · intro x below
    rw [originAfter, if_pos below]
  · intro d
    rcases Nat.lt_or_ge d r.proc.nextVar with below | above
    · rw [source_originAfter, ← base]
      exact progress.chained.types d below
    · rw [beyond d above]
      change (r.proc.var d).ty = (p.var d).ty
      have isNew : p.nextVar ≤ d := Nat.le_trans grows above
      rw [Procedure.var, Procedure.var, Tables.getD_of_size_le _ _ above,
        Tables.getD_of_size_le _ _ isNew]
  · exact beyond
  · exact grows
  · change (List.range (r.proc.nextVar - r.base)).map (r.base + ·) = _
    rw [base]
    rfl

end Renaming

/-- A flow graph declares the variables of the body it was built from. -/
theorem Procedure.Built.declared {p q : Procedure} (built : p.Built q) (linear : p.Linear) :
    q.args ++ q.locals = List.range q.nextVar := by
  rw [built.args, built.locals, Procedure.nextVar, built.vars]
  exact linear.declared

/-- Single-assignment construction of a flow graph of a body as read. -/
theorem Procedure.constructed_constructSsa {p q : Procedure} {t : DomTree} (linear : p.Linear)
    (built : p.Built q) (tree : t.Exact q) :
    ∃ vars origin ends pairs bodies, Renaming.Input q t vars ∧
      Renaming.Constructed q (q.constructSsa t (.ofTree q t)).1 t vars origin ends pairs bodies ∧
      PhiVars q (.ofTree q t) ((q.args ++ q.locals).filter q.blockCrossing.contains) vars := by
  have nextVar : q.nextVar = p.nextVar := by rw [Procedure.nextVar, built.vars]; rfl
  have declared := built.declared linear
  obtain ⟨vars, placement, phiVars⟩ :=
    placement_placePhis t (declared ▸ nodup_range : (q.args ++ q.locals).Nodup)
  have input : Renaming.Input q t vars := by
    refine ⟨built.wf, built.ordered, tree, ?_, ?_, declared⟩
    · rw [nextVar]
      exact built.inScope
    · intro c x mem
      have needed := (mem_filter.mp ((phiVars.mem c x).mp mem).1).1
      rw [declared] at needed
      exact mem_range.mp needed
  obtain ⟨origin, ends, pairs, bodies, ssa⟩ := Renaming.constructed_rename input placement
  exact ⟨vars, origin, ends, pairs, bodies, input, ssa, phiVars⟩

end ArmBackend
