import ArmBackend.Proofs.Ssa.RepairReads

/-!
Contract: repairing a variable is correct.

Owns: what a repair leaves alone, that a repair of a variable without definitions gives back its
procedure, and the whole of what a repair promises for a variable that is an argument or always
assigned before it is read.
-/

namespace ArmBackend

open List Procedure

namespace Repair

theorem modify_eq_of_getElem? {α : Type} {f : α → α} {k : Nat} {list : List α}
    (same : ∀ x, list[k]? = some x → f x = x) : list.modify k f = list := by
  refine ext_getElem? fun n => ?_
  rw [getElem?_modify]
  cases isAt : list[n]? with
  | none => rfl
  | some x =>
    by_cases here : k = n
    · subst here
      simp [same x isAt]
    · simp [here]

/-- No definition to find, and no place for a phi. -/
structure Idle (r : Repair) : Prop where
  fresh : ∀ x, r.fresh.contains x = false
  joins : ∀ b, r.joins.contains b = false

variable {r : Repair}

theorem Idle.reaching (idle : Idle r) (steps : Nat) (b : BlockId) (upTo : Nat) :
    r.reaching steps b upTo = (r.var, r) := by
  have noDef : ∀ insts, r.lastDefinition? insts = none := by
    intro insts
    rw [lastDefinition?, findSome?_eq_none_iff]
    intro i _
    exact find?_eq_none.mpr fun x _ => by simp [idle.fresh x]
  induction steps generalizing b upTo with
  | zero => rfl
  | succ steps ih =>
    rw [Repair.reaching, noDef, idle.joins]
    dsimp only
    rw [if_neg Bool.false_ne_true]
    cases r.tree.idom? b with
    | none => rfl
    | some parent => exact ih ..

theorem modify_eq_self (r : Repair) (b : BlockId) (k : Nat) {f : Inst → Inst}
    (same : ∀ i, (r.proc.block b).insts[k]? = some i → f i = i) :
    { r with proc := r.proc.modifyBlock b (·.modifyInst k f) } = r := by
  have blocks := r.proc.modifyBlock_eq_self b (f := (·.modifyInst k f)) fun _ => by
    rw [Block.modifyInst, modify_eq_of_getElem? same]
  rw [blocks]

private theorem Idle.redirectArg (idle : Idle r) {b : BlockId} {remaining slot : Nat} {phi : Phi}
    (isAt : (r.proc.block b).insts[r.position b remaining]? = some (.phi phi))
    (isStale : phi.args[slot]? = some (some r.var)) :
    Repair.redirectArg b remaining r slot = r := by
  have found : r.foundArg b slot = (r.var, r) := idle.reaching ..
  rw [Repair.redirectArg, found]
  refine modify_eq_self r b _ fun i isAt' => ?_
  rw [isAt, Option.some.injEq] at isAt'
  subst isAt'
  obtain ⟨lt, isArg⟩ := List.getElem?_eq_some_iff.mp isStale
  have same : phi.args.set slot (some r.var) = phi.args := by
    rw [← isArg]
    exact set_getElem_self lt
  change Inst.phi { phi with args := phi.args.set slot (some r.var) } = _
  rw [same]

private theorem Idle.redirectAt (idle : Idle r) (b : BlockId) (remaining : Nat) :
    r.redirectAt b remaining = r := by
  cases isAt : (r.proc.block b).insts[r.position b remaining]? with
  | none =>
    unfold Repair.redirectAt
    rw [isAt]
  | some i =>
    cases isPhi : i.isPhi with
    | false =>
      have same : ∀ i : Inst, (i.mapUses fun v => if v = r.var then r.var else v) = i := by
        intro i
        refine Inst.mapUses_eq_self fun u _ => ?_
        split
        · rename_i isVar
          exact isVar.symm
        · rfl
      rw [redirectAt_other isPhi isAt]
      dsimp only
      split
      · rw [idle.reaching]
        exact modify_eq_self r b _ fun i _ => same i
      · rfl
    | true =>
      cases i with
      | phi phi =>
        rw [redirectAt_phi isAt]
        have all : ∀ slots : List Nat, (∀ slot ∈ slots, phi.args[slot]? = some (some r.var)) →
            slots.foldl (Repair.redirectArg b remaining) r = r := by
          intro slots stale
          induction slots with
          | nil => rfl
          | cons slot slots ih =>
            rw [forall_mem_cons] at stale
            rw [foldl_cons, idle.redirectArg isAt stale.1]
            exact ih stale.2
        exact all _ fun slot mem => mem_stale.mp mem
      | _ => cases isPhi

private theorem Idle.redirectReads (idle : Idle r) : r.redirectReads = r := by
  have block : ∀ b remaining, redirectFrom b remaining r = r := by
    intro b remaining
    induction remaining with
    | zero => rfl
    | succ remaining ih => rw [redirectFrom, idle.redirectAt, ih]
  have all : ∀ blocks : List BlockId, blocks.foldl redirectBlock r = r := by
    intro blocks
    induction blocks with
    | nil => rfl
    | cons b blocks ih =>
      have here : r.redirectBlock b = r := by
        rw [redirectBlock]
        split
        · exact block ..
        · rfl
      rw [foldl_cons, here, ih]
  exact all r.proc.blockIds

end Repair

/-- A variable without definitions needs no repair. -/
theorem Procedure.repairSsa_eq_self {p : Procedure} {v : VarId} {t : DomTree} (wf : p.WellFormed)
    (dom : t.Exact p) (undefined : ∀ b < p.blocks.size, ¬p.Defines b v) (notLocal : v ∉ p.locals) :
    p.repairSsa v t (.ofTree p t) = (p, 0) := by
  have noWriters : p.writers v = [] := by
    refine eq_nil_iff_forall_not_mem.mpr fun b writes => ?_
    obtain ⟨lt, defines⟩ := mem_writers.mp writes
    exact undefined b lt defines
  have renamed : (Repair.ofVar p v t).renameDefinitions = .ofVar p v t := by
    change (p.writers v).foldl Repair.renameBlock _ = _
    rw [noWriters]
    rfl
  have noJoins : (Frontiers.ofTree p t).iterated (p.definers v) = .empty := by
    refine Frontiers.iterated_eq_empty fun b mem => ?_
    rw [definers, noWriters, append_nil] at mem
    split at mem
    · rw [mem_singleton.mp mem]
      exact Frontiers.frontier_entry dom wf
    · cases mem
  have isStart : Repair.start p v t (.ofTree p t) = .ofVar p v t := by
    rw [Repair.start, renamed, noJoins]
    rfl
  have idle : (Repair.ofVar p v t).Idle :=
    ⟨fun x => IndexSet.contains_empty x, fun b => IndexSet.contains_empty b⟩
  have kept : p.removeLocal v = p := by
    have locals : p.locals.filter (· != v) = p.locals := by
      refine filter_eq_self.mpr fun u mem => ?_
      rw [bne_iff_ne]
      rintro rfl
      exact notLocal mem
    rw [removeLocal, locals]
  rw [repairSsa, isStart, idle.redirectReads, Repair.ofVar, kept]

/-! ## What a repair promises -/

/-- What a repair of `v` makes of `q`. -/
structure Procedure.Mended (q : Procedure) (v : VarId) (q' : Procedure) : Prop where
  rest : q' = { q with blocks := q'.blocks, vars := q'.vars, locals := q'.locals }
  size : q'.blocks.size = q.blocks.size
  block : ∀ b, q'.block b = { q.block b with insts := (q'.block b).insts }
  grows : q.nextVar ≤ q'.nextVar
  var : ∀ u < q.nextVar, q'.var u = q.var u
  locals : q'.locals = (q.locals ++ List.range' q.nextVar (q'.nextVar - q.nextVar)).filter (· != v)
  undefined : ∀ b < q.blocks.size, ¬q'.Defines b v
  unmentioned : v ∉ q.args → ∀ b < q.blocks.size, ∀ i ∈ (q'.block b).insts, ¬i.Mentions v
  once : ∀ x, q.nextVar ≤ x → x < q'.nextVar → q'.definitions.count x = 1
  /-- A block has at most one new phi, which is complete; all other instructions keep their places,
  with other variables for `v`. -/
  insts : ∀ b < q.blocks.size, ∃ (new : Option Phi) (insts : List Inst),
    (q'.block b).insts = new.toList.map Inst.phi ++ insts ∧
    (∀ phi ∈ new, q.nextVar ≤ phi.dst ∧ phi.args.length = (q.block b).preds.length ∧
      ∀ a ∈ phi.args, a.isSome = true) ∧
    insts.length = (q.block b).insts.length ∧
    ∀ (k : Nat) (i j : Inst), (q.block b).insts[k]? = some i → insts[k]? = some j →
      i.Replaces v j ∧ (¬i.Mentions v → j = i)

namespace Repair

variable {q q' : Procedure} {s : Scope} {heads : BlockId → Option Phi} {tails : BlockId → List Inst}
  {b : BlockId}

private theorem augments_redirectReads (q : Procedure) (v : VarId) (t : DomTree) (f : Frontiers) :
    q.Augments (start q v t f).redirectReads.proc := by
  have renamed := advances_renameDefinitions _ (uniform_ofVar q v t)
  have redirected := advances_redirectReads (start q v t f) (renamed.uniform (uniform_ofVar q v t))
  exact renamed.augments.trans redirected.augments

private theorem Repaired.undefined (repaired : Repaired q q' s heads tails)
    (single : ∀ b < q.blocks.size, ∀ i ∈ (q.block b).insts, i.defs.count s.var ≤ 1)
    (lt : b < q.blocks.size) : ¬q'.Defines b s.var := by
  rintro ⟨j, mem, isDef⟩
  rw [repaired.insts b lt, code, mem_append] at mem
  rcases mem with ofHead | inTail
  · obtain ⟨phi, inHead, rfl⟩ := mem_map.mp ofHead
    have fresh := (repaired.head b phi (Option.mem_toList.mp inHead)).fresh
    exact Nat.lt_irrefl _ (Nat.lt_of_lt_of_le repaired.below (mem_singleton.mp isDef ▸ fresh))
  · obtain ⟨front, rest, isTail⟩ := append_of_mem inTail
    obtain ⟨front', i, rest', top, k, isInsts, -, -, rename, redirect⟩ :=
      (repaired.lines b lt).split isTail
    refine rename.not_defined redirect repaired.below (single b lt i ?_) isDef
    exact isInsts ▸ mem_append_right _ mem_cons_self

private theorem Repaired.block_insts (repaired : Repaired q q' s heads tails)
    (lt : b < q.blocks.size) : ∃ (new : Option Phi) (insts : List Inst),
      (q'.block b).insts = new.toList.map Inst.phi ++ insts ∧
      (∀ phi ∈ new, q.nextVar ≤ phi.dst ∧ phi.args.length = (q.block b).preds.length ∧
        ∀ a ∈ phi.args, a.isSome = true) ∧
      insts.length = (q.block b).insts.length ∧
      ∀ (k : Nat) (i j : Inst), (q.block b).insts[k]? = some i → insts[k]? = some j →
        i.Replaces s.var j ∧ (¬i.Mentions s.var → j = i) := by
  refine ⟨heads b, tails b, repaired.insts b lt, fun phi isHead => ?_,
    (repaired.lines b lt).length_eq, fun k i j isInst isImage => ?_⟩
  · have head := repaired.head b phi isHead
    refine ⟨repaired.base ▸ head.fresh, head.arity, fun a isArg => ?_⟩
    obtain ⟨slot, inRange, isAt⟩ := getElem_of_mem isArg
    have inPreds : slot < (q.block b).preds.length := head.arity ▸ inRange
    obtain ⟨x, isFound, -⟩ :=
      repaired.filled b lt phi isHead slot _ (getElem?_eq_getElem inPreds) id
    rw [getElem?_eq_getElem inRange, isAt, Option.some.injEq] at isFound
    rw [isFound, Option.isSome_some]
  · obtain ⟨inside, isAt⟩ := List.getElem?_eq_some_iff.mp isImage
    have isTail : tails b = (tails b).take k ++ j :: (tails b).drop (k + 1) := by
      rw [← isAt, ← drop_eq_getElem_cons inside, take_append_drop]
    obtain ⟨front, i', rest, top, k', isInsts, length, -, rename, redirect⟩ :=
      (repaired.lines b lt).split isTail
    rw [length_take, Nat.min_eq_left (Nat.le_of_lt inside)] at length
    rw [isInsts, getElem?_append_right (Nat.le_of_eq length), length, Nat.sub_self,
      getElem?_cons_zero, Option.some.injEq] at isInst
    subst isInst
    exact ⟨rename.replaces redirect, (rename.replaces redirect).eq_self⟩

end Repair

/-- Repairing a variable that is an argument or assigned before every read. The repair ends, it
leaves one definition for each fresh variable and nothing of `v` but reads of the argument, every
run of the procedure finds the same words at its reads, and repairing once more changes nothing. -/
theorem Procedure.mended_repairSsa {q : Procedure} {v : VarId} {t : DomTree} (wf : q.WellFormed)
    (ordered : q.Ordered) (isTree : DomTree.ofProcedure q = .ok t) (bounded : q.Bounded)
    (declared : v < q.nextVar)
    (single : ∀ b < q.blocks.size, ∀ i ∈ (q.block b).insts, i.defs.count v ≤ 1)
    (assigned : v ∈ q.args ∨ q.AssignsFirst v) :
    (∃ r, Repair.ResolvesAll (Repair.start q v t (.ofTree q t)) r ∧
      q.repairSsa v t (.ofTree q t) = (r.proc.removeLocal v, r.phis)) ∧
    q.Mended v (q.repairSsa v t (.ofTree q t)).1 ∧
    ((∀ b < q.blocks.size, ((q.block b).phis.map Phi.dst).Nodup) → (q.block entry).phis = [] →
      q.ReadsAs (q.repairSsa v t (.ofTree q t)).1 v) ∧
    (q.repairSsa v t (.ofTree q t)).1.repairSsa v t (.ofTree q t) =
    ((q.repairSsa v t (.ofTree q t)).1, 0) := by
  have dom : t.Exact q := DomTree.exact_ofProcedure wf.linked ordered isTree
  have looked : ∃ need, q.Seeks v t need ∧
      (v ∉ q.args → need = q.Assigned v ∧ q.AssignsFirst v) := by
    by_cases isArg : v ∈ q.args
    · exact ⟨fun _ => True, by constructor <;> intros <;> trivial,
        fun notArg => absurd isArg notArg⟩
    · have assigns := assigned.resolve_left isArg
      exact ⟨_, assigns.seeks wf ordered dom isArg, fun _ => ⟨rfl, assigns⟩⟩
  obtain ⟨need, seeks, always⟩ := looked
  obtain ⟨resolves, s, heads, tails, rfl, isNeed, repaired⟩ :=
    seeks.repaired wf ordered dom bounded declared
  have steady := (resolves.steady (Repair.steady_start t bounded declared)).1
  have augments := Repair.augments_redirectReads q s.var t (.ofTree q t)
  have reshaped := (q.retouches_repairSsa s.var t (.ofTree q t)).reshaped
  generalize isResult : q.repairSsa s.var t (.ofTree q t) = result at repaired reshaped ⊢
  rw [repairSsa] at isResult
  subst isResult
  generalize (Repair.start q s.var t (.ofTree q t)).redirectReads = r at *
  dsimp only at repaired reshaped ⊢
  have undefined : ∀ b < q.blocks.size, ¬(r.proc.removeLocal s.var).Defines b s.var :=
    fun b lt => repaired.undefined single lt
  have locals : (r.proc.removeLocal s.var).locals = (q.locals ++ List.range' q.nextVar
      ((r.proc.removeLocal s.var).nextVar - q.nextVar)).filter (· != s.var) :=
    congrArg (List.filter (· != s.var)) augments.locals
  have rest : r.proc.removeLocal s.var = { q with
      blocks := (r.proc.removeLocal s.var).blocks
      vars := (r.proc.removeLocal s.var).vars
      locals := (r.proc.removeLocal s.var).locals } :=
    congrArg (fun p : Procedure => { p with locals := (r.proc.removeLocal s.var).locals })
      augments.rest
  refine ⟨⟨r, resolves, rfl⟩, ⟨rest, augments.size, augments.block, augments.grows,
    fun u isOld => repaired.old u (repaired.base ▸ isOld), locals, undefined,
    fun notArg b lt j mem => ?_, fun x fresh inside => steady.once x fresh inside,
    fun b lt => repaired.block_insts lt⟩,
    fun distinct noPhis => repaired.readsAs wf bounded distinct noPhis, ?_⟩
  · obtain ⟨isAssigned, assigns⟩ := always notArg
    obtain ⟨notUsed, notArgument⟩ := repaired.not_read bounded wf ordered assigns
      (isNeed.trans isAssigned) lt mem
    rintro (isDef | isUse | ⟨phi, isPhi, isArg⟩)
    · exact undefined b lt ⟨j, mem, isDef⟩
    · exact notUsed isUse
    · exact notArgument phi isPhi isArg
  · rw [← reshaped.graph.ofTree t]
    refine repairSsa_eq_self (reshaped.wf wf) (repaired.graph.exact_ dom)
      (fun b lt => undefined b (repaired.graph.size ▸ lt)) fun isLocal => ?_
    rw [locals, mem_filter] at isLocal
    simp at isLocal

namespace Procedure

/-- Counts up to ten, with two definitions of one variable. -/
def counting : Procedure :=
  { ofName "count" .int with
    locals := [0]
    vars := #[⟨"n", .int, none, none⟩]
    labels := #["entry", "head", "body", "done"]
    blocks := #[ { Block.ofInsts 0 [.assign 0 (.int 0), .jump 1] with
      direct := some 1, postIndex := 3 }, { Block.ofInsts 1 [.branch .lt (.var 0) (.int 10) 2] with
        preds := [0, 2], direct := some 3, cond := some 2, postIndex := 2 },
      { Block.ofInsts 2 [.binary 0 .add (.var 0) (.int 1), .jump 1] with
        preds := [1], direct := some 1, postIndex := 1 },
      { Block.ofInsts 3 [.ret (some (.var 0))] with preds := [1], postIndex := 0 }]
    preorder := [0, 1, 3, 2]
    postorder := [3, 2, 1, 0]
    rpo := [0, 1, 2, 3] }

private theorem wellFormed_counting : counting.WellFormed :=
  .of_check (by decide) (by decide) (by decide) (by decide)

private theorem assignsFirst_counting : counting.AssignsFirst 0 := by
  have noPhi : ∀ b < 4, ∀ i ∈ (counting.block b).insts, i.isPhi = false := by decide
  have noRead : ∀ i ∈ (counting.block 0).insts, 0 ∉ i.uses := by decide
  refine ⟨fun b lt front i rest isInsts isRead seen path => .inr ?_, fun b lt phi mem => ?_⟩
  · have mem : i ∈ (counting.block b).insts := isInsts ▸ mem_append_right _ mem_cons_self
    have atEntry := dominates_entry b seen path
    obtain ⟨tail, rfl⟩ := path.head
    rcases mem_cons.mp atEntry with isEntry | inTail
    · rw [← isEntry] at mem
      exact absurd isRead (noRead i mem)
    · exact ⟨entry, inTail, .assign 0 (.int 0), by decide, by decide⟩
  · have isPhi := noPhi b lt _ mem
    cases isPhi

/-- Both definitions reach the head of the loop, where one phi is placed. -/
theorem mended_repairSsa_counting : ∃ t, DomTree.ofProcedure counting = .ok t ∧
    (counting.repairSsa 0 t (.ofTree counting t)).2 = 1 ∧
    counting.Mended 0 (counting.repairSsa 0 t (.ofTree counting t)).1 ∧
    counting.ReadsAs (counting.repairSsa 0 t (.ofTree counting t)).1 0 := by
  have ordered : counting.Ordered :=
    (ordered_recomputeOrders (show counting.recomputeOrders = .ok counting by rfl) (by decide)
      fun b c edge => (wellFormed_counting.inside b c edge).1).2
  have isTree : DomTree.ofProcedure counting = .ok ⟨#[none, some 0, some 1, some 1]⟩ := by rfl
  have bounded : counting.Bounded := wellFormed_counting.bounded (by decide) (by decide) (by decide)
  obtain ⟨-, mended, reads, -⟩ := mended_repairSsa wellFormed_counting ordered isTree bounded
    (by decide) (by decide) (.inr assignsFirst_counting)
  exact ⟨_, isTree, by rfl, mended, reads (by decide) rfl⟩

end Procedure

end ArmBackend
