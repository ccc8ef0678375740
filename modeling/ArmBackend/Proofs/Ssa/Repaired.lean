import ArmBackend.Proofs.Ssa.Redirect

/-!
Contract: what a repair makes of a procedure.

Its instructions stay in their places, with definitions of the variable under repair renamed and
reads of it pointed at what reaches them. Some blocks get a phi in front, filled with what reaches
the ends of the predecessors; elsewhere what reaches the start of a block reaches the ends of its
predecessors.

Owns: this relation between the procedures before and after, and that a repair establishes it.
Does not own: what the instructions do at run time.
-/

namespace ArmBackend

open List Procedure

namespace Repair

variable {q : Procedure} {s : Scope} {heads : BlockId → Option Phi} {tails : BlockId → List Inst}
  {b : BlockId}

variable {ends : BlockId → Option VarId} {last : Option VarId} {base new old : VarId} {i : Inst}
  {image insts : List Inst}

/-- The instructions of a block before and after a repair, from the point on where a given
definition is the last of the block. -/
def Lines (q : Procedure) (s : Scope) (ends : BlockId → Option VarId)
    (b : BlockId) (last : Option VarId) (insts image : List Inst) : Prop :=
  ∃ top raw, Renames s top insts raw ∧ Redirects q s ends b last raw image

private theorem new_mem_replaceFirst {vars : List VarId} (mem : old ∈ vars) :
    new ∈ replaceFirst old new vars := by
  induction vars with
  | nil => cases mem
  | cons v rest ih =>
    rw [replaceFirst]
    split
    · exact mem_cons_self
    · rename_i other
      exact mem_cons_of_mem _ (ih (mem_of_ne_of_mem (Ne.symm other) mem))

private theorem new_mem_defs_redefine (mem : old ∈ i.defs) : new ∈ (redefine old new i).defs := by
  have renamed : ∀ j : Inst, old ∈ j.defs →
      new ∈ (j.mapDefs fun v => if v = old then new else v).defs := by
    intro j mem
    rw [Inst.defs_mapDefs]
    exact mem_map.mpr ⟨old, mem, if_pos rfl⟩
  cases i with
  | prepare defs srcs argCount => exact new_mem_replaceFirst mem
  | _ => exact renamed _ mem

private theorem find?_defs_redefine (inside : ∀ d ∈ i.defs, d < base) (mem : old ∈ i.defs)
    (above : base ≤ new) : (redefine old new i).defs.find? (base ≤ ·) = some new := by
  have found : ((redefine old new i).defs.find? (base ≤ ·)).isSome = true :=
    find?_isSome.mpr ⟨new, new_mem_defs_redefine mem, decide_eq_true above⟩
  obtain ⟨d, isFound⟩ := Option.isSome_iff_exists.mp found
  rcases mem_defs_redefine (mem_of_find?_eq_some isFound) with rfl | isOld
  · exact isFound
  · have isAbove := find?_some isFound
    exact absurd (inside d isOld) (Nat.not_lt.mpr (of_decide_eq_true isAbove))

private theorem isPhi_redefine (old new : VarId) (i : Inst) :
    (redefine old new i).isPhi = i.isPhi := by
  cases i <;> rfl

private theorem Redirect.isPhi {j : Inst} (redirect : Redirect q s ends b last i j) :
    j.isPhi = i.isPhi := by
  cases redirect with
  | phi => rfl
  | unread => rfl
  | read => cases i <;> rfl

/-! ## Renamed instructions -/

section Rename

variable {top : VarId} {k : Inst} {raw : List Inst} (rename : Rename s top i k)

include rename

theorem Rename.uses : k.uses = i.uses := by
  rcases rename with ⟨-, rfl⟩ | ⟨x, -, -, -, rfl⟩
  · rfl
  · exact uses_redefine ..

theorem Rename.isPhi : k.isPhi = i.isPhi := by
  rcases rename with ⟨-, rfl⟩ | ⟨x, -, -, -, rfl⟩
  · rfl
  · exact isPhi_redefine ..

theorem Rename.args {phi : Phi} (isPhi : k = .phi phi) :
    ∃ phi', i = .phi phi' ∧ phi.args = phi'.args := by
  rcases rename with ⟨-, rfl⟩ | ⟨x, -, -, -, rfl⟩
  · exact ⟨phi, isPhi, rfl⟩
  · cases i with
    | phi node =>
      obtain rfl := Inst.phi.inj isPhi
      exact ⟨node, rfl, rfl⟩
    | _ => cases isPhi

/-- A renamed instruction defines a fresh variable where it defined the variable under repair. -/
theorem Rename.cases_find? (inside : ∀ d ∈ i.defs, d < s.base) :
    (s.var ∉ i.defs ∧ k = i ∧ k.defs.find? (s.base ≤ ·) = none) ∨
      ∃ x, s.var ∈ i.defs ∧ s.base ≤ x ∧ k = redefine s.var x i ∧
        k.defs.find? (s.base ≤ ·) = some x := by
  rcases rename with ⟨absent, rfl⟩ | ⟨x, defines, above, -, rfl⟩
  · refine .inl ⟨absent, rfl, find?_eq_none.mpr fun d isDef => ?_⟩
    simpa using inside d isDef
  · exact .inr ⟨x, defines, above, rfl, find?_defs_redefine inside defines above⟩

end Rename

/-- Where renamed instructions define no fresh variable, none of them defines the variable under
repair. -/
theorem Renames.absent {top : VarId} {raw : List Inst} (renames : Renames s top insts raw)
    (inside : ∀ i ∈ insts, ∀ d ∈ i.defs, d < s.base) (noDef : s.last raw = none) :
    ∀ i ∈ insts, s.var ∉ i.defs := by
  induction renames with
  | nil => exact nofun
  | cons rename _ ih =>
    rw [forall_mem_cons] at inside ⊢
    rw [Scope.last_cons, Option.or_eq_none_iff] at noDef
    refine ⟨?_, ih inside.2 noDef.1⟩
    rcases rename.cases_find? inside.1 with ⟨absent, -⟩ | ⟨x, -, -, -, found⟩
    · exact absent
    · rw [noDef.2] at found
      cases found

/-! ## Repaired instructions -/

section Lines

variable (lines : Lines q s ends b last insts image)

include lines

theorem Lines.length_eq : image.length = insts.length := by
  obtain ⟨top, raw, renames, redirects⟩ := lines
  have sameLength := congrArg length redirects.defs
  rwa [length_map, length_map, ← renames.length_eq] at sameLength

theorem Lines.absent (inside : ∀ i ∈ insts, ∀ d ∈ i.defs, d < s.base)
    (noDef : s.last image = none) : ∀ i ∈ insts, s.var ∉ i.defs := by
  obtain ⟨top, raw, renames, redirects⟩ := lines
  exact renames.absent inside (Scope.last_congr redirects.defs ▸ noDef)

/-- The instruction in the place of a repaired one, and how it was repaired. -/
theorem Lines.split {front' rest' : List Inst} {j : Inst} (isImage : image = front' ++ j :: rest') :
    ∃ front i rest top k, insts = front ++ i :: rest ∧ front.length = front'.length ∧
      Lines q s ends b last front front' ∧ Rename s top i k ∧
      Redirect q s ends b ((s.last front').or last) k j := by
  obtain ⟨top, raw, renames, redirects⟩ := lines
  obtain ⟨early, k, later, rfl, redirects', redirect⟩ := redirects.split isImage
  obtain ⟨front, i, rest, isInsts, renames', rename⟩ := Tables.exists_split_of_forall₂ renames
  have lines' : Lines q s ends b last front front' := ⟨top, early, renames', redirects'⟩
  exact ⟨front, i, rest, top, k, isInsts, lines'.length_eq.symm, lines', rename, redirect⟩

theorem Lines.isPhi (others : ∀ i ∈ insts, i.isPhi = false) : ∀ j ∈ image, j.isPhi = false := by
  intro j mem
  obtain ⟨front, rest, isImage⟩ := append_of_mem mem
  obtain ⟨front', i, rest', top, k, rfl, -, -, rename, redirect⟩ := lines.split isImage
  rw [redirect.isPhi, rename.isPhi]
  exact others i (mem_append_right _ mem_cons_self)

end Lines

/-- What a repair makes of a procedure. -/
structure Repaired (q q' : Procedure) (s : Scope) (heads : BlockId → Option Phi)
    (tails : BlockId → List Inst) : Prop where
  graph : q.SameGraph q'
  args : q'.args = q.args
  base : s.base = q.nextVar
  below : s.var < s.base
  old : ∀ u < s.base, q'.var u = q.var u
  new : ∀ x, s.base ≤ x → x < q'.nextVar → (q'.var x).ty = (q.var s.var).ty ∧
    q'.web? x = q.web? s.var
  insts : ∀ b < q.blocks.size, (q'.block b).insts = code heads tails b
  head : ∀ b phi, heads b = some phi → Head q s (tails b) b phi
  filled : Filled q s heads tails fun _ _ => False
  lines : ∀ b < q.blocks.size, Lines q s (s.ends heads tails) b ((heads b).map Phi.dst)
    (q.block b).insts (tails b)
  bounded : q'.Bounded
  atEntry : heads entry = none ∧ ∀ x, s.Reaches (s.ends heads tails) entry none x → x = s.var
  /-- What reaches the start of a block without a definition reaches the ends of its
  predecessors. -/
  edge : ∀ b c, c ∈ (q.block b).succs → ∀ x, s.Reaches (s.ends heads tails) c none x →
    s.ReachesEnd (s.ends heads tails) b x

/-- What reaches the start of a block without a definition reaches the ends of its predecessors, if
frontiers of definitions are closed. -/
theorem reachesEnd_of_edge {blocks : List BlockId} (wf : q.WellFormed) (ordered : q.Ordered)
    (dom : s.tree.Exact q)
    (closure : Frontiers.Closure q (.ofTree q s.tree) blocks s.joins)
    (defined : ∀ b < q.blocks.size, ∀ x, ends b = some x → b ∈ blocks ∨ s.joins.contains b = true)
    {c : BlockId} (edge : c ∈ (q.block b).succs) {x : VarId} (reaches : s.Reaches ends c none x) :
    s.ReachesEnd ends b x := by
  cases reaches with
  | @above _ parent _ noJoin isParent upper =>
    have same := Frontiers.value_at_edge ordered dom wf (s.ReachesEnd ends) edge isParent ?_
    · rw [same]
      exact upper
    · intro y d inFrontier isParent'
      have lt := (dom.lt_of_parent isParent').1
      have notJoin : s.joins.contains y = false := by
        refine Bool.eq_false_iff.mpr fun isJoin => ?_
        rw [closure.step y isJoin c inFrontier] at noJoin
        cases noJoin
      have noEnd : ends y = none := by
        cases isEnd : ends y with
        | none => rfl
        | some z =>
          rcases defined y lt z isEnd with inBlocks | isJoin
          · rw [closure.base y inBlocks c inFrontier] at noJoin
            cases noJoin
          · rw [isJoin] at notJoin
            cases notJoin
      funext z
      refine propext ⟨fun atY => ?_, fun atParent => ?_⟩
      · rw [Scope.ReachesEnd, noEnd] at atY
        cases atY with
        | above _ isParent'' upper =>
          rw [isParent', Option.some.injEq] at isParent''
          exact isParent'' ▸ upper
        | root _ isRoot =>
          rw [isParent'] at isRoot
          cases isRoot
      · rw [Scope.ReachesEnd, noEnd]
        exact .above notJoin isParent' atParent
  | root noJoin isRoot =>
    obtain ⟨lt, other⟩ := wf.inside b c edge
    obtain ⟨a, isParent, -⟩ := dom.parent c lt other
    rw [isRoot] at isParent
    cases isParent

end Repair

/-- Holds wherever the repair of a variable looks for a definition at the start of a block. -/
structure Procedure.Seeks (q : Procedure) (v : VarId) (t : DomTree) (need : BlockId → Prop) :
    Prop where
  read : ∀ b < q.blocks.size, ∀ front i rest, (q.block b).insts = front ++ i :: rest →
    i.isPhi = false → v ∈ i.uses → (∀ j ∈ front, v ∉ j.defs) → need b
  arg : ∀ b < q.blocks.size, ∀ phi, Inst.phi phi ∈ (q.block b).insts →
    ∀ (slot : Nat) (pred : BlockId),
    phi.args[slot]? = some (some v) → (q.block b).preds[slot]? = some pred → ¬q.Defines pred v →
    need pred
  pred : ∀ b p, need b → p ∈ (q.block b).preds → ¬q.Defines p v → need p
  parent : ∀ b p, need b → ((Frontiers.ofTree q t).iterated (q.definers v)).contains b = false →
    t.idom? b = some p → ¬q.Defines p v → need p

/-- A repair renames the definitions of its variable and resolves its reads, each with a search that
ends. -/
theorem Procedure.Seeks.repaired {q : Procedure} {v : VarId} {t : DomTree} {need : BlockId → Prop}
    (seeks : q.Seeks v t need) (wf : q.WellFormed) (ordered : q.Ordered) (dom : t.Exact q)
    (bounded : q.Bounded) (below : v < q.nextVar) :
    Repair.ResolvesAll (Repair.start q v t (.ofTree q t))
      (Repair.start q v t (.ofTree q t)).redirectReads ∧
      ∃ s heads tails, s.var = v ∧ s.need = need ∧
        Repair.Repaired q (q.repairSsa v t (.ofTree q t)).1 s heads tails := by
  obtain ⟨raw, sound, renames, writers⟩ := Repair.renameDefinitions_spec t need bounded below
  have isBounded := (q.retouches_repairSsa v t (.ofTree q t)).bounded bounded
    (forall_mem_singleton.mpr below)
  rw [repairSsa, Repair.start] at isBounded ⊢
  generalize (Repair.ofVar q v t).renameDefinitions = r at sound renames isBounded ⊢
  generalize isBlocks : q.definers v = blocks at writers isBounded ⊢
  dsimp only at sound renames writers isBounded ⊢
  let s : Repair.Scope := ⟨v, q.nextVar, t, (Frontiers.ofTree q t).iterated blocks, need⟩
  have inside : ∀ b < q.blocks.size, ∀ i ∈ (q.block b).insts, ∀ d ∈ i.defs, d < s.base :=
    bounded.defs
  have renames : ∀ b, Repair.Renames s r.proc.nextVar (q.block b).insts (raw b) := renames
  have sound : Repair.Sound q s (fun _ => none) raw
      { r with joins := (Frontiers.ofTree q t).iterated blocks } :=
    ⟨sound.var, sound.tree, rfl, sound.graph, sound.args, sound.below, sound.base, sound.fresh,
      sound.old,
      sound.new, sound.insts, sound.bound,
      fun _ _ isHead => absurd isHead (Option.some_ne_none _).symm⟩
  have arity : ∀ b < q.blocks.size, ∀ phi, Inst.phi phi ∈ raw b →
      phi.args.length = (q.block b).preds.length := by
    intro b lt phi mem
    obtain ⟨i, isInst, rename⟩ := Tables.exists_of_forall₂ (renames b) mem
    obtain ⟨phi', rfl, args⟩ := rename.args rfl
    obtain ⟨shape⟩ := wf.shape b lt
    rw [args]
    exact shape.arity phi' (shape.phis_eq ▸ shape.mem_phis.mp isInst)
  have undefined {b : BlockId} (noDef : s.last (raw b) = none) : ¬q.Defines b v := by
    rintro ⟨i, mem, isDef⟩
    by_cases lt : b < q.blocks.size
    · exact (renames b).absent (inside b lt) noDef i mem isDef
    · rw [block_of_size_le q (Nat.le_of_not_lt lt)] at mem
      cases mem
  have needs : Repair.Needs q s raw := by
    refine ⟨⟨fun b p needed isPred noDef => seeks.pred b p needed isPred (undefined noDef),
      fun b p needed noJoin isParent noDef =>
        seeks.parent b p needed (isBlocks ▸ noJoin) isParent (undefined noDef)⟩,
      fun b lt front j rest isRaw other isRead noDef => ?_,
      fun b lt phi mem slot pred isStale isPred noDef => ?_⟩
    · obtain ⟨front', i, rest', isInsts, renames', rename⟩ :=
        Tables.exists_split_of_forall₂ (isRaw ▸ renames b)
      refine seeks.read b lt front' i rest' isInsts (rename.isPhi ▸ other) (rename.uses ▸ isRead)
        (Repair.Renames.absent renames' (fun k inFront => ?_) noDef)
      exact inside b lt k (isInsts ▸ mem_append_left _ inFront)
    · obtain ⟨i, isInst, rename⟩ := Tables.exists_of_forall₂ (renames b) mem
      obtain ⟨phi', rfl, args⟩ := rename.args rfl
      exact seeks.arg b lt phi' isInst slot pred (args ▸ isStale) isPred (undefined noDef)
  have first : Repair.Redirecting q s raw (fun _ => 0) (fun _ => none) raw
      { r with joins := (Frontiers.ofTree q t).iterated blocks } :=
    ⟨sound, fun _ _ _ isHead => absurd isHead (Option.some_ne_none _).symm,
      fun b => ⟨[], rfl, .nil⟩⟩
  have ids : r.proc.blockIds = q.blockIds := by rw [blockIds, sound.graph.size, blockIds]
  obtain ⟨resolves, marks, heads, tails, state, done, -⟩ := first.foldl wf ordered dom needs
    arity (fun b mem => mem_blockIds.mp mem) nodup_range fun b _ => rfl
  have isResult : Repair.redirectReads { r with joins := (Frontiers.ofTree q t).iterated blocks } =
      q.blockIds.foldl Repair.redirectBlock
      { r with joins := (Frontiers.ofTree q t).iterated blocks } := by
    rw [← ids]
    rfl
  rw [isResult] at isBounded ⊢
  refine ⟨resolves, ?_⟩
  generalize q.blockIds.foldl Repair.redirectBlock
    { r with joins := (Frontiers.ofTree q t).iterated blocks } = final at state isBounded
  have sameEnds : s.ends heads tails = s.ends heads raw := Repair.ends_congr state.defs
  have redirects : ∀ b < q.blocks.size, Repair.Redirects q s (s.ends heads raw) b
      ((heads b).map Phi.dst) (raw b) (tails b) := by
    intro b lt
    obtain ⟨image, isTail, redirects⟩ := state.split b
    have all := done b (mem_blockIds.mpr lt)
    have whole : (raw b).take (marks b) = raw b := by
      rw [← append_nil ((raw b).take (marks b)), ← all, take_append_drop]
    rw [all, append_nil] at isTail
    rw [whole] at redirects
    exact isTail ▸ redirects
  have closure : Frontiers.Closure q (.ofTree q s.tree) blocks s.joins :=
    Frontiers.closure_iterated blocks
  -- A definition that is last in its block is a placed phi or stands for one of the variable's own.
  have defined : ∀ b < q.blocks.size, ∀ x, s.ends heads tails b = some x → b ∈ blocks ∨
      s.joins.contains b = true := by
    intro b lt x isEnd
    rw [sameEnds] at isEnd
    obtain ⟨above, i, inCode, isDef⟩ := Repair.Scope.mem_of_last isEnd
    rcases mem_append.mp inCode with isHead | inRaw
    · obtain ⟨phi, isHead, -⟩ := mem_map.mp isHead
      exact .inr (state.sound.head b phi (Option.mem_toList.mp isHead)).joins
    · obtain ⟨i', isInst, rename⟩ := Tables.exists_of_forall₂ (renames b) inRaw
      rcases rename with ⟨-, rfl⟩ | ⟨y, defines, -⟩
      · exact absurd (inside b lt i isInst x isDef) (Nat.not_lt.mpr above)
      · exact .inl (writers b lt ⟨i', isInst, defines⟩)
  refine ⟨s, heads, tails, rfl, rfl, state.sound.graph.trans ?_, state.sound.args, rfl, below,
    state.sound.old, state.sound.new, state.sound.insts, state.sound.head, state.filled,
    fun b lt => ?_, isBounded, ⟨?_, fun x reaches => ?_⟩, fun b c edge x reaches =>
      Repair.reachesEnd_of_edge wf ordered dom closure defined edge reaches⟩
  · exact .of_blocks rfl (fun _ => rfl) rfl rfl rfl
  · rw [sameEnds]
    exact ⟨_, raw b, renames b, redirects b lt⟩
  · cases isHead : heads entry with
    | none => rfl
    | some phi =>
      have meets := (closure.joins entry (state.sound.head entry phi isHead).joins).2
      rw [wf.preds_entry] at meets
      cases meets
  · cases reaches with
    | above _ isParent =>
      rw [dom.root] at isParent
      cases isParent
    | root => rfl

end ArmBackend
