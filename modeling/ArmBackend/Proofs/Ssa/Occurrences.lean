import ArmBackend.Proofs.Ssa.Minted

/-!
Contract: what a repair leaves of its variable.

Each instruction keeps its place. It gets a fresh variable where it defined the variable under
repair, and what reaches it where it read that variable; everything else in it stays. If every read
of the variable comes after a definition on every path, then so does every point at which a repair
looks for one, so that an instruction reads the variable afterwards only if some path to it has no
definition.

Owns: definite assignment as a property of paths, the relation between an instruction and its
repaired form, and which repaired instructions mention the variable.
-/

namespace ArmBackend

open List Procedure

namespace Procedure

/-- Every path to the start of a block leaves a block that defines the variable. -/
def Assigned (q : Procedure) (v : VarId) (b : BlockId) :
    Prop := ∀ seen, q.Path seen b → ∃ c ∈ seen.tail, q.Defines c v

/-- On every path from the entry, a definition of the variable comes ahead of each read. An argument
of a phi is read at the end of its predecessor. -/
structure AssignsFirst (q : Procedure) (v : VarId) : Prop where
  read : ∀ b < q.blocks.size, ∀ front i rest, (q.block b).insts = front ++ i :: rest → v ∈ i.uses →
    ∀ seen, q.Path seen b → (∃ j ∈ front, v ∈ j.defs) ∨ ∃ c ∈ seen.tail, q.Defines c v
  arg : ∀ b < q.blocks.size, ∀ phi, Inst.phi phi ∈ (q.block b).insts →
    ∀ (slot : Nat) (pred : BlockId),
    phi.args[slot]? = some (some v) → (q.block b).preds[slot]? = some pred →
    ∀ seen, q.Path seen pred → ∃ c ∈ seen, q.Defines c v

variable {q : Procedure} {t : DomTree}

/-- A path may reach a block that it visits on any other way. -/
theorem Path.splice {front back rest : List BlockId} {b x : BlockId}
    (path : q.Path (front ++ x :: back) b)
    (other : q.Path (x :: rest) x) : q.Path (front ++ x :: rest) b := by
  induction front generalizing b with
  | nil =>
    obtain ⟨_, isHead⟩ := path.head
    obtain ⟨rfl, -⟩ := List.cons.inj isHead
    exact other
  | cons y front ih =>
    generalize isSeen : y :: front ++ x :: back = seen at path
    cases path with
    | start =>
      obtain ⟨-, empty⟩ := List.cons.inj isSeen
      exact absurd empty (by simp)
    | extend path edge =>
      obtain ⟨rfl, rfl⟩ := List.cons.inj isSeen
      exact (ih path).extend edge

/-! ## The nearest marked block -/

section Marks

variable (blocks : List BlockId) (joins : IndexSet)
variable {b x : BlockId}

/-- Marks some blocks, and those where their values meet, each with itself. -/
def mark (b : BlockId) : Option BlockId :=
  if b ∈ blocks ∨ joins.contains b = true then some b else none

/-- Climbing the dominator tree to a mark, or else to a number that no block has. -/
def markScope (q : Procedure) (t : DomTree) (joins : IndexSet) : Repair.Scope :=
  ⟨q.blocks.size, 0, t, joins, fun _ => True⟩

variable {blocks joins}

theorem mark_eq_some (isMark : mark blocks joins b = some x) :
    x = b ∧ (b ∈ blocks ∨ joins.contains b = true) := by
  unfold mark at isMark
  split at isMark
  · rename_i marked
    exact ⟨(Option.some.inj isMark).symm, marked⟩
  · cases isMark

theorem mark_eq_none (noMark : mark blocks joins b = none) :
    b ∉ blocks ∧ joins.contains b = false := by
  unfold mark at noMark
  split at noMark
  · cases noMark
  · rename_i unmarked
    rw [not_or, Bool.not_eq_true] at unmarked
    exact unmarked

private theorem exists_nearest_mark (dom : t.Exact q) (below : DomTree.Above t.idom? entry b) :
    ∃ x, (markScope q t joins).ReachesEnd (mark blocks joins) b x ∧
      (x = q.blocks.size ∨ DomTree.Above t.idom? x b) := by
  induction below with
  | refl =>
    unfold Repair.Scope.ReachesEnd
    cases isMark : mark blocks joins entry with
    | some x => exact ⟨x, .here, .inr ((mark_eq_some isMark).1 ▸ .refl)⟩
    | none => exact ⟨_, .root (mark_eq_none isMark).2 dom.root, .inl rfl⟩
  | @up b parent isParent other below ih =>
    obtain ⟨x, reaches, above⟩ := ih
    unfold Repair.Scope.ReachesEnd
    cases isMark : mark blocks joins b with
    | some y => exact ⟨y, .here, .inr ((mark_eq_some isMark).1 ▸ .refl)⟩
    | none =>
      exact ⟨x, .above (mark_eq_none isMark).2 isParent reaches,
        above.imp_right (.up isParent other)⟩

/-- Every path to a block where no values meet comes from its nearest mark, past unmarked blocks. -/
theorem Path.from_mark (wf : q.WellFormed) (ordered : q.Ordered) (dom : t.Exact q)
    (closure : Frontiers.Closure q (.ofTree q t) blocks joins) {seen : List BlockId}
    (path : q.Path seen b) (reaches : (markScope q t joins).Reaches (mark blocks joins) b none x) :
    (x = q.blocks.size ∧ ∀ c ∈ seen.tail, mark blocks joins c = none) ∨
      ∃ front back, seen.tail = front ++ x :: back ∧ ∀ c ∈ front, mark blocks joins c = none := by
  induction path with
  | start =>
    cases reaches with
    | @above _ parent _ _ isParent _ =>
      have isParent : t.idom? entry = some parent := isParent
      rw [dom.root] at isParent
      cases isParent
    | root => exact .inl ⟨rfl, nofun⟩
  | @extend seen p b path edge ih =>
    have upper : (markScope q t joins).Reaches (mark blocks joins) p (mark blocks joins p) x :=
      Repair.reachesEnd_of_edge (s := markScope q t joins) wf ordered dom closure
        (fun c _ x isMark => (mark_eq_some isMark).2) edge reaches
    obtain ⟨rest, rfl⟩ := path.head
    cases isMark : mark blocks joins p with
    | some y =>
      rw [isMark] at upper
      obtain rfl := upper.of_some
      obtain rfl := (mark_eq_some isMark).1
      exact .inr ⟨[], rest, rfl, nofun⟩
    | none =>
      rw [isMark] at upper
      rcases ih upper with ⟨isNone, clear⟩ | ⟨front, back, split, clear⟩
      · exact .inl ⟨isNone, forall_mem_cons.mpr ⟨isMark, clear⟩⟩
      · refine .inr ⟨p :: front, back, ?_, forall_mem_cons.mpr ⟨isMark, clear⟩⟩
        exact congrArg (p :: ·) split

end Marks

/-! ## Where a repair looks for definitions -/

theorem mem_definers {v : VarId} (notArg : v ∉ q.args) {b : BlockId} :
    b ∈ q.definers v ↔ b < q.blocks.size ∧ q.Defines b v := by
  have noEntry : q.args.contains v = false := by simpa using notArg
  rw [definers, noEntry, if_neg Bool.false_ne_true, nil_append, mem_writers]

/-- A repair of a variable that is always assigned looks for definitions only where one is
behind. -/
theorem AssignsFirst.seeks {v : VarId} (assigns : q.AssignsFirst v) (wf : q.WellFormed)
    (ordered : q.Ordered) (dom : t.Exact q) (notArg : v ∉ q.args) : q.Seeks v t (q.Assigned v) where
  read b lt front i rest isInsts _ isRead noDef seen path := by
    rcases assigns.read b lt front i rest isInsts isRead seen path with ⟨j, mem, isDef⟩ | behind
    · exact absurd isDef (noDef j mem)
    · exact behind
  arg b lt phi mem slot pred isArg isPred noDef seen path := by
    obtain ⟨c, visited, defines⟩ := assigns.arg b lt phi mem slot pred isArg isPred seen path
    obtain ⟨rest, rfl⟩ := path.head
    rcases mem_cons.mp visited with rfl | earlier
    · exact absurd defines noDef
    · exact ⟨c, earlier, defines⟩
  pred b p assigned isPred noDef seen path := by
    have lt : b < q.blocks.size := by
      refine Nat.lt_of_not_le fun outside => ?_
      rw [block_of_size_le q outside] at isPred
      cases isPred
    have edge := (wf.mem_preds lt).mp isPred
    obtain ⟨c, visited, defines⟩ := assigned _ (path.extend edge)
    obtain ⟨rest, rfl⟩ := path.head
    rcases mem_cons.mp visited with rfl | earlier
    · exact absurd defines noDef
    · exact ⟨c, earlier, defines⟩
  parent b p assigned noJoin isParent noDef := by
    have closure := Frontiers.closure_iterated (t := t) (p := q) (q.definers v)
    have insideB := (dom.lt_of_parent isParent).1
    have insideP := (dom.parent_lt isParent).1
    have unmarked {c : BlockId} (lt : c < q.blocks.size)
        (noMark : mark (q.definers v) ((Frontiers.ofTree q t).iterated (q.definers v)) c = none) :
        ¬q.Defines c v :=
      fun defines => (mark_eq_none noMark).1 ((mem_definers notArg).mpr ⟨lt, defines⟩)
    intro seen path
    obtain ⟨rest, rfl⟩ := path.head
    obtain ⟨x, reaches, above⟩ := exists_nearest_mark dom (dom.above_entry insideP)
    obtain ⟨seenB, pathB⟩ := ordered.exists_path insideB
    have inside := pathB.lt_size wf.linked
    obtain ⟨tail, rfl⟩ := pathB.head
    rcases pathB.from_mark wf ordered dom closure (.above noJoin isParent reaches) with
      ⟨-, clear⟩ | ⟨front, back, split, clear⟩
    · obtain ⟨c, visited, defines⟩ := assigned _ pathB
      exact absurd defines (unmarked (inside c (mem_cons_of_mem _ visited)) (clear c visited))
    -- The path may come to the mark as the given one does, and goes on past unmarked blocks.
    · rw [tail_cons] at split
      subst split
      have below : DomTree.Above t.idom? x p := by
        refine above.resolve_left fun isNone => ?_
        have isBlock := inside x (by simp)
        exact Nat.lt_irrefl _ (isNone ▸ isBlock)
      obtain ⟨front', rest', isSplit, short⟩ := path.cut ((dom.above p insideP x).mp below _ path)
      have joined : q.Path (b :: front ++ x :: rest') b := Path.splice pathB short
      obtain ⟨c, visited, defines⟩ := assigned _ joined
      rw [cons_append, tail_cons, mem_append] at visited
      rcases visited with inFront | inRest
      · refine absurd defines (unmarked (inside c ?_) (clear c inFront))
        exact mem_cons_of_mem _ (mem_append_left _ inFront)
      · have earlier : c ∈ p :: rest := isSplit ▸ mem_append_right _ inRest
        rcases mem_cons.mp earlier with rfl | inTail
        · exact absurd defines noDef
        · exact ⟨c, inTail, defines⟩

end Procedure

/-- An instruction mentions a variable. -/
def Inst.Mentions (i : Inst) (v : VarId) :
    Prop := v ∈ i.defs ∨ v ∈ i.uses ∨ ∃ phi, i = .phi phi ∧ some v ∈ phi.args

/-- An instruction with other variables in the place of `v`, and nothing else changed. -/
inductive Inst.Replaces (v : VarId) : Inst → Inst → Prop
  | phi {phi phi' : Phi} (source : phi'.source = phi.source)
      (inMemory : phi'.inMemory = phi.inMemory)
      (dst : phi.dst ≠ v → phi'.dst = phi.dst) (length : phi'.args.length = phi.args.length)
      (args : ∀ (slot : Nat) (a : Option VarId), phi.args[slot]? = some a → a ≠ some v →
        phi'.args[slot]? = some a) : Replaces v (.phi phi) (.phi phi')
  | other {i : Inst} (x y : VarId) (isOther : i.isPhi = false) :
      Replaces v i
      ((if v ∈ i.defs then Repair.redefine v x i else i).mapUses fun u => if u = v then y else u)

theorem Inst.Replaces.eq_self {v : VarId} {i j : Inst} (replaces : i.Replaces v j)
    (unmentioned : ¬i.Mentions v) : j = i := by
  unfold Mentions at unmentioned
  rw [not_or, not_or] at unmentioned
  cases replaces with
  | @phi phi phi' source inMemory dst length args =>
    have sameDst := dst fun same => unmentioned.1 (same ▸ mem_cons_self)
    have sameArgs : phi'.args = phi.args := by
      refine ext_getElem? fun slot => ?_
      cases isArg : phi.args[slot]? with
      | none => rw [List.getElem?_eq_none_iff, length, ← List.getElem?_eq_none_iff, isArg]
      | some a =>
        refine args slot a isArg ?_
        rintro rfl
        exact unmentioned.2.2 ⟨phi, rfl, mem_of_getElem? isArg⟩
    cases phi
    cases phi'
    cases source
    cases inMemory
    cases sameDst
    cases sameArgs
    rfl
  | other x y isOther =>
    rw [if_neg unmentioned.1]
    refine mapUses_eq_self fun u isUse => if_neg ?_
    rintro rfl
    exact unmentioned.2.1 isUse

namespace Repair

variable {q q' : Procedure} {s : Scope} {heads : BlockId → Option Phi} {tails : BlockId → List Inst}
  {b : BlockId} {ends : BlockId → Option VarId} {last : Option VarId} {insts image : List Inst}

/-! ## Instructions -/

private theorem Rename.pointed {top : VarId} {i k : Inst} (rename : Rename s top i k)
    (other : k.isPhi = false)
    (y : VarId) : i.Replaces s.var (k.mapUses fun u => if u = s.var then y else u) := by
  have isOther := rename.isPhi.symm.trans other
  rcases rename with ⟨absent, rfl⟩ | ⟨x, defines, -, -, rfl⟩
  · have image := Inst.Replaces.other (v := s.var) s.var y isOther
    rwa [if_neg absent] at image
  · have image := Inst.Replaces.other (v := s.var) x y isOther
    rwa [if_pos defines] at image

section

variable {top : VarId} {i j k : Inst} (rename : Rename s top i k)
  (redirect : Redirect q s ends b last k j)

include rename redirect

theorem Rename.replaces : i.Replaces s.var j := by
  cases redirect with
  | @phi phi args length kept found =>
    obtain ⟨node, rfl, sameArgs⟩ := rename.args rfl
    rw [sameArgs] at length kept
    rcases rename with ⟨-, isImage⟩ | ⟨x, defines, -, -, isImage⟩ <;>
      obtain rfl := Inst.phi.inj isImage
    · exact .phi rfl rfl (fun _ => rfl) length kept
    · exact .phi rfl rfl (fun other => absurd (mem_singleton.mp defines).symm other) length kept
  | unread other absent =>
    have isSame : (j.mapUses fun u => if u = s.var then s.var else u) = j := by
      refine Inst.mapUses_eq_self fun u isUse => if_neg ?_
      rintro rfl
      exact absent isUse
    rw [← isSame]
    exact rename.pointed other s.var
  | @read _ y other => exact rename.pointed other y

/-- A repaired instruction no longer defines the variable, if it did so at most once. -/
theorem Rename.not_defined (below : s.var < s.base) (single : i.defs.count s.var ≤ 1) :
    s.var ∉ j.defs := by
  rw [redirect.defs]
  rcases rename with ⟨absent, rfl⟩ | ⟨x, defines, above, -, rfl⟩
  · exact absent
  · rw [defs_redefine defines]
    exact not_mem_replaceFirst (Nat.ne_of_lt (Nat.lt_of_lt_of_le below above)) single

end

/-! ## Reads -/

section Paths

variable (repaired : Repaired q q' s heads tails) (bounded : q.Bounded)
include repaired bounded

theorem Repaired.inside (b : BlockId) : ∀ i ∈ (q.block b).insts, ∀ d ∈ i.defs, d < s.base := by
  intro i mem
  by_cases lt : b < q.blocks.size
  · exact repaired.base ▸ bounded.defs b lt i mem
  · rw [block_of_size_le q (Nat.le_of_not_lt lt)] at mem
    cases mem

theorem Repaired.clear_block (lt : b < q.blocks.size)
    (reaches : s.ReachesEnd (s.ends heads tails) b s.var) :
    ¬q.Defines b s.var ∧ s.Reaches (s.ends heads tails) b none s.var := by
  unfold Scope.ReachesEnd at reaches
  cases isEnd : s.ends heads tails b with
  | some x =>
    rw [isEnd] at reaches
    have same := reaches.of_some
    exact absurd repaired.below (Nat.not_lt.mpr (same ▸ (Scope.mem_of_last isEnd).1))
  | none =>
    rw [isEnd] at reaches
    refine ⟨?_, reaches⟩
    rintro ⟨i, mem, isDef⟩
    rw [Scope.ends, code, Scope.last_append, Option.or_eq_none_iff] at isEnd
    exact (repaired.lines b lt).absent (repaired.inside bounded b) isEnd.1 i mem isDef

theorem Repaired.clear_path {seen : List BlockId} (path : q.Path seen b)
    (reaches : s.Reaches (s.ends heads tails) b none s.var) :
    ∀ c ∈ seen.tail, ¬q.Defines c s.var := by
  induction path with
  | start => exact nofun
  | @extend seen p b path edge ih =>
    obtain ⟨rest, rfl⟩ := path.head
    obtain ⟨clear, upper⟩ := repaired.clear_block bounded (lt_size_of_mem_succs edge)
      (repaired.edge p b edge s.var reaches)
    exact forall_mem_cons.mpr ⟨clear, ih upper⟩

theorem Repaired.clear_end {seen : List BlockId} (path : q.Path seen b) (lt : b < q.blocks.size)
    (reaches : s.ReachesEnd (s.ends heads tails) b s.var) : ∀ c ∈ seen, ¬q.Defines c s.var := by
  obtain ⟨clear, upper⟩ := repaired.clear_block bounded lt reaches
  have earlier := repaired.clear_path bounded path upper
  obtain ⟨rest, rfl⟩ := path.head
  exact forall_mem_cons.mpr ⟨clear, earlier⟩

variable (wf : q.WellFormed) (ordered : q.Ordered) (assigns : q.AssignsFirst s.var)
include wf ordered assigns

/-- A repaired instruction does not read a variable that is always assigned. -/
theorem Repaired.not_read_line (lt : b < q.blocks.size) {front rest : List Inst} {j : Inst}
    (isTail : tails b = front ++ j :: rest) :
    s.var ∉ j.uses ∧ ∀ phi, j = .phi phi → some s.var ∉ phi.args := by
  obtain ⟨front', i, rest', top, k, isInsts, -, lines, rename, redirect⟩ :=
    (repaired.lines b lt).split isTail
  cases redirect with
  | @phi phi phiArgs length kept found =>
    refine ⟨not_mem_nil, ?_⟩
    rintro _ ⟨⟩ isArg
    obtain ⟨node, rfl, sameArgs⟩ := rename.args rfl
    obtain ⟨slot, inRange, isAt⟩ := getElem_of_mem isArg
    have isAt := List.getElem?_eq_some_iff.mpr ⟨inRange, isAt⟩
    have inOld : slot < phi.args.length := length ▸ inRange
    by_cases stale : phi.args[slot] = some s.var
    · have isStale := List.getElem?_eq_some_iff.mpr ⟨inOld, stale⟩
      obtain ⟨x, pred, isPred, isFound, reaches⟩ := found slot isStale
      rw [isAt, Option.some.injEq, Option.some.injEq] at isFound
      subst isFound
      have inside := wf.lt_of_mem_preds lt (mem_of_getElem? isPred)
      obtain ⟨seen, path⟩ := ordered.exists_path inside
      have inInsts : Inst.phi node ∈ (q.block b).insts := isInsts ▸ mem_append_right _ mem_cons_self
      obtain ⟨c, visited, defines⟩ :=
        assigns.arg b lt node inInsts slot pred (sameArgs ▸ isStale) isPred seen path
      exact repaired.clear_end bounded path inside reaches c visited defines
    · have same := kept slot _ (getElem?_eq_getElem inOld) stale
      rw [isAt, Option.some.injEq] at same
      exact stale same.symm
  | unread other absent =>
    refine ⟨absent, ?_⟩
    rintro phi rfl
    cases other
  | @read _ x other reaches =>
    constructor
    · rw [Inst.uses_mapUses]
      intro isRead
      obtain ⟨u, isUse, same⟩ := mem_map.mp isRead
      split at same
      · rename_i isVar
        subst same
        obtain ⟨seen, path⟩ := ordered.exists_path lt
        cases isLast : (s.last front).or ((heads b).map Phi.dst) with
        | some y =>
          rw [isLast] at reaches
          have above : s.base ≤ y := by
            rcases Option.or_eq_some_iff.mp isLast with inFront | ⟨-, ofHead⟩
            · exact (Scope.mem_of_last inFront).1
            · obtain ⟨phi, isHead, rfl⟩ := Option.map_eq_some_iff.mp ofHead
              exact (repaired.head b phi isHead).fresh
          exact absurd repaired.below (Nat.not_lt.mpr (reaches.of_some ▸ above))
        | none =>
          rw [isLast] at reaches
          have noDef := (Option.or_eq_none_iff.mp isLast).1
          rcases assigns.read b lt front' i rest' isInsts
            (rename.uses ▸ isVar ▸ isUse) seen path with
            ⟨k, mem, isDef⟩ | ⟨c, visited, defines⟩
          · refine lines.absent (fun k mem => ?_) noDef k mem isDef
            exact repaired.inside bounded b k (isInsts ▸ mem_append_left _ mem)
          · exact repaired.clear_path bounded path reaches c visited defines
      · rename_i notVar
        exact notVar same
    · intro phi isPhi
      cases k with
      | phi node => cases other
      | _ => cases isPhi

theorem Repaired.not_read (isNeed : s.need = q.Assigned s.var) (lt : b < q.blocks.size) {j : Inst}
    (mem : j ∈ (q'.block b).insts) :
    s.var ∉ j.uses ∧ ∀ phi, j = .phi phi → some s.var ∉ phi.args := by
  rw [repaired.insts b lt, code, mem_append] at mem
  rcases mem with ofHead | inTail
  · obtain ⟨phi, inHead, rfl⟩ := mem_map.mp ofHead
    have isHead := Option.mem_toList.mp inHead
    have head := repaired.head b phi isHead
    refine ⟨not_mem_nil, ?_⟩
    rintro _ ⟨⟩ isArg
    obtain ⟨slot, inRange, isAt⟩ := getElem_of_mem isArg
    have inPreds : slot < (q.block b).preds.length := head.arity ▸ inRange
    obtain ⟨x, isFound, reaches⟩ :=
      repaired.filled b lt phi isHead slot _ (getElem?_eq_getElem inPreds) id
    rw [getElem?_eq_getElem inRange, isAt, Option.some.injEq, Option.some.injEq] at isFound
    subst isFound
    have isPred := getElem_mem inPreds
    have inside := wf.lt_of_mem_preds lt isPred
    obtain ⟨seen, path⟩ := ordered.exists_path inside
    have assigned : q.Assigned s.var b := isNeed ▸ head.needed
    obtain ⟨c, visited, defines⟩ := assigned _ (path.extend ((wf.mem_preds lt).mp isPred))
    exact repaired.clear_end bounded path inside reaches c visited defines
  · obtain ⟨front, rest, isTail⟩ := append_of_mem inTail
    exact repaired.not_read_line bounded wf ordered assigns lt isTail

end Paths

end Repair

end ArmBackend
