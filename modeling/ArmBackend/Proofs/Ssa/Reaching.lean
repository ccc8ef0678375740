import ArmBackend.Proofs.Ssa.Repair
import Mathlib.Data.List.Find
import Mathlib.Logic.Function.Basic

/-!
Contract: the definition that a repair finds for a read.

A repair resolves one read after the other with a search that climbs from a point to the definition
that reaches it. While reads are redirected, blocks gain phis at their heads. Each phi stands where
definitions meet and counts as one; once its arguments are found, each of them is what reaches the
end of its predecessor.

Owns: searches without a bound on their steps, which definition reaches a point, the state of a
repair between two redirected reads, and that a search from any point finds what reaches it within
its steps. Does not own: which reads are redirected, and what the definitions hold at run time.
-/

namespace ArmBackend

open List Procedure

open Function (update update_self update_of_ne update_eq_self)

namespace Repair

/-- The search for the definition that reaches a point. The arguments of a placed phi are found one
after the other, each from the state that the last one left. -/
inductive Searches : Repair → BlockId → Nat → VarId → Repair → Prop
  | here {r : Repair} {b : BlockId} {upTo : Nat} {x : VarId}
      (found : r.lastDefinition? ((r.proc.block b).insts.take upTo) = some x) :
      Searches r b upTo x r
  | join {r : Repair} {b : BlockId} {upTo : Nat} {states : Nat → Repair} {found : Nat →
      VarId × Repair} (noDef : r.lastDefinition? ((r.proc.block b).insts.take upTo) = none)
      (isJoin : r.joins.contains b = true) (first : states 0 = r.withPhi b)
      (each : ∀ (slot : Nat) (pred : BlockId), ((r.withPhi b).proc.block b).preds[slot]? =
        some pred →
        Searches (states slot) pred ((states slot).proc.block pred).insts.length (found slot).1
        (found slot).2)
      (next : ∀ slot < ((r.withPhi b).proc.block b).preds.length,
        states (slot + 1) = (found slot).2.setPhiArg b r.proc.nextVar slot (found slot).1) :
      Searches r b upTo r.proc.nextVar (states ((r.withPhi b).proc.block b).preds.length)
  | above {r r' : Repair} {b parent : BlockId} {upTo : Nat} {x : VarId}
      (noDef : r.lastDefinition? ((r.proc.block b).insts.take upTo) = none)
      (noJoin : r.joins.contains b = false) (isParent : r.tree.idom? b = some parent)
      (upper : Searches r parent (r.proc.block parent).insts.length x r') : Searches r b upTo x r'
  | root {r : Repair} {b : BlockId} {upTo : Nat}
      (noDef : r.lastDefinition? ((r.proc.block b).insts.take upTo) = none)
      (noJoin : r.joins.contains b = false) (isRoot : r.tree.idom? b = none) :
      Searches r b upTo r.var r

/-- An argument of a phi, or the reads of another instruction, are pointed at what a search
finds. -/
inductive Resolves : Repair → Repair → Prop
  | arg {r r' : Repair} {b : BlockId} {remaining slot : Nat} {phi : Phi} {x : VarId}
      (isAt : (r.proc.block b).insts[r.position b remaining]? = some (.phi phi))
      (search : Searches r ((r.proc.block b).preds.getD slot entry)
        (r.proc.block ((r.proc.block b).preds.getD slot entry)).insts.length x r') :
      Resolves r (r'.modifyAt b remaining (Inst.mapPhi (withArg · slot x)))
  | read {r r' : Repair} {b : BlockId} {remaining : Nat} {i : Inst} {x : VarId}
      (isAt : (r.proc.block b).insts[r.position b remaining]? = some i) (other : i.isPhi = false)
      (reads : r.var ∈ i.uses) (search : Searches r b (r.position b remaining) x r') :
      Resolves r (r'.modifyAt b remaining fun i => i.mapUses fun v => if v = r'.var then x else v)

/-- Reads are resolved one after the other. -/
inductive ResolvesAll : Repair → Repair → Prop
  | none {r : Repair} : ResolvesAll r r
  | more {r r' r'' : Repair} (first : Resolves r r') (later : ResolvesAll r' r'') :
      ResolvesAll r r''

theorem Resolves.all {r r' : Repair} (resolves : Resolves r r') :
    ResolvesAll r r' := .more resolves .none

theorem ResolvesAll.trans {r r' r'' : Repair} (first : ResolvesAll r r')
    (second : ResolvesAll r' r'') : ResolvesAll r r'' := by
  induction first with
  | none => exact second
  | more resolves _ ih => exact .more resolves (ih second)

variable {phi : Phi} {front : List Inst} {waiting : BlockId → Nat → Prop}

/-! ## Reaching definitions -/

/-- What stays the same while reads are redirected. -/
structure Scope where
  /-- The variable under repair. -/
  var : VarId
  /-- Variables numbered from here on are fresh. -/
  base : VarId
  tree : DomTree
  /-- Blocks where definitions meet. -/
  joins : IndexSet
  /-- Blocks at whose start a definition may be looked for. -/
  need : BlockId → Prop

namespace Scope

variable (s : Scope)

variable {x : VarId}
variable {b : BlockId} {insts : List Inst}

/-- The last fresh variable that some instructions define. -/
def last (insts : List Inst) : Option VarId :=
  insts.reverse.findSome? fun i => i.defs.find? (s.base ≤ ·)

/-- A definition reaches a point of a block, given the last definition of the block ahead of the
point and the last definitions of all blocks. -/
inductive Reaches (ends : BlockId → Option VarId) : BlockId → Option VarId → VarId → Prop
  | here {b : BlockId} {x : VarId} : Reaches ends b (some x) x
  | above {b parent : BlockId} {x : VarId} (noJoin : s.joins.contains b = false)
      (isParent : s.tree.idom? b = some parent) (upper : Reaches ends parent (ends parent) x) :
      Reaches ends b none x
  | root {b : BlockId} (noJoin : s.joins.contains b = false) (isRoot : s.tree.idom? b = none) :
      Reaches ends b none s.var

/-- What reaches the end of a block. -/
def ReachesEnd (ends : BlockId → Option VarId) (b : BlockId) (x : VarId) :
    Prop := s.Reaches ends b (ends b) x

variable {s}

theorem last_append (front back : List Inst) :
    s.last (front ++ back) = (s.last back).or (s.last front) := by
  rw [last, reverse_append, findSome?_append]
  rfl

theorem last_cons (i : Inst) (rest : List Inst) :
    s.last (i :: rest) = (s.last rest).or (i.defs.find? (s.base ≤ ·)) := by
  rw [← singleton_append, last_append]
  congr 1
  simp [last]

theorem last_congr {insts' : List Inst} (same : insts.map Inst.defs = insts'.map Inst.defs) :
    s.last insts = s.last insts' := by
  have viaDefs : ∀ list : List Inst, s.last list =
      (list.map Inst.defs).reverse.findSome? (·.find? (s.base ≤ ·)) := by
    intro list
    rw [last, ← map_reverse, findSome?_map]
    rfl
  rw [viaDefs, viaDefs, same]

theorem mem_of_last (isLast : s.last insts = some x) : s.base ≤ x ∧ ∃ i ∈ insts, x ∈ i.defs := by
  obtain ⟨i, mem, found⟩ := exists_of_findSome?_eq_some isLast
  exact ⟨by simpa using find?_some found, i, mem_reverse.mp mem, mem_of_find?_eq_some found⟩

theorem Reaches.of_some {ends : BlockId → Option VarId} {y : VarId}
    (reaches : s.Reaches ends b (some x) y) : y = x := by
  cases reaches
  rfl

/-- A definition that reaches a point keeps doing so when definitions are added where definitions
meet, to blocks that have none ahead of the point. -/
theorem Reaches.mono {ends ends' : BlockId → Option VarId} {last last' : Option VarId}
    (keeps : ∀ b y, ends b = some y → ends' b = some y)
    (joins : ∀ b, ends b = none → s.joins.contains b = false → ends' b = none)
    (keep : ∀ y, last = some y → last' = some y)
    (join : last = none → s.joins.contains b = false → last' = none)
    (reaches : s.Reaches ends b last x) : s.Reaches ends' b last' x := by
  induction reaches generalizing last' with
  | here =>
    rw [keep _ rfl]
    exact .here
  | above noJoin isParent _ ih =>
    rw [join rfl noJoin]
    exact .above noJoin isParent (ih (keeps _) (joins _))
  | root noJoin isRoot =>
    rw [join rfl noJoin]
    exact .root noJoin isRoot

end Scope

variable {dst value : VarId} {f : Block → Block} {phi' : Phi} {slot steps : Nat}

/-! ## The state of a repair -/

/-- The instructions of a block: the phi that the repair placed, and the others. -/
def code (heads : BlockId → Option Phi) (tails : BlockId → List Inst) (b : BlockId) : List Inst :=
  (heads b).toList.map Inst.phi ++ tails b

/-- The last definitions of all blocks. -/
def Scope.ends (s : Scope) (heads : BlockId → Option Phi) (tails : BlockId → List Inst)
    (b : BlockId) : Option VarId :=
  s.last (code heads tails b)

/-- A phi that the repair placed at the head of a block. -/
structure Head (q : Procedure) (s : Scope) (tail : List Inst) (b : BlockId) (phi : Phi) : Prop where
  joins : s.joins.contains b = true
  needed : s.need b
  fresh : s.base ≤ phi.dst
  inRegister : phi.inMemory = false
  arity : phi.args.length = (q.block b).preds.length
  absent : ∀ i ∈ tail, phi.dst ∉ i.defs

/-- The state while the reads of a procedure are redirected, with the phis placed so far. -/
structure Sound (q : Procedure) (s : Scope) (heads : BlockId → Option Phi)
    (tails : BlockId → List Inst) (r : Repair) : Prop where
  var : r.var = s.var
  tree : r.tree = s.tree
  joins : r.joins = s.joins
  graph : q.SameGraph r.proc
  args : r.proc.args = q.args
  below : s.var < s.base
  base : s.base ≤ r.proc.nextVar
  fresh : ∀ x < r.proc.nextVar, r.fresh.contains x = true ↔ s.base ≤ x
  old : ∀ u < s.base, r.proc.var u = q.var u
  new : ∀ x, s.base ≤ x → x < r.proc.nextVar → (r.proc.var x).ty = (q.var s.var).ty ∧
    r.proc.web? x = q.web? s.var
  insts : ∀ b < q.blocks.size, (r.proc.block b).insts = code heads tails b
  bound : ∀ b < q.blocks.size, ∀ i ∈ code heads tails b, ∀ d ∈ i.defs, d < r.proc.nextVar
  head : ∀ b phi, heads b = some phi → Head q s (tails b) b phi

/-- Every argument of a placed phi reaches the end of its predecessor, but for those that are still
to be found. -/
def Filled (q : Procedure) (s : Scope) (heads : BlockId → Option Phi) (tails : BlockId → List Inst)
    (waiting : BlockId → Nat → Prop) : Prop :=
  ∀ b < q.blocks.size, ∀ phi, heads b = some phi → ∀ (slot : Nat) (pred : BlockId),
    (q.block b).preds[slot]? = some pred → ¬waiting b slot →
      ∃ x, phi.args[slot]? = some (some x) ∧ s.ReachesEnd (s.ends heads tails) pred x

/-- A search that looks for a definition at the start of a block may look for one at the ends of its
predecessors and of its parent. -/
structure Spreads (q : Procedure) (s : Scope) (tails : BlockId → List Inst) : Prop where
  pred : ∀ b p, s.need b → p ∈ (q.block b).preds → s.last (tails p) = none → s.need p
  parent : ∀ b p, s.need b → s.joins.contains b = false → s.tree.idom? b = some p →
    s.last (tails p) = none → s.need p

/-- Phis are added, and those that are there keep their destinations. -/
def Extends (heads heads' : BlockId → Option Phi) : Prop :=
  ∀ b phi, heads b = some phi → ∃ phi', heads' b = some phi' ∧ phi'.dst = phi.dst

theorem Extends.refl (heads : BlockId → Option Phi) :
    Extends heads heads := fun _ phi isHead => ⟨phi, isHead, rfl⟩

theorem Extends.trans {heads heads' heads'' : BlockId → Option Phi} (first : Extends heads heads')
    (second : Extends heads' heads'') : Extends heads heads'' := by
  intro b phi isHead
  obtain ⟨phi', isHead', dst⟩ := first b phi isHead
  obtain ⟨phi'', isHead'', dst'⟩ := second b phi' isHead'
  exact ⟨phi'', isHead'', dst'.trans dst⟩

variable {q : Procedure} {s : Scope} {heads heads' : BlockId → Option Phi}
  {tails : BlockId → List Inst} {r : Repair} {b : BlockId}

/-- Placed phis define fresh variables, where definitions meet. -/
def Fresh (s : Scope) (heads : BlockId → Option Phi) : Prop :=
  ∀ b phi, heads b = some phi → s.base ≤ phi.dst ∧ s.joins.contains b = true

theorem Sound.isFresh (sound : Sound q s heads tails r) : Fresh s heads :=
  fun b phi isHead => ⟨(sound.head b phi isHead).fresh, (sound.head b phi isHead).joins⟩

theorem Sound.take_all (sound : Sound q s heads tails r) (lt : b < q.blocks.size) :
    (r.proc.block b).insts.take (r.proc.block b).insts.length =
      (heads b).toList.map Inst.phi ++ tails b := by
  rw [take_length]
  exact sound.insts b lt

theorem Fresh.eq_none (fresh : Fresh s heads) (noJoin : s.joins.contains b = false) :
    heads b = none := by
  cases isHead : heads b with
  | none => rfl
  | some phi =>
    rw [(fresh b phi isHead).2] at noJoin
    cases noJoin

/-- The last definition ahead of a point, with the phi at the head of the block. -/
theorem Fresh.last_eq (fresh : Fresh s heads) (b : BlockId) (front : List Inst) :
    s.last ((heads b).toList.map Inst.phi ++ front) =
      (s.last front).or ((heads b).map Phi.dst) := by
  rw [Scope.last_append]
  congr 1
  cases isHead : heads b with
  | none => rfl
  | some phi => simp [Scope.last, Inst.defs, (fresh b phi isHead).1]

theorem Extends.last_some (extends_ : Extends heads heads') (fresh : Fresh s heads)
    (fresh' : Fresh s heads') {y : VarId}
    (isLast : s.last ((heads b).toList.map Inst.phi ++ front) = some y) :
    s.last ((heads' b).toList.map Inst.phi ++ front) = some y := by
  rw [fresh.last_eq] at isLast
  rw [fresh'.last_eq]
  cases isFront : s.last front with
  | some z => rwa [isFront] at isLast
  | none =>
    rw [isFront, Option.none_or, Option.map_eq_some_iff] at isLast
    obtain ⟨phi, isHead, rfl⟩ := isLast
    obtain ⟨phi', isHead', dst⟩ := extends_ b phi isHead
    rw [isHead', Option.none_or, Option.map_some, dst]

theorem Fresh.last_none (fresh : Fresh s heads) (fresh' : Fresh s heads')
    (isNone : s.last ((heads b).toList.map Inst.phi ++ front) = none)
    (noJoin : s.joins.contains b = false) :
    s.last ((heads' b).toList.map Inst.phi ++ front) = none := by
  rw [fresh.last_eq, Option.or_eq_none_iff] at isNone
  rw [fresh'.last_eq, isNone.1, Option.none_or, fresh'.eq_none noJoin, Option.map_none]

theorem Extends.reaches (extends_ : Extends heads heads') (fresh : Fresh s heads)
    (fresh' : Fresh s heads') {x : VarId}
    (reaches : s.Reaches (s.ends heads tails) b
      (s.last ((heads b).toList.map Inst.phi ++ front)) x) :
    s.Reaches (s.ends heads' tails) b (s.last ((heads' b).toList.map Inst.phi ++ front)) x :=
  reaches.mono (fun _ _ => extends_.last_some fresh fresh') (fun _ => fresh.last_none fresh')
    (fun _ => extends_.last_some fresh fresh') (fresh.last_none fresh')

/-! ## Placing a phi -/

theorem Sound.mint (sound : Sound q s heads tails r) : Sound q s heads tails r.mint where
  var := sound.var
  tree := sound.tree
  joins := sound.joins
  graph := sound.graph.trans (sameBlocks_mint r).padded.graph
  args := sound.args
  below := sound.below
  base := by
    rw [nextVar_mint]
    exact Nat.le_succ_of_le sound.base
  fresh x inside := by
    rw [nextVar_mint] at inside
    change (r.fresh.insert r.proc.nextVar).contains x = true ↔ _
    rw [IndexSet.contains_insert, Bool.or_eq_true, decide_eq_true_eq]
    by_cases isNew : r.proc.nextVar = x
    · exact ⟨fun _ => isNew ▸ sound.base, fun _ => .inr isNew⟩
    · rw [or_iff_left isNew]
      exact sound.fresh x (Nat.lt_of_le_of_ne (Nat.le_of_lt_succ inside) (Ne.symm isNew))
  old u isOld := by
    rw [var_mint, if_neg (Nat.ne_of_lt (Nat.lt_of_lt_of_le isOld sound.base))]
    exact sound.old u isOld
  new x isFresh inside := by
    rw [nextVar_mint] at inside
    rw [Procedure.web?, var_mint]
    by_cases isNew : x = r.proc.nextVar
    · rw [if_pos isNew, sound.var, sound.old s.var sound.below]
      exact ⟨rfl, rfl⟩
    · rw [if_neg isNew]
      exact sound.new x isFresh (Nat.lt_of_le_of_ne (Nat.le_of_lt_succ inside) isNew)
  insts b lt := sound.insts b lt
  bound b lt i mem d isDef := by
    rw [nextVar_mint]
    exact Nat.lt_succ_of_lt (sound.bound b lt i mem d isDef)
  head := sound.head

/-- The state once a block has another placed phi, or other instructions behind it. -/
theorem Sound.recode (sound : Sound q s heads tails r) (lt : b < q.blocks.size) (head : Option Phi)
    (tail : List Inst) {n : Nat}
    (only : ∀ block : Block, f block = { block with insts := (f block).insts })
    (isCode : (f (r.proc.block b)).insts = head.toList.map Inst.phi ++ tail)
    (bound : ∀ i ∈ head.toList.map Inst.phi ++ tail, ∀ d ∈ i.defs, d < r.proc.nextVar)
    (isHead : ∀ phi, head = some phi → Head q s tail b phi) :
    Sound q s (update heads b head) (update tails b tail)
      { r with proc := r.proc.modifyBlock b f, phis := n } := by
  have here : code (update heads b head) (update tails b tail) b =
      head.toList.map Inst.phi ++ tail := by
    rw [code, update_self, update_self]
  have elsewhere {c : BlockId} (other : c ≠ b) :
      code (update heads b head) (update tails b tail) c = code heads tails c := by
    rw [code, update_of_ne other, update_of_ne other, code]
  refine ⟨sound.var, sound.tree, sound.joins, sound.graph.trans (sameGraph_modifyBlock _ b only),
    sound.args, sound.below, sound.base, sound.fresh, sound.old, sound.new, fun c inside => ?_,
    fun c inside i mem => ?_, fun c phi isPhi => ?_⟩ <;> by_cases same : c = b
  · subst same
    change (Procedure.block (Procedure.modifyBlock _ _ _) c).insts = _
    rw [block_modifyBlock, sound.graph.size, if_pos ⟨rfl, lt⟩, here]
    exact isCode
  · change (Procedure.block (Procedure.modifyBlock _ _ _) c).insts = _
    rw [block_modifyBlock, if_neg fun both => same both.1.symm, elsewhere same]
    exact sound.insts c inside
  · subst same
    exact bound i (here ▸ mem)
  · exact sound.bound c inside i (elsewhere same ▸ mem)
  · subst same
    rw [update_self] at isPhi ⊢
    exact isHead phi isPhi
  · rw [update_of_ne same] at isPhi ⊢
    exact sound.head c phi isPhi

private theorem Sound.withPhi (sound : Sound q s heads tails r) (lt : b < q.blocks.size)
    (isJoin : s.joins.contains b = true) (needed : s.need b) (noHead : heads b = none) :
    Sound q s (update heads b (some (r.emptyPhi b))) tails (r.withPhi b) := by
  have minted := sound.mint
  have insts := minted.insts b lt
  rw [code, noHead] at insts
  have placed : Sound q s (update heads b (some (r.emptyPhi b))) (update tails b (tails b))
      (r.withPhi b) := by
    refine minted.recode lt (some (r.emptyPhi b)) (tails b) (fun _ => rfl) (congrArg (_ :: ·) insts)
      (fun i mem d isDef => ?_) ?_
    · rcases mem_cons.mp mem with rfl | inTail
      · rw [mem_singleton.mp isDef, nextVar_mint]
        exact Nat.lt_succ_self _
      · exact minted.bound b lt i (mem_append_right _ inTail) d isDef
    · rintro _ ⟨⟩
      refine ⟨isJoin, needed, sound.base, rfl, ?_, fun i mem isDef => ?_⟩
      · rw [emptyPhi, length_map, minted.graph.preds]
      · exact Nat.lt_irrefl _ (sound.bound b lt i (mem_append_right _ mem) _ isDef)
  rwa [update_eq_self] at placed

/-! ## Filling a phi -/

theorem setArg_of_not_mem {i : Inst} (absent : dst ∉ i.defs) (slot : Nat)
    (value : VarId) : setArg dst slot value i = i := by
  cases i with
  | phi node => exact congrArg Inst.phi (if_neg fun same => absent (mem_singleton.mpr same.symm))
  | _ => rfl

/-- What a placed phi has as arguments does not matter to the definitions. -/
theorem defs_update (isHead : heads b = some phi) (dst : phi'.dst = phi.dst)
    (c : BlockId) : (code (update heads b (some phi')) tails c).map Inst.defs =
      (code heads tails c).map Inst.defs := by
  by_cases same : c = b
  · subst same
    rw [code, code, update_self, isHead]
    simp [Inst.defs, dst]
  · rw [code, code, update_of_ne same]

private theorem ends_update (isHead : heads b = some phi) (dst : phi'.dst = phi.dst) :
    s.ends (update heads b (some phi')) tails = s.ends heads tails :=
  funext fun c => Scope.last_congr (defs_update isHead dst c)

theorem Extends.update (same : ∀ phi, heads b = some phi → phi'.dst = phi.dst) :
    Extends heads (update heads b (some phi')) := by
  intro c phi isHead
  by_cases here : c = b
  · subst here
    exact ⟨phi', update_self .., same phi isHead⟩
  · exact ⟨phi, (update_of_ne here ..).trans isHead, rfl⟩

theorem Extends.setSlot (isHead : heads b = some phi) (slot : Nat) (value : VarId) :
    Extends heads (Function.update heads b (some (withArg phi slot value))) :=
  .update fun _ isHead' => Option.some.inj (isHead.symm.trans isHead') ▸ rfl

theorem Sound.setSlot (sound : Sound q s heads tails r) (lt : b < q.blocks.size)
    (isHead : heads b = some phi)
    (only : ∀ block : Block, f block = { block with insts := (f block).insts })
    (isCode : (f (r.proc.block b)).insts = .phi (withArg phi slot value) :: tails b) :
    Sound q s (update heads b (some (withArg phi slot value))) tails
      { r with proc := r.proc.modifyBlock b f } := by
  have head := sound.head b phi isHead
  have set := sound.recode (n := r.phis) lt (some (withArg phi slot value)) (tails b) only isCode
    (fun i mem d isDef => ?_) ?_
  · rwa [update_eq_self] at set
  · rcases mem_cons.mp mem with rfl | inTail
    · exact sound.bound b lt (.phi phi) (by rw [code, isHead]; exact mem_cons_self) d isDef
    · exact sound.bound b lt i (mem_append_right _ inTail) d isDef
  · rintro _ ⟨⟩
    exact ⟨head.joins, head.needed, head.fresh, head.inRegister, length_set.trans head.arity,
      head.absent⟩

private theorem Sound.setPhiArg (sound : Sound q s heads tails r) (lt : b < q.blocks.size)
    (isHead : heads b = some phi) (slot : Nat) (value : VarId) :
    Sound q s (update heads b (some (withArg phi slot value))) tails
      (r.setPhiArg b phi.dst slot value) := by
  refine sound.setSlot lt isHead (fun _ => rfl) ?_
  change (r.proc.block b).insts.map _ = _
  rw [sound.insts b lt, code, isHead, map_append]
  have others : (tails b).map (setArg phi.dst slot value) = (tails b).map id :=
    map_congr_left fun i mem =>
      setArg_of_not_mem ((sound.head b phi isHead).absent i mem) slot value
  rw [others, map_id]
  simp [setArg, withArg]

theorem Filled.mono {waiting' : BlockId → Nat → Prop} (filled : Filled q s heads tails waiting)
    (more : ∀ c slot, waiting c slot → waiting' c slot) : Filled q s heads tails waiting' :=
  fun c lt phi isHead slot pred isPred notWaiting =>
    filled c lt phi isHead slot pred isPred fun early => notWaiting (more c slot early)

/-- An argument that reaches the end of its predecessor is not waited for any more. -/
theorem Filled.setSlot (filled : Filled q s heads tails waiting) (isHead : heads b = some phi)
    (arity : phi.args.length = (q.block b).preds.length)
    {pred : BlockId} (isPred : (q.block b).preds[slot]? = some pred)
    (reaches : s.ReachesEnd (s.ends heads tails) pred value) :
    Filled q s (update heads b (some (withArg phi slot value))) tails
      (fun c k => waiting c k ∧ ¬(c = b ∧ k = slot)) := by
  have dst : (withArg phi slot value).dst = phi.dst := rfl
  intro c lt phi' isHead' k pred' isPred' notWaiting
  rw [ends_update isHead dst]
  by_cases same : c = b
  · subst same
    rw [update_self, Option.some.injEq] at isHead'
    subst isHead'
    by_cases here : k = slot
    · subst here
      rw [isPred, Option.some.injEq] at isPred'
      subst isPred'
      have inRange : k < phi.args.length := by
        rw [arity]
        exact (List.getElem?_eq_some_iff.mp isPred).1
      exact ⟨value, getElem?_set_self inRange, reaches⟩
    · obtain ⟨x, isArg, reachesEnd⟩ := filled c lt phi isHead k pred' isPred' fun early =>
        notWaiting ⟨early, fun both => here both.2⟩
      exact ⟨x, (getElem?_set_ne (Ne.symm here)).trans isArg, reachesEnd⟩
  · rw [update_of_ne same] at isHead'
    exact filled c lt phi' isHead' k pred' isPred' fun early =>
      notWaiting ⟨early, fun both => same both.1⟩

/-! ## The search -/

/-- Blocks without a placed phi. -/
def missing (q : Procedure) (heads : BlockId → Option Phi) :
    Nat := q.blockIds.countP fun b => (heads b).isNone

/-- Steps that a search from a block can take: each places a phi or climbs the dominator tree. -/
def room (q : Procedure) (heads : BlockId → Option Phi) (b : BlockId) : Nat :=
  missing q heads * (q.blocks.size + 1) + DomTree.headroom q b

theorem missing_le (q : Procedure) (heads : BlockId → Option Phi) :
    missing q heads ≤ q.blocks.size := by
  have atMost := countP_le_length (p := fun b => (heads b).isNone) (l := q.blockIds)
  rwa [Procedure.blockIds, length_range] at atMost

private theorem Extends.isNone (extends_ : Extends heads heads') {c : BlockId}
    (none : (heads' c).isNone = true) : (heads c).isNone = true := by
  cases isHead : heads c with
  | none => rfl
  | some phi =>
    obtain ⟨phi', isHead', -⟩ := extends_ c phi isHead
    rw [isHead'] at none
    cases none

theorem Extends.missing_le (extends_ : Extends heads heads') : missing q heads' ≤ missing q heads :=
  countP_mono_left fun _ _ => extends_.isNone

private theorem missing_update (lt : b < q.blocks.size) (noHead : heads b = none) (phi : Phi) :
    missing q (update heads b (some phi)) + 1 = missing q heads := by
  have isMember : b ∈ q.blockIds := mem_blockIds.mpr lt
  obtain ⟨front, back, split⟩ := append_of_mem isMember
  have nodup : q.blockIds.Nodup := nodup_range
  rw [split, nodup_append, nodup_cons] at nodup
  have others : ∀ list : List BlockId, b ∉ list →
      list.countP (fun c => (update heads b (some phi) c).isNone) = list.countP
        fun c => (heads c).isNone := by
    intro list absent
    refine countP_congr fun c mem => ?_
    have other : c ≠ b := fun same => absent (same ▸ mem)
    rw [update_of_ne other]
  rw [missing, missing, split, countP_append, countP_append, countP_cons, countP_cons,
    others front fun mem => nodup.2.2 b mem b mem_cons_self rfl, others back nodup.2.1.1,
    update_self, noHead]
  simp [Nat.add_assoc]

/-- A search from the end of a block ends within its steps. -/
def Ends (steps : Nat) (r : Repair) (b : BlockId) : Prop :=
  Searches r b (r.proc.block b).insts.length (r.reaching steps b (r.proc.block b).insts.length).1
    (r.reaching steps b (r.proc.block b).insts.length).2

/-- What a search leaves that looked for a definition behind some instructions of a block. -/
structure Found (q : Procedure) (s : Scope) (tails : BlockId → List Inst)
    (waiting : BlockId → Nat → Prop)
    (heads : BlockId → Option Phi) (r : Repair) (b : BlockId) (front : List Inst) (upTo : Nat)
    (found : VarId × Repair) (heads' : BlockId → Option Phi) : Prop where
  search : Searches r b upTo found.1 found.2
  sound : Sound q s heads' tails found.2
  extends_ : Extends heads heads'
  filled : Filled q s heads' tails waiting
  reaches : s.Reaches (s.ends heads' tails) b
    (s.last ((heads' b).toList.map Inst.phi ++ front)) found.1

/-- A search with so many steps finds the definition that reaches any point. -/
def Finds (q : Procedure) (s : Scope) (tails : BlockId → List Inst) (steps : Nat) : Prop :=
  ∀ (r : Repair) (heads : BlockId → Option Phi) (b : BlockId) (front : List Inst) (upTo : Nat)
    (waiting : BlockId → Nat → Prop), Sound q s heads tails r → Filled q s heads tails waiting →
    b < q.blocks.size →
    (r.proc.block b).insts.take upTo = (heads b).toList.map Inst.phi ++ front →
    (∀ i ∈ front, i ∈ tails b) → (s.last front = none → s.need b) → room q heads b < steps →
    ∃ heads', Found q s tails waiting heads r b front upTo (r.reaching steps b upTo) heads'

private theorem searches_join {upTo : Nat}
    (noDef : r.lastDefinition? ((r.proc.block b).insts.take upTo) = none)
    (isJoin : r.joins.contains b = true)
    (ends : ∀ (front : List BlockId) (pred : BlockId) (back : List BlockId),
      ((r.withPhi b).proc.block b).preds = front ++ pred :: back →
        Ends steps (front.zipIdx.foldl (fillArg steps b r.proc.nextVar) (r.withPhi b)) pred) :
    Searches r b upTo r.proc.nextVar (((r.withPhi b).proc.block b).preds.zipIdx.foldl
      (fillArg steps b r.proc.nextVar) (r.withPhi b)) := by
  generalize isPreds : ((r.withPhi b).proc.block b).preds = preds at ends ⊢
  let states (slot : Nat) : Repair :=
    (preds.take slot).zipIdx.foldl (fillArg steps b r.proc.nextVar) (r.withPhi b)
  let found (slot : Nat) : VarId × Repair := (states slot).reaching steps (preds.getD slot entry)
    ((states slot).proc.block (preds.getD slot entry)).insts.length
  have search : Searches r b upTo r.proc.nextVar
      (states ((r.withPhi b).proc.block b).preds.length) := by
    refine @Searches.join r b upTo states found noDef isJoin rfl (fun slot pred isPred => ?_)
      fun slot lt => ?_
    · rw [isPreds] at isPred
      obtain ⟨lt, isAt⟩ := List.getElem?_eq_some_iff.mp isPred
      have isSource : preds.getD slot entry = pred := by
        rw [getD_eq_getElem?_getD, isPred, Option.getD_some]
      have split : preds = preds.take slot ++ pred :: preds.drop (slot + 1) := by
        rw [← isAt, ← drop_eq_getElem_cons lt, take_append_drop]
      change Searches _ _ _ ((states slot).reaching steps (preds.getD slot entry) _).1
        ((states slot).reaching steps (preds.getD slot entry) _).2
      rw [isSource]
      exact ends _ pred _ split
    · rw [isPreds] at lt
      have isSource : preds.getD slot entry = preds[slot] := by
        rw [getD_eq_getElem?_getD, getElem?_eq_getElem lt, Option.getD_some]
      have isTake : (preds.take (slot + 1)).zipIdx =
          (preds.take slot).zipIdx ++ [(preds[slot], slot)] := by
        rw [take_succ_eq_append_getElem lt, zipIdx_append, length_take,
          Nat.min_eq_left (Nat.le_of_lt lt)]
        simp
      change (preds.take (slot + 1)).zipIdx.foldl _ _ = _
      rw [isTake, foldl_append]
      change fillArg _ _ _ (states slot) (preds[slot], slot) = _
      rw [← isSource]
      rfl
  have isLast : states ((r.withPhi b).proc.block b).preds.length =
      preds.zipIdx.foldl (fillArg steps b r.proc.nextVar) (r.withPhi b) := by
    change (preds.take _).zipIdx.foldl _ _ = _
    rw [isPreds, take_length]
  rwa [isLast] at search

/-- The arguments of a placed phi are found, from the first missing one on. -/
theorem Finds.fill (finds : Finds q s tails steps) (wf : q.WellFormed)
    (spreads : Spreads q s tails) (lt : b < q.blocks.size) (needed : s.need b)
    (rest : List BlockId) :
    ∀ {k : Nat} {r : Repair} {heads : BlockId → Option Phi} {phi : Phi}, Sound q s heads tails r →
      heads b = some phi → phi.dst = dst → (∀ j : Nat, rest[j]? = (q.block b).preds[k + j]?) →
      Filled q s heads tails (fun c slot => waiting c slot ∨ (c = b ∧ k ≤ slot)) →
      missing q heads * (q.blocks.size + 1) + q.blocks.size < steps →
      (∀ (front : List BlockId) (pred : BlockId) (back : List BlockId), rest =
        front ++ pred :: back → Ends steps ((front.zipIdx k).foldl (fillArg steps b dst) r) pred) ∧
      ∃ heads', Sound q s heads' tails ((rest.zipIdx k).foldl (fillArg steps b dst) r) ∧
        Extends heads heads' ∧ Filled q s heads' tails waiting := by
  induction rest with
  | nil =>
    intro k r heads phi sound isHead isDst isRest filled enough
    refine ⟨fun front pred back isSplit => absurd isSplit (by simp), heads, sound, .refl _,
      fun c inside phi' isHead' slot pred isPred notWaiting => ?_⟩
    refine filled c inside phi' isHead' slot pred isPred ?_
    rintro (early | ⟨rfl, above⟩)
    · exact notWaiting early
    · have absent := isRest (slot - k)
      rw [Nat.add_sub_cancel' above, isPred] at absent
      cases absent
  | cons pred rest ih =>
    intro k r heads phi sound isHead isDst isRest filled enough
    have isPred : (q.block b).preds[k]? = some pred := (isRest 0).symm
    have inside : pred < q.blocks.size := wf.lt_of_mem_preds lt (mem_of_getElem? isPred)
    have headroom := DomTree.headroom_le q pred
    obtain ⟨heads₁, ends, sound₁, extends₁, filled₁, reaches⟩ := finds r heads pred (tails pred) _ _
      sound filled inside (sound.take_all inside) (fun _ => id)
      (spreads.pred b pred needed (mem_of_getElem? isPred)) (by rw [room]; omega)
    obtain ⟨phi₁, isHead₁, isDst₁⟩ := extends₁ b phi isHead
    have ends : Ends steps r pred := ends
    generalize isFound : r.reaching steps pred (r.proc.block pred).insts.length =
      found at sound₁ reaches
    have stepped : fillArg steps b dst r (pred, k) = found.2.setPhiArg b dst k found.1 := by
      rw [← isFound]
      rfl
    have sound₂ := sound₁.setPhiArg lt isHead₁ k found.1
    rw [isDst₁, isDst, ← stepped] at sound₂
    have extends₂ := Extends.setSlot isHead₁ k found.1
    have filled₂ : Filled q s (update heads₁ b (some (withArg phi₁ k found.1))) tails
        (fun c slot => waiting c slot ∨ (c = b ∧ k + 1 ≤ slot)) := by
      refine (filled₁.setSlot isHead₁ (sound₁.head b phi₁ isHead₁).arity isPred reaches).mono ?_
      rintro c slot ⟨early | ⟨rfl, above⟩, other⟩
      · exact .inl early
      · exact .inr ⟨rfl, Nat.lt_of_le_of_ne above fun same => other ⟨rfl, same.symm⟩⟩
    have fewer := (extends₁.trans extends₂).missing_le (q := q)
    obtain ⟨allEnd, heads₃, sound₃, extends₃, filled₃⟩ :=
      ih sound₂ (update_self ..) (isDst₁.trans isDst) (fun j => by
        have later := isRest (j + 1)
        rw [getElem?_cons_succ] at later
        rw [later]
        congr 1
        omega) filled₂ (by
        have grows := Nat.mul_le_mul_right (q.blocks.size + 1) fewer
        omega)
    refine ⟨fun front pred' back isSplit => ?_, heads₃, sound₃,
      extends₁.trans (extends₂.trans extends₃), filled₃⟩
    cases front with
    | nil =>
      obtain ⟨rfl, -⟩ := List.cons.inj isSplit
      exact ends
    | cons first front =>
      obtain ⟨rfl, isRest'⟩ := List.cons.inj isSplit
      exact allEnd front pred' back isRest'

private theorem Sound.lastDefinition? (sound : Sound q s heads tails r) (lt : b < q.blocks.size)
    {insts : List Inst} (inCode : ∀ i ∈ insts, i ∈ code heads tails b) :
    r.lastDefinition? insts = s.last insts := by
  rw [Repair.lastDefinition?, Scope.last, ← head?_filterMap, ← head?_filterMap]
  refine congrArg head? (filterMap_congr fun i mem => find?_congr fun d isDef => ?_)
  rw [Bool.eq_iff_iff, decide_eq_true_eq]
  exact sound.fresh d (sound.bound b lt i (inCode i (mem_reverse.mp mem)) d isDef)

/-- The search finds what reaches its point. -/
theorem finds (wf : q.WellFormed) (ordered : q.Ordered) (dom : s.tree.Exact q)
    (spreads : Spreads q s tails) (steps : Nat) : Finds q s tails steps := by
  induction steps with
  | zero =>
    intro r heads b front upTo waiting sound filled lt isFront inTail needed enough
    exact absurd enough (Nat.not_lt_zero _)
  | succ steps ih =>
    intro r heads b front upTo waiting sound filled lt isFront inTail needed enough
    have inCode : ∀ i ∈ (heads b).toList.map Inst.phi ++ front, i ∈ code heads tails b := by
      intro i mem
      rw [code, mem_append]
      exact (mem_append.mp mem).imp_right (inTail i)
    have looked : r.lastDefinition? ((r.proc.block b).insts.take upTo) =
        s.last ((heads b).toList.map Inst.phi ++ front) := by
      rw [isFront, sound.lastDefinition? lt inCode]
    rw [reaching_succ, looked]
    cases isLast : s.last ((heads b).toList.map Inst.phi ++ front) with
    | some v =>
      refine ⟨heads, .here (looked.trans isLast), sound, .refl _, filled, ?_⟩
      rw [isLast]
      exact .here
    | none =>
      have noneAhead := looked.trans isLast
      dsimp only
      rw [sound.isFresh.last_eq, Option.or_eq_none_iff, Option.map_eq_none_iff] at isLast
      obtain ⟨noDef, noHead⟩ := isLast
      have needed := needed noDef
      rw [sound.joins, sound.tree, sound.var]
      split
      · rename_i isJoin
        have placed := sound.withPhi lt isJoin needed noHead
        have fewer := missing_update lt noHead (r.emptyPhi b)
        have extended : Extends heads (update heads b (some (r.emptyPhi b))) :=
          .update fun phi isHead => absurd (noHead.symm.trans isHead) (by simp)
        have preds : ((r.withPhi b).proc.block b).preds = (q.block b).preds := placed.graph.preds b
        have open_ : Filled q s (update heads b (some (r.emptyPhi b))) tails
            (fun c slot => waiting c slot ∨ (c = b ∧ 0 ≤ slot)) := by
          intro c inside phi isHead slot pred isPred notWaiting
          by_cases same : c = b
          · exact absurd (.inr ⟨same, Nat.zero_le _⟩) notWaiting
          · rw [update_of_ne same] at isHead
            obtain ⟨x, isArg, reaches⟩ := filled c inside phi isHead slot pred isPred
              fun early => notWaiting (.inl early)
            exact ⟨x, isArg, extended.reaches sound.isFresh placed.isFresh reaches⟩
        obtain ⟨allEnd, heads', sound', extends', filled'⟩ := ih.fill wf spreads
          lt needed (q.block b).preds (k := 0) placed (update_self ..) rfl
          (fun j => by rw [Nat.zero_add]) open_ (by
            rw [room, ← fewer, Nat.add_mul] at enough
            omega)
        have search := searches_join noneAhead (sound.joins ▸ isJoin)
          fun front pred back split => allEnd front pred back (preds ▸ split)
        rw [preds] at search ⊢
        refine ⟨heads', search, sound', extended.trans extends', filled', ?_⟩
        obtain ⟨phi', isHead', dst⟩ := extends' b _ (update_self ..)
        rw [sound'.isFresh.last_eq, noDef, isHead', Option.none_or, Option.map_some, dst]
        exact .here
      · rename_i noJoin
        rw [Bool.not_eq_true] at noJoin
        have noJoin' : r.joins.contains b = false := sound.joins ▸ noJoin
        cases isParent : s.tree.idom? b with
        | none =>
          refine ⟨heads, sound.var ▸ .root noneAhead noJoin' (sound.tree ▸ isParent), sound,
            .refl _, filled, ?_⟩
          rw [sound.isFresh.last_eq, noDef, noHead]
          exact .root noJoin isParent
        | some parent =>
          obtain ⟨inside, later⟩ := dom.parent_lt isParent
          obtain ⟨heads', search, sound', extends', filled', reaches⟩ := ih r heads parent
            (tails parent) _ waiting sound filled inside (sound.take_all inside) (fun _ => id)
            (spreads.parent b parent needed noJoin isParent) (by
              have first := ordered.postIndex_lt lt
              have second := ordered.postIndex_lt inside
              rw [room, DomTree.headroom] at enough ⊢
              omega)
          refine ⟨heads', .above noneAhead noJoin' (sound.tree ▸ isParent) search, sound', extends',
            filled', ?_⟩
          rw [sound'.isFresh.last_eq, noDef, sound'.isFresh.eq_none noJoin]
          exact .above noJoin isParent reaches

/-- The steps that a repair allows suffice. -/
theorem room_lt (q : Procedure) (heads : BlockId → Option Phi) (b : BlockId) :
    room q heads b < (q.blocks.size + 1) * (q.blocks.size + 2) := by
  have few := Nat.mul_le_mul_right (q.blocks.size + 1) (missing_le q heads)
  have headroom := DomTree.headroom_le q b
  have square : (q.blocks.size + 1) * (q.blocks.size + 2) =
      q.blocks.size * (q.blocks.size + 1) + (q.blocks.size + 1) + (q.blocks.size + 1) := by
    rw [Nat.mul_comm, Nat.add_mul, Nat.two_mul, ← Nat.add_assoc]
  rw [room]
  omega

end Repair

end ArmBackend
