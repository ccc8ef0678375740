import ArmBackend.Proofs.FlowGraph.Landing
import ArmBackend.TargetForm

/-!
Contract: what lowering makes of an instruction, and that it keeps flow graph and version
certificate.

Each instruction becomes a run of instructions whose last does its work, with operands that the
target can take: the first in a variable, the second in a variable or an immediate, or both known as
words. Those before it put literals into temporaries or store call arguments, so they read what the
instruction read, or temporaries.

Owns: what each lowering step emits, the shape of operands, and the induction over instructions and
blocks.
Does not own: that the emitted code computes the same.
-/

namespace ArmBackend

open List Procedure

variable {r : Procedure} {v x : VarId}

/-! ## Operands -/

/-- Can the operand be the second one of an instruction? -/
def Operand.isSecond (o : Operand) : Bool := o.var?.isSome || TargetForm.fitsSecond o

/-- Does the target take the operands of the instruction where they are? -/
def Inst.fits : Inst → Bool
  | .branch _ left right _ =>
    (left.isConstant && right.isConstant) || (left.var?.isSome && right.isSecond)
  | .binary _ op left right =>
    match left.word?, right.word? with
    | some x, some y => (op.eval? x y).isSome
    | _, _ => left.var?.isSome && match op with
      | .div => false
      | .mul => right.var?.isSome
      | .add | .sub | .rsb => right.isSecond
  | .negate _ src => src.isConstant || src.var?.isSome
  | .load _ base _ => base.var?.isSome
  | .store _ _ src => src.var?.isSome
  | _ => true

/-- What an instruction made from another has of it: the field it accesses, the procedure it calls
and the slot it uses. -/
def Inst.Makes (i : Inst) : Inst → Prop
  | .load _ base field => ∃ dst object, i = .load dst object field ∧ ∀ v, object = .var v →
    base = .var v
  | .store base field _ => ∃ src, i = .store base field src
  | .call _ (.procedure name) _ => ∃ dst args, i = .call dst (.procedure name) args
  | .spill v => i = .spill v
  | .reload v => i = .reload v
  | _ => True

namespace TargetForm

theorem range'_append_of_le {low mid high : Nat} (first : low ≤ mid) (second : mid ≤ high) :
    List.range' low (mid - low) ++ List.range' mid (high - mid) = List.range' low (high - low) := by
  obtain ⟨a, rfl⟩ := Nat.exists_eq_add_of_le first
  obtain ⟨b, rfl⟩ := Nat.exists_eq_add_of_le second
  rw [Nat.add_sub_cancel_left, Nat.add_sub_cancel_left, Nat.add_assoc, Nat.add_sub_cancel_left,
    range'_append_1]

variable {p q : Procedure} {α β : Type} {reads later : List VarId}
  {i j : Inst} {done : List BlockId} {codes : List (List Inst)}

theorem word?_eq_none_of_var {o : Operand} (isVar : o.var?.isSome = true) : o.word? = none := by
  cases o with
  | var v => rfl
  | _ => cases isVar

private theorem fits_binary {dst : VarId} {op : BinaryOp} {left right : Operand}
    (isVar : left.var?.isSome = true) (notDiv : op ≠ .div)
    (mul : op = .mul → right.var?.isSome = true)
    (isSecond : right.isSecond = true) : (Inst.binary dst op left right).fits = true := by
  simp only [Inst.fits, word?_eq_none_of_var isVar]
  cases op with
  | div => exact absurd rfl notDiv
  | mul => simp [isVar, mul rfl]
  | _ => simp [isVar, isSecond]

/-! ## Steps of lowering -/

/-- The second procedure has more temporaries than the first. -/
structure Extends (p q : Procedure) : Prop where
  count : p.nextVar ≤ q.nextVar
  old : ∀ v ∈ p.locals, v ∈ q.locals
  new : ∀ v, p.nextVar ≤ v → v < q.nextVar → v ∈ q.locals
  types : ∀ v < p.nextVar, (q.var v).ty = (p.var v).ty
  regs : ∀ v, q.reg? v = p.reg? v

theorem Extends.refl (p : Procedure) : Extends p p :=
  ⟨Nat.le_refl _, fun _ => id, fun _ above below => absurd below (Nat.not_lt.mpr above),
    fun _ _ => rfl, fun _ => rfl⟩

theorem Extends.trans (first : Extends p q) (second : Extends q r) : Extends p r where
  count := Nat.le_trans first.count second.count
  old v mem := second.old v (first.old v mem)
  new v above below := by
    rcases Nat.lt_or_ge v q.nextVar with early | late
    · exact second.old v (first.new v above early)
    · exact second.new v late below
  types v below := (second.types v (Nat.lt_of_lt_of_le below first.count)).trans
    (first.types v below)
  regs v := (second.regs v).trans (first.regs v)

theorem Extends.addLocal (p : Procedure) (name : String) (ty : Ty) :
    Extends p (p.addLocal name ty) where
  count := by
    rw [nextVar_addLocal]
    exact Nat.le_succ _
  old v mem := mem_append_left _ mem
  new v above below := by
    rw [nextVar_addLocal] at below
    obtain rfl := Nat.le_antisymm (Nat.le_of_lt_succ below) above
    exact mem_append_right _ (mem_singleton.mpr rfl)
  types v below := by rw [var_addLocal, if_neg (Nat.ne_of_lt below)]
  regs := p.reg?_newVar name ty

/-- The second procedure is the first with more temporaries. -/
structure Grown (p q : Procedure) : Prop extends Extends p q where
  rest : q = { p with vars := q.vars, locals := q.locals }

theorem Grown.trans (first : Grown p q) (second : Grown q r) : Grown p r :=
  ⟨first.toExtends.trans second.toExtends, by rw [second.rest, first.rest]⟩

/-- A step that adds temporaries only, with what holds of its result and of the numbers of
temporaries before and after. -/
def Lowers (m : StateM Procedure α) (result : VarId → VarId → α → Prop) : Prop :=
  ∀ p, Grown p (m.run p).2 ∧ result p.nextVar (m.run p).2.nextVar (m.run p).1

theorem Lowers.pure {result : VarId → VarId → α → Prop} {a : α} (holds : ∀ low, result low low a) :
    Lowers (Pure.pure a) result :=
  fun p => ⟨⟨.refl p, rfl⟩, holds p.nextVar⟩

theorem Lowers.bind {m : StateM Procedure α} {next : α → StateM Procedure β}
    {first : VarId → VarId → α → Prop} {result : VarId → VarId → β → Prop} (lowers : Lowers m first)
    (rest : ∀ {a low mid}, first low mid a → Lowers (next a) fun start high b => start = mid →
      result low high b) :
    Lowers (m >>= next) result := by
  intro p
  obtain ⟨grown, holds⟩ := lowers p
  obtain ⟨grown', holds'⟩ := rest holds (m.run p).2
  exact ⟨grown.trans grown', holds' rfl⟩

theorem Lowers.imp {m : StateM Procedure α} {few many : VarId → VarId → α → Prop}
    (lowers : Lowers m few)
    (implies : ∀ {low high a}, few low high a → many low high a) : Lowers m many :=
  fun p => ⟨(lowers p).1, implies (lowers p).2⟩

private theorem lowers_temporary (base : VarId) (ty : Ty) :
    Lowers (temporary base ty) fun low high t => t = low ∧ high = low + 1 :=
  fun p => ⟨⟨.addLocal p _ _, rfl⟩, rfl, nextVar_addLocal p _ _⟩

/-- Moves that read some variables and after which others can be read: literals are put into
temporaries, numbered in order, and arguments of calls are stored. -/
inductive Prepares : List VarId → VarId → VarId → List Inst → List VarId → Prop
  | nil (reads : List VarId) (low : VarId) : Prepares reads low low [] reads
  | assign {o : Operand} (literal : o.var? = none) (t : VarId) :
      Prepares [] t (t + 1) [.assign t o] [t]
  | stackArg {reads : List VarId} {low high v : VarId} {code : List Inst}
      (prepares : Prepares reads low high code [v]) (index : Nat) :
      Prepares reads low high (code ++ [.stackArg v index]) []
  | append {reads reads' later later' : List VarId} {low mid high : VarId} {code code' : List Inst}
      (first : Prepares reads low mid code later) (second : Prepares reads' mid high code' later') :
      Prepares (reads ++ reads') low high (code ++ code') (later ++ later')

theorem lowers_materialize (base : VarId) (o : Operand) :
    Lowers (materialize base o) fun low high result =>
      Prepares o.var?.toList low high result.1 [result.2] ∧ ∀ v, o = .var v → result.2 = v := by
  have literal : o.var? = none → Lowers (do
      let tmp ← temporary base ((← get).operandTy o)
      return ([Inst.assign tmp o], tmp)) fun low high result =>
        Prepares o.var?.toList low high result.1 [result.2] ∧ ∀ v, o = .var v → result.2 = v := by
    intro none p
    refine ⟨⟨.addLocal p _ _, rfl⟩, ?_, fun v isVar => by rw [isVar] at none; cases none⟩
    change Prepares _ p.nextVar (p.addLocal _ _).nextVar [.assign p.nextVar o] [p.nextVar]
    rw [nextVar_addLocal, none]
    exact .assign none p.nextVar
  cases o with
  | var v => exact .pure fun low => ⟨.nil [v] low, fun _ same => Operand.var.inj same⟩
  | str text => exact literal rfl
  | int word => exact literal rfl
  | bool value => exact literal rfl
  | null => exact literal rfl

theorem lowers_second (base : VarId) (o : Operand) : Lowers (second base o) fun low high result =>
      Prepares o.var?.toList low high result.1 result.2.var?.toList ∧ result.2.isSecond = true := by
  unfold second
  split
  · rename_i fits
    exact .pure fun low => ⟨.nil _ low, by rw [Operand.isSecond, fits, Bool.or_true]⟩
  · refine (lowers_materialize base o).bind fun known => .pure ?_
    rintro _ rfl
    exact ⟨known.1, rfl⟩

private theorem Lowers.mapM {f : α → StateM Procedure β} {reads : α → List VarId}
    {code : β → List Inst} {later : β → List VarId} (list : List α)
    (lowers : ∀ a, Lowers (f a) fun low high b => Prepares (reads a) low high (code b) (later b)) :
    Lowers (list.mapM f) fun low high results =>
      Prepares (list.flatMap reads) low high (results.flatMap code) (results.flatMap later) := by
  induction list with
  | nil =>
    rw [mapM_nil]
    exact .pure fun low => .nil [] low
  | cons a list ih =>
    rw [mapM_cons]
    refine (lowers a).bind fun first => ih.bind fun second => .pure ?_
    rintro _ rfl rfl
    exact first.append second

/-! ## Instructions -/

/-- The instruction comes from another and has its operands where the target takes them. -/
structure Made (i j : Inst) : Prop where
  fits : j.fits = true
  makes : i.Makes j

/-- The instruction does the work of another. -/
structure DoesWork (i j : Inst) : Prop extends Made i j where
  isOrdinary : i.isOrdinary = true → j.isOrdinary = true
  exits : ∀ (p : Procedure) (b : Block), p.Exits b i → p.Exits b j

theorem Made.ordinary (made : Made i j) (was : i.isOrdinary = true)
    (isOrdinary : j.isOrdinary = true) : DoesWork i j := by
  refine ⟨made, fun _ => isOrdinary, fun p b exits => ?_⟩
  have isLast := exits.isTerminator
  rw [Inst.isTerminator_of_isInner (Inst.isInner_of_isOrdinary was)] at isLast
  cases isLast

/-- Code that takes the place of an instruction: moves, and then an instruction that does its work.
It defines the same, or a temporary for a result that is discarded. -/
inductive Replaces (i : Inst) (low : VarId) : VarId → List Inst → Prop
  | intro {reads : List VarId} {mid high : VarId} {front : List Inst} {last : Inst}
      (prepares : Prepares reads low mid front last.uses) (same : ∀ u, u ∈ reads ↔ u ∈ i.uses)
      (defs : high = mid ∧ last.defs = i.defs ∨ high = mid + 1 ∧ i.defs = [] ∧ last.defs = [mid])
      (does : DoesWork i last) : Replaces i low high (front ++ [last])

theorem Made.replaces (made : Made i i) (low : VarId) : Replaces i low low [i] :=
  .intro (.nil i.uses low) (fun _ => .rfl) (.inl ⟨rfl, rfl⟩) ⟨made, id, fun _ _ => id⟩

private theorem uses_call (dst : Option VarId) (callee : Callee) (vars : List VarId) :
    (Inst.call dst callee (vars.map Operand.var)).uses = vars := by
  simp [Inst.uses, Inst.operands, filterMap_map, Function.comp_def, Operand.var?]

/-- The arguments after the fourth are stored, and then the others put into variables. -/
theorem mem_args (args : List Operand) (u : VarId) :
    u ∈ ((args.drop registerArgs).zipIdx.reverse.flatMap fun arg => arg.1.var?.toList) ++
        (args.take registerArgs).flatMap (fun arg => arg.var?.toList) ↔
      u ∈ args.filterMap Operand.var? := by
  have stored : u ∈ ((args.drop registerArgs).zipIdx.reverse.flatMap fun arg => arg.1.var?.toList) ↔
      u ∈ (args.drop registerArgs).filterMap Operand.var? := by
    rw [← Traversal.flatMap_var?, mem_flatMap, mem_flatMap]
    refine ⟨fun ⟨arg, mem, isVar⟩ => ⟨arg.1, ?_, isVar⟩, fun ⟨o, mem, isVar⟩ => ?_⟩
    · exact fst_mem_of_mem_zipIdx (mem_reverse.mp mem)
    · obtain ⟨k, isAt⟩ := mem_iff_getElem?.mp mem
      exact ⟨(o, k), mem_reverse.mpr (mk_mem_zipIdx_iff_getElem?.mpr isAt), isVar⟩
  rw [mem_append, stored, Traversal.flatMap_var?, or_comm, ← mem_append, ← filterMap_append,
    take_append_drop]

/-- A call does the work of an instruction that has its arguments as operands. -/
theorem lowers_lowerCall {args : List Operand} {dst : Option VarId} {callee : Callee} (base : VarId)
    (uses : i.uses = args.filterMap Operand.var?) (defs : i.defs = dst.toList)
    (isOrdinary : i.isOrdinary = true) (makes : ∀ dst args, i.Makes (.call dst callee args)) :
    Lowers (lowerCall base dst callee args) (Replaces i) := by
  have store (arg : Operand × Nat) : Lowers (materialize base arg.1 >>= fun result =>
      Pure.pure (result.1 ++ [Inst.stackArg result.2 arg.2])) fun low high code =>
        Prepares arg.1.var?.toList low high code [] := by
    refine (lowers_materialize base arg.1).bind fun known => .pure ?_
    rintro _ rfl
    exact known.1.stackArg arg.2
  have pass (o : Operand) : Lowers (materialize base o) fun low high result =>
      Prepares o.var?.toList low high result.1 [result.2] :=
        (lowers_materialize base o).imp And.left
  refine (Lowers.mapM _ store).bind fun {stored low mid} first =>
    (Lowers.mapM _ pass).bind fun {passed start high} second => ?_
  have replaces : ∀ d final, final = high ∧ [d] = i.defs ∨ final = high + 1 ∧ i.defs = [] ∧
      [d] = [high] → start = mid → Replaces i low final (stored.flatten ++ passed.flatMap (·.1) ++
        [.call (some d) callee (passed.map fun arg => .var arg.2)]) := by
    rintro d final isDef rfl
    have isUses : (Inst.call (some d) callee (passed.map fun arg => .var arg.2)).uses =
        passed.map (·.2) := by
      refine Eq.trans ?_ (uses_call (some d) callee (passed.map (·.2)))
      rw [map_map]
      rfl
    have all := first.append second
    rw [flatMap_id', ← map_eq_flatMap, show (stored.flatMap fun _ => ([] : List VarId)) =
      [] by simp, nil_append, ← isUses] at all
    exact .intro all (fun u => uses ▸ mem_args args u) isDef
      (Made.ordinary ⟨rfl, makes _ _⟩ isOrdinary rfl)
  cases dst with
  | some d => exact .pure fun _ isEnd isStart => replaces d _ (.inl ⟨isEnd, defs.symm⟩) isStart
  | none =>
    refine (lowers_temporary base .void).bind fun isTemp => .pure fun _ isEnd isTop isStart => ?_
    exact replaces
      _ _ (.inr ⟨by rw [isEnd, isTemp.2, isTop], defs, by rw [isTemp.1, isTop]⟩) isStart

private theorem uses_binary (dst : VarId) (op : BinaryOp) (left right : Operand) :
    (Inst.binary dst op left right).uses = left.var?.toList ++ right.var?.toList := by
  simp [Inst.uses, Inst.operands, ← Traversal.flatMap_var?]

private theorem uses_branch (op : Comparison) (left right : Operand) (target : LabelId) :
    (Inst.branch op left right target).uses = left.var?.toList ++ right.var?.toList := by
  simp [Inst.uses, Inst.operands, ← Traversal.flatMap_var?]

private theorem orderBinary_spec (op : BinaryOp) (left right : Operand) :
    (op ≠ .div → (orderBinary op left right).1 ≠ .div) ∧ ∀ u,
      u ∈ (orderBinary op left right).2.1.var?.toList ++
        (orderBinary op left right).2.2.var?.toList ↔
        u ∈ left.var?.toList ++ right.var?.toList := by
  unfold orderBinary
  cases op with
  | mul | div => exact ⟨id, fun _ => .rfl⟩
  | _ =>
    dsimp only [swapped?]
    split
    · exact ⟨fun _ => by nofun, fun u => by rw [mem_append, or_comm, ← mem_append]⟩
    · exact ⟨id, fun _ => .rfl⟩

private theorem lowers_lowerBinary (base : VarId) (dst : VarId) (op : BinaryOp)
    (left right : Operand) :
    Lowers (lowerBinary base dst op left right) (Replaces (.binary dst op left right)) := by
  unfold lowerBinary
  dsimp only
  split
  · rename_i constant
    obtain ⟨isLeft, isRight, divides⟩ := constant
    obtain ⟨x, isX⟩ := Option.isSome_iff_exists.mp isLeft
    obtain ⟨y, isY⟩ := Option.isSome_iff_exists.mp isRight
    refine .pure (Made.replaces ⟨?_, True.intro⟩)
    simp only [Inst.fits, isX, isY]
    cases op with
    | div =>
      have nonzero : y ≠ 0 := fun zero => divides ⟨rfl, zero ▸ isY⟩
      simp [BinaryOp.eval?, nonzero]
    | _ => rfl
  · split
    · exact lowers_lowerCall base (by simp [Inst.uses, Inst.operands]) rfl rfl fun _ _ => True.intro
    · rename_i notDiv
      obtain ⟨notDiv', same⟩ := orderBinary_spec op left right
      generalize orderBinary op left right = ordered at notDiv' same
      obtain ⟨op', left', right'⟩ := ordered
      rw [← uses_binary dst op left right] at same
      refine (lowers_materialize base left').bind fun {first low mid} known => ?_
      have replaces {mid' high : VarId} {code : List Inst} {o : Operand}
          (second : Prepares right'.var?.toList mid' high code o.var?.toList)
          (isSecond : o.isSecond = true)
          (mul : op' = .mul → o.var?.isSome = true) (isMid : mid' = mid) :
          Replaces (.binary dst op left right) low high
          (first.1 ++ code ++ [.binary dst op' (.var first.2) o]) := by
        have all := known.1.append (isMid ▸ second)
        exact .intro (by rw [uses_binary]; exact all) same (.inl ⟨rfl, rfl⟩)
          (Made.ordinary ⟨fits_binary rfl (notDiv' notDiv) mul isSecond, True.intro⟩ rfl rfl)
      split
      · refine (lowers_materialize base right').bind fun known' => .pure ?_
        rintro _ rfl
        exact replaces known'.1 rfl fun _ => rfl
      · rename_i notMul
        refine (lowers_second base right').bind fun known' => .pure ?_
        rintro _ rfl
        exact replaces known'.1 known'.2 fun isMul => absurd isMul notMul

private theorem lowers_lowerBranch (base : VarId) (op : Comparison) (left right : Operand)
    (target : LabelId) :
    Lowers (lowerBranch base op left right target) (Replaces (.branch op left right target)) := by
  unfold lowerBranch
  split
  · rename_i constant
    exact .pure (Made.replaces ⟨by simp [Inst.fits, constant.1, constant.2], True.intro⟩)
  · have same : ∀ u, u ∈ (orderBranch op left right).2.1.var?.toList ++
        (orderBranch op left right).2.2.var?.toList ↔
        u ∈ (Inst.branch op left right target).uses := by
      intro u
      rw [uses_branch, orderBranch]
      split
      · rw [mem_append, or_comm, ← mem_append]
      · rfl
    generalize orderBranch op left right = ordered at same
    obtain ⟨op', left', right'⟩ := ordered
    refine (lowers_materialize base left').bind fun known =>
      (lowers_second base right').bind fun known' => .pure ?_
    rintro _ rfl rfl
    have all := known.1.append known'.1
    refine .intro (by rw [uses_branch]; exact all) same (.inl ⟨rfl, rfl⟩)
      ⟨⟨?_, True.intro⟩, nofun, fun _ _ => id⟩
    simp [Inst.fits, Operand.var?, known'.2]

private theorem lowers_lowerInst (base : VarId) (i : Inst) :
    Lowers (lowerInst base i) (Replaces i) := by
  cases i with
  | branch op left right target => exact lowers_lowerBranch base op left right target
  | binary dst op left right => exact lowers_lowerBinary base dst op left right
  | call dst callee args =>
    refine lowers_lowerCall base (by simp [Inst.uses, Inst.operands]) rfl rfl fun _ _ => ?_
    cases callee with
    | procedure name => exact ⟨dst, args, rfl⟩
    | external name => exact True.intro
  | negate dst src =>
    rw [lowerInst]
    split
    · rename_i constant
      exact .pure (Made.replaces ⟨by simp [Inst.fits, constant], True.intro⟩)
    · refine (lowers_materialize base src).bind fun known => .pure ?_
      rintro _ rfl
      exact .intro known.1 (by simp [Inst.uses, Inst.operands, ← Traversal.flatMap_var?])
        (.inl ⟨rfl, rfl⟩) (Made.ordinary ⟨by simp [Inst.fits, Operand.var?], True.intro⟩ rfl rfl)
  | load dst object field =>
    refine (lowers_materialize base object).bind fun known => .pure ?_
    rintro _ rfl
    exact .intro known.1 (by simp [Inst.uses, Inst.operands, ← Traversal.flatMap_var?])
      (.inl ⟨rfl, rfl⟩)
      (Made.ordinary ⟨rfl, ⟨dst, object, rfl, fun v isVar => by rw [known.2 v isVar]⟩⟩ rfl rfl)
  | store object field src =>
    refine (lowers_materialize base src).bind fun {_ _ high} known => .pure ?_
    rintro _ rfl
    -- The object stays readable while the stored operand is put into a variable.
    have both := known.1.append (.nil [object] _)
    rw [append_nil] at both
    exact .intro both (by simp [Inst.uses, Inst.operands, ← Traversal.flatMap_var?])
      (.inl ⟨rfl, rfl⟩) (Made.ordinary ⟨rfl, ⟨src, rfl⟩⟩ rfl rfl)
  | spill v | reload v => exact .pure (Made.replaces ⟨rfl, rfl⟩)
  | _ => exact .pure (Made.replaces ⟨rfl, True.intro⟩)

/-! ## Versions -/

/-- Numbers from `low` on, below `high`, are temporaries: each is its own source. -/
def Temps (vs : Versions) (low high : VarId) :
    Prop := ∀ t, low ≤ t → t < high → vs.source t = t ∧ vs.Set t

theorem Temps.left {vs : Versions} {low mid high : VarId} (temps : Temps vs low high)
    (le : mid ≤ high) : Temps vs low mid :=
  fun t above below => temps t above (Nat.lt_of_lt_of_le below le)

theorem Temps.right {vs : Versions} {low mid high : VarId} (temps : Temps vs low high)
    (le : low ≤ mid) : Temps vs mid high :=
  fun t above below => temps t (Nat.le_trans le above) below

/-- A variable that may be read, and whose source is below a bound. -/
def ReadableBelow (vs : Versions) (current : VersionMap) (bound : VarId) (u : VarId) : Prop :=
  vs.Readable current u ∧ vs.source u < bound

variable {vs : Versions} {low mid high : VarId} {current middle final : VersionMap}
  {code more : List Inst}

private theorem ReadableBelow.onwards {u : VarId} (readable : ReadableBelow vs current low u)
    (outside : ∀ x, x < low ∨ high ≤ x → final x = current x) (le : low ≤ high) :
    ReadableBelow vs final high u := by
  refine ⟨⟨readable.1.1, ?_⟩, Nat.lt_of_lt_of_le readable.2 le⟩
  rw [outside _ (.inl readable.2)]
  exact readable.1.2

namespace Prepares

section

variable (prepares : Prepares reads low high code later)

include prepares

theorem le : low ≤ high := by
  induction prepares with
  | nil => exact Nat.le_refl _
  | assign => exact Nat.le_succ _
  | stackArg _ _ ih => exact ih
  | append _ _ ih ih' => exact Nat.le_trans ih ih'

private theorem moves : ∀ j ∈ code, j.isOrdinary = true ∧ Made i j := by
  induction prepares with
  | nil => exact forall_mem_nil _
  | assign => exact forall_mem_singleton.mpr ⟨rfl, rfl, True.intro⟩
  | stackArg _ _ ih =>
    exact forall_mem_append.mpr ⟨ih, forall_mem_singleton.mpr ⟨rfl, rfl, True.intro⟩⟩
  | append _ _ ih ih' => exact forall_mem_append.mpr ⟨ih, ih'⟩

/-- The current versions of all but temporaries stay. -/
theorem follows (temps : Temps vs low high)
    (readable : ∀ u ∈ reads, ReadableBelow vs current low u) :
    ∃ final, vs.Follows current code final ∧ (∀ x, x < low ∨ high ≤ x → final x = current x) ∧
      ∀ u ∈ later, ReadableBelow vs final high u := by
  induction prepares generalizing current with
  | nil => exact ⟨current, .nil, fun _ _ => rfl, readable⟩
  | @assign o literal t =>
    obtain ⟨source, set⟩ := temps t (Nat.le_refl _) (Nat.lt_succ_self _)
    have after : vs.after current (.assign t o) = current.define t t := by
      change current.define (vs.source t) t = _
      rw [source]
    refine ⟨current.define t t, .cons ?_ (forall_mem_singleton.mpr set) (after ▸ .nil),
      fun x beyond => ?_, forall_mem_singleton.mpr ⟨⟨set.1, .inl ?_⟩, ?_⟩⟩
    · intro u read
      simp [Inst.uses, Inst.operands, literal] at read
    · refine if_neg ?_
      rintro rfl
      exact beyond.elim (Nat.lt_irrefl _) (Nat.not_succ_le_self _)
    · rw [source, VersionMap.define, if_pos rfl]
    · rw [source]
      exact Nat.lt_succ_self _
  | @stackArg _ _ _ v _ _ index ih =>
    obtain ⟨middle, early, outside, holds⟩ := ih temps readable
    refine ⟨middle, early.append (.cons ?_ (forall_mem_nil _) .nil), outside, forall_mem_nil _⟩
    intro u read
    obtain rfl : u = v := by simpa [Inst.uses, Inst.operands] using read
    exact (holds u (mem_singleton.mpr rfl)).1
  | @append _ _ _ _ low mid high _ _ first second ih ih' =>
    rw [forall_mem_append] at readable
    obtain ⟨middle, early, outside, holds⟩ := ih (temps.left second.le) readable.1
    obtain ⟨final, late, outside', holds'⟩ := ih' (temps.right first.le) fun u mem =>
      (readable.2 u mem).onwards outside first.le
    refine ⟨final, early.append late, fun x beyond => ?_, forall_mem_append.mpr
      ⟨fun u mem => (holds u mem).onwards outside' second.le, holds'⟩⟩
    rw [outside' x (beyond.imp_left fun below => Nat.lt_of_lt_of_le below first.le),
      outside x (beyond.imp_right fun above => Nat.le_trans second.le above)]

private theorem defs : code.flatMap Inst.defs = List.range' low (high - low) := by
  induction prepares with
  | nil => simp
  | assign literal t => simp [Inst.defs]
  | stackArg _ _ ih => simpa [Inst.defs] using ih
  | append first second ih ih' =>
    rw [flatMap_append, ih, ih', range'_append_of_le first.le second.le]

end

end Prepares

namespace Replaces

section

variable (replaces : Replaces i low high code)

include replaces

theorem le : low ≤ high := by
  obtain ⟨prepares, -, ⟨rfl, -⟩ | ⟨rfl, -⟩, -⟩ := replaces
  · exact prepares.le
  · exact Nat.le_succ_of_le prepares.le

theorem form : ∃ front last, code = front ++ [last] ∧
    (∀ j ∈ front, j.isOrdinary = true ∧ Made i j) ∧ DoesWork i last := by
  obtain ⟨prepares, -, -, does⟩ := replaces
  exact ⟨_, _, rfl, prepares.moves, does⟩

/-- The code leads to the versions that are current after the instruction, but for temporaries. -/
theorem follows (temps : Temps vs low high)
    (readable : ∀ u ∈ i.uses, ReadableBelow vs current low u)
    (set : ∀ d ∈ i.defs, vs.Set d ∧ vs.source d < low) :
    ∃ final, vs.Follows current code final ∧ ∀ x < low, final x = vs.after current i x := by
  obtain @⟨reads, mid, _, front, last, prepares, same, defs, -⟩ := replaces
  have le : mid ≤ high := by
    rcases defs with ⟨rfl, -⟩ | ⟨rfl, -⟩
    · exact Nat.le_refl _
    · exact Nat.le_succ _
  obtain ⟨middle, early, outside, holds⟩ := prepares.follows (temps.left le) fun u mem =>
    readable u ((same u).mp mem)
  refine ⟨vs.after middle last, early.append
    (.cons (fun u read => (holds u read).1) (fun d isDef => ?_) .nil), fun x below => ?_⟩
  · rcases defs with ⟨-, same⟩ | ⟨rfl, -, isTemp⟩
    · exact (set d (same ▸ isDef)).1
    · rw [isTemp, mem_singleton] at isDef
      exact isDef ▸ (temps mid prepares.le (Nat.lt_succ_self _)).2
  · rcases defs with ⟨-, same⟩ | ⟨rfl, none, isTemp⟩
    · exact Versions.after_congr same (fun _ _ => rfl) (outside x (.inl below))
    · rw [Versions.after_of_defs_nil none, Versions.after_of_not_mem, outside x (.inl below)]
      rw [isTemp, forall_mem_singleton, (temps mid prepares.le (Nat.lt_succ_self _)).1]
      exact Ne.symm (Nat.ne_of_lt (Nat.lt_of_lt_of_le below prepares.le))

private theorem defs : (code.flatMap Inst.defs).Perm (i.defs ++ List.range' low (high - low)) := by
  obtain @⟨_, mid, _, _, _, prepares, -, defs, -⟩ := replaces
  rw [flatMap_append, prepares.defs, flatMap_singleton]
  rcases defs with ⟨rfl, same⟩ | ⟨rfl, none, isTemp⟩
  · rw [same]
    exact perm_append_comm
  · have last : [mid] = List.range' mid (mid + 1 - mid) := by rw [Nat.add_sub_cancel_left]; rfl
    rw [none, isTemp, last, range'_append_of_le prepares.le (Nat.le_succ _)]
    exact .refl _

end

end Replaces

/-! ## Blocks -/

/-- Instructions replaced one after the other; phis stay. -/
inductive ReplacesAll : List Inst → VarId → VarId → List (List Inst) → Prop
  | nil {low : VarId} : ReplacesAll [] low low []
  | cons {i : Inst} {rest : List Inst} {low mid high : VarId} {code : List Inst}
      {codes : List (List Inst)} (first : Replaces i low mid code)
      (phi : i.isPhi = true → code = [i])
      (more : ReplacesAll rest mid high codes) : ReplacesAll (i :: rest) low high (code :: codes)

private theorem lowers_mapM_lowerInst (base : VarId) (insts : List Inst) :
    Lowers (insts.mapM (lowerInst base)) (ReplacesAll insts) := by
  induction insts with
  | nil =>
    rw [mapM_nil]
    exact .pure fun _ => .nil
  | cons i rest ih =>
    have first : Lowers (lowerInst base i) fun low high code =>
        Replaces i low high code ∧ (i.isPhi = true → code = [i]) := by
      cases i with
      | phi node =>
        exact .pure fun low => ⟨Made.replaces (i := .phi node) ⟨rfl, True.intro⟩ low, fun _ => rfl⟩
      | _ => exact (lowers_lowerInst base _).imp fun replaces => ⟨replaces, nofun⟩
    rw [mapM_cons]
    refine first.bind fun replaces => ih.bind fun more => .pure ?_
    rintro _ rfl rfl
    exact .cons replaces.1 replaces.2 more

/-- Sources of what instructions read and define are below a bound. -/
def SourcesBelow (vs : Versions) (bound : VarId) (insts : List Inst) : Prop :=
  ∀ i ∈ insts, (∀ u ∈ i.uses, vs.source u < bound) ∧ ∀ d ∈ i.defs, vs.source d < bound

namespace ReplacesAll

variable {insts : List Inst}

theorem le (replaces : ReplacesAll insts low high codes) : low ≤ high := by
  induction replaces with
  | nil => exact Nat.le_refl _
  | cons first _ _ ih => exact Nat.le_trans first.le ih

/-- The replaced code follows the same versions of everything but temporaries. -/
theorem follows {base : VarId} (replaces : ReplacesAll insts low high codes) (le : base ≤ low)
    (temps : Temps vs low high) (follows : vs.Follows current insts final)
    (below : SourcesBelow vs base insts)
    {current' : VersionMap} (same : ∀ x < base, current' x = current x) :
    ∃ final', vs.Follows current' codes.flatten final' ∧ ∀ x < base, final' x = final x := by
  induction replaces generalizing current current' with
  | nil =>
    cases follows
    exact ⟨current', .nil, same⟩
  | @cons i rest low mid high code codes first phi more ih =>
    cases follows with
    | cons reads defs tail =>
      unfold SourcesBelow at below
      rw [forall_mem_cons] at below
      have readable : ∀ u ∈ i.uses, ReadableBelow vs current' low u := fun u read =>
        ⟨⟨(reads u read).1, (reads u read).2.imp_left (same _ (below.1.1 u read)).trans⟩,
          Nat.lt_of_lt_of_le (below.1.1 u read) le⟩
      obtain ⟨middle, early, agrees⟩ := first.follows (temps.left more.le) readable
        (fun d isDef => ⟨defs d isDef, Nat.lt_of_lt_of_le (below.1.2 d isDef) le⟩)
      have same' : ∀ x < base, middle x = vs.after current i x := fun x isBelow => by
        rw [agrees x (Nat.lt_of_lt_of_le isBelow le)]
        exact Versions.after_congr rfl (fun _ _ => rfl) (same x isBelow)
      obtain ⟨final', late, agrees'⟩ :=
        ih (Nat.le_trans le first.le) (temps.right first.le) tail below.2 same'
      exact ⟨final', early.append late, agrees'⟩

/-- Inner instructions are replaced by inner ones, and a terminator by code that ends like it. -/
theorem form {inner : List Inst} {last : Inst}
    (replaces : ReplacesAll (inner ++ [last]) low high codes)
    (isOrdinary : ∀ i ∈ inner, i.isOrdinary = true) :
    ∃ inner' last', codes.flatten = inner' ++ [last'] ∧ (∀ i ∈ inner', i.isOrdinary = true) ∧
      DoesWork last last' := by
  induction inner generalizing low codes with
  | nil =>
    cases replaces with
    | cons first phi more =>
      cases more
      obtain ⟨front, last', rfl, moves, does⟩ := first.form
      exact ⟨front, last', by simp, fun j mem => (moves j mem).1, does⟩
  | cons i rest ih =>
    cases replaces with
    | cons first phi more =>
      rw [forall_mem_cons] at isOrdinary
      obtain ⟨inner', last', isCode, allInner, does⟩ := ih more isOrdinary.2
      obtain ⟨front, middle, rfl, moves, isMiddle⟩ := first.form
      refine ⟨front ++ [middle] ++ inner', last', by simp only [flatten_cons, isCode, append_assoc],
        ?_, does⟩
      rw [forall_mem_append, forall_mem_append, forall_mem_singleton]
      exact ⟨⟨fun j mem => (moves j mem).1, isMiddle.isOrdinary isOrdinary.1⟩, allInner⟩

private theorem phis {phis : List Phi} {rest : List Inst}
    (replaces : ReplacesAll (phis.map Inst.phi ++ rest) low high codes) :
    ∃ codes' mid, codes.flatten = phis.map Inst.phi ++ codes'.flatten ∧ low ≤ mid ∧
      ReplacesAll rest mid high codes' := by
  induction phis generalizing low codes with
  | nil => exact ⟨codes, low, rfl, Nat.le_refl _, replaces⟩
  | cons node phis ih =>
    cases replaces with
    | cons first phi more =>
      obtain ⟨codes', mid, isCode, le, rest'⟩ := ih more
      refine ⟨codes', mid, ?_, Nat.le_trans first.le le, rest'⟩
      rw [flatten_cons, isCode, phi rfl]
      rfl

/-- Every instruction of the code is made from one that it takes the place of. -/
theorem made (replaces : ReplacesAll insts low high codes) :
    ∀ j ∈ codes.flatten, ∃ i ∈ insts, Made i j := by
  induction replaces with
  | nil => exact forall_mem_nil _
  | cons first _ _ ih =>
    obtain ⟨front, last, rfl, moves, does⟩ := first.form
    rw [flatten_cons, forall_mem_append, forall_mem_append, forall_mem_singleton]
    refine ⟨⟨fun j mem => ⟨_, mem_cons_self, (moves j mem).2⟩, ⟨_, mem_cons_self, does.toMade⟩⟩,
      fun j mem => ?_⟩
    obtain ⟨i, inRest, made⟩ := ih j mem
    exact ⟨i, mem_cons_of_mem _ inRest, made⟩

private theorem defs (replaces : ReplacesAll insts low high codes) :
    (codes.flatten.flatMap Inst.defs).Perm
    (insts.flatMap Inst.defs ++ List.range' low (high - low)) := by
  induction replaces with
  | nil => simp
  | cons first _ more ih =>
    rw [flatten_cons, flatMap_append, flatMap_cons, ← range'_append_of_le first.le more.le]
    refine (first.defs.append ih).trans ?_
    rw [append_assoc, append_assoc]
    refine List.Perm.append_left _ ?_
    rw [← append_assoc, ← append_assoc]
    exact perm_append_comm.append_right _

end ReplacesAll

/-! ## Procedures -/

/-- The blocks of a list are lowered, the others are as they were. -/
structure Progress (p q : Procedure) (done : List BlockId) : Prop extends Extends p q where
  rest : q = { p with blocks := q.blocks, vars := q.vars, locals := q.locals }
  size : q.blocks.size = p.blocks.size
  block : ∀ b, b ∉ done → q.block b = p.block b
  lowered : ∀ b ∈ done, ∃ low high codes, p.nextVar ≤ low ∧ high ≤ q.nextVar ∧
    q.block b = { p.block b with insts := codes.flatten } ∧
    ReplacesAll (p.block b).insts low high codes
  defs : (done.flatMap fun b => (q.block b).insts.flatMap Inst.defs).Perm
    ((done.flatMap fun b => (p.block b).insts.flatMap Inst.defs) ++ List.range' p.nextVar
      (q.nextVar - p.nextVar))

private theorem Progress.start (p : Procedure) : Progress p p [] :=
  ⟨.refl p, rfl, rfl, fun _ _ => rfl, forall_mem_nil _, by simp⟩

private theorem Progress.lowerBlock (progress : Progress p q done) {b : BlockId} (fresh : b ∉ done)
    (lt : b < p.blocks.size) (base : VarId) :
    Progress p ((lowerBlock base b).run q).2 (b :: done) := by
  have lowers := lowers_mapM_lowerInst base (q.block b).insts q
  generalize isRun : ((q.block b).insts.mapM (lowerInst base)).run q = result at lowers
  obtain ⟨codes, r⟩ := result
  obtain ⟨grown, replaces⟩ : Grown q r ∧
      ReplacesAll (q.block b).insts q.nextVar r.nextVar codes := lowers
  have isLowered : ((TargetForm.lowerBlock base b).run q).2 = r.setInsts b codes.flatten := by
    have both : ((TargetForm.lowerBlock base b).run q).2 =
        (((q.block b).insts.mapM (lowerInst base)).run q).2.setInsts b
          (((q.block b).insts.mapM (lowerInst base)).run q).1.flatten := rfl
    rw [both, isRun]
  have blocks : r.blocks = q.blocks := by rw [grown.rest]
  have block : ∀ c, r.block c = q.block c := fun c => by rw [Procedure.block, blocks]; rfl
  rw [progress.block b fresh] at replaces
  rw [isLowered]
  have isBlock : (r.setInsts b codes.flatten).block b =
      { p.block b with insts := codes.flatten } := by
    rw [block_setInsts, if_pos ⟨rfl, blocks ▸ progress.size ▸ lt⟩, block, progress.block b fresh]
  have others : ∀ c, c ≠ b → (r.setInsts b codes.flatten).block c = q.block c := fun c other => by
    rw [block_setInsts, if_neg (fun same => other same.1.symm), block]
  have done_ne : ∀ c ∈ done, c ≠ b := fun c mem same => fresh (same ▸ mem)
  have extends_ : Extends q (r.setInsts b codes.flatten) :=
    ⟨grown.count, grown.old, grown.new, grown.types, grown.regs⟩
  refine ⟨progress.toExtends.trans extends_, ?_, ?_, ?_, ?_, ?_⟩
  · rw [Procedure.setInsts, Procedure.modifyBlock, grown.rest, progress.rest]
  · rw [size_setInsts, blocks, progress.size]
  · intro c other
    rw [mem_cons, not_or] at other
    rw [others c other.1, progress.block c other.2]
  · refine forall_mem_cons.mpr
      ⟨⟨q.nextVar, r.nextVar, codes, progress.count, Nat.le_refl _, isBlock, replaces⟩,
      fun c mem => ?_⟩
    obtain ⟨low, high, codes', above, below, isBlock', replaces'⟩ := progress.lowered c mem
    exact ⟨low, high, codes', above, Nat.le_trans below grown.count,
      (others c (done_ne c mem)).trans isBlock', replaces'⟩
  · have old : (done.flatMap fun c => ((r.setInsts b codes.flatten).block c).insts.flatMap
        Inst.defs) = done.flatMap fun c => (q.block c).insts.flatMap Inst.defs :=
      congrArg List.flatten (map_congr_left fun c mem => by rw [others c (done_ne c mem)])
    change List.Perm _ (_ ++ List.range' p.nextVar (r.nextVar - p.nextVar))
    rw [flatMap_cons, flatMap_cons, old, isBlock, ← range'_append_of_le progress.count grown.count]
    refine (replaces.defs.append progress.defs).trans ?_
    rw [append_assoc, append_assoc]
    refine List.Perm.append_left _ (perm_append_comm.trans ?_)
    rw [append_assoc]

private theorem Progress.forM (progress : Progress p q done) {blocks : List BlockId}
    (nodup : blocks.Nodup)
    (fresh : ∀ b ∈ blocks, b ∉ done) (lt : ∀ b ∈ blocks, b < p.blocks.size) (base : VarId) :
    ∃ all, all.Perm (blocks ++ done) ∧
      Progress p ((blocks.forM (TargetForm.lowerBlock base)).run q).2 all := by
  induction blocks generalizing q done with
  | nil => exact ⟨done, .refl _, progress⟩
  | cons b blocks ih =>
    rw [nodup_cons] at nodup
    rw [forall_mem_cons] at fresh lt
    obtain ⟨all, perm, final⟩ := ih (progress.lowerBlock fresh.1 lt.1 base) nodup.2 (fun c mem => by
        rw [mem_cons, not_or]
        exact ⟨fun same => nodup.1 (same ▸ mem), fresh.2 c mem⟩) lt.2
    exact ⟨all, perm.trans perm_middle, final⟩

theorem progress_lower (p : Procedure) : ∃ all, all.Perm p.blockIds ∧ Progress p p.lower.1 all := by
  obtain ⟨all, perm, progress⟩ := (Progress.start p).forM (nodup_range : p.blockIds.Nodup) (by simp)
    (fun b mem => mem_blockIds.mp mem) p.nextVar
  exact ⟨all, by rwa [append_nil] at perm, progress⟩

/-- The certificate with temporaries as sources of their own. -/
def versions (vs : Versions) (base count : VarId) (atEnd : BlockId → VersionMap) : Versions where
  sources := count
  source u := if u < base then (if vs.source u < vs.sources then vs.source u else count) else u
  unset u := decide (u < base) && vs.unset u
  atBody := vs.atBody
  atEnd := atEnd

section Versions

variable {count : VarId} {atEnd : BlockId → VersionMap} {u : VarId}

section

variable (atEnd) (versioned : p.Versioned vs) (grows : p.nextVar ≤ count)

include versioned grows

theorem source_versions (inSources : vs.source u < vs.sources) :
    (versions vs p.nextVar count atEnd).source u = vs.source u ∧
      vs.source u < p.nextVar ∧ (versions vs p.nextVar count atEnd).source u < count := by
  have source : (versions vs p.nextVar count atEnd).source u = vs.source u :=
    (if_pos (versioned.inside u inSources)).trans (if_pos inSources)
  have below := Nat.lt_of_lt_of_le inSources versioned.sources
  exact ⟨source, below, source ▸ Nat.lt_of_lt_of_le below grows⟩

theorem readable_versions (readable : vs.Readable current u) :
    (versions vs p.nextVar count atEnd).Readable current u := by
  obtain ⟨source, -, below⟩ := source_versions atEnd versioned grows readable.1
  refine ⟨below, source ▸ readable.2.imp_right fun isUnset => ?_⟩
  simp [versions, versioned.inside u readable.1, isUnset]

theorem set_versions (set : vs.Set u) :
    (versions vs p.nextVar count atEnd).Set u ∧
    (versions vs p.nextVar count atEnd).source u = vs.source u := by
  obtain ⟨source, -, below⟩ := source_versions atEnd versioned grows set.1
  exact ⟨⟨below, by simp [versions, set.2]⟩, source⟩

end

private theorem temps_versions : Temps (versions vs p.nextVar count atEnd) p.nextVar count := by
  intro t above below
  have source : (versions vs p.nextVar count atEnd).source t = t := if_neg (Nat.not_lt.mpr above)
  refine ⟨source, ?_, ?_⟩
  · rw [source]
    exact below
  · simp [versions, Nat.not_lt.mpr above]

private theorem follows_versions (atEnd : BlockId → VersionMap) {insts : List Inst}
    (versioned : p.Versioned vs)
    (grows : p.nextVar ≤ count) (follows : vs.Follows current insts final) :
    (versions vs p.nextVar count atEnd).Follows current insts final ∧
      SourcesBelow (versions vs p.nextVar count atEnd) p.nextVar insts := by
  refine ⟨follows.transfer (fun _ _ _ _ _ => readable_versions atEnd versioned grows)
    fun _ => set_versions atEnd versioned grows, fun i mem => ?_⟩
  obtain ⟨uses, defs⟩ := follows.inside i mem
  refine ⟨fun u read => ?_, fun d isDef => ?_⟩
  · obtain ⟨source, below, -⟩ := source_versions atEnd versioned grows (uses u read)
    exact source ▸ below
  · obtain ⟨source, below, -⟩ := source_versions atEnd versioned grows (defs d isDef).1
    exact source ▸ below

end Versions

/-- What lowering leaves of a block: its phis, and a body that follows the same versions of
everything but temporaries. -/
theorem Progress.block_lowered (progress : Progress p q done) (versioned : p.Versioned vs)
    {b : BlockId} (lt : b < p.blocks.size) (mem : b ∈ done)
    (shape : p.Shape (p.block b)) (ordinary : ∀ i ∈ shape.inner, i.isOrdinary = true) :
    ∃ inner last, (q.block b).insts = (p.block b).phis.map Inst.phi ++ (inner ++ [last]) ∧
      (∀ i ∈ inner, i.isOrdinary = true) ∧ p.Exits (p.block b) last ∧
      ∃ final, (versions vs p.nextVar q.nextVar vs.atEnd).Follows
        (vs.atBody b) (inner ++ [last]) final ∧ ∀ x < p.nextVar, final x = vs.atEnd b x := by
  obtain ⟨low, high, codes, above, below, isBlock, replaces⟩ := progress.lowered b mem
  rw [Block.insts_eq] at replaces
  obtain ⟨codes', mid, isCode, le, replaces⟩ := replaces.phis
  obtain ⟨follows, sourcesBelow⟩ :=
    follows_versions vs.atEnd versioned progress.count (versioned.follows b lt)
  have temps : Temps (versions vs p.nextVar q.nextVar vs.atEnd) mid high :=
    (temps_versions.left below).right (Nat.le_trans above le)
  obtain ⟨final, follows', same⟩ :=
    replaces.follows (Nat.le_trans above le) temps follows sourcesBelow (fun _ _ => rfl)
  rw [shape.body_eq] at replaces
  obtain ⟨inner, last, isBody, isOrdinary, exits⟩ := replaces.form ordinary
  refine ⟨inner, last, ?_, isOrdinary, exits.exits p _ shape.exits, final, isBody ▸ follows', same⟩
  rw [isBlock, ← isBody]
  exact isCode

/-! ## The certificate of the lowered procedure -/

/-- How lowered code ends: it follows the old versions, up to temporaries. -/
def Ends (p q : Procedure) (vs : Versions) (b : BlockId) (final : VersionMap) : Prop :=
  (versions vs p.nextVar q.nextVar vs.atEnd).Follows (vs.atBody b) (q.block b).body final ∧
    ∀ x < p.nextVar, final x = vs.atEnd b x

namespace Progress

variable {assigned : Prop} {atEnd : BlockId → VersionMap} (progress : Progress p q done)

include progress

private theorem graph : p.SameGraph q := by
  have blocks : ∀ b, q.block b = { p.block b with insts := (q.block b).insts } := by
    intro b
    by_cases mem : b ∈ done
    · obtain ⟨_, _, _, _, _, isBlock, _⟩ := progress.lowered b mem
      rw [isBlock]
    · rw [progress.block b mem]
  exact .of_blocks progress.size blocks (by rw [progress.rest]) (by rw [progress.rest])
    (by rw [progress.rest])

private theorem args_eq : q.args = p.args := by
  rw [progress.rest]

section Block

variable (all : ∀ b < p.blocks.size, b ∈ done) (cert : p.Certified assigned)
  (versioned : p.Versioned vs)

include all cert versioned

/-- A block's own shape gives the shape of its lowered code. -/
private theorem shape {b : BlockId} (lt : b < p.blocks.size) :
    ∃ shape : q.Shape (q.block b), (shape.phis = (p.block b).phis ∧
      ∀ i ∈ shape.inner, i.isOrdinary = true) ∧ ∃ final, Ends p q vs b final := by
  obtain ⟨shape⟩ := cert.wf.shape b lt
  have wasOrdinary : ∀ i ∈ shape.inner, i.isOrdinary = true := fun i mem =>
    cert.ordinary b lt i (by simp [shape.insts, mem]) (shape.isInner i mem)
  obtain ⟨inner, last, insts, isOrdinary, exits, final, follows, same⟩ :=
    progress.block_lowered versioned lt (all b lt) shape wasOrdinary
  have isInner : ∀ i ∈ inner, i.isInner = true := fun i mem =>
    Inst.isInner_of_isOrdinary (isOrdinary i mem)
  have arity : ∀ phi ∈ (p.block b).phis, phi.args.length = (q.block b).preds.length := by
    rw [progress.graph.preds b, shape.phis_eq]
    exact shape.arity
  let shape' : q.Shape (q.block b) :=
    ⟨_, inner, last, insts, isInner, progress.graph.exits exits, arity⟩
  exact ⟨shape', ⟨rfl, isOrdinary⟩, final, shape'.body_eq ▸ follows, same⟩

private theorem phis_eq {b : BlockId} (lt : b < p.blocks.size) :
    (q.block b).phis = (p.block b).phis := by
  obtain ⟨shape, ⟨isPhis, -⟩, -⟩ := progress.shape all cert versioned lt
  rw [shape.phis_eq, isPhis]

private theorem ordinary {b : BlockId} (lt : b < p.blocks.size)
    (mem : i ∈ (q.block b).insts) (inner : i.isInner = true) : i.isOrdinary = true := by
  obtain ⟨shape, ⟨-, isOrdinary⟩, -⟩ := progress.shape all cert versioned lt
  rw [shape.insts] at mem
  rcases mem_append.mp mem with isPhi | inBody
  · obtain ⟨node, -, rfl⟩ := mem_map.mp isPhi
    cases inner
  · rcases mem_append.mp inBody with early | isLast
    · exact isOrdinary i early
    · obtain rfl := mem_singleton.mp isLast
      exact absurd shape.exits.isTerminator (by simp [Inst.isTerminator_of_isInner inner])

private theorem exists_ends : ∃ atEnd : BlockId → VersionMap,
    ∀ b < p.blocks.size, Ends p q vs b (atEnd b) := by
  have ends := fun b lt => (progress.shape all cert versioned (b := b) lt).choose_spec.2
  refine ⟨fun b => if lt : b < p.blocks.size then (ends b lt).choose else vs.atEnd b,
    fun b lt => ?_⟩
  simp only [dif_pos lt]
  exact (ends b lt).choose_spec

end Block

private theorem inside {u : VarId}
    (below : (versions vs p.nextVar q.nextVar atEnd).source u < q.nextVar) : u < q.nextVar := by
  by_cases old : u < p.nextVar
  · exact Nat.lt_of_lt_of_le old progress.count
  · exact (if_neg old : (versions vs p.nextVar q.nextVar atEnd).source u = u) ▸ below

section Versioned

variable (versioned : p.Versioned vs)

include versioned

private theorem listed
    (set : (versions vs p.nextVar q.nextVar atEnd).Set v) : v ∈ q.args ++ q.locals := by
  by_cases old : v < p.nextVar
  · have wasSet : vs.Set v := by
      obtain ⟨below, isSet⟩ := set
      simp only [versions, old, decide_true, Bool.true_and, if_true] at below isSet
      refine ⟨?_, isSet⟩
      split at below
      · assumption
      · exact absurd below (Nat.lt_irrefl _)
    rw [progress.args_eq]
    rcases mem_append.mp (versioned.listed v wasSet) with isArg | isLocal
    · exact mem_append_left _ isArg
    · exact mem_append_right _ (progress.old v isLocal)
  · have source : (versions vs p.nextVar q.nextVar atEnd).source v = v := if_neg old
    exact mem_append_right _ (progress.new v (Nat.le_of_not_lt old) (source ▸ set.1))

/-- A version of a variable stays one. -/
private theorem stays (was : vs.source v = x ∧ vs.Set v) :
    (versions vs p.nextVar q.nextVar atEnd).source v = x ∧
      (versions vs p.nextVar q.nextVar atEnd).Set v := by
  obtain ⟨set, source⟩ := set_versions atEnd versioned progress.count was.2
  exact ⟨source.trans was.1, set⟩

section Edges

variable (all : ∀ b < p.blocks.size, b ∈ done) (cert : p.Certified assigned)
  (ends : ∀ b < p.blocks.size, Ends p q vs b (atEnd b)) {b : BlockId} (lt : b < p.blocks.size)

include all cert ends lt

private theorem phiArg {phi : Phi} (mem : phi ∈ (q.block b).phis) {slot : Nat}
    {pred : BlockId} {a : VarId} (isPred : (q.block b).preds[slot]? = some pred)
    (isArg : phi.args[slot]? = some a) :
    (versions vs p.nextVar q.nextVar atEnd).source a =
        (versions vs p.nextVar q.nextVar atEnd).source phi.dst ∧
      (versions vs p.nextVar q.nextVar atEnd).Readable (atEnd pred) a := by
  rw [progress.phis_eq all cert versioned lt] at mem
  rw [progress.graph.preds b] at isPred
  obtain ⟨same, readable⟩ := versioned.phiArg b lt phi mem slot pred a isPred isArg
  obtain ⟨-, set⟩ := versioned.faithful b lt _ _ (versioned.phi b lt phi mem)
  obtain ⟨-, sourceDst⟩ := set_versions atEnd versioned progress.count set
  obtain ⟨inSources, isReadable⟩ := readable_versions atEnd versioned progress.count readable
  obtain ⟨sourceArg, below, -⟩ := source_versions atEnd versioned progress.count readable.1
  have insidePred := cert.wf.lt_of_mem_preds lt (mem_of_getElem? isPred)
  refine ⟨by rw [sourceArg, sourceDst, same], inSources, ?_⟩
  rw [sourceArg] at isReadable ⊢
  exact isReadable.imp_left fun current => ((ends pred insidePred).2 _ below).trans current

private theorem edge (current : vs.atBody b x = some v) :
    (b = entry ∧ v ∈ q.args) ∨ (∃ phi ∈ (q.block b).phis, phi.dst = v) ∨
      (b ≠ entry ∧ ∀ pred ∈ (q.block b).preds, atEnd pred x = some v) := by
  rw [progress.phis_eq all cert versioned lt, progress.graph.preds b, progress.args_eq]
  rcases versioned.edge b lt x v current with isArg | isPhi | ⟨other, fromPreds⟩
  · exact .inl isArg
  · exact .inr (.inl isPhi)
  · refine .inr (.inr ⟨other, fun pred mem => ?_⟩)
    obtain ⟨source, set⟩ := versioned.faithful b lt x v current
    have below : x < p.nextVar := Nat.lt_of_lt_of_le (source ▸ set.1) versioned.sources
    have insidePred := cert.wf.lt_of_mem_preds lt mem
    exact ((ends pred insidePred).2 x below).trans (fromPreds pred mem)

end Edges

end Versioned

private theorem certified (all : ∀ b < p.blocks.size, b ∈ done)
    (cert : p.Certified assigned) : q.Certified assigned ∧ p.SameGraph q := by
  obtain ⟨vs, versioned, strict⟩ := cert.versioned
  obtain ⟨atEnd, ends⟩ := progress.exists_ends all cert versioned
  have phis := fun b lt => progress.phis_eq all cert versioned (b := b) lt
  refine ⟨⟨progress.graph.wf cert.wf fun b lt =>
      ⟨(progress.shape all cert versioned lt).choose⟩,
    fun b lt _ => progress.ordinary all cert versioned (progress.size ▸ lt),
    (phis entry cert.wf.nonempty).trans cert.noPhis,
    versions vs p.nextVar q.nextVar atEnd, ?_, fun holds v => ?_⟩, progress.graph⟩
  rotate_left
  · simp [versions, strict holds v]
  refine ⟨Nat.le_refl _, fun _ => progress.inside, fun _ => progress.listed versioned,
    fun a mem => ?_, ?_, ?_, ?_, ?_, ?_⟩
  · exact progress.stays versioned (versioned.args a (progress.args_eq ▸ mem))
  all_goals
    intro b lt
    rw [progress.size] at lt
  · exact (ends b lt).1.transfer (fun _ _ _ _ _ => id) fun _ set => ⟨set, rfl⟩
  · exact fun x v current => progress.stays versioned (versioned.faithful b lt x v current)
  · intro phi mem
    have current := versioned.phi b lt phi (phis b lt ▸ mem)
    obtain ⟨-, set⟩ := versioned.faithful b lt _ _ current
    rw [(progress.stays versioned ⟨rfl, set⟩).1]
    exact current
  · exact fun phi mem _ _ _ => progress.phiArg versioned all cert ends lt mem
  · exact fun _ _ => progress.edge versioned all cert ends lt

end Progress

end TargetForm

/-- Target form keeps form and certificate, and the flow graph. -/
theorem Procedure.certified_lower {p : Procedure} {assigned : Prop} (cert : p.Certified assigned) :
    p.lower.1.Certified assigned ∧ p.SameGraph p.lower.1 := by
  obtain ⟨all, perm, progress⟩ := TargetForm.progress_lower p
  exact progress.certified (fun b lt => perm.mem_iff.mpr (mem_blockIds.mpr lt)) cert

end ArmBackend
