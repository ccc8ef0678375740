import ArmBackend.Proofs.Ssa.Reaching

/-!
Contract: the two walks of a repair over the instructions of a procedure.

The first gives every definition of the variable under repair a fresh variable. The second points
every read of it at the definition that reaches it, and places phis as it finds them missing. The
instructions stay in their places otherwise.

Owns: these relations between the instructions before and after each walk, and that the walks
establish them.
Does not own: both walks in a row.
-/

namespace ArmBackend

open List Procedure

open Function (update update_self update_of_ne update_eq_self update_idem)

variable {v : VarId} {front : List Inst} {r' : Repair} {remaining : Nat} {slots : List Nat}
  {q : Procedure} {b : BlockId}

/-- Does a block define a variable? -/
def Procedure.Defines (q : Procedure) (b : BlockId) (v : VarId) :
    Prop := ∃ i ∈ (q.block b).insts, v ∈ i.defs

theorem Procedure.mem_writers : b ∈ q.writers v ↔ b < q.blocks.size ∧ q.Defines b v := by
  rw [writers, mem_filter, mem_blockIds, any_eq_true]
  simp only [List.contains_iff_mem, Defines]

namespace Repair

variable {s : Scope} {heads heads' : BlockId → Option Phi}
  {tails : BlockId → List Inst} {r : Repair}

variable {insts : List Inst} {top : VarId} {i : Inst}
variable {done : List BlockId} {insts' : List Inst}

/-! ## Definitions -/

/-- An instruction in which a definition of the variable under repair has a fresh variable, numbered
below `top`. -/
def Rename (s : Scope) (top : VarId) (i k : Inst) : Prop :=
  (s.var ∉ i.defs ∧ k = i) ∨
    ∃ x, s.var ∈ i.defs ∧ s.base ≤ x ∧ x < top ∧ k = redefine s.var x i

/-- Instructions that are renamed one by one. -/
abbrev Renames (s : Scope) (top : VarId) : List Inst → List Inst → Prop := Forall₂ (Rename s top)

theorem Rename.mono {top' : VarId} {k : Inst} (rename : Rename s top i k) (grows : top ≤ top') :
    Rename s top' i k := by
  refine rename.imp_right ?_
  rintro ⟨x, defines, above, below, isImage⟩
  exact ⟨x, defines, above, Nat.lt_of_lt_of_le below grows, isImage⟩

private theorem Renames.bound (renames : Renames s top insts insts')
    (inside : ∀ i ∈ insts, ∀ d ∈ i.defs, d < top) : ∀ j ∈ insts', ∀ d ∈ j.defs, d < top := by
  intro j mem d isDef
  obtain ⟨i, isInst, ⟨-, rfl⟩ | ⟨x, -, -, below, rfl⟩⟩ := Tables.exists_of_forall₂ renames mem
  · exact inside j isInst d isDef
  · rcases mem_defs_redefine isDef with rfl | old
    · exact below
    · exact inside i isInst d old

private theorem Sound.renameDefs (sound : Sound q s heads tails r) (insts : List Inst) :
    Sound q s heads tails ((Repair.renameDefs insts).run r).2 ∧
      r.proc.nextVar ≤ ((Repair.renameDefs insts).run r).2.proc.nextVar ∧
      Renames s ((Repair.renameDefs insts).run r).2.proc.nextVar insts
        ((Repair.renameDefs insts).run r).1 := by
  induction insts generalizing r with
  | nil => exact ⟨sound, Nat.le_refl _, .nil⟩
  | cons i rest ih =>
    rw [renameDefs_cons, sound.var]
    split
    · rename_i defines
      obtain ⟨sound', grows, renames⟩ := ih sound.mint
      rw [nextVar_mint] at grows
      exact ⟨sound', Nat.le_of_succ_le grows,
        .cons (.inr ⟨_, defines, sound.base, grows, rfl⟩) renames⟩
    · rename_i absent
      obtain ⟨sound', grows, renames⟩ := ih sound
      exact ⟨sound', grows, .cons (.inl ⟨absent, rfl⟩) renames⟩

/-- The state once a block has other instructions behind its placed phi. -/
theorem Sound.retail (sound : Sound q s heads tails r) (lt : b < q.blocks.size)
    {f : Block → Block} (only : ∀ block : Block, f block = { block with insts := (f block).insts })
    (isCode : (f (r.proc.block b)).insts = (heads b).toList.map Inst.phi ++ insts)
    (bound : ∀ i ∈ insts, ∀ d ∈ i.defs, d < r.proc.nextVar)
    (absent : ∀ phi, heads b = some phi → ∀ i ∈ insts, phi.dst ∉ i.defs) :
    Sound q s heads (update tails b insts) { r with proc := r.proc.modifyBlock b f } := by
  have set := sound.recode (n := r.phis) lt (heads b) insts only isCode (fun i mem d isDef => ?_)
    fun phi isHead => ?_
  · rwa [update_eq_self] at set
  · rcases mem_append.mp mem with isHead | inTail
    · exact sound.bound b lt i (mem_append_left _ isHead) d isDef
    · exact bound i inTail d isDef
  · have head := sound.head b phi isHead
    exact ⟨head.joins, head.needed, head.fresh, head.inRegister, head.arity, absent phi isHead⟩

/-- The state once the definitions of some blocks have fresh variables. -/
structure Renamed (q : Procedure) (s : Scope) (done : List BlockId) (tails : BlockId → List Inst)
    (r : Repair) : Prop where
  sound : Sound q s (fun _ => none) tails r
  undone : ∀ b, b ∉ done → tails b = (q.block b).insts
  renames : ∀ b ∈ done, Renames s r.proc.nextVar (q.block b).insts (tails b)

private theorem Renamed.renameBlock (renamed : Renamed q s done tails r)
    (bounded : q.Bounded) (isBase : s.base = q.nextVar) (lt : b < q.blocks.size)
    (fresh : b ∉ done) : ∃ tails', Renamed q s (b :: done) tails' (r.renameBlock b) := by
  have insts : (r.proc.block b).insts = (q.block b).insts := by
    rw [renamed.sound.insts b lt]
    exact renamed.undone b fresh
  obtain ⟨sound, grows, renames⟩ := renamed.sound.renameDefs (r.proc.block b).insts
  rw [Repair.renameBlock]
  generalize (Repair.renameDefs (r.proc.block b).insts).run r = result at sound grows renames ⊢
  rw [insts] at renames
  have inside : ∀ i ∈ (q.block b).insts, ∀ d ∈ i.defs, d < result.2.proc.nextVar :=
    fun i mem d isDef =>
      Nat.lt_of_lt_of_le (bounded.defs b lt i mem d isDef) (isBase ▸ sound.base)
  refine ⟨update tails b result.1, sound.retail lt (fun _ => rfl) rfl (renames.bound inside)
    nofun, fun c absent => ?_, fun c mem => ?_⟩
  · rw [mem_cons, not_or] at absent
    rw [update_of_ne absent.1]
    exact renamed.undone c absent.2
  · by_cases same : c = b
    · subst same
      rw [update_self]
      exact renames
    · rw [update_of_ne same]
      exact (renamed.renames c (mem_of_ne_of_mem same mem)).imp fun _ _ rename => rename.mono grows

theorem Renamed.foldl (renamed : Renamed q s done tails r) (bounded : q.Bounded)
    (isBase : s.base = q.nextVar) {blocks : List BlockId} (inside : ∀ b ∈ blocks, b < q.blocks.size)
    (nodup : blocks.Nodup) (fresh : ∀ b ∈ blocks, b ∉ done) :
    ∃ tails', Renamed q s (blocks.reverse ++ done) tails' (blocks.foldl Repair.renameBlock r) := by
  induction blocks generalizing r done tails with
  | nil => exact ⟨tails, renamed⟩
  | cons b blocks ih =>
    rw [forall_mem_cons] at inside fresh
    rw [nodup_cons] at nodup
    obtain ⟨tails₁, renamed₁⟩ := renamed.renameBlock bounded isBase inside.1 fresh.1
    obtain ⟨tails₂, renamed₂⟩ := ih renamed₁ inside.2 nodup.2 fun c mem => by
      rw [mem_cons, not_or]
      exact ⟨fun same => nodup.1 (same ▸ mem), fresh.2 c mem⟩
    rw [reverse_cons, append_assoc]
    exact ⟨tails₂, renamed₂⟩

/-- Every definition gets a fresh variable, and the blocks that hold one, or the entry if the
variable is an argument, are known. -/
theorem renameDefinitions_spec (t : DomTree) (need : BlockId → Prop) (bounded : q.Bounded)
    (below : v < q.nextVar) :
    ∃ tails, Sound q ⟨v, q.nextVar, t, .empty, need⟩ (fun _ => none) tails
        (ofVar q v t).renameDefinitions ∧
      (∀ b, Renames ⟨v, q.nextVar, t, .empty, need⟩ (ofVar q v t).renameDefinitions.proc.nextVar
        (q.block b).insts (tails b)) ∧
      ∀ b < q.blocks.size, q.Defines b v → b ∈ q.definers v := by
  have start : Renamed q ⟨v, q.nextVar, t, .empty, need⟩ [] (fun b => (q.block b).insts)
      (ofVar q v t) := by
    refine ⟨⟨rfl, rfl, rfl, .refl q, rfl, below, Nat.le_refl _, fun x inside => ?_, fun _ _ => rfl,
      fun x above inside => absurd inside (Nat.not_lt.mpr above), fun b _ => rfl,
      fun b lt i mem d isDef => bounded.defs b lt i mem d isDef,
      fun _ _ isHead => absurd isHead (Option.some_ne_none _).symm⟩, fun b _ => rfl,
      fun _ mem => absurd mem not_mem_nil⟩
    rw [ofVar, IndexSet.contains_empty]
    exact ⟨fun isFresh => Bool.noConfusion isFresh,
      fun above => absurd inside (Nat.not_lt.mpr above)⟩
  obtain ⟨tails, renamed⟩ := start.foldl bounded rfl (fun b mem => (mem_writers.mp mem).1)
    (nodup_range.filter _) fun b _ => not_mem_nil
  rw [append_nil] at renamed
  refine ⟨tails, renamed.sound, fun b => ?_, fun b lt defines => ?_⟩
  · by_cases writes : b ∈ q.writers v
    · exact renamed.renames b (mem_reverse.mpr writes)
    · rw [renamed.undone b fun mem => writes (mem_reverse.mp mem)]
      refine forall₂_same.mpr fun i mem => .inl ⟨fun isDef => ?_, rfl⟩
      refine writes (mem_writers.mpr ⟨?_, i, mem, isDef⟩)
      refine Nat.lt_of_not_le fun outside => ?_
      rw [block_of_size_le q outside] at mem
      cases mem
  · exact mem_append_right _ (mem_writers.mpr ⟨lt, defines⟩)

/-! ## Reads -/

/-- An instruction whose reads of the variable under repair are pointed at what reaches them. -/
inductive Redirect (q : Procedure) (s : Scope) (ends : BlockId → Option VarId) (b : BlockId)
    (last : Option VarId) : Inst → Inst → Prop
  | phi {phi : Phi} {args : List (Option VarId)} (length : args.length = phi.args.length)
      (kept : ∀ (slot : Nat) (a : Option VarId), phi.args[slot]? = some a → a ≠ some s.var →
        args[slot]? = some a)
      (found : ∀ slot : Nat, phi.args[slot]? = some (some s.var) → ∃ x pred,
        (q.block b).preds[slot]? = some pred ∧ args[slot]? = some (some x) ∧
        s.ReachesEnd ends pred x) :
      Redirect q s ends b last (.phi phi) (.phi { phi with args := args })
  | unread {i : Inst} (other : i.isPhi = false) (absent : s.var ∉ i.uses) :
      Redirect q s ends b last i i
  | read {i : Inst} {x : VarId} (other : i.isPhi = false) (reaches : s.Reaches ends b last x) :
      Redirect q s ends b last i (i.mapUses fun u => if u = s.var then x else u)

/-- Instructions whose reads are pointed at what reaches them, from the point on where a given
definition is the last of the block. -/
inductive Redirects (q : Procedure) (s : Scope) (ends : BlockId → Option VarId) (b : BlockId) :
    Option VarId → List Inst → List Inst → Prop
  | nil {last : Option VarId} : Redirects q s ends b last [] []
  | cons {last : Option VarId} {i j : Inst} {rest rest' : List Inst}
      (here : Redirect q s ends b last i j)
      (later : Redirects q s ends b ((i.defs.find? (s.base ≤ ·)).or last) rest rest') :
      Redirects q s ends b last (i :: rest) (j :: rest')

section Redirects

variable {ends ends' : BlockId → Option VarId} {last last' : Option VarId} {j : Inst}
  {raw image : List Inst}

theorem Redirect.defs (redirect : Redirect q s ends b last i j) : j.defs = i.defs := by
  cases redirect with
  | phi => rfl
  | unread => rfl
  | read => exact Inst.defs_mapUses ..

theorem Redirects.defs (redirects : Redirects q s ends b last raw image) :
    image.map Inst.defs = raw.map Inst.defs := by
  induction redirects with
  | nil => rfl
  | cons here _ ih =>
    rw [map_cons, map_cons, here.defs, ih]

section

variable (keeps : ∀ b y, ends b = some y → ends' b = some y)
  (joins : ∀ b, ends b = none → s.joins.contains b = false → ends' b = none)
  (keep : ∀ y, last = some y → last' = some y)
  (join : last = none → s.joins.contains b = false → last' = none)

include keeps joins keep join

theorem Redirect.mono (redirect : Redirect q s ends b last i j) :
    Redirect q s ends' b last' i j := by
  cases redirect with
  | phi length kept found =>
    refine .phi length kept fun slot stale => ?_
    obtain ⟨x, pred, isPred, isArg, reaches⟩ := found slot stale
    exact ⟨x, pred, isPred, isArg, reaches.mono keeps joins (keeps pred) (joins pred)⟩
  | unread other absent => exact .unread other absent
  | read other reaches => exact .read other (reaches.mono keeps joins keep join)

theorem Redirects.mono (redirects : Redirects q s ends b last raw image) :
    Redirects q s ends' b last' raw image := by
  induction redirects generalizing last' with
  | nil => exact .nil
  | @cons last i j rest rest' here _ ih =>
    refine .cons (here.mono keeps joins keep join) (ih ?_ ?_)
      <;> cases isDef : i.defs.find? (s.base ≤ ·) with
      | none => simpa using by assumption
      | some x => simp

end

theorem Redirects.concat (redirects : Redirects q s ends b last raw image)
    (here : Redirect q s ends b ((s.last raw).or last) i j) :
    Redirects q s ends b last (raw ++ [i]) (image ++ [j]) := by
  induction redirects with
  | nil => exact .cons here .nil
  | cons first _ ih =>
    refine .cons first (ih ?_)
    rwa [Scope.last_cons, Option.or_assoc] at here

theorem Redirects.split (redirects : Redirects q s ends b last raw image) {rest : List Inst}
    (isImage : image = front ++ j :: rest) : ∃ front' k rest', raw = front' ++ k :: rest' ∧
      Redirects q s ends b last front' front ∧
      Redirect q s ends b ((s.last front).or last) k j := by
  induction redirects generalizing front with
  | nil => cases front <;> cases isImage
  | @cons last k j' raw image here later ih =>
    cases front with
    | nil =>
      obtain ⟨rfl, -⟩ := List.cons.inj isImage
      exact ⟨[], k, raw, rfl, .nil, here⟩
    | cons first front =>
      obtain ⟨rfl, isRest⟩ := List.cons.inj isImage
      obtain ⟨front', k', rest', rfl, early, line⟩ := ih isRest
      refine ⟨k :: front', k', rest', rfl, .cons here early, ?_⟩
      rwa [Scope.last_cons, here.defs, Option.or_assoc]

theorem Redirects.extend {tails : BlockId → List Inst} (extends_ : Extends heads heads')
    (fresh : Fresh s heads) (fresh' : Fresh s heads')
    (redirects : Redirects q s (s.ends heads tails) b ((heads b).map Phi.dst) raw image) :
    Redirects q s (s.ends heads' tails) b ((heads' b).map Phi.dst) raw image := by
  refine redirects.mono (fun _ _ => extends_.last_some fresh fresh')
    (fun _ => fresh.last_none fresh') (fun y isLast => ?_) fun _ noJoin => ?_
  · obtain ⟨phi, isHead, rfl⟩ := Option.map_eq_some_iff.mp isLast
    obtain ⟨phi', isHead', dst⟩ := extends_ b phi isHead
    rw [isHead', Option.map_some, dst]
  · rw [fresh'.eq_none noJoin, Option.map_none]

theorem Redirects.refl (unread : ∀ i ∈ raw, s.var ∉ i.uses)
    (noArg : ∀ phi, Inst.phi phi ∈ raw → some s.var ∉ phi.args) :
    Redirects q s ends b last raw raw := by
  induction raw generalizing last with
  | nil => exact .nil
  | cons i rest ih =>
    rw [forall_mem_cons] at unread
    refine .cons ?_ (ih unread.2 fun phi mem => noArg phi (mem_cons_of_mem _ mem))
    cases i with
    | phi phi =>
      refine .phi rfl (fun slot a isArg _ => isArg) fun slot stale => ?_
      exact absurd (mem_of_getElem? stale) (noArg phi mem_cons_self)
    | _ => exact .unread rfl unread.1

end Redirects

/-- The state once the first reads of each block are redirected, up to a mark. -/
structure Redirecting (q : Procedure) (s : Scope) (raw : BlockId → List Inst)
    (marks : BlockId → Nat)
    (heads : BlockId → Option Phi) (tails : BlockId → List Inst) (r : Repair) : Prop where
  sound : Sound q s heads tails r
  filled : Filled q s heads tails fun _ _ => False
  split : ∀ b, ∃ image, tails b = image ++ (raw b).drop (marks b) ∧
    Redirects q s (s.ends heads raw) b ((heads b).map Phi.dst) ((raw b).take (marks b)) image

section Redirecting

variable {raw : BlockId → List Inst} {marks : BlockId → Nat}
variable {insts : List Inst} {tails' : BlockId → List Inst}

/-- Where the reads of a procedure make searches look for a definition. -/
structure Needs (q : Procedure) (s : Scope) (raw : BlockId → List Inst) : Prop where
  spreads : Spreads q s raw
  read : ∀ b < q.blocks.size, ∀ front i rest, raw b = front ++ i :: rest → i.isPhi = false →
    s.var ∈ i.uses → s.last front = none → s.need b
  arg : ∀ b < q.blocks.size, ∀ phi, Inst.phi phi ∈ raw b → ∀ (slot : Nat) (pred : BlockId),
    phi.args[slot]? = some (some s.var) → (q.block b).preds[slot]? = some pred →
    s.last (raw pred) = none → s.need pred

theorem Spreads.congr (spreads : Spreads q s tails)
    (same : ∀ b, (tails' b).map Inst.defs = (tails b).map Inst.defs) : Spreads q s tails' where
  pred b p needed isPred noDef := spreads.pred b p needed isPred (Scope.last_congr (same p) ▸ noDef)
  parent b p needed noJoin isParent noDef :=
    spreads.parent b p needed noJoin isParent (Scope.last_congr (same p) ▸ noDef)

theorem Redirecting.defs (state : Redirecting q s raw marks heads tails r) (b : BlockId) :
    (tails b).map Inst.defs = (raw b).map Inst.defs := by
  obtain ⟨image, isTail, redirects⟩ := state.split b
  rw [isTail, map_append, redirects.defs, ← map_append, take_append_drop]

theorem ends_congr (same : ∀ b, (tails b).map Inst.defs = (raw b).map Inst.defs) :
    s.ends heads tails = s.ends heads raw := by
  funext b
  refine Scope.last_congr ?_
  rw [code, code, map_append, map_append, same b]

theorem Filled.congr {waiting : BlockId → Nat → Prop} (filled : Filled q s heads tails waiting)
    (same : ∀ b, (tails' b).map Inst.defs = (tails b).map Inst.defs) :
    Filled q s heads tails' waiting := by
  intro b lt phi isHead slot pred isPred notWaiting
  rw [ends_congr same]
  exact filled b lt phi isHead slot pred isPred notWaiting

theorem defs_update_tail (same : insts.map Inst.defs = (tails b).map Inst.defs)
    (c : BlockId) : (update tails b insts c).map Inst.defs = (tails c).map Inst.defs := by
  by_cases here : c = b
  · subst here
    rw [update_self]
    exact same
  · rw [update_of_ne here]

/-- One block gets further, while phis are added anywhere. -/
theorem Redirecting.advance (state : Redirecting q s raw marks heads tails r) {mark : Nat}
    {image : List Inst} (extends_ : Extends heads heads')
    (sound : Sound q s heads' (update tails b insts) r')
    (filled : Filled q s heads' (update tails b insts) fun _ _ => False)
    (isInsts : insts = image ++ (raw b).drop mark)
    (redirects : Redirects q s (s.ends heads' raw) b ((heads' b).map Phi.dst)
      ((raw b).take mark) image) :
    Redirecting q s raw (update marks b mark) heads' (update tails b insts) r' := by
  refine ⟨sound, filled, fun c => ?_⟩
  by_cases here : c = b
  · subst here
    rw [update_self, update_self]
    exact ⟨image, isInsts, redirects⟩
  · obtain ⟨image', isTail, redirects'⟩ := state.split c
    rw [update_of_ne here, update_of_ne here]
    exact ⟨image', isTail, redirects'.extend extends_ state.sound.isFresh sound.isFresh⟩

end Redirecting

/-! ## Redirecting one instruction -/

theorem modify_append (front rest : List Inst) (i : Inst) (f : Inst → Inst) :
    (front ++ i :: rest).modify front.length f = front ++ f i :: rest := by
  induction front with
  | nil => rfl
  | cons j front ih =>
    rw [cons_append, length_cons, modify_succ_cons, ih, cons_append]

section

variable {image rest : List Inst} (sound : Sound q s heads tails r) (lt : b < q.blocks.size)
  (isTail : tails b = image ++ i :: rest)

include sound lt isTail

/-- The place of an instruction, counted from the end of its block. -/
theorem Sound.position : (r.proc.block b).insts = ((heads b).toList.map Inst.phi ++ image) ++
      i :: rest ∧ r.position b (rest.length + 1) = ((heads b).toList.map Inst.phi ++ image).length ∧
      (r.proc.block b).insts[r.position b (rest.length + 1)]? = some i := by
  have insts : (r.proc.block b).insts = ((heads b).toList.map Inst.phi ++ image) ++ i :: rest := by
    rw [sound.insts b lt, code, isTail, append_assoc]
  have position : r.position b (rest.length + 1) =
      ((heads b).toList.map Inst.phi ++ image).length := by
    rw [Repair.position, insts, length_append, length_cons, Nat.add_sub_cancel]
  refine ⟨insts, position, ?_⟩
  rw [insts, position]
  simp

theorem Sound.modifyInst {f : Inst → Inst} (same : (f i).defs = i.defs) :
    Sound q s heads (update tails b (image ++ f i :: rest))
      (r.modifyAt b (rest.length + 1) f) := by
  obtain ⟨insts, position, -⟩ := sound.position lt isTail
  have defs : (image ++ f i :: rest).map Inst.defs = (tails b).map Inst.defs := by
    rw [isTail]
    simp [same]
  have mem : ∀ j ∈ image ++ f i :: rest, ∃ k ∈ tails b, k.defs = j.defs := by
    intro j inside
    have inDefs := mem_map_of_mem (f := Inst.defs) inside
    rw [defs] at inDefs
    exact mem_map.mp inDefs
  refine sound.retail lt (fun _ => rfl) ?_ (fun j inside d isDef => ?_)
    fun phi isHead j inside isDef => ?_
  · rw [position, Block.modifyInst, insts]
    exact (modify_append ..).trans (append_assoc ..)
  · obtain ⟨k, inTail, sameDefs⟩ := mem j inside
    exact sound.bound b lt k (mem_append_right _ inTail) d (sameDefs ▸ isDef)
  · obtain ⟨k, inTail, sameDefs⟩ := mem j inside
    exact (sound.head b phi isHead).absent k inTail (sameDefs ▸ isDef)

end

section Search

variable (wf : q.WellFormed) (ordered : q.Ordered) (dom : s.tree.Exact q)

variable {phi : Phi} {rest : List Inst}

theorem redirectAt_other (other : i.isPhi = false)
    (isAt : (r.proc.block b).insts[r.position b remaining]? = some i) :
    r.redirectAt b remaining =
      let found := r.reaching r.stepBound b (r.position b remaining)
      if r.var ∈ i.uses then
        found.2.modifyAt b remaining fun i => i.mapUses
          fun v => if v = found.2.var then found.1 else v
      else r := by
  unfold redirectAt
  rw [isAt]
  split
  · rename_i isNone
    cases isNone
  · rename_i isPhi
    cases isPhi
    cases other
  · rename_i isSome
    obtain rfl := Option.some.inj isSome
    simp only [List.contains_iff_mem]

theorem take_mark {insts : List Inst} {mark : Nat} (isRest : insts.drop mark = i :: rest) :
    insts.take (mark + 1) = insts.take mark ++ [i] ∧ insts.drop (mark + 1) = rest := by
  constructor
  · rw [take_add_one, ← head?_drop, isRest]
    rfl
  · rw [← drop_drop, isRest]
    rfl

section

variable (sound : Sound q s heads tails r) (filled : Filled q s heads tails fun _ _ => False)
  (spreads : Spreads q s tails) (lt : b < q.blocks.size)

include wf ordered dom sound filled spreads lt

theorem Sound.search {upTo : Nat}
    (isFront : (r.proc.block b).insts.take upTo = (heads b).toList.map Inst.phi ++ front)
    (inTail : ∀ i ∈ front, i ∈ tails b) (needed : s.last front = none → s.need b) :
    ∃ heads', Found q s tails (fun _ _ => False) heads r b front upTo
      (r.reaching r.stepBound b upTo) heads' := by
  have enough : room q heads b < r.stepBound := by
    rw [stepBound, sound.graph.size]
    exact room_lt q heads b
  exact finds wf ordered dom spreads r.stepBound r heads b front upTo _ sound filled lt isFront
    inTail needed enough

theorem Sound.foundArg {slot : Nat} {pred : BlockId}
    (isPred : (q.block b).preds[slot]? = some pred)
    (needed : s.last (tails pred) = none → s.need pred) :
    (r.proc.block b).preds.getD slot entry = pred ∧
    ∃ heads', Found q s tails (fun _ _ => False) heads r pred
      (tails pred) (r.proc.block pred).insts.length (r.foundArg b slot) heads' := by
  have isSource : (r.proc.block b).preds.getD slot entry = pred := by
    rw [sound.graph.preds, getD_eq_getElem?_getD, isPred, Option.getD_some]
  have inside := wf.lt_of_mem_preds lt (mem_of_getElem? isPred)
  refine ⟨isSource, ?_⟩
  rw [Repair.foundArg, isSource]
  exact sound.search wf ordered dom filled spreads inside (sound.take_all inside)
    (fun _ => id) needed

/-- An argument of a placed phi may be found again. -/
theorem Sound.redirectHead (isHead : heads b = some phi)
    (inside : ∀ slot ∈ slots, slot < (q.block b).preds.length) :
    ResolvesAll r (slots.foldl (redirectArg b ((tails b).length + 1)) r) ∧
    ∃ heads', Sound q s heads' tails (slots.foldl (redirectArg b ((tails b).length + 1)) r) ∧
      Extends heads heads' ∧ Filled q s heads' tails fun _ _ => False := by
  induction slots generalizing r heads phi with
  | nil => exact ⟨.none, heads, sound, .refl _, filled⟩
  | cons slot slots ih =>
    rw [forall_mem_cons] at inside
    have isPred := getElem?_eq_getElem inside.1
    obtain ⟨isSource, heads₁, search, sound₁, extends₁, filled₁, reaches⟩ :=
      sound.foundArg wf ordered dom filled spreads lt isPred
        (spreads.pred b _ (sound.head b phi isHead).needed (getElem_mem inside.1))
    have isAt : (r.proc.block b).insts[r.position b ((tails b).length + 1)]? = some (.phi phi) := by
      have insts := sound.insts b lt
      rw [code, isHead] at insts
      rw [Repair.position, insts]
      simp
    obtain ⟨phi₁, isHead₁, -⟩ := extends₁ b phi isHead
    rw [foldl_cons, redirectArg]
    generalize r.foundArg b slot = found at search sound₁ reaches ⊢
    have isCode : ((found.2.proc.block b).modifyInst (found.2.position b ((tails b).length + 1))
        (Inst.mapPhi (withArg · slot found.1))).insts =
          .phi (withArg phi₁ slot found.1) :: tails b := by
      have insts := sound₁.insts b lt
      rw [code, isHead₁] at insts
      have first : found.2.position b ((tails b).length + 1) = 0 := by
        rw [Repair.position, insts]
        simp
      rw [Block.modifyInst, first, insts]
      rfl
    have sound₂ := sound₁.setSlot (f := fun block => block.modifyInst
      (found.2.position b ((tails b).length + 1)) (Inst.mapPhi (withArg · slot found.1)))
      lt isHead₁ (fun _ => rfl) isCode
    have filled₂ := (filled₁.setSlot isHead₁ (sound₁.head b phi₁ isHead₁).arity isPred reaches).mono
      fun _ _ both => both.1
    obtain ⟨resolves, heads₃, sound₃, extends₃, filled₃⟩ :=
      ih sound₂ filled₂ (update_self ..) inside.2
    exact ⟨.more (.arg isAt (isSource.symm ▸ search)) resolves, heads₃, sound₃,
      (extends₁.trans (.setSlot isHead₁ slot found.1)).trans extends₃, filled₃⟩

private theorem Sound.redirectArgs {image : List Inst}
    (isTail : tails b = image ++ .phi phi :: rest)
    (arity : phi.args.length = (q.block b).preds.length)
    (inside : ∀ slot ∈ slots, slot < (q.block b).preds.length)
    (needed : ∀ slot ∈ slots, ∀ pred, (q.block b).preds[slot]? = some pred →
      s.last (tails pred) = none → s.need pred) :
    ResolvesAll r (slots.foldl (redirectArg b (rest.length + 1)) r) ∧
    ∃ heads' args, Extends heads heads' ∧
      Sound q s heads' (update tails b (image ++ .phi { phi with args := args } :: rest))
        (slots.foldl (redirectArg b (rest.length + 1)) r) ∧
      Filled q s heads' (update tails b (image ++ .phi { phi with args := args } :: rest))
        (fun _ _ => False) ∧
      args.length = phi.args.length ∧ (∀ slot, slot ∉ slots → args[slot]? = phi.args[slot]?) ∧
      ∀ slot ∈ slots, ∃ x pred, (q.block b).preds[slot]? = some pred ∧ args[slot]? = some (some x) ∧
        s.ReachesEnd (s.ends heads' tails) pred x := by
  induction slots generalizing r heads tails phi with
  | nil =>
    have same : update tails b (image ++ .phi phi :: rest) = tails :=
      isTail ▸ update_eq_self b tails
    exact ⟨.none, heads, phi.args, .refl _, same.symm ▸ sound, same.symm ▸ filled, rfl,
      fun _ _ => rfl, nofun⟩
  | cons slot slots ih =>
    rw [forall_mem_cons] at inside needed
    have isPred := getElem?_eq_getElem inside.1
    obtain ⟨isSource, heads₁, search, sound₁, extends₁, filled₁, reaches⟩ :=
      sound.foundArg wf ordered dom filled spreads lt isPred (needed.1 _ isPred)
    obtain ⟨-, -, isAt⟩ := sound.position lt isTail
    rw [foldl_cons, redirectArg]
    generalize r.foundArg b slot = found at search sound₁ reaches ⊢
    let set : Inst → Inst := Inst.mapPhi (withArg · slot found.1)
    have isSet : set (.phi phi) = .phi (withArg phi slot found.1) := rfl
    have sound₂ := sound₁.modifyInst (f := set) lt isTail rfl
    have sameDefs : ∀ c, (update tails b (image ++ set (.phi phi) :: rest) c).map Inst.defs =
        (tails c).map Inst.defs := by
      refine defs_update_tail ?_
      rw [isTail, isSet]
      simp [Inst.defs, withArg]
    have isTail₂ : update tails b (image ++ set (.phi phi) :: rest) b =
        image ++ .phi (withArg phi slot found.1) :: rest := update_self ..
    obtain ⟨resolves, heads₃, args, extends₃, sound₃, filled₃, length, kept, found₃⟩ :=
      ih sound₂ (filled₁.congr sameDefs) (spreads.congr sameDefs) isTail₂
        (length_set.trans arity) inside.2 fun k mem pred isPred noDef =>
          needed.2 k mem pred isPred (Scope.last_congr (sameDefs pred) ▸ noDef)
    rw [update_idem] at sound₃ filled₃
    have sameEnds : s.ends heads₃ (update tails b (image ++ set (.phi phi) :: rest)) =
        s.ends heads₃ tails := ends_congr sameDefs
    rw [sameEnds] at found₃
    refine ⟨.more (.arg isAt (isSource.symm ▸ search)) resolves, heads₃, args, extends₁.trans
      extends₃, sound₃, filled₃, length.trans length_set, fun k absent => ?_, fun k mem => ?_⟩
    · rw [mem_cons, not_or] at absent
      rw [kept k absent.2]
      exact getElem?_set_ne (Ne.symm absent.1)
    · by_cases later : k ∈ slots
      · exact found₃ k later
      · obtain rfl : k = slot := (mem_cons.mp mem).resolve_right later
        refine ⟨found.1, _, isPred, ?_, extends₃.reaches sound₁.isFresh sound₃.isFresh reaches⟩
        rw [kept k later]
        exact getElem?_set_self (arity ▸ inside.1)

end

theorem mem_stale {slot : Nat} : slot ∈ stale v phi ↔ phi.args[slot]? = some (some v) := by
  simp only [stale, mem_filterMap, Prod.exists, mem_zipIdx_iff_getElem?]
  constructor
  · rintro ⟨a, k, isAt, same⟩
    split at same
    · rename_i isVar
      obtain rfl := Option.some.inj same
      exact isVar ▸ isAt
    · cases same
  · intro isAt
    exact ⟨some v, slot, isAt, if_pos rfl⟩

theorem redirectAt_phi (isAt : (r.proc.block b).insts[r.position b remaining]? = some (.phi phi)) :
    r.redirectAt b remaining = (stale r.var phi).foldl (redirectArg b remaining) r := by
  rw [redirectAt, isAt]

namespace Redirecting

variable {raw : BlockId → List Inst} {marks : BlockId → Nat} (needs : Needs q s raw)
  (arity : ∀ b < q.blocks.size, ∀ phi, Inst.phi phi ∈ raw b →
    phi.args.length = (q.block b).preds.length)
  (state : Redirecting q s raw marks heads tails r)

include state

include wf ordered dom needs in
private theorem redirectOther (lt : b < q.blocks.size) (isRaw : (raw b).drop (marks b) = i :: rest)
    (other : i.isPhi = false) :
    ResolvesAll r (r.redirectAt b (rest.length + 1)) ∧
    ∃ heads' tails', Redirecting q s raw (update marks b (marks b + 1)) heads' tails'
      (r.redirectAt b (rest.length + 1)) := by
  obtain ⟨image, isTail, redirects⟩ := state.split b
  obtain ⟨isTake, isDrop⟩ := take_mark isRaw
  rw [isRaw] at isTail
  obtain ⟨insts, position, isAt⟩ := state.sound.position lt isTail
  rw [redirectAt_other other isAt, state.sound.var]
  dsimp only
  split
  · rename_i isRead
    have isFront : (r.proc.block b).insts.take (r.position b (rest.length + 1)) =
        (heads b).toList.map Inst.phi ++ image := by
      rw [insts, position, take_left]
    have isSplit : raw b = (raw b).take (marks b) ++ i :: rest := by
      rw [← isRaw, take_append_drop]
    obtain ⟨heads', search, sound, extends_, filled, reaches⟩ := state.sound.search wf ordered dom
      state.filled (needs.spreads.congr state.defs) lt isFront
      (fun j mem => isTail ▸ mem_append_left _ mem) fun noDef =>
        needs.read b lt _ i rest isSplit other isRead (Scope.last_congr redirects.defs ▸ noDef)
    generalize r.reaching r.stepBound b (r.position b (rest.length + 1)) =
      found at search sound reaches ⊢
    let rename : Inst → Inst := fun i => i.mapUses fun v => if v = found.2.var then found.1 else v
    have defs : (rename i).defs = i.defs := Inst.defs_mapUses ..
    have sameDefs : (image ++ rename i :: rest).map Inst.defs = (tails b).map Inst.defs := by
      rw [isTail]
      simp [defs]
    have isInsts : image ++ rename i :: rest =
        (image ++ [rename i]) ++ (raw b).drop (marks b + 1) := by
      rw [isDrop, append_assoc]
      rfl
    have redirected : Redirect q s (s.ends heads' raw) b
        ((s.last ((raw b).take (marks b))).or ((heads' b).map Phi.dst)) i (rename i) := by
      rw [sound.isFresh.last_eq, ends_congr state.defs, Scope.last_congr redirects.defs] at reaches
      have isImage : rename i = i.mapUses fun v => if v = s.var then found.1 else v := by
        rw [← sound.var]
      rw [isImage]
      exact .read other reaches
    refine ⟨(Resolves.read isAt other (state.sound.var ▸ isRead) search).all, heads', _,
      state.advance extends_ (sound.modifyInst lt isTail defs)
        (filled.congr (defs_update_tail sameDefs)) isInsts ?_⟩
    rw [isTake]
    exact (redirects.extend extends_ state.sound.isFresh sound.isFresh).concat redirected
  · rename_i unread
    have same := update_eq_self b tails
    have isInsts : tails b = (image ++ [i]) ++ (raw b).drop (marks b + 1) := by
      rw [isTail, isDrop, append_assoc]
      rfl
    refine ⟨.none, heads, _, state.advance (.refl _) (same.symm ▸ state.sound)
      (same.symm ▸ state.filled) isInsts ?_⟩
    rw [isTake]
    exact redirects.concat (.unread other unread)

include wf ordered dom needs arity in
private theorem redirectPhi (lt : b < q.blocks.size) {phi : Phi} {rest : List Inst}
    (isRaw : (raw b).drop (marks b) = .phi phi :: rest) :
    ResolvesAll r (r.redirectAt b (rest.length + 1)) ∧
    ∃ heads' tails', Redirecting q s raw (update marks b (marks b + 1)) heads' tails'
      (r.redirectAt b (rest.length + 1)) := by
  obtain ⟨image, isTail, redirects⟩ := state.split b
  obtain ⟨isTake, isDrop⟩ := take_mark isRaw
  rw [isRaw] at isTail
  have inRaw : Inst.phi phi ∈ raw b := by
    refine mem_of_mem_drop (i := marks b) ?_
    rw [isRaw]
    exact mem_cons_self
  have phiArity : phi.args.length = (q.block b).preds.length := arity b lt phi inRaw
  obtain ⟨-, -, isAt⟩ := state.sound.position lt isTail
  have inside : ∀ slot ∈ stale r.var phi, slot < (q.block b).preds.length := fun slot mem =>
    phiArity ▸ (List.getElem?_eq_some_iff.mp (mem_stale.mp mem)).1
  obtain ⟨resolves, heads', args, extends_, sound, filled, length, kept, found⟩ :=
    state.sound.redirectArgs wf ordered dom state.filled (needs.spreads.congr state.defs) lt
      isTail phiArity inside fun slot mem pred isPred noDef =>
        needs.arg b lt phi inRaw slot pred (state.sound.var ▸ mem_stale.mp mem) isPred
          (Scope.last_congr (state.defs pred) ▸ noDef)
  rw [redirectAt_phi isAt]
  have isInsts : image ++ Inst.phi { phi with args := args } :: rest =
      (image ++ [Inst.phi { phi with args := args }]) ++ (raw b).drop (marks b + 1) := by
    rw [isDrop, append_assoc]
    rfl
  refine ⟨resolves, heads', _, state.advance extends_ sound filled isInsts ?_⟩
  rw [isTake]
  refine (redirects.extend extends_ state.sound.isFresh sound.isFresh).concat (.phi length ?_ ?_)
  · intro slot a isArg other
    have fresh : slot ∉ stale r.var phi := by
      rw [mem_stale, isArg, state.sound.var, Option.some.injEq]
      exact other
    exact (kept slot fresh).trans isArg
  · intro slot isStale
    obtain ⟨x, pred, isPred, isArg, reaches⟩ :=
      found slot (mem_stale.mpr (state.sound.var.symm ▸ isStale))
    rw [ends_congr state.defs] at reaches
    exact ⟨x, pred, isPred, isArg, reaches⟩

include wf ordered dom needs arity in
private theorem redirectFrom (lt : b < q.blocks.size)
    (left : ((raw b).drop (marks b)).length = remaining) :
    ResolvesAll r (Repair.redirectFrom b remaining r) ∧
    ∃ marks' heads' tails', Redirecting q s raw marks' heads' tails'
      (Repair.redirectFrom b remaining r) ∧
      (raw b).drop (marks' b) = [] ∧ ∀ c, c ≠ b → marks' c = marks c := by
  induction remaining generalizing r heads tails marks with
  | zero =>
    exact ⟨.none, marks, heads, tails, state, eq_nil_of_length_eq_zero left, fun _ _ => rfl⟩
  | succ remaining ih =>
    match isRaw : (raw b).drop (marks b) with
    | [] =>
      rw [isRaw] at left
      cases left
    | i :: rest =>
      rw [isRaw] at left
      obtain rfl := Nat.succ.inj left
      have stepped : ResolvesAll r (r.redirectAt b (rest.length + 1)) ∧ ∃ heads' tails',
          Redirecting q s raw (update marks b (marks b + 1)) heads' tails'
          (r.redirectAt b (rest.length + 1)) := by
        cases isPhi : i.isPhi with
        | false => exact state.redirectOther wf ordered dom needs lt isRaw isPhi
        | true =>
          cases i with
          | phi phi => exact state.redirectPhi wf ordered dom needs arity lt isRaw
          | _ => cases isPhi
      obtain ⟨resolves₁, heads₁, tails₁, state₁⟩ := stepped
      have mark : update marks b (marks b + 1) b = marks b + 1 := update_self ..
      obtain ⟨resolves, marks', heads', tails', state', done, others⟩ := ih state₁ (by
        rw [mark, (take_mark isRaw).2])
      refine ⟨resolves₁.trans resolves, marks', heads', tails', state', done, fun c other => ?_⟩
      rw [others c other]
      exact update_of_ne other ..

private theorem extend (sound : Sound q s heads' tails r') (extends_ : Extends heads heads')
    (filled : Filled q s heads' tails fun _ _ => False) :
    Redirecting q s raw marks heads' tails r' := by
  refine ⟨sound, filled, fun b => ?_⟩
  obtain ⟨image, isTail, redirects⟩ := state.split b
  exact ⟨image, isTail, redirects.extend extends_ state.sound.isFresh sound.isFresh⟩

include wf ordered dom needs arity in
private theorem redirectBlock (lt : b < q.blocks.size) (untouched : marks b = 0) :
    ResolvesAll r (r.redirectBlock b) ∧
    ∃ marks' heads' tails', Redirecting q s raw marks' heads' tails' (r.redirectBlock b) ∧
      (raw b).drop (marks' b) = [] ∧ ∀ c, c ≠ b → marks' c = marks c := by
  have isTail : tails b = raw b := by
    obtain ⟨image, isTail, redirects⟩ := state.split b
    rw [untouched, take_zero] at redirects
    cases redirects
    rw [isTail, untouched]
    rfl
  have insts := state.sound.insts b lt
  rw [code, isTail] at insts
  have all : ((raw b).drop (marks b)).length = (raw b).length := by rw [untouched, drop_zero]
  rw [Repair.redirectBlock]
  split
  · rw [insts]
    cases isHead : heads b with
    | none => exact state.redirectFrom wf ordered dom needs arity lt all
    | some phi =>
      have isAt : (r.proc.block b).insts[r.position b ((raw b).length + 1)]? = some (.phi phi) := by
        rw [Repair.position, insts, isHead]
        simp
      have head := state.sound.head b phi isHead
      have inside : ∀ slot ∈ stale r.var phi, slot < (q.block b).preds.length := fun slot mem =>
        head.arity ▸ (List.getElem?_eq_some_iff.mp (mem_stale.mp mem)).1
      obtain ⟨resolves, heads', sound, extends_, filled⟩ := state.sound.redirectHead wf ordered
        dom state.filled (needs.spreads.congr state.defs) lt isHead inside
      rw [isTail, ← redirectAt_phi isAt] at resolves sound
      obtain ⟨later, rest⟩ := (state.extend sound extends_ filled).redirectFrom wf ordered dom needs
        arity lt all
      exact ⟨resolves.trans later, rest⟩
  · rename_i unread
    have unreadAt : ∀ i ∈ raw b, s.var ∉ i.uses ∧ ∀ phi, i = .phi phi → some s.var ∉ phi.args := by
      intro i mem
      have notRead : ¬_ :=
        fun reads => unread (any_eq_true.mpr ⟨i, insts ▸ mem_append_right _ mem, reads⟩)
      rw [state.sound.var] at notRead
      cases i with
      | phi phi =>
        refine ⟨not_mem_nil, ?_⟩
        rintro _ ⟨⟩ isArg
        exact notRead (List.contains_iff_mem.mpr isArg)
      | _ =>
        refine ⟨fun isUse => notRead (List.contains_iff_mem.mpr isUse), fun phi isPhi => ?_⟩
        cases isPhi
    have same := update_eq_self b tails
    have isInsts : tails b = raw b ++ (raw b).drop (raw b).length := by
      rw [isTail, drop_length, append_nil]
    have mark : update marks b (raw b).length b = (raw b).length := update_self ..
    refine ⟨.none, update marks b (raw b).length, heads, _, state.advance (.refl _)
      (same.symm ▸ state.sound) (same.symm ▸ state.filled) isInsts ?_, ?_,
      fun c other => update_of_ne other ..⟩
    · rw [take_length]
      exact .refl (fun i mem => (unreadAt i mem).1) fun phi mem => (unreadAt _ mem).2 phi rfl
    · rw [mark, drop_length]

include wf ordered dom needs arity in
theorem foldl {blocks : List BlockId}
    (inside : ∀ b ∈ blocks, b < q.blocks.size) (nodup : blocks.Nodup)
    (untouched : ∀ b ∈ blocks, marks b = 0) :
    ResolvesAll r (blocks.foldl Repair.redirectBlock r) ∧
    ∃ marks' heads' tails', Redirecting q s raw marks' heads' tails'
      (blocks.foldl Repair.redirectBlock r) ∧
      (∀ b ∈ blocks, (raw b).drop (marks' b) = []) ∧ ∀ c, c ∉ blocks → marks' c = marks c := by
  induction blocks generalizing r heads tails marks with
  | nil => exact ⟨.none, marks, heads, tails, state, nofun, fun _ _ => rfl⟩
  | cons b blocks ih =>
    rw [forall_mem_cons] at inside untouched
    rw [nodup_cons] at nodup
    obtain ⟨resolves₁, marks₁, heads₁, tails₁, state₁, done₁, others₁⟩ :=
      state.redirectBlock wf ordered dom needs arity inside.1 untouched.1
    obtain ⟨resolves₂, marks₂, heads₂, tails₂, state₂, done₂, others₂⟩ :=
      ih state₁ inside.2 nodup.2 fun c mem =>
        (others₁ c fun same => nodup.1 (same ▸ mem)).trans (untouched.2 c mem)
    refine ⟨resolves₁.trans resolves₂, marks₂, heads₂, tails₂, state₂,
      forall_mem_cons.mpr ⟨?_, done₂⟩, fun c absent => ?_⟩
    · rw [others₂ b nodup.1]
      exact done₁
    · rw [mem_cons, not_or] at absent
      exact (others₂ c absent.2).trans (others₁ c absent.1)

end Redirecting

end Search

end Repair

end ArmBackend
