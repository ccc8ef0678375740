import ArmBackend.Proofs.Descent.Variant
import ArmBackend.Proofs.FlowGraph.Padding
import ArmBackend.Ssa.Repair

/-!
Contract: repairing single-assignment form keeps flow graphs in form and changes instructions in
their variables only.

Owns: that every step of a repair leaves the graph as it is and every block in shape, that fresh
variables have the class and the web of the variable under repair, and that reads and definitions
are moved among these.
Does not own: which definition a repaired read is pointed at.
-/

namespace ArmBackend

open List Procedure

variable {v : VarId} {f : Block → Block}
variable {i : Inst} {top : VarId}

/-! ## Declared variables -/

/-- All variables that the instruction mentions are numbered below `top`, and it is balanced if it
is a copy. -/
structure Inst.Below (top : VarId) (i : Inst) : Prop where
  defs : ∀ d ∈ i.defs, d < top
  uses : ∀ u ∈ i.uses, u < top
  phiArgs : ∀ phi, i = .phi phi → ∀ a, some a ∈ phi.args → a < top
  balanced : i.Balanced

theorem Inst.Below.mono {top' : VarId} (below : i.Below top) (grows : top ≤ top') : i.Below top' :=
  ⟨fun d isDef => Nat.lt_of_lt_of_le (below.defs d isDef) grows,
    fun u isUse => Nat.lt_of_lt_of_le (below.uses u isUse) grows,
    fun phi isPhi a isArg => Nat.lt_of_lt_of_le (below.phiArgs phi isPhi a isArg) grows,
    below.balanced⟩

private theorem Inst.balanced_mapUses (i : Inst) (f : VarId → VarId) :
    (i.mapUses f).Balanced ↔ i.Balanced := by
  cases i with
  | prepare defs srcs argCount =>
    rw [mapUses_prepare, Balanced, length_map]
    exact Iff.rfl
  | _ => exact Iff.rfl

private theorem Inst.Below.mapUses {f : VarId → VarId} (below : i.Below top)
    (inside : ∀ u ∈ i.uses, f u < top) : (i.mapUses f).Below top := by
  refine ⟨?_, fun u isUse => ?_, fun phi isPhi => ?_, (balanced_mapUses i f).mpr below.balanced⟩
  · rw [defs_mapUses]
    exact below.defs
  · rw [uses_mapUses] at isUse
    obtain ⟨u', isUse', rfl⟩ := mem_map.mp isUse
    exact inside u' isUse'
  · cases i with
    | phi => exact below.phiArgs phi isPhi
    | _ => cases isPhi

theorem Inst.Below.setArg {phi : Phi} (below : (Inst.phi phi).Below top) (slot : Nat)
    (lt : v < top) : (Inst.phi { phi with args := phi.args.set slot (some v) }).Below top := by
  refine ⟨below.defs, below.uses, ?_, trivial⟩
  rintro _ ⟨⟩ a isArg
  rcases mem_or_eq_of_mem_set isArg with old | new
  · exact below.phiArgs phi rfl a old
  · exact Option.some.inj new ▸ lt

namespace Procedure

variable {p q r : Procedure}

theorem Bounded.below (bounded : p.Bounded) {b : BlockId} {i : Inst} (mem : i ∈ (p.block b).insts) :
    i.Below p.nextVar := by
  have lt := lt_size_of_mem_insts mem
  exact ⟨bounded.defs b lt i mem, bounded.uses b lt i mem,
    fun phi isPhi => bounded.phiArgs b lt phi (isPhi ▸ mem), bounded.balanced b lt i mem⟩

theorem bounded_of_below (args : ∀ a ∈ p.args, a < p.nextVar)
    (each : ∀ b < p.blocks.size, ∀ i ∈ (p.block b).insts, i.Below p.nextVar) : p.Bounded :=
  ⟨args, fun b lt i mem => (each b lt i mem).defs, fun b lt i mem => (each b lt i mem).uses,
    fun b lt phi mem => (each b lt _ mem).phiArgs phi rfl,
    fun b lt i mem => (each b lt i mem).balanced⟩

theorem Bounded.grow (bounded : p.Bounded) (blocks : q.blocks = p.blocks) (args : q.args = p.args)
    (grows : p.nextVar ≤ q.nextVar) : q.Bounded := by
  refine bounded_of_below (fun a isArg => Nat.lt_of_lt_of_le (bounded.args a (args ▸ isArg)) grows)
    fun b _ i mem => (bounded.below (b := b) ?_).mono grows
  rw [block, blocks] at mem
  exact mem

theorem Bounded.modifyBlock (bounded : p.Bounded) (b : BlockId)
    (below : ∀ i ∈ (f (p.block b)).insts, i.Below p.nextVar) : (p.modifyBlock b f).Bounded := by
  refine bounded_of_below bounded.args fun c _ i mem => ?_
  rw [block_modifyBlock] at mem
  split at mem
  · rename_i here
    exact below i (here.1 ▸ mem)
  · exact bounded.below mem

/-- `q` has the blocks of `p` with other instructions, and the variables of `p` with local ones
added. -/
structure Augments (p q : Procedure) : Prop where
  rest : q = { p with blocks := q.blocks, vars := q.vars, locals := q.locals }
  size : q.blocks.size = p.blocks.size
  block : ∀ b, q.block b = { p.block b with insts := (q.block b).insts }
  grows : p.nextVar ≤ q.nextVar
  locals : q.locals = p.locals ++ range' p.nextVar (q.nextVar - p.nextVar)

namespace Augments

theorem refl (p : Procedure) : p.Augments p := by
  refine ⟨rfl, rfl, fun _ => rfl, Nat.le_refl _, ?_⟩
  rw [Nat.sub_self, range'_zero, append_nil]

theorem trans (first : p.Augments q) (second : q.Augments r) : p.Augments r where
  rest := second.rest.trans (congrArg (fun p : Procedure =>
    { p with blocks := r.blocks, vars := r.vars, locals := r.locals }) first.rest)
  size := second.size.trans first.size
  block b := (second.block b).trans
    (congrArg ({ · with insts := (r.block b).insts }) (first.block b))
  grows := Nat.le_trans first.grows second.grows
  locals := by
    rw [second.locals, first.locals, append_assoc, ← Nat.sub_add_sub_cancel
      second.grows first.grows, Nat.add_comm, ← range'_append_1, Nat.add_sub_cancel' first.grows]

theorem modifyBlock (augments : p.Augments q) (b : BlockId)
    (only : ∀ block : Block, f block = { block with insts := (f block).insts }) :
    p.Augments (q.modifyBlock b f) where
  rest := congrArg (fun p : Procedure => { p with blocks := q.blocks.modify b f }) augments.rest
  size := (size_modifyBlock ..).trans augments.size
  block c := by
    rw [block_modifyBlock]
    split
    · rw [only, augments.block c]
    · exact augments.block c
  grows := augments.grows
  locals := augments.locals

end Augments

end Procedure

namespace Repair

variable {r : Repair} {x : VarId}

/-- All that a repair mentions is declared. -/
structure Declared (r : Repair) : Prop where
  bounded : r.proc.Bounded
  var : r.var < r.proc.nextVar
  fresh : ∀ x, r.fresh.contains x = true → x < r.proc.nextVar

theorem Declared.lt (declared : r.Declared) (version : x = r.var ∨ r.fresh.contains x = true) :
    x < r.proc.nextVar :=
  version.elim (fun same => same ▸ declared.var) (declared.fresh x)

/-- Fresh variables have the type and the web of the variable under repair. -/
def Uniform (r : Repair) : Prop := ∀ x, r.fresh.contains x = true →
  (r.proc.var x).ty = (r.proc.var r.var).ty ∧ (r.proc.var x).web = (r.proc.var r.var).web

private theorem Uniform.standsFor (uniform : r.Uniform)
    (version : x = r.var ∨ r.fresh.contains x = true) : r.proc.StandsFor r.proc r.var x := by
  rcases version with rfl | isFresh
  · exact .refl _ _
  · obtain ⟨ty, web⟩ := uniform x isFresh
    exact ⟨fun name isObject => ty.trans isObject, fun w isWeb => web.trans isWeb⟩

/-- The second state of a repair comes after the first. -/
structure Advances (r r' : Repair) : Prop where
  var : r'.var = r.var
  reshaped : r.proc.Reshaped r'.proc
  continues : r.proc.Continues r'.proc
  uniform : r.Uniform → r'.Uniform
  grows : ∀ x, r.fresh.contains x = true → r'.fresh.contains x = true
  declared : r.Declared → r'.Declared
  augments : r.proc.Augments r'.proc

namespace Advances

variable {r r' r'' : Repair}

theorem refl (r : Repair) : r.Advances r := ⟨rfl, .refl _, .refl _, id, fun _ => id, id, .refl _⟩

theorem trans (first : r.Advances r') (second : r'.Advances r'') : r.Advances r'' :=
  ⟨second.var.trans first.var, first.reshaped.trans second.reshaped,
    first.continues.trans second.continues,
    second.uniform ∘ first.uniform, fun x isFresh => second.grows x (first.grows x isFresh),
    second.declared ∘ first.declared, first.augments.trans second.augments⟩

theorem foldl {α : Type} {f : Repair → α → Repair} (entries : List α) (r : Repair)
    (uniform : r.Uniform) (step : ∀ r : Repair, r.Uniform → ∀ entry, r.Advances (f r entry)) :
    r.Advances (entries.foldl f r) := by
  induction entries generalizing r with
  | nil => exact .refl r
  | cons entry rest ih =>
    have first := step r uniform entry
    exact first.trans (ih _ (first.uniform uniform))

theorem modifyBlock (r : Repair) (b : BlockId) {count : Nat}
    (only : ∀ block : Block, f block = { block with insts := (f block).insts })
    (reshaped : r.proc.Reshaped (r.proc.modifyBlock b f))
    (below : r.Declared → ∀ j ∈ (f (r.proc.block b)).insts, j.Below r.proc.nextVar)
    (each : ∀ j ∈ (f (r.proc.block b)).insts,
      r.proc.Adds j ∨ ∃ i ∈ (r.proc.block b).insts, i.Variant (r.proc.StandsFor r.proc) j) :
    r.Advances { r with proc := r.proc.modifyBlock b f, phis := count } :=
  ⟨rfl, reshaped, .of_modifyBlock r.proc b each, id, fun _ => id, fun declared =>
    ⟨declared.bounded.modifyBlock b (below declared), declared.var, declared.fresh⟩,
      .modifyBlock (.refl _) b only⟩

end Advances

variable {i : Inst} {d new old : VarId} {r : Repair}

/-! ## Fresh variables -/

theorem nextVar_mint (r : Repair) : r.mint.proc.nextVar = r.proc.nextVar + 1 :=
  (nextVar_setWeb ..).trans (nextVar_addLocal ..)

theorem var_mint (r : Repair) (u : VarId) : r.mint.proc.var u = if u = r.proc.nextVar
      then ⟨(r.proc.var r.var).name ++ "_" ++ toString r.fresh.size, (r.proc.var r.var).ty, none,
        (r.proc.var r.var).web⟩
      else r.proc.var u := by
  have looked : r.mint.proc.var u = _ := var_setWeb ..
  rw [looked, nextVar_addLocal, var_addLocal]
  by_cases isNew : u = r.proc.nextVar
  · rw [if_pos ⟨isNew.symm, isNew ▸ Nat.lt_succ_self _⟩, if_pos isNew, if_pos isNew]
  · rw [if_neg fun both => isNew both.1.symm, if_neg isNew, if_neg isNew]

theorem sameBlocks_mint (r : Repair) : r.proc.SameBlocks r.mint.proc := ⟨rfl, rfl, rfl, rfl⟩

/-- A variable outside the table gets no other type and no web by being minted. -/
theorem traits_mint (r : Repair) (u : VarId) (version : u = r.var ∨ u ≠ r.proc.nextVar) :
    (r.mint.proc.var u).ty = (r.proc.var u).ty ∧ (r.mint.proc.var u).web = (r.proc.var u).web := by
  rw [var_mint]
  split
  · rename_i isNew
    rcases version with rfl | other
    · exact ⟨rfl, rfl⟩
    · exact absurd isNew other
  · exact ⟨rfl, rfl⟩

private theorem reg?_mint (r : Repair) (v : VarId) : r.mint.proc.reg? v = r.proc.reg? v :=
  (reg?_setWeb ..).trans (r.proc.reg?_newVar _ _ v)

private theorem augments_mint (r : Repair) : r.proc.Augments r.mint.proc := by
  refine ⟨rfl, rfl, fun _ => rfl, r.nextVar_mint ▸ Nat.le_succ _, ?_⟩
  rw [nextVar_mint, Nat.add_sub_cancel_left]
  rfl

theorem advances_mint (r : Repair) : r.Advances r.mint := by
  have own : ∀ v, r.proc.StandsFor r.mint.proc v v := by
    intro v
    by_cases isNew : v = r.proc.nextVar
    · exact .of_outside (Nat.le_of_eq isNew.symm)
    · obtain ⟨ty, web⟩ := r.traits_mint v (.inr isNew)
      exact ⟨fun name isObject => ty.trans isObject, fun w isWeb => web.trans isWeb⟩
  have fresh : ∀ x, r.mint.fresh.contains x = true ↔ r.fresh.contains x = true ∨
      r.proc.nextVar = x := by
    intro x
    change (r.fresh.insert r.proc.nextVar).contains x = true ↔ _
    rw [IndexSet.contains_insert, Bool.or_eq_true, decide_eq_true_eq]
  refine ⟨rfl, r.sameBlocks_mint.padded.reshaped, ?_, fun uniform x isFresh => ?_,
    fun x isFresh => (fresh x).mpr (.inl isFresh), fun declared => ?_, r.augments_mint⟩
  · exact Descends.of_blocks own rfl rfl r.reg?_mint rfl
  · obtain ⟨ty, web⟩ := r.traits_mint r.var (.inl rfl)
    change (r.mint.proc.var x).ty = (r.mint.proc.var r.var).ty ∧
      (r.mint.proc.var x).web = (r.mint.proc.var r.var).web
    rw [ty, web]
    by_cases isNew : x = r.proc.nextVar
    · rw [var_mint, if_pos isNew]
      exact ⟨rfl, rfl⟩
    · obtain ⟨ty', web'⟩ := r.traits_mint x (.inr isNew)
      rw [ty', web']
      exact uniform x (((fresh x).mp isFresh).resolve_right (Ne.symm isNew))
  · have more : r.proc.nextVar < r.mint.proc.nextVar := r.nextVar_mint ▸ Nat.lt_succ_self _
    refine ⟨declared.bounded.grow rfl rfl (Nat.le_of_lt more), Nat.lt_trans declared.var more,
      fun x isFresh => ?_⟩
    rcases (fresh x).mp isFresh with old | rfl
    · exact Nat.lt_trans (declared.fresh x old) more
    · exact more

/-! ## Definitions -/

private theorem variant_redefine {relates : VarId → VarId → Prop} (own : ∀ v, relates v v)
    (related : relates old new) (i : Inst) : i.Variant relates (redefine old new i) := by
  cases i with
  | prepare defs srcs argCount => exact .prepare ..
  | _ =>
    refine .mapDefs own fun v _ => ?_
    split
    · rename_i same
      exact same ▸ related
    · exact own v

private theorem alike_redefine (old new : VarId) (i : Inst) : i.Alike (redefine old new i) := by
  cases i with
  | prepare defs srcs argCount =>
    exact ⟨nofun, fun _ => rfl, fun _ _ => False.elim⟩
  | _ => exact .mapDefs _ _

theorem mem_replaceFirst {vars : List VarId} (mem : d ∈ replaceFirst old new vars) :
    d = new ∨ d ∈ vars := by
  induction vars with
  | nil => cases mem
  | cons v rest ih =>
    rw [replaceFirst] at mem
    split at mem
    · exact (mem_cons.mp mem).imp_right (mem_cons_of_mem _)
    · rcases mem_cons.mp mem with rfl | later
      · exact .inr mem_cons_self
      · exact (ih later).imp_right (mem_cons_of_mem _)

theorem mem_defs_redefine (mem : d ∈ (redefine old new i).defs) : d = new ∨ d ∈ i.defs := by
  have renamed : ∀ j : Inst, d ∈ (j.mapDefs fun v => if v = old then new else v).defs → d = new ∨
      d ∈ j.defs := by
    intro j mem
    rw [Inst.defs_mapDefs, mem_map] at mem
    obtain ⟨v, isDef, same⟩ := mem
    split at same
    · exact .inl same.symm
    · exact .inr (same ▸ isDef)
  cases i with
  | prepare defs srcs argCount => exact mem_replaceFirst mem
  | _ => exact renamed _ mem

theorem length_replaceFirst (old new : VarId) (vars : List VarId) :
    (replaceFirst old new vars).length = vars.length := by
  induction vars with
  | nil => rfl
  | cons v rest ih =>
    rw [replaceFirst]
    split
    · rfl
    · rw [length_cons, length_cons, ih]

private theorem balanced_redefine (old new : VarId) (i : Inst) :
    (redefine old new i).Balanced ↔ i.Balanced := by
  cases i with
  | prepare defs srcs argCount =>
    change (replaceFirst old new defs).length = _ ↔ _
    rw [length_replaceFirst]
    exact Iff.rfl
  | _ => exact Iff.rfl

theorem uses_redefine (old new : VarId) (i : Inst) : (redefine old new i).uses = i.uses := by
  cases i with
  | prepare defs srcs argCount => rfl
  | _ => exact Inst.uses_mapDefs _ _

private theorem below_redefine {top : VarId} (below : i.Below top) (lt : new < top) :
    (redefine old new i).Below top := by
  refine ⟨fun d isDef => ?_, uses_redefine old new i ▸ below.uses, fun phi isPhi => ?_,
    (balanced_redefine old new i).mpr below.balanced⟩
  · rcases mem_defs_redefine isDef with rfl | isOld
    · exact lt
    · exact below.defs d isOld
  · cases i with
    | phi node =>
      obtain rfl := Inst.phi.inj isPhi
      exact below.phiArgs node rfl
    | _ => cases isPhi

private theorem standsFor_mint (r : Repair) :
    r.proc.StandsFor r.mint.proc r.var r.proc.nextVar := by
  have new : r.mint.proc.var r.proc.nextVar = _ := (r.var_mint r.proc.nextVar).trans (if_pos rfl)
  refine ⟨fun name isObject => ?_, fun w isWeb => ?_⟩
  · rw [new]
    exact isObject
  · rw [web?, new]
    exact isWeb

theorem renameDefs_cons (i : Inst) (rest : List Inst) (r : Repair) :
    (renameDefs (i :: rest)).run r = if r.var ∈ i.defs
      then (redefine r.var r.proc.nextVar i :: ((renameDefs rest).run r.mint).1,
        ((renameDefs rest).run r.mint).2)
      else (i :: ((renameDefs rest).run r).1, ((renameDefs rest).run r).2) := by
  by_cases defines : r.var ∈ i.defs
  · simp only [renameDefs, StateT.run, bind, StateT.bind, MonadState.get,
      getThe, MonadStateOf.get, StateT.get, pure, contains_iff_mem, defines, if_true]
    rfl
  · simp only [renameDefs, StateT.run, bind, StateT.bind, MonadState.get,
      getThe, MonadStateOf.get, StateT.get, pure, contains_iff_mem, defines, if_false]
    rfl

theorem renameDefs_spec (insts : List Inst) (r : Repair) :
    r.Advances ((renameDefs insts).run r).2 ∧ r.proc.SameBlocks ((renameDefs insts).run r).2.proc ∧
      Pads insts ((renameDefs insts).run r).1 ∧ (∀ j ∈ ((renameDefs insts).run r).1,
        ∃ i ∈ insts, i.Variant (r.proc.StandsFor ((renameDefs insts).run r).2.proc) j) ∧
      ((∀ i ∈ insts, i.Below r.proc.nextVar) →
        ∀ j ∈ ((renameDefs insts).run r).1, j.Below ((renameDefs insts).run r).2.proc.nextVar) := by
  induction insts generalizing r with
  | nil => exact ⟨.refl r, .refl _, .nil, forall_mem_nil _, fun _ => forall_mem_nil _⟩
  | cons i rest ih =>
    rw [renameDefs_cons]
    split
    · have first := r.advances_mint
      obtain ⟨later, same, pads, variants, lt⟩ := ih r.mint
      refine ⟨first.trans later, r.sameBlocks_mint.trans same, .keep (alike_redefine ..) pads,
        forall_mem_cons.mpr ⟨⟨i, mem_cons_self, ?_⟩, ?_⟩, fun below => ?_⟩
      · refine variant_redefine (first.trans later).continues.own ?_ i
        exact r.standsFor_mint.trans (later.continues.own _)
      · intro j mem
        obtain ⟨i', inRest, variant⟩ := variants j mem
        refine ⟨i', mem_cons_of_mem _ inRest,
          (Inst.Variant.refl first.continues.own i').trans ?_ variant⟩
        exact fun _ _ _ => StandsFor.trans
      · rw [forall_mem_cons] at below ⊢
        refine ⟨below_redefine
          (below.1.mono (Nat.le_trans first.augments.grows later.augments.grows)) ?_,
          lt fun i mem => (below.2 i mem).mono first.augments.grows⟩
        exact Nat.lt_of_lt_of_le (r.nextVar_mint ▸ Nat.lt_succ_self _) later.augments.grows
    · obtain ⟨later, same, pads, variants, lt⟩ := ih r
      refine ⟨later, same, .keep (.refl i) pads,
        forall_mem_cons.mpr ⟨⟨i, mem_cons_self, .refl later.continues.own i⟩, ?_⟩, fun below => ?_⟩
      · intro j mem
        obtain ⟨i', inRest, variant⟩ := variants j mem
        exact ⟨i', mem_cons_of_mem _ inRest, variant⟩
      · rw [forall_mem_cons] at below ⊢
        exact ⟨below.1.mono later.augments.grows, lt below.2⟩

theorem advances_renameDefinitions (r : Repair) (uniform : r.Uniform) :
    r.Advances r.renameDefinitions := by
  refine .foldl _ r uniform fun r _ b => ?_
  obtain ⟨later, same, pads, variants, lt⟩ := renameDefs_spec (r.proc.block b).insts r
  unfold renameBlock
  generalize (renameDefs (r.proc.block b).insts).run r = result at later same pads variants lt ⊢
  rw [← same.block b] at pads
  refine ⟨later.var, (same.padded.trans (padded_setInsts _ b pads)).reshaped,
    later.continues.modifyBlock b fun j mem => .inr ?_, later.uniform,
    later.grows, fun declared => ?_, later.augments.modifyBlock b fun _ => rfl⟩
  · obtain ⟨i, inBlock, variant⟩ := variants j mem
    exact ⟨i, mem_insts.mpr ⟨b, inBlock⟩, variant⟩
  · have declared' := later.declared declared
    refine ⟨declared'.bounded.modifyBlock b (lt ?_), declared'.var, declared'.fresh⟩
    exact fun i mem => declared.bounded.below mem

/-! ## Reads -/

private theorem advances_setPhiArg (b : BlockId) (dst : VarId) (slot : Nat) {value : VarId}
    (version : value = r.var ∨ r.fresh.contains value = true) :
    r.Advances (r.setPhiArg b dst slot value) := by
  refine .modifyBlock r b (fun _ => rfl) (padded_modifyBlock r.proc b (fun _ => rfl)
    fun _ => .map (fun i => ?_) _).reshaped (fun declared j mem => ?_) fun j mem => .inr ?_
  · unfold setArg
    split
    · split
      · refine ⟨?_, nofun, fun _ _ => False.elim⟩
        rintro phi ⟨⟩
        exact ⟨_, rfl, length_set⟩
      · exact .refl _
    · exact .refl _
  · obtain ⟨i, inBlock, rfl⟩ := mem_map.mp mem
    have below := declared.bounded.below inBlock
    unfold setArg
    split
    · split
      · exact below.setArg slot (declared.lt version)
      · exact below
    · exact below
  · obtain ⟨i, inBlock, rfl⟩ := mem_map.mp mem
    refine ⟨i, inBlock, ?_⟩
    unfold setArg
    split
    · split
      · exact .phi ..
      · exact .refl (.refl _) _
    · exact .refl (.refl _) _

private theorem advances_withPhi (r : Repair) (b : BlockId) : r.Advances (r.withPhi b) := by
  refine r.advances_mint.trans (.modifyBlock r.mint b (fun _ => rfl)
    (reshaped_insertPhi _ b (length_map _)) (fun declared j mem => ?_) fun j mem => ?_)
  · rcases mem_cons.mp mem with rfl | old
    · refine ⟨fun d isDef => ?_, nofun, ?_, trivial⟩
      · rw [mem_singleton.mp isDef, r.nextVar_mint]
        exact Nat.lt_succ_self _
      · rintro _ ⟨⟩ a isArg
        obtain ⟨_, -, never⟩ := mem_map.mp isArg
        cases never
    · exact declared.bounded.below old
  · rcases mem_cons.mp mem with rfl | old
    · exact .inl True.intro
    · exact .inr ⟨j, old, .refl (.refl _) j⟩

/-- Find the argument for one predecessor of a placed phi. -/
def fillArg (steps : Nat) (b : BlockId) (dst : VarId) (r : Repair) (pred : BlockId × Nat) :
    Repair :=
  let found := r.reaching steps pred.1 (r.proc.block pred.1).insts.length
  found.2.setPhiArg b dst pred.2 found.1

theorem reaching_succ (r : Repair) (steps : Nat) (b : BlockId) (upTo : Nat) : r.reaching
      (steps + 1) b upTo = match r.lastDefinition? ((r.proc.block b).insts.take upTo) with
      | some v => (v, r)
      | none =>
        if r.joins.contains b then
          (r.proc.nextVar, ((r.withPhi b).proc.block b).preds.zipIdx.foldl
            (fillArg steps b r.proc.nextVar) (r.withPhi b))
        else
          match r.tree.idom? b with
          | none => (r.var, r)
          | some parent => r.reaching steps parent (r.proc.block parent).insts.length := rfl

private theorem fresh_lastDefinition {insts : List Inst}
    (found : r.lastDefinition? insts = some v) : r.fresh.contains v = true := by
  obtain ⟨i, -, isDef⟩ := exists_of_findSome?_eq_some found
  exact find?_some isDef

theorem advances_reaching (steps : Nat) (r : Repair) (uniform : r.Uniform) (b : BlockId)
    (upTo : Nat) :
    r.Advances (r.reaching steps b upTo).2 ∧
      ((r.reaching steps b upTo).1 = (r.reaching steps b upTo).2.var ∨
        (r.reaching steps b upTo).2.fresh.contains (r.reaching steps b upTo).1 = true) := by
  induction steps generalizing r b upTo with
  | zero => exact ⟨.refl r, .inl rfl⟩
  | succ steps ih =>
    rw [reaching_succ]
    split
    · rename_i v found
      exact ⟨.refl r, .inr (fresh_lastDefinition found)⟩
    · split
      · have placed := r.advances_withPhi b
        have isFresh : (r.withPhi b).fresh.contains r.proc.nextVar = true := by
          change (r.fresh.insert r.proc.nextVar).contains r.proc.nextVar = true
          simp
        have filled : (r.withPhi b).Advances (((r.withPhi b).proc.block b).preds.zipIdx.foldl
            (fillArg steps b r.proc.nextVar) (r.withPhi b)) :=
          .foldl _ _ (placed.uniform uniform) fun r uniform pred =>
            have ⟨found, version⟩ := ih r uniform pred.1 _
            found.trans (advances_setPhiArg _ _ _ version)
        exact ⟨placed.trans filled, .inr (filled.grows _ isFresh)⟩
      · split
        · exact ⟨.refl r, .inl rfl⟩
        · exact ih r uniform _ _

private theorem advances_redirectArg (b : BlockId) (remaining : Nat) (r : Repair)
    (uniform : r.Uniform) (slot : Nat) : r.Advances (redirectArg b remaining r slot) := by
  obtain ⟨found, version⟩ :=
    advances_reaching r.stepBound r uniform ((r.proc.block b).preds.getD slot entry)
    (r.proc.block ((r.proc.block b).preds.getD slot entry)).insts.length
  refine found.trans
    (.modifyBlock _ b (fun _ => rfl) (padded_modifyBlock _ b (fun _ => rfl) fun _ =>
    .modify (fun i => .mapPhi i fun phi => length_set) _ _).reshaped (fun declared j mem => ?_)
    fun j mem => .inr ?_)
  · rcases exists_of_mem_modify mem with old | ⟨i, old, rfl⟩
    · exact declared.bounded.below old
    · have below := declared.bounded.below old
      cases i with
      | phi => exact below.setArg slot (declared.lt version)
      | _ => exact below
  · rcases exists_of_mem_modify mem with old | ⟨i, old, rfl⟩
    · exact ⟨j, old, .refl (.refl _) j⟩
    · exact ⟨i, old, .mapPhi (.refl _) _ i⟩

private theorem advances_redirectAt (r : Repair) (uniform : r.Uniform)
    (b : BlockId) (remaining : Nat) : r.Advances (r.redirectAt b remaining) := by
  unfold redirectAt
  split
  · exact .refl r
  · exact .foldl _ r uniform fun r uniform slot => advances_redirectArg b remaining r uniform slot
  · split
    · obtain ⟨found, version⟩ := advances_reaching r.stepBound r uniform b (r.position b remaining)
      generalize r.reaching r.stepBound b (r.position b remaining) = result at found version ⊢
      refine found.trans
        (.modifyBlock _ b (fun _ => rfl) (padded_modifyBlock _ b (fun _ => rfl) fun _ =>
        .modify (fun i => .mapUses i _) _ _).reshaped (fun declared j mem => ?_)
          fun j mem => .inr ?_)
      · rcases exists_of_mem_modify mem with old | ⟨i, old, rfl⟩
        · exact declared.bounded.below old
        · have below := declared.bounded.below old
          refine below.mapUses fun u isUse => ?_
          split
          · exact declared.lt version
          · exact below.uses u isUse
      · rcases exists_of_mem_modify mem with old | ⟨i, old, rfl⟩
        · exact ⟨j, old, .refl (.refl _) j⟩
        · refine ⟨i, old, .mapUses (.refl _) fun v _ => ?_⟩
          split
          · rename_i same
            rw [same]
            exact (found.uniform uniform).standsFor version
          · exact .refl _ v
    · exact .refl r

private theorem advances_redirectFrom (b : BlockId) (remaining : Nat)
    (r : Repair) (uniform : r.Uniform) : r.Advances (redirectFrom b remaining r) := by
  induction remaining generalizing r with
  | zero => exact .refl r
  | succ remaining ih =>
    have first := r.advances_redirectAt uniform b (remaining + 1)
    exact first.trans (ih _ (first.uniform uniform))

theorem advances_redirectReads (r : Repair) (uniform : r.Uniform) : r.Advances r.redirectReads := by
  refine .foldl _ r uniform fun r uniform b => ?_
  unfold redirectBlock
  split
  · exact advances_redirectFrom b _ r uniform
  · exact .refl r

end Repair

theorem uniform_ofVar (p : Procedure) (v : VarId) (t : DomTree) : (Repair.ofVar p v t).Uniform := by
  intro x isFresh
  rw [Repair.ofVar, IndexSet.contains_empty] at isFresh
  cases isFresh

/-- What repairing some variables does: it keeps the graph and the shape of its blocks, changes
instructions in their variables only, and mentions declared variables if these were among them. -/
structure Procedure.Retouches (p q : Procedure) (vars : List VarId) : Prop where
  reshaped : p.Reshaped q
  continues : p.Continues q
  bounded : p.Bounded → (∀ v ∈ vars, v < p.nextVar) → q.Bounded
  nextVar : p.nextVar ≤ q.nextVar

theorem Procedure.retouches_repairSsa (p : Procedure) (v : VarId) (t : DomTree) (f : Frontiers) :
    p.Retouches (p.repairSsa v t f).1 [v] := by
  have uniform := uniform_ofVar p v t
  have declared (bounded : p.Bounded) (below : v < p.nextVar) : (Repair.ofVar p v t).Declared := by
    refine ⟨bounded, below, fun x isFresh => ?_⟩
    rw [Repair.ofVar, IndexSet.contains_empty] at isFresh
    cases isFresh
  have renamed := Repair.advances_renameDefinitions _ uniform
  have redirected := Repair.advances_redirectReads (.start p v t f) (renamed.uniform uniform)
  have removed : ∀ q : Procedure, q.SameBlocks (q.removeLocal v) := fun q => ⟨rfl, rfl, rfl, rfl⟩
  refine ⟨(renamed.reshaped.trans redirected.reshaped).trans (removed _).padded.reshaped,
    (renamed.continues.trans redirected.continues).trans
    (.of_blocks (.of_vars rfl) rfl rfl (fun _ => rfl) rfl),
    fun bounded below => ?_, Nat.le_trans renamed.augments.grows redirected.augments.grows⟩
  obtain ⟨bounded', isVar, fresh⟩ := renamed.declared (declared bounded (below v mem_cons_self))
  exact (redirected.declared ⟨bounded', isVar, fresh⟩).bounded.grow rfl rfl (Nat.le_refl _)

theorem Procedure.retouches_repairAll (t : DomTree) (f : Frontiers) (vars : List VarId)
    (p : Procedure) (count : Nat) : p.Retouches (vars.foldl (fun (state : Procedure × Nat) v =>
      ((state.1.repairSsa v t f).1, state.2 + (state.1.repairSsa v t f).2)) (p, count)).1 vars := by
  induction vars generalizing p count with
  | nil => exact ⟨.refl p, .refl p, fun bounded _ => bounded, Nat.le_refl _⟩
  | cons v rest ih =>
    have first := p.retouches_repairSsa v t f
    have later := ih (p.repairSsa v t f).1 (count + (p.repairSsa v t f).2)
    refine ⟨first.reshaped.trans later.reshaped, first.continues.trans later.continues,
      fun bounded below => ?_, Nat.le_trans first.nextVar later.nextVar⟩
    rw [forall_mem_cons] at below
    exact later.bounded (first.bounded bounded (forall_mem_singleton.mpr below.1))
      fun u mem => Nat.lt_of_lt_of_le (below.2 u mem) first.nextVar

end ArmBackend
