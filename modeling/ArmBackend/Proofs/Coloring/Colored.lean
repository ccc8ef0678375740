import ArmBackend.Proofs.Check
import ArmBackend.Proofs.Coloring.Registers
import ArmBackend.Proofs.Ssa.Redirect

/-!
Contract: the registers of a coloured procedure.

While a block is coloured, a value that is in its register is noted as the owner of it. A register
is given only while it has no owner, so that two owners are in different registers, and it is
released only when its owner is not live any more: at its last read, or after a definition that
nothing reads. Between any two instructions the values that are live own their registers, except
those that phis in memory define, which have none. In single-assignment form a register is given
once, so that values which owned their registers at some point of colouring are in different ones
for good.

Owns: owners of registers under each step, what colouring is given, that what is live owns its
register along every block, and which values have registers of their own.
Does not own: which registers are given, and that colouring succeeds.
-/

namespace ArmBackend

open List Procedure

variable {file : RegisterFile} {argCount index : Nat}

namespace Coloring

variable {s s' s'' : State} {b : BlockId}

/-- The value is noted as the owner of its register. -/
def State.Owns (s : State) (v : VarId) :
    Prop := ∃ r, s.proc.reg? v = some r ∧ s.file.owner? r = some v

theorem State.Owns.eq {u v : VarId} (ownsU : s.Owns u) (ownsV : s.Owns v)
    (same : s.proc.reg? u = s.proc.reg? v) : u = v := by
  obtain ⟨r, regU, ownerU⟩ := ownsU
  obtain ⟨r', regV, ownerV⟩ := ownsV
  rw [regU, regV, Option.some.injEq] at same
  rw [same, ownerV] at ownerU
  exact (Option.some.inj ownerU).symm

/-- Owners stay owners, and the listed values become owners. -/
structure Takes (vars : List VarId) (s s' : State) : Prop where
  count : s'.proc.nextVar = s.proc.nextVar
  keeps : ∀ v, s.Owns v → s'.Owns v
  takes : ∀ v ∈ vars, v < s.proc.nextVar → s'.Owns v

namespace Takes

variable {vars more : List VarId}

theorem refl (s : State) : Takes [] s s := ⟨rfl, fun _ => id, by simp⟩

theorem trans (first : Takes vars s s') (second : Takes more s' s'') :
    Takes (vars ++ more) s s'' where
  count := second.count.trans first.count
  keeps v owns := second.keeps v (first.keeps v owns)
  takes v mem below := by
    rcases mem_append.mp mem with isFirst | isSecond
    · exact second.keeps v (first.takes v isFirst below)
    · exact second.takes v isSecond (first.count ▸ below)

private theorem setReg {r : Reg} {v : VarId} (assigned : s.file.assign? r v = some file) :
    Takes [v] s (s.setReg v r file) := by
  obtain ⟨unused, owner⟩ := RegisterFile.owner?_of_assign? assigned
  have isReg : ∀ u, (s.setReg v r file).proc.reg? u =
      if v = u ∧ u < s.proc.nextVar then some r else s.proc.reg? u := fun u => reg?_setReg ..
  refine ⟨(SameButRegs.setReg s.proc v (some r)).count, fun u owns => ?_,
    forall_mem_singleton.mpr fun below => ?_⟩
  · obtain ⟨q, regU, ownerU⟩ := owns
    by_cases here : v = u ∧ u < s.proc.nextVar
    · exact ⟨r, by rw [isReg, if_pos here], by rw [State.setReg, owner, if_pos rfl, here.1]⟩
    · have other : r ≠ q := by
        rintro rfl
        rw [unused] at ownerU
        cases ownerU
      exact ⟨q, by rw [isReg, if_neg here, regU], by rw [State.setReg, owner, if_neg other, ownerU]⟩
  · exact ⟨r, by rw [isReg, if_pos ⟨rfl, below⟩], by rw [State.setReg, owner, if_pos rfl]⟩

private theorem foldlM {α : Type} (varsOf : α → List VarId) {f : State → α → Except Error State}
    {entries : List α}
    (step : ∀ before after, ∀ entry ∈ entries, f before entry = .ok after →
      Takes (varsOf entry) before after)
    (ok : entries.foldlM f s = .ok s') : Takes (entries.flatMap varsOf) s s' :=
  foldlM_induction (fun done after => Takes (done.flatMap varsOf) s after)
    (fun done entry rest _ _ split known stepped => by
      rw [flatMap_append, flatMap_singleton]
      exact known.trans (step _ _ entry (split ▸ mem_append_right _ mem_cons_self) stepped))
    (.refl s) ok

end Takes

/-- What is given a register that nothing owns becomes its owner. -/
theorem Places.takes {entries : List (VarId × Reg)} (places : Places s entries s') :
    Takes (entries.map Prod.fst) s s' := by
  induction places with
  | nil => exact .refl _
  | cons assigned _ ih => exact (Takes.setReg assigned).trans ih

theorem owns_prepare {defs srcs : List VarId} (ok : s.prepare b defs srcs argCount = .ok s')
    {v : VarId} (mem : v ∈ placed (.prepare defs srcs argCount)) (below : v < s.proc.nextVar) :
    s'.Owns v := by
  obtain ⟨pinned, others, places, vars, -, -, perm⟩ := places_prepare ok
  refine places.takes.takes v ?_ below
  rw [map_append, mem_append, vars, perm.mem_iff]
  exact mem_append.mp mem

private theorem owns_step_prepare {live : Liveness} {exitReads defs srcs : List VarId}
    (ok : State.step live b exitReads s (.prepare defs srcs argCount, index) = .ok s') {v : VarId}
    (mem : v ∈ placed (.prepare defs srcs argCount)) (below : v < s.proc.nextVar) : s'.Owns v := by
  obtain ⟨s₁, prepared, rfl⟩ := bind_pure_eq_ok ok
  exact owns_prepare prepared mem below

/-! ## Starts of blocks -/

theorem owns_enterBlock {p : Procedure} {live : Liveness} {config : Config}
    (ok : enterBlock p live config b = .ok file) {v : VarId}
    (isLive : (live.inOf b).contains v = true) : State.Owns ⟨p, file, []⟩ v := by
  refine foldlM_induction (fun done (file : RegisterFile) => ∀ v ∈ done, State.Owns ⟨p, file, []⟩ v)
    (fun done u _ before after _ known stepped => ?_) (forall_mem_nil _) ok v
    ((IndexSet.mem_toList _ v).mpr isLive)
  split at stepped
  · cases stepped
  · rename_i r isReg
    split at stepped
    · rename_i file assigned
      obtain rfl := Except.ok.inj stepped
      obtain ⟨unused, owner⟩ := RegisterFile.owner?_of_assign? assigned
      refine forall_mem_append.mpr
        ⟨fun v mem => ?_, forall_mem_singleton.mpr ⟨r, isReg, by rw [owner, if_pos rfl]⟩⟩
      obtain ⟨q, regV, ownerV⟩ := known v mem
      have other : r ≠ q := by
        rintro rfl
        rw [unused] at ownerV
        cases ownerV
      exact ⟨q, regV, by rw [owner, if_neg other, ownerV]⟩
    · cases stepped

theorem released_phi {live : Liveness} {exitReads : List VarId} (phi : Phi) (index : Nat) :
    s.released live b exitReads (.phi phi, index) = s := by
  have noReads : (Inst.phi phi).reads exitReads = [] := by
    simp [Inst.reads, Inst.uses, Inst.operands, Inst.isTerminator]
  simp only [State.released, State.releaseReads, noReads, filter_nil, foldl_nil]
  rfl

private theorem takes_step_phi {live : Liveness} {exitReads : List VarId} {phi : Phi}
    (ok : State.step live b exitReads s (.phi phi, index) = .ok s') :
    Takes (placed (.phi phi)) s s' := by
  rcases step_cases ok with ⟨defs, srcs, argCount, s₁, isPrepare, -⟩ | ⟨-, s₁, defined, rfl⟩
  · cases isPrepare
  · rw [released_phi] at defined
    obtain ⟨entries, places, vars, -⟩ := places_defines defined
    have takes := places.takes
    rw [vars] at takes
    exact ⟨takes.count, takes.keeps, takes.takes⟩

/-- Phis release nothing. -/
theorem takes_phis {live : Liveness} {exitReads : List VarId} {phis : List Phi}
    (ok : (phis.map Inst.phi).zipIdx.foldlM (State.step live b exitReads) s = .ok s') :
    Takes ((phis.map Inst.phi).flatMap placed) s s' := by
  have all := Takes.foldlM (fun i => placed i.1) (fun before after i mem stepped => ?_) ok
  · rwa [← flatMap_map, zipIdx_map_fst] at all
  · obtain ⟨phi, -, isPhi⟩ := mem_map.mp (fst_mem_of_mem_zipIdx mem)
    obtain ⟨inst, index⟩ := i
    obtain rfl := isPhi
    exact takes_step_phi stepped

end Coloring

/-- Live sets do not depend on registers. -/
theorem Liveness.ofProcedure_congr {p q : Procedure} (same : p.SameButRegs q) :
    ofProcedure q = ofProcedure p := by
  have size : q.vars.size = p.vars.size := same.count
  rw [same.rest]
  unfold ofProcedure
  dsimp only
  rw [size]
  rfl

/-- What is known of the registers of a coloured procedure. -/
structure Procedure.Colored (p : Procedure) : Prop where
  defs : ∀ i ∈ p.insts, Coloring.definesRegister i = true → ∀ d ∈ i.defs, (p.reg? d).isSome = true
  reads : ∀ b < p.blocks.size, ∀ i ∈ (p.block b).insts, ∀ v ∈ i.reads (p.exitReads b),
    (p.reg? v).isSome = true
  starts : ∀ b < p.blocks.size, p.Apart fun v => ((Liveness.ofProcedure p).inOf b).contains v =
    true ∨ ∃ phi ∈ (p.block b).phis, phi.inMemory = false ∧ phi.dst = v
  copies : ∀ defs srcs argCount, Inst.prepare defs srcs argCount ∈ p.insts → p.Apart (· ∈ defs)
  single : p.SingleAssignment

namespace Coloring

/-! ## Arguments -/

theorem reg?_clear {vars : List VarId} {p : Procedure} {v : VarId}
    (reset : v ∈ vars ∨ p.reg? v = none) :
    (vars.foldl (fun q u => q.setReg u none) p).reg? v = none := by
  induction vars generalizing p with
  | nil => exact reset.resolve_left not_mem_nil
  | cons u rest ih =>
    refine ih ?_
    by_cases later : v ∈ rest
    · exact .inl later
    refine .inr ?_
    rw [reg?_setReg]
    split
    · rfl
    · rename_i elsewhere
      rcases reset with mem | none
      · obtain rfl := (mem_cons.mp mem).resolve_right later
        have outside : p.var v = default :=
          Tables.getD_of_size_le p.vars default
            (Nat.le_of_not_lt fun below => elsewhere ⟨rfl, below⟩)
        rw [reg?, outside]
        rfl
      · exact none

/-- Pinning gives the listed variables the registers of their numbers and leaves the others
alone. -/
theorem reg?_pin (args : List (VarId × Nat)) (p : Procedure) (v : VarId) : (v ∉ args.map Prod.fst →
      (args.foldl (fun q arg => q.setReg arg.1 (Reg.ofIndex? arg.2)) p).reg? v = p.reg? v) ∧
    ((args.map Prod.fst).Nodup → v < p.nextVar → ∀ k, (v, k) ∈ args →
      (args.foldl (fun q arg => q.setReg arg.1 (Reg.ofIndex? arg.2)) p).reg? v =
        Reg.ofIndex? k) := by
  induction args generalizing p with
  | nil => exact ⟨fun _ => rfl, fun _ _ k mem => absurd mem not_mem_nil⟩
  | cons arg rest ih =>
    obtain ⟨others, pinned⟩ := ih (p.setReg arg.1 (Reg.ofIndex? arg.2))
    constructor
    · intro absent
      rw [map_cons, mem_cons, not_or] at absent
      rw [foldl_cons, others absent.2, reg?_setReg, if_neg fun both => absent.1 both.1.symm]
    · intro nodup below k mem
      rw [map_cons, nodup_cons] at nodup
      rcases mem_cons.mp mem with rfl | later
      · rw [foldl_cons, others nodup.1, reg?_setReg, if_pos ⟨rfl, below⟩]
      · exact pinned nodup.2 ((SameButRegs.setReg p arg.1 _).count.symm ▸ below) k later

theorem pinArguments_eq (p : Procedure) (config : Config) :
    pinArguments p config = (p.args.take config.argRegisters).zipIdx.foldl
      (fun q arg => q.setReg arg.1 (Reg.ofIndex? arg.2))
      ((p.args ++ p.locals).foldl (fun q u => q.setReg u none) p) := by
  have same := sameButRegs_setRegs id (fun _ => none) (p.args ++ p.locals) p
  have args := congrArg Procedure.args same.rest
  unfold pinArguments
  dsimp only
  exact congrArg (fun args => (List.take config.argRegisters args).zipIdx.foldl _ _) args

/-- Of the variables that have their registers taken away, only arguments have one before the blocks
are coloured. -/
theorem mem_args_of_pinned {p : Procedure} {config : Config} {v : VarId}
    (reset : v ∈ p.args ++ p.locals ∨ p.reg? v = none)
    (colored : ((pinArguments p config).reg? v).isSome = true) : v ∈ p.args := by
  apply Classical.byContradiction
  intro noArg
  rw [pinArguments_eq, (reg?_pin _ _ v).1, reg?_clear reset] at colored
  · cases colored
  · rw [zipIdx_map_fst]
    exact fun mem => noArg (mem_of_mem_take mem)

/-! ## Points of colouring -/

variable {p q : Procedure} {t : DomTree} {live : Liveness} {config : Config} {b : BlockId}

theorem nodup_defs (single : p.SingleAssignment) {order : List BlockId}
    (perm : order.Perm p.blockIds) :
    (order.flatMap fun b => (p.block b).insts.flatMap Inst.defs).Nodup := by
  have same : (p.insts.flatMap Inst.defs).Perm
      (order.flatMap fun b => (p.block b).insts.flatMap Inst.defs) := by
    rw [insts_eq_flatMap, flatMap_assoc]
    exact (perm.flatMap_right _).symm
  exact same.nodup_iff.mp single.nodup

/-- At every point of colouring a block, what has a register has it for good. -/
theorem exists_state (single : p.SingleAssignment) (perm : t.preorder.Perm p.blockIds)
    (reset : ∀ d ∈ p.insts.flatMap Inst.defs, d ∈ p.args ++ p.locals ∨ p.reg? d = none)
    (lt : b < p.blocks.size) {front back : List Inst}
    (insts : (p.block b).insts = front ++ back) (ok : p.color t live config = .ok q) :
    ∃ p' file s, p.SameButRegs p' ∧ enterBlock p' live config b = .ok file ∧
      front.zipIdx.foldlM (State.step live b (p.exitReads b)) ⟨p', file, []⟩ = .ok s ∧
      ∀ v, (s.proc.reg? v).isSome = true → q.reg? v = s.proc.reg? v := by
  obtain ⟨before, after, split⟩ := append_of_mem (perm.mem_iff.mpr (mem_blockIds.mpr lt))
  unfold color at ok
  rw [split, foldlM_append] at ok
  obtain ⟨p₁, earlier, ok⟩ := bind_eq_ok ok
  rw [foldlM_cons] at ok
  obtain ⟨p₂, here, later⟩ := bind_eq_ok ok
  obtain ⟨file, entered, here⟩ := bind_eq_ok here
  obtain ⟨s₂, ran, rfl⟩ := bind_pure_eq_ok here
  have first := recolors_colorBlocks earlier
  have pinned := sameButRegs_pinArguments p config
  have sameFirst := pinned.trans first.toSameButRegs
  have exits : p₁.exitReads b = p.exitReads b := by
    rw [sameFirst.rest]
    rfl
  rw [sameFirst.sameBlocks.block, insts, zipIdx_append, foldlM_append, exits] at ran
  obtain ⟨s, inFront, inBack⟩ := bind_eq_ok ran
  refine ⟨p₁, file, s, sameFirst, entered, inFront, fun v colored => ?_⟩
  have second := first.trans (recolors_insts inFront)
  have third := recolors_insts inBack
  have sameThird := (pinned.trans second.toSameButRegs).trans third.toSameButRegs
  have fourth := third.trans (recolors_colorBlocks later)
  rw [placedIn_congr pinned] at second
  rw [placedIn_congr sameThird] at fourth
  refine fourth.kept v fun isLate => ?_
  have toDefs : ∀ {blocks}, v ∈ placedIn p blocks →
      v ∈ blocks.flatMap fun b => (p.block b).insts.flatMap Inst.defs := by
    intro blocks mem
    obtain ⟨c, inBlocks, mem⟩ := mem_flatMap.mp mem
    exact mem_flatMap.mpr ⟨c, inBlocks, mem_defs_of_placed mem⟩
  have isLater : v ∈ back.flatMap Inst.defs ++ after.flatMap
      fun b => (p.block b).insts.flatMap Inst.defs :=
    mem_append.mpr ((mem_append.mp isLate).imp mem_defs_of_placed toDefs)
  have nodup := nodup_defs single perm
  rw [split, flatMap_append, flatMap_cons, insts, flatMap_append, append_assoc,
    ← append_assoc] at nodup
  by_cases isEarly : v ∈ placedIn p before ++ front.flatMap placed
  · have isEarlier : v ∈ (before.flatMap fun b => (p.block b).insts.flatMap Inst.defs) ++
        front.flatMap Inst.defs :=
      mem_append.mpr ((mem_append.mp isEarly).imp toDefs mem_defs_of_placed)
    exact (nodup_append.mp nodup).2.2 v isEarlier v isLater rfl
  · rw [second.kept v isEarly] at colored
    have isDef : v ∈ p.insts.flatMap Inst.defs := by
      rcases mem_append.mp isLater with inBlock | inAfter
      · obtain ⟨i, inBack, isDef⟩ := mem_flatMap.mp inBlock
        refine mem_flatMap.mpr ⟨i, mem_insts.mpr ⟨b, ?_⟩, isDef⟩
        rw [insts]
        exact mem_append_right _ inBack
      · obtain ⟨c, -, inBlock⟩ := mem_flatMap.mp inAfter
        obtain ⟨i, inInsts, isDef⟩ := mem_flatMap.mp inBlock
        exact mem_flatMap.mpr ⟨i, mem_insts.mpr ⟨c, inInsts⟩, isDef⟩
    exact single.args v isDef (mem_args_of_pinned (reset v isDef) colored)

theorem apart_of_owns {s : State} {vars : VarId → Prop} (owns : ∀ v, vars v → s.Owns v)
    (kept : ∀ v, (s.proc.reg? v).isSome = true → q.reg? v = s.proc.reg? v) : q.Apart vars := by
  have isReg : ∀ v, vars v → (s.proc.reg? v).isSome = true ∧ q.reg? v = s.proc.reg? v := by
    intro v isVar
    obtain ⟨r, isReg, -⟩ := owns v isVar
    have colored := Option.isSome_iff_exists.mpr ⟨r, isReg⟩
    exact ⟨colored, kept v colored⟩
  refine ⟨fun v isVar => ?_, fun u v isU isV same => ?_⟩
  · rw [(isReg v isVar).2]
    exact (isReg v isVar).1
  · rw [(isReg u isU).2, (isReg v isV).2] at same
    exact (owns u isU).eq (owns v isV) same

/-! ## Coloured procedures -/

theorem placed_eq_defs {i : Inst} (defines : definesRegister i = true) (balanced : i.Balanced) :
    placed i = i.defs := by
  by_cases isPrepare : ∃ defs srcs argCount, i = .prepare defs srcs argCount
  · obtain ⟨defs, srcs, argCount, rfl⟩ := isPrepare
    have balanced : defs.length = srcs.length := balanced
    rw [placed, map_drop, map_fst_zip (Nat.le_of_eq balanced), take_append_drop]
    rfl
  · rw [placed_of_ne fun defs srcs argCount same => isPrepare ⟨defs, srcs, argCount, same⟩,
      if_pos defines]

theorem mem_placed_phi {phi : Phi} (inRegister : phi.inMemory = false) :
    phi.dst ∈ placed (.phi phi) := by
  have defines : definesRegister (.phi phi) = true := by
    rw [definesRegister, inRegister]
    rfl
  rw [placed_eq_defs defines trivial]
  exact mem_singleton.mpr rfl

theorem colored_color (wf : p.WellFormed) (dom : t.Exact p) (bounded : p.Bounded)
    (single : p.SingleAssignment) (uncolored : ∀ v, p.reg? v = none)
    (ok : p.color t (.ofProcedure p) config = .ok q) (checked : Check.coloring q config = .ok ()) :
    q.Colored := by
  have same := sameButRegs_color ok
  have perm := DomTree.preorder_perm wf.linked dom
  have block : ∀ b, q.block b = p.block b := same.sameBlocks.block
  have size : q.blocks.size = p.blocks.size := by rw [same.sameBlocks.blocks]
  have args : q.args = p.args := by rw [same.rest]
  have isLive := Liveness.ofProcedure_congr same
  refine ⟨fun i mem defines d isDef => ?_, fun b lt => (Check.apart_of_coloring checked lt).2,
    fun b lt => ?_,
    fun defs srcs argCount mem => ?_, ⟨same.insts ▸ single.nodup, same.insts ▸ args ▸ single.args⟩⟩
  · obtain ⟨b, inBlock⟩ := mem_insts.mp mem
    rw [block b] at inBlock
    have lt := lt_size_of_mem_insts inBlock
    have pinned := sameButRegs_pinArguments p config
    refine (recolors_colorBlocks ok).given d ?_ (pinned.count ▸ bounded.defs b lt i inBlock d isDef)
    rw [placedIn_congr pinned]
    refine mem_flatMap.mpr ⟨b, perm.mem_iff.mpr (mem_blockIds.mpr lt), ?_⟩
    refine mem_flatMap.mpr ⟨i, inBlock, ?_⟩
    rwa [placed_eq_defs defines (bounded.balanced b lt i inBlock)]
  · rw [size] at lt
    rw [isLive, block b]
    obtain ⟨shape⟩ := wf.shape b lt
    obtain ⟨p', file, s, sameFirst, entered, ran, kept⟩ :=
      exists_state single perm (fun d _ => .inr (uncolored d)) lt (Block.insts_eq _) ok
    have takes := takes_phis ran
    refine apart_of_owns (fun v isStart => ?_) kept
    rcases isStart with live | ⟨phi, isPhi, inRegister, rfl⟩
    · exact takes.keeps v (owns_enterBlock entered live)
    · refine takes.takes phi.dst ?_ ?_
      · exact mem_flatMap.mpr ⟨.phi phi, mem_map_of_mem isPhi, mem_placed_phi inRegister⟩
      · change phi.dst < p'.nextVar
        rw [sameFirst.count]
        exact bounded.defs b lt _ (shape.mem_phis.mpr isPhi) _ (mem_singleton.mpr rfl)
  · obtain ⟨b, inBlock⟩ := mem_insts.mp mem
    rw [block b] at inBlock
    have lt := lt_size_of_mem_insts inBlock
    obtain ⟨front, back, split⟩ := append_of_mem inBlock
    have insts : (p.block b).insts = (front ++ [.prepare defs srcs argCount]) ++ back := by
      rw [split, append_assoc]
      rfl
    obtain ⟨p', file, s, sameFirst, entered, ran, kept⟩ :=
      exists_state single perm (fun d _ => .inr (uncolored d)) lt insts ok
    rw [zipIdx_append, foldlM_append] at ran
    obtain ⟨s₁, earlier, ran⟩ := bind_eq_ok ran
    obtain ⟨s₂, stepped, rfl⟩ := bind_pure_eq_ok ran
    refine apart_of_owns (fun v isDef => owns_step_prepare stepped ?_ ?_) kept
    · rw [placed_eq_defs rfl (bounded.balanced b lt _ inBlock)]
      exact isDef
    · rw [(recolors_insts earlier).count]
      change v < p'.nextVar
      rw [sameFirst.count]
      exact bounded.defs b lt _ inBlock v isDef

end Coloring

namespace RegisterFile

theorem owner?_release (file : RegisterFile) (q r : Reg) :
    (file.release q).owner? r = if q = r then none else file.owner? r := RegTable.lookup_update ..

end RegisterFile

namespace Coloring

variable {s s' : State} {b : BlockId} {v : VarId} {p q : Procedure} {t : DomTree} {config : Config}

/-! ## Releasing registers -/

theorem State.Owns.release {dead : List VarId} (owns : s.Owns v)
    (apart : ∀ u ∈ dead, s.proc.reg? u ≠ s.proc.reg? v) :
    State.Owns { s with file := dead.foldl (releaseVar s.proc) s.file } v := by
  obtain ⟨r, isReg, isOwner⟩ := owns
  refine ⟨r, isReg, ?_⟩
  rw [isReg] at apart
  change (dead.foldl (releaseVar s.proc) s.file).owner? r = some v
  generalize s.file = file at isOwner
  induction dead generalizing file with
  | nil => exact isOwner
  | cons u rest ih =>
    rw [forall_mem_cons] at apart
    refine ih apart.2 _ ?_
    unfold releaseVar
    split
    · rename_i q isReg'
      rw [RegisterFile.owner?_release, if_neg fun (same : q = r) => apart.1 (same ▸ isReg')]
      exact isOwner
    · exact isOwner

/-- What holds between two instructions of a block: the live values own their registers, apart from
those in memory, which have none. -/
structure State.Settled (memory : VarId → Prop) (live : IndexSet) (s : State) : Prop where
  owns : ∀ v, live.contains v = true → ¬memory v → s.Owns v
  recent : ∀ v ∈ s.recent, s.Owns v
  none : ∀ v, memory v → s.proc.reg? v = none

namespace State.Settled

variable {memory : VarId → Prop} {front back : List Inst} {i : Inst}

private theorem releaseRecent (settled : s.Settled memory ((Liveness.ofProcedure p).ahead p b back))
    (split : (p.block b).insts = front ++ back) :
    (s.releaseRecent (.ofProcedure p) b).Settled memory
    ((Liveness.ofProcedure p).ahead p b back) := by
  refine ⟨fun v live inRegister => ?_, forall_mem_nil _, settled.none⟩
  have owns := settled.owns v live inRegister
  refine owns.release fun u dying same => ?_
  obtain ⟨isRecent, dead⟩ := mem_filter.mp dying
  obtain rfl := (settled.recent u isRecent).eq owns same
  rw [Liveness.not_ahead_of_isDeadDef split dead] at live
  cases live

section

variable (settled : s.Settled memory ((Liveness.ofProcedure p).ahead p b (i :: back)))
  (split : (p.block b).insts = front ++ i :: back)

include settled split

/-- Releasing what is read for the last time leaves what is live behind the instruction alone. -/
theorem releaseReads (live : ((Liveness.ofProcedure p).ahead p b back).contains v = true)
    (other : v ∉ i.defs) (inRegister : ¬memory v) :
    (s.releaseReads (.ofProcedure p) b (i.reads (p.exitReads b)) front.length).Owns v := by
  have owns := settled.owns v (Liveness.contains_ahead_cons.mpr (.inr ⟨live, other⟩)) inRegister
  refine owns.release fun u dying same => ?_
  obtain ⟨isRead, dies⟩ := mem_filter.mp dying
  have notLive := Liveness.not_ahead_of_diesAt split dies
  by_cases inMemory : memory u
  · obtain ⟨r, isReg, -⟩ := owns
    rw [settled.none u inMemory, isReg] at same
    cases same
  · have ownsU := settled.owns u (Liveness.contains_ahead_cons.mpr (.inl isRead)) inMemory
    obtain rfl := ownsU.eq owns same
    rw [notLive] at live
    cases live

private theorem released :
    (∀ v, ((Liveness.ofProcedure p).ahead p b back).contains v = true → v ∉ i.defs → ¬memory v →
      (s.released (.ofProcedure p) b (p.exitReads b) (i, front.length)).Owns v) ∧
    ∀ v ∈ (s.released (.ofProcedure p) b (p.exitReads b) (i, front.length)).recent,
      (s.released (.ofProcedure p) b (p.exitReads b) (i, front.length)).Owns v := by
  cases isPhi : i.isPhi with
  | true =>
    obtain ⟨phi, rfl⟩ := Inst.exists_phi_of_isPhi isPhi
    rw [released_phi]
    exact ⟨fun v live other => settled.owns v
      (Liveness.contains_ahead_cons.mpr (.inr ⟨live, other⟩)), settled.recent⟩
  | false =>
    have isReleased : s.released (.ofProcedure p) b (p.exitReads b) (i, front.length) =
        (s.releaseRecent (.ofProcedure p) b).releaseReads (.ofProcedure p) b (i.reads
          (p.exitReads b)) front.length := by
      rw [State.released, isPhi]
      rfl
    rw [isReleased]
    exact ⟨fun v live other inRegister =>
      (settled.releaseRecent split).releaseReads split live other inRegister,
      forall_mem_nil _⟩

/-- Colouring an instruction keeps the invariant, and what it defines owns its register. -/
theorem step (count : s.proc.nextVar = p.nextVar) (below : ∀ d ∈ i.defs, d < p.nextVar)
    (balanced : i.Balanced) (inMemory : ∀ phi, i = .phi phi → phi.inMemory = true → memory phi.dst)
    (inRegister : ∀ d ∈ placed i, ¬memory d)
    (clears : ∀ defs srcs argCount, i = .prepare defs srcs argCount →
      ∀ v, ((Liveness.ofProcedure p).ahead p b back).contains v = true → v ∈ defs)
    (ok : State.step (.ofProcedure p) b (p.exitReads b) s (i, front.length) = .ok s') :
    s'.Settled memory ((Liveness.ofProcedure p).ahead p b back) ∧ ∀ d ∈ placed i, s'.Owns d := by
  have none : ∀ v, memory v → s'.proc.reg? v = .none := fun v isMemory => by
    rw [(recolors_step ok).kept v fun isPlaced => inRegister v isPlaced isMemory]
    exact settled.none v isMemory
  have sameProc := s.proc_released (.ofProcedure p) b (p.exitReads b) (i, front.length)
  have count' : (s.released (.ofProcedure p) b (p.exitReads b) (i, front.length)).proc.nextVar =
      p.nextVar := by
    rw [sameProc, count]
  obtain ⟨owns, recent⟩ := settled.released split
  rcases step_cases ok with
    ⟨defs, srcs, argCount, s₁, isPrepare, prepared, rfl⟩ | ⟨other, s₁, defined, rfl⟩
  · obtain rfl : i = .prepare defs srcs argCount := isPrepare
    have isPlaced := placed_eq_defs rfl balanced
    have ownsDefs : ∀ d ∈ defs, s₁.Owns d := fun d isDef =>
      owns_prepare prepared (isPlaced ▸ isDef) (count' ▸ below d isDef)
    obtain ⟨pinned, others, places, -⟩ := places_prepare prepared
    have noRecent : s₁.recent = [] := places.recent
    refine ⟨⟨fun v live _ => ownsDefs v (clears _ _ _ rfl v live), ?_, none⟩, ?_⟩
    · rw [noRecent]
      exact ownsDefs
    · rw [isPlaced]
      exact ownsDefs
  · obtain ⟨entries, places, vars, -⟩ := places_defines defined
    have takes := places.takes
    rw [vars] at takes
    have ownsPlaced : ∀ d ∈ placed i, s₁.Owns d := fun d isPlaced =>
      takes.takes d isPlaced (count' ▸ below d (placed_subset isPlaced))
    refine ⟨⟨fun v live notMemory => ?_, ?_, none⟩, ownsPlaced⟩
    · by_cases isDef : v ∈ i.defs
      · cases defines : definesRegister i with
        | true => exact ownsPlaced v (placed_eq_defs defines balanced ▸ isDef)
        | false =>
          cases i with
          | phi phi =>
            obtain rfl := mem_singleton.mp isDef
            exact absurd (inMemory phi rfl (by simpa [definesRegister] using defines)) notMemory
          | _ => cases defines
      · exact takes.keeps v (owns v live isDef notMemory)
    · refine forall_mem_append.mpr ⟨fun v mem => ?_, ownsPlaced⟩
      rw [places.recent] at mem
      exact takes.keeps v (recent v mem)

end

end State.Settled

end Coloring

variable {i : Inst} {p : Procedure}

/-! ## What colouring is given -/

/-- A procedure in single-assignment form that is ready to be coloured: its variables are distinct
arguments or locals, and a copy in front of a call has at most four arguments and defines all that
is live behind it. -/
structure Procedure.ReadyToColor (p : Procedure) : Prop where
  wf : p.WellFormed
  ordered : p.Ordered
  bounded : p.Bounded
  single : p.SingleAssignment
  dominate : p.DefsDominate
  args : p.args.Nodup
  declared : ∀ i ∈ p.insts, ∀ v ∈ i.mentioned, v ∈ p.args ++ p.locals
  few : ∀ defs srcs argCount, Inst.prepare defs srcs argCount ∈ p.insts → argCount ≤ 4
  clears : ∀ b front defs srcs argCount back, (p.block b).insts =
    front ++ .prepare defs srcs argCount :: back →
      ∀ v, ((Liveness.ofProcedure p).ahead p b back).contains v = true → v ∈ defs

/-- Definitions have their registers taken away first. -/
theorem Procedure.ReadyToColor.reset (ready : p.ReadyToColor) :
    ∀ d ∈ p.insts.flatMap Inst.defs, d ∈ p.args ++ p.locals ∨ p.reg? d = none := by
  intro d isDef
  obtain ⟨i, mem, isDef⟩ := mem_flatMap.mp isDef
  exact .inl (ready.declared i mem d (Inst.mentioned_of_defs isDef))

/-- A phi in memory defines the variable. -/
def Procedure.InMemory (p : Procedure) (v : VarId) : Prop :=
  ∃ phi, Inst.phi phi ∈ p.insts ∧ phi.inMemory = true ∧ phi.dst = v

namespace Coloring

variable {s s' : State} {b : BlockId} {v : VarId} {p q : Procedure} {t : DomTree} {config : Config}

theorem not_inMemory_of_placed (single : p.SingleAssignment) {i : Inst} (mem : i ∈ p.insts)
    (isPlaced : v ∈ placed i) : ¬p.InMemory v := by
  rintro ⟨phi, isPhi, inMemory, rfl⟩
  obtain rfl := single.eq_of_defs mem isPhi (placed_subset isPlaced) (mem_singleton.mpr rfl)
  have nothing : placed (.phi phi) = [] := by
    rw [placed_of_ne fun _ _ _ => Inst.noConfusion, definesRegister, inMemory]
    rfl
  rw [nothing] at isPlaced
  cases isPlaced

/-- The invariant holds along a block, and what the last instruction defines owns its register. -/
theorem settled_run (ready : p.ReadyToColor) (lt : b < p.blocks.size) (todo : List Inst) :
    ∀ (front back : List Inst) (s s' : State), (p.block b).insts = front ++ (todo ++ back) →
      s.proc.nextVar = p.nextVar →
      s.Settled p.InMemory ((Liveness.ofProcedure p).ahead p b (todo ++ back)) →
      (todo.zipIdx front.length).foldlM (State.step (.ofProcedure p) b (p.exitReads b)) s = .ok s' →
      s'.Settled p.InMemory ((Liveness.ofProcedure p).ahead p b back) ∧
        ∀ i, todo.getLast? = some i → ∀ d ∈ placed i, s'.Owns d := by
  induction todo with
  | nil =>
    intro front back s s' split count settled ok
    obtain rfl := Except.ok.inj ok
    exact ⟨settled, fun i isLast => by cases isLast⟩
  | cons i rest ih =>
    intro front back s s' split count settled ok
    rw [zipIdx_cons, foldlM_cons] at ok
    obtain ⟨s₁, stepped, ok⟩ := bind_eq_ok ok
    have inBlock : i ∈ (p.block b).insts := split ▸ by simp
    have mem : i ∈ p.insts := mem_insts.mpr ⟨b, inBlock⟩
    obtain ⟨settled', owns⟩ := settled.step split count (ready.bounded.defs b lt i inBlock)
      (ready.bounded.balanced b lt i inBlock)
      (fun phi isPhi inMemory => ⟨phi, isPhi ▸ mem, inMemory, rfl⟩)
      (fun d isPlaced => not_inMemory_of_placed ready.single mem isPlaced)
      (fun defs srcs argCount isPrepare =>
        ready.clears b front defs srcs argCount _ (isPrepare ▸ split)) stepped
    have count' : s₁.proc.nextVar = p.nextVar := (recolors_step stepped).count.trans count
    cases rest with
    | nil =>
      obtain rfl := Except.ok.inj ok
      refine ⟨settled', fun j isLast => ?_⟩
      obtain rfl : i = j := by simpa using isLast
      exact owns
    | cons j rest =>
      have position : front.length + 1 = (front ++ [i]).length := by simp
      rw [position] at ok
      obtain ⟨final, last⟩ := ih (front ++ [i]) back s₁ s' (by rw [split]; simp) count' settled' ok
      exact ⟨final, fun k isLast => last k (by simpa using isLast)⟩

theorem reg?_of_inMemory (ready : p.ReadyToColor) (ok : p.color t (.ofProcedure p) config = .ok q)
    (inMemory : p.InMemory v) : q.reg? v = none := by
  have unplaced : v ∉ placedIn (pinArguments p config) t.preorder := by
    rw [placedIn_congr (sameButRegs_pinArguments p config)]
    intro isPlaced
    obtain ⟨c, -, inBlock⟩ := mem_flatMap.mp isPlaced
    obtain ⟨i, inInsts, isPlaced⟩ := mem_flatMap.mp inBlock
    exact not_inMemory_of_placed ready.single (mem_insts.mpr ⟨c, inInsts⟩) isPlaced inMemory
  rw [(recolors_colorBlocks ok).kept v unplaced, ← Option.not_isSome_iff_eq_none]
  intro colored
  obtain ⟨phi, isPhi, -, rfl⟩ := inMemory
  have isDef : phi.dst ∈ (Inst.phi phi).defs := mem_singleton.mpr rfl
  have declared := ready.declared _ isPhi phi.dst (Inst.mentioned_of_defs isDef)
  exact ready.single.args _ (mem_flatMap.mpr ⟨_, isPhi, isDef⟩)
    (mem_args_of_pinned (.inl declared) colored)

/-- A point of a coloured block, with the state in which colouring passed it. -/
theorem exists_settled (ready : p.ReadyToColor) (dom : t.Exact p) (lt : b < p.blocks.size)
    {front back : List Inst} (split : (p.block b).insts = front ++ back)
    (ok : p.color t (.ofProcedure p) config = .ok q) :
    ∃ s : State, s.Settled p.InMemory ((Liveness.ofProcedure p).ahead p b back) ∧
      (∀ i, front.getLast? = some i → ∀ d ∈ placed i, s.Owns d) ∧
      ∀ v, (s.proc.reg? v).isSome = true → q.reg? v = s.proc.reg? v := by
  obtain ⟨p', file, s, same, entered, ran, kept⟩ := exists_state ready.single
    (DomTree.preorder_perm ready.wf.linked dom) ready.reset lt split ok
  -- What a phi in memory defines has no register in the end, so it has none on the way.
  have start : State.Settled p.InMemory ((Liveness.ofProcedure p).ahead p b (front ++ back))
      ⟨p', file, []⟩ := by
    refine ⟨fun v live _ => owns_enterBlock entered ?_, forall_mem_nil _, fun v inMemory => ?_⟩
    · rw [Liveness.inOf_eq_ahead ready.wf ready.ordered ready.bounded, split]
      exact live
    · rw [← Option.not_isSome_iff_eq_none]
      intro colored
      have later := (recolors_insts ran).stays colored
      rw [← kept v later, reg?_of_inMemory ready ok inMemory] at later
      cases later
  obtain ⟨settled, last⟩ :=
    settled_run ready lt front [] back ⟨p', file, []⟩ s split same.count start ran
  exact ⟨s, settled, last, kept⟩

end Coloring

end ArmBackend
