import ArmBackend.Proofs.Coloring.Colored
import ArmBackend.Proofs.Copy
import ArmBackend.Proofs.Emission.Layout
import ArmBackend.Proofs.Frame
import Mathlib.Data.List.NodupEquivFin

/-!
Contract: what emission asks of a procedure, and that nothing else can make it fail.

Operands are where the target takes them, fields are declared, whatever an instruction names has a
register, and slots that are accessed have offsets. Copies never conflict, as what is written at the
start of a block or ahead of a call is in registers of its own.

Owns: success of emission for instructions, blocks, procedures and programs.
Does not own: which passes establish what emission asks for.
-/

namespace ArmBackend

open List Assembly Emit Procedure

theorem mapM_eq_pure {m : Type → Type} [Monad m] [LawfulMonad m] {α β : Type}
    {f : α → m β} {g : α → β} {entries : List α} (each : ∀ a ∈ entries, f a = pure (g a)) :
    entries.mapM f = pure (entries.map g) := by
  induction entries with
  | nil => rfl
  | cons a rest ih =>
    rw [forall_mem_cons] at each
    rw [mapM_cons, each.1, ih each.2, pure_bind, pure_bind]
    rfl

namespace Emit

variable {α β : Type}

/-- The action succeeds from every state. -/
def Succeeds (m : Emit α) : Prop := ∀ e, ∃ a e', Gives m e a e'

theorem Succeeds.pure (a : α) : Succeeds (Pure.pure a) := fun e => ⟨a, e, gives_pure.mpr ⟨rfl, rfl⟩⟩

theorem Succeeds.bind {m : Emit α} {f : α → Emit β} (first : Succeeds m)
    (rest : ∀ a, Succeeds (f a)) : Succeeds (m >>= f) := by
  intro e
  obtain ⟨a, mid, one⟩ := first e
  obtain ⟨b, e', two⟩ := rest a mid
  exact ⟨b, e', gives_bind.mpr ⟨a, mid, one, two⟩⟩

theorem Succeeds.lift {x : Except Error α} (isOk : ∃ a, x = .ok a) : Succeeds (liftM x) := by
  intro e
  obtain ⟨a, isA⟩ := isOk
  exact ⟨a, e, gives_lift.mpr ⟨isA, rfl⟩⟩

theorem Succeeds.modify (f : Emitter → Emitter) : Succeeds (modify f) := fun e =>
  ⟨(), f e, gives_modify.mpr rfl⟩

theorem Succeeds.mapM {f : α → Emit β} {entries : List α} (each : ∀ a ∈ entries, Succeeds (f a)) :
    Succeeds (entries.mapM f) := by
  induction entries with
  | nil => exact .pure []
  | cons a rest ih =>
    rw [forall_mem_cons] at each
    rw [mapM_cons]
    exact each.1.bind fun _ => (ih each.2).bind fun _ => .pure _

private theorem Succeeds.forM {f : α → Emit Unit} {entries : List α}
    (each : ∀ a ∈ entries, Succeeds (f a)) : Succeeds (entries.forM f) := by
  induction entries with
  | nil => exact .pure ()
  | cons a rest ih =>
    rw [forall_mem_cons] at each
    exact each.1.bind fun _ => ih each.2

theorem succeeds_reserveLabels (count : Nat) : Succeeds (reserveLabels count) := fun e =>
  ⟨e.nextLabel, _, gives_reserveLabels.mpr ⟨rfl, rfl⟩⟩

private theorem succeeds_stringLabel (s : String) : Succeeds (stringLabel s) := by
  have get : Succeeds (MonadStateOf.get : Emit Emitter) := fun e => ⟨e, e, gives_get.mpr ⟨rfl, rfl⟩⟩
  refine get.bind fun e => ?_
  split
  · exact .pure _
  · exact (succeeds_reserveLabels 1).bind fun _ => (Succeeds.modify _).bind fun _ => .pure _

end Emit

namespace EmissionContext

variable {c : EmissionContext} {b : BlockId}

variable {s : BlockId} {dst v : VarId} {left right src : Operand} {field : String}
variable {o : Operand} {op : BinaryOp} {p : Procedure} {pair : VarId × VarId} {target : LabelId}

/-- The procedure has a flow graph, and the context knows what is live in it. -/
structure Analysed (c : EmissionContext) : Prop where
  wf : c.proc.WellFormed
  ordered : c.proc.Ordered
  bounded : c.proc.Bounded
  live : c.live = .ofProcedure c.proc

/-- All that emission asks of a procedure. -/
structure Ready (c : EmissionContext) : Prop where
  wf : c.proc.WellFormed
  ordered : c.proc.Ordered
  bounded : c.proc.Bounded
  colored : c.proc.Colored
  fits : c.proc.Fits
  fields : c.program.DeclaresFields c.proc
  live : c.live = .ofProcedure c.proc
  slots : ∀ v, Inst.spill v ∈ c.proc.insts ∨ Inst.reload v ∈ c.proc.insts →
    ((c.proc.web? v).bind c.frame.slot?).isSome = true

private theorem Ready.analysed (ready : c.Ready) :
    c.Analysed := ⟨ready.wf, ready.ordered, ready.bounded, ready.live⟩

/-! ## Registers -/

theorem reg_eq_ok (colored : (c.proc.reg? v).isSome = true) :
    c.reg v = .ok ((c.proc.reg? v).getD .r0) := by
  obtain ⟨r, isReg⟩ := Option.isSome_iff_exists.mp colored
  rw [reg, requireReg, isReg]
  rfl

/-- Registers of the two sides of a move between variables. -/
def registers (c : EmissionContext) (pair : VarId × VarId) : Reg × Reg :=
  ((c.proc.reg? pair.1).getD .r0, (c.proc.reg? pair.2).getD .r0)

private theorem moves_eq_ok {pairs : List (VarId × VarId)}
    (sources : ∀ pair ∈ pairs, (c.proc.reg? pair.1).isSome = true)
    (targets : ∀ pair ∈ pairs, (c.proc.reg? pair.2).isSome = true) :
    c.moves pairs = .ok (pairs.map c.registers) := by
  refine mapM_eq_pure fun pair mem => ?_
  rw [reg_eq_ok (sources pair mem), reg_eq_ok (targets pair mem)]
  rfl

theorem not_conflicting_registers {pairs : List (VarId × VarId)}
    (colored : ∀ pair ∈ pairs, (c.proc.reg? pair.2).isSome = true)
    (agree : ∀ first ∈ pairs, ∀ second ∈ pairs, c.proc.reg? first.2 = c.proc.reg? second.2 →
      first.1 = second.1) : ¬Copy.Conflicting (pairs.map c.registers) := by
  rintro ⟨_, inFirst, _, inSecond, same, differ⟩
  obtain ⟨first, isFirst, rfl⟩ := mem_map.mp inFirst
  obtain ⟨second, isSecond, rfl⟩ := mem_map.mp inSecond
  obtain ⟨r, isR⟩ := Option.isSome_iff_exists.mp (colored first isFirst)
  obtain ⟨r', isR'⟩ := Option.isSome_iff_exists.mp (colored second isSecond)
  have sameReg : c.proc.reg? first.2 = c.proc.reg? second.2 := by
    simp only [registers, isR, isR', Option.getD_some] at same
    rw [isR, isR', same]
  refine differ ?_
  simp only [registers, agree first isFirst second isSecond sameReg]

theorem succeeds_copy {moves : List (Reg × Reg)} (agree : ¬Copy.Conflicting moves) :
    Succeeds (c.copy moves) := by
  have isOk : ∃ sequence, Copy.sequentialize moves c.clobberable = .ok sequence := by
    rcases Copy.ofMoves_cases moves with ⟨copy, made, -⟩ | ⟨-, conflicting⟩
    · exact ⟨copy.sequence c.clobberable, by rw [Copy.sequentialize, made]; rfl⟩
    · exact absurd conflicting agree
  refine (Succeeds.lift isOk).bind fun sequence => ?_
  split
  · exact (Succeeds.modify _).bind fun _ => .pure _
  · exact .pure _

/-! ## Edges -/

theorem predIndex?_eq {block : Block} (once : block.preds.count b = 1) {slot : Nat}
    (isPred : block.preds[slot]? = some b) : block.predIndex? b = some slot := by
  obtain ⟨lt, isB⟩ := List.getElem?_eq_some_iff.mp isPred
  refine findIdx?_eq_some_iff_getElem.mpr
    ⟨lt, by rw [isB]; exact beq_self_eq_true b, fun earlier before isB' => ?_⟩
  have twice : List.Duplicate b block.preds := by
    refine duplicate_iff_exists_distinct_get.mpr
      ⟨⟨earlier, Nat.lt_trans before lt⟩, ⟨slot, lt⟩, before, ?_, ?_⟩
    · exact (eq_of_beq isB').symm
    · exact isB.symm
  have count := duplicate_iff_two_le_count.mp twice
  omega

theorem count_preds (wf : p.WellFormed) (only : (p.block b).succs = [s]) :
    (p.block s).preds.count b = 1 := by
  have lt := (wf.inside b s (by rw [only]; exact mem_singleton.mpr rfl)).1
  rw [(wf.preds s lt).count_eq, FlowGraph.count_predsOf]
  change (p.block b).succs.count s = 1
  rw [only, count_singleton_self]

theorem mem_edgePhis : pair ∈ c.edgePhis b s ↔
    ∃ slot, (c.proc.block s).predIndex? b = some slot ∧ ∃ phi ∈ (c.proc.block s).phis,
      phi.inMemory = false ∧ phi.args[slot]? = some (some pair.1) ∧ phi.dst = pair.2 := by
  unfold edgePhis
  dsimp only
  cases (c.proc.block s).predIndex? b with
  | none => simp
  | some slot =>
    simp only [mem_filterMap, Option.some.injEq, exists_eq_left']
    refine exists_congr fun phi => and_congr_right fun _ => ?_
    cases phi.inMemory with
    | true => simp
    | false => simp [Option.join_eq_some_iff, Prod.ext_iff]

/-- On the only edge of a block, an argument of a phi is read at its end and goes to the destination
of the phi, and all else that is moved is live at the start of the next block and stays. -/
theorem mem_edgePairs (analysed : c.Analysed) (only : (c.proc.block b).succs = [s])
    (mem : pair ∈ c.edgePairs b s) : (pair.1 ∈ c.proc.exitReads b ∧ pair ∈ c.edgePhis b s) ∨
      (pair.1 = pair.2 ∧ ((Liveness.ofProcedure c.proc).inOf s).contains pair.2 = true) := by
  rcases mem_append.mp mem with isPhi | isOther
  · refine .inl ⟨mem_exitReads.mpr ⟨s, by rw [only]; exact mem_singleton.mpr rfl, ?_⟩, isPhi⟩
    obtain ⟨slot, found, phi, inPhis, inRegister, isArg, -⟩ := mem_edgePhis.mp isPhi
    obtain ⟨lt, isPred, -⟩ := findIdx?_eq_some_iff_getElem.mp found
    exact ⟨phi, inPhis, inRegister, slot,
      List.getElem?_eq_some_iff.mpr ⟨lt, eq_of_beq isPred⟩, isArg⟩
  · obtain ⟨v, kept, rfl⟩ := mem_map.mp isOther
    obtain ⟨isLive, noPhi⟩ := mem_filter.mp kept
    refine .inr ⟨rfl, ?_⟩
    rw [IndexSet.mem_toList, analysed.live] at isLive
    rcases (Liveness.contains_outOf analysed.wf analysed.ordered analysed.bounded).mp isLive with
      isRead | ⟨s', edge, live⟩
    · obtain ⟨s', edge, phi, inPhis, inRegister, slot, isPred, isArg⟩ := mem_exitReads.mp isRead
      rw [only, mem_singleton] at edge
      subst edge
      have found := predIndex?_eq (count_preds analysed.wf only) isPred
      have isPhi : (v, phi.dst) ∈ c.edgePhis b s' :=
        mem_edgePhis.mpr ⟨slot, found, phi, inPhis, inRegister, isArg, rfl⟩
      rw [List.contains_iff_mem.mpr (mem_map_of_mem isPhi)] at noPhi
      cases noPhi
    · rw [only, mem_singleton] at edge
      exact edge ▸ live

theorem eq_of_phi_dst (single : p.SingleAssignment) (lt : s < p.blocks.size) {first second : Phi}
    (inFirst : first ∈ (p.block s).phis) (inSecond : second ∈ (p.block s).phis)
    (same : first.dst = second.dst) : first = second := by
  have nodup := single.nodup_block lt
  rw [Block.insts_eq, flatMap_append, flatMap_map] at nodup
  have dsts : ((p.block s).phis.map Phi.dst).Nodup := by
    rw [← flatMap_pure_eq_map]
    exact (nodup_append.mp nodup).1
  exact inj_on_of_nodup_map dsts inFirst inSecond same

/-- Destinations of register phis of a block have registers of their own at its start. -/
structure PhisApart (p : Procedure) (s : BlockId) : Prop where
  present : ∀ phi ∈ (p.block s).phis, phi.inMemory = false → (p.reg? phi.dst).isSome = true
  distinct : ∀ first ∈ (p.block s).phis, ∀ second ∈ (p.block s).phis, first.inMemory = false →
    second.inMemory = false → p.reg? first.dst = p.reg? second.dst → first = second
  live : ∀ phi ∈ (p.block s).phis, phi.inMemory = false → ∀ v,
    ((Liveness.ofProcedure p).inOf s).contains v = true → p.reg? v ≠ p.reg? phi.dst

/-- The moves on the only edge of a block are between registers, and no two of them conflict. -/
theorem edgeMoves_eq_ok (analysed : c.Analysed) (only : (c.proc.block b).succs = [s])
    (reads : ∀ v ∈ c.proc.exitReads b, (c.proc.reg? v).isSome = true)
    (kept : c.proc.Apart fun v => ((Liveness.ofProcedure c.proc).inOf s).contains v = true)
    (phis : PhisApart c.proc s) :
    c.moves (c.edgePairs b s) = .ok ((c.edgePairs b s).map c.registers) ∧
      ¬Copy.Conflicting ((c.edgePairs b s).map c.registers) := by
  have isSource : ∀ pair ∈ c.edgePairs b s, (c.proc.reg? pair.1).isSome = true := by
    intro pair mem
    rcases mem_edgePairs analysed only mem with ⟨isRead, -⟩ | ⟨same, live⟩
    · exact reads _ isRead
    · rw [same]
      exact kept.present _ live
  have isTarget : ∀ pair ∈ c.edgePairs b s, (c.proc.reg? pair.2).isSome = true := by
    intro pair mem
    rcases mem_edgePairs analysed only mem with ⟨-, isPhi⟩ | ⟨-, live⟩
    · obtain ⟨-, -, phi, inPhis, inRegister, -, isDst⟩ := mem_edgePhis.mp isPhi
      exact isDst ▸ phis.present phi inPhis inRegister
    · exact kept.present _ live
  refine ⟨moves_eq_ok isSource isTarget,
    not_conflicting_registers isTarget fun first inFirst second inSecond same => ?_⟩
  -- One destination: of one phi, or of a value that stays.
  rcases mem_edgePairs analysed only inFirst with ⟨-, isPhi⟩ | ⟨stays, live⟩ <;>
    rcases mem_edgePairs analysed only inSecond with ⟨-, isPhi'⟩ | ⟨stays', live'⟩
  · obtain ⟨slot, found, phi, inPhis, inRegister, isArg, isDst⟩ := mem_edgePhis.mp isPhi
    obtain ⟨slot', found', phi', inPhis', inRegister', isArg', isDst'⟩ := mem_edgePhis.mp isPhi'
    obtain rfl := Option.some.inj (found.symm.trans found')
    obtain rfl := phis.distinct phi inPhis phi' inPhis' inRegister inRegister'
      (by rw [isDst, isDst', same])
    exact Option.some.inj (Option.some.inj (isArg.symm.trans isArg'))
  · obtain ⟨-, -, phi, inPhis, inRegister, -, isDst⟩ := mem_edgePhis.mp isPhi
    exact absurd (isDst ▸ same.symm) (phis.live phi inPhis inRegister _ live')
  · obtain ⟨-, -, phi, inPhis, inRegister, -, isDst⟩ := mem_edgePhis.mp isPhi'
    exact absurd (isDst ▸ same) (phis.live phi inPhis inRegister _ live)
  · rw [stays, stays', kept.distinct _ _ live live' same]

private theorem Ready.phisApart (ready : c.Ready) (lt : s < c.proc.blocks.size) :
    PhisApart c.proc s := by
  have starts := ready.colored.starts s lt
  refine ⟨fun phi mem inRegister => starts.present _ (.inr ⟨phi, mem, inRegister, rfl⟩),
    fun first inFirst second inSecond isFirst isSecond same => ?_,
    fun phi mem inRegister v live same => ?_⟩
  · exact eq_of_phi_dst ready.colored.single lt inFirst inSecond (starts.distinct _ _
      (.inr ⟨first, inFirst, isFirst, rfl⟩) (.inr ⟨second, inSecond, isSecond, rfl⟩) same)
  · rw [starts.distinct _ _ (.inl live) (.inr ⟨phi, mem, inRegister, rfl⟩) same,
      Liveness.not_live_inOf ready.wf ready.ordered ready.bounded mem] at live
    cases live

private theorem Ready.reads_exit (ready : c.Ready) (lt : b < c.proc.blocks.size) :
    ∀ v ∈ c.proc.exitReads b, (c.proc.reg? v).isSome = true := by
  intro v isRead
  obtain ⟨shape⟩ := ready.wf.shape b lt
  exact ready.colored.reads b lt shape.last (by simp [shape.insts]) v
    (Inst.mem_reads.mpr (.inr ⟨shape.exits.isTerminator, isRead⟩))

/-! ## Operands -/

/-- A variable in the operand has a register. -/
def Placed (c : EmissionContext) (o : Operand) :
    Prop := ∀ v, o.var? = some v → (c.proc.reg? v).isSome = true

theorem operandReg_eq_ok (isVar : o.var?.isSome = true) (placed : c.Placed o) :
    ∃ r, c.operandReg o = .ok r := by
  cases o with
  | var v => exact ⟨_, reg_eq_ok (placed v rfl)⟩
  | _ => cases isVar

private theorem imm_eq_ok {w : Int32} (encodable : Immediate.isEncodable w = true) :
    Flexible.imm w = .ok (.word w) := if_pos encodable

theorem flexible_eq_ok (isSecond : o.isSecond = true) (placed : c.Placed o) :
    ∃ f, c.flexible o = .ok f := by
  cases o with
  | var v =>
    rw [flexible, reg_eq_ok (placed v rfl)]
    exact ⟨_, rfl⟩
  | str s => cases isSecond
  | int | bool => exact ⟨_, imm_eq_ok isSecond⟩
  | null => exact ⟨.word 0, imm_eq_ok (w := 0) isSecond⟩

private theorem branch_eq_ok {op : Comparison}
    (exits : c.proc.Exits (c.proc.block b) (.branch op left right target))
    (fits : (Inst.branch op left right target).fits = true) (placedLeft : c.Placed left)
    (placedRight : c.Placed right) : ∃ code, c.branch b op left right = .ok code := by
  obtain ⟨d, t, isDirect, isCond, -⟩ := exits
  unfold branch
  dsimp only
  rw [isDirect, isCond]
  dsimp only [successorLabel, bind, Except.bind]
  split
  · exact ⟨_, rfl⟩
  · rename_i notBoth
    have isFlexible : left.var?.isSome = true ∧ right.isSecond = true := by
      simp only [Inst.fits, Bool.or_eq_true, Bool.and_eq_true] at fits
      refine fits.resolve_left fun both => ?_
      obtain ⟨x, isX⟩ := Option.isSome_iff_exists.mp both.1
      obtain ⟨y, isY⟩ := Option.isSome_iff_exists.mp both.2
      exact notBoth x y isX isY
    obtain ⟨r, isReg⟩ := operandReg_eq_ok isFlexible.1 placedLeft
    obtain ⟨f, isFlexible⟩ := flexible_eq_ok isFlexible.2 placedRight
    rw [isReg, isFlexible]
    exact ⟨_, rfl⟩

/-- An operation that fits is on words with a result, or on a variable and what its kind takes. -/
theorem fits_binary_cases (fits : (Inst.binary dst op left right).fits = true) :
    (∃ x y w, left.word? = some x ∧ right.word? = some y ∧ op.eval? x y = some w) ∨
      (left.var?.isSome = true ∧ op ≠ .div ∧ (op = .mul → right.var?.isSome = true) ∧
        (op ≠ .mul → right.isSecond = true)) := by
  cases isX : left.word? with
  | none => cases op <;> simp_all [Inst.fits]
  | some x =>
    cases isY : right.word? with
    | none => cases op <;> simp_all [Inst.fits]
    | some y =>
      simp only [Inst.fits, isX, isY] at fits
      obtain ⟨w, isResult⟩ := Option.isSome_iff_exists.mp fits
      exact .inl ⟨x, y, w, rfl, rfl, isResult⟩

private theorem binary_eq_ok (fits : (Inst.binary dst op left right).fits = true)
    (colored : (c.proc.reg? dst).isSome = true)
    (placedLeft : c.Placed left) (placedRight : c.Placed right) :
    ∃ i, c.binary dst op left right = .ok i := by
  unfold binary
  rw [reg_eq_ok colored]
  rcases fits_binary_cases fits with ⟨x, y, w, isX, isY, isResult⟩ | ⟨isVar, notDiv, mul, other⟩
  · rw [isX, isY]
    dsimp only [bind, Except.bind]
    rw [isResult]
    exact ⟨_, rfl⟩
  · obtain ⟨r, isReg⟩ := operandReg_eq_ok isVar placedLeft
    rw [TargetForm.word?_eq_none_of_var isVar, isReg]
    cases op with
    | div => exact absurd rfl notDiv
    | mul =>
      obtain ⟨r', isReg'⟩ := operandReg_eq_ok (mul rfl) placedRight
      rw [isReg']
      exact ⟨_, rfl⟩
    | add | sub | rsb =>
      obtain ⟨f, isFlexible⟩ := flexible_eq_ok (other (by decide)) placedRight
      rw [isFlexible]
      exact ⟨_, rfl⟩

private theorem negate_eq_ok (fits : (Inst.negate dst src).fits = true)
    (colored : (c.proc.reg? dst).isSome = true) (placed : c.Placed src) :
    ∃ i, c.negate dst src = .ok i := by
  unfold negate
  rw [reg_eq_ok colored]
  dsimp only [bind, Except.bind]
  split
  · exact ⟨_, rfl⟩
  · rename_i noWord
    rw [Inst.fits, Operand.isConstant, noWord, Option.isSome_none, Bool.false_or] at fits
    obtain ⟨r, isReg⟩ := operandReg_eq_ok fits placed
    rw [isReg]
    exact ⟨_, rfl⟩

theorem fieldOffset_eq_ok (declared : c.program.HasField c.proc v field) :
    ∃ offset, c.fieldOffset v field = .ok offset := by
  obtain ⟨name, layout, isObject, isClass, hasField⟩ := declared
  obtain ⟨offset, isOffset⟩ := Option.isSome_iff_exists.mp hasField
  have isLayout : c.class? v = some layout := by
    rw [class?, isObject]
    exact isClass
  rw [fieldOffset, isLayout, Option.bind_some, isOffset]
  exact ⟨offset, rfl⟩

private theorem succeeds_assign (dst : Reg) (placed : c.Placed src) :
    Succeeds (c.assign dst src) := by
  cases src with
  | str s => exact (succeeds_stringLabel s).bind fun _ => .pure _
  | var v => exact (Succeeds.lift ⟨_, reg_eq_ok (placed v rfl)⟩).bind fun _ => .pure _
  | int | bool | null => exact (Succeeds.lift ⟨_, rfl⟩).bind fun _ => .pure _

private theorem succeeds_call (dst : Option VarId) (callee : Callee) :
    Succeeds (c.call dst callee) := by
  cases callee with
  | procedure name => exact (Succeeds.pure _).bind fun _ => .pure _
  | external name => exact ((Succeeds.modify _).bind fun _ => .pure _).bind fun _ => .pure _

private theorem slot_eq_ok (slotted : ((c.proc.web? v).bind c.frame.slot?).isSome = true) :
    ∃ offset, c.slot v = .ok offset := by
  obtain ⟨offset, isOffset⟩ := Option.isSome_iff_exists.mp slotted
  rw [slot, isOffset]
  exact ⟨offset, rfl⟩

/-! ## Instructions -/

private theorem succeeds_jump (ready : c.Ready) (lt : b < c.proc.blocks.size)
    (exits : c.proc.Exits (c.proc.block b) (.jump target)) : Succeeds (c.jump b) := by
  obtain ⟨s, isDirect, isCond, -⟩ := exits
  have only : (c.proc.block b).succs = [s] := by simp [Block.succs, isDirect, isCond]
  have inside := (ready.wf.inside b s (by rw [only]; exact mem_singleton.mpr rfl)).1
  obtain ⟨isMoves, agree⟩ := edgeMoves_eq_ok ready.analysed only (ready.reads_exit lt)
    ((ready.colored.starts s inside).mono fun _ => .inl) (ready.phisApart inside)
  unfold jump
  dsimp only
  rw [isDirect]
  refine (Succeeds.lift ⟨_, rfl⟩).bind fun _ => ?_
  dsimp only
  rw [isMoves]
  exact (succeeds_copy agree).bind fun _ => .pure _

private theorem succeeds_prepare (ready : c.Ready) (lt : b < c.proc.blocks.size)
    {defs srcs : List VarId}
    {argCount : Nat} (mem : Inst.prepare defs srcs argCount ∈ (c.proc.block b).insts) :
    Succeeds (c.select b (.prepare defs srcs argCount)) := by
  have inProc := mem_insts.mpr ⟨b, mem⟩
  have nodup : defs.Nodup := (nodup_flatMap.mp ready.colored.single.nodup).1 _ inProc
  have apart := ready.colored.copies defs srcs argCount inProc
  have isDef : ∀ pair ∈ srcs.zip defs, pair.2 ∈ defs := fun pair inPairs => (of_mem_zip inPairs).2
  have target : ∀ pair ∈ srcs.zip defs, (c.proc.reg? pair.2).isSome = true := fun pair inPairs =>
    apart.present _ (isDef pair inPairs)
  have source : ∀ pair ∈ srcs.zip defs, (c.proc.reg? pair.1).isSome = true := fun pair inPairs =>
    ready.colored.reads b lt _ mem _ (Inst.mem_reads.mpr (.inl (of_mem_zip inPairs).1))
  have agree : ¬Copy.Conflicting ((srcs.zip defs).map c.registers) := by
    refine not_conflicting_registers target fun first inFirst second inSecond same => ?_
    have sameDef := apart.distinct _ _ (isDef first inFirst) (isDef second inSecond) same
    obtain ⟨at_, isFirst⟩ := mem_iff_getElem?.mp inFirst
    obtain ⟨at', isSecond⟩ := mem_iff_getElem?.mp inSecond
    obtain ⟨isSrc, isDst⟩ := getElem?_zip_eq_some.mp isFirst
    obtain ⟨isSrc', isDst'⟩ := getElem?_zip_eq_some.mp isSecond
    have inside := (List.getElem?_eq_some_iff.mp isDst).1
    have sameAt : defs[at_]? = defs[at']? := by rw [isDst, isDst', sameDef]
    obtain rfl := (getElem?_inj inside nodup).mp sameAt
    exact Option.some.inj (isSrc.symm.trans isSrc')
  rw [select, moves_eq_ok source target]
  exact succeeds_copy agree

private theorem load_eq_ok {base : Operand}
    (declared : c.program.Declares c.proc (.load dst base field))
    (colored : (c.proc.reg? dst).isSome = true) (placed : c.Placed base) :
    ∃ i, c.load dst base field = .ok i := by
  obtain ⟨v, rfl, hasField⟩ := declared
  obtain ⟨offset, isOffset⟩ := fieldOffset_eq_ok hasField
  change ∃ i, (c.fieldOffset v field >>= _) = _
  rw [isOffset, reg_eq_ok colored, reg_eq_ok (placed v rfl)]
  exact ⟨_, rfl⟩

private theorem store_eq_ok {base : VarId}
    (declared : c.program.Declares c.proc (.store base field src))
    (fits : (Inst.store base field src).fits = true) (colored : (c.proc.reg? base).isSome = true)
    (placed : c.Placed src) : ∃ i, c.store base field src = .ok i := by
  obtain ⟨offset, isOffset⟩ := fieldOffset_eq_ok declared
  obtain ⟨r, isReg⟩ := operandReg_eq_ok fits placed
  rw [store, isOffset, isReg, reg_eq_ok colored]
  exact ⟨_, rfl⟩

private theorem succeeds_select (ready : c.Ready) (lt : b < c.proc.blocks.size) {i : Inst}
    (mem : i ∈ (c.proc.block b).insts) : Succeeds (c.select b i) := by
  obtain ⟨shape⟩ := ready.wf.shape b lt
  have inProc : i ∈ c.proc.insts := mem_insts.mpr ⟨b, mem⟩
  have fits := ready.fits i inProc
  have uses : ∀ v ∈ i.uses, (c.proc.reg? v).isSome = true := fun v isUse =>
    ready.colored.reads b lt i mem v (Inst.mem_reads.mpr (.inl isUse))
  have placed : ∀ o ∈ i.operands, c.Placed o := fun o isOperand v isVar =>
    uses v (mem_append_left _ (mem_filterMap.mpr ⟨o, isOperand, isVar⟩))
  have defs := ready.colored.defs i inProc
  have declared := ready.fields i inProc
  have exits : i.isTerminator = true → c.proc.Exits (c.proc.block b) i := by
    intro last
    rcases shape.mem_cases mem with ⟨phi, -, rfl⟩ | inner | exits
    · cases last
    · rw [Inst.isTerminator_of_isInner inner] at last
      cases last
    · exact exits
  cases i with
  | branch op left right target =>
    exact .lift (branch_eq_ok (exits rfl) fits (placed left (by simp [Inst.operands]))
      (placed right (by simp [Inst.operands])))
  | jump target => exact succeeds_jump ready lt (exits rfl)
  | assign dst src =>
    exact (Succeeds.lift ⟨_, reg_eq_ok (defs rfl dst (mem_singleton.mpr rfl))⟩).bind fun r =>
      succeeds_assign r (placed src (mem_singleton.mpr rfl))
  | binary dst op left right =>
    exact (Succeeds.lift (binary_eq_ok fits (defs rfl dst (mem_singleton.mpr rfl))
      (placed left (by simp [Inst.operands])) (placed right (by simp [Inst.operands])))).bind
      fun _ => .pure _
  | negate dst src =>
    exact (Succeeds.lift (negate_eq_ok fits (defs rfl dst (mem_singleton.mpr rfl))
      (placed src (mem_singleton.mpr rfl)))).bind fun _ => .pure _
  | load dst base field =>
    exact (Succeeds.lift (load_eq_ok declared (defs rfl dst (mem_singleton.mpr rfl))
      (placed base (mem_singleton.mpr rfl)))).bind fun _ => .pure _
  | store base field src =>
    exact (Succeeds.lift (store_eq_ok declared fits (uses base (by simp [Inst.uses]))
      (placed src (mem_singleton.mpr rfl)))).bind fun _ => .pure _
  | ret value =>
    cases value with
    | none => exact .pure _
    | some value =>
      exact (succeeds_assign _ (placed value (mem_singleton.mpr rfl))).bind fun _ => .pure _
  | call dst callee args => exact succeeds_call dst callee
  | prepare defs srcs argCount => exact succeeds_prepare ready lt mem
  | phi node => exact .pure _
  | spill v =>
    exact (Succeeds.lift (slot_eq_ok (ready.slots v (.inl inProc)))).bind fun _ =>
      (Succeeds.lift ⟨_, reg_eq_ok (uses v (by simp [Inst.uses]))⟩).bind fun _ => .pure _
  | reload v =>
    exact (Succeeds.lift (slot_eq_ok (ready.slots v (.inr inProc)))).bind fun _ =>
      (Succeeds.lift ⟨_, reg_eq_ok (defs rfl v (mem_singleton.mpr rfl))⟩).bind fun _ => .pure _
  | stackArg v index =>
    exact (Succeeds.lift ⟨_, reg_eq_ok (uses v (by simp [Inst.uses]))⟩).bind fun _ => .pure _
  | label l =>
    rcases shape.mem_cases mem with ⟨phi, -, same⟩ | inner | last
    · cases same
    · cases inner
    · cases last

private theorem succeeds_emitBlock (ready : c.Ready) (lt : b < c.proc.blocks.size) :
    Succeeds (c.emitBlock b) :=
  (Succeeds.mapM fun _ => succeeds_select ready lt).bind fun _ => .pure _

end EmissionContext

variable {program : Program}

/-! ## Programs -/

/-- What a procedure of a program is when all its passes are done. -/
structure Procedure.Emittable (program : Program) (p : Procedure) : Prop where
  wf : p.WellFormed
  ordered : p.Ordered
  bounded : p.Bounded
  colored : p.Colored
  fits : p.Fits
  slotted : p.Slotted
  fields : program.DeclaresFields p

private theorem Emit.succeeds_procedure {p : Procedure} (emittable : p.Emittable program) :
    Succeeds (Emit.procedure program p) := by
  obtain ⟨frame, laidOut, slots⟩ := Frame.ofProcedure_eq_ok emittable.slotted
  have order := p.perm_layoutOrder emittable.wf emittable.ordered
  unfold Emit.procedure
  rw [laidOut]
  change Succeeds (Pure.pure frame >>= _)
  rw [pure_bind]
  refine (succeeds_reserveLabels _).bind fun firstLabel => ?_
  have ready : EmissionContext.Ready ⟨program, p, .ofProcedure p, frame, firstLabel⟩ :=
    ⟨emittable.wf, emittable.ordered, emittable.bounded, emittable.colored, emittable.fits,
      emittable.fields,
      rfl, slots⟩
  refine (Succeeds.mapM fun b isBlock => ?_).bind fun blocks =>
    (Succeeds.modify _).bind fun _ => .modify _
  exact EmissionContext.succeeds_emitBlock ready (mem_blockIds.mp (order.mem_iff.mp isBlock))

theorem Program.emit_eq_ok (emittable : ∀ p ∈ program.procedures, p.Emittable program)
    (stats : Statistics) : ∃ asm stats', program.emit stats = (.ok asm, stats') := by
  obtain ⟨_, e, gives⟩ := Succeeds.forM (fun p mem => succeeds_procedure (emittable p mem))
    (.start stats)
  have run : (program.procedures.forM (Emit.procedure program)).run.run (.start stats) =
      (.ok (), e) := gives
  unfold Program.emit
  rw [run]
  exact ⟨e.module, e.stats, rfl⟩

end ArmBackend
