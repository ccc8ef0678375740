import ArmBackend.Proofs.Coloring.Colored

/-!
Contract: a coloured procedure keeps apart what is live at once.

Values that are live own their registers at every point, and an owner is alone in its register.
Arguments of the procedure and of its calls are pinned to the first registers; values that are
carried over a call are above them. No register is given that the configuration does not allow.

Owns: the registers of a coloured procedure.
Does not own: that colouring succeeds.
-/

namespace ArmBackend

open List Procedure

theorem RegSet.contains_firstN {count : Nat} {r : Reg} :
    (firstN count).contains r = true ↔ r.val < count := by
  rw [firstN, contains_ofList, mem_filter]
  simp [Reg.all]

namespace Coloring

variable {s s' : State} {b : BlockId} {v : VarId} {p q : Procedure} {t : DomTree} {config : Config}
variable {a : VarId} {defs srcs : List VarId} {argCount k : Nat} {live : Liveness} {r : Reg}

/-! ## Which registers are given -/

theorem val_of_ofIndex? (isReg : Reg.ofIndex? k = some r) : r.val = k := by
  unfold Reg.ofIndex? at isReg
  split at isReg
  · rw [← Option.some.inj isReg]
  · cases isReg

private theorem ofIndex?_val (r : Reg) : Reg.ofIndex? r.val = some r := by
  unfold Reg.ofIndex?
  rw [dif_pos r.isLt]

/-- Arguments are in the registers of their positions before the blocks are coloured. -/
theorem reg?_pinArguments (args : p.args.Nodup) (bounded : p.Bounded)
    (isArg : p.args[k]? = some a) (few : k < config.argRegisters) :
    (pinArguments p config).reg? a = Reg.ofIndex? k := by
  rw [pinArguments_eq]
  refine (reg?_pin _ _ a).2 ?_ ?_ k ?_
  · rw [zipIdx_map_fst]
    exact args.sublist (take_sublist _ _)
  · have count : ((p.args ++ p.locals).foldl (fun q u => q.setReg u none) p).nextVar = p.nextVar :=
      (sameButRegs_setRegs id (fun _ => none) (p.args ++ p.locals) p).count
    rw [count]
    exact bounded.args a (mem_of_getElem? isArg)
  · rw [mk_mem_zipIdx_iff_getElem?, getElem?_take_of_lt few]
    exact isArg

/-- The registers of the listed variables are numbered below a bound. -/
def RegsBelow (vars : List VarId) (count : Nat) (p : Procedure) : Prop :=
  ∀ v ∈ vars, ∀ r, p.reg? v = some r → r.val < count

private theorem regsBelow_pinArguments (ready : p.ReadyToColor) (valid : config.validate = .ok ()) :
    RegsBelow (p.args ++ p.locals) config.registers (pinArguments p config) := by
  intro v mem r isReg
  have isArg := mem_args_of_pinned (.inl mem) (Option.isSome_iff_exists.mpr ⟨r, isReg⟩)
  obtain ⟨few, enough, -⟩ := of_validate valid
  obtain ⟨k, lt, rfl⟩ := getElem_of_mem isArg
  by_cases early : k < config.argRegisters
  · rw [reg?_pinArguments ready.args ready.bounded (getElem?_eq_getElem lt) early] at isReg
    rw [val_of_ofIndex? isReg]
    omega
  · have late : p.args[k] ∉ ((p.args.take config.argRegisters).zipIdx).map Prod.fst := by
      rw [zipIdx_map_fst, mem_take_iff_getElem]
      rintro ⟨j, inTake, same⟩
      have isIndex := (List.Nodup.getElem_inj_iff ready.args).mp same
      omega
    rw [pinArguments_eq, (reg?_pin _ _ _).1 late, reg?_clear (.inl mem)] at isReg
    cases isReg

theorem allocatable_released (s : State) (live : Liveness) (b : BlockId) (exitReads : List VarId)
    (i : Inst × Nat) : (s.released live b exitReads i).file.allocatable = s.file.allocatable := by
  have kept : ∀ (dead : List VarId) (p : Procedure) (file : RegisterFile),
      (dead.foldl (releaseVar p) file).allocatable = file.allocatable := by
    intro dead p
    induction dead with
    | nil => exact fun _ => rfl
    | cons u rest ih =>
      intro file
      rw [foldl_cons, ih]
      unfold releaseVar
      split <;> rfl
  unfold State.released
  split
  · exact kept _ _ _
  · exact (kept _ _ _).trans (kept _ _ _)

private theorem regsBelow_step {vars : List VarId} {count : Nat} {exitReads : List VarId}
    {i : Inst × Nat}
    (few : ∀ defs srcs argCount, i.1 = .prepare defs srcs argCount → argCount ≤ count)
    (file : s.file.allocatable = RegSet.firstN count) (regs : RegsBelow vars count s.proc)
    (ok : State.step live b exitReads s i = .ok s') :
    s'.file.allocatable = RegSet.firstN count ∧ RegsBelow vars count s'.proc := by
  have before := (allocatable_released s live b exitReads i).trans file
  have sameProc := s.proc_released live b exitReads i
  have extend : ∀ {start s₁ : State} {entries : List (VarId × Reg)}, Places start entries s₁ →
      start.proc = s.proc → (∀ entry ∈ entries, entry.2.val < count) →
      RegsBelow vars count s₁.proc := by
    intro start s₁ entries places isStart bound v mem r isReg
    rcases places.reg?_cases isReg with early | given
    · exact regs v mem r (isStart ▸ early)
    · exact bound _ given
  rcases step_cases ok with
    ⟨defs, srcs, argCount, s₁, isPrepare, prepared, rfl⟩ | ⟨-, s₁, defined, rfl⟩
  · obtain ⟨pinned, others, places, vars, numbers, carried, -⟩ := places_prepare prepared
    have bound : ∀ entry ∈ pinned ++ others, entry.2.val < count := by
      refine forall_mem_append.mpr ⟨fun entry mem => ?_, fun entry mem => ?_⟩
      · have isNumber : entry.2.val ∈ List.range' 0 (defs.take argCount).length :=
          numbers ▸ mem_map_of_mem mem
        have short := few defs srcs argCount isPrepare
        rw [mem_range'_1, length_take] at isNumber
        omega
      · have isIn := (carried entry mem).2
        rw [before] at isIn
        exact RegSet.contains_firstN.mp isIn
    have given := extend places sameProc bound
    exact ⟨places.allocatable.trans before, given⟩
  · obtain ⟨entries, places, -, suited⟩ := places_defines defined
    rw [before] at suited
    have given := extend places sameProc
      fun entry mem => RegSet.contains_firstN.mp (suited entry mem)
    exact ⟨places.allocatable.trans before, given⟩

theorem allocatable_enterBlock {file : RegisterFile}
    (ok : enterBlock p live config b = .ok file) :
    file.allocatable = RegSet.firstN config.registers := by
  refine foldlM_induction (fun _ (file : RegisterFile) => file.allocatable =
    RegSet.firstN config.registers) (fun done u _ before after _ known stepped => ?_) rfl ok
  split at stepped
  · cases stepped
  · split at stepped
    · rename_i assigned
      obtain rfl := Except.ok.inj stepped
      exact (RegisterFile.allocatable_of_assign? assigned).trans known
    · cases stepped

section

variable (ready : p.ReadyToColor) (ok : p.color t (.ofProcedure p) config = .ok q)

include ready ok

private theorem regsBelow_color (valid : config.validate = .ok ()) :
    RegsBelow (p.args ++ p.locals) config.registers q := by
  refine (foldlM_induction (fun _ after => (pinArguments p config).SameButRegs after ∧
      RegsBelow (p.args ++ p.locals) config.registers after)
    (fun done c rest before after split known colored => ?_)
    ⟨.refl _, regsBelow_pinArguments ready valid⟩ ok).2
  obtain ⟨same, regs⟩ := known
  refine ⟨same.trans (recolors_colorBlock colored).toSameButRegs, ?_⟩
  obtain ⟨file, entered, colored⟩ := bind_eq_ok colored
  obtain ⟨s, ran, rfl⟩ := bind_pure_eq_ok colored
  have isBlock : before.block c = p.block c :=
    ((sameButRegs_pinArguments p config).trans same).sameBlocks.block c
  refine (foldlM_induction
    (fun _ (s : State) => s.file.allocatable = RegSet.firstN config.registers ∧
      RegsBelow (p.args ++ p.locals) config.registers s.proc)
    (fun done i rest s₁ s₂ parts known stepped => ?_) ⟨allocatable_enterBlock entered, regs⟩ ran).2
  refine regsBelow_step (fun defs srcs argCount isPrepare => ?_) known.1 known.2 stepped
  have inBlock : i.1 ∈ (before.block c).insts :=
    fst_mem_of_mem_zipIdx (parts ▸ mem_append_right _ mem_cons_self)
  rw [isBlock, isPrepare] at inBlock
  exact Nat.le_trans (ready.few _ _ _ (mem_insts.mpr ⟨c, inBlock⟩))
    (by have := of_validate valid; omega)

private theorem exists_copied (dom : t.Exact p) (mem : Inst.prepare defs srcs argCount ∈ p.insts) :
    ∃ pinned others : List (VarId × Reg), pinned.map Prod.fst = defs.take argCount ∧
      pinned.map (·.2.val) = List.range' 0 (defs.take argCount).length ∧
      (others.map Prod.fst).Perm (defs.drop argCount) ∧
      (∀ entry ∈ others, firstPreserved ≤ entry.2) ∧
      ∀ entry ∈ pinned ++ others, q.reg? entry.1 = some entry.2 := by
  obtain ⟨b, inBlock⟩ := mem_insts.mp mem
  have lt := lt_size_of_mem_insts inBlock
  have balanced : defs.length = srcs.length := ready.bounded.balanced b lt _ inBlock
  obtain ⟨front, back, split⟩ := append_of_mem inBlock
  rw [append_cons] at split
  obtain ⟨p', file, s, same, -, ran, kept⟩ := exists_state ready.single
    (DomTree.preorder_perm ready.wf.linked dom) ready.reset lt split ok
  rw [zipIdx_append, foldlM_append] at ran
  obtain ⟨s₁, earlier, ran⟩ := bind_eq_ok ran
  obtain ⟨s₂, stepped, rfl⟩ := bind_pure_eq_ok ran
  obtain ⟨s₃, prepared, rfl⟩ := bind_pure_eq_ok stepped
  obtain ⟨pinned, others, places, vars, numbers, carried, perm⟩ := places_prepare prepared
  have isRest : ((defs.zip srcs).drop argCount).map Prod.fst = defs.drop argCount := by
    rw [map_drop, map_fst_zip (Nat.le_of_eq balanced)]
  rw [isRest] at perm
  have isDefs : ((pinned ++ others).map Prod.fst).Perm defs := by
    rw [map_append, vars]
    exact (perm.append_left _).trans (.of_eq (take_append_drop _ _))
  have nodup := isDefs.nodup_iff.mpr ((nodup_flatMap.mp ready.single.nodup).1 _ mem)
  refine ⟨pinned, others, vars, numbers, perm, fun entry isOther => (carried entry isOther).1,
    fun entry isEntry => ?_⟩
  have count : s₁.proc.nextVar = p.nextVar := (recolors_insts earlier).count.trans same.count
  have isDef := isDefs.mem_iff.mp (mem_map_of_mem isEntry)
  have isReg := places.reg?_eq nodup isEntry
    (count.symm ▸ ready.bounded.defs b lt _ inBlock entry.1 isDef)
  exact (kept entry.1 (Option.isSome_iff_exists.mpr ⟨_, isReg⟩)).trans isReg

private theorem reg?_argument (isArg : p.args[k]? = some a) (few : k < config.argRegisters) :
    q.reg? a = Reg.ofIndex? k := by
  have unplaced : a ∉ placedIn (pinArguments p config) t.preorder := by
    rw [placedIn_congr (sameButRegs_pinArguments p config)]
    intro isPlaced
    obtain ⟨c, -, inBlock⟩ := mem_flatMap.mp isPlaced
    obtain ⟨i, inInsts, isPlaced⟩ := mem_flatMap.mp inBlock
    have isDef := mem_flatMap.mpr ⟨i, mem_insts.mpr ⟨c, inInsts⟩, placed_subset isPlaced⟩
    exact ready.single.args a isDef (mem_of_getElem? isArg)
  rw [(recolors_colorBlocks ok).kept a unplaced]
  exact reg?_pinArguments ready.args ready.bounded isArg few

/-- A definition is not in the register of another value that is live behind it. -/
theorem ne_reg?_of_def (dom : t.Exact p) {front back : List Inst} {i : Inst}
    (split : (p.block b).insts = front ++ i :: back) {d : VarId} (isDef : d ∈ i.defs)
    (live : ((Liveness.ofProcedure p).ahead p b back).contains v = true) (other : v ≠ d)
    (isReg : q.reg? d = some r) : q.reg? v ≠ some r := by
  have inBlock : i ∈ (p.block b).insts := split ▸ by simp
  have lt := lt_size_of_mem_insts inBlock
  rw [append_cons] at split
  obtain ⟨s, settled, last, kept⟩ := exists_settled ready dom lt split ok
  intro sameReg
  have notMemory : ∀ {u}, q.reg? u = some r → ¬p.InMemory u := fun isReg inMemory => by
    rw [reg?_of_inMemory ready ok inMemory] at isReg
    cases isReg
  have isPlaced : d ∈ placed i := by
    cases defines : definesRegister i with
    | true =>
      rw [placed_eq_defs defines (ready.bounded.balanced b lt i inBlock)]
      exact isDef
    | false =>
      cases i with
      | phi phi =>
        obtain rfl := mem_singleton.mp isDef
        exact absurd ⟨phi, mem_insts.mpr ⟨b, inBlock⟩, by simpa [definesRegister] using defines,
          rfl⟩ (notMemory isReg)
      | _ => cases defines
  have ownsD := last i getLast?_concat d isPlaced
  have ownsV := settled.owns v live (notMemory sameReg)
  have owns : ∀ u, u = d ∨ u = v → s.Owns u := by
    rintro u (rfl | rfl)
    · exact ownsD
    · exact ownsV
  have apart := apart_of_owns owns kept
  exact other (apart.distinct v d (.inr rfl) (.inl rfl) (sameReg.trans isReg.symm))

/-- Where a copy in front of a call puts what it defines. -/
theorem registers_copy (dom : t.Exact p) (mem : Inst.prepare defs srcs argCount ∈ p.insts) :
    (∀ (k : Nat) d, defs[k]? = some d → k < argCount → q.reg? d = Reg.ofIndex? k) ∧
      (∀ (k : Nat) d, defs[k]? = some d → argCount ≤ k → ∃ r, q.reg? d = some r ∧ Reg.r4 ≤ r) ∧
      q.Apart (· ∈ defs) := by
  obtain ⟨pinned, others, vars, numbers, perm, carried, regs⟩ := exists_copied ready ok dom mem
  refine ⟨fun k d isDef early => ?_, fun k d isDef late => ?_, ?_⟩
  · have isVar : (pinned.map Prod.fst)[k]? = some d := by
      rw [vars, getElem?_take_of_lt early, isDef]
    rw [getElem?_map] at isVar
    obtain ⟨entry, isEntry, rfl⟩ := Option.map_eq_some_iff.mp isVar
    have isNumber : (pinned.map (·.2.val))[k]? = some entry.2.val := by
      rw [getElem?_map, isEntry]
      rfl
    rw [numbers] at isNumber
    obtain ⟨inside, isNumber⟩ := List.getElem?_eq_some_iff.mp isNumber
    rw [getElem_range', Nat.zero_add, Nat.one_mul] at isNumber
    rw [regs entry (mem_append_left _ (mem_of_getElem? isEntry)), isNumber, ofIndex?_val]
  · have isRest : d ∈ defs.drop argCount := by
      refine mem_of_getElem? (i := k - argCount) ?_
      rw [getElem?_drop, Nat.add_sub_cancel' late, isDef]
    obtain ⟨entry, isEntry, rfl⟩ := mem_map.mp (perm.mem_iff.mpr isRest)
    exact ⟨entry.2, regs entry (mem_append_right _ isEntry), carried entry isEntry⟩
  · obtain ⟨b, inBlock⟩ := mem_insts.mp mem
    have lt := lt_size_of_mem_insts inBlock
    obtain ⟨front, back, split⟩ := append_of_mem inBlock
    rw [append_cons] at split
    obtain ⟨s, -, last, kept⟩ := exists_settled ready dom lt split ok
    refine apart_of_owns (fun d isDef => last _ getLast?_concat d ?_) kept
    rw [placed_eq_defs rfl (ready.bounded.balanced b lt _ inBlock)]
    exact isDef

end

end Coloring

open Coloring

/-- If colouring succeeds, live values have registers of their own, up to those that phis in memory
define, which have none; so the check of the result passes exactly if none of these is live. A
register given to a definition, even to one that nothing reads, is not that of another value live
behind it. All registers are among those of the configuration. Arguments are in the registers of
their positions, and so are the arguments in a copy in front of a call; all else that the copy
defines is in registers of its own from `r4` on. -/
theorem Procedure.apart_color {p q : Procedure} {t : DomTree} {config : Config}
    (ready : p.ReadyToColor)
    (tree : DomTree.ofProcedure p = .ok t) (valid : config.validate = .ok ())
    (ok : p.color t (.ofProcedure p) config = .ok q) :
    (Check.coloring q config = .ok () ↔ ∀ b < p.blocks.size, ∀ front back,
      (p.block b).insts = front ++ back → ∀ v, p.InMemory v →
        ((Liveness.ofProcedure p).ahead p b back).contains v = false) ∧
    (∀ b front back, (p.block b).insts = front ++ back → b < p.blocks.size →
      q.Apart fun v => ((Liveness.ofProcedure p).ahead p b back).contains v = true ∧
      ¬p.InMemory v) ∧
    (∀ b front i back, (p.block b).insts = front ++ i :: back → ∀ d ∈ i.defs, ∀ v,
      ((Liveness.ofProcedure p).ahead p b back).contains v = true → v ≠ d →
        ∀ r, q.reg? d = some r → q.reg? v ≠ some r) ∧
    (∀ v ∈ p.args ++ p.locals, ∀ r, q.reg? v = some r → r.val < config.registers) ∧
    (∀ (k : Nat) a, p.args[k]? = some a → k < 4 → q.reg? a = Reg.ofIndex? k) ∧
    ∀ defs srcs argCount, Inst.prepare defs srcs argCount ∈ p.insts →
      (∀ (k : Nat) d, defs[k]? = some d → k < argCount → q.reg? d = Reg.ofIndex? k) ∧
      (∀ (k : Nat) d, defs[k]? = some d → argCount ≤ k → ∃ r, q.reg? d = some r ∧ Reg.r4 ≤ r) ∧
      q.Apart (· ∈ defs) := by
  have dom := DomTree.exact_ofProcedure ready.wf.linked ready.ordered tree
  have same := sameButRegs_color ok
  have block : ∀ b, q.block b = p.block b := same.sameBlocks.block
  have size : q.blocks.size = p.blocks.size := by rw [same.sameBlocks.blocks]
  have isArgs : q.args = p.args := by rw [same.rest]
  have isLive : ∀ b back, (Liveness.ofProcedure q).ahead q b back =
      (Liveness.ofProcedure p).ahead p b back := by
    intro b back
    rw [Liveness.ofProcedure_congr same, same.rest]
    rfl
  have points : ∀ b front back, (p.block b).insts = front ++ back → b < p.blocks.size →
      q.Apart fun v => ((Liveness.ofProcedure p).ahead p b back).contains v = true ∧
        ¬p.InMemory v := by
    intro b front back split lt
    obtain ⟨s, settled, -, kept⟩ := exists_settled ready dom lt split ok
    exact apart_of_owns (fun v both => settled.owns v both.1 both.2) kept
  have isFour := (of_validate valid).1
  refine ⟨⟨fun checked b lt front back split v inMemory => ?_, fun noMemory => ?_⟩, points,
    fun b front i back split d isDef v live other r isReg =>
      ne_reg?_of_def ready ok dom split isDef live other isReg,
    regsBelow_color ready ok valid,
    fun k a isArg few => reg?_argument ready ok isArg (isFour ▸ few),
    fun defs srcs argCount => registers_copy ready ok dom⟩
  · have apart := (Check.coloring_eq_ok_iff.mp checked).2 b (size ▸ lt) front back (block b ▸ split)
    refine Bool.eq_false_iff.mpr fun live => ?_
    have colored := apart.present v (isLive b back ▸ live)
    rw [reg?_of_inMemory ready ok inMemory] at colored
    cases colored
  · refine Check.coloring_eq_ok_iff.mpr ⟨fun arg mem => ?_, fun b lt front back split => ?_⟩
    · rw [isArgs] at mem
      have isArg := mk_mem_zipIdx_iff_getElem?.mp mem
      obtain ⟨inside, -⟩ := List.getElem?_eq_some_iff.mp isArg
      have few : arg.2 < config.argRegisters := Nat.lt_of_lt_of_le inside (length_take_le _ _)
      rw [getElem?_take_of_lt few] at isArg
      exact reg?_argument ready ok isArg few
    · rw [size] at lt
      rw [block b] at split
      refine (points b front back split lt).mono fun v live => ?_
      rw [isLive] at live
      refine ⟨live, fun inMemory => ?_⟩
      rw [noMemory b lt front back split v inMemory] at live
      cases live

/-! ## Checking what colouring is given -/

/-- A copy in front of a call has at most four arguments and as many sources as definitions, and
defines what is live behind it. -/
def Inst.clearsTo (live : IndexSet) : Inst → Bool
  | .prepare defs srcs argCount => defs.length == srcs.length && argCount ≤ 4 &&
    live.toList.all (· ∈ defs)
  | _ => true

namespace Procedure

/-- What colouring is given can be checked instruction by instruction. -/
theorem ReadyToColor.of_dominate {p : Procedure} (wf : p.WellFormed) (ordered : p.Ordered)
    (dominate : p.DefsDominate) (nodup : (p.args ++ p.insts.flatMap Inst.defs).Nodup)
    (known : ∀ v ∈ p.args ++ p.locals, v < p.nextVar)
    (declared : ∀ i ∈ p.insts, ∀ v ∈ i.mentioned, v ∈ p.args ++ p.locals)
    (clears : ∀ b < p.blocks.size, ∀ entry ∈ (p.block b).insts.zipIdx, entry.1.clearsTo
      ((Liveness.ofProcedure p).ahead p b ((p.block b).insts.drop (entry.2 + 1))) = true) :
    p.ReadyToColor := by
  have copies : ∀ b front defs srcs argCount back, (p.block b).insts =
      front ++ .prepare defs srcs argCount :: back → (defs.length = srcs.length ∧ argCount ≤ 4) ∧
        ∀ v, ((Liveness.ofProcedure p).ahead p b back).contains v = true → v ∈ defs := by
    intro b front defs srcs argCount back split
    have lt : b < p.blocks.size := lt_size_of_mem_insts (split ▸ mem_append_right _ mem_cons_self)
    have isEntry : (Inst.prepare defs srcs argCount, front.length) ∈ (p.block b).insts.zipIdx := by
      rw [mk_mem_zipIdx_iff_getElem?, split]
      simp
    have checked := clears b lt _ isEntry
    have behind : (p.block b).insts.drop (front.length + 1) = back := by
      rw [split]
      simp
    rw [behind] at checked
    simpa [Inst.clearsTo] using checked
  have ofMember : ∀ {b defs srcs argCount}, Inst.prepare defs srcs argCount ∈ (p.block b).insts →
      defs.length = srcs.length ∧ argCount ≤ 4 := fun mem => by
    obtain ⟨front, back, split⟩ := append_of_mem mem
    exact (copies _ front _ _ _ back split).1
  obtain ⟨args, single, apart⟩ := nodup_append.mp nodup
  refine ⟨wf, ordered, .of_mentioned known declared fun i mem => ?_,
    ⟨single, fun d isDef isArg => apart d isArg d isDef rfl⟩, dominate, args, declared,
    fun defs srcs argCount mem => ?_, fun b front defs srcs argCount back split => ?_⟩
  · cases i with
    | prepare =>
      obtain ⟨b, inBlock⟩ := mem_insts.mp mem
      exact (ofMember inBlock).1
    | _ => trivial
  · obtain ⟨b, inBlock⟩ := mem_insts.mp mem
    exact (ofMember inBlock).2
  · exact (copies b front defs srcs argCount back split).2

/-- The loop is coloured, but the counter has no register where it is live. -/
theorem not_coloring_countingInMemory : countingInMemory.ReadyToColor ∧ ∃ t q,
    DomTree.ofProcedure countingInMemory = .ok t ∧ Config.standard.validate = .ok () ∧
      countingInMemory.color t (.ofProcedure countingInMemory) .standard = .ok q ∧
        Check.coloring q .standard ≠ .ok () := by
  refine ⟨.of_dominate wellFormed_countingInMemory ordered_countingInMemory
    dominate_countingInMemory
    (by decide) (by decide) (by decide) (by decide +kernel),
    _, _, tree_countingInMemory, by decide, rfl, by decide +kernel⟩

/-- Calls a procedure with `a`, keeps `a + 1` across the call and adds it to the result; one
definition is never read. -/
def caller : Procedure :=
  { ofName "f" .int with
    args := [0]
    locals := [1, 2, 3, 4, 5, 6]
    vars := #[⟨"a", .int, none, none⟩, ⟨"y", .int, none, none⟩, ⟨"t", .int, none, none⟩,
      ⟨"y_1", .int, none, none⟩, ⟨"z", .int, none, none⟩, ⟨"u", .int, none, none⟩,
      ⟨"w", .int, none, none⟩]
    blocks := #[Block.ofInsts 0 [.binary 1 .add (.var 0) (.int 1), .prepare [2, 3] [0, 1] 1,
      .call (some 4) (.external "g") [.var 2], .assign 5 (.int 0), .binary 6 .add (.var 4) (.var 3),
      .ret (some (.var 6))]]
    preorder := [0]
    postorder := [0]
    rpo := [0] }

theorem wellFormed_caller : caller.WellFormed :=
  .of_check (by decide) (by decide) (by decide) (by decide)

theorem ordered_caller : caller.Ordered :=
  (ordered_recomputeOrders (show caller.recomputeOrders = .ok caller by rfl) (by decide)
    fun b c edge => (wellFormed_caller.inside b c edge).1).2

theorem tree_caller : DomTree.ofProcedure caller = .ok ⟨#[none]⟩ := by
  rfl

set_option synthInstance.maxSize 512 in
theorem dominate_caller : caller.DefsDominate :=
  .of_tree wellFormed_caller ordered_caller
    (DomTree.exact_ofProcedure wellFormed_caller.linked ordered_caller tree_caller) (by decide)
    (by decide)

/-- In a procedure with a call, the check passes; the definition that nothing reads is apart from
the value of the call, the argument of the call is in `r0` and the value kept across it is above
`r3`. -/
theorem apart_color_caller : ∃ t q, DomTree.ofProcedure caller = .ok t ∧
    caller.color t (.ofProcedure caller) .standard = .ok q ∧ Check.coloring q .standard = .ok () ∧
    (∀ r, q.reg? 5 = some r → q.reg? 4 ≠ some r) ∧ q.reg? 2 = Reg.ofIndex? 0 ∧
    ∃ r, q.reg? 3 = some r ∧ Reg.r4 ≤ r := by
  have ready : caller.ReadyToColor := .of_dominate wellFormed_caller ordered_caller dominate_caller
    (by decide) (by decide) (by decide) (by decide +kernel)
  have noPhi : ∀ i ∈ caller.insts, i.isPhi = false := by decide
  obtain ⟨q, ok⟩ : ∃ q, caller.color ⟨#[none]⟩ (.ofProcedure caller) .standard = .ok q := ⟨_, rfl⟩
  obtain ⟨checked, -, dead, -, -, copies⟩ := apart_color ready tree_caller (by decide) ok
  have placed := copies [2, 3] [0, 1] 1 (by decide)
  refine ⟨_, q, tree_caller, ok, checked.mpr ?_, fun r => ?_, placed.1 0 2 rfl (by decide),
    placed.2.1 1 3 rfl (by decide)⟩
  · rintro b - front back - v ⟨phi, isPhi, -⟩
    have notPhi := noPhi _ isPhi
    cases notPhi
  · exact dead 0 ((caller.block 0).insts.take 3) (.assign 5 (.int 0))
      [.binary 6 .add (.var 4) (.var 3), .ret (some (.var 6))] rfl 5
      (by decide) 4 (by decide +kernel) (by decide) r

end Procedure

end ArmBackend
