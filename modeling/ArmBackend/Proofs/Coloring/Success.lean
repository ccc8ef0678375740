import ArmBackend.Proofs.Coloring.Soundness
import ArmBackend.Proofs.LiveRanges

/-!
Contract: colouring succeeds where the values that are live at once fit the registers.

While a block is coloured, a register is occupied by a value that is live or has just been defined.
So an occupied register stands for one value of a set that is known to be small enough, and as long
as a value of that set is still to be placed, a register is free. The values live at the start of a
block were live at the end of its immediate dominator, where they owned their registers.

Owns: that every step of colouring finds the registers it needs.
Does not own: that the registers keep values apart.
-/

namespace ArmBackend

open List Procedure

namespace Coloring

variable {s s' : State} {b : BlockId} {v : VarId} {p : Procedure} {t : DomTree} {config : Config}
  {floor r : Reg} {vars : List VarId} {count : Nat}

/-! ## Free registers -/

/-- What is noted as the owner of a register from `floor` on is in it, and is one of the listed
values. -/
def State.Tight (floor : Reg) (vars : List VarId) (s : State) : Prop :=
  ∀ r v, floor ≤ r → s.file.owner? r = some v → s.proc.reg? v = some r ∧ v ∈ vars

namespace State.Tight

theorem mono {more : List VarId} (tight : s.Tight floor vars) (subset : ∀ v ∈ vars, v ∈ more) :
    s.Tight floor more := fun r v above isOwner =>
  (tight r v above isOwner).imp_right (subset v)

theorem erase (tight : s.Tight floor vars) (uncolored : s.proc.reg? v = none) :
    s.Tight floor (vars.erase v) := by
  intro r u above isOwner
  obtain ⟨isReg, mem⟩ := tight r u above isOwner
  refine ⟨isReg, (mem_erase_of_ne ?_).mpr mem⟩
  rintro rfl
  rw [uncolored] at isReg
  cases isReg

theorem places {entries : List (VarId × Reg)} (tight : s.Tight floor vars)
    (places : Places s entries s') (nodup : (entries.map Prod.fst).Nodup)
    (fresh : ∀ entry ∈ entries, s.proc.reg? entry.1 = none ∧ entry.1 < s.proc.nextVar)
    (listed : ∀ entry ∈ entries, floor ≤ entry.2 → entry.1 ∈ vars) : s'.Tight floor vars := by
  induction places with
  | nil => exact tight
  | @cons s s' v r file rest assigned _ ih =>
    rw [map_cons, nodup_cons] at nodup
    rw [forall_mem_cons] at fresh listed
    have isReg : ∀ u, (s.setReg v r file).proc.reg? u =
        if v = u ∧ u < s.proc.nextVar then some r else s.proc.reg? u := fun u => reg?_setReg ..
    refine ih (fun q u above isOwner => ?_) nodup.2 (fun entry mem => ?_) listed.2
    · rw [State.setReg, (RegisterFile.owner?_of_assign? assigned).2] at isOwner
      rw [isReg]
      split at isOwner
      · rename_i here
        obtain rfl := Option.some.inj isOwner
        exact ⟨by rw [if_pos ⟨rfl, fresh.1.2⟩, here], listed.1 (here ▸ above)⟩
      · obtain ⟨regU, mem⟩ := tight q u above isOwner
        refine ⟨?_, mem⟩
        rw [if_neg, regU]
        rintro ⟨rfl, -⟩
        rw [fresh.1.1] at regU
        cases regU
    · have other : v ≠ entry.1 := fun same => nodup.1 (mem_map.mpr ⟨entry, mem, same.symm⟩)
      rw [isReg, if_neg fun both => other both.1]
      exact ⟨(fresh.2 entry mem).1,
        (SameButRegs.setReg s.proc v (some r)).count.symm ▸ (fresh.2 entry mem).2⟩

end State.Tight

/-- If fewer values than registers from `floor` on are to be told apart, one of these registers is
free. -/
theorem exists_allocate (tight : s.Tight floor vars)
    (file : s.file.allocatable = RegSet.firstN count)
    (few : vars.length + floor.val < count) (most : count ≤ 16) (b : BlockId) (v : VarId) :
    ∃ s', s.allocate b floor v = .ok s' := by
  obtain ⟨r, above, free⟩ : ∃ r : Reg, floor ≤ r ∧ s.file.isFree r = true := by
    apply Classical.byContradiction
    intro none
    -- Otherwise each of these registers has an owner of its own.
    let owner (k : Nat) : VarId := ((Reg.ofIndex? k).bind s.file.owner?).getD 0
    have owns : ∀ k ∈ List.range' floor.val (count - floor.val),
        s.proc.reg? (owner k) = Reg.ofIndex? k ∧ owner k ∈ vars := by
      intro k mem
      rw [mem_range'_1] at mem
      have isReg : Reg.ofIndex? k = some ⟨k, by omega⟩ := dif_pos (by omega)
      have above : floor ≤ (⟨k, by omega⟩ : Reg) := mem.1
      have used : s.file.isFree ⟨k, by omega⟩ = false :=
        Bool.eq_false_iff.mpr fun free => none ⟨_, above, free⟩
      have inside : (RegSet.firstN count).contains ⟨k, by omega⟩ = true :=
        RegSet.contains_firstN.mpr (by
        change k < count
        omega)
      rw [RegisterFile.isFree, file, inside, Bool.true_and, Bool.not_eq_false', RegisterFile.isUsed,
        Option.isSome_iff_exists] at used
      obtain ⟨u, isOwner⟩ := used
      have isU : owner k = u := by
        change ((Reg.ofIndex? k).bind s.file.owner?).getD 0 = u
        rw [isReg, Option.bind_some, isOwner, Option.getD_some]
      rw [isU, isReg]
      exact tight _ u above isOwner
    have nodup : ((List.range' floor.val (count - floor.val)).map owner).Nodup := by
      refine List.Nodup.map_on (fun j isJ k isK same => ?_) nodup_range'
      have sameReg : Reg.ofIndex? j = Reg.ofIndex? k := by
        rw [← (owns j isJ).1, same, (owns k isK).1]
      rw [mem_range'_1] at isJ isK
      rw [Reg.ofIndex?, Reg.ofIndex?, dif_pos (by omega), dif_pos (by omega),
        Option.some.injEq] at sameReg
      exact congrArg Fin.val sameReg
    have subset : (List.range' floor.val (count - floor.val)).map owner ⊆ vars := by
      intro u mem
      obtain ⟨k, isK, rfl⟩ := mem_map.mp mem
      exact (owns k isK).2
    have fits := (subperm_of_subset nodup subset).length_le
    rw [length_map, length_range'] at fits
    omega
  have test : (decide (floor ≤ r) && s.file.isFree r) = true := by simp [above, free]
  obtain ⟨q, found⟩ := Option.isSome_iff_exists.mp
    (find?_isSome.mpr ⟨r, mem_finRange r, test⟩ : (Reg.all.find? fun r =>
      decide (floor ≤ r) && s.file.isFree r).isSome = true)
  have isFree := find?_some found
  rw [Bool.and_eq_true] at isFree
  obtain ⟨file', assigned⟩ := RegisterFile.exists_assign? (RegisterFile.of_isFree isFree.2).2 v
  refine ⟨s.setReg v q file', ?_⟩
  rw [State.allocate, RegisterFile.allocate?, found]
  simp only [Option.bind_eq_bind, Option.bind_some, assigned, Option.pure_def]

theorem exists_allocates {f : State → VarId → Except Error State}
    (isAllocate : ∀ s v, s.proc.reg? v = none → f s v = s.allocate b floor v) (most : count ≤ 16)
    (tight : s.Tight floor vars) (few : vars.length + floor.val ≤ count) {todo : List VarId}
    (nodup : todo.Nodup) (listed : ∀ v ∈ todo, v ∈ vars)
    (file : s.file.allocatable = RegSet.firstN count)
    (fresh : ∀ v ∈ todo, s.proc.reg? v = none ∧ v < s.proc.nextVar) :
    ∃ s', todo.foldlM f s = .ok s' := by
  induction todo generalizing s with
  | nil => exact ⟨s, rfl⟩
  | cons v rest ih =>
    rw [nodup_cons] at nodup
    rw [forall_mem_cons] at listed fresh
    have shorter := length_erase_of_mem listed.1
    have some := length_pos_of_mem listed.1
    obtain ⟨s₁, allocated⟩ := exists_allocate (tight.erase fresh.1.1) file (by omega) most b v
    obtain ⟨r, places, above, -⟩ := places_allocate allocated
    obtain ⟨s', ok⟩ :=
      ih (tight.places places (nodup_singleton v) (forall_mem_singleton.mpr fresh.1)
      (forall_mem_singleton.mpr fun _ => listed.1)) nodup.2 listed.2 (places.allocatable.trans file)
        fun u mem => by
        have other : u ∉ [v] := fun same => nodup.1 (mem_singleton.mp same ▸ mem)
        exact ⟨(places.recolors.kept u other).trans (fresh.2 u mem).1,
          places.recolors.count.symm ▸ (fresh.2 u mem).2⟩
    refine ⟨s', ?_⟩
    rw [foldlM_cons, isAllocate s v fresh.1.1, allocated]
    exact ok

private theorem exists_pinned (argCount : Nat) {index : Nat} {args : List VarId}
    (few : index + args.length ≤ 16) (s : State) :
    ∃ s', (args.zipIdx index).foldlM (State.pinArgument argCount) s = .ok s' := by
  induction args generalizing index s with
  | nil => exact ⟨s, rfl⟩
  | cons arg rest ih =>
    rw [length_cons] at few
    obtain ⟨s', ok⟩ := ih (by omega : index + 1 + rest.length ≤ 16)
      (s.setReg arg ⟨index, by omega⟩ ((s.file.assign? ⟨index, by omega⟩ arg).getD s.file))
    refine ⟨s', ?_⟩
    have isReg : Reg.ofIndex? index = some ⟨index, by omega⟩ := dif_pos (by omega)
    rw [zipIdx_cons, foldlM_cons, State.pinArgument, isReg]
    exact ok

/-- A copy succeeds if at most four of its values are arguments and the others fit the registers
above. -/
theorem exists_prepare {defs srcs : List VarId} {argCount : Nat} (most : count ≤ 16)
    (args : argCount ≤ 4)
    (few : (defs.drop argCount).length + 4 ≤ count) (balanced : defs.length = srcs.length)
    (nodup : defs.Nodup) (file : s.file.allocatable = RegSet.firstN count)
    (fresh : ∀ v ∈ defs, s.proc.reg? v = none ∧ v < s.proc.nextVar) (b : BlockId) :
    ∃ s', s.prepare b defs srcs argCount = .ok s' := by
  let cleared : State := { s with file := s.file.clear }
  have short : (defs.take argCount).length ≤ 4 := (length_take_le _ _).trans args
  obtain ⟨s₁, pinning⟩ := exists_pinned argCount
    (by omega : 0 + (defs.take argCount).length ≤ 16) cleared
  obtain ⟨pinned, first, vars, regs⟩ :=
    places_pinArguments (fun r _ => RegisterFile.owner?_clear s.file r) pinning
  obtain ⟨kept, moved, second, isPending, -, perm⟩ :=
    places_keepCarried ((defs.zip srcs).drop argCount) s₁ []
  generalize isCarried : ((defs.zip srcs).drop argCount).foldl State.keepCarried (s₁, []) =
    carried at second isPending
  rw [map_drop, map_fst_zip (Nat.le_of_eq balanced)] at perm
  have isDefs : ((pinned ++ kept).map Prod.fst ++ moved).Perm defs := by
    rw [map_append, vars, append_assoc]
    exact (perm.append_left _).trans (.of_eq (take_append_drop _ _))
  obtain ⟨nodup, isNodup, apart⟩ := nodup_append.mp (isDefs.nodup_iff.mpr nodup)
  have both := first.trans second
  have tight : State.Tight firstPreserved (defs.drop argCount) carried.1 := by
    refine State.Tight.places (s := cleared) (fun r v _ isOwner => ?_) both nodup
      (fun entry mem => ?_) ?_
    · rw [show cleared.file.owner? r = none from RegisterFile.owner?_clear s.file r] at isOwner
      cases isOwner
    · exact fresh _ (isDefs.mem_iff.mp (mem_append_left _ (mem_map_of_mem mem)))
    · refine forall_mem_append.mpr ⟨fun entry mem above => ?_, fun entry mem _ => ?_⟩
      · have isNumber : entry.2.val ∈ List.range' 0 (defs.take argCount).length :=
          regs ▸ mem_map_of_mem (f := fun entry : VarId × Reg => entry.2.val) mem
        rw [mem_range'_1] at isNumber
        have preserved : 4 ≤ entry.2.val := above
        omega
      · exact perm.mem_iff.mp (mem_append_left _ (mem_map_of_mem mem))
  obtain ⟨s', ok⟩ := exists_allocates (fun _ _ _ => rfl) most tight few isNodup
    (fun v mem => perm.mem_iff.mp (mem_append_right _ mem)) (both.allocatable.trans file) (b := b)
    fun v mem => by
      have isDef := isDefs.mem_iff.mp (mem_append_right _ mem)
      have unplaced : v ∉ (pinned ++ kept).map Prod.fst := fun early => apart v early v mem rfl
      exact ⟨(both.recolors.kept v unplaced).trans (fresh v isDef).1,
        both.recolors.count.symm ▸ (fresh v isDef).2⟩
  refine ⟨s', ?_⟩
  rw [State.prepare, pinning]
  dsimp only [Bind.bind, Except.bind]
  rw [isCarried, isPending]
  exact ok

end Coloring

/-! ## What colouring is given -/

/-- A procedure in single-assignment form whose values fit `count` registers. Every value that is
live somewhere is one of the first four arguments or defined by something else than a phi in memory.
The values live at the start of a block fit together with its phis in registers, and what is live
behind another instruction fits together with what that defines. A copy in front of a call has at
most four arguments, few enough values that are carried over the call, and defines all that is live
behind it. -/
structure Procedure.Colorable (p : Procedure) (count : Nat) : Prop where
  wf : p.WellFormed
  ordered : p.Ordered
  bounded : p.Bounded
  single : p.SingleAssignment
  dominate : p.DefsDominate
  args : p.args.Nodup
  reset : ∀ d ∈ p.insts.flatMap Inst.defs, d ∈ p.args ++ p.locals ∨ p.reg? d = none
  held : ∀ b < p.blocks.size, ∀ front back, (p.block b).insts = front ++ back →
    ∀ v, ((Liveness.ofProcedure p).ahead p b back).contains v = true →
      v ∈ p.args.take 4 ∨ ∃ i ∈ p.insts, Coloring.definesRegister i = true ∧ v ∈ i.defs
  starts : ∀ b < p.blocks.size, (((Liveness.ofProcedure p).inOf b).insertMany
    (((p.block b).phis.filter (!·.inMemory)).map Phi.dst)).size ≤ count
  others : ∀ b front i back, (p.block b).insts = front ++ i :: back → i.isPhi = false →
    (∀ defs srcs argCount, i ≠ .prepare defs srcs argCount) →
      (((Liveness.ofProcedure p).ahead p b back).insertMany i.defs).size ≤ count
  copies : ∀ b front defs srcs argCount back, (p.block b).insts = front ++
    .prepare defs srcs argCount :: back → argCount ≤ 4 ∧ (defs.drop argCount).length ≤ count - 4 ∧
      ∀ v, ((Liveness.ofProcedure p).ahead p b back).contains v = true → v ∈ defs

namespace Coloring

variable {s s' : State} {b : BlockId} {v : VarId} {p : Procedure} {t : DomTree} {config : Config}
  {r : Reg} {before : List VarId} {count : Nat} {front back : List Inst} {i : Inst}

theorem not_inMemory_of_live (colorable : p.Colorable count) (lt : b < p.blocks.size)
    (split : (p.block b).insts = front ++ back)
    (live : ((Liveness.ofProcedure p).ahead p b back).contains v = true) : ¬p.InMemory v := by
  rintro ⟨phi, isPhi, inMemory, rfl⟩
  have isDef : phi.dst ∈ (Inst.phi phi).defs := mem_singleton.mpr rfl
  rcases colorable.held b lt front back split _ live with isArg | ⟨i, mem, defines, isHere⟩
  · exact colorable.single.args _ (mem_flatMap.mpr ⟨_, isPhi, isDef⟩) (mem_of_mem_take isArg)
  · obtain rfl := colorable.single.eq_of_defs mem isPhi isHere isDef
    simp [definesRegister, inMemory] at defines

/-! ## Instructions -/

/-- Where colouring a block stands: what is live or has just been defined occupies registers, and
nothing else does; only what has been defined so far has registers. -/
structure State.Underway (p : Procedure) (before : List VarId) (count : Nat) (b : BlockId)
    (front back : List Inst) (s : State) : Prop where
  settled : s.Settled p.InMemory ((Liveness.ofProcedure p).ahead p b back)
  tight : s.Tight .r0 (((Liveness.ofProcedure p).ahead p b back).toList ++ s.recent)
  recent : ∀ v ∈ s.recent, v ∈ front.flatMap placed ∧ ∀ j ∈ front, v ∉ j.reads (p.exitReads b)
  file : s.file.allocatable = RegSet.firstN count
  nextVar : s.proc.nextVar = p.nextVar
  colored : ∀ v ∈ p.insts.flatMap Inst.defs, (s.proc.reg? v).isSome = true →
    v ∈ before ++ front.flatMap placed

theorem owner?_of_releases {dead : List VarId} {q : Procedure} {file : RegisterFile}
    (isOwner : (dead.foldl (releaseVar q) file).owner? r = some v) :
    file.owner? r = some v ∧ ∀ u ∈ dead, q.reg? u ≠ some r := by
  induction dead generalizing file with
  | nil => exact ⟨isOwner, forall_mem_nil _⟩
  | cons u rest ih =>
    obtain ⟨early, others⟩ := ih isOwner
    unfold releaseVar at early
    split at early
    · rename_i isReg
      rw [RegisterFile.owner?_release] at early
      split at early
      · cases early
      · rename_i other
        exact ⟨early, forall_mem_cons.mpr
          ⟨fun same => other (Option.some.inj (isReg.symm.trans same)), others⟩⟩
    · rename_i isReg
      exact ⟨early, forall_mem_cons.mpr ⟨fun same => by simp [isReg] at same, others⟩⟩

/-- Once an instruction has released registers, they are occupied by what is live behind it. -/
theorem tight_released (colorable : p.Colorable count)
    (split : (p.block b).insts = front ++ i :: back)
    (underway : s.Underway p before count b front (i :: back)) :
    (s.released (.ofProcedure p) b (p.exitReads b) (i, front.length)).Tight .r0
      (((Liveness.ofProcedure p).ahead p b back).toList ++
        (s.released (.ofProcedure p) b (p.exitReads b) (i, front.length)).recent) := by
  cases isPhi : i.isPhi with
  | true =>
    obtain ⟨phi, rfl⟩ := Inst.exists_phi_of_isPhi isPhi
    rw [released_phi]
    refine underway.tight.mono fun v mem => ?_
    rw [mem_append, IndexSet.mem_toList] at mem ⊢
    refine mem.imp_left fun live => ?_
    refine ((Liveness.contains_ahead_cons.mp live).resolve_left fun isRead => ?_).1
    simp [Inst.mem_reads, Inst.uses, Inst.operands, Inst.isTerminator] at isRead
  | false =>
    intro r v above isOwner
    rw [State.released, isPhi] at isOwner
    obtain ⟨isOwner, reading⟩ := owner?_of_releases isOwner
    obtain ⟨isOwner, defining⟩ := owner?_of_releases isOwner
    obtain ⟨isReg, mem⟩ := underway.tight r v above isOwner
    rw [State.proc_released]
    refine ⟨isReg, mem_append_left _ ((IndexSet.mem_toList _ v).mpr ?_)⟩
    have live : ((Liveness.ofProcedure p).ahead p b (i :: back)).contains v = true := by
      rcases mem_append.mp mem with live | isRecent
      · exact (IndexSet.mem_toList _ v).mp live
      · obtain ⟨isPlaced, unread⟩ := underway.recent v isRecent
        refine Liveness.ahead_of_not_isDeadDef colorable.single split (mem_defs_of_placed isPlaced)
          unread ?_
        exact Bool.eq_false_iff.mpr fun dead => defining v (mem_filter.mpr ⟨isRecent, dead⟩) isReg
    rcases Liveness.contains_ahead_cons.mp live with isRead | ⟨live, -⟩
    · refine Liveness.ahead_of_not_diesAt colorable.wf colorable.single colorable.dominate
        split isRead ?_
      exact Bool.eq_false_iff.mpr fun dies => reading v (mem_filter.mpr ⟨isRead, dies⟩) isReg
    · exact live

section Block

variable (colorable : p.Colorable count) (split : (p.block b).insts = front ++ i :: back)
  (apart : ∀ d ∈ (p.block b).insts.flatMap Inst.defs, d ∉ before)
  (underway : s.Underway p before count b front (i :: back))

include colorable split underway

/-- In front of a phi, registers are occupied by what is live at the start of the block and by other
phis. -/
theorem tight_phi {phi : Phi} (isPhi : i = .phi phi) :
    s.Tight .r0 (((Liveness.ofProcedure p).inOf b).insertMany
    (((p.block b).phis.filter (!·.inMemory)).map Phi.dst)).toList := by
  have lt := lt_size_of_mem_insts (split ▸ mem_append_right front (mem_cons_self (l := back)))
  obtain ⟨shape⟩ := colorable.wf.shape b lt
  subst isPhi
  intro r v above isOwner
  obtain ⟨isReg, mem⟩ := underway.tight r v above isOwner
  refine ⟨isReg, (IndexSet.mem_toList _ v).mpr ?_⟩
  rw [IndexSet.contains_insertMany, Bool.or_eq_true, List.contains_iff_mem]
  by_cases isDef : v ∈ front.flatMap Inst.defs
  · obtain ⟨j, inFront, isDef⟩ := mem_flatMap.mp isDef
    obtain ⟨first, inPhis, rfl⟩ := shape.exists_phi_of_mem split j inFront
    obtain rfl := mem_singleton.mp isDef
    refine .inr (mem_map_of_mem (mem_filter.mpr ⟨inPhis, ?_⟩))
    rw [Bool.not_eq_true', Bool.eq_false_iff]
    intro inMemory
    have inInsts := mem_insts.mpr ⟨b, shape.mem_phis.mpr inPhis⟩
    rw [underway.settled.none first.dst ⟨first, inInsts, inMemory, rfl⟩] at isReg
    cases isReg
  · refine .inl ?_
    rw [Liveness.inOf_eq_ahead colorable.wf colorable.ordered colorable.bounded, split]
    rcases mem_append.mp mem with live | isRecent
    · exact Liveness.ahead_append ((IndexSet.mem_toList _ v).mp live) isDef
    · exact absurd (mem_defs_of_placed (underway.recent v isRecent).1) isDef

include apart

theorem fresh_of_def {d : VarId} (isDef : d ∈ i.defs) :
    s.proc.reg? d = none ∧ d < s.proc.nextVar := by
  have inBlock : i ∈ (p.block b).insts := split ▸ by simp
  refine ⟨?_, underway.nextVar ▸ (colorable.bounded.below inBlock).defs d isDef⟩
  rw [← Option.not_isSome_iff_eq_none]
  intro colored
  rcases mem_append.mp (underway.colored d
    (mem_flatMap.mpr ⟨i, mem_insts.mpr ⟨b, inBlock⟩, isDef⟩) colored) with early | isPlaced
  · exact apart d (mem_flatMap.mpr ⟨i, inBlock, isDef⟩) early
  · exact Liveness.not_mem_of_split colorable.single split (mem_defs_of_placed isPlaced)
      (mem_flatMap.mpr ⟨i, mem_cons_self, isDef⟩)

private theorem exists_step (most : count ≤ 16) (least : 4 ≤ count) :
    ∃ s', State.step (.ofProcedure p) b (p.exitReads b) s (i, front.length) = .ok s' := by
  have inBlock : i ∈ (p.block b).insts := split ▸ by simp
  have file := (allocatable_released s (.ofProcedure p) b (p.exitReads b) (i, front.length)).trans
    underway.file
  have sameProc := s.proc_released (.ofProcedure p) b (p.exitReads b) (i, front.length)
  have fresh : ∀ d ∈ i.defs,
      (s.released (.ofProcedure p) b (p.exitReads b) (i, front.length)).proc.reg? d = none ∧
      d < (s.released (.ofProcedure p) b (p.exitReads b) (i, front.length)).proc.nextVar := by
    rw [sameProc]
    exact fun d => fresh_of_def colorable split apart underway
  have nodup := (nodup_flatMap.mp colorable.single.nodup).1 i (mem_insts.mpr ⟨b, inBlock⟩)
  by_cases isPrepare : ∃ defs srcs argCount, i = .prepare defs srcs argCount
  · obtain ⟨defs, srcs, argCount, rfl⟩ := isPrepare
    obtain ⟨args, few, -⟩ := colorable.copies b front defs srcs argCount back split
    obtain ⟨s', ok⟩ := exists_prepare most args (by omega)
      (colorable.bounded.below inBlock).balanced nodup file fresh b
    refine ⟨{ s' with recent := s'.recent ++ defs }, ?_⟩
    change ((s.released (.ofProcedure p) b (p.exitReads b)
      (.prepare defs srcs argCount, front.length)).prepare b defs srcs argCount >>= _) = _
    rw [ok]
    rfl
  · have other : ∀ defs srcs argCount, i ≠ .prepare defs srcs argCount :=
      fun defs srcs argCount same => isPrepare ⟨defs, srcs, argCount, same⟩
    obtain ⟨vars, few, listed, tight⟩ : ∃ vars : List VarId, vars.length ≤ count ∧
        (∀ d ∈ placed i, d ∈ vars) ∧
        (s.released (.ofProcedure p) b (p.exitReads b) (i, front.length)).Tight .r0 vars := by
      cases isPhi : i.isPhi with
      | true =>
        obtain ⟨phi, rfl⟩ := Inst.exists_phi_of_isPhi isPhi
        have lt := lt_size_of_mem_insts inBlock
        obtain ⟨shape⟩ := colorable.wf.shape b lt
        rw [released_phi]
        refine ⟨_, colorable.starts b lt, fun d isPlaced => ?_,
          tight_phi colorable split underway rfl⟩
        rw [placed_of_ne other] at isPlaced
        split at isPlaced
        · rename_i inRegister
          obtain rfl := mem_singleton.mp isPlaced
          rw [IndexSet.mem_toList, IndexSet.contains_insertMany, Bool.or_eq_true,
            List.contains_iff_mem]
          exact .inr (mem_map_of_mem (mem_filter.mpr ⟨shape.mem_phis.mp inBlock, inRegister⟩))
        · cases isPlaced
      | false =>
        refine ⟨_, colorable.others b front i back split isPhi other, fun d isPlaced => ?_,
          (tight_released colorable split underway).mono fun v mem => ?_⟩
        · rw [IndexSet.mem_toList, IndexSet.contains_insertMany, Bool.or_eq_true,
            List.contains_iff_mem]
          exact .inr (placed_subset isPlaced)
        · rw [State.released, isPhi] at mem
          rw [IndexSet.mem_toList, IndexSet.contains_insertMany, Bool.or_eq_true]
          refine .inl ((mem_append.mp mem).elim (IndexSet.mem_toList _ v).mp fun isRecent => ?_)
          cases isRecent
    rw [step_of_ne other]
    have isNodup : (placed i).Nodup := by
      rw [placed_of_ne other]
      split
      · exact nodup
      · exact nodup_nil
    obtain ⟨s', ok⟩ := exists_allocates (f := State.define b) (b := b)
      (fun s v uncolored => by rw [State.define, uncolored]; rfl) most tight few isNodup listed file
      fun d isPlaced => fresh d (placed_subset isPlaced)
    dsimp only
    rw [ok]
    exact ⟨_, rfl⟩

/-- Colouring an instruction keeps registers occupied by what is live or has just been defined. -/
theorem State.Underway.step
    (ok : State.step (.ofProcedure p) b (p.exitReads b) s (i, front.length) = .ok s') :
    s'.Underway p before count b (front ++ [i]) back := by
  have inBlock : i ∈ (p.block b).insts := split ▸ by simp
  have lt := lt_size_of_mem_insts inBlock
  have mem := mem_insts.mpr ⟨b, inBlock⟩
  have below := colorable.bounded.below inBlock
  have sameProc := s.proc_released (.ofProcedure p) b (p.exitReads b) (i, front.length)
  have file := (allocatable_released s (.ofProcedure p) b (p.exitReads b) (i, front.length)).trans
    underway.file
  have recolors := recolors_step ok
  have nodup := (nodup_flatMap.mp colorable.single.nodup).1 i mem
  have tight := tight_released colorable split underway
  obtain ⟨settled, -⟩ := underway.settled.step split underway.nextVar below.defs below.balanced
    (fun phi isPhi inMemory => ⟨phi, isPhi ▸ mem, inMemory, rfl⟩)
    (fun d isPlaced => not_inMemory_of_placed colorable.single mem isPlaced)
    (fun defs srcs argCount isPrepare =>
      (colorable.copies b front defs srcs argCount _ (isPrepare ▸ split)).2.2) ok
  have isFresh : ∀ {d}, d ∈ i.defs → s.proc.reg? d = none ∧ d < s.proc.nextVar :=
    fresh_of_def colorable split apart underway
  -- Both kinds of instructions place their definitions, a copy after all registers have been
  -- released.
  obtain ⟨start, s₁, entries, places, isProc, isRecent, isFile, startTight, isPlaced, rfl⟩ :
      ∃ start s₁ entries, Places start entries s₁ ∧ start.proc = s.proc ∧
      start.recent = (s.released (.ofProcedure p) b (p.exitReads b) (i, front.length)).recent ∧
      start.file.allocatable = RegSet.firstN count ∧
      start.Tight .r0 (((Liveness.ofProcedure p).ahead p b back).toList ++ start.recent) ∧
      (entries.map Prod.fst).Perm (placed i) ∧
      s' = { s₁ with recent := s₁.recent ++ placed i } := by
    rcases step_cases ok with
      ⟨defs, srcs, argCount, s₁, isPrepare, prepared, rfl⟩ | ⟨-, s₁, defined, rfl⟩
    · obtain rfl : i = .prepare defs srcs argCount := isPrepare
      obtain ⟨pinned, others, places, vars, -, -, perm⟩ := places_prepare prepared
      refine ⟨_, s₁, _, places, sameProc, rfl, file, fun r v _ isOwner => ?_, ?_, ?_⟩
      · rw [show _ = none from RegisterFile.owner?_clear _ r] at isOwner
        cases isOwner
      · rw [map_append, vars]
        exact perm.append_left _
      · rw [placed_eq_defs rfl below.balanced]
        rfl
    · obtain ⟨entries, places, vars, -⟩ := places_defines defined
      exact ⟨_, s₁, entries, places, sameProc, rfl, file, tight, .of_eq vars, rfl⟩
  have isNodup : (entries.map Prod.fst).Nodup := by
    rw [isPlaced.nodup_iff]
    cases defines : definesRegister i with
    | true => exact placed_eq_defs defines below.balanced ▸ nodup
    | false =>
      cases i with
      | phi phi => simp [placed, defines]
      | _ => cases defines
  have isEntry : ∀ entry ∈ entries, entry.1 ∈ placed i := fun entry mem =>
    isPlaced.mem_iff.mp (mem_map_of_mem mem)
  refine ⟨settled, ?_, fun v mem => ?_, places.allocatable.trans isFile,
    recolors.count.trans underway.nextVar, fun v isDef colored => ?_⟩
  · have all : s₁.Tight .r0
        ((((Liveness.ofProcedure p).ahead p b back).toList ++ start.recent) ++ placed i) := by
      refine (startTight.mono fun v => mem_append_left _).places places isNodup
        (fun entry mem => ?_) fun entry mem _ => mem_append_right _ (isEntry entry mem)
      rw [isProc]
      exact isFresh (placed_subset (isEntry entry mem))
    rw [← append_assoc, places.recent]
    exact all
  · rw [flatMap_append, flatMap_singleton, mem_append]
    rcases mem_append.mp mem with isEarlier | isHere
    · rw [places.recent, isRecent, State.released] at isEarlier
      cases isPhi : i.isPhi with
      | true =>
        rw [isPhi] at isEarlier
        obtain ⟨isPlaced, unread⟩ := underway.recent v isEarlier
        refine ⟨.inl isPlaced,
          forall_mem_append.mpr ⟨unread, forall_mem_singleton.mpr fun isRead => ?_⟩⟩
        cases i with
        | phi phi => simp [Inst.mem_reads, Inst.uses, Inst.operands, Inst.isTerminator] at isRead
        | _ => cases isPhi
      | false =>
        rw [isPhi] at isEarlier
        cases isEarlier
    · exact ⟨.inr isHere, Liveness.not_read_before colorable.wf
        colorable.single colorable.dominate split (placed_subset isHere)⟩
  · rw [flatMap_append, flatMap_singleton, ← append_assoc, mem_append]
    by_cases isHere : v ∈ placed i
    · exact .inr isHere
    · rw [recolors.kept v isHere] at colored
      exact .inl (underway.colored v isDef colored)

end Block

variable {done : List BlockId} {q : Procedure}

/-! ## Blocks -/

private theorem exists_run (colorable : p.Colorable count) (most : count ≤ 16) (least : 4 ≤ count)
    (apart : ∀ d ∈ (p.block b).insts.flatMap Inst.defs, d ∉ before) {todo : List Inst}
    (split : (p.block b).insts = front ++ todo)
    (underway : s.Underway p before count b front todo) :
    ∃ s', (todo.zipIdx front.length).foldlM (State.step (.ofProcedure p) b (p.exitReads b)) s =
      .ok s' ∧ s'.Underway p before count b (p.block b).insts [] := by
  induction todo generalizing front s with
  | nil =>
    rw [append_nil] at split
    exact ⟨s, rfl, split ▸ underway⟩
  | cons i rest ih =>
    obtain ⟨s₁, stepped⟩ := exists_step colorable split apart underway most least
    obtain ⟨s', ok, final⟩ := ih (by rw [split, append_cons])
      (State.Underway.step colorable split apart underway stepped)
    refine ⟨s', ?_, final⟩
    rw [length_append] at ok
    rw [zipIdx_cons, foldlM_cons, stepped]
    exact ok

private theorem exists_enterBlock {live : Liveness} (config : Config)
    (apart : q.Apart fun v => (live.inOf b).contains v = true) : ∃ file, enterBlock
      q live config b = .ok file ∧ State.Tight .r0 (live.inOf b).toList ⟨q, file, []⟩ := by
  have nodup := IndexSet.nodup_toList (live.inOf b)
  refine exists_foldlM (fun done file => State.Tight .r0 done ⟨q, file, []⟩)
    (fun done v rest file split tight => ?_)
    fun r v _ isOwner => by cases (RegTable.lookup_fill none r).symm.trans isOwner
  have isLive : ∀ u ∈ done ++ v :: rest, (live.inOf b).contains u = true :=
    fun u => split ▸ (IndexSet.mem_toList _ u).mp
  obtain ⟨r, isReg⟩ := Option.isSome_iff_exists.mp (apart.present v (isLive v (by simp)))
  -- The owner of the register would be another value that is live here.
  have unused : file.owner? r = none := by
    rw [Option.eq_none_iff_forall_ne_some]
    intro u isOwner
    obtain ⟨regU, mem⟩ := tight r u (Fin.zero_le r) isOwner
    have same := apart.distinct u v (isLive u (mem_append_left _ mem)) (isLive v (by simp))
      (regU.trans isReg.symm)
    rw [split, nodup_append] at nodup
    exact nodup.2.2 u mem v mem_cons_self same
  obtain ⟨file', assigned⟩ := RegisterFile.exists_assign? unused v
  refine ⟨file', by rw [isReg]; dsimp only; rw [assigned], fun q' u above isOwner => ?_⟩
  rw [(RegisterFile.owner?_of_assign? assigned).2] at isOwner
  split at isOwner
  · rename_i here
    obtain rfl := Option.some.inj isOwner
    exact ⟨here ▸ isReg, by simp⟩
  · exact (tight q' u above isOwner).imp_right (mem_append_left _)

/-- What is known once some blocks are coloured. -/
structure Blocks (p : Procedure) (done : List BlockId) (q : Procedure) : Prop where
  same : p.SameButRegs q
  colored : ∀ v ∈ p.insts.flatMap Inst.defs, (q.reg? v).isSome = true → v ∈ placedIn p done
  pinned : ∀ (k : Nat) a, p.args[k]? = some a → k < 4 → q.reg? a = Reg.ofIndex? k
  ends : ∀ c ∈ done, q.Apart fun v => ((Liveness.ofProcedure p).outOf c).contains v = true

private theorem Blocks.apart (blocks : Blocks p done q)
    (colorable : p.Colorable count) (dom : t.Exact p) (lt : b < p.blocks.size)
    (above : ∀ d, t.idom? b = some d → d ∈ done) :
    q.Apart fun v => ((Liveness.ofProcedure p).inOf b).contains v = true := by
  by_cases isEntry : b = entry
  · -- Nothing dominates the entry strictly, so its live values are arguments.
    have isArg : ∀ v, ((Liveness.ofProcedure p).inOf b).contains v = true →
        ∃ k, k < 4 ∧ p.args[k]? = some v ∧ q.reg? v = Reg.ofIndex? k := by
      intro v live
      have atStart := live
      rw [Liveness.inOf_eq_ahead colorable.wf colorable.ordered colorable.bounded] at atStart
      rcases colorable.held b lt [] _ rfl v atStart with isArg | ⟨i, mem, -, isDef⟩
      · obtain ⟨k, inside, isArg⟩ := mem_take_iff_getElem.mp isArg
        have isArg := List.getElem?_eq_some_iff.mpr ⟨by omega, isArg⟩
        exact ⟨k, by omega, isArg, blocks.pinned k v isArg (by omega)⟩
      · obtain ⟨c, inBlock⟩ := mem_insts.mp mem
        obtain ⟨dominates, other⟩ := Liveness.dominates_of_inOf colorable.wf colorable.ordered
          live colorable.dominate (mem_flatMap.mpr ⟨i, inBlock, isDef⟩)
        rw [isEntry] at dominates other
        exact absurd (mem_singleton.mp (dominates [entry] .start)) other
    refine ⟨fun v live => ?_, fun u v liveU liveV same => ?_⟩
    · obtain ⟨k, few, -, isReg⟩ := isArg v live
      rw [isReg, Reg.ofIndex?, dif_pos (by omega)]
      rfl
    · obtain ⟨j, fewJ, argU, regU⟩ := isArg u liveU
      obtain ⟨k, fewK, argV, regV⟩ := isArg v liveV
      rw [regU, regV, Reg.ofIndex?, Reg.ofIndex?, dif_pos (by omega), dif_pos (by omega),
        Option.some.injEq] at same
      obtain rfl : j = k := congrArg Fin.val same
      exact Option.some.inj (argU.symm.trans argV)
  · obtain ⟨d, isParent, -⟩ := dom.parent b lt isEntry
    exact (blocks.ends d (above d isParent)).mono fun v live => Liveness.outOf_parent colorable.wf
      colorable.ordered live colorable.bounded colorable.dominate dom isParent

private theorem Blocks.step {rest : List BlockId} (blocks : Blocks p done q)
    (colorable : p.Colorable config.registers) (valid : config.validate = .ok ()) (dom : t.Exact p)
    (split : t.preorder = done ++ b :: rest) :
    ∃ q', colorBlock (.ofProcedure p) config q b = .ok q' ∧ Blocks p (done ++ [b]) q' := by
  have perm := DomTree.preorder_perm colorable.wf.linked dom
  have lt := mem_blockIds.mp (perm.mem_iff.mp (split ▸ by simp : b ∈ t.preorder))
  have limits := of_validate valid
  have isBlock : q.block b = p.block b := blocks.same.sameBlocks.block b
  have exits : q.exitReads b = p.exitReads b := by
    rw [blocks.same.rest]
    rfl
  have nodup := nodup_defs colorable.single perm
  rw [split, flatMap_append, flatMap_cons] at nodup
  have apart : ∀ d ∈ (p.block b).insts.flatMap Inst.defs, d ∉ placedIn p done := by
    intro d isDef isPlaced
    obtain ⟨c, isDone, isPlaced⟩ := mem_flatMap.mp isPlaced
    exact (nodup_append.mp nodup).2.2 d (mem_flatMap.mpr ⟨c, isDone, mem_defs_of_placed isPlaced⟩) d
      (mem_append_left _ isDef) rfl
  obtain ⟨file, entered, tight⟩ :=
    exists_enterBlock config (blocks.apart colorable dom lt fun d isParent =>
    DomTree.parent_before colorable.wf.linked dom split isParent)
  have atStart := Liveness.inOf_eq_ahead (b := b) colorable.wf colorable.ordered colorable.bounded
  have start : State.Underway p (placedIn p done) config.registers b [] (p.block b).insts
      ⟨q, file, []⟩ := by
    refine ⟨⟨fun v live _ => owns_enterBlock entered (atStart ▸ live), forall_mem_nil _,
      fun v inMemory => ?_⟩, ?_,
      forall_mem_nil _, allocatable_enterBlock entered, blocks.same.count,
      fun v isDef colored => ?_⟩
    · rw [← Option.not_isSome_iff_eq_none]
      intro colored
      obtain ⟨phi, isPhi, isMemory, rfl⟩ := inMemory
      have isPlaced := blocks.colored _ (mem_flatMap.mpr ⟨_, isPhi, mem_singleton.mpr rfl⟩) colored
      obtain ⟨c, -, isPlaced⟩ := mem_flatMap.mp isPlaced
      obtain ⟨i, inInsts, isPlaced⟩ := mem_flatMap.mp isPlaced
      exact not_inMemory_of_placed colorable.single (mem_insts.mpr ⟨c, inInsts⟩) isPlaced
        ⟨phi, isPhi, isMemory, rfl⟩
    · rw [← atStart]
      exact tight.mono fun v => mem_append_left _
    · simpa using blocks.colored v isDef colored
  obtain ⟨s, ran, final⟩ :=
    exists_run colorable (by omega) (by omega) apart (nil_append _).symm start
  have ok : colorBlock (.ofProcedure p) config q b = .ok s.proc := by
    rw [colorBlock, entered, isBlock, exits]
    change (((p.block b).insts.zipIdx.foldlM _ _ : Except Error State) >>= _) = _
    rw [show (p.block b).insts.zipIdx.foldlM _ _ = Except.ok s from ran]
    rfl
  have recolors := recolors_colorBlock ok
  rw [isBlock] at recolors
  have toDef : ∀ {v}, v ∈ (p.block b).insts.flatMap placed → v ∈ p.insts.flatMap Inst.defs :=
    fun isPlaced => by
    obtain ⟨i, mem, isDef⟩ := mem_flatMap.mp (mem_defs_of_placed isPlaced)
    exact mem_flatMap.mpr ⟨i, mem_insts.mpr ⟨b, mem⟩, isDef⟩
  refine ⟨s.proc, ok, blocks.same.trans recolors.toSameButRegs, fun v isDef colored => ?_,
    fun k a isArg few => ?_,
    forall_mem_append.mpr ⟨fun c isDone => ?_, forall_mem_singleton.mpr ?_⟩⟩
  · rw [placedIn, flatMap_append, flatMap_singleton]
    exact final.colored v isDef colored
  · rw [recolors.kept a fun isPlaced => colorable.single.args a (toDef isPlaced)
      (mem_of_getElem? isArg)]
    exact blocks.pinned k a isArg few
  · have known := blocks.ends c isDone
    have same : ∀ v, ((Liveness.ofProcedure p).outOf c).contains v = true →
        s.proc.reg? v = q.reg? v :=
      fun v live => recolors.kept v fun isPlaced => apart v (mem_defs_of_placed isPlaced)
        (blocks.colored v (toDef isPlaced) (known.present v live))
    exact ⟨fun v live => (same v live).symm ▸ known.present v live, fun u v liveU liveV equal =>
      known.distinct u v liveU liveV (by rwa [same u liveU, same v liveV] at equal)⟩
  · refine apart_of_owns (s := s) (fun v live => final.settled.owns v live ?_) fun _ _ => rfl
    exact not_inMemory_of_live colorable lt (append_nil _).symm live

end Coloring

open Coloring

/-- Colouring succeeds on every procedure whose values fit the registers. -/
theorem Procedure.exists_color {p : Procedure} {t : DomTree} {config : Config}
    (valid : config.validate = .ok ())
    (colorable : p.Colorable config.registers) (tree : DomTree.ofProcedure p = .ok t) :
    ∃ q, p.color t (.ofProcedure p) config = .ok q := by
  have dom := DomTree.exact_ofProcedure colorable.wf.linked colorable.ordered tree
  have pinned := sameButRegs_pinArguments p config
  have isFour := (of_validate valid).1
  have start : Blocks p [] (pinArguments p config) := by
    refine ⟨pinned, fun v isDef colored => ?_, fun k a isArg few => ?_, forall_mem_nil _⟩
    · exact absurd (mem_args_of_pinned (colorable.reset v isDef) colored)
        (colorable.single.args v isDef)
    · exact reg?_pinArguments colorable.args colorable.bounded isArg (isFour ▸ few)
  obtain ⟨q, ok, -⟩ := exists_foldlM (Blocks p) (fun done b rest before split blocks =>
    blocks.step colorable valid dom split) start
  exact ⟨q, ok⟩

/-- Does the instruction leave enough registers, when these values are live behind it? -/
def Inst.suits (count : Nat) (live : IndexSet) : Inst → Bool
  | .phi _ => true
  | .prepare defs _ argCount => (defs.drop argCount).length ≤ count - 4
  | i => (live.insertMany i.defs).size ≤ count

/-- Whether values fit can be checked instruction by instruction. -/
theorem Procedure.ReadyToColor.colorable {p : Procedure} (ready : p.ReadyToColor) {count : Nat}
    (held : ∀ b < p.blocks.size, ∀ i ∈ (p.block b).insts, ∀ v ∈ i.reads (p.exitReads b),
      v ∈ p.args.take 4 ∨ ∃ i ∈ p.insts, definesRegister i = true ∧ v ∈ i.defs)
    (starts : ∀ b < p.blocks.size, (((Liveness.ofProcedure p).inOf b).insertMany
      (((p.block b).phis.filter (!·.inMemory)).map Phi.dst)).size ≤ count)
    (fits : ∀ b < p.blocks.size, ∀ entry ∈ (p.block b).insts.zipIdx, entry.1.suits count
      ((Liveness.ofProcedure p).ahead p b ((p.block b).insts.drop (entry.2 + 1))) = true) :
      p.Colorable count := by
  have fits : ∀ b front i back, (p.block b).insts = front ++ i :: back →
      i.suits count ((Liveness.ofProcedure p).ahead p b back) = true := by
    intro b front i back split
    have lt : b < p.blocks.size := lt_size_of_mem_insts (split ▸ by simp : i ∈ (p.block b).insts)
    have isFit := fits b lt (i, front.length) (by rw [mk_mem_zipIdx_iff_getElem?, split]; simp)
    rw [split, append_cons, drop_left' (by simp)] at isFit
    exact isFit
  have atEnd : ∀ b v, ((Liveness.ofProcedure p).outOf b).contains v = true →
      v ∈ p.args.take 4 ∨ ∃ i ∈ p.insts, definesRegister i = true ∧ v ∈ i.defs := fun b v live => by
    obtain ⟨c, i, mem, isRead⟩ := Liveness.exists_read ready.wf ready.ordered live
    exact held c (lt_size_of_mem_insts mem) i mem v isRead
  refine ⟨ready.wf, ready.ordered, ready.bounded, ready.single, ready.dominate, ready.args,
    ready.reset,
    fun b lt front back split v live => ?_, starts, fun b front i back split isPhi other => ?_,
    fun b front defs srcs argCount back split => ?_⟩
  · obtain ⟨-, ⟨passed, i, rest, rfl, -, isRead, -⟩ | ⟨-, -, live, -⟩⟩ := live_iff.mp live
    · exact held b lt i (by simp [split]) v isRead
    · exact atEnd b v live
  · have isFit := fits b front i back split
    cases i with
    | phi => cases isPhi
    | prepare => exact absurd rfl (other _ _ _)
    | _ => exact of_decide_eq_true isFit
  · exact ⟨ready.few defs srcs argCount (mem_insts.mpr ⟨b, split ▸ by simp⟩),
      of_decide_eq_true (fits b front _ back split),
      ready.clears b front defs srcs argCount back split⟩

/-- The procedure with a call fits eight registers, and is coloured with them. -/
theorem Procedure.exists_color_caller :
    Config.validate ⟨8, 4, false, none⟩ = .ok () ∧ caller.Colorable 8 ∧
    ∃ q, caller.color ⟨#[none]⟩ (.ofProcedure caller) ⟨8, 4, false, none⟩ = .ok q := by
  have ready : caller.ReadyToColor := .of_dominate wellFormed_caller ordered_caller dominate_caller
    (by decide) (by decide) (by decide) (by decide +kernel)
  have colorable : caller.Colorable 8 :=
    ready.colorable (by decide +kernel) (by decide +kernel) (by decide +kernel)
  exact ⟨by decide, colorable,
    exists_color (by decide : Config.validate ⟨8, 4, false, none⟩ = .ok ()) colorable tree_caller⟩

end ArmBackend
