import ArmBackend.Proofs.Passes

/-!
Contract: every variable that a procedure mentions is declared, all the way through the passes.

Owns: that spilling and the preparation of calls mention declared variables only, and that dominance
as found before them still holds behind them.
Does not own: what the variables hold.
-/

namespace ArmBackend

open List Procedure

namespace Procedure

variable {p q : Procedure} {b : BlockId}

private theorem Bounded.live (bounded : p.Bounded) (wf : p.WellFormed) (ordered : p.Ordered)
    {v : VarId} (live : ((Liveness.ofProcedure p).outOf b).contains v = true) : v < p.nextVar := by
  obtain ⟨c, i, mem, isRead⟩ := Liveness.exists_read wf ordered live
  exact bounded.reads mem isRead

/-! ## Webs -/

theorem Certified.bounded {assigned : Prop} (cert : p.Certified assigned) : p.Bounded := by
  obtain ⟨vs, versioned, -⟩ := cert.versioned
  refine bounded_of_below (fun a isArg => versioned.inside a (versioned.args a isArg).2.1)
    fun b lt i mem => ?_
  obtain ⟨shape⟩ := cert.wf.shape b lt
  have split := mem
  rw [Block.insts_eq, mem_append] at split
  rcases split with isPhi | inBody
  · obtain ⟨phi, inPhis, rfl⟩ := mem_map.mp isPhi
    refine ⟨fun d isDef => ?_, fun u isUse => absurd isUse not_mem_nil, ?_, trivial⟩
    · obtain rfl := mem_singleton.mp isDef
      obtain ⟨-, set⟩ := versioned.faithful b lt _ _ (versioned.phi b lt phi inPhis)
      exact versioned.inside _ set.1
    · rintro _ ⟨⟩ a isArg
      obtain ⟨slot, inArgs, isSlot⟩ := mem_iff_getElem.mp isArg
      have inPreds : slot < (p.block b).preds.length := by
        rw [← shape.arity phi (shape.phis_eq ▸ inPhis)]
        exact inArgs
      obtain ⟨-, isReadable⟩ := versioned.phiArg b lt phi inPhis slot _ a
        (getElem?_eq_getElem inPreds) (List.getElem?_eq_some_iff.mpr ⟨inArgs, isSlot⟩)
      exact versioned.inside a isReadable.1
  · obtain ⟨uses, defs⟩ := (versioned.follows b lt).inside i inBody
    refine ⟨fun d isDef => versioned.inside d (defs d isDef).1,
      fun u isUse => versioned.inside u (uses u isUse), ?_, ?_⟩
    · rintro phi rfl
      cases shape.isPhi_body _ inBody
    · cases i with
      | prepare defs srcs argCount => cases cert.ordinary b lt _ mem rfl
      | _ => trivial

end Procedure

/-! ## Spilling -/

namespace SpillPlan

open WorkingSet

variable {s s' : SpillPlan} {b : BlockId}
variable {p : Procedure} {v : VarId}

theorem lt_nextVar_of_web (hasWeb : (p.web? v).isSome = true) : v < p.nextVar := by
  apply Nat.lt_of_not_le
  intro above
  rw [web?, var, Tables.getD_of_size_le _ _ above] at hasWeb
  cases hasWeb

private theorem below_spill (hasWeb : (p.web? v).isSome = true) :
    (Inst.spill v).Below p.nextVar ∧ (Inst.reload v).Below p.nextVar := by
  have below := lt_nextVar_of_web hasWeb
  constructor <;> refine ⟨?_, ?_, nofun, trivial⟩
    <;> simp [Inst.defs, Inst.uses, Inst.operands, Operand.var?, below]

/-- All that the procedure mentions and all that is stored is declared. -/
theorem declared_run {t : DomTree} {config : Config} (bounded : p.Bounded)
    (ok : run p t config = .ok s) :
    s.proc.Bounded ∧ ∀ v, s.stored.contains v = true → v < s.proc.nextVar := by
  have changes := changes_run ok
  have count : s.proc.nextVar = p.nextVar := by rw [changes.rest]; rfl
  have args : s.proc.args = p.args := by rw [changes.rest]
  rw [count]
  refine ⟨bounded_of_below (fun a isArg => count ▸ bounded.args a (args ▸ isArg))
    fun b _ i mem => ?_, fun v isStored => ?_⟩
  · rw [count]
    rcases changes.insts b i mem with old | ⟨phi, mark, isPhi, rfl⟩ | ⟨v, hasWeb, rfl | rfl⟩
    · exact bounded.below old
    · have below := bounded.below isPhi
      refine ⟨below.defs, nofun, ?_, trivial⟩
      rintro _ ⟨⟩
      exact below.phiArgs phi rfl
    · exact (below_spill hasWeb).1
    · exact (below_spill hasWeb).2
  · rcases changes.stored v isStored with hasWeb | ⟨phi, isPhi, isArg⟩
    · exact lt_nextVar_of_web hasWeb
    · obtain ⟨b, isPhi⟩ := mem_insts.mp isPhi
      exact (bounded.below isPhi).phiArgs phi rfl v isArg

end SpillPlan

/-! ## Calls -/

namespace CallPreparation

variable {s s' : CallPreparation} {b : BlockId}

private theorem Prepared.declared {l : Liveness} {g p q : Procedure} {old new : List Inst}
    (prepared : Prepared l g b p old new q) (each : ∀ i ∈ old, i.Below p.nextVar)
    (live : ∀ back, back <:+ old → ∀ v, (l.ahead g b back).contains v = true → v < p.nextVar) :
    p.nextVar ≤ q.nextVar ∧ ∀ j ∈ new, j.Below q.nextVar := by
  induction prepared with
  | nil => exact ⟨Nat.le_refl _, forall_mem_nil _⟩
  | keep _ _ ih =>
    rw [forall_mem_cons] at each
    obtain ⟨grows, known⟩ := ih each.2 fun back suffix => live back (suffix.trans (suffix_cons _ _))
    exact ⟨grows, forall_mem_cons.mpr ⟨each.1.mono grows, known⟩⟩
  | @call dst callee args copies old new q r _ made ih =>
    rw [forall_mem_cons] at each
    obtain ⟨grows, known⟩ := ih each.2 fun back suffix => live back (suffix.trans (suffix_cons _ _))
    have grows' : q.nextVar ≤ r.nextVar := made.count ▸ Nat.le_add_right _ _
    have grown := Nat.le_trans grows grows'
    have isAcross : ∀ v ∈ across l g b (.call dst callee args) old, v < r.nextVar := by
      intro v mem
      rw [across, IndexSet.mem_toList, IndexSet.contains_inter, Bool.and_eq_true] at mem
      exact Nat.lt_of_lt_of_le (live old (suffix_cons _ _) v mem.2) grown
    have temporaries : ∀ v ∈ copies.map Prod.fst, v < r.nextVar := by
      intro v mem
      rw [made.temps, mem_range'_1] at mem
      exact made.count ▸ mem.2
    have sources : ∀ v ∈ copies.map Prod.snd, v < r.nextVar := by
      intro v mem
      refine Nat.lt_of_lt_of_le (each.1.uses v ?_) grown
      rw [made.args]
      simpa [Inst.uses, Inst.operands, filterMap_map, Operand.var?] using mem
    refine ⟨grown, forall_mem_cons.mpr ⟨⟨?_, ?_, fun _ same => Inst.noConfusion same, ?_⟩,
      forall_mem_cons.mpr ⟨⟨?_, ?_, fun _ same => Inst.noConfusion same, trivial⟩,
        fun j mem => (known j mem).mono grows'⟩⟩⟩
    · exact forall_mem_append.mpr ⟨temporaries, isAcross⟩
    · simp only [Inst.uses, Inst.operands, filterMap_nil, nil_append]
      exact forall_mem_append.mpr ⟨sources, isAcross⟩
    · simp [Inst.Balanced]
    · exact fun d isDef => Nat.lt_of_lt_of_le (each.1.defs d isDef) grown
    · intro u isUse
      refine temporaries u ?_
      simpa [Inst.uses, Inst.operands, Operand.var?] using isUse

/-- All that the procedure mentions and all that calls carry is declared. -/
structure Declared (s : CallPreparation) : Prop where
  shaped : s.proc.Shaped
  bounded : s.proc.Bounded
  carried : ∀ v, s.carried.contains v = true → v < s.proc.nextVar

private theorem Declared.prepareBlock {live : Liveness} (declared : s.Declared)
    (isLive : ∀ v, (live.outOf b).contains v = true → v < s.proc.nextVar)
    (ok : prepareBlock live b s = .ok ((), s')) :
    s'.Declared ∧ s.proc.nextVar ≤ s'.proc.nextVar := by
  have reshaped := (padded_prepareBlock ok).reshaped
  have continues := continues_prepareBlock ok
  obtain ⟨insts, q, prepared, isProc, carried⟩ := prepareBlock_eq ok
  obtain ⟨grows, inCode⟩ := prepared.declared (fun i => declared.bounded.below)
    fun back suffix v isAhead => by
    obtain ⟨-, ⟨passed, i, rest, rfl, -, isRead, -⟩ | ⟨-, -, atEnd, -⟩⟩ := live_iff.mp isAhead
    · have mem : i ∈ (s.proc.block b).insts := suffix.subset (by simp)
      exact declared.bounded.reads mem isRead
    · exact isLive v atEnd
  have count : s'.proc.nextVar = q.nextVar := by rw [isProc]; rfl
  rw [← count] at grows inCode
  refine ⟨⟨reshaped.shaped declared.shaped, bounded_of_below (fun a isArg => ?_)
    fun c lt i mem => ?_, fun v isCarried => ?_⟩, grows⟩
  · exact Nat.lt_of_lt_of_le (declared.bounded.args a (continues.args ▸ isArg)) grows
  · rw [isProc, block_setInsts] at mem
    split at mem
    · exact inCode i mem
    · rw [prepared.pads.2.block c] at mem
      exact (declared.bounded.below mem).mono grows
  · rcases carried v isCarried with early | isDef
    · exact Nat.lt_of_lt_of_le (declared.carried v early) grows
    · obtain ⟨i, mem, isDef⟩ := mem_flatMap.mp isDef
      exact (inCode i mem).defs v isDef

end CallPreparation

/-! ## Passes -/

namespace Work

variable {p : Procedure} {config : Config} {w w' : Work}

theorem bounded_spilling (after : w.After p .webs) (ok : w.run config .spilling = .ok w') :
    w'.proc.Bounded ∧ w'.Dominated := by
  obtain ⟨cert, -, dominated, -⟩ := after
  obtain ⟨spilled, ran, rfl⟩ := bind_pure_eq_ok ok
  have reshaped := reshaped_spill cert.wf cert.noPhis ran
  refine ⟨?_, dominated.of_sameGraph reshaped.graph rfl rfl⟩
  obtain ⟨s, planned, rfl⟩ := bind_pure_eq_ok ran
  obtain ⟨bounded, below⟩ := SpillPlan.declared_run cert.bounded planned
  exact (retouches_repairAll _ _ _ _ _).bounded bounded
    fun v mem => below v ((IndexSet.mem_toList _ v).mp mem)

theorem bounded_callSites (after : w.After p .spilling) (dominated : w.Dominated)
    (bounded : w.proc.Bounded) (ok : w.run config .callSites = .ok w') :
    w'.proc.Bounded ∧ w'.Dominated := by
  obtain ⟨wf, ordered⟩ := after
  obtain ⟨prepared, ran, rfl⟩ := bind_pure_eq_ok ok
  refine ⟨?_, dominated.of_sameGraph (reshaped_prepareCalls ran).graph rfl rfl⟩
  obtain ⟨⟨_, s⟩, blocks, rfl⟩ := bind_pure_eq_ok ran
  have start : CallPreparation.Declared ⟨w.proc.nextVar, w.proc, .empty, 0⟩ :=
    ⟨wf.shape, bounded, fun v never => by rw [IndexSet.contains_empty] at never; cases never⟩
  obtain ⟨declared, -⟩ : s.Declared ∧ w.proc.nextVar ≤ s.proc.nextVar := by
    refine CallPreparation.prepareBlocks_induction (motive := fun s => s.Declared ∧ w.proc.nextVar ≤
      s.proc.nextVar) (fun b _ _ ⟨declared, grows⟩ stepped => ?_) ⟨start, Nat.le_refl _⟩ blocks
    obtain ⟨declared', grows'⟩ := declared.prepareBlock
      (fun v live => Nat.lt_of_lt_of_le (bounded.live wf ordered live) grows) stepped
    exact ⟨declared', Nat.le_trans grows grows'⟩
  exact (retouches_repairAll _ _ _ _ _).bounded declared.bounded fun v mem =>
    declared.carried v ((IndexSet.mem_toList _ v).mp mem)

end Work

end ArmBackend
