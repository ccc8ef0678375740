import ArmBackend.Proofs.Emission.Success

/-!
Contract: jumps do the work of phis.

Owns: that the code of a jump, run from any registers, gives every register phi of the next block
the word of its argument and disturbs nothing that is live there.
Does not own: where the destinations of phis get registers of their own.
-/

namespace ArmBackend

open List Assembly Emit Procedure

namespace EmissionContext

variable {c : EmissionContext} {b s : BlockId} {e : Emitter}
variable {moves : List (Reg × Reg)} {r : Reg} {sequence : Copy.Sequence} {v : VarId}

/-- Saved are registers of variables, the link register and the scratch register. -/
theorem saved_cases {p : Procedure} {f : Frame} (ok : Frame.ofProcedure p = .ok f)
    (saved : f.saved.contains r = true) :
    (∃ v, p.reg? v = some r) ∨ r = .lr ∨ r = Convention.scratch := by
  have own (saved : (Frame.savedRegisters p).contains r = true) :
      (∃ v, p.reg? v = some r) ∨ r = .lr := by
    obtain ⟨⟨v, -, isReg⟩, -⟩ | ⟨isLink, -⟩ := Frame.contains_savedRegisters.mp saved
    · exact .inl ⟨v, isReg⟩
    · exact .inr isLink
  obtain ⟨webs, parts⟩ := Frame.parts_of_ofProcedure ok
  rcases parts.saved with ⟨same, -⟩ | added
  · exact (own (same ▸ saved)).imp_right .inl
  · rw [added, RegSet.contains_insert, Bool.or_eq_true, decide_eq_true_iff] at saved
    rcases saved with saved | rfl
    · exact (own saved).imp_right .inl
    · exact .inr (.inr rfl)

/-- Copies overwrite nothing but registers for values. -/
theorem lt_of_clobberable (laidOut : Frame.ofProcedure c.proc = .ok c.frame)
    (low : ∀ v r, c.proc.reg? v = some r → r.val < mostRegisters)
    (free : c.clobberable.contains r = true) : r.val < mostRegisters := by
  rw [clobberable, RegSet.contains_erase, RegSet.contains_union, Bool.and_eq_true,
    Bool.or_eq_true] at free
  obtain ⟨isArg | saved, notLink⟩ := free
  · revert r
    decide
  · rcases saved_cases laidOut saved with ⟨v, isReg⟩ | rfl | rfl
    · exact low v r isReg
    · cases notLink
    · decide

private theorem gives_copy (isOk : Copy.sequentialize moves c.clobberable = .ok sequence) :
    ∃ e', Gives (c.copy moves) e sequence.instrs e' := by
  unfold copy
  rw [isOk]
  by_cases moved : 0 < sequence.moves <;> simp [moved, -bind_pure_comp]

private theorem gives_jump (e : Emitter) (target : LabelId)
    (isDirect : (c.proc.block b).direct = some s) 
    (isMoves : c.moves (c.edgePairs b s) = .ok moves)
    (isOk : Copy.sequentialize moves c.clobberable = .ok sequence) :
    ∃ e', Gives (c.select b (.jump target)) e (sequence.instrs ++ [.jump (c.blockLabel s)]) e' := by
  obtain ⟨e', copied⟩ := gives_copy (e := e) isOk
  refine ⟨e', ?_⟩
  unfold select jump
  dsimp only
  rw [isDirect]
  dsimp only
  rw [isMoves]
  simp [successorLabel, copied, -bind_pure_comp]

/-- Whatever is live at the end of a block takes part in the copy on its edge. -/
theorem exists_edgePair (analysed : c.Analysed)
    (live : ((Liveness.ofProcedure c.proc).outOf b).contains v = true) :
    ∃ pair ∈ c.edgePairs b s, pair.1 = v := by
  by_cases isPhi : v ∈ (c.edgePhis b s).map (·.1)
  · obtain ⟨pair, mem, isArg⟩ := mem_map.mp isPhi
    exact ⟨pair, mem_append_left _ mem, isArg⟩
  · refine ⟨(v, v), mem_append_right _ (mem_map.mpr ⟨v, mem_filter.mpr ⟨?_, ?_⟩, rfl⟩), rfl⟩
    · rwa [IndexSet.mem_toList, analysed.live]
    · rw [Bool.not_eq_true', ← Bool.not_eq_true, List.contains_iff_mem]
      exact isPhi

private theorem lt_registers (low : ∀ v r, c.proc.reg? v = some r → r.val < mostRegisters)
    (pair : VarId × VarId) :
    (c.registers pair).1.val < mostRegisters ∧ (c.registers pair).2.val < mostRegisters := by
  have each : ∀ v, ((c.proc.reg? v).getD .r0).val < mostRegisters := by
    intro v
    cases isReg : c.proc.reg? v with
    | none => decide
    | some r => exact low v r isReg
  exact ⟨each pair.1, each pair.2⟩

/-- Jumps of a coloured procedure are emitted. Their code leaves every register phi of the next
block with the word that its argument had, whatever the registers held, and every value that is live
there, the link register, the stack pointer and the stack as they were. -/
theorem run_edge {config : Config} {target : LabelId} (analysed : c.Analysed)
    (laidOut : Frame.ofProcedure c.proc = .ok c.frame)
    (low : ∀ v r, c.proc.reg? v = some r → r.val < mostRegisters)
    (colored : Check.coloring c.proc config = .ok ())
    (phis : PhisApart c.proc s)
    (jumps : (c.proc.block b).insts.getLast? = some (.jump target))
    (isDirect : (c.proc.block b).direct = some s) (e : Emitter) :
    ∃ code e', Gives (c.select b (.jump target)) e (code ++ [.jump (c.blockLabel s)]) e' ∧
      ∀ before, ∃ after, runAll code before = some after ∧
        (∀ phi ∈ (c.proc.block s).phis, phi.inMemory = false →
          ∀ (slot : Nat) arg, (c.proc.block s).preds[slot]? = some b →
          phi.args[slot]? = some (some arg) → ∃ dst src, c.proc.reg? phi.dst = some dst ∧
            c.proc.reg? arg = some src ∧ after.regs dst = before.regs src) ∧
        (∀ v, ((Liveness.ofProcedure c.proc).inOf s).contains v = true →
          ∃ r, c.proc.reg? v = some r ∧ after.regs r = before.regs r) ∧
        after.regs .lr = before.regs .lr ∧ after.regs .sp = before.regs .sp ∧
        after.stack = before.stack := by
  have edge : s ∈ (c.proc.block b).succs := by simp [Block.succs, isDirect]
  have lt := lt_size_of_mem_succs edge
  obtain ⟨shape⟩ := analysed.wf.shape b lt
  have only : (c.proc.block b).succs = [s] := by
    rw [shape.insts, ← append_assoc, getLast?_concat] at jumps
    obtain ⟨d, -, isCond, -⟩ := Option.some.inj jumps ▸ shape.exits
    simp [Block.succs, isDirect, isCond]
  have toOut : ∀ {v}, _ ↔ _ := fun {v} =>
    Liveness.contains_outOf (v := v) (b := b) analysed.wf analysed.ordered analysed.bounded
  have isOut : ∀ v, ((Liveness.ofProcedure c.proc).inOf s).contains v = true →
      ((Liveness.ofProcedure c.proc).outOf b).contains v = true :=
      fun v live => toOut.mpr (.inr ⟨s, edge, live⟩)
  have apart := (Check.apart_of_coloring colored lt).1
  have kept := apart.mono isOut
  obtain ⟨isMoves, agree⟩ := edgeMoves_eq_ok analysed only
    (fun v isRead => apart.present v (toOut.mpr (.inl isRead))) kept phis
  obtain ⟨sequence, spare, isOk, isSpare, runs⟩ :=
    Copy.exists_sequence (forall_mem_map.mpr fun pair _ =>
    lt_registers low pair) (fun r => lt_of_clobberable laidOut low) agree
  obtain ⟨e', gives⟩ := gives_jump e target isDirect isMoves isOk
  refine ⟨sequence.instrs, e', gives, fun before => ?_⟩
  obtain ⟨after, ran, copied, unmoved, rest⟩ := runs before
  rw [forall_mem_map] at copied
  refine ⟨after, ran, fun phi inPhis inRegister slot arg isPred isArg => ?_, fun v live => ?_, rest⟩
  · have found := predIndex?_eq (count_preds analysed.wf only) isPred
    have isPair : (arg, phi.dst) ∈ c.edgePairs b s := mem_append_left _
      (mem_edgePhis.mpr ⟨slot, found, phi, inPhis, inRegister, isArg, rfl⟩)
    obtain ⟨dst, isDst⟩ := Option.isSome_iff_exists.mp (phis.present phi inPhis inRegister)
    obtain ⟨src, isSrc⟩ := Option.isSome_iff_exists.mp (apart.present arg (toOut.mpr (.inl
      (mem_exitReads.mpr ⟨s, edge, phi, inPhis, inRegister, slot, isPred, isArg⟩))))
    have word := copied _ isPair
    simp only [registers, isDst, isSrc, Option.getD_some] at word
    exact ⟨dst, src, isDst, isSrc, word⟩
  · obtain ⟨r, isReg⟩ := Option.isSome_iff_exists.mp (kept.present v live)
    refine ⟨r, isReg, ?_⟩
    -- The register is written only by the move that keeps it, and it is not spare, as its value
    -- takes part.
    by_cases written : ∃ pair ∈ c.edgePairs b s, (c.registers pair).2 = r
    · obtain ⟨pair, isPair, isTarget⟩ := written
      have word := copied pair isPair
      rcases mem_edgePairs analysed only isPair with ⟨-, isPhi⟩ | ⟨stays, -⟩
      · obtain ⟨-, -, phi, inPhis, inRegister, -, isDst⟩ := mem_edgePhis.mp isPhi
        obtain ⟨dst, isReg'⟩ := Option.isSome_iff_exists.mp (phis.present phi inPhis inRegister)
        simp only [registers, ← isDst, isReg', Option.getD_some] at isTarget
        exact absurd (isReg.trans (isTarget ▸ isReg'.symm)) (phis.live phi inPhis inRegister v live)
      · have sameReg : (c.registers pair).1 = (c.registers pair).2 := by rw [registers, stays]
        rwa [sameReg, isTarget] at word
    · refine unmoved r
        (forall_mem_map.mpr fun pair isPair isTarget => written ⟨pair, isPair, isTarget⟩) ?_
      intro isFree
      obtain ⟨pair, isPair, rfl⟩ := exists_edgePair (s := s) analysed (isOut v live)
      refine ((isSpare r isFree).2 _ (mem_map_of_mem isPair)).1 ?_
      simp only [registers, isReg, Option.getD_some]

/-- Exchanges its arguments on the way to its second block. -/
def exchange : Procedure :=
  { ofName "f" .int with
    args := [0, 1]
    locals := [0, 1, 2, 3, 4]
    vars := ([0, 1, 1, 0, 0].map fun r => Variable.mk "x" .int (Reg.ofIndex? r) none).toArray
    blocks := #[ { Block.ofInsts 0 [.jump 1] with direct := some 1, postIndex := 1 },
      { Block.ofInsts 1 [.phi ⟨2, 0, [some 0], false⟩, .phi ⟨3, 1, [some 1], false⟩,
          .binary 4 .sub (.var 3) (.var 2), .ret (some (.var 4))] with
        preds := [0], postIndex := 0 }]
    preorder := [0, 1]
    postorder := [1, 0]
    rpo := [0, 1] }

theorem wellFormed_exchange : exchange.WellFormed :=
  .of_check (by decide) (by decide) (by decide) (by decide)

private theorem ordered_exchange : exchange.Ordered :=
  (ordered_recomputeOrders (show exchange.recomputeOrders = .ok exchange by rfl) (by decide)
    fun b c edge => (wellFormed_exchange.inside b c edge).1).2

private theorem bounded_exchange : exchange.Bounded :=
  wellFormed_exchange.bounded (by decide) (by decide) (by decide)

private theorem low_exchange (isReg : exchange.reg? v = some r) : r.val < mostRegisters := by
  have known : ∀ v < 5, ∀ r, exchange.reg? v = some r → r.val < mostRegisters := by decide
  by_cases small : v < 5
  · exact known v small r isReg
  · have unknown : exchange.var v = default := by simp [exchange, var, small]
    rw [reg?, unknown] at isReg
    cases isReg

private theorem phisApart_exchange : PhisApart exchange 1 where
  present := by decide
  distinct := by decide
  live := by
    have none : (Liveness.ofProcedure exchange).inOf 1 = .empty := by decide +kernel
    intro _ _ _ v live
    rw [none, IndexSet.contains_empty] at live
    cases live

/-- Whatever the emitter has produced, the code of the jump exchanges `r0` and `r1`. -/
theorem run_edge_exchange : ∃ code e', Gives (select ⟨default, exchange, .ofProcedure exchange,
    ⟨.empty, 0, 0, 0, []⟩, 0⟩ 0 (.jump 1)) (.start default) (code ++ [.jump ".L1"]) e' ∧
      ∀ before, ∃ after, runAll code before = some after ∧
        after.regs 1 = before.regs 0 ∧ after.regs 0 = before.regs 1 := by
  have colored : Check.coloring exchange .standard = .ok () := by decide +kernel
  have jumps : (exchange.block 0).insts.getLast? = some (.jump 1) := rfl
  obtain ⟨code, e', gives, runs⟩ := run_edge (b := 0) (s := 1)
    (c := ⟨default, exchange, .ofProcedure exchange, ⟨.empty, 0, 0, 0, []⟩, 0⟩)
    ⟨wellFormed_exchange, ordered_exchange, bounded_exchange, rfl⟩
    (by rfl) (fun _ _ => low_exchange) colored phisApart_exchange jumps rfl _
  refine ⟨code, e', gives, fun before => ?_⟩
  obtain ⟨after, ran, phis, -⟩ := runs before
  obtain ⟨_, _, ⟨⟩, ⟨⟩, first⟩ := phis ⟨2, 0, [some 0], false⟩ (by decide) rfl 0 0 rfl rfl
  obtain ⟨_, _, ⟨⟩, ⟨⟩, second⟩ := phis ⟨3, 1, [some 1], false⟩ (by decide) rfl 0 1 rfl rfl
  exact ⟨after, ran, first, second⟩

end EmissionContext

end ArmBackend
