import ArmBackend.Proofs.Ssa.Repair
import ArmBackend.Spill.Plan
import Mathlib.Data.List.Perm.Subperm

/-!
Contract: what each step of spilling does to a procedure.

Phis are marked, reloads go in front of instructions and of terminators, and spills go behind
definitions. Variables with a slot have a web; the table of webs is all else that changes.

Owns: an account of every step in terms of the procedure before and after it, and that the flow
graph stays in form.
Does not own: what the spill code is for.
-/

namespace ArmBackend

open List Procedure WorkingSet

variable {i : Inst} {dsts : List VarId} {index : Nat} {t : DomTree} {config : Config}

/-- A phi without the mark of where it lives. -/
def Phi.unplaced (phi : Phi) : Phi := { phi with inMemory := false }

/-- Two lists of phis that differ in where these live only. -/
def SamePhis (phis phis' : List Phi) : Prop := phis'.map Phi.unplaced = phis.map Phi.unplaced

theorem SamePhis.refl (phis : List Phi) : SamePhis phis phis := rfl

/-- Each phi stands for one that differs in the mark only. -/
theorem SamePhis.exists_mem {phis phis' : List Phi} (same : SamePhis phis phis') {phi' : Phi}
    (mem : phi' ∈ phis') : ∃ phi ∈ phis, phi' = { phi with inMemory := phi'.inMemory } := by
  have image : phi'.unplaced ∈ phis.map Phi.unplaced := same ▸ mem_map_of_mem mem
  obtain ⟨phi, inPhis, isImage⟩ := mem_map.mp image
  obtain ⟨dst, source, args, -⟩ := Phi.mk.inj isImage
  exact ⟨phi, inPhis, by rw [dst, source, args]⟩

/-! ## Working sets -/

namespace WorkingSet

variable {setting : Setting} {final : Bool} {insts : List Inst} {held held' : IndexSet}
  {steps : List Step} {after : Distances} {exitReads : List VarId} {room : Nat} {v : VarId}

theorem simulate_cons {rest : List Inst}
    (ok : simulate setting final (i :: rest) held = .ok (held', steps)) :
    ∃ missing middle more, simulate setting final rest middle = .ok (held', more) ∧
      steps = ⟨missing, i⟩ :: more := by
  rw [simulate] at ok
  dsimp only at ok
  split at ok
  · cases ok
  · obtain ⟨⟨last, more⟩, simulated, same⟩ : ∃ result, simulate setting final rest _ = .ok result ∧
        Except.ok (result.1, Step.mk _ i :: result.2) = (.ok (held', steps) : Except Error _) := by
      split at ok
      · obtain ⟨_, -, ok⟩ := bind_eq_ok ok
        exact bind_eq_ok ok
      · exact bind_eq_ok ok
    obtain ⟨rfl, rfl⟩ := Prod.mk.inj (Except.ok.inj same)
    exact ⟨_, _, more, simulated, rfl⟩

private theorem insts_simulate (ok : simulate setting final insts held = .ok (held', steps)) :
    steps.map Step.inst = insts := by
  induction insts generalizing held steps with
  | nil =>
    obtain ⟨-, rfl⟩ := Prod.mk.inj (Except.ok.inj ok)
    rfl
  | cons i rest ih =>
    obtain ⟨missing, middle, more, simulated, rfl⟩ := simulate_cons ok
    exact congrArg (i :: ·) (ih simulated)

end WorkingSet

namespace SpillPlan

variable {p q r : Procedure} {s s' : SpillPlan} {b : BlockId} {v : VarId}
variable {vars : List VarId}

/-! ## Slots -/

/-- The second procedure differs from the first in the table of webs only. -/
def SameButWebs (p q : Procedure) : Prop := q = { p with webs := q.webs }

theorem SameButWebs.refl (p : Procedure) : SameButWebs p p := rfl

theorem SameButWebs.trans (first : SameButWebs p q) (second : SameButWebs q r) :
    SameButWebs p r := by
  unfold SameButWebs at *
  rw [second, first]

theorem SameButWebs.sameBlocks (same : SameButWebs p q) : p.SameBlocks q := by
  rw [same]
  exact ⟨rfl, rfl, rfl, rfl⟩

theorem needSlot_eq (ok : needSlot p v = .ok q) : SameButWebs p q ∧ (q.web? v).isSome = true := by
  obtain ⟨w, isWeb, rfl⟩ := bind_pure_eq_ok ok
  refine ⟨rfl, ?_⟩
  unfold requireWeb at isWeb
  split at isWeb
  · rename_i web found
    exact Option.isSome_iff_exists.mpr ⟨web, found⟩
  · cases isWeb

theorem needSlots_eq (ok : vars.foldlM needSlot p = .ok q) :
    SameButWebs p q ∧ ∀ v ∈ vars, (q.web? v).isSome = true := by
  refine foldlM_induction (fun done r => SameButWebs p r ∧ ∀ v ∈ done, (r.web? v).isSome = true)
    (fun done v _ before after _ known slot => ?_) ⟨.refl p, by simp⟩ ok
  obtain ⟨same, hasWeb⟩ := needSlot_eq slot
  refine ⟨known.1.trans same,
    forall_mem_append.mpr ⟨fun u mem => ?_, forall_mem_singleton.mpr hasWeb⟩⟩
  rw [same]
  exact known.2 u mem

theorem recordReloads_eq (ok : s.recordReloads vars = .ok s') :
    SameButWebs s.proc s'.proc ∧ s'.stored = s.stored.insertMany vars ∧
      ∀ v ∈ vars, (s'.proc.web? v).isSome = true := by
  obtain ⟨r, slots, rfl⟩ := bind_pure_eq_ok ok
  exact ⟨(needSlots_eq slots).1, rfl, (needSlots_eq slots).2⟩

/-! ## Blocks -/

/-- The phis so far are marked. Those in registers fit there, with their arguments held; the
arguments of the others are to be stored. -/
structure Places (s : SpillPlan) (preds : List BlockId) (done : List Phi)
    (s' : SpillPlan) (phis : List Phi) : Prop where
  rest : s' = { s with proc := s'.proc, stored := s'.stored }
  webs : SameButWebs s.proc s'.proc
  same : SamePhis done phis
  stored : ∀ v, s'.stored.contains v = true → s.stored.contains v = true ∨
    ∃ phi ∈ done, some v ∈ phi.args
  held : ∀ phi ∈ phis, phi.inMemory = false → s.argsHeld preds phi = true
  few : (phis.filter (!·.inMemory)).length ≤ s.config.registers

private theorem Places.step {preds : List BlockId} {done phis phis' : List Phi} {phi : Phi}
    {s'' : SpillPlan}
    (places : Places s preds done s' phis)
    (stepped : placePhi preds (s', phis) phi = .ok (s'', phis')) :
    Places s preds (done ++ [phi]) s'' phis' := by
  have samePhis : ∀ mark, SamePhis (done ++ [phi]) (phis ++ [{ phi with inMemory := mark }]) := by
    intro mark
    unfold SamePhis
    rw [map_append, map_append, places.same]
    rfl
  have earlier : ∀ v, s'.stored.contains v = true →
      s.stored.contains v = true ∨ ∃ node ∈ done ++ [phi], some v ∈ node.args := fun v isStored =>
    (places.stored v isStored).imp_right fun ⟨node, mem, isArg⟩ =>
      ⟨node, mem_append_left _ mem, isArg⟩
  have config : s'.config = s.config := by rw [places.rest]
  have sameHeld : s'.argsHeld preds phi = s.argsHeld preds phi := by rw [places.rest]; rfl
  unfold placePhi at stepped
  dsimp only at stepped
  split at stepped
  · rename_i inMemory
    obtain ⟨r, slot, same⟩ := bind_pure_eq_ok stepped
    obtain ⟨rfl, rfl⟩ := Prod.mk.inj same
    refine ⟨by rw [places.rest], places.webs.trans (needSlot_eq slot).1, samePhis _,
      fun v isStored => ?_,
      forall_mem_append.mpr ⟨places.held, forall_mem_singleton.mpr fun inRegister => ?_⟩, ?_⟩
    · rw [IndexSet.contains_insertMany, Bool.or_eq_true, List.contains_iff_mem] at isStored
      rcases isStored with old | new
      · exact earlier v old
      · obtain ⟨_, isArg, rfl⟩ := mem_filterMap.mp new
        exact .inr ⟨phi, mem_append_right _ (mem_singleton.mpr rfl), isArg⟩
    · exact absurd inMemory (Bool.not_eq_true _ ▸ inRegister)
    · simp only [filter_append, inMemory]
      simpa using places.few
  · rename_i inRegister
    obtain ⟨rfl, rfl⟩ := Prod.mk.inj (Except.ok.inj stepped)
    rw [Bool.not_eq_true] at inRegister
    refine ⟨places.rest, places.webs, samePhis _, earlier,
      forall_mem_append.mpr ⟨places.held, forall_mem_singleton.mpr fun _ => ?_⟩, ?_⟩
    all_goals rw [Bool.or_eq_false_iff, Bool.not_eq_false', sameHeld] at inRegister
    · exact inRegister.1
    · have room := inRegister.2
      rw [beq_eq_false_iff_ne, config] at room
      simp only [filter_append, length_append]
      exact Nat.le_trans (Nat.add_le_add_left (length_filter_le ..) _)
        (Nat.lt_of_le_of_ne places.few room)

theorem placePhis_eq (ok : s.placePhis b = .ok (s', dsts)) :
    ∃ phis r, s' = { s with
        proc := r.setInsts b (phis.map Inst.phi ++ (s.proc.block b).body)
        stored := s'.stored } ∧
      Places s (s.proc.block b).preds (s.proc.block b).phis
        { s with proc := r, stored := s'.stored } phis := by
  obtain ⟨⟨s₁, phis⟩, placed, same⟩ := bind_pure_eq_ok ok
  obtain ⟨rfl, rfl⟩ := Prod.mk.inj same
  have places : Places s (s.proc.block b).preds (s.proc.block b).phis s₁ phis :=
    foldlM_induction (fun done (state : SpillPlan × List Phi) =>
      Places s (s.proc.block b).preds done state.1 state.2)
      (fun _ _ _ _ _ _ places stepped => places.step stepped)
      ⟨rfl, .refl _, .refl [], fun _ => .inl, forall_mem_nil _, Nat.zero_le _⟩ placed
  have rest := places.rest
  refine ⟨phis, s₁.proc, ?_, ?_⟩
  · rw [rest]
  · exact rest ▸ places

/-- Then the instructions of the block get reloads. -/
theorem spillBlock_eq (ok : s.spillBlock b = .ok s') :
    ∃ (s₁ : SpillPlan) (dsts : List VarId) (steps : List Step) (r : Procedure),
      s.placePhis b = .ok (s₁, dsts) ∧ steps.map Step.inst = (s₁.proc.block b).body ∧
      SameButWebs s₁.proc r ∧ (∀ step ∈ steps, ∀ v ∈ step.reloads, (r.web? v).isSome = true) ∧
      s'.proc = r.setInsts b
        ((s₁.proc.block b).insts.take (s₁.proc.block b).phis.length ++ Step.code steps) ∧
      s'.stored = s₁.stored.insertMany (steps.flatMap (·.reloads)) := by
  obtain ⟨⟨s₁, dsts⟩, placedPhis, ok⟩ := bind_eq_ok ok
  obtain ⟨⟨held, steps⟩, simulated, ok⟩ := bind_eq_ok ok
  obtain ⟨s₃, recorded, rfl⟩ := bind_pure_eq_ok ok
  obtain ⟨sameWebs, stored, hasWeb⟩ := recordReloads_eq recorded
  exact ⟨s₁, dsts, steps, s₃.proc, placedPhis, insts_simulate simulated, sameWebs,
    fun step inSteps v isReload => hasWeb v (mem_flatMap.mpr ⟨step, inSteps, isReload⟩),
    rfl, stored⟩

/-! ## Edges -/

theorem coupleEdge_eq {pred : BlockId × Nat} (ok : coupleEdge b s pred = .ok s') :
    s' = s ∨ ∃ (missing : List VarId) (r : Procedure), SameButWebs s.proc r ∧
      (∀ v ∈ missing, (r.web? v).isSome = true) ∧
      s'.proc = r.modifyBlock pred.1 (·.insertBeforeLast (missing.map Inst.reload)) ∧
      s'.stored = s.stored.insertMany missing := by
  unfold coupleEdge at ok
  dsimp only at ok
  split at ok
  · exact .inl (Except.ok.inj ok).symm
  · obtain ⟨s₁, recorded, rfl⟩ := bind_pure_eq_ok ok
    obtain ⟨sameWebs, stored, hasWeb⟩ := recordReloads_eq recorded
    exact .inr ⟨_, s₁.proc, sameWebs, hasWeb, rfl, stored⟩

/-! ## Stores -/

/-- A variable is stored on entry, or in the block that defines it: behind the phis if it is a phi
that does, else behind the definition. -/
theorem storePoint_eq (ok : s.storePoint v = .ok (some (b, index))) :
    (b = entry ∧ index = 0) ∨ ∃ passed i more, (s.proc.block b).insts = passed ++ i :: more ∧
      i.defs ≠ [] ∧ ((i.isPhi = true ∧ index = (s.proc.block b).phis.length) ∨
        (i.isPhi = false ∧ index = passed.length + 1)) := by
  unfold storePoint at ok
  split at ok
  · have isEntry := Except.ok.inj ok
    split at isEntry
    · obtain ⟨rfl, rfl⟩ := Prod.mk.inj (Option.some.inj isEntry)
      exact .inl ⟨rfl, rfl⟩
    · cases isEntry
  · refine .inr ?_
    unfold definitionPoint at ok
    dsimp only at ok
    split at ok
    · cases ok
    · rename_i home isHome
      cases found : (s.proc.block home).insts.zipIdx.find? fun i => isDefinition v i.1 with
      | none =>
        rw [found] at ok
        cases ok
      | some entry =>
        obtain ⟨i, n⟩ := entry
        rw [found] at ok
        obtain ⟨isDef, isAt⟩ := find?_eq_some_iff_append.mp found
        have isInst := mk_mem_zipIdx_iff_getElem?.mp (mem_of_find?_eq_some found)
        obtain ⟨lt, isAt⟩ := List.getElem?_eq_some_iff.mp isInst
        have split : (s.proc.block home).insts =
            (s.proc.block home).insts.take n ++ i :: (s.proc.block home).insts.drop (n + 1) := by
          rw [← isAt, ← drop_eq_getElem_cons lt, take_append_drop]
        have defines : i.defs ≠ [] := fun none => by
          unfold isDefinition at isDef
          split at isDef
          · cases isDef
          · simp [none] at isDef
        have length := length_take_of_le (Nat.le_of_lt lt)
        cases i with
        | phi phi =>
          have isPoint := Except.ok.inj ok
          split at isPoint
          · cases isPoint
          · obtain ⟨rfl, rfl⟩ := Prod.mk.inj (Option.some.inj isPoint)
            exact ⟨_, _, _, split, defines, .inl ⟨rfl, rfl⟩⟩
        | _ =>
          obtain ⟨rfl, rfl⟩ := Prod.mk.inj (Option.some.inj (Except.ok.inj ok))
          exact ⟨_, _, _, split, defines, .inr ⟨rfl, by rw [length]⟩⟩

theorem storeValue_eq (ok : s.storeValue v = .ok s') :
    s' = s ∨ ∃ b index r, s.storePoint v = .ok (some (b, index)) ∧ SameButWebs s.proc r ∧
      (r.web? v).isSome = true ∧ s'.proc = r.modifyBlock b (·.insertInst index (.spill v)) ∧
      s'.stored = s.stored := by
  obtain ⟨point, isPoint, ok⟩ := bind_eq_ok ok
  cases point with
  | none => exact .inl (Except.ok.inj ok).symm
  | some point =>
    obtain ⟨r, slot, rfl⟩ := bind_pure_eq_ok ok
    obtain ⟨sameWebs, hasWeb⟩ := needSlot_eq slot
    exact .inr ⟨point.1, point.2, r, isPoint, sameWebs, hasWeb, rfl, rfl⟩

/-! ## All steps -/

theorem run_induction (holds : SpillPlan → Prop)
    (start : ∀ s : SpillPlan, s.proc = p → s.stored = .empty → holds s)
    (blocks : ∀ s s' b, holds s → s.spillBlock b = .ok s' → holds s')
    (edges : ∀ s s' b pred, holds s → coupleEdge b s pred = .ok s' → holds s')
    (stores : ∀ s s' v, holds s → s.storeValue v = .ok s' → holds s')
    (ok : run p t config = .ok s) : holds s := by
  obtain ⟨s₀, started, ok⟩ := bind_eq_ok ok
  obtain ⟨s₁, estimated, ok⟩ := bind_eq_ok ok
  obtain ⟨s₂, spilled, ok⟩ := bind_eq_ok ok
  obtain ⟨s₃, coupled, stored⟩ := bind_eq_ok ok
  have isFirst : s₁.proc = p ∧ s₁.stored = .empty := by
    refine foldlM_induction (fun _ s => s.proc = p ∧ s.stored = .empty)
      (fun _ b _ before after _ known stepped => ?_) ?_ estimated
    · obtain ⟨result, -, rfl⟩ := bind_pure_eq_ok stepped
      exact known
    · obtain ⟨home, -, rfl⟩ := bind_pure_eq_ok started
      exact ⟨rfl, rfl⟩
  have afterBlocks : holds s₂ := foldlM_induction (fun _ => holds)
    (fun _ b _ s s' _ known stepped => blocks s s' b known stepped)
      (start s₁ isFirst.1 isFirst.2) spilled
  have afterEdges : holds s₃ := foldlM_induction (fun _ => holds)
    (fun _ b _ s s' _ known stepped => foldlM_induction (fun _ => holds)
      (fun _ pred _ s s' _ known stepped => edges s s' b pred known stepped) known stepped)
    afterBlocks coupled
  exact foldlM_induction (fun _ => holds)
    (fun _ v _ s s' _ known stepped => stores s s' v known stepped) afterEdges stored

/-! ## What changes -/

/-- Where an instruction comes from: it is there already, is a phi but for where that lives, or is
spill code for a variable with a web. -/
def Comes (p : Procedure) (b : BlockId) (j : Inst) : Prop :=
  j ∈ (p.block b).insts ∨
    (∃ phi mark, Inst.phi phi ∈ (p.block b).insts ∧ j = .phi { phi with inMemory := mark }) ∨
    ∃ v, (p.web? v).isSome = true ∧ (j = .spill v ∨ j = .reload v)

/-- All instructions come from the procedure, and what is stored has a web or is an argument of a
phi. -/
structure Changes (p : Procedure) (s : SpillPlan) : Prop where
  rest : s.proc = { p with blocks := s.proc.blocks, webs := s.proc.webs }
  insts : ∀ b, ∀ j ∈ (s.proc.block b).insts, Comes p b j
  stored : ∀ v, s.stored.contains v = true →
    (p.web? v).isSome = true ∨ ∃ phi, Inst.phi phi ∈ p.insts ∧ some v ∈ phi.args

namespace Changes

section

variable (changes : Changes p s)

include changes

theorem web? (v : VarId) : s.proc.web? v = p.web? v := by
  rw [changes.rest]
  rfl

/-- A phi is one of the procedure but for where it lives. -/
theorem phi {phi : Phi} (isPhi : Inst.phi phi ∈ (s.proc.block b).insts) :
    ∃ old mark, Inst.phi old ∈ (p.block b).insts ∧ phi = { old with inMemory := mark } := by
  rcases changes.insts b _ isPhi with isOld | ⟨old, mark, isOld, same⟩ | ⟨v, -, isSpill | isReload⟩
  · exact ⟨phi, phi.inMemory, isOld, rfl⟩
  · exact ⟨old, mark, isOld, Inst.phi.inj same⟩
  · cases isSpill
  · cases isReload

theorem modifyBlock {f : Block → Block} (same : SameButWebs s.proc r)
    (isProc : s'.proc = r.modifyBlock b f)
    (each : ∀ j ∈ (f (s.proc.block b)).insts, Comes s.proc b j)
    (stored : ∀ v, s'.stored.contains v = true → s.stored.contains v = true ∨
      (r.web? v).isSome = true ∨ ∃ phi, Inst.phi phi ∈ (s.proc.block b).insts ∧ some v ∈ phi.args)
    : Changes p s' := by
  have sameWeb : ∀ v, r.web? v = p.web? v := fun v => by rw [← changes.web? v, same]; rfl
  refine ⟨by rw [isProc, same, changes.rest]; rfl, fun c j mem => ?_, fun v isStored => ?_⟩
  · rw [isProc, block_modifyBlock] at mem
    split at mem
    · rename_i here
      obtain ⟨rfl, -⟩ := here
      rw [same.sameBlocks.block] at mem
      rcases each j mem with old | ⟨phi, mark, isPhi, rfl⟩ | ⟨v, hasWeb, isCode⟩
      · exact changes.insts b j old
      · obtain ⟨old, _, isOld, rfl⟩ := changes.phi isPhi
        exact .inr (.inl ⟨old, mark, isOld, rfl⟩)
      · exact .inr (.inr ⟨v, changes.web? v ▸ hasWeb, isCode⟩)
    · exact changes.insts c j (same.sameBlocks.block c ▸ mem)
  · rcases stored v isStored with early | hasWeb | ⟨phi, isPhi, isArg⟩
    · exact changes.stored v early
    · exact .inl (sameWeb v ▸ hasWeb)
    · obtain ⟨old, _, isOld, rfl⟩ := changes.phi isPhi
      exact .inr ⟨old, mem_insts.mpr ⟨b, isOld⟩, isArg⟩

private theorem spillBlock (ok : s.spillBlock b = .ok s') : Changes p s' := by
  obtain ⟨s₁, dsts, steps, r, placed, insts, sameWebs, hasWeb, isProc, isStored⟩ := spillBlock_eq ok
  obtain ⟨phis, r₁, isPlaced, places⟩ := placePhis_eq placed
  have isPhi : ∀ phi ∈ (s.proc.block b).phis, Inst.phi phi ∈ (s.proc.block b).insts :=
    fun phi mem => by
    rw [Block.insts_eq]
    exact mem_append_left _ (mem_map_of_mem mem)
  have first : Changes p s₁ := by
    refine changes.modifyBlock places.webs (congrArg SpillPlan.proc isPlaced) (fun j mem => ?_)
      fun v stored => ?_
    · rcases mem_append.mp mem with isMarked | inBody
      · obtain ⟨phi, inPhis, rfl⟩ := mem_map.mp isMarked
        obtain ⟨old, isOld, same⟩ := places.same.exists_mem inPhis
        exact .inr (.inl ⟨old, phi.inMemory, isPhi old isOld, by rw [← same]⟩)
      · exact .inl (mem_of_mem_drop inBody)
    · exact (places.stored v stored).imp_right
        fun ⟨phi, mem, isArg⟩ => .inr ⟨phi, isPhi phi mem, isArg⟩
  refine first.modifyBlock sameWebs isProc (fun j mem => ?_) fun v stored => ?_
  · rcases mem_append.mp mem with inFront | inCode
    · exact .inl (mem_of_mem_take inFront)
    · obtain ⟨step, inSteps, mem⟩ := mem_flatMap.mp inCode
      rcases mem_append.mp mem with isCode | isInst
      · obtain ⟨v, isReloaded, rfl⟩ := mem_map.mp isCode
        have found := hasWeb step inSteps v isReloaded
        rw [sameWebs] at found
        exact .inr (.inr ⟨v, found, .inr rfl⟩)
      · obtain rfl := mem_singleton.mp isInst
        have inBody := mem_map_of_mem (f := Step.inst) inSteps
        rw [insts] at inBody
        exact .inl (mem_of_mem_drop inBody)
  · rw [isStored, IndexSet.contains_insertMany, Bool.or_eq_true, List.contains_iff_mem] at stored
    refine stored.imp_right fun reloaded => .inl ?_
    obtain ⟨step, inSteps, mem⟩ := mem_flatMap.mp reloaded
    exact hasWeb step inSteps v mem

private theorem coupleEdge {pred : BlockId × Nat} (ok : coupleEdge b s pred = .ok s') :
    Changes p s' := by
  rcases coupleEdge_eq ok with rfl | ⟨missing, r, sameWebs, hasWeb, isProc, isStored⟩
  · exact changes
  · refine changes.modifyBlock sameWebs isProc (fun j mem => ?_) fun v stored => ?_
    · simp only [Block.insertBeforeLast, mem_append, mem_map] at mem
      rcases mem with (inFront | ⟨v, isMissing, rfl⟩) | inBack
      · exact .inl (mem_of_mem_take inFront)
      · have found := hasWeb v isMissing
        rw [sameWebs] at found
        exact .inr (.inr ⟨v, found, .inr rfl⟩)
      · exact .inl (mem_of_mem_drop inBack)
    · rw [isStored, IndexSet.contains_insertMany, Bool.or_eq_true, List.contains_iff_mem] at stored
      exact stored.imp_right fun isMissing => .inl (hasWeb v isMissing)

private theorem storeValue (ok : s.storeValue v = .ok s') : Changes p s' := by
  rcases storeValue_eq ok with rfl | ⟨b, index, r, -, sameWebs, hasWeb, isProc, isStored⟩
  · exact changes
  · refine changes.modifyBlock sameWebs isProc (fun j mem => ?_)
      fun v stored => .inl (isStored ▸ stored)
    simp only [Block.insertInst, mem_append, mem_cons] at mem
    rw [sameWebs] at hasWeb
    rcases mem with inFront | rfl | inBack
    · exact .inl (mem_of_mem_take inFront)
    · exact .inr (.inr ⟨v, hasWeb, .inl rfl⟩)
    · exact .inl (mem_of_mem_drop inBack)

end

end Changes

theorem changes_run (ok : run p t config = .ok s) : Changes p s := by
  refine run_induction (Changes p)
    (fun s isFirst none => ⟨isFirst ▸ rfl, isFirst ▸ fun _ _ => .inl, ?_⟩)
    (fun _ _ _ changes => changes.spillBlock) (fun _ _ _ _ changes => changes.coupleEdge)
    (fun _ _ _ changes => changes.storeValue) ok
  intro v stored
  rw [none, IndexSet.contains_empty] at stored
  cases stored

end SpillPlan

/-- Where phis live does not matter. -/
theorem SamePhis.pads {phis phis' : List Phi} (same : SamePhis phis phis') :
    Pads (phis.map Inst.phi) (phis'.map Inst.phi) := by
  induction phis generalizing phis' with
  | nil =>
    obtain rfl := map_eq_nil_iff.mp same
    exact .nil
  | cons phi phis ih =>
    obtain ⟨phi', rest, rfl, isFirst, isRest⟩ := map_eq_cons_iff.mp same
    refine .keep ⟨?_, nofun, fun _ _ => False.elim⟩ (ih isRest)
    rintro _ ⟨⟩
    exact ⟨phi', rfl, congrArg (·.args.length) isFirst⟩

namespace SpillPlan

variable {p : Procedure} {s s' : SpillPlan} {b : BlockId}

private theorem pads_code (steps : List Step) (noPhi : ∀ i ∈ steps.map Step.inst, i.isPhi = false) :
    Pads (steps.map Step.inst) (Step.code steps) := by
  induction steps with
  | nil => exact .nil
  | cons step steps ih =>
    rw [map_cons, forall_mem_cons] at noPhi
    have reloads : ∀ j ∈ step.reloads.map Inst.reload, j.isInner = true := by
      rintro _ mem
      obtain ⟨v, -, rfl⟩ := mem_map.mp mem
      rfl
    have first := Pads.insert reloads noPhi.1 [] []
    exact first.append (ih noPhi.2)

private theorem padded_placePhis (ok : s.placePhis b = .ok (s', dsts)) : s.proc.Padded s'.proc := by
  obtain ⟨phis, r, isPlaced, places⟩ := placePhis_eq ok
  have same := places.webs.sameBlocks
  rw [isPlaced]
  refine same.padded.trans (padded_modifyBlock r b (fun _ => rfl) fun _ => ?_)
  have pads := places.same.pads.append (.refl (s.proc.block b).body)
  rw [← Block.insts_eq] at pads
  rw [same.block b]
  exact pads

private theorem padded_spillBlock (shaped : s.proc.Shaped) (ok : s.spillBlock b = .ok s') :
    s.proc.Padded s'.proc := by
  obtain ⟨s₁, dsts, steps, r, placed, insts, sameWebs, -, isProc, -⟩ := spillBlock_eq ok
  have padded := padded_placePhis placed
  have same := sameWebs.sameBlocks
  rw [isProc]
  refine padded.trans (same.padded.trans (padded_modifyBlock r b (fun _ => rfl) fun lt => ?_))
  obtain ⟨shape⟩ := padded.reshaped.shaped shaped b (same.blocks ▸ lt)
  have pads := (Pads.refl ((s₁.proc.block b).phis.map Inst.phi)).append
    (pads_code steps (insts ▸ shape.isPhi_body))
  rw [insts, ← Block.insts_eq] at pads
  have front : (s₁.proc.block b).insts.take (s₁.proc.block b).phis.length =
      (s₁.proc.block b).phis.map Inst.phi := by
    conv => lhs; rw [Block.insts_eq]
    exact take_left' (length_map _)
  change Pads (r.block b).insts
    ((s₁.proc.block b).insts.take (s₁.proc.block b).phis.length ++ Step.code steps)
  rw [same.block b, front]
  exact pads

theorem insertBeforeLast_append {block : Block} {front new : List Inst} {last : Inst}
    (insts : block.insts = front ++ [last]) :
    (block.insertBeforeLast new).insts = front ++ new ++ [last] := by
  have length : block.insts.length - 1 = front.length := by simp [insts]
  rw [Block.insertBeforeLast, length, insts, take_left, drop_left]

private theorem padded_coupleEdge {pred : BlockId × Nat} (shaped : s.proc.Shaped)
    (ok : coupleEdge b s pred = .ok s') : s.proc.Padded s'.proc := by
  rcases coupleEdge_eq ok with rfl | ⟨missing, r, sameWebs, -, isProc, -⟩
  · exact .refl _
  · have padded := sameWebs.sameBlocks.padded
    rw [isProc]
    refine padded.trans (padded_modifyBlock _ pred.1 (fun _ => rfl) fun lt => ?_)
    obtain ⟨shape⟩ := padded.reshaped.shaped shaped pred.1 lt
    have insts : (r.block pred.1).insts =
        (shape.phis.map Inst.phi ++ shape.inner) ++ [shape.last] := by
      rw [append_assoc]
      exact shape.insts
    have reloads : ∀ j ∈ missing.map Inst.reload, j.isInner = true := by
      rintro _ mem
      obtain ⟨v, -, rfl⟩ := mem_map.mp mem
      rfl
    have pads := Pads.insert reloads (Inst.isPhi_of_isTerminator shape.exits.isTerminator)
      (shape.phis.map Inst.phi ++ shape.inner) []
    rw [← append_assoc, ← insts, ← insertBeforeLast_append insts] at pads
    exact pads

/-- An instruction that goes behind the phis and in front of the terminator of a block. -/
theorem padded_insertInst {q : Procedure} (shaped : q.Shaped) (inner : i.isInner = true)
    (inside : b < q.blocks.size → (q.block b).phis.length ≤ index ∧
      index < (q.block b).insts.length) : q.Padded (q.modifyBlock b (·.insertInst index i)) := by
  refine padded_modifyBlock q b (fun _ => rfl) fun lt => ?_
  obtain ⟨shape⟩ := shaped b lt
  obtain ⟨behind, before⟩ := inside lt
  have split : (q.block b).insts =
      (q.block b).insts.take index ++ (q.block b).insts[index] :: (q.block b).insts.drop
      (index + 1) := by
    rw [getElem_cons_drop, take_append_drop]
  have other : (q.block b).insts[index].isPhi = false := by
    refine shape.isPhi_body _ ?_
    rw [Block.body, mem_drop_iff_getElem]
    exact ⟨index - (q.block b).phis.length, by omega, by congr 1; omega⟩
  have pads := Pads.insert (forall_mem_singleton.mpr inner) other
    ((q.block b).insts.take index) ((q.block b).insts.drop (index + 1))
  rw [← split, getElem_cons_drop] at pads
  exact pads

private theorem padded_storeValue {v : VarId} (shaped : s.proc.Shaped)
    (noPhis : (s.proc.block entry).phis = []) (ok : s.storeValue v = .ok s') :
    s.proc.Padded s'.proc := by
  rcases storeValue_eq ok with rfl | ⟨b, index, r, isPoint, sameWebs, -, isProc, -⟩
  · exact .refl _
  · have same := sameWebs.sameBlocks
    have shaped' := same.padded.reshaped.shaped shaped
    rw [isProc]
    refine same.padded.trans (padded_insertInst shaped' rfl fun lt => ?_)
    rw [same.block b]
    obtain ⟨shape⟩ := shaped b (same.blocks ▸ lt)
    rcases storePoint_eq isPoint with
      ⟨rfl, rfl⟩ | ⟨passed, i, more, insts, defines, ⟨-, rfl⟩ | ⟨other, rfl⟩⟩
    · refine ⟨by simp [noPhis], ?_⟩
      simp only [shape.insts, length_append, length_singleton]
      omega
    · refine ⟨Nat.le_refl _, ?_⟩
      rw [shape.phis_eq]
      simp only [shape.insts, length_append, length_singleton, length_map]
      omega
    · refine shape.between insts other (Bool.eq_false_iff.mpr fun terminates => ?_)
      exact defines (Inst.defs_of_isTerminator terminates)

private theorem padded_run (shaped : p.Shaped) (nonempty : 0 < p.blocks.size)
    (noPhis : (p.block entry).phis = []) (ok : run p t config = .ok s) : p.Padded s.proc := by
  obtain ⟨shape⟩ := shaped entry nonempty
  refine run_induction (fun s => p.Padded s.proc) (fun s isFirst _ => isFirst ▸ .refl p)
    (fun s s' b padded stepped => ?_) (fun s s' b pred padded stepped => ?_)
    (fun s s' v padded stepped => ?_) ok
  · exact padded.trans (padded_spillBlock (padded.reshaped.shaped shaped) stepped)
  · exact padded.trans (padded_coupleEdge (padded.reshaped.shaped shaped) stepped)
  · exact padded.trans
      (padded_storeValue (padded.reshaped.shaped shaped) (padded.phis_eq_nil shape noPhis) stepped)

end SpillPlan

/-- Spilling keeps the graph and the shape of its blocks. -/
theorem Procedure.reshaped_spill {p : Procedure} {f : Frontiers}
    {spilled : Spilled} (wf : p.WellFormed) (noPhis : (p.block entry).phis = [])
    (ok : p.spill t f config = .ok spilled) : p.Reshaped spilled.proc := by
  obtain ⟨s, ran, rfl⟩ := bind_pure_eq_ok ok
  exact (SpillPlan.padded_run wf.shape wf.nonempty noPhis ran).reshaped.trans
    (retouches_repairAll t f s.stored.toList s.proc 0).reshaped

end ArmBackend
