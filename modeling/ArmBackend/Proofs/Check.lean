import ArmBackend.Check
import ArmBackend.Proofs.Liveness
import ArmBackend.Proofs.Ssa.SingleAssignment
import Mathlib.Data.List.Pairwise

/-!
Contract: what holds of a procedure that passes a check.

Owns: that every variable has one definition, and that the check of registers passes exactly if
values which are live at once have registers of their own.
Does not own: which procedures pass.
-/

namespace ArmBackend

open List Procedure

/-- Variables in different registers. -/
structure Procedure.Apart (p : Procedure) (vars : VarId → Prop) : Prop where
  present : ∀ v, vars v → (p.reg? v).isSome = true
  distinct : ∀ u v, vars u → vars v → p.reg? u = p.reg? v → u = v

theorem Procedure.Apart.mono {p : Procedure} {vars more : VarId → Prop} (apart : p.Apart more)
    (subset : ∀ v, vars v → more v) : p.Apart vars :=
  ⟨fun v isVar => apart.present v (subset v isVar),
    fun u v isU isV => apart.distinct u v (subset u isU) (subset v isV)⟩

namespace Check

variable {p : Procedure} {b : BlockId}

/-! ## Definitions -/

/-- The second set is the first with variables that were not in it, each met once. -/
structure Records (before after : IndexSet) (vars : List VarId) : Prop where
  nodup : vars.Nodup
  fresh : ∀ v ∈ vars, before.contains v = false
  mem : ∀ v, after.contains v = true ↔ before.contains v = true ∨ v ∈ vars

namespace Records

variable {before mid after : IndexSet} {vars more : List VarId}

theorem refl (defined : IndexSet) : Records defined defined [] := ⟨nodup_nil, by simp, by simp⟩

theorem trans (first : Records before mid vars) (second : Records mid after more) :
    Records before after (vars ++ more) where
  nodup := by
    refine nodup_append.mpr ⟨first.nodup, second.nodup, ?_⟩
    rintro v isFirst _ isSecond rfl
    have known := (first.mem v).mpr (.inr isFirst)
    rw [second.fresh v isSecond] at known
    cases known
  fresh v mem := by
    rcases mem_append.mp mem with isFirst | isSecond
    · exact first.fresh v isFirst
    · refine Bool.eq_false_iff.mpr fun known => ?_
      have later := (first.mem v).mpr (.inl known)
      rw [second.fresh v isSecond] at later
      cases later
  mem v := by rw [second.mem, first.mem, mem_append, or_assoc]

private theorem foldlM {α : Type} (varsOf : α → List VarId)
    {f : IndexSet → α → Except Error IndexSet} {entries : List α}
    (step : ∀ before after entry, f before entry = .ok after → Records before after (varsOf entry))
    (ok : entries.foldlM f before = .ok after) : Records before after (entries.flatMap varsOf) :=
  foldlM_induction (fun done after => Records before after (done.flatMap varsOf))
    (fun done entry _ _ _ _ known stepped => by
      rw [flatMap_append, flatMap_singleton]
      exact known.trans (step _ _ _ stepped)) (.refl before) ok

end Records

variable {config : Config} {seen : List (Reg × VarId)} {vars : List VarId}

private theorem records_define {before after : IndexSet} {v : VarId}
    (ok : define p before v = .ok after) : Records before after [v] := by
  unfold define at ok
  split at ok
  · cases ok
  · rename_i isNew
    obtain rfl := Except.ok.inj ok
    refine ⟨pairwise_singleton .., forall_mem_singleton.mpr (Bool.eq_false_iff.mpr isNew),
      fun u => ?_⟩
    rw [IndexSet.contains_insert, Bool.or_eq_true, decide_eq_true_eq, mem_singleton,
      eq_comm (a := v)]

theorem singleAssignment_of_check (ok : singleAssignment p = .ok ()) : p.SingleAssignment := by
  unfold singleAssignment at ok
  obtain ⟨defined, ok, -⟩ := bind_eq_ok ok
  have recorded : Records (.ofList p.args) defined
      (p.blockIds.flatMap fun b => (p.block b).insts.flatMap Inst.defs) := by
    refine .foldlM _ (fun before after b stepped => ?_) ok
    refine .foldlM _ (fun before after i stepped => ?_) stepped
    obtain ⟨result, defines, rest⟩ := bind_eq_ok stepped
    obtain ⟨_, -, rfl⟩ := bind_pure_eq_ok rest
    have all := Records.foldlM (fun v => [v]) (fun _ _ _ => records_define) defines
    rwa [flatMap_singleton'] at all
  have isDefs : p.insts.flatMap Inst.defs =
      p.blockIds.flatMap fun b => (p.block b).insts.flatMap Inst.defs := by
    rw [insts_eq_flatMap, flatMap_assoc]
  refine ⟨isDefs ▸ recorded.nodup, fun d isDef isArg => ?_⟩
  have fresh := recorded.fresh d (isDefs ▸ isDef)
  rw [IndexSet.contains_ofList, List.contains_iff_mem.mpr isArg] at fresh
  cases fresh

/-! ## Registers -/

/-- Values that pass have registers of their own, none of which was seen before. -/
theorem distinctRegisters_spec (ok : distinctRegisters p b vars seen = .ok ()) :
    (∀ v ∈ vars, ∃ r, p.reg? v = some r ∧ seen.lookup r = none) ∧
    vars.Pairwise fun u v => p.reg? u ≠ p.reg? v := by
  induction vars generalizing seen with
  | nil => exact ⟨nofun, .nil⟩
  | cons v rest ih =>
    unfold distinctRegisters at ok
    split at ok
    · cases ok
    · rename_i r isReg
      split at ok
      · cases ok
      · rename_i unseen
        obtain ⟨known, apart⟩ := ih ok
        have later : ∀ u ∈ rest, ∃ s, p.reg? u = some s ∧ seen.lookup s = none ∧ s ≠ r := by
          intro u mem
          obtain ⟨s, isS, absent⟩ := known u mem
          rw [lookup_cons] at absent
          split at absent
          · cases absent
          · rename_i other
            exact ⟨s, isS, absent, ne_of_beq_false other⟩
        refine ⟨forall_mem_cons.mpr ⟨⟨r, isReg, unseen⟩, fun u mem => ?_⟩,
          pairwise_cons.mpr ⟨fun u mem same => ?_, apart⟩⟩
        · obtain ⟨s, isS, absent, -⟩ := later u mem
          exact ⟨s, isS, absent⟩
        · obtain ⟨s, isS, -, other⟩ := later u mem
          rw [isReg, isS, Option.some.injEq] at same
          exact other same.symm

/-- Registers of their own that were not seen before are enough to pass. -/
theorem distinctRegisters_of_pairwise
    (known : ∀ v ∈ vars, ∃ r, p.reg? v = some r ∧ seen.lookup r = none)
    (apart : vars.Pairwise fun u v => p.reg? u ≠ p.reg? v) :
    distinctRegisters p b vars seen = .ok () := by
  induction vars generalizing seen with
  | nil => rfl
  | cons v rest ih =>
    rw [forall_mem_cons] at known
    rw [pairwise_cons] at apart
    obtain ⟨⟨r, isReg, unseen⟩, later⟩ := known
    have next : ∀ u ∈ rest, ∃ s, p.reg? u = some s ∧ ((r, v) :: seen).lookup s = none := by
      intro u mem
      obtain ⟨s, isS, absent⟩ := later u mem
      have other : (s == r) = false := by
        refine beq_false_of_ne fun same => apart.1 u mem ?_
        rw [isReg, isS, same]
      exact ⟨s, isS, by rw [lookup_cons, other]; exact absent⟩
    rw [distinctRegisters, isReg]
    dsimp only
    rw [unseen]
    exact ih next apart.2

theorem distinctRegisters_eq_ok_iff {live : IndexSet} :
    distinctRegisters p b live.toList [] = .ok () ↔ p.Apart fun v => live.contains v = true := by
  constructor
  · intro ok
    obtain ⟨known, apart⟩ := distinctRegisters_spec ok
    have mem : ∀ {v}, live.contains v = true → v ∈ live.toList := (IndexSet.mem_toList live _).mpr
    refine ⟨fun v isLive => ?_, fun u v liveU liveV same => ?_⟩
    · obtain ⟨r, isReg, -⟩ := known v (mem isLive)
      exact Option.isSome_iff_exists.mpr ⟨r, isReg⟩
    · have symmetric : Std.Symm fun u v => p.reg? u ≠ p.reg? v := ⟨fun _ _ => Ne.symm⟩
      apply Classical.byContradiction
      intro differ
      exact apart.forall (mem liveU) (mem liveV) differ same
  · intro apart
    have isLive : ∀ {v}, v ∈ live.toList → live.contains v = true := (IndexSet.mem_toList live _).mp
    refine distinctRegisters_of_pairwise (fun v mem => ?_) ?_
    · obtain ⟨r, isReg⟩ := Option.isSome_iff_exists.mp (apart.present v (isLive mem))
      exact ⟨r, isReg, rfl⟩
    · refine (IndexSet.nodup_toList live).imp_of_mem fun inU inV differ same => ?_
      exact differ (apart.distinct _ _ (isLive inU) (isLive inV) same)

/-- The check of registers passes exactly if register arguments are in place and values that are
live at once are in registers of their own. -/
theorem coloring_eq_ok_iff : coloring p config = .ok () ↔
      (∀ arg ∈ (p.args.take config.argRegisters).zipIdx, p.reg? arg.1 = Reg.ofIndex? arg.2) ∧
      ∀ b < p.blocks.size, ∀ front back, (p.block b).insts = front ++ back →
        p.Apart fun v => ((Liveness.ofProcedure p).ahead p b back).contains v = true := by
  have argument : ∀ arg : VarId × Nat, (if p.reg? arg.1 ≠ Reg.ofIndex? arg.2 then
      (.error (.violated (.misplacedArgument (p.varName arg.1) arg.2)) : Except Error Unit)
        else .ok ()) = .ok () ↔ p.reg? arg.1 = Reg.ofIndex? arg.2 := by
    intro arg
    by_cases inPlace : p.reg? arg.1 = Reg.ofIndex? arg.2 <;> simp [inPlace]
  constructor
  · intro ok
    obtain ⟨_, args, ok⟩ := bind_eq_ok ok
    refine ⟨fun arg mem => (argument arg).mp (forM_eq_ok args arg mem),
      fun b lt front back split => ?_⟩
    have points := forM_eq_ok (forM_eq_ok ok b (mem_blockIds.mpr lt))
    exact distinctRegisters_eq_ok_iff.mp
      (points _ (Liveness.mem_beforeEach.mpr ⟨front, back, split, rfl⟩))
  · rintro ⟨args, points⟩
    have first : argumentRegisters p config = .ok () :=
      forM_of_forall fun arg mem => (argument arg).mpr (args arg mem)
    rw [coloring, first]
    refine forM_of_forall fun b lt => forM_of_forall fun set mem => ?_
    obtain ⟨front, back, split, rfl⟩ := Liveness.mem_beforeEach.mp mem
    exact distinctRegisters_eq_ok_iff.mpr (points b (mem_blockIds.mp lt) front back split)

theorem apart_of_coloring (ok : coloring p config = .ok ()) (lt : b < p.blocks.size) :
    (p.Apart fun v => ((Liveness.ofProcedure p).outOf b).contains v = true) ∧
      ∀ i ∈ (p.block b).insts, ∀ v ∈ i.reads (p.exitReads b), (p.reg? v).isSome = true := by
  have points := (coloring_eq_ok_iff.mp ok).2 b lt
  refine ⟨points _ [] (append_nil _).symm, fun i mem v isRead => ?_⟩
  obtain ⟨front, back, split⟩ := append_of_mem mem
  exact (points front (i :: back) split).present v (Liveness.contains_ahead_cons.mpr (.inl isRead))

end Check

end ArmBackend
