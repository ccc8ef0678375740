import ArmBackend.Proofs.Descent.Bounds

/-!
Contract: variables that share a stack slot are never live at once.

What is live at a point is read on some path from there before it is defined again. Where every read
is of something assigned, it is therefore the current version of its source at that point. A web
holds versions of one source only, so at most one of its variables is live.

Owns: live sets as sets of current versions, and that the variables of a web do not interfere.
Does not own: how webs are built, and which versions are current where.
-/

namespace ArmBackend

open List Procedure

/-! ## One block -/

namespace Versions

variable {vs : Versions} {current final : VersionMap} {exitReads : List VarId} {v : VarId}

/-- A live set somewhere in a procedure, all variables of which are current. -/
def CoversSome (vs : Versions) (live : IndexSet) : Prop :=
  ∃ current, vs.Faithful current ∧ ∀ v, live.contains v = true → current (vs.source v) = some v

theorem Readable.isCurrent {u : VarId} (readable : vs.Readable current u) (strict : vs.Strict) :
    current (vs.source u) = some u :=
  readable.2.resolve_right (by simp [strict u])

theorem Follows.eq_of_nil (follows : vs.Follows current [] final) : final = current := by
  cases follows
  rfl

theorem Follows.current_of_unset {insts : List Inst} {x : VarId}
    (follows : vs.Follows current insts final)
    (isCurrent : final x = some v) (unset : v ∉ insts.flatMap Inst.defs) : current x = some v := by
  induction follows with
  | nil => exact isCurrent
  | cons reads defs more ih =>
    rw [flatMap_cons, mem_append, not_or] at unset
    exact (after_cases (ih isCurrent unset.2)).resolve_left fun isDef => unset.1 isDef.1

/-- Phis read nothing, so what is read first in the instructions behind them is current there. -/
theorem Follows.current_of_read {phis : List Phi} {body front back : List Inst} {i : Inst}
    (follows : vs.Follows current body final) (strict : vs.Strict)
    (exits : ∀ v ∈ exitReads, final (vs.source v) = some v)
    (last : i.isTerminator = true → back = [])
    (split : phis.map Inst.phi ++ body = front ++ i :: back) (unset : v ∉ front.flatMap Inst.defs)
    (isRead : v ∈ i.reads exitReads) : current (vs.source v) = some v := by
  obtain ⟨inner, rfl, lt⟩ : ∃ inner, body = inner ++ i :: back ∧ v ∉ inner.flatMap Inst.defs := by
    rcases append_eq_append_iff.mp split with ⟨inner, rfl, isBody⟩ | ⟨late, isPhis, isBack⟩
    · rw [flatMap_append, mem_append, not_or] at unset
      exact ⟨inner, isBody, unset.2⟩
    · cases late with
      | nil => exact ⟨[], isBack.symm, not_mem_nil⟩
      | cons first late =>
        obtain ⟨rfl, -⟩ := List.cons.inj isBack
        obtain ⟨phi, -, rfl⟩ := mem_map.mp (isPhis ▸ mem_append_right front mem_cons_self)
        simp [Inst.mem_reads, Inst.uses, Inst.operands, Inst.isTerminator] at isRead
  obtain ⟨mid, early, late⟩ := follows.append_inv
  refine early.current_of_unset ?_ lt
  cases late with
  | cons reads defs more =>
    rcases Inst.mem_reads.mp isRead with uses | ⟨isLast, isExit⟩
    · exact (reads v uses).isCurrent strict
    · -- Nothing follows the terminator, so its versions are those at the end.
      obtain rfl := last isLast
      have atEnd := exits v isExit
      rwa [more.eq_of_nil, after_of_defs_nil (Inst.defs_of_isTerminator isLast)] at atEnd

end Versions

/-! ## All blocks -/

namespace Liveness

variable {p : Procedure} {vs : Versions} {b : BlockId} {v : VarId}

/-- Reads of a terminator for the phis of successors are of current versions. -/
theorem readable_exitReads (wf : p.WellFormed) (versioned : p.Versioned vs)
    (mem : v ∈ p.exitReads b) : vs.Readable (vs.atEnd b) v := by
  obtain ⟨s, edge, phi, isPhi, -, slot, isPred, isArg⟩ := mem_exitReads.mp mem
  exact (versioned.phiArg s (wf.inside b s edge).1 phi isPhi slot b v isPred isArg).2

/-- The live sets of a block: at its start, at its end, and before each instruction. -/
def points (l : Liveness) (p : Procedure) (b : BlockId) : List IndexSet :=
  l.inOf b :: l.outOf b :: (l.beforeEach p b).map Prod.snd

section Current

variable (wf : p.WellFormed) (ordered : p.Ordered) (bounded : p.Bounded)
  (versioned : p.Versioned vs) (strict : vs.Strict)

include wf ordered bounded versioned strict

omit ordered bounded in
theorem current_of_read {current : VersionMap} {phis : List Phi}
    {passed body front back : List Inst} {i : Inst}
    (isSplit : (p.block b).insts = passed ++ (phis.map Inst.phi ++ body))
    (follows : vs.Follows current body (vs.atEnd b))
    (split : phis.map Inst.phi ++ body = front ++ i :: back)
    (unset : v ∉ front.flatMap Inst.defs) (isRead : v ∈ i.reads (p.exitReads b)) :
    current (vs.source v) = some v := by
  rw [split, ← append_assoc] at isSplit
  have mem : i ∈ (p.block b).insts := isSplit ▸ mem_append_right _ mem_cons_self
  obtain ⟨shape⟩ := wf.shape b (lt_size_of_mem_insts mem)
  exact follows.current_of_read strict
    (fun v isExit => (readable_exitReads wf versioned isExit).isCurrent strict)
    (shape.eq_nil_of_isTerminator isSplit) split unset isRead

omit strict in
/-- A version that is current after the phis of a block, and is live in front of them, is current at
the ends of all predecessors. -/
theorem current_atEnd {s : BlockId} (edge : s ∈ (p.block b).succs)
    (live : ((ofProcedure p).inOf s).contains v = true)
    (isCurrent : vs.atBody s (vs.source v) = some v) : vs.atEnd b (vs.source v) = some v := by
  have lt := (wf.inside b s edge).1
  have isPred := (wf.mem_preds lt).mpr edge
  rcases versioned.edge s lt _ v isCurrent with ⟨rfl, -⟩ | ⟨phi, mem, rfl⟩ | ⟨-, fromPreds⟩
  · rw [wf.preds_entry] at isPred
    cases isPred
  · rw [not_live_inOf wf ordered bounded mem] at live
    cases live
  · exact fromPreds b isPred

/-- What a path leads to a read of is current after the phis where the path starts. -/
theorem current_of_upcoming {seen : List BlockId} {distance : Nat}
    (coming : p.Upcoming v seen b (p.block b).insts distance) :
    vs.atBody b (vs.source v) = some v := by
  have lt := coming.lt_size
  generalize whole : (p.block b).insts = rest at coming
  induction coming with
  | read unset isRead =>
    exact current_of_read wf versioned strict ((Block.insts_eq _).trans (nil_append _).symm)
      (versioned.follows _ lt) ((Block.insts_eq _).symm.trans whole) unset isRead
  | @onward b s rest seen distance unset edge later ih =>
    have live := (contains_inOf wf ordered bounded).mpr ⟨_, _, later⟩
    have atEnd := current_atEnd wf ordered bounded versioned edge live (ih later.lt_size rfl)
    refine (versioned.follows b lt).current_of_unset atEnd fun isDef => unset ?_
    rw [← whole, Block.insts_eq, flatMap_append]
    exact mem_append_right _ isDef

theorem current_of_ahead {current : VersionMap} (phis : List Phi) {passed body : List Inst}
    (split : (p.block b).insts = passed ++ (phis.map Inst.phi ++ body))
    (follows : vs.Follows current body (vs.atEnd b))
    (live : ((ofProcedure p).ahead p b (phis.map Inst.phi ++ body)).contains v = true) :
    current (vs.source v) = some v := by
  obtain ⟨-, ⟨front, i, back, isFront, unset, isRead, -⟩ | ⟨unset, -, live, -⟩⟩ := live_iff.mp live
  · exact current_of_read wf versioned strict split follows isFront unset isRead
  · rw [flatMap_append, mem_append, not_or] at unset
    refine follows.current_of_unset ?_ unset.2
    rcases (contains_outOf wf ordered bounded).mp live with isExit | ⟨s, edge, live⟩
    · exact (readable_exitReads wf versioned isExit).isCurrent strict
    · obtain ⟨seen, distance, coming⟩ := (contains_inOf wf ordered bounded).mp live
      exact current_atEnd wf ordered bounded versioned edge live
        (current_of_upcoming wf ordered bounded versioned strict coming)

/-- At every point some map of versions holds all live variables. -/
theorem coversSome_points (lt : b < p.blocks.size) {live : IndexSet}
    (isPoint : live ∈ (ofProcedure p).points p b) : vs.CoversSome live := by
  obtain ⟨front, back, split, rfl⟩ : ∃ front back, (p.block b).insts = front ++ back ∧
      live = (ofProcedure p).ahead p b back := by
    rcases mem_cons.mp isPoint with rfl | isPoint
    · exact ⟨[], _, rfl, inOf_eq_ahead wf ordered bounded⟩
    · refine mem_beforeEach.mp (mem_append.mpr ?_)
      exact (mem_cons.mp isPoint).symm.imp_right mem_singleton.mpr
  have faithful := versioned.faithful b lt
  have follows := versioned.follows b lt
  have whole := split
  rw [Block.insts_eq] at whole
  rcases append_eq_append_iff.mp whole with ⟨early, rfl, isBody⟩ | ⟨late, isPhis, rfl⟩
  · rw [isBody] at follows
    obtain ⟨mid, early, follows⟩ := follows.append_inv
    refine ⟨mid, early.faithful faithful, fun v live => ?_⟩
    exact current_of_ahead wf ordered bounded versioned strict [] split follows live
  · obtain ⟨phis, phis', -, -, rfl⟩ := map_eq_append_iff.mp isPhis
    refine ⟨_, faithful, fun v live => ?_⟩
    exact current_of_ahead wf ordered bounded versioned strict _ split follows live

end Current

end Liveness

theorem Versions.CoversSome.eq_of_web {p : Procedure} {vs : Versions} {live : IndexSet}
    (covers : vs.CoversSome live) (webbed : p.Webbed vs) {u v : VarId}
    (sameWeb : p.web? u = p.web? v)
    (liveU : live.contains u = true) (liveV : live.contains v = true) : u = v := by
  obtain ⟨current, faithful, covers⟩ := covers
  have isU := covers u liveU
  have isV := covers v liveV
  rw [webbed.source u v (faithful _ _ isU).2 (faithful _ _ isV).2 sameWeb, isV] at isU
  exact (Option.some.inj isU).symm

/-- If reads are assigned ahead on all paths, no two variables of one web are live at one point. -/
theorem Work.eq_of_web_of_live {text : String} {program : Program} {p graph : Procedure}
    (read : Program.ofText text = .ok program) (mem : p ∈ program.procedures)
    (built : p.buildFlowGraph = .ok graph) (assigned : graph.AssignsReads) {config : Config}
    {stats : Statistics} {w : Work}
    (ok : [Pass.flowGraph, .dominance, .ssa, .edgeSplitting, .targetForm, .webs].foldlM
      (Work.run config) (Work.start p stats) = .ok w)
    {b : BlockId} (lt : b < w.proc.blocks.size) {live : IndexSet}
    (isPoint : live ∈ (Liveness.ofProcedure w.proc).points w.proc b) {u v : VarId} {web : WebId}
    (liveU : live.contains u = true) (liveV : live.contains v = true)
    (webU : w.proc.web? u = some web) (webV : w.proc.web? v = some web) : u = v := by
  have linear := Program.linear_of_ofText read p mem
  have after : w.After p .webs := Work.after_take linear (k := 5) rfl ok
  obtain ⟨cert, ordered, -, -, vs, versioned, webbed, strict⟩ := after
  have isStrict := strict fun graph' built' => by
    rw [built, Except.ok.injEq] at built'
    exact built' ▸ assigned
  have covers := Liveness.coversSome_points cert.wf ordered cert.bounded versioned isStrict lt
    isPoint
  exact covers.eq_of_web webbed (webU.trans webV.symm) liveU liveV

/-- In a loop that adds up, one version of the sum is live at the end of the loop's body. -/
theorem Work.eq_of_web_of_live_sum :
    ∃ program p graph w, Program.ofText Program.sumText = .ok program ∧ p ∈ program.procedures ∧
      p.buildFlowGraph = .ok graph ∧ graph.AssignsReads ∧
      [Pass.flowGraph, .dominance, .ssa, .edgeSplitting, .targetForm, .webs].foldlM
        (Work.run .standard) (Work.start p .zero) = .ok w ∧
      ((Liveness.ofProcedure w.proc).outOf 3).contains 5 = true ∧ w.proc.web? 5 = some 1 ∧
      ∀ v, ((Liveness.ofProcedure w.proc).outOf 3).contains v = true → w.proc.web? v = some 1 →
      v = 5 := by
  let table (b : BlockId) : List VarId := if b ≤ 1 then [0] else [0, 1]
  have evaluated : ((Program.ofText Program.sumText).toOption.bind fun program =>
      program.procedures.head?.bind fun p => p.buildFlowGraph.toOption.bind fun graph =>
        ([Pass.flowGraph, .dominance, .ssa, .edgeSplitting, .targetForm, .webs].foldlM
          (Work.run .standard) (Work.start p .zero)).toOption.map fun w =>
            decide (graph.AssignedAhead table ∧ 3 < w.proc.blocks.size ∧
              ((Liveness.ofProcedure w.proc).outOf 3).contains 5 = true ∧
              w.proc.web? 5 = some 1)) = some true := by
    decide +kernel
  obtain ⟨program, p, isRead, mem, evaluated⟩ := Program.exists_of_first evaluated
  obtain ⟨graph, isBuilt, evaluated⟩ := Tables.exists_ok_of_bind evaluated
  obtain ⟨w, isRan, checked⟩ := Tables.exists_ok_of_map evaluated
  obtain ⟨ahead, lt, isLive, isWeb⟩ := of_decide_eq_true checked
  have isPoint : (Liveness.ofProcedure w.proc).outOf 3 ∈
      (Liveness.ofProcedure w.proc).points w.proc 3 := by simp [Liveness.points]
  refine ⟨program, p, graph, w, isRead, mem, isBuilt, ahead.assignsReads, isRan, isLive, isWeb,
    fun v liveV webV => ?_⟩
  exact Work.eq_of_web_of_live isRead mem isBuilt ahead.assignsReads isRan lt isPoint liveV isLive
    webV isWeb

end ArmBackend
