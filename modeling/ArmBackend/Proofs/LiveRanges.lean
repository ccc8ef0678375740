import ArmBackend.Proofs.Liveness
import ArmBackend.Proofs.Ssa.SingleAssignment

/-!
Contract: where a value is live when it has one definition, which dominates what reads it.

A value is live only where its definition dominates. It is read behind its definition only, so it
dies at its last read, and a definition that is not dead is live right behind it. What is live at
the start of a block is live at the end of the block's immediate dominator.

Owns: these facts about live sets.
Does not own: which registers values are in.
-/

namespace ArmBackend

open List Procedure

namespace Liveness

variable {p : Procedure} {b c : BlockId} {v : VarId} {front back : List Inst} {i : Inst}

theorem ahead_append {l : Liveness} (live : (l.ahead p b back).contains v = true)
    (unset : v ∉ front.flatMap Inst.defs) : (l.ahead p b (front ++ back)).contains v = true := by
  induction front with
  | nil => exact live
  | cons i rest ih =>
    rw [flatMap_cons, mem_append, not_or] at unset
    exact contains_ahead_cons.mpr (.inr ⟨ih unset.2, unset.1⟩)

/-- What is read or live at the end is live in front, unless it is defined in between. -/
theorem ahead_of_read {l : Liveness}
    (later : (∃ i ∈ back, v ∈ i.reads (p.exitReads b)) ∨ (l.outOf b).contains v = true)
    (unset : v ∉ back.flatMap Inst.defs) : (l.ahead p b back).contains v = true := by
  rcases later with ⟨i, mem, isRead⟩ | atEnd
  · obtain ⟨before, after, rfl⟩ := append_of_mem mem
    rw [flatMap_append, mem_append, not_or] at unset
    exact ahead_append (contains_ahead_cons.mpr (.inl isRead)) unset.1
  · have all : (l.ahead p b (back ++ [])).contains v = true := ahead_append atEnd unset
    rwa [append_nil] at all

theorem exists_reader {k : Nat} (isLast : (ofProcedure p).lastUse? b v = some k) :
    ∃ i, (p.block b).insts[k]? = some i ∧ v ∈ i.reads (p.exitReads b) := by
  unfold lastUse? at isLast
  rw [reads_ofProcedure] at isLast
  obtain ⟨entry, isEntry, rfl⟩ := Option.map_eq_some_iff.mp isLast
  obtain ⟨mem, isRead⟩ := mem_filter.mp (mem_of_getLast? isEntry)
  have isAt := mk_mem_zipIdx_iff_getElem?.mp mem
  rw [getElem?_map] at isAt
  obtain ⟨i, isInst, same⟩ := Option.map_eq_some_iff.mp isAt
  exact ⟨i, isInst, by rw [same]; simpa using isRead⟩

theorem not_mem_of_split (single : p.SingleAssignment) (split : (p.block b).insts = front ++ back)
    (isDef : v ∈ front.flatMap Inst.defs) : v ∉ back.flatMap Inst.defs := by
  obtain ⟨i, mem, -⟩ := mem_flatMap.mp isDef
  have nodup := single.nodup_block (lt_size_of_mem_insts (split ▸ mem_append_left back mem))
  rw [split, flatMap_append] at nodup
  exact fun again => (nodup_append.mp nodup).2.2 v isDef v again rfl

/-- A definition that is not dead is live in front of what first can read it. -/
theorem ahead_of_not_isDeadDef (single : p.SingleAssignment)
    (split : (p.block b).insts = front ++ back)
    (isDef : v ∈ front.flatMap Inst.defs) (unread : ∀ j ∈ front, v ∉ j.reads (p.exitReads b))
    (alive : (ofProcedure p).isDeadDef b v = false) :
    ((ofProcedure p).ahead p b back).contains v = true := by
  refine ahead_of_read ?_ (not_mem_of_split single split isDef)
  rw [isDeadDef, Bool.and_eq_false_iff, Bool.not_eq_false', Option.isNone_eq_false_iff,
    Option.isSome_iff_exists] at alive
  refine alive.symm.imp_left ?_
  rintro ⟨k, isLast⟩
  obtain ⟨j, isInst, isRead⟩ := exists_reader isLast
  have inBlock := mem_of_getElem? isInst
  rw [split] at inBlock
  exact ⟨j, (mem_append.mp inBlock).resolve_left fun early => unread j early isRead, isRead⟩

section Ranges

variable (wf : p.WellFormed) (single : p.SingleAssignment) (dominate : p.DefsDominate)

include wf single dominate

theorem not_read_before (split : (p.block b).insts = front ++ i :: back) (isDef : v ∈ i.defs) :
    ∀ j ∈ front ++ [i], v ∉ j.reads (p.exitReads b) := by
  intro j mem isRead
  have inBlock : i ∈ (p.block b).insts := split ▸ by simp
  obtain ⟨shape⟩ := wf.shape b (lt_size_of_mem_insts inBlock)
  obtain ⟨before, after, parts⟩ := append_of_mem mem
  have isSplit : (p.block b).insts = before ++ j :: (after ++ back) := by
    rw [split, append_cons, parts]
    simp
  have isAfter : i ∈ j :: after := by
    have isLast := congrArg List.getLast? parts
    rw [getLast?_concat, getLast?_append_of_ne_nil _ (cons_ne_nil _ _)] at isLast
    exact mem_of_getLast? isLast.symm
  rcases Inst.mem_reads.mp isRead with isUse | ⟨isTerminator, -⟩
  · have isInst : (p.block b).insts[before.length]? = some j := by simp [isSplit]
    rcases dominate.reads b _ j isInst v isUse b (mem_flatMap.mpr ⟨i, inBlock, isDef⟩) with
      early | strictly
    · rw [isSplit, take_left] at early
      refine not_mem_of_split single isSplit early (mem_flatMap.mpr ⟨i, ?_, isDef⟩)
      rw [← cons_append]
      exact mem_append_left _ isAfter
    · exact strictly.2 rfl
  · have none := shape.eq_nil_of_isTerminator isSplit isTerminator
    rw [(append_eq_nil_iff.mp none).1] at isAfter
    obtain rfl := mem_singleton.mp isAfter
    rw [Inst.defs_of_isTerminator isTerminator] at isDef
    cases isDef

/-- A value that an instruction does not read for the last time is live behind it. -/
theorem ahead_of_not_diesAt (split : (p.block b).insts = front ++ i :: back)
    (isRead : v ∈ i.reads (p.exitReads b))
    (alive : (ofProcedure p).diesAt b v front.length = false) :
    ((ofProcedure p).ahead p b back).contains v = true := by
  refine ahead_of_read ?_ fun isDef => ?_
  · rw [diesAt, Bool.and_eq_false_iff, Bool.not_eq_false', beq_eq_false_iff_ne] at alive
    refine alive.symm.imp_left fun other => ?_
    obtain ⟨k, isLast, later⟩ := exists_lastUse split isRead
    obtain ⟨j, isInst, isRead⟩ := exists_reader isLast
    have behind : front.length ≠ k := fun same => other (same ▸ isLast)
    refine ⟨j, mem_of_getElem? (i := k - (front.length + 1)) ?_, isRead⟩
    rw [split, append_cons, getElem?_append_right (by simp; omega)] at isInst
    simpa using isInst
  · obtain ⟨j, mem, isHere⟩ := mem_flatMap.mp isDef
    obtain ⟨before, after, rfl⟩ := append_of_mem mem
    have isSplit : (p.block b).insts = (front ++ i :: before) ++ j :: after := by
      rw [split, append_assoc]
      rfl
    exact not_read_before wf single dominate isSplit isHere i (by simp) isRead

end Ranges

variable {d : BlockId} {seen : List BlockId}

/-! ## Dominance -/

theorem dominates_of_upcoming (wf : p.WellFormed) (dominate : p.DefsDominate)
    {distance : Nat} (coming : p.Upcoming v seen b (p.block b).insts distance)
    (isDef : v ∈ (p.block c).insts.flatMap Inst.defs) : p.StrictlyDominates c b := by
  generalize whole : (p.block b).insts = rest at coming
  induction coming with
  | @read b front back i unset isRead =>
    rcases Inst.mem_reads.mp isRead with isUse | ⟨isTerminator, isExit⟩
    · have isInst : (p.block b).insts[front.length]? = some i := by simp [whole]
      refine (dominate.reads b _ i isInst v isUse c isDef).resolve_left ?_
      rw [whole, take_left]
      exact unset
    · obtain ⟨s, edge, phi, isPhi, -, slot, isPred, isArg⟩ := mem_exitReads.mp isExit
      obtain ⟨shape⟩ := wf.shape s (wf.inside b s edge).1
      refine ⟨dominate.phis s phi (shape.mem_phis.mpr isPhi) slot b v isPred isArg c isDef, ?_⟩
      rintro rfl
      obtain ⟨shape⟩ := wf.shape c (lt_size_of_mem_insts (whole ▸ by simp : i ∈ (p.block c).insts))
      obtain rfl := shape.eq_nil_of_isTerminator whole isTerminator
      rw [whole, flatMap_append, mem_append] at isDef
      simpa [Inst.defs_of_isTerminator isTerminator] using isDef.resolve_left unset
  | @onward b s rest seen distance unset edge later ih =>
    obtain ⟨dominates, other⟩ := ih rfl
    refine ⟨dominates.pred other edge, ?_⟩
    rintro rfl
    exact unset (whole ▸ isDef)

section

variable (wf : p.WellFormed) (ordered : p.Ordered)
  (live : ((ofProcedure p).inOf b).contains v = true)

include wf ordered live

theorem dominates_of_inOf (dominate : p.DefsDominate)
    (isDef : v ∈ (p.block c).insts.flatMap Inst.defs) : p.StrictlyDominates c b := by
  obtain ⟨-, distance, seen, -, coming⟩ := (level_ofProcedure wf ordered b).start.only v live
  exact dominates_of_upcoming wf dominate coming isDef

/-- What is live at the start of a block is live at the end of every block that dominates it
strictly and is dominated by the definition. -/
theorem outOf_dominator (bounded : p.Bounded) (path : p.Path seen b) (simple : seen.Nodup)
    (onPath : d ∈ seen)
    (other : d ≠ b) (above : ∀ c, v ∈ (p.block c).insts.flatMap Inst.defs → p.Dominates c d) :
    ((ofProcedure p).outOf d).contains v = true := by
  induction path with
  | start => exact absurd (mem_singleton.mp onPath) other
  | @extend seen q b path edge ih =>
    rw [nodup_cons] at simple
    have onPath := (mem_cons.mp onPath).resolve_left other
    have atEnd : ((ofProcedure p).outOf q).contains v = true :=
      (contains_outOf wf ordered bounded).mpr (.inr ⟨b, edge, live⟩)
    by_cases here : d = q
    · exact here ▸ atEnd
    refine ih ?_ simple.2 onPath here
    rw [inOf_eq_ahead wf ordered bounded]
    refine ahead_of_read (.inr atEnd) fun isDef => ?_
    -- A definition in `q` would be on the path both in front of `d` and behind it.
    obtain ⟨front, rest, parts, cut⟩ := path.cut onPath
    have isAbove := (mem_cons.mp (above q isDef _ cut)).resolve_left fun same => here same.symm
    obtain ⟨tail, isHead⟩ := path.head
    rw [isHead] at parts simple
    cases front with
    | nil => exact here (List.cons.inj parts).1.symm
    | cons first front =>
      obtain ⟨rfl, rfl⟩ := List.cons.inj parts
      exact (nodup_cons.mp simple.2).1 (mem_append_right _ (mem_cons_of_mem _ isAbove))

theorem outOf_parent (bounded : p.Bounded) (dominate : p.DefsDominate) {t : DomTree}
    (dom : t.Exact p)
    (isParent : t.idom? b = some d) : ((ofProcedure p).outOf d).contains v = true := by
  obtain ⟨lt, notEntry⟩ := dom.lt_of_parent isParent
  obtain ⟨strictly, nearest⟩ := (dom.parent_iff lt notEntry).mp isParent
  obtain ⟨seen, path⟩ := ordered.exists_path lt
  obtain ⟨few, path, simple, -⟩ := path.simple
  refine outOf_dominator wf ordered live bounded path simple (strictly.1 _ path) strictly.2
    fun c isDef => ?_
  by_cases here : c = d
  · exact here ▸ .refl c
  · exact (nearest c (dominates_of_inOf wf ordered live dominate isDef) here).1

end

/-! ## Live sets and paths -/

/-- Live sets tell which reads lie ahead, and one more round leaves them as they are. -/
structure Exact (l : Liveness) (p : Procedure) : Prop where
  stable : round p (l.liveIn, l.liveOut) = (l.liveIn, l.liveOut)
  starts : ∀ b v, (l.inOf b).contains v = true ↔
    ∃ seen distance, p.Upcoming v seen b (p.block b).insts distance
  ends : ∀ b v, (l.outOf b).contains v = true ↔
    (∃ s ∈ (p.block b).succs, ∃ phi ∈ (p.block s).phis, phi.inMemory = false ∧
      ∃ slot : Nat, (p.block s).preds[slot]? = some b ∧ phi.args[slot]? = some (some v)) ∨
    ∃ s ∈ (p.block b).succs, (l.inOf s).contains v = true
  positions : ∀ b, (l.beforeEach p b).map Prod.fst = (List.range (p.block b).insts.length).reverse
  points : ∀ b k set, (k, set) ∈ l.beforeEach p b → ∀ v, set.contains v = true ↔
    ∃ seen distance, p.Upcoming v seen b ((p.block b).insts.drop k) distance
  /-- Where definitions are unique and above their reads, the last read is where a variable dies. -/
  dies : p.SingleAssignment → p.DefsDominate → ∀ b v k, l.diesAt b v k = true ↔
    ∃ i, (p.block b).insts[k]? = some i ∧ v ∈ i.reads (p.exitReads b) ∧
      (∀ seen distance, ¬p.Upcoming v seen b ((p.block b).insts.drop (k + 1)) distance) ∧
      (k + 1 = (p.block b).insts.length → (l.outOf b).contains v = false)

/-- A variable dies at an instruction that reads it, if it is not live behind that instruction. -/
theorem diesAt_iff (wf : p.WellFormed) (single : p.SingleAssignment) (dominate : p.DefsDominate)
    {k : Nat} :
    (ofProcedure p).diesAt b v k = true ↔ ∃ i, (p.block b).insts[k]? = some i ∧
    v ∈ i.reads (p.exitReads b) ∧
      ((ofProcedure p).ahead p b ((p.block b).insts.drop (k + 1))).contains v = false := by
  have parts : ∀ {i}, (p.block b).insts[k]? = some i → (p.block b).insts =
      (p.block b).insts.take k ++ i :: (p.block b).insts.drop (k + 1) ∧
      ((p.block b).insts.take k).length = k := by
    intro i isInst
    obtain ⟨lt, rfl⟩ := List.getElem?_eq_some_iff.mp isInst
    exact ⟨by simp, by simp; omega⟩
  constructor
  · intro dies
    have isLast := dies
    rw [diesAt, Bool.and_eq_true, beq_iff_eq] at isLast
    obtain ⟨i, isInst, isRead⟩ := exists_reader isLast.2
    obtain ⟨split, here⟩ := parts isInst
    exact ⟨i, isInst, isRead, not_ahead_of_diesAt split (here.symm ▸ dies)⟩
  · rintro ⟨i, isInst, isRead, dead⟩
    obtain ⟨split, here⟩ := parts isInst
    refine Bool.of_not_eq_false fun alive => ?_
    rw [ahead_of_not_diesAt wf single dominate split isRead (here.symm ▸ alive)] at dead
    cases dead

/-- The live sets of a flow graph are exact. -/
theorem exact_liveSets (wf : p.WellFormed) (ordered : p.Ordered) (bounded : p.Bounded) :
    (ofProcedure p).Exact p := by
  have ahead : ∀ b v k, ((ofProcedure p).ahead p b ((p.block b).insts.drop k)).contains v = true ↔
      _ := fun b v k =>
    contains_ahead wf ordered bounded (take_append_drop k _).symm
  refine ⟨round_ofProcedure wf ordered bounded, fun b v => contains_inOf wf ordered bounded,
    fun b v => ?_, fun b => ?_, fun b k set mem v => ?_, fun single dominate b v k => ?_⟩
  · rw [contains_outOf wf ordered bounded, mem_exitReads]
  · simp [beforeEach_eq, Function.comp_def]
  · rw [beforeEach_eq, mem_reverse, mem_map] at mem
    obtain ⟨_, lt, same⟩ := mem
    obtain ⟨rfl, rfl⟩ := Prod.mk.inj same
    refine (ahead b v _).trans (or_iff_left fun empty => ?_)
    exact Nat.not_le_of_lt (mem_range.mp lt) (drop_eq_nil_iff.mp empty.1)
  · rw [diesAt_iff wf single dominate]
    refine exists_congr fun i => and_congr_right fun isInst => and_congr_right fun _ => ?_
    obtain ⟨lt, -⟩ := List.getElem?_eq_some_iff.mp isInst
    have last : (p.block b).insts.drop (k + 1) = [] ↔ k + 1 = (p.block b).insts.length := by
      rw [drop_eq_nil_iff]
      omega
    constructor
    · intro dead
      refine ⟨fun seen distance coming => ?_, fun isLast => ?_⟩
      · rw [(ahead b v (k + 1)).mpr (.inl ⟨seen, distance, coming⟩)] at dead
        cases dead
      · rw [last.mpr isLast] at dead
        exact dead
    · rintro ⟨never, atEnd⟩
      refine Bool.eq_false_iff.mpr fun live => ?_
      rcases (ahead b v (k + 1)).mp live with ⟨seen, distance, coming⟩ | ⟨empty, isExit⟩
      · exact never seen distance coming
      · have dead := atEnd (last.mp empty)
        rw [(contains_outOf wf ordered bounded).mpr (.inl isExit)] at dead
        cases dead

/-- In the loop whose phi is in memory, the argument is awaited from the start. The first value of
the counter is not awaited where the phi would take it, and the counter dies where it is added
to. -/
theorem exact_liveSets_countingInMemory : countingInMemory.WellFormed ∧ countingInMemory.Ordered ∧
    countingInMemory.Bounded ∧ (ofProcedure countingInMemory).Exact countingInMemory ∧
    (∃ seen distance, countingInMemory.Upcoming 0 seen 0
      (countingInMemory.block 0).insts distance) ∧
    (∀ seen distance, ¬countingInMemory.Upcoming 2 seen 2
      (countingInMemory.block 2).insts distance) ∧
    ∃ i, (countingInMemory.block 2).insts[1]? = some i ∧
      3 ∈ i.reads (countingInMemory.exitReads 2) ∧
      ∀ seen distance, ¬countingInMemory.Upcoming 3 seen 2
        ((countingInMemory.block 2).insts.drop 2) distance := by
  have isExact := exact_liveSets wellFormed_countingInMemory ordered_countingInMemory
    bounded_countingInMemory
  have single : countingInMemory.SingleAssignment := ⟨by decide, by decide⟩
  refine ⟨wellFormed_countingInMemory, ordered_countingInMemory, bounded_countingInMemory,
    isExact, (isExact.starts 0 0).mp (by decide +kernel), fun seen distance coming => ?_, ?_⟩
  · have live := (isExact.starts 2 2).mpr ⟨seen, distance, coming⟩
    revert live
    decide +kernel
  · obtain ⟨i, isInst, isRead, never, -⟩ :=
      (isExact.dies single dominate_countingInMemory 2 3 1).mp (by decide +kernel)
    exact ⟨i, isInst, isRead, never⟩

end Liveness

end ArmBackend
