import ArmBackend.Liveness
import ArmBackend.Proofs.Fixpoint
import ArmBackend.Proofs.FlowGraph.Form

/-!
Contract: a variable is live where a read of it lies ahead.

A path leaves a point of a block and meets a read of a variable before any definition of it. What a
register phi takes from a block is read by the terminator of that block. After `k` rounds the live
sets hold every variable that a path through at most `k` blocks leads to a read of, and never
another one. A path through more blocks than there are can be shortened, so the rounds end with sets
that one more of them leaves as they are.

Owns: such paths with the blocks they visit and their lengths, membership in live sets, in a block,
between its instructions and between blocks, and when a variable is not live behind its last read.
Does not own: which variables interfere.
-/

namespace ArmBackend

open List Procedure

theorem Inst.mem_reads {i : Inst} {exitReads : List VarId} {v : VarId} :
    v ∈ i.reads exitReads ↔ v ∈ i.uses ∨ (i.isTerminator = true ∧ v ∈ exitReads) := by
  rw [Inst.reads, mem_eraseDups, mem_append]
  by_cases last : i.isTerminator = true <;> simp [last]

/-- The distance to a read in the instructions, or behind them, with no definition in between. -/
def ReadAhead (exitReads : List VarId) (v : VarId) (insts : List Inst) (behind : Nat → Prop)
    (d : Nat) : Prop :=
  (∃ front i back, insts = front ++ i :: back ∧ v ∉ front.flatMap Inst.defs ∧
    v ∈ i.reads exitReads ∧
    d = front.length) ∨ (v ∉ insts.flatMap Inst.defs ∧ ∃ e, behind e ∧ d = insts.length + e)

section Block

variable {exitReads : List VarId} {v : VarId} {i : Inst} {insts rest : List Inst}
  {behind behind' : Nat → Prop} {d : Nat}

theorem ReadAhead.mono (ahead : ReadAhead exitReads v insts behind d)
    (more : ∀ e, behind e → behind' e) : ReadAhead exitReads v insts behind' d :=
  ahead.imp_right fun ⟨unset, e, isBehind, same⟩ => ⟨unset, e, more e isBehind, same⟩

theorem readAhead_cons :
    ReadAhead exitReads v (i :: rest) behind d ↔ (v ∈ i.reads exitReads ∧ d = 0) ∨
    (v ∉ i.defs ∧ ∃ e, ReadAhead exitReads v rest behind e ∧ d = e + 1) := by
  constructor
  · rintro (⟨front, j, back, split, unset, isRead, rfl⟩ | ⟨unset, e, isBehind, rfl⟩)
    · cases front with
      | nil =>
        obtain ⟨rfl, rfl⟩ := List.cons.inj split
        exact .inl ⟨isRead, rfl⟩
      | cons first front =>
        obtain ⟨rfl, rfl⟩ := List.cons.inj split
        rw [flatMap_cons, mem_append, not_or] at unset
        exact .inr ⟨unset.1, _, .inl ⟨front, j, back, rfl, unset.2, isRead, rfl⟩, rfl⟩
    · rw [flatMap_cons, mem_append, not_or] at unset
      exact .inr ⟨unset.1, _, .inr ⟨unset.2, e, isBehind, rfl⟩, by rw [length_cons]; omega⟩
  · rintro (⟨isRead, rfl⟩ | ⟨other, e,
      ⟨front, j, back, rfl, unset, isRead, rfl⟩ | ⟨unset, e, isBehind, rfl⟩, rfl⟩)
    · exact .inl ⟨[], i, rest, rfl, not_mem_nil, isRead, rfl⟩
    · exact .inl ⟨i :: front, j, back, rfl, by simp [other, unset], isRead, rfl⟩
    · exact .inr ⟨by simp [other, unset], e, isBehind, by rw [length_cons]; omega⟩

end Block

namespace Procedure

/-- From where `rest` is left of a block, a path through the blocks `seen`, the first of which is
that block, meets a read of the variable behind `distance` instructions, which do not define it. -/
inductive Upcoming (p : Procedure) (v : VarId) : List BlockId → BlockId → List Inst → Nat → Prop
  | read {b : BlockId} {front back : List Inst} {i : Inst} (unset : v ∉ front.flatMap Inst.defs)
      (isRead : v ∈ i.reads (p.exitReads b)) : Upcoming p v [b] b (front ++ i :: back) front.length
  | onward {b s : BlockId} {rest : List Inst} {seen : List BlockId} {distance : Nat}
      (unset : v ∉ rest.flatMap Inst.defs) (edge : s ∈ (p.block b).succs)
      (later : Upcoming p v seen s (p.block s).insts distance) :
      Upcoming p v (b :: seen) b rest (rest.length + distance)

variable {p : Procedure} {b c : BlockId} {v : VarId} {seen : List BlockId} {distance : Nat}

/-- A phi in a register reads its argument at the end of the predecessor. -/
theorem mem_exitReads :
    v ∈ p.exitReads b ↔ ∃ s ∈ (p.block b).succs, ∃ phi ∈ (p.block s).phis, phi.inMemory = false ∧
      ∃ slot : Nat, (p.block s).preds[slot]? = some b ∧ phi.args[slot]? = some (some v) := by
  simp only [exitReads, mem_eraseDups, mem_flatMap]
  constructor
  · rintro ⟨s, edge, ⟨pred, slot⟩, isPred, mem⟩
    dsimp only at mem
    split at mem
    · rename_i here
      subst here
      obtain ⟨phi, isPhi, isArg⟩ := mem_filterMap.mp mem
      split at isArg
      · cases isArg
      · rename_i inRegister
        exact ⟨s, edge, phi, isPhi, Bool.eq_false_iff.mpr inRegister, slot,
          mk_mem_zipIdx_iff_getElem?.mp isPred, Option.join_eq_some_iff.mp isArg⟩
    · cases mem
  · rintro ⟨s, edge, phi, isPhi, inRegister, slot, isPred, isArg⟩
    refine ⟨s, edge, (b, slot), mk_mem_zipIdx_iff_getElem?.mpr isPred, ?_⟩
    rw [if_pos rfl]
    refine mem_filterMap.mpr ⟨phi, isPhi, ?_⟩
    rw [inRegister, isArg]
    rfl

/-- What phis take from a block is read by its terminator. -/
theorem WellFormed.exit_read (wf : p.WellFormed) (isExit : v ∈ p.exitReads b) :
    ∃ front last, (p.block b).insts = front ++ [last] ∧ v ∈ last.reads (p.exitReads b) := by
  obtain ⟨s, edge, -⟩ := mem_exitReads.mp isExit
  obtain ⟨shape⟩ := wf.shape b (lt_size_of_mem_succs edge)
  exact ⟨_, shape.last, shape.insts.trans (append_assoc ..).symm,
    Inst.mem_reads.mpr (.inr ⟨shape.exits.isTerminator, isExit⟩)⟩

theorem Bounded.reads (bounded : p.Bounded) {i : Inst} (mem : i ∈ (p.block b).insts)
    (isRead : v ∈ i.reads (p.exitReads b)) : v < p.nextVar := by
  rcases Inst.mem_reads.mp isRead with isUse | ⟨-, isExit⟩
  · exact bounded.uses b (lt_size_of_mem_insts mem) i mem v isUse
  · obtain ⟨s, -, phi, isPhi, -, slot, -, isArg⟩ := mem_exitReads.mp isExit
    have isPhi : Inst.phi phi ∈ (p.block s).insts := by
      rw [Block.insts_eq]
      exact mem_append_left _ (mem_map_of_mem isPhi)
    exact bounded.phiArgs s (lt_size_of_mem_insts isPhi) phi isPhi v (mem_of_getElem? isArg)

/-! ## Paths from the start of a block -/

namespace Upcoming

section

variable (coming : p.Upcoming v seen b (p.block b).insts distance)

include coming

theorem lt_size : b < p.blocks.size := by
  generalize whole : (p.block b).insts = rest at coming
  cases coming with
  | read unset isRead => exact lt_size_of_mem_insts (whole ▸ mem_append_right _ mem_cons_self)
  | onward unset edge later => exact lt_size_of_mem_succs edge

theorem exists_read : ∃ c, ∃ i ∈ (p.block c).insts, v ∈ i.reads (p.exitReads c) := by
  generalize whole : (p.block b).insts = rest at coming
  induction coming with
  | @read b front back i unset isRead => exact ⟨b, i, whole ▸ by simp, isRead⟩
  | onward unset edge later ih => exact ih rfl

theorem declared (bounded : p.Bounded) : v < p.vars.size := by
  obtain ⟨c, i, mem, isRead⟩ := coming.exists_read
  exact bounded.reads mem isRead

private theorem cut (mem : c ∈ seen) :
    ∃ front few near, seen = front ++ few ∧ near ≤ distance ∧
      p.Upcoming v few c (p.block c).insts near := by
  generalize whole : (p.block b).insts = rest at coming
  induction coming with
  | read unset isRead =>
    obtain rfl := mem_singleton.mp mem
    exact ⟨[], _, _, rfl, Nat.le_refl _, whole ▸ .read unset isRead⟩
  | @onward b s rest seen distance unset edge later ih =>
    rcases mem_cons.mp mem with rfl | inLater
    · subst whole
      exact ⟨[], _, _, rfl, Nat.le_refl _, .onward unset edge later⟩
    · obtain ⟨front, few, near, rfl, le, cut⟩ := ih inLater rfl
      exact ⟨b :: front, few, near, rfl, Nat.le_trans le (Nat.le_add_left ..), cut⟩

private theorem simple (wf : p.WellFormed) :
    ∃ few near, few.Nodup ∧ (∀ c ∈ few, c < p.blocks.size) ∧
      near ≤ distance ∧ p.Upcoming v few b (p.block b).insts near := by
  have lt := coming.lt_size
  generalize whole : (p.block b).insts = rest at coming
  induction coming with
  | read unset isRead =>
    exact ⟨_, _, by simp, by simpa using lt, Nat.le_refl _, .read unset isRead⟩
  | @onward b s rest seen distance unset edge later ih =>
    obtain ⟨few, near, nodup, inside, le, coming⟩ := ih (wf.inside b s edge).1 rfl
    by_cases visited : b ∈ few
    · obtain ⟨front, fewer, nearer, rfl, le', coming⟩ := coming.cut visited
      refine ⟨fewer, nearer, (nodup_append.mp nodup).2.1, fun c mem => ?_, by omega, whole ▸ coming⟩
      exact inside c (mem_append_right _ mem)
    · exact ⟨b :: few, _, nodup_cons.mpr ⟨visited, nodup⟩, forall_mem_cons.mpr ⟨lt, inside⟩,
        Nat.add_le_add_left le _, .onward unset edge coming⟩

end

end Upcoming

/-- The distances of paths from the start of the block through at most `k` blocks. -/
def ReadWithin (p : Procedure) (v : VarId) (b : BlockId) (k d : Nat) : Prop :=
  ∃ seen, seen.length ≤ k ∧ p.Upcoming v seen b (p.block b).insts d

/-- The distances of paths from the end of the block through fewer than `k` more blocks. -/
def ReadBehind (p : Procedure) (v : VarId) (b : BlockId) (k d : Nat) : Prop :=
  ∃ s ∈ (p.block b).succs, ∃ seen, seen.length < k ∧ p.Upcoming v seen s (p.block s).insts d

section Few

variable {j k d : Nat}

theorem ReadWithin.mono (lt : p.ReadWithin v b j d) (le : j ≤ k) : p.ReadWithin v b k d := by
  obtain ⟨seen, few, coming⟩ := lt
  exact ⟨seen, Nat.le_trans few le, coming⟩

theorem ReadBehind.mono (behind : p.ReadBehind v b j d) (le : j ≤ k) : p.ReadBehind v b k d := by
  obtain ⟨s, edge, seen, few, coming⟩ := behind
  exact ⟨s, edge, seen, Nat.lt_of_lt_of_le few le, coming⟩

theorem exists_readWithin :
    (∃ k, p.ReadWithin v b k d) ↔ ∃ seen, p.Upcoming v seen b (p.block b).insts d :=
  ⟨fun ⟨_, seen, _, coming⟩ => ⟨seen, coming⟩,
    fun ⟨seen, coming⟩ => ⟨_, seen, Nat.le_refl _, coming⟩⟩

theorem not_readWithin_zero : ¬p.ReadWithin v b 0 d := by
  rintro ⟨seen, few, coming⟩
  rw [length_eq_zero_iff.mp (Nat.le_zero.mp few)] at coming
  cases coming

theorem readBehind_succ :
    p.ReadBehind v b (k + 1) d ↔ ∃ s ∈ (p.block b).succs, p.ReadWithin v s k d := by
  simp only [ReadBehind, ReadWithin, Nat.lt_succ_iff]

/-- From the start of a block a path meets a read there, or goes on from its end. -/
theorem readWithin_succ : p.ReadWithin v b (k + 1) d ↔
    ReadAhead (p.exitReads b) v (p.block b).insts (p.ReadBehind v b (k + 1)) d := by
  constructor
  · rintro ⟨seen, few, coming⟩
    generalize whole : (p.block b).insts = rest at coming
    cases coming with
    | read unset isRead => exact .inl ⟨_, _, _, rfl, unset, isRead, rfl⟩
    | onward unset edge later => exact .inr ⟨unset, _, ⟨_, edge, _, few, later⟩, rfl⟩
  · rintro (⟨front, i, back, split, unset, isRead, rfl⟩ | ⟨unset, e,
      ⟨s, edge, seen, few, later⟩, rfl⟩)
    · exact ⟨[b], Nat.succ_le_succ (Nat.zero_le k), split ▸ .read unset isRead⟩
    · exact ⟨b :: seen, few, .onward unset edge later⟩

/-- As many blocks are enough as there are. -/
theorem Upcoming.readWithin (wf : p.WellFormed)
    (coming : p.Upcoming v seen b (p.block b).insts distance)
    (enough : p.blocks.size ≤ k) : ∃ near ≤ distance, p.ReadWithin v b k near := by
  obtain ⟨few, near, nodup, lt, le, coming⟩ := coming.simple wf
  exact ⟨near, le, few, Nat.le_trans (Tables.length_le_of_nodup nodup lt) enough, coming⟩

end Few

end Procedure

variable {exitReads : List VarId} {v : VarId}

/-! ## One block -/

theorem Inst.contains_liveBefore {i : Inst} {after : IndexSet} :
    (i.liveBefore exitReads after).contains v = true ↔
      v ∈ i.reads exitReads ∨ (after.contains v = true ∧ v ∉ i.defs) := by
  have erased : ∀ (defs : List VarId) (live : IndexSet),
      (defs.foldl IndexSet.erase live).contains v = true ↔ live.contains v = true ∧ v ∉ defs := by
    intro defs
    induction defs with
    | nil => simp
    | cons d defs ih =>
      intro live
      rw [foldl_cons, ih, IndexSet.contains_erase, mem_cons, not_or,
        Bool.and_eq_true, Bool.not_eq_true', decide_eq_false_iff_not, and_assoc, eq_comm (a := d)]
  rw [liveBefore, IndexSet.contains_insertMany, Bool.or_eq_true, List.contains_iff_mem, erased,
    or_comm]

private theorem foldr_liveBefore (exitReads : List VarId) (out : IndexSet) (insts : List Inst) :
    insts.foldr (fun i live => i.liveBefore exitReads live) out =
      (livePoints exitReads out insts).headD out := by
  induction insts with
  | nil => rfl
  | cons i rest ih =>
    rw [foldr_cons, ih]
    rfl

/-- What is live in front is read before it is defined, or live behind and not defined. -/
theorem live_iff {out : IndexSet} {insts : List Inst} :
    ((livePoints exitReads out insts).headD out).contains v = true ↔
      ∃ d, ReadAhead exitReads v insts (fun _ => out.contains v = true) d := by
  induction insts with
  | nil => simp [livePoints, ReadAhead]
  | cons i rest ih =>
    refine Inst.contains_liveBefore.trans ⟨?_, ?_⟩
    · rintro (isRead | ⟨later, other⟩)
      · exact ⟨0, readAhead_cons.mpr (.inl ⟨isRead, rfl⟩)⟩
      · obtain ⟨d, ahead⟩ := ih.mp later
        exact ⟨d + 1, readAhead_cons.mpr (.inr ⟨other, d, ahead, rfl⟩)⟩
    · rintro ⟨d, ahead⟩
      rcases readAhead_cons.mp ahead with ⟨isRead, -⟩ | ⟨other, e, ahead, -⟩
      · exact .inl isRead
      · exact .inr ⟨ih.mpr ⟨e, ahead⟩, other⟩

namespace Liveness

variable {p : Procedure} {b : BlockId} {v : VarId}
variable {j k : Nat} {sets : Sets}

theorem contains_atExit : (atExit p sets b).contains v = true ↔ v ∈ p.exitReads b ∨
    (sets.2.getD b .empty).contains v = true ∨
      ∃ s ∈ (p.block b).succs, (sets.1.getD s .empty).contains v = true := by
  have union : ∀ (succs : List BlockId) (live : IndexSet),
      (succs.foldl (fun (live : IndexSet) s => live.union (sets.1.getD s .empty)) live).contains v =
        true ↔ live.contains v = true ∨ ∃ s ∈ succs, (sets.1.getD s .empty).contains v = true := by
    intro succs
    induction succs with
    | nil => simp
    | cons s succs ih =>
      intro live
      rw [foldl_cons, ih, IndexSet.contains_union]
      simp [or_assoc]
  rw [atExit, IndexSet.contains_insertMany, Bool.or_eq_true, List.contains_iff_mem, union, or_comm]

theorem updateBlock_eq (sets : Sets) : updateBlock p sets b =
    (sets.1.setIfInBounds b ((livePoints (p.exitReads b) (atExit p sets b) (p.block b).insts).headD
      (atExit p sets b)), sets.2.setIfInBounds b (atExit p sets b)) := by
  rw [← foldr_liveBefore]
  rfl

/-! ## Rounds -/

/-- The block, or what lies behind it, awaits the variable: its end reads it, or a path from there
through fewer than `k` blocks leads to a read of it. -/
def AwaitedBehind (p : Procedure) (b : BlockId) (k : Nat) (v : VarId) : Prop :=
  0 < k ∧ (v ∈ p.exitReads b ∨ ∃ d, p.ReadBehind v b k d)

/-- The set has the variables that are awaited on the way of `k` blocks, and only such as are
awaited. -/
structure Holds (awaited : Nat → VarId → Prop) (k : Nat) (set : IndexSet) : Prop where
  all : ∀ v, awaited k v → set.contains v = true
  only : ∀ v, set.contains v = true → ∃ j, awaited j v

/-- What `k` rounds find out about a block. -/
structure Level (p : Procedure) (k : Nat) (sets : Sets) (b : BlockId) : Prop where
  sizes : sets.1.size = p.blocks.size ∧ sets.2.size = p.blocks.size
  start : Holds (fun k v => ∃ d, p.ReadWithin v b k d) k (sets.1.getD b .empty)
  finish : Holds (AwaitedBehind p b) k (sets.2.getD b .empty)

theorem AwaitedBehind.mono (awaited : AwaitedBehind p b j v) (le : j ≤ k) : AwaitedBehind p b k v :=
  ⟨Nat.lt_of_lt_of_le awaited.1 le, awaited.2.imp_right fun ⟨d, behind⟩ => ⟨d, behind.mono le⟩⟩

theorem Level.lower (level : Level p k sets b) (le : j ≤ k) : Level p j sets b :=
  ⟨level.sizes, ⟨fun v ⟨d, lt⟩ => level.start.all v ⟨d, lt.mono le⟩, level.start.only⟩,
    ⟨fun v awaited => level.finish.all v (awaited.mono le), level.finish.only⟩⟩

theorem level_empty (p : Procedure) (b : BlockId) :
    Level p 0 (Array.replicate p.blocks.size .empty, Array.replicate p.blocks.size .empty) b := by
  have none : ∀ v, ((Array.replicate p.blocks.size IndexSet.empty).getD b .empty).contains v =
      false := by
    intro v
    rw [Tables.getD_replicate]
    split <;> exact IndexSet.contains_empty v
  refine ⟨by simp, ⟨fun v ⟨d, lt⟩ => absurd lt not_readWithin_zero, fun v live => ?_⟩,
    ⟨fun v awaited => absurd awaited.1 (Nat.lt_irrefl 0), fun v live => ?_⟩⟩ <;>
  · rw [none] at live
    cases live

/-- Recomputing a block looks one block further. -/
theorem level_updateBlock (wf : p.WellFormed) (known : ∀ c, Level p k sets c)
    (lt : b < p.blocks.size) : Level p (k + 1) (updateBlock p sets b) b := by
  obtain ⟨starts, ends⟩ := (known b).sizes
  have atEnd : Holds (AwaitedBehind p b) (k + 1) (atExit p sets b) := by
    refine ⟨fun v awaited => contains_atExit.mpr (awaited.2.imp_right ?_), fun v live => ?_⟩
    · rintro ⟨d, behind⟩
      obtain ⟨s, edge, lt⟩ := readBehind_succ.mp behind
      exact .inr ⟨s, edge, (known s).start.all v ⟨d, lt⟩⟩
    · rcases contains_atExit.mp live with isExit | old | ⟨s, edge, live⟩
      · exact ⟨1, Nat.zero_lt_one, .inl isExit⟩
      · exact (known b).finish.only v old
      · obtain ⟨j, d, lt⟩ := (known s).start.only v live
        exact ⟨j + 1, Nat.succ_pos j, .inr ⟨d, readBehind_succ.mpr ⟨s, edge, lt⟩⟩⟩
  rw [updateBlock_eq]
  refine ⟨by simpa using ⟨starts, ends⟩, ?_, ?_⟩
  · rw [Tables.getD_setIfInBounds, if_pos ⟨rfl, starts ▸ lt⟩]
    refine ⟨fun v ⟨d, lt⟩ => live_iff.mpr ⟨d, ?_⟩, fun v live => ?_⟩
    · exact (readWithin_succ.mp lt).mono
        fun e behind => atEnd.all v ⟨Nat.succ_pos k, .inr ⟨e, behind⟩⟩
    · obtain ⟨d, ⟨front, i, back, split, unset, isRead, -⟩ | ⟨unset, -, live, -⟩⟩ :=
        live_iff.mp live
      · exact ⟨1, _, readWithin_succ.mpr (.inl ⟨front, i, back, split, unset, isRead, rfl⟩)⟩
      · obtain ⟨j, -, isExit | ⟨e, behind⟩⟩ := atEnd.only v live
        · obtain ⟨front, last, split, isRead⟩ := wf.exit_read isExit
          rw [split, flatMap_append, mem_append, not_or] at unset
          exact ⟨1, _, readWithin_succ.mpr (.inl ⟨front, last, [], split, unset.1, isRead, rfl⟩)⟩
        · exact ⟨j + 1, _, readWithin_succ.mpr (.inr ⟨unset, e, behind.mono (Nat.le_succ j), rfl⟩)⟩
  · rw [Tables.getD_setIfInBounds, if_pos ⟨rfl, ends ▸ lt⟩]
    exact atEnd

theorem level_of_ne {c : BlockId} (other : c ≠ b) (level : Level p k sets c) :
    Level p k (updateBlock p sets b) c := by
  rw [updateBlock_eq]
  refine ⟨by simpa using level.sizes, ?_, ?_⟩ <;>
    rw [Tables.getD_setIfInBounds, if_neg fun both => other both.1.symm]
  · exact level.start
  · exact level.finish

theorem level_round (wf : p.WellFormed) (ordered : p.Ordered)
    (known : ∀ b, Level p k sets b) : ∀ b, Level p (k + 1) (round p sets) b := by
  have raised := foldl_levels _ (fun b mem sets known => level_updateBlock wf known
    ((ordered.mem b).mp mem)) (fun _ _ level => level.lower (Nat.le_succ k))
      (fun _ _ _ _ => level_of_ne) sets known
  intro b
  refine raised b ?_
  by_cases lt : b < p.blocks.size
  · exact .inl ((ordered.mem b).mpr lt)
  -- Nothing lies ahead of a block that is not there.
  · refine .inr ⟨(known b).sizes, ⟨fun v ⟨d, _, _, coming⟩ => absurd coming.lt_size lt,
      (known b).start.only⟩, ⟨fun v awaited => ?_, (known b).finish.only⟩⟩
    obtain ⟨-, isExit | ⟨-, s, edge, -⟩⟩ := awaited
    · obtain ⟨s, edge, -⟩ := mem_exitReads.mp isExit
      exact absurd (lt_size_of_mem_succs edge) lt
    · exact absurd (lt_size_of_mem_succs edge) lt

/-! ## Live sets -/

section Exact

variable (wf : p.WellFormed) (ordered : p.Ordered)

include wf ordered

theorem level_ofProcedure : ∀ b, Level p (2 * p.blocks.size * p.vars.size + 2)
    ((ofProcedure p).liveIn, (ofProcedure p).liveOut) b := by
  have rounds := stabilize_induction (round p) (fun k sets => ∀ b, Level p k sets b)
    (fun k sets known => level_round wf ordered known) (2 * p.blocks.size * p.vars.size + 2) 0 _
    (level_empty p)
  rwa [Nat.zero_add] at rounds

theorem exists_read (live : ((ofProcedure p).outOf b).contains v = true) :
    ∃ c, ∃ i ∈ (p.block c).insts, v ∈ i.reads (p.exitReads c) := by
  obtain ⟨_, _, isExit | ⟨_, s, edge, seen, _, coming⟩⟩ :=
    (level_ofProcedure wf ordered b).finish.only v live
  · obtain ⟨front, last, split, isRead⟩ := wf.exit_read isExit
    exact ⟨b, last, split ▸ by simp, isRead⟩
  · exact coming.exists_read

variable (bounded : p.Bounded)

include bounded

omit ordered in
/-- There are as many rounds as it takes to look along every path. -/
theorem readWithin_of_upcoming {seen : List BlockId} {distance : Nat}
    (coming : p.Upcoming v seen b (p.block b).insts distance) :
    ∃ d, p.ReadWithin v b (2 * p.blocks.size * p.vars.size + 1) d := by
  have declared : 1 ≤ p.vars.size := Nat.zero_lt_of_lt (coming.declared bounded)
  have enough := Nat.mul_le_mul (Nat.le_mul_of_pos_left p.blocks.size Nat.two_pos) declared
  obtain ⟨near, -, lt⟩ := coming.readWithin wf (k := 2 * p.blocks.size * p.vars.size + 1) (by omega)
  exact ⟨near, lt⟩

/-- A variable is live at the start of a block if a path from there leads to a read of it. -/
theorem contains_inOf : ((ofProcedure p).inOf b).contains v = true ↔
    ∃ seen distance, p.Upcoming v seen b (p.block b).insts distance := by
  have level := level_ofProcedure wf ordered b
  constructor
  · intro live
    obtain ⟨-, distance, seen, -, coming⟩ := level.start.only v live
    exact ⟨seen, distance, coming⟩
  · rintro ⟨seen, distance, coming⟩
    obtain ⟨d, lt⟩ := readWithin_of_upcoming wf bounded coming
    exact level.start.all v ⟨d, lt.mono (Nat.le_succ _)⟩

omit ordered in
theorem awaitedBehind_of_edge {s : BlockId} (edge : s ∈ (p.block b).succs) {seen : List BlockId}
    {distance : Nat} (coming : p.Upcoming v seen s (p.block s).insts distance) :
    AwaitedBehind p b (2 * p.blocks.size * p.vars.size + 2) v := by
  obtain ⟨d, lt⟩ := readWithin_of_upcoming wf bounded coming
  exact ⟨Nat.succ_pos _, .inr ⟨d, readBehind_succ.mpr ⟨s, edge, lt⟩⟩⟩

/-- A variable is live at the end of a block if a phi takes it from there or if it is live at the
start of a successor. -/
theorem contains_outOf : ((ofProcedure p).outOf b).contains v = true ↔
    v ∈ p.exitReads b ∨ ∃ s ∈ (p.block b).succs, ((ofProcedure p).inOf s).contains v = true := by
  have level := level_ofProcedure wf ordered b
  simp only [contains_inOf wf ordered bounded]
  constructor
  · intro live
    obtain ⟨_, _, reason⟩ := level.finish.only v live
    exact reason.imp_right fun ⟨distance, s, edge, seen, _, coming⟩ =>
      ⟨s, edge, seen, distance, coming⟩
  · rintro (isExit | ⟨s, edge, seen, distance, coming⟩)
    · exact level.finish.all v ⟨Nat.succ_pos _, .inl isExit⟩
    · exact level.finish.all v (awaitedBehind_of_edge wf bounded edge coming)

/-- One more round leaves the live sets as they are. -/
theorem round_ofProcedure : round p ((ofProcedure p).liveIn, (ofProcedure p).liveOut) =
    ((ofProcedure p).liveIn, (ofProcedure p).liveOut) := by
  have level := level_ofProcedure wf ordered
  have next := level_round wf ordered level
  have same : ∀ {awaited : Nat → VarId → Prop} {k : Nat} {set set' : IndexSet}, Holds
      awaited k set → Holds awaited k set' → (∀ j v, awaited j v → awaited k v) → set' = set := by
    intro awaited k set set' holds holds' all
    refine IndexSet.ext_contains fun v => ⟨fun live => ?_, fun live => ?_⟩
    · obtain ⟨j, isAwaited⟩ := holds'.only v live
      exact holds.all v (all j v isAwaited)
    · obtain ⟨j, isAwaited⟩ := holds.only v live
      exact holds'.all v (all j v isAwaited)
  have next := fun b => (next b).lower (Nat.le_succ _)
  refine Prod.ext (Tables.ext_getD (next 0).sizes.1 (level 0).sizes.1 .empty fun b _ => ?_)
    (Tables.ext_getD (next 0).sizes.2 (level 0).sizes.2 .empty fun b _ => ?_)
  · refine same (level b).start (next b).start fun j v ⟨_, _, _, coming⟩ => ?_
    obtain ⟨d, lt⟩ := readWithin_of_upcoming wf bounded coming
    exact ⟨d, lt.mono (Nat.le_succ _)⟩
  · refine same (level b).finish (next b).finish fun j v ⟨_, reason⟩ => ?_
    rcases reason with isExit | ⟨_, s, edge, _, _, coming⟩
    · exact ⟨Nat.succ_pos _, .inl isExit⟩
    · exact awaitedBehind_of_edge wf bounded edge coming

end Exact

variable {back front : List Inst} {l : Liveness} {i : Inst}

/-- The live set in front of the instructions that end a block. -/
def ahead (l : Liveness) (p : Procedure) (b : BlockId) (rest : List Inst) : IndexSet :=
  (livePoints (p.exitReads b) (l.outOf b) rest).headD (l.outOf b)

theorem contains_ahead_cons {rest : List Inst} : (l.ahead p b (i :: rest)).contains v = true ↔
      v ∈ i.reads (p.exitReads b) ∨ ((l.ahead p b rest).contains v = true ∧ v ∉ i.defs) :=
  Inst.contains_liveBefore

theorem livePoints_eq (insts : List Inst) : livePoints (p.exitReads b) (l.outOf b) insts =
    (List.range insts.length).map fun k => l.ahead p b (insts.drop k) := by
  induction insts with
  | nil => rfl
  | cons i rest ih =>
    rw [length_cons, range_succ_eq_map, map_cons, map_map]
    exact congrArg (l.ahead p b (i :: rest) :: ·) ih

/-- All positions come with the sets in front of them. -/
theorem beforeEach_eq : l.beforeEach p b = ((List.range (p.block b).insts.length).map fun k =>
    (k, l.ahead p b ((p.block b).insts.drop k))).reverse := by
  rw [beforeEach, livePoints_eq]
  refine congrArg List.reverse (ext_getElem (by simp) fun k _ _ => ?_)
  simp

theorem mem_beforeEach {set : IndexSet} : set ∈ (l.beforeEach p b).map Prod.snd ++ [l.outOf b] ↔
      ∃ front back, (p.block b).insts = front ++ back ∧ set = l.ahead p b back := by
  simp only [beforeEach_eq, map_reverse, map_map, mem_append, mem_reverse, mem_map,
    mem_range, mem_singleton, Function.comp_apply]
  constructor
  · rintro (⟨k, -, rfl⟩ | rfl)
    · exact ⟨_, _, (take_append_drop k _).symm, rfl⟩
    · exact ⟨_, [], (append_nil _).symm, rfl⟩
  · rintro ⟨front, back, split, rfl⟩
    cases back with
    | nil => exact .inr rfl
    | cons i back => exact .inl ⟨front.length, by simp [split], by rw [split, drop_left]⟩

/-! ## Points of blocks -/

section Exact

variable (wf : p.WellFormed) (ordered : p.Ordered) (bounded : p.Bounded)

include wf ordered bounded

/-- A variable is live in front of some instructions if a path from there leads to a read of it. At
the end of the block it also is if a phi takes it. -/
theorem contains_ahead (split : (p.block b).insts = front ++ back) :
    ((ofProcedure p).ahead p b back).contains v = true ↔
      (∃ seen distance, p.Upcoming v seen b back distance) ∨ (back = [] ∧ v ∈ p.exitReads b) := by
  refine live_iff.trans ⟨?_, ?_⟩
  · rintro ⟨-, ⟨front, i, back, rfl, unset, isRead, -⟩ | ⟨unset, -, atEnd, -⟩⟩
    · exact .inl ⟨[b], front.length, .read unset isRead⟩
    · rcases (contains_outOf wf ordered bounded).mp atEnd with isExit | ⟨s, edge, live⟩
      · rcases eq_nil_or_concat back with none | ⟨before, last, rfl⟩
        · exact .inr ⟨none, isExit⟩
        -- What phis take is read by the terminator, the last of the instructions.
        · obtain ⟨inner, final, whole, isRead⟩ := wf.exit_read isExit
          rw [concat_eq_append] at unset split ⊢
          rw [whole, ← append_assoc] at split
          obtain rfl := singleton_inj.mp (append_inj' split rfl).2
          rw [flatMap_append, mem_append, not_or] at unset
          exact .inl ⟨[b], before.length, .read unset.1 isRead⟩
      · obtain ⟨seen, distance, coming⟩ := (contains_inOf wf ordered bounded).mp live
        exact .inl ⟨b :: seen, _, .onward unset edge coming⟩
  · rintro (⟨seen, distance, coming⟩ | ⟨rfl, isExit⟩)
    · cases coming with
      | read unset isRead => exact ⟨_, .inl ⟨_, _, _, rfl, unset, isRead, rfl⟩⟩
      | onward unset edge later =>
        refine ⟨_,
          .inr ⟨unset, 0, (contains_outOf wf ordered bounded).mpr (.inr ⟨_, edge, ?_⟩), rfl⟩⟩
        exact (contains_inOf wf ordered bounded).mpr ⟨_, _, later⟩
    · exact ⟨0, .inr ⟨not_mem_nil, 0, (contains_outOf wf ordered bounded).mpr (.inl isExit), rfl⟩⟩

theorem inOf_eq_ahead : (ofProcedure p).inOf b = (ofProcedure p).ahead p b (p.block b).insts := by
  refine IndexSet.ext_contains fun v => (contains_inOf wf ordered bounded).trans ?_
  refine (Iff.trans (contains_ahead wf ordered bounded (nil_append _).symm) ?_).symm
  refine or_iff_left ?_
  rintro ⟨empty, isExit⟩
  obtain ⟨inner, final, whole, -⟩ := wf.exit_read isExit
  simp [empty] at whole

end Exact

private theorem not_ahead_phi {phis : List Phi} {body : List Inst} {phi : Phi} (mem : phi ∈ phis) :
    (l.ahead p b (phis.map Inst.phi ++ body)).contains phi.dst = false := by
  refine Bool.eq_false_iff.mpr fun live => ?_
  induction phis with
  | nil => cases mem
  | cons first rest ih =>
    rcases contains_ahead_cons.mp live with isRead | ⟨later, notDefined⟩
    · simp [Inst.mem_reads, Inst.uses, Inst.operands, Inst.isTerminator] at isRead
    · rcases mem_cons.mp mem with rfl | inRest
      · exact notDefined (mem_singleton.mpr rfl)
      · exact ih inRest later

theorem not_live_inOf (wf : p.WellFormed) (ordered : p.Ordered) (bounded : p.Bounded) {phi : Phi}
    (mem : phi ∈ (p.block b).phis) : ((ofProcedure p).inOf b).contains phi.dst = false := by
  rw [inOf_eq_ahead wf ordered bounded, Block.insts_eq]
  exact not_ahead_phi mem

/-! ## Last reads -/

theorem reads_ofProcedure (p : Procedure) (b : BlockId) :
    (ofProcedure p).reads.getD b [] = (p.block b).insts.map (·.reads (p.exitReads b)) := by
  change ((p.blockIds.map fun b => (p.block b).insts.map (·.reads (p.exitReads b))).toArray).getD
    b [] = _
  by_cases lt : b < p.blocks.size
  · simp [blockIds, Array.getD, lt]
  · simp [blockIds, Array.getD, lt, block]
    rfl

/-- The last read of a variable that some instruction reads is there or later. -/
theorem exists_lastUse (split : (p.block b).insts = front ++ i :: back)
    (isRead : v ∈ i.reads (p.exitReads b)) :
    ∃ k, (ofProcedure p).lastUse? b v = some k ∧ front.length ≤ k := by
  unfold lastUse?
  rw [reads_ofProcedure, split, map_append, map_cons, zipIdx_append,
    zipIdx_cons, filter_append, filter_cons_of_pos (by simpa using isRead),
    length_map, Nat.zero_add]
  generalize isLater : List.filter (fun entry : List VarId × Nat => entry.1.contains v)
    ((back.map (·.reads (p.exitReads b))).zipIdx (front.length + 1)) = later
  have behind : ∀ entry ∈ later, front.length ≤ entry.2 := by
    intro entry mem
    rw [← isLater] at mem
    exact Nat.le_of_succ_le (le_snd_of_mem_zipIdx (mem_filter.mp mem).1)
  obtain ⟨last, isLast⟩ : ∃ last, (((i.reads (p.exitReads b), front.length) :: later).getLast?) =
      some last :=
    ⟨_, getLast?_eq_some_getLast (cons_ne_nil _ _)⟩
  refine ⟨last.2, by rw [getLast?_append, isLast]; rfl, ?_⟩
  rcases mem_cons.mp (mem_of_getLast? isLast) with rfl | inLater
  · exact Nat.le_refl _
  · exact behind last inLater

theorem lastUse_of_ahead (split : (p.block b).insts = front ++ back)
    (live : ((ofProcedure p).ahead p b back).contains v = true) :
    (∃ k, (ofProcedure p).lastUse? b v = some k ∧ front.length ≤ k) ∨
    ((ofProcedure p).outOf b).contains v = true := by
  obtain ⟨-, ⟨before, i, after, isBack, -, isRead, -⟩ | ⟨-, -, atEnd, -⟩⟩ := live_iff.mp live
  · rw [isBack, ← append_assoc] at split
    obtain ⟨k, isLast, later⟩ := exists_lastUse split isRead
    rw [length_append] at later
    exact .inl ⟨k, isLast, Nat.le_of_add_right_le later⟩
  · exact .inr atEnd

theorem not_ahead_of_diesAt (split : (p.block b).insts = front ++ i :: back)
    (dies : (ofProcedure p).diesAt b v front.length = true) :
    ((ofProcedure p).ahead p b back).contains v = false := by
  rw [diesAt, Bool.and_eq_true, Bool.not_eq_true', beq_iff_eq] at dies
  refine Bool.eq_false_iff.mpr fun live => ?_
  rw [append_cons] at split
  rcases lastUse_of_ahead split live with ⟨k, isLast, later⟩ | atEnd
  · rw [dies.2, Option.some.injEq] at isLast
    rw [length_append, length_singleton] at later
    omega
  · rw [dies.1] at atEnd
    cases atEnd

theorem not_ahead_of_isDeadDef (split : (p.block b).insts = front ++ back)
    (dead : (ofProcedure p).isDeadDef b v = true) :
    ((ofProcedure p).ahead p b back).contains v = false := by
  rw [isDeadDef, Bool.and_eq_true, Bool.not_eq_true', Option.isNone_iff_eq_none] at dead
  refine Bool.eq_false_iff.mpr fun live => ?_
  rcases lastUse_of_ahead split live with ⟨k, isLast, -⟩ | atEnd
  · rw [dead.2] at isLast
    cases isLast
  · rw [dead.1] at atEnd
    cases atEnd

end Liveness

end ArmBackend
