import ArmBackend.Proofs.Dominance.Frontier
import ArmBackend.Proofs.Ssa.Chains
import ArmBackend.Proofs.Ssa.Traversal

/-!
Contract: where phis are placed, and what renaming does to a procedure, without the state that it
does it with.

Owns: which phis each block has after placement, the renaming of instructions from one version map
to the next, and the fact that every block is renamed from the versions at the end of its immediate
dominator, with phi arguments that are the versions at the ends of the predecessors.
Does not own: that these versions carry the right values.
-/

namespace ArmBackend

open List

/-! ## Spreading phis -/

namespace Spread

variable {p : Procedure} {s s' : Spread} {t : DomTree} {blocks writers : List BlockId}

/-- What visiting some blocks does: they get phis, and wait if they never did. -/
structure Visits (p : Procedure) (blocks : List BlockId) (s s' : Spread) : Prop where
  phis : ∀ y, y ∈ s'.phis ↔ y ∈ s.phis ∨ y ∈ blocks
  nodup : s'.phis.Nodup
  queued : ∀ y, s'.queued.contains y = true ↔ s.queued.contains y = true ∨ y ∈ blocks
  pending : ∀ y, y ∈ s'.pending ↔ y ∈ s.pending ∨ y ∈ blocks ∧ ¬s.queued.contains y = true
  length : s'.pending.length + (Frontiers.missing p s'.queued).length =
    s.pending.length + (Frontiers.missing p s.queued).length

private theorem visits_one {y : BlockId} (lt : y < p.blocks.size) (nodup : s.phis.Nodup)
    (marked : ∀ y ∈ s.phis, s.queued.contains y = true) : Visits p [y] s (s.visit y) := by
  unfold visit
  split
  · rename_i hasPhi
    rw [List.contains_iff_mem] at hasPhi
    exact ⟨by grind, nodup, by grind, by grind, rfl⟩
  · rename_i noPhi
    rw [List.contains_iff_mem] at noPhi
    split
    · exact ⟨by grind, nodup_cons.mpr ⟨noPhi, nodup⟩, by grind, by grind, rfl⟩
    · rename_i fresh
      have new : ∀ z ∈ [y], z < p.blocks.size ∧ s.queued.contains z = false := by simp [lt, fresh]
      have shorter := Frontiers.missing_length (nodup_singleton y) new
      refine ⟨by grind, nodup_cons.mpr ⟨noPhi, nodup⟩, fun z => ?_, by grind, ?_⟩
      · rw [IndexSet.contains_insert, Bool.or_eq_true, decide_eq_true_eq, mem_singleton,
          eq_comm (a := z)]
      · rw [← shorter, length_cons, Nat.add_right_comm]
        rfl

private theorem visits (lt : ∀ y ∈ blocks, y < p.blocks.size) (nodup : s.phis.Nodup)
    (marked : ∀ y ∈ s.phis, s.queued.contains y = true) :
    Visits p blocks s (blocks.foldl visit s) := by
  induction blocks generalizing s with
  | nil => exact ⟨by simp, nodup, by simp, by grind, rfl⟩
  | cons y blocks ih =>
    rw [forall_mem_cons] at lt
    have first := visits_one lt.1 nodup marked
    have later := ih lt.2 first.nodup fun z mem => by grind [first.phis z, first.queued z]
    refine ⟨fun z => ?_, later.nodup, fun z => ?_, fun z => ?_, later.length.trans first.length⟩
    · rw [foldl_cons, later.phis, first.phis, mem_singleton, mem_cons, or_assoc]
    · rw [foldl_cons, later.queued, first.queued, mem_singleton, mem_cons, or_assoc]
    · rw [foldl_cons, later.pending, first.pending, first.queued, mem_singleton, mem_cons]
      grind

/-- What holds while phis are placed: the frontiers of all blocks that ever waited have phis, except
for those that still wait. -/
structure Sound (p : Procedure) (t : DomTree) (writers : List BlockId) (s : Spread) : Prop where
  nodup : s.phis.Nodup
  queued : ∀ b, s.queued.contains b = true ↔ b ∈ writers ∨ b ∈ s.phis
  pending : ∀ b ∈ s.pending, s.queued.contains b = true
  done : ∀ b, s.queued.contains b = true → b ∈ s.pending ∨
    ∀ y ∈ (Frontiers.ofTree p t).frontier b, y ∈ s.phis
  reached : ∀ b ∈ s.phis, ((Frontiers.ofTree p t).iterated writers).contains b = true

variable {b : BlockId} {pending phis : List BlockId} {queued : IndexSet}

private theorem Sound.visits (sound : Sound p t writers ⟨b :: pending, queued, phis⟩) :
    Visits p ((Frontiers.ofTree p t).frontier b) ⟨pending, queued, phis⟩
      (((Frontiers.ofTree p t).frontier b).foldl visit ⟨pending, queued, phis⟩) :=
  Spread.visits (fun _ mem => (Frontiers.lt_of_mem_frontier mem).1) sound.nodup fun y mem =>
    (sound.queued y).mpr (.inr mem)

private theorem Sound.visit (sound : Sound p t writers ⟨b :: pending, queued, phis⟩) :
    Sound p t writers
      (((Frontiers.ofTree p t).frontier b).foldl Spread.visit ⟨pending, queued, phis⟩) := by
  have visits := sound.visits
  have closure := Frontiers.closure_iterated (p := p) (t := t) writers
  have isQueued := (sound.queued b).mp (sound.pending b mem_cons_self)
  refine ⟨visits.nodup, fun c => ?_, fun c mem => ?_, fun c mem => ?_, fun c mem => ?_⟩
  · rw [visits.queued, visits.phis, sound.queued, or_assoc]
  · rw [visits.queued]
    exact ((visits.pending c).mp mem).imp
      (fun old => sound.pending c (mem_cons_of_mem _ old)) And.left
  · by_cases old : queued.contains c = true
    · rw [visits.pending]
      rcases sound.done c old with waits | isDone
      · rcases mem_cons.mp waits with rfl | waits
        · exact .inr fun y mem => (visits.phis y).mpr (.inr mem)
        · exact .inl (.inl waits)
      · exact .inr fun y mem => (visits.phis y).mpr (.inl (isDone y mem))
    · exact .inl ((visits.pending c).mpr (.inr ⟨((visits.queued c).mp mem).resolve_left old, old⟩))
  · rcases (visits.phis c).mp mem with old | new
    · exact sound.reached c old
    · rcases isQueued with writes | hasPhi
      · exact closure.base b writes c new
      · exact closure.step b (sound.reached b hasPhi) c new

private theorem Sound.spread (sound : Sound p t writers s) (steps : Nat)
    (enough : s.pending.length + (Frontiers.missing p s.queued).length ≤ steps) :
    Sound p t writers ((Frontiers.ofTree p t).spread steps s) ∧
      ((Frontiers.ofTree p t).spread steps s).pending = [] := by
  induction steps generalizing s with
  | zero => exact ⟨sound, eq_nil_of_length_eq_zero (by simp only [Frontiers.spread]; omega)⟩
  | succ steps ih =>
    obtain ⟨pending, queued, phis⟩ := s
    cases pending with
    | nil => exact ⟨sound, rfl⟩
    | cons b pending =>
      have length := sound.visits.length
      exact ih sound.visit (by simp only [length_cons] at enough length; omega)

end Spread

/-- Phis are placed in the blocks of the iterated frontier, once in each. -/
theorem Frontiers.mem_phiBlocks (p : Procedure) (t : DomTree) (writers : List BlockId) :
    ((ofTree p t).phiBlocks writers).Nodup ∧
      ∀ y, y ∈ (ofTree p t).phiBlocks writers ↔ ((ofTree p t).iterated writers).contains y =
        true := by
  have start : Spread.Sound p t writers ⟨writers, .ofList writers, []⟩ :=
    ⟨nodup_nil, by simp, by simp, fun b mem => .inl (by simpa using mem), by simp⟩
  have size : (ofTree p t).sets.size = p.blocks.size := by simp [ofTree, Procedure.blockIds]
  obtain ⟨sound, none⟩ := start.spread (writers.length + (ofTree p t).sets.size) (by
    rw [size]
    exact Nat.add_le_add_left ((length_filter_le ..).trans (length_range.le)) _)
  refine ⟨nodup_reverse.mpr sound.nodup, fun y => ?_⟩
  rw [phiBlocks, mem_reverse]
  constructor
  · exact sound.reached y
  · have closed : ∀ b, b ∈ writers ∨ b ∈ _ → _ := fun b known =>
      (sound.done b ((sound.queued b).mpr known)).resolve_left (by simp [none])
    exact closeFrom_induction _ (fun x mem => closed x (.inr mem)) _ _ _ (by simp)
      fun x mem => closed x (.inl mem)

namespace Procedure

variable {b : BlockId} {i : Inst} {x : VarId}

/-- A phi whose arguments are not known yet. -/
def emptyPhi (b : Block) (v : VarId) : Phi := ⟨v, v, b.preds.map fun _ => none, false⟩

/-- `q` is `p` with phis in front of its blocks, for the variables that each block is given. -/
structure Placement (p q : Procedure) (vars : BlockId → List VarId) : Prop where
  block : ∀ b, q.block b =
    { p.block b with
      insts := ((vars b).map fun v => .phi (emptyPhi (p.block b) v)) ++ (p.block b).insts }
  rest : q = { p with blocks := q.blocks }
  size : q.blocks.size = p.blocks.size

variable {p q : Procedure} {vars : BlockId → List VarId}

theorem Placement.refl (p : Procedure) : p.Placement p fun _ => [] := ⟨fun _ => rfl, rfl, rfl⟩

private theorem Placement.insertPhi (placement : p.Placement q vars) (v : VarId)
    (lt : b < p.blocks.size) :
    p.Placement (q.insertPhi v b) fun c => if c = b then v :: vars c else vars c := by
  refine ⟨fun c => ?_, ?_, ?_⟩
  · rw [Procedure.insertPhi, block_modifyBlock, placement.block c, placement.size]
    by_cases same : c = b
    · subst same
      rw [if_pos ⟨rfl, lt⟩, if_pos rfl]
      rfl
    · rw [if_neg fun both => same both.1.symm, if_neg same]
  · rw [placement.rest]
    rfl
  · rw [Procedure.insertPhi, size_modifyBlock]
    exact placement.size

private theorem Placement.insertPhis (placement : p.Placement q vars) (v : VarId)
    (blocks : List BlockId) (nodup : blocks.Nodup) (lt : ∀ b ∈ blocks, b < p.blocks.size) :
    p.Placement (blocks.foldl (fun q b => q.insertPhi v b) q) fun c =>
      if blocks.contains c then v :: vars c else vars c := by
  induction blocks generalizing q vars with
  | nil => simpa using placement
  | cons b blocks ih =>
    rw [nodup_cons] at nodup
    rw [forall_mem_cons] at lt
    have rest := ih (placement.insertPhi v lt.1) nodup.2 lt.2
    rw [foldl_cons]
    have same : (fun c => if (b :: blocks).contains c then v :: vars c else vars c) = fun c =>
        if blocks.contains c then v :: (if c = b then v :: vars c else vars c)
        else if c = b then v :: vars c else vars c := by
      funext c
      by_cases isFirst : c = b
      · subst isFirst
        simp [nodup.1]
      · simp [isFirst]
    rw [same]
    exact rest

private theorem Placement.writersOf (placement : p.Placement q vars) {v : VarId}
    (absent : ∀ b, v ∉ vars b) : q.writersOf v = p.writersOf v := by
  unfold Procedure.writersOf blockIds
  rw [placement.size]
  apply filter_congr
  intro b _
  rw [placement.block b, any_append]
  have none : (((vars b).map fun v => Inst.phi (emptyPhi (p.block b) v)).any (·.defs.contains v)) =
      false := by
    rw [any_eq_false]
    intro i mem
    obtain ⟨u, inVars, rfl⟩ := mem_map.mp mem
    have different : v ≠ u := fun same => absent b (same ▸ inVars)
    simp [Inst.defs, emptyPhi, different]
  rw [none, Bool.false_or]

/-- The variables of the phis of each block: those that need phis and have the block in the iterated
frontier of their writers, each once. -/
structure PhiVars (p : Procedure) (f : Frontiers) (needed : List VarId)
    (vars : BlockId → List VarId) : Prop where
  nodup : ∀ b, (vars b).Nodup
  mem : ∀ b v, v ∈ vars b ↔ v ∈ needed ∧ (f.iterated (p.writersOf v)).contains b = true

private theorem placement_fold (t : DomTree) (needed : List VarId) (before : List VarId)
    (count : Nat) (nodup : (before ++ needed).Nodup) (placement : p.Placement q vars)
    (phiVars : PhiVars p (.ofTree p t) before vars) :
    ∃ vars', p.Placement ((needed.foldl (placePhisOf (.ofTree p t)) (q, count)).1) vars' ∧
      PhiVars p (.ofTree p t) (before ++ needed) vars' := by
  induction needed generalizing before q vars count with
  | nil => exact ⟨vars, placement, by simpa using phiVars⟩
  | cons v needed ih =>
    have isNew : v ∉ before := by
      intro mem
      exact (nodup_append.mp nodup).2.2 v mem v (by simp) rfl
    have absent : ∀ b, v ∉ vars b := fun b mem => isNew ((phiVars.mem b v).mp mem).1
    have writers := placement.writersOf absent
    have closure := Frontiers.closure_iterated (p := p) (t := t) (p.writersOf v)
    obtain ⟨once, reached⟩ := Frontiers.mem_phiBlocks p t (p.writersOf v)
    have placed := placement.insertPhis v _ once
      fun b mem => (closure.joins b ((reached b).mp mem)).1
    rw [foldl_cons, append_cons]
    rw [← writers] at placed
    refine ih (before ++ [v]) _ (by rwa [← append_cons]) placed ?_
    · rw [writers]
      refine ⟨fun b => ?_, fun b u => ?_⟩
      · split
        · exact nodup_cons.mpr ⟨absent b, phiVars.nodup b⟩
        · exact phiVars.nodup b
      · have inSet : ((Frontiers.ofTree p t).phiBlocks (p.writersOf v)).contains b = true ↔
            ((Frontiers.ofTree p t).iterated (p.writersOf v)).contains b = true := by
          rw [List.contains_iff_mem, reached]
        rw [mem_append, mem_singleton]
        by_cases isSelf : u = v
        · subst isSelf
          split
          · rename_i isIn
            simp [inSet.mp isIn]
          · rename_i isOut
            rw [inSet] at isOut
            simp [absent b, isOut]
        · split
          · simp [isSelf, phiVars.mem b u]
          · simp [isSelf, phiVars.mem b u]

/-- Placement gives every block one phi for each variable that needs one there. -/
theorem placement_placePhis (t : DomTree) (nodup : (p.args ++ p.locals).Nodup) :
    ∃ vars, p.Placement (p.placePhis (.ofTree p t)).1 vars ∧
      PhiVars p (.ofTree p t) ((p.args ++ p.locals).filter p.blockCrossing.contains) vars := by
  have none : PhiVars p (.ofTree p t) [] fun _ => [] := ⟨by simp, by simp⟩
  have placed := placement_fold t ((p.args ++ p.locals).filter p.blockCrossing.contains) [] 0
    (nodup.filter _) (.refl p) none
  exact placed

/-! ## Variables read before they are written -/

/-- Some instruction reads `x`, and none ahead of it in the list writes `x`. -/
def ReadsFirst (x : VarId) (insts : List Inst) : Prop :=
  ∃ before i after, insts = before ++ i :: after ∧ x ∈ i.uses ∧ ∀ j ∈ before, x ∉ j.defs

theorem readsFirst_cons {rest : List Inst} :
    ReadsFirst x (i :: rest) ↔ x ∈ i.uses ∨ (x ∉ i.defs ∧ ReadsFirst x rest) := by
  constructor
  · rintro ⟨before, j, after, split, read, unwritten⟩
    cases before with
    | nil =>
      obtain ⟨rfl, -⟩ := List.cons.inj split
      exact .inl read
    | cons first before =>
      obtain ⟨rfl, rfl⟩ := List.cons.inj split
      rw [forall_mem_cons] at unwritten
      exact .inr ⟨unwritten.1, before, j, after, rfl, read, unwritten.2⟩
  · rintro (read | ⟨unwritten, before, j, after, rfl, read, free⟩)
    · exact ⟨[], i, rest, rfl, read, by simp⟩
    · exact ⟨i :: before, j, after, rfl, read, forall_mem_cons.mpr ⟨unwritten, free⟩⟩

theorem contains_exposedReads {insts : List Inst} :
    (exposedReads insts).contains x = true ↔ ReadsFirst x insts := by
  -- Along the list, what counts as exposed was so before or is read while not written.
  have collected : ∀ (insts : List Inst) (state : IndexSet × IndexSet),
      ((insts.foldl (fun (state : IndexSet × IndexSet) (i : Inst) =>
        (state.1.insertMany (i.uses.filter (!state.2.contains ·)), state.2.insertMany i.defs))
        state).1).contains x = true ↔
      state.1.contains x = true ∨ (state.2.contains x = false ∧ ReadsFirst x insts) := by
    intro insts
    induction insts with
    | nil => simp [ReadsFirst]
    | cons i rest ih =>
      intro state
      rw [foldl_cons, ih, readsFirst_cons]
      cases isWritten : state.2.contains x <;> simp [isWritten, or_assoc]
  exact (collected insts (.empty, .empty)).trans (by simp)

theorem contains_blockCrossing :
    p.blockCrossing.contains x = true ↔ ∃ b, ReadsFirst x (p.block b).insts := by
  have collected : ∀ (blocks : List Block) (found : IndexSet),
      (blocks.foldl (fun found c => found.union (exposedReads c.insts)) found).contains x = true ↔
        found.contains x = true ∨ ∃ c ∈ blocks, ReadsFirst x c.insts := by
    intro blocks
    induction blocks with
    | nil => simp
    | cons c blocks ih =>
      intro found
      rw [foldl_cons, ih]
      simp [contains_exposedReads, or_assoc]
  rw [blockCrossing, ← Array.foldl_toList, collected]
  simp only [IndexSet.contains_empty, Bool.false_eq_true, false_or]
  constructor
  · rintro ⟨c, mem, reads⟩
    obtain ⟨b, lt, rfl⟩ := mem_iff_getElem.mp mem
    exact ⟨b, by simpa [Procedure.block, show b < p.blocks.size from lt] using reads⟩
  · rintro ⟨b, reads⟩
    have lt : b < p.blocks.size := by
      obtain ⟨before, i, after, split, -⟩ := reads
      exact lt_size_of_mem_insts (split ▸ by simp : i ∈ (p.block b).insts)
    exact ⟨p.block b, by simp [Procedure.block, lt], reads⟩

/-- A variable that no block reads before writing it was written earlier in the block of any
read. -/
theorem written_of_not_crossing {before after : List Inst}
    (split : (p.block b).insts = before ++ i :: after) (read : x ∈ i.uses)
    (local_ : p.blockCrossing.contains x = false) : ∃ j ∈ before, x ∈ j.defs := by
  apply Classical.byContradiction
  intro none
  have crossing : p.blockCrossing.contains x = true := contains_blockCrossing.mpr
    ⟨b, before, i, after, split, read, fun j mem defined => none ⟨j, mem, defined⟩⟩
  rw [crossing] at local_
  cases local_

end Procedure

/-- The version of each source variable at a point. -/
abbrev VersionMap := VarId → Option VarId

namespace VersionMap

/-- The map after a definition. -/
def define (versions : VersionMap) (x d : VarId) :
    VersionMap := fun y => if y = x then some d else versions y

/-- The map after phis, as pairs of the source variable and its new version. -/
def defineAll (versions : VersionMap) (pairs : List (VarId × VarId)) : VersionMap :=
  pairs.foldl (fun versions pair => versions.define pair.1 pair.2) versions

theorem defineAll_cases (versions : VersionMap) (pairs : List (VarId × VarId)) (x : VarId) :
    (x ∉ pairs.map Prod.fst ∧ versions.defineAll pairs x = versions x) ∨
      ∃ d, (x, d) ∈ pairs ∧ versions.defineAll pairs x = some d := by
  induction pairs generalizing versions with
  | nil => exact .inl ⟨by simp, rfl⟩
  | cons pair rest ih =>
    rcases ih (versions.define pair.1 pair.2) with ⟨absent, same⟩ | ⟨d, mem, isLast⟩
    · by_cases here : x = pair.1
      · exact .inr ⟨pair.2, by simp [here], same.trans (if_pos here)⟩
      · exact .inl ⟨by simp_all, same.trans (if_neg here)⟩
    · exact .inr ⟨d, mem_cons_of_mem _ mem, isLast⟩

/-- The variable that a read stands for. -/
def reading (versions : VersionMap) (x : VarId) : VarId := (versions x).getD x

end VersionMap

namespace Renaming

variable {after before : VersionMap} {body : List Inst} {origin : VarId → Origin}
  {done preds : List BlockId} {r' : Renaming} {reads : List VarId}
  {ends value : BlockId → VersionMap} {x : VarId}

/-- Reads leave versions as they are, except that a variable without one gets one that nothing
defines. -/
def Extends (origin : VarId → Origin) (reads : List VarId) (before after : VersionMap) : Prop :=
  ∀ x, after x = before x ∨
    (before x = none ∧ ∃ u, after x = some u ∧ origin u = ⟨x, false⟩ ∧ x ∈ reads)

theorem Extends.eq (extends_ : Extends origin reads before after)
    (known : ∀ x ∈ reads, before x ≠ none) : after = before := by
  funext x
  rcases extends_ x with same | ⟨none, -, -, -, mem⟩
  · exact same
  · exact absurd none (known x mem)

/-- One instruction renamed: reads become the versions of what they read, and a definition becomes a
version of its own. -/
inductive Renames (origin : VarId → Origin) (before : VersionMap) (i : Inst) :
    Inst → VersionMap → Prop
  | read {mid : VersionMap} (extends_ : Extends origin i.uses before mid)
      (present : ∀ x ∈ i.uses, (mid x).isSome = true) (defs : i.defs = []) :
      Renames origin before i (i.mapUses mid.reading) mid
  | define {mid : VersionMap} {x d : VarId} (extends_ : Extends origin i.uses before mid)
      (present : ∀ x ∈ i.uses, (mid x).isSome = true) (defs : i.defs = [x])
      (isOrigin : origin d = ⟨x, true⟩) :
      Renames origin before i ((i.mapUses mid.reading).mapDefs fun _ => d) (mid.define x d)

/-- A run of instructions renamed one after the other. -/
inductive RenamesAll (origin : VarId → Origin) :
    VersionMap → List Inst → List Inst → VersionMap → Prop
  | nil {versions : VersionMap} : RenamesAll origin versions [] [] versions
  | cons {before mid after : VersionMap} {i i' : Inst} {rest rest' : List Inst}
      (first : Renames origin before i i' mid) (more : RenamesAll origin mid rest rest' after) :
      RenamesAll origin before (i :: rest) (i' :: rest') after

/-- An assignment of origins that agrees with a log on the variables it is about. -/
def Agrees (base : VarId) (log : List Origin) (origin : VarId → Origin) : Prop :=
  ∀ d, base ≤ d → d < base + log.length → origin d = originIn base log d

theorem Agrees.shorten {base : VarId} {log more : List Origin}
    (isPrefix : log <+: more) (agrees : Agrees base more origin) : Agrees base log origin := by
  obtain ⟨rest, rfl⟩ := isPrefix
  intro d isNew lt
  rw [agrees d isNew ?_, originIn_append lt]
  rw [length_append]
  exact Nat.lt_of_lt_of_le lt (by omega)

/-- The versions that a block sees. -/
def seen (r : Renaming) (t : DomTree) (b : BlockId) : VersionMap :=
  fun x => if x < r.base then r.current t b x else none

variable {p : Procedure} {r : Renaming} {t : DomTree} {b : BlockId} {log : List Origin}
  {homes others : List BlockId}

theorem seen_of_steady {c : BlockId} (steady : Steady t others r r')
    (mem : c ∈ others) : r'.seen t c = r.seen t c := by
  funext x
  unfold seen
  rw [steady.base]
  split
  · exact steady.current c mem x ‹_›
  · rfl

theorem Steady.weaken (steady : Steady t (b :: others) r r') : Steady t others r r' :=
  ⟨steady.base, steady.proc, fun c mem => steady.current c (mem_cons_of_mem _ mem)⟩

theorem Chained.define (chained : Chained p r log homes) (waiting : Waiting t b homes others)
    (below : x < r.base) (isDefined : Bool) :
    Chained p ((r.settle t b x).attach b x) (log ++ [⟨x, isDefined⟩]) homes ∧
      Steady t others r ((r.settle t b x).attach b x) ∧
      ((r.settle t b x).attach b x).seen t b = (r.seen t b).define x r.proc.nextVar := by
  obtain ⟨settled, steady, -⟩ := chained.settle waiting below
  obtain ⟨attached, steady', current⟩ := settled.attach (x := x) below waiting isDefined
  refine ⟨attached, steady.weaken.trans steady', funext fun y => ?_⟩
  unfold seen VersionMap.define
  dsimp only
  by_cases lt : y < r.base
  · have found := current y lt
    rw [if_pos (show y < ((r.settle t b x).attach b x).base from lt), found, if_pos lt]
    split
    · rfl
    · exact steady.current b (by simp) y lt
  · have other : y ≠ x := fun same => lt (same ▸ below)
    rw [if_neg (show ¬y < ((r.settle t b x).attach b x).base from lt), if_neg other, if_neg lt]

/-- What holds while the reads of an instruction are renamed. -/
def Reading (p : Procedure) (t : DomTree) (b : BlockId) (homes others : List BlockId)
    (log : List Origin) (reads : List VarId) (start r : Renaming) : Prop :=
  ∃ log', log <+: log' ∧ Chained p r log' homes ∧ Steady t others start r ∧
    ∀ origin, Agrees r.base log' origin → Extends origin reads (start.seen t b) (r.seen t b)

private theorem asks_read (waiting : Waiting t b homes others) {start : Renaming}
    (below : x < start.base) (isRead : x ∈ reads) :
    Traversal.Asks (Reading p t b homes others log reads start)
      (fun r => r.seen t b) (read t b x) [x] fun g => g x := by
  rintro r ⟨log', isPrefix, chained, steady, extends_⟩
  have lt : x < r.base := steady.base ▸ below
  obtain ⟨settled, same, pointer⟩ := chained.settle waiting lt
  have sameSeen := seen_of_steady same (by simp : b ∈ b :: others)
  cases found : (r.settle t b x).reaching.getD x none with
  | some d =>
    rw [run_read_some found]
    have current : r.seen t b x = some d := by
      rw [seen, if_pos lt, ← pointer, found]
    refine ⟨⟨log', isPrefix, settled, steady.trans same.weaken, ?_⟩, ?_, ?_, ?_⟩
    · intro origin agrees
      simp only [sameSeen]
      exact extends_ origin agrees
    · intro y e known
      simp only [sameSeen]
      exact known
    · intro v mem
      obtain rfl := mem_singleton.mp mem
      simp only [sameSeen, current, Option.isSome_some]
    · intro g agrees
      have known := agrees x (by simp)
      simp only [sameSeen, current, Option.some.injEq] at known
      exact known
  | none =>
    rw [run_read_none found]
    have absent : r.seen t b x = none := by
      rw [seen, if_pos lt, ← pointer, found]
    obtain ⟨attached, steady', seen'⟩ := chained.define waiting lt false
    refine ⟨⟨log' ++ [⟨x, false⟩], isPrefix.trans (prefix_append _ _), attached,
      steady.trans steady', ?_⟩, ?_, ?_, ?_⟩
    · intro origin agrees y
      have old := extends_ origin (agrees.shorten (prefix_append _ _)) y
      simp only [seen', VersionMap.define]
      by_cases same : y = x
      · subst same
        rw [if_pos rfl]
        rw [absent] at old
        rcases old with none | ⟨-, u, impossible, -⟩
        · refine .inr ⟨none.symm, _, rfl, ?_, isRead⟩
          have inLog : r.proc.nextVar < r.base + (log' ++ [(⟨y, false⟩ : Origin)]).length := by
            rw [chained.count, length_append]
            exact Nat.lt_succ_self _
          rw [agrees _ chained.base_le inLog, chained.count]
          exact originIn_last _ _ _
        · cases impossible
      · rw [if_neg same]
        exact old
    · intro y e known
      have other : y ≠ x := by
        rintro rfl
        simp only [absent] at known
        cases known
      simp only [seen', VersionMap.define, if_neg other]
      exact known
    · intro v mem
      obtain rfl := mem_singleton.mp mem
      simp [seen', VersionMap.define]
    · intro g agrees
      have known : r.proc.nextVar = g x := by
        simpa [seen', VersionMap.define] using agrees x (by simp)
      exact known

private theorem renames_renameInst (chained : Chained p r log homes)
    (waiting : Waiting t b homes others)
    {i : Inst} (uses : ∀ x ∈ i.uses, x < r.base) (defs : ∀ x ∈ i.defs, x < r.base)
    (few : i.isSource = true ∨ i.isPhi = true) :
    ∃ log', log <+: log' ∧ Chained p ((renameInst t b i).run r).2 log' homes ∧
      Steady t others r ((renameInst t b i).run r).2 ∧
      ∀ origin, Agrees r.base log' origin → Renames origin (r.seen t b) i
        ((renameInst t b i).run r).1 (((renameInst t b i).run r).2.seen t b) := by
  have asksRead : ∀ x ∈ i.uses, Traversal.Asks (Reading p t b homes others log i.uses r)
      (fun r => r.seen t b) (read t b x) [x] fun g => g x :=
    fun x mem => asks_read waiting (uses x mem) mem
  have startsReading : Reading p t b homes others log i.uses r r :=
    ⟨log, prefix_refl _, chained, .refl t others r, fun _ _ x => .inl rfl⟩
  obtain ⟨⟨log₁, isPrefix, chained₁, steady₁, extends_⟩, -, present, value⟩ :=
    Traversal.asks_traverseUses i asksRead r startsReading
  generalize isMid : ((i.traverseUses (read t b)).run r).2 =
    mid at chained₁ steady₁ extends_ present value
  have isRead : ((i.traverseUses (read t b)).run r).1 = i.mapUses (mid.seen t b).reading := by
    apply value
    intro v mem
    obtain ⟨d, known⟩ := Option.isSome_iff_exists.mp (present v mem)
    simp only at known
    simp only [VersionMap.reading, known, Option.getD_some]
  have defs' : ∀ g : VarId → VarId, (i.mapUses g).defs = i.defs := by
    intro g
    cases i <;> rfl
  have notPrepare : ∀ g d s n, i.mapUses g ≠ .prepare d s n := by
    intro g d s n
    cases i <;> simp_all [Inst.isSource, Inst.isPhi, Inst.phi?] <;> intro impossible
      <;> cases impossible
  have split : (renameInst t b i).run r =
      ((i.mapUses (mid.seen t b).reading).traverseDefs (define t b)).run mid := by
    rw [← isRead, ← isMid]
    rfl
  rw [split, Traversal.traverseDefs_run _ _ (notPrepare _), defs']
  cases isDefs : i.defs with
  | nil =>
    refine ⟨log₁, isPrefix, chained₁, steady₁, fun origin agrees => ?_⟩
    exact .read (extends_ origin (steady₁.base ▸ agrees)) present isDefs
  | cons x rest =>
    have single : i.defs = [x] := by
      cases i with
      | call dst callee args => cases dst <;> simp_all [Inst.defs]
      | prepare d s n => simp [Inst.isSource, Inst.isPhi, Inst.phi?] at few
      | _ => simp_all [Inst.defs]
    have below : x < mid.base := steady₁.base ▸ defs x (by simp [isDefs])
    obtain ⟨defined, steady₂, seen'⟩ := chained₁.define waiting below true
    simp only [run_define]
    refine ⟨log₁ ++ [⟨x, true⟩], isPrefix.trans (prefix_append _ _), defined,
      steady₁.trans steady₂, fun origin agrees => ?_⟩
    have isOrigin : origin mid.proc.nextVar = ⟨x, true⟩ := by
      rw [agrees _ (steady₁.base ▸ chained₁.base_le) ?_, chained₁.count, steady₁.base]
      · exact originIn_last _ _ _
      · rw [chained₁.count, steady₁.base, length_append]
        exact Nat.lt_succ_self _
    have extended := extends_ origin (steady₁.base ▸ agrees.shorten (prefix_append _ _))
    have step := Renames.define extended present single isOrigin
    rw [← seen'] at step
    exact step

theorem renamesAll_mapM (waiting : Waiting t b homes others) (insts : List Inst) (r : Renaming)
    (log : List Origin) (chained : Chained p r log homes)
    (inScope : ∀ i ∈ insts, (∀ x ∈ i.uses, x < r.base) ∧ (∀ x ∈ i.defs, x < r.base) ∧
      (i.isSource = true ∨ i.isPhi = true)) :
    ∃ log', log <+: log' ∧ Chained p ((insts.mapM (renameInst t b)).run r).2 log' homes ∧
      Steady t others r ((insts.mapM (renameInst t b)).run r).2 ∧
      ∀ origin, Agrees r.base log' origin →
      RenamesAll origin (r.seen t b) insts ((insts.mapM (renameInst t b)).run r).1
        (((insts.mapM (renameInst t b)).run r).2.seen t b) := by
  induction insts generalizing r log with
  | nil => exact ⟨log, prefix_refl _, chained, .refl t others r, fun _ _ => .nil⟩
  | cons i rest ih =>
    rw [forall_mem_cons] at inScope
    obtain ⟨log₁, early, chained₁, steady₁, renames⟩ :=
      renames_renameInst chained waiting inScope.1.1 inScope.1.2.1 inScope.1.2.2
    obtain ⟨log₂, late, chained₂, steady₂, renamesRest⟩ := ih
      ((renameInst t b i).run r).2 log₁ chained₁ (by rw [steady₁.base]; exact inScope.2)
    rw [mapM_cons]
    refine ⟨log₂, early.trans late, chained₂, steady₁.trans steady₂, fun origin agrees => ?_⟩
    exact .cons (renames origin (agrees.shorten late)) (renamesRest origin (steady₁.base ▸ agrees))

/-! ## Phis -/

/-- The phis of a block as nodes, given what flows in from each predecessor. -/
def nodesWith (preds : List BlockId) (value : BlockId → VersionMap) (pairs : List (VarId × VarId)) :
    List Phi :=
  pairs.map fun pair => ⟨pair.2, pair.1, preds.map fun q => value q pair.1, false⟩

/-- The phis of a block as instructions. -/
def phisWith (preds : List BlockId) (value : BlockId → VersionMap) (pairs : List (VarId × VarId)) :
    List Inst :=
  pairs.map fun pair => .phi ⟨pair.2, pair.1, preds.map fun q => value q pair.1, false⟩

theorem RenamesAll.split {vars : List VarId} {new : List Inst}
    (renames : RenamesAll origin before (phisWith preds value (vars.map fun x => (x, x)) ++ body)
      new after) : ∃ pairs new', new = phisWith preds value pairs ++ new' ∧
      pairs.map Prod.fst = vars ∧ (∀ pair ∈ pairs, origin pair.2 = ⟨pair.1, true⟩) ∧
      RenamesAll origin (before.defineAll pairs) body new' after := by
  induction vars generalizing before new with
  | nil => exact ⟨[], new, rfl, rfl, by simp, renames⟩
  | cons x vars ih =>
    cases renames with
    | cons first more =>
      obtain ⟨pairs, new', rfl, isFst, origins, renamesBody⟩ := ih more
      cases first with
      | read extends_ present defs => cases defs
      | @define _ y d extends_ present defs isOrigin =>
        obtain rfl : x = y := by simpa [Inst.defs] using defs
        obtain rfl := extends_.eq fun y mem => absurd mem not_mem_nil
        exact ⟨(x, d) :: pairs, new', rfl, by simp [isFst], forall_mem_cons.mpr ⟨isOrigin, origins⟩,
          renamesBody⟩

/-- The phis and the body that a list of instructions is made of are determined by it. -/
theorem phisWith_append_inj {pairs pairs' : List (VarId × VarId)} {body' : List Inst}
    (same : phisWith preds value pairs ++ body = phisWith preds value pairs' ++ body')
    (sources : pairs.map Prod.fst = pairs'.map Prod.fst) : pairs = pairs' ∧ body = body' := by
  have length : (phisWith preds value pairs).length = (phisWith preds value pairs').length := by
    have sameLength := congrArg List.length sources
    simpa [phisWith] using sameLength
  obtain ⟨samePhis, sameBody⟩ := append_inj same length
  refine ⟨?_, sameBody⟩
  clear same sameBody length
  induction pairs generalizing pairs' with
  | nil =>
    cases pairs' with
    | nil => rfl
    | cons head tail => cases sources
  | cons head tail ih =>
    cases pairs' with
    | nil => cases sources
    | cons head' tail' =>
      simp only [phisWith, map_cons, List.cons.injEq, Inst.phi.injEq, Phi.mk.injEq]
        at samePhis sources
      rw [ih sources.2 samePhis.2]
      congr 1
      exact Prod.ext sources.1 samePhis.1.1

theorem run_fillPhi_eq (t : DomTree) (b : BlockId) (preds : List BlockId)
    (phi : Phi) (r : Renaming) : (fillPhi t b preds phi).run r =
      ({ phi with
          args :=
            fillArgs b preds ((r.settle t b phi.source).reaching.getD phi.source none) phi.args },
        r.settle t b phi.source) := rfl

private theorem run_fillPhi (chained : Chained p r log homes) (waiting : Waiting t b homes others)
    (preds : List BlockId) (phi : Phi) (below : phi.source < r.base) :
    (fillPhi t b preds phi).run r =
      ({ phi with args := fillArgs b preds (r.seen t b phi.source) phi.args },
        r.settle t b phi.source) := by
  rw [run_fillPhi_eq, (chained.settle waiting below).2.2, seen, if_pos below]

/-- What flows in from the predecessors that are done. -/
def valueIn (done : List BlockId) (ends : BlockId → VersionMap) (q : BlockId) : VersionMap :=
  if done.contains q then ends q else fun _ => none

private theorem fillArgs_valueIn (preds : List BlockId) (filled : List BlockId)
    (known : filled = done ∨ filled = b :: done)
    (fresh : b ∉ done) : fillArgs b preds (ends b x) (preds.map fun q => valueIn filled ends q x) =
      preds.map fun q => valueIn (b :: done) ends q x := by
  have other : ∀ q, q ≠ b → valueIn filled ends q x = valueIn (b :: done) ends q x := by
    intro q different
    rcases known with rfl | rfl
    · simp [valueIn, different]
    · rfl
  have here : valueIn (b :: done) ends b x = ends b x := by simp [valueIn]
  unfold fillArgs
  cases value : ends b x with
  | none =>
    apply map_congr_left
    intro q _
    by_cases same : q = b
    · subst same
      rw [here, value]
      rcases known with rfl | rfl
      · simp [valueIn, fresh]
      · rw [here, value]
    · exact other q same
  | some d =>
    apply ext_getElem?
    intro slot
    rw [getElem?_mapIdx, getElem?_map, getElem?_map]
    cases isAt : preds[slot]? with
    | none => rfl
    | some q =>
      by_cases same : q = b
      · subst same
        simp [here, value]
      · simp [same, other q same]

/-- Filling the phis of a block from a predecessor that is done now. -/
theorem run_mapM_fillPhi {filled : List BlockId} (waiting : Waiting t b homes others)
    (preds : List BlockId) (known : filled = done ∨ filled = b :: done) (fresh : b ∉ done)
    (pairs : List (VarId × VarId)) (r : Renaming) (chained : Chained p r log homes)
    (below : ∀ pair ∈ pairs, pair.1 < r.base) (isEnd : r.seen t b = ends b) :
    ∃ r', ((nodesWith preds (valueIn filled ends) pairs).mapM (fillPhi t b preds)).run r =
        (nodesWith preds (valueIn (b :: done) ends) pairs, r') ∧
      Chained p r' log homes ∧ Steady t (b :: others) r r' := by
  induction pairs generalizing r with
  | nil => exact ⟨r, rfl, chained, .refl t _ r⟩
  | cons pair rest ih =>
    rw [forall_mem_cons] at below
    obtain ⟨settled, steady, -⟩ := chained.settle waiting below.1
    have isEnd' : (r.settle t b pair.1).seen t b = ends b :=
      (seen_of_steady steady (by simp)).trans isEnd
    obtain ⟨r', run, chained', steady'⟩ := ih (r.settle t b pair.1) settled below.2 isEnd'
    refine ⟨r', ?_, chained', steady.trans steady'⟩
    have first := run_fillPhi chained waiting preds
      ⟨pair.2, pair.1, preds.map fun q => valueIn filled ends q pair.1, false⟩ below.1
    rw [isEnd, fillArgs_valueIn preds filled known fresh] at first
    rw [nodesWith, map_cons, mapM_cons]
    simp only [StateT.run_bind, first]
    exact congrArg (fun found : List Phi × Renaming => (_ :: found.1, found.2)) run

end Renaming

end ArmBackend
