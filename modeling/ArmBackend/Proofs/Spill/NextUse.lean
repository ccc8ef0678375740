import ArmBackend.Proofs.Liveness
import ArmBackend.Proofs.Ssa.SingleAssignment
import ArmBackend.Spill.NextUse

/-!
Contract: the distance to the next read of a variable is the length of a shortest path to one.

After `k` rounds a distance is that of some path, and no greater than that of any path through at
most `k` blocks. There is always a shortest path that enters no block twice, so the rounds end with
least distances.

Owns: distances as least lengths of paths, in a block and between blocks.
Does not own: which variables are spilled for their distances.
-/

namespace ArmBackend

open List Procedure

/-! ## Least distances -/

/-- What was found is one of the distances `far`, and no greater than any of the distances
`near`. -/
structure Finds (near far : Nat → Prop) (found : Option Nat) : Prop where
  all : ∀ d, near d → ∃ e ≤ d, found = some e
  only : ∀ e, found = some e → far e

namespace Finds

variable {near far near' far' : Nat → Prop} {found found' : Option Nat}

theorem mono (finds : Finds near far found) (fewer : ∀ d, near' d → near d)
    (more : ∀ d, far d → far' d) : Finds near' far' found :=
  ⟨fun d isNear => finds.all d (fewer d isNear), fun e isFound => more e (finds.only e isFound)⟩

theorem nothing : Finds (fun _ => False) (fun _ => False) none :=
  ⟨fun _ => False.elim, fun _ isFound => Option.some_ne_none _ isFound.symm⟩

/-- What was found is the least distance, if for every distance one was looked at that is no
greater. -/
theorem eq_some_iff (finds : Finds near far found) (enough : ∀ d, far d → ∃ e ≤ d, near e)
    {e : Nat} : found = some e ↔ far e ∧ ∀ d, far d → e ≤ d := by
  constructor
  · intro isFound
    refine ⟨finds.only e isFound, fun d isFar => ?_⟩
    obtain ⟨near, le, isNear⟩ := enough d isFar
    obtain ⟨least, le', isLeast⟩ := finds.all near isNear
    rw [isFound, Option.some.injEq] at isLeast
    omega
  · rintro ⟨isFar, least⟩
    obtain ⟨near, le, isNear⟩ := enough e isFar
    obtain ⟨e', le', isFound⟩ := finds.all near isNear
    have ge := least e' (finds.only e' isFound)
    rw [isFound, Option.some.injEq]
    omega

theorem unique (finds : Finds near far found) (finds' : Finds near far found')
    (enough : ∀ d, far d → ∃ e ≤ d, near e) : found = found' :=
  Option.ext fun _ => (finds.eq_some_iff enough).trans (finds'.eq_some_iff enough).symm

private theorem nearer (finds : Finds near far found) (finds' : Finds near' far' found') :
    Finds (fun d => near d ∨ near' d) (fun d => far d ∨ far' d)
      (Distances.nearer found found') := by
  constructor
  · rintro d (isNear | isNear)
    · obtain ⟨e, le, rfl⟩ := finds.all d isNear
      cases found' with
      | none => exact ⟨e, le, rfl⟩
      | some e' => exact ⟨min e e', Nat.le_trans (Nat.min_le_left ..) le, rfl⟩
    · obtain ⟨e, le, rfl⟩ := finds'.all d isNear
      cases found with
      | none => exact ⟨e, le, rfl⟩
      | some e' => exact ⟨min e' e, Nat.le_trans (Nat.min_le_right ..) le, rfl⟩
  · intro e isFound
    cases found with
    | none => exact .inr (finds'.only e isFound)
    | some a =>
      cases found' with
      | none => exact .inl (finds.only e isFound)
      | some b =>
        obtain rfl : min a b = e := Option.some.inj isFound
        rcases Nat.le_total a b with le | le
        · exact .inl (finds.only _ (by rw [Nat.min_eq_left le]))
        · exact .inr (finds'.only _ (by rw [Nat.min_eq_right le]))

end Finds

/-! ## One block -/

namespace Distances

variable {d after : Distances} {v : VarId} {exitReads : List VarId}
variable {far near : Nat → Prop} {starts : BlockId → Distances} {succs : List BlockId}

private theorem of_set (d : Distances) (u v : VarId) (distance : Option Nat) :
    (d.set u distance).of v = if u = v ∧ v < Array.size d then distance else d.of v :=
  Tables.getD_setIfInBounds d u v distance Option.none

private theorem of_none (vars : Nat) (v : VarId) : (none vars).of v = Option.none := by
  unfold none of
  rw [Tables.getD_replicate]
  split <;> rfl

private theorem of_shift (steps : Nat) : (d.shift steps).of v = (d.of v).map (· + steps) := by
  unfold shift of
  by_cases lt : v < Array.size d <;> simp [lt]

private theorem of_meet {e : Distances} (lt : v < Array.size d) (inside' : v < Array.size e) :
    (d.meet e).of v = nearer (d.of v) (e.of v) := by
  unfold meet of
  rw [Array.getD_eq_getD_getElem?, Array.getElem?_zipWith]
  simp [lt, inside']

private theorem of_setAll (vars : List VarId) (distance : Option Nat) (d : Distances) :
    Array.size (d.setAll vars distance) = Array.size d ∧ (v < Array.size d →
      (d.setAll vars distance).of v = if v ∈ vars then distance else d.of v) := by
  induction vars generalizing d with
  | nil => simp [setAll]
  | cons u vars ih =>
    have size : Array.size (d.set u distance) = Array.size d := Array.size_setIfInBounds
    obtain ⟨sizes, later⟩ := ih (d.set u distance)
    refine ⟨sizes.trans size, fun lt => ?_⟩
    rw [setAll, foldl_cons, ← setAll, later (size ▸ lt), of_set]
    by_cases here : v = u
    · simp [here, here ▸ lt]
    · simp [here, Ne.symm here]

theorem of_mark (i : Inst × Nat) (d : Distances) : Array.size (mark exitReads i d) = Array.size d ∧
    (v < Array.size d → (mark exitReads i d).of v =
      if v ∈ i.1.reads exitReads then some i.2 else if v ∈ i.1.defs then Option.none
        else d.of v) := by
  obtain ⟨size, killed⟩ := of_setAll (v := v) i.1.defs Option.none d
  obtain ⟨size', marked⟩ := of_setAll (v := v) (i.1.reads exitReads) (some i.2)
    (d.setAll i.1.defs Option.none)
  exact ⟨size'.trans size, fun lt => by rw [mark, marked (size ▸ lt), killed lt]⟩

theorem finds_cons {found : Option Nat} {i : Inst} {rest : List Inst}
    (finds : Finds (ReadAhead exitReads v rest near) (ReadAhead exitReads v rest far) found) :
    Finds (ReadAhead exitReads v (i :: rest) near) (ReadAhead exitReads v (i :: rest) far)
      (if v ∈ i.reads exitReads then some 0 else if v ∈ i.defs then Option.none
        else found.map (· + 1)) := by
  constructor
  · intro d isNear
    by_cases isRead : v ∈ i.reads exitReads
    · exact ⟨0, Nat.zero_le d, if_pos isRead⟩
    · obtain ⟨other, e, ahead, rfl⟩ :=
        (readAhead_cons.mp isNear).resolve_left fun here => isRead here.1
      obtain ⟨least, le, rfl⟩ := finds.all e ahead
      exact ⟨least + 1, Nat.succ_le_succ le, by rw [if_neg isRead, if_neg other]; rfl⟩
  · intro e isFound
    split at isFound
    · rename_i isRead
      exact readAhead_cons.mpr (.inl ⟨isRead, (Option.some.inj isFound).symm⟩)
    · split at isFound
      · cases isFound
      · rename_i other
        obtain ⟨e, isLater, rfl⟩ := Option.map_eq_some_iff.mp isFound
        exact readAhead_cons.mpr (.inr ⟨other, e, finds.only e isLater, rfl⟩)

theorem size_marks (marks : List (Inst × Nat)) (d : Distances) :
    Array.size (marks.foldr (mark exitReads) d) = Array.size d := by
  induction marks with
  | nil => rfl
  | cons i rest ih => exact (of_mark (v := 0) i _).1.trans ih

theorem size_through (after : Distances) (exitReads : List VarId) (insts : List Inst) :
    Array.size (after.through exitReads insts) = Array.size after :=
  (size_marks _ _).trans Array.size_map

private theorem finds_through (lt : v < Array.size after) (finds : Finds near far (after.of v))
    (insts : List Inst) :
    Finds (ReadAhead exitReads v insts near) (ReadAhead exitReads v insts far)
      ((after.through exitReads insts).of v) := by
  -- The instructions are numbered from `k` on.
  have all : ∀ (insts : List Inst) (k : Nat),
      ∃ found, ((insts.zipIdx k).foldr (mark exitReads) (after.shift (insts.length + k))).of v =
        found.map (· + k) ∧
        Finds (ReadAhead exitReads v insts near) (ReadAhead exitReads v insts far) found := by
    intro insts
    induction insts with
    | nil =>
      refine fun k => ⟨after.of v, by simp [of_shift], finds.mono ?_ ?_⟩ <;> simp [ReadAhead]
    | cons i rest ih =>
      intro k
      obtain ⟨found, isFound, finds⟩ := ih (k + 1)
      rw [show (i :: rest).length + k = rest.length + (k + 1) by simp; omega, zipIdx_cons,
        foldr_cons]
      refine ⟨_, ?_, finds_cons finds⟩
      rw [(of_mark _ _).2 (by rwa [size_marks, shift, Array.size_map]), isFound]
      split
      · simp
      · split
        · rfl
        · simp [Function.comp_def, Nat.add_assoc, Nat.add_comm 1 k]
  obtain ⟨found, isFound, finds⟩ := all insts 0
  exact isFound.trans Option.map_id' ▸ finds

theorem size_meets {d : Distances} (sizes : ∀ s ∈ succs, Array.size (starts s) = Array.size d) :
    Array.size (succs.foldl (fun (d : Distances) s => d.meet (starts s)) d) = Array.size d := by
  induction succs generalizing d with
  | nil => rfl
  | cons s succs ih =>
    rw [forall_mem_cons] at sizes
    have size : Array.size (d.meet (starts s)) = Array.size d := by simp [meet, sizes.1]
    exact (ih fun s' mem => (sizes.2 s' mem).trans size.symm).trans size

private theorem finds_meets {near far : BlockId → Nat → Prop}
    {d : Distances} {near₀ far₀ : Nat → Prop}
    (sizes : ∀ s ∈ succs, Array.size (starts s) = Array.size d)
    (lt : v < Array.size d) (finds : Finds near₀ far₀ (d.of v))
    (known : ∀ s ∈ succs, Finds (near s) (far s) ((starts s).of v)) :
    Finds (fun e => near₀ e ∨ ∃ s ∈ succs, near s e) (fun e => far₀ e ∨ ∃ s ∈ succs, far s e)
      ((succs.foldl (fun (d : Distances) s => d.meet (starts s)) d).of v) := by
  induction succs generalizing d near₀ far₀ with
  | nil => exact finds.mono (by simp) (by simp)
  | cons s succs ih =>
    rw [forall_mem_cons] at sizes known
    have size : Array.size (d.meet (starts s)) = Array.size d := by simp [meet, sizes.1]
    have both := finds.nearer known.1
    rw [← of_meet lt (sizes.1 ▸ lt)] at both
    refine (ih (fun s' mem => (sizes.2 s' mem).trans size.symm) (size ▸ lt) both known.2).mono
      (fun e isNear => ?_) fun e isFar => ?_
    · simpa [or_assoc] using isNear
    · simpa [or_assoc] using isFar

end Distances

/-! ## Rounds -/

namespace NextUse

variable {p : Procedure} {v : VarId} {b : BlockId} {k : Nat} {n : NextUse}

/-- What `k` rounds find out about a block. -/
structure Level (p : Procedure) (k : Nat) (n : NextUse) (b : BlockId) : Prop where
  sizes : n.starts.size = p.blocks.size ∧ n.ends.size = p.blocks.size
  vars : Array.size (n.startOf b) = p.vars.size ∧ Array.size (n.endOf b) = p.vars.size
  start : ∀ v < p.vars.size, Finds (p.ReadWithin v b k) (fun d => ∃ j, p.ReadWithin v b j d)
    ((n.startOf b).of v)
  finish : ∀ v < p.vars.size, Finds (p.ReadBehind v b k) (fun d => ∃ j, p.ReadBehind v b j d)
    ((n.endOf b).of v)

theorem Level.lower (level : Level p (k + 1) n b) : Level p k n b :=
  ⟨level.sizes, level.vars, fun v declared => (level.start v declared).mono
    (fun _ lt => lt.mono (Nat.le_succ k)) fun _ => id,
    fun v declared => (level.finish v declared).mono
    (fun _ behind => behind.mono (Nat.le_succ k)) fun _ => id⟩

private theorem level_none (p : Procedure) (lt : b < p.blocks.size) :
    Level p 0 ⟨.replicate p.blocks.size (.none p.vars.size),
      .replicate p.blocks.size (.none p.vars.size)⟩ b := by
  have atBlock : (Array.replicate p.blocks.size (Distances.none p.vars.size)).getD b #[] =
    .none p.vars.size := by rw [Tables.getD_replicate, if_pos lt]
  refine ⟨by simp, ?_, fun v _ => ?_, fun v _ => ?_⟩
  · rw [startOf, endOf, atBlock]
    simp [Distances.none]
  · rw [startOf, atBlock, Distances.of_none]
    exact Finds.nothing.mono (fun d => not_readWithin_zero) fun _ => False.elim
  · rw [endOf, atBlock, Distances.of_none]
    refine Finds.nothing.mono (fun d isNear => ?_) fun _ => False.elim
    obtain ⟨s, edge, seen, few, -⟩ := isNear
    cases few

/-- Recomputing a block looks one block further. -/
theorem level_updateBlock (wf : p.WellFormed) (known : ∀ c < p.blocks.size, Level p k n c)
    (lt : b < p.blocks.size) : Level p (k + 1) (updateBlock p n b) b := by
  obtain ⟨starts, ends⟩ := (known b lt).sizes
  have inside : ∀ s ∈ (p.block b).succs, Level p k n s :=
    fun s edge => known s (wf.inside b s edge).1
  have size := (known b lt).vars.2
  have sizes : ∀ s ∈ (p.block b).succs, Array.size (n.startOf s) = Array.size (n.endOf b) :=
    fun s edge => (inside s edge).vars.1.trans size.symm
  change Level p (k + 1)
    ⟨n.starts.setIfInBounds b ((_ : Distances).through _ _), n.ends.setIfInBounds b _⟩ b
  generalize isOut : (p.block b).succs.foldl (fun (d : Distances) s => d.meet (n.startOf s))
    (n.endOf b) = out
  have outSize : Array.size out = p.vars.size := isOut ▸ (Distances.size_meets sizes).trans size
  have atEnd : ∀ v < p.vars.size,
      Finds (p.ReadBehind v b (k + 1)) (fun d => ∃ j, p.ReadBehind v b j d) (out.of v) := by
    intro v declared
    have meets := Distances.finds_meets sizes (size.symm ▸ declared)
      ((known b lt).finish v declared) fun s edge => (inside s edge).start v declared
    refine (isOut ▸ meets).mono (fun d behind => .inr (readBehind_succ.mp behind)) ?_
    rintro d (old | ⟨s, edge, j, lt⟩)
    · exact old
    · exact ⟨j + 1, readBehind_succ.mpr ⟨s, edge, lt⟩⟩
  refine ⟨by simpa using ⟨starts, ends⟩, ?_, fun v declared => ?_, fun v declared => ?_⟩
  · simp only [startOf, endOf, Tables.getD_setIfInBounds, starts, ends, lt, and_self, if_true]
    exact ⟨(Distances.size_through ..).trans outSize, outSize⟩
  · simp only [startOf, Tables.getD_setIfInBounds, starts, lt, and_self, if_true]
    refine (Distances.finds_through (outSize ▸ declared) (atEnd v declared) _).mono
      (fun d => readWithin_succ.mp) fun d ahead => ?_
    rcases ahead with isRead | ⟨unset, e, ⟨j, behind⟩, same⟩
    · exact ⟨1, readWithin_succ.mpr (.inl isRead)⟩
    · exact ⟨j + 1, readWithin_succ.mpr (.inr ⟨unset, e, behind.mono (Nat.le_succ j), same⟩)⟩
  · simp only [endOf, Tables.getD_setIfInBounds, ends, lt, and_self, if_true]
    exact atEnd v declared

theorem level_of_ne {c : BlockId} (other : c ≠ b) (level : Level p k n c) :
    Level p k (updateBlock p n b) c := by
  have start : (updateBlock p n b).startOf c = n.startOf c := by
    simp only [updateBlock, startOf, Tables.getD_setIfInBounds, Ne.symm other, false_and, if_false]
  have finish : (updateBlock p n b).endOf c = n.endOf c := by
    simp only [updateBlock, endOf, Tables.getD_setIfInBounds, Ne.symm other, false_and, if_false]
  exact ⟨by simpa [updateBlock] using level.sizes, by rw [start, finish]; exact level.vars,
    start.symm ▸ level.start, finish.symm ▸ level.finish⟩

theorem level_round (wf : p.WellFormed) (ordered : p.Ordered)
    (known : ∀ b < p.blocks.size, Level p k n b) :
    ∀ b < p.blocks.size, Level p (k + 1) (round p n) b := by
  have raised : ∀ b, b ∈ p.postorder ∨ (b < p.blocks.size → Level p (k + 1) n b) →
      b < p.blocks.size → Level p (k + 1) (round p n) b :=
    foldl_levels (fun k n b => b < p.blocks.size → Level p k n b)
      (fun b _ n known => level_updateBlock wf known) (fun _ _ level lt => (level lt).lower)
      (fun _ _ _ _ other level lt => level_of_ne other (level lt)) n known
  exact fun b lt => raised b (.inl ((ordered.mem b).mpr lt)) lt

/-! ## Shortest paths -/

section Exact

variable (wf : p.WellFormed) (ordered : p.Ordered)

include wf ordered

theorem level_ofProcedure : ∀ b < p.blocks.size,
    Level p (2 * p.blocks.size * p.vars.size * (p.instCount + 2) + 2) (ofProcedure p) b := by
  have rounds := stabilize_induction (round p) (fun k n => ∀ b < p.blocks.size, Level p k n b)
    (fun k n known => level_round wf ordered known)
    (2 * p.blocks.size * p.vars.size * (p.instCount + 2) + 2) 0 _ fun _ => level_none p
  rwa [Nat.zero_add] at rounds

variable (bounded : p.Bounded)

include bounded

omit ordered in
/-- There are as many rounds as it takes to look along every path. -/
theorem enough {d : Nat} (far : ∃ j, p.ReadWithin v b j d) :
    ∃ e ≤ d, p.ReadWithin v b (2 * p.blocks.size * p.vars.size * (p.instCount + 2) + 1) e := by
  obtain ⟨j, seen, -, coming⟩ := far
  have some : 1 ≤ p.vars.size * (p.instCount + 2) :=
    Nat.mul_pos (Nat.zero_lt_of_lt (coming.declared bounded)) (by omega)
  have many := Nat.mul_le_mul (Nat.le_mul_of_pos_left p.blocks.size Nat.two_pos) some
  rw [← Nat.mul_assoc] at many
  exact coming.readWithin wf (by omega)

omit ordered in
theorem enough_behind {d : Nat} (far : ∃ j, p.ReadBehind v b j d) :
    ∃ e ≤ d, p.ReadBehind v b (2 * p.blocks.size * p.vars.size * (p.instCount + 2) + 2) e := by
  obtain ⟨j, behind⟩ := far
  obtain ⟨s, edge, lt⟩ := readBehind_succ.mp (behind.mono (Nat.le_succ j))
  obtain ⟨e, le, lt⟩ := enough wf bounded ⟨j, lt⟩
  exact ⟨e, le, readBehind_succ.mpr ⟨s, edge, lt⟩⟩

/-- Distances found in the end, also where there is no such block or variable. -/
theorem finds_ofProcedure (b : BlockId) (v : VarId) :
    Finds (p.ReadWithin v b (2 * p.blocks.size * p.vars.size * (p.instCount + 2) + 2))
      (fun d => ∃ j, p.ReadWithin v b j d) (((ofProcedure p).startOf b).of v) ∧
    Finds (p.ReadBehind v b (2 * p.blocks.size * p.vars.size * (p.instCount + 2) + 2))
      (fun d => ∃ j, p.ReadBehind v b j d) (((ofProcedure p).endOf b).of v) := by
  have level := level_ofProcedure wf ordered
  by_cases known : b < p.blocks.size ∧ v < p.vars.size
  · exact ⟨(level b known.1).start v known.2, (level b known.1).finish v known.2⟩
  · have nothing : ((ofProcedure p).startOf b).of v = none ∧
        ((ofProcedure p).endOf b).of v = none := by
      by_cases lt : b < p.blocks.size
      · have beyond := Nat.le_of_not_lt fun declared => known ⟨lt, declared⟩
        obtain ⟨starts, ends⟩ := (level b lt).vars
        exact ⟨Tables.getD_of_size_le _ _ (starts ▸ beyond),
          Tables.getD_of_size_le _ _ (ends ▸ beyond)⟩
      · obtain ⟨starts, ends⟩ := (level 0 wf.nonempty).sizes
        rw [startOf, endOf, Tables.getD_of_size_le _ _ (starts ▸ Nat.le_of_not_lt lt),
          Tables.getD_of_size_le _ _ (ends ▸ Nat.le_of_not_lt lt)]
        exact ⟨rfl, rfl⟩
    rw [nothing.1, nothing.2]
    constructor
    · refine Finds.nothing.mono (fun d ⟨_, _, coming⟩ => ?_) fun _ => False.elim
      exact known ⟨coming.lt_size, coming.declared bounded⟩
    · refine Finds.nothing.mono (fun d ⟨_, edge, _, _, coming⟩ => ?_) fun _ => False.elim
      exact known ⟨lt_size_of_mem_succs edge, coming.declared bounded⟩

private theorem of_startOf {d : Nat} : ((ofProcedure p).startOf b).of v = some d ↔
    (∃ seen, p.Upcoming v seen b (p.block b).insts d) ∧
    ∀ seen e, p.Upcoming v seen b (p.block b).insts e → d ≤ e := by
  have finds := (finds_ofProcedure wf ordered bounded b v).1
  rw [finds.eq_some_iff fun d far => ?_, exists_readWithin]
  · exact and_congr_right
      fun _ => ⟨fun least seen e coming => least e (exists_readWithin.mpr ⟨seen, coming⟩),
      fun least e far => by
        obtain ⟨seen, coming⟩ := exists_readWithin.mp far; exact least seen e coming⟩
  · obtain ⟨e, le, lt⟩ := enough wf bounded far
    exact ⟨e, le, lt.mono (Nat.le_succ _)⟩

omit wf ordered bounded in
/-- What was found out about a block by enough rounds is all there is. -/
theorem Level.unique {n' : NextUse} (level : Level p k n b) (level' : Level p k n' b)
    (enough : ∀ v d, (∃ j, p.ReadWithin v b j d) → ∃ e ≤ d, p.ReadWithin v b k e)
    (enoughBehind : ∀ v d, (∃ j, p.ReadBehind v b j d) → ∃ e ≤ d, p.ReadBehind v b k e) :
    n.startOf b = n'.startOf b ∧ n.endOf b = n'.endOf b := by
  exact ⟨Tables.ext_getD level.vars.1 level'.vars.1 none fun v declared =>
      (level.start v declared).unique (level'.start v declared) (enough v),
    Tables.ext_getD level.vars.2 level'.vars.2 none fun v declared =>
      (level.finish v declared).unique (level'.finish v declared) (enoughBehind v)⟩

/-- One more round leaves the distances as they are. -/
theorem round_ofProcedure : round p (ofProcedure p) = ofProcedure p := by
  have level := level_ofProcedure wf ordered
  have next := fun b lt => (level_round wf ordered level b lt).lower
  have same := fun b lt => (next b lt).unique (level b lt) (fun v d far => by
      obtain ⟨e, le, lt⟩ := enough wf bounded far
      exact ⟨e, le, lt.mono (Nat.le_succ _)⟩)
    fun v d => enough_behind wf bounded
  obtain ⟨starts, ends⟩ := (level 0 wf.nonempty).sizes
  obtain ⟨starts', ends'⟩ := (next 0 wf.nonempty).sizes
  exact NextUse.mk.injEq .. ▸ ⟨Tables.ext_getD starts' starts #[] fun b lt => (same b lt).1,
    Tables.ext_getD ends' ends #[] fun b lt => (same b lt).2⟩

end Exact

/-- Distances are those of shortest paths, and one more round leaves them as they are. -/
structure Exact (n : NextUse) (p : Procedure) : Prop where
  stable : round p n = n
  live : ∀ b v, ((n.startOf b).of v).isSome = true ↔
    ((Liveness.ofProcedure p).inOf b).contains v = true
  starts : ∀ b v d, (n.startOf b).of v = some d ↔
    (∃ seen, p.Upcoming v seen b (p.block b).insts d) ∧
    ∀ seen e, p.Upcoming v seen b (p.block b).insts e → d ≤ e
  ends : ∀ b v d, (n.endOf b).of v = some d ↔
    (∃ s ∈ (p.block b).succs, (n.startOf s).of v = some d) ∧
    ∀ s ∈ (p.block b).succs, ∀ e, (n.startOf s).of v = some e → d ≤ e

/-- The distances of a flow graph are shortest. -/
theorem exact_nextUse (wf : p.WellFormed) (ordered : p.Ordered) (bounded : p.Bounded) :
    (ofProcedure p).Exact p := by
  have finds := finds_ofProcedure wf ordered bounded
  have found : ∀ {b v seen d}, p.Upcoming v seen b (p.block b).insts d →
      ∃ e ≤ d, ((ofProcedure p).startOf b).of v = some e := by
    intro b v seen d coming
    obtain ⟨e, le, lt⟩ := enough wf bounded (exists_readWithin.mpr ⟨seen, coming⟩)
    obtain ⟨least, le', isFound⟩ := (finds b v).1.all e (lt.mono (Nat.le_succ _))
    exact ⟨least, Nat.le_trans le' le, isFound⟩
  refine ⟨round_ofProcedure wf ordered bounded, fun b v => ?_,
    fun b v d => of_startOf wf ordered bounded, fun b v d => ?_⟩
  · rw [Liveness.contains_inOf wf ordered bounded, Option.isSome_iff_exists]
    constructor
    · rintro ⟨d, isFound⟩
      obtain ⟨⟨seen, coming⟩, -⟩ := (of_startOf wf ordered bounded).mp isFound
      exact ⟨seen, d, coming⟩
    · rintro ⟨seen, d, coming⟩
      obtain ⟨e, -, isFound⟩ := found coming
      exact ⟨e, isFound⟩
  · rw [(finds b v).2.eq_some_iff fun d => enough_behind wf bounded]
    constructor
    · rintro ⟨⟨j, s, edge, seen, -, coming⟩, least⟩
      have behind : ∀ {s seen e}, s ∈ (p.block b).succs → p.Upcoming v seen s (p.block s).insts e →
          d ≤ e :=
        fun edge coming => least _ ⟨_, _, edge, _, Nat.lt_succ_self _, coming⟩
      refine ⟨⟨s, edge, (of_startOf wf ordered bounded).mpr
        ⟨⟨seen, coming⟩, fun _ e => behind edge⟩⟩, fun s edge e isFound => ?_⟩
      obtain ⟨⟨seen, coming⟩, -⟩ := (of_startOf wf ordered bounded).mp isFound
      exact behind edge coming
    · rintro ⟨⟨s, edge, isFound⟩, least⟩
      obtain ⟨⟨seen, coming⟩, -⟩ := (of_startOf wf ordered bounded).mp isFound
      refine ⟨⟨_, s, edge, seen, Nat.lt_succ_self _, coming⟩, ?_⟩
      rintro e ⟨j, s, edge, seen, -, coming⟩
      obtain ⟨e', le, isFound⟩ := found coming
      exact Nat.le_trans (least s edge e' isFound) le

/-- In the loop whose phi is in memory, the argument is one instruction away from the start, on
every path. -/
theorem exact_nextUse_countingInMemory : countingInMemory.WellFormed ∧ countingInMemory.Ordered ∧
    countingInMemory.Bounded ∧ (ofProcedure countingInMemory).Exact countingInMemory ∧
    (∃ seen, countingInMemory.Upcoming 0 seen 0 (countingInMemory.block 0).insts 1) ∧
      ∀ seen e, countingInMemory.Upcoming 0 seen 0 (countingInMemory.block 0).insts e → 1 ≤ e := by
  have isExact := exact_nextUse wellFormed_countingInMemory ordered_countingInMemory
    bounded_countingInMemory
  exact ⟨wellFormed_countingInMemory, ordered_countingInMemory, bounded_countingInMemory, isExact,
    (isExact.starts 0 0 1).mp (by decide +kernel)⟩

end NextUse

end ArmBackend
