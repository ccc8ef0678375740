import ArmBackend.Proofs.Ssa.Preservation

/-!
Contract: what renaming does where every read is of something assigned.

Owns: assignment ahead of every read as a property of paths, and that renaming such a procedure
makes no version that nothing defines.
Does not own: which versions are current where.
-/

namespace ArmBackend

open List

/-- What an instruction reads is an argument or is assigned ahead of it on every path from the
entry. -/
def Procedure.AssignsReads (p : Procedure) : Prop :=
  ∀ (b : BlockId) (rest : List BlockId), p.Path (b :: rest) b →
    ∀ (passed : List Inst) (i : Inst) (more : List Inst), (p.block b).insts = passed ++ i :: more →
      ∀ x ∈ i.uses, x ∈ p.args ∨ (∃ j ∈ passed, x ∈ j.defs) ∨
      ∃ c ∈ rest, ∃ j ∈ (p.block c).insts, x ∈ j.defs

/-- A table of variables assigned ahead of each block: arguments at the entry, and elsewhere what is
listed for all predecessors or assigned in them. All reads are of listed variables. -/
def Procedure.AssignedAhead (p : Procedure) (table : BlockId → List VarId) : Prop :=
  (∀ x ∈ table entry, x ∈ p.args) ∧ ∀ b ∈ p.blockIds,
    (∀ s ∈ (p.block b).succs, ∀ x ∈ table s, x ∈ table b ++ (p.block b).insts.flatMap Inst.defs) ∧
      ∀ i ∈ (p.block b).insts, ∀ x ∈ i.uses, x ∈ table b

instance (p : Procedure) (table : BlockId → List VarId) : Decidable (p.AssignedAhead table) :=
  inferInstanceAs (Decidable (_ ∧ _))

/-- A table is enough to know that reads are assigned. -/
theorem Procedure.AssignedAhead.assignsReads {p : Procedure} {table : BlockId → List VarId}
    (ahead : p.AssignedAhead table) : p.AssignsReads := by
  obtain ⟨start, blocks⟩ := ahead
  -- By induction on the path: what the table lists is an argument or assigned on the way.
  have onPath : ∀ seen b, p.Path seen b → ∀ x ∈ table b, x ∈ p.args ∨
      ∃ c ∈ seen.tail, ∃ j ∈ (p.block c).insts, x ∈ j.defs := by
    intro seen b path
    induction path with
    | start => exact fun x listed => .inl (start x listed)
    | @extend seen c b path edge ih =>
      intro x listed
      have lt := mem_blockIds.mpr (lt_size_of_mem_succs edge)
      rcases mem_append.mp ((blocks c lt).1 b edge x listed) with before | written
      · exact (ih x before).imp_right fun ⟨d, mem, assigns⟩ =>
          ⟨d, mem_of_mem_tail mem, assigns⟩
      · obtain ⟨j, inBlock, writes⟩ := mem_flatMap.mp written
        exact .inr ⟨c, path.mem, j, inBlock, writes⟩
  intro b rest path passed i more split x read
  have mem : i ∈ (p.block b).insts := split ▸ by simp
  have lt : b < p.blocks.size := by
    apply Nat.lt_of_not_le
    intro beyond
    rw [block_of_size_le p beyond] at mem
    cases mem
  exact (onPath _ b path x ((blocks b (mem_blockIds.mpr lt)).2 i mem x read)).imp_right .inr

namespace Renaming

open Procedure

variable {origin : VarId → Origin} {before after : VersionMap} {x : VarId}
variable {i i' : Inst} {insts new : List Inst} {pairs : List (VarId × VarId)}

/-- All versions are ones that something defines. -/
def Definite (origin : VarId → Origin) (versions : VersionMap) : Prop :=
  ∀ x d, versions x = some d → (origin d).isDefined = true

private theorem Definite.define {d y : VarId} (definite : Definite origin before)
    (isOrigin : origin d = ⟨y, true⟩) : Definite origin (before.define y d) := by
  intro x u isVersion
  unfold VersionMap.define at isVersion
  split at isVersion
  · rw [← Option.some.inj isVersion, isOrigin]
  · exact definite x u isVersion

/-! ## Along a block -/

theorem Renames.undefined (renames : Renames origin before i i' after)
    (none : definedIn origin after x = none) : definedIn origin before x = .none ∧ x ∉ i.defs := by
  cases renames with
  | read extends_ present defs =>
    rw [extends_.definedIn_eq] at none
    exact ⟨none, by simp [defs]⟩
  | define extends_ present defs isOrigin =>
    rw [definedIn_define isOrigin, extends_.definedIn_eq, VersionMap.define] at none
    split at none
    · cases none
    · exact ⟨none, by simpa [defs]⟩

theorem RenamesAll.undefined (renames : RenamesAll origin before insts new after)
    (none : definedIn origin after x = none) :
    definedIn origin before x = .none ∧ ∀ i ∈ insts, x ∉ i.defs := by
  induction renames with
  | nil => exact ⟨none, by simp⟩
  | cons first more ih =>
    obtain ⟨middle, later⟩ := ih none
    obtain ⟨early, now⟩ := first.undefined middle
    exact ⟨early, forall_mem_cons.mpr ⟨now, later⟩⟩

private theorem Definite.defineAll (definite : Definite origin before)
    (origins : ∀ pair ∈ pairs, origin pair.2 = ⟨pair.1, true⟩) :
    Definite origin (before.defineAll pairs) := by
  intro x d isVersion
  rcases before.defineAll_cases pairs x with ⟨-, same⟩ | ⟨e, mem, isLast⟩
  · exact definite x d (same ▸ isVersion)
  · rw [isLast, Option.some.injEq] at isVersion
    rw [← isVersion, origins _ mem]

/-- An instruction that reads variables with versions makes none that nothing defines. -/
theorem Renames.definite (renames : Renames origin before i i' after)
    (definite : Definite origin before) (known : ∀ x ∈ i.uses, definedIn origin before x ≠ none) :
    Definite origin after ∧ ∀ u ∈ i'.uses, (origin u).isDefined = true := by
  have present : ∀ x ∈ i.uses, before x ≠ none := fun x read none =>
    known x read (by rw [definedIn, none]; rfl)
  have reads : ∀ u ∈ (i.mapUses before.reading).uses, (origin u).isDefined = true := by
    intro u read
    rw [Inst.uses_mapUses] at read
    obtain ⟨x, isRead, rfl⟩ := mem_map.mp read
    obtain ⟨d, isVersion⟩ := Option.ne_none_iff_exists'.mp (present x isRead)
    rw [VersionMap.reading, isVersion]
    exact definite x d isVersion
  cases renames with
  | read extends_ =>
    obtain rfl := extends_.eq present
    exact ⟨definite, reads⟩
  | define extends_ _ _ isOrigin =>
    obtain rfl := extends_.eq present
    rw [Inst.uses_mapDefs]
    exact ⟨definite.define isOrigin, reads⟩

private theorem RenamesAll.definite (renames : RenamesAll origin before insts new after)
    (definite : Definite origin before)
    (known : ∀ passed i more, insts = passed ++ i :: more → ∀ x ∈ i.uses,
      definedIn origin before x ≠ none ∨ ∃ j ∈ passed, x ∈ j.defs) :
    Definite origin after ∧ ∀ i ∈ new, ∀ u ∈ i.uses, (origin u).isDefined = true := by
  induction renames with
  | nil => exact ⟨definite, by simp⟩
  | @cons before mid after i i' rest rest' first more ih =>
    obtain ⟨definite', reads⟩ := first.definite definite fun x read =>
      (known [] i rest rfl x read).resolve_right (by simp)
    obtain ⟨definite'', later⟩ := ih definite' (by
      intro passed j tail split x read
      rcases known (i :: passed) j tail (by rw [split]; rfl) x read with early | ⟨k, mem, writes⟩
      · exact .inl fun none => early (first.undefined none).1
      · rcases mem_cons.mp mem with rfl | earlier
        · exact .inl fun none => (first.undefined none).2 writes
        · exact .inr ⟨k, earlier, writes⟩)
    exact ⟨definite'', forall_mem_cons.mpr ⟨reads, later⟩⟩

/-! ## Across blocks -/

namespace Constructed

variable {p q : Procedure} {t : DomTree} {vars : BlockId → List VarId} {ends : BlockId → VersionMap}
  {pairs : BlockId → List (VarId × VarId)} {bodies : BlockId → List Inst}
variable {b : BlockId}

section

variable (ssa : Constructed p q t vars origin ends pairs bodies)

include ssa

theorem undefined_body (lt : b < p.blocks.size)
    (none : definedIn origin (bodyStart p t ends pairs b) x = none) :
    definedIn origin (startOf p t ends b) x = .none ∧ x ∉ vars b := by
  rcases ssa.definedIn_body lt x with ⟨absent, same⟩ | ⟨d, -, isLast⟩
  · exact ⟨same ▸ none, absent⟩
  · rw [isLast] at none
    cases none

variable (input : Input p t vars) (phiVars : p.PhiVars (.ofTree p t) (exposed p) vars)

include input phiVars

private theorem exists_path (isExposed : x ∈ exposed p) (lt : b < p.blocks.size)
    (none : definedIn origin (startOf p t ends b) x = none) (noPhi : x ∉ vars b) :
    x ∉ p.args ∧ ∃ rest, p.Path (b :: rest) b ∧
      ∀ c ∈ rest, ∀ j ∈ (p.block c).insts, x ∉ j.defs := by
  obtain ⟨seen, path⟩ := input.ordered.exists_path lt
  clear lt
  induction path with
  | start =>
    refine ⟨fun isArg => ?_, [], .start, by simp⟩
    rw [startOf, input.tree.root] at none
    have defined : definedIn origin (initial p) x = some x := by
      rw [definedIn_eq_some, initial, if_pos (List.contains_iff_mem.mpr isArg),
        ssa.own x (input.arg_lt x isArg)]
      exact ⟨rfl, List.contains_iff_mem.mpr isArg⟩
    rw [defined] at none
    cases none
  | @extend seen c b path edge ih =>
    have inside := path.lt_size input.wf.linked c path.mem
    rw [ssa.definedIn_edge input.wf input.ordered input.tree phiVars isExposed edge noPhi] at none
    obtain ⟨atBody, unwritten⟩ := (ssa.renamed c inside).steps.undefined none
    obtain ⟨atStart, absent⟩ := ssa.undefined_body inside atBody
    obtain ⟨noArg, rest, path', free⟩ := ih atStart absent
    exact ⟨noArg, c :: rest, path'.extend edge, forall_mem_cons.mpr ⟨unwritten, free⟩⟩

/-- A block that starts with versions that something defines makes no others. -/
theorem definite_block (assigned : p.AssignsReads) (lt : b < p.blocks.size)
    (definite : Definite origin (startOf p t ends b)) :
    Definite origin (ends b) ∧ ∀ i ∈ bodies b, ∀ u ∈ i.uses, (origin u).isDefined = true := by
  obtain ⟨-, origins, body⟩ := ssa.renamed b lt
  refine body.definite (definite.defineAll origins) fun passed i more split x read => ?_
  by_cases written : ∃ j ∈ passed, x ∈ j.defs
  · exact .inr written
  refine .inl fun none => ?_
  have isExposed := (input.mem_exposed split read).resolve_right written
  obtain ⟨atStart, absent⟩ := ssa.undefined_body lt none
  obtain ⟨noArg, rest, path, free⟩ := ssa.exists_path input phiVars isExposed lt atStart absent
  rcases assigned b rest path passed i more split x read with
    isArg | isPassed | ⟨c, mem, j, inC, writes⟩
  · exact noArg isArg
  · exact written isPassed
  · exact free c mem j inC writes

theorem definite_start (assigned : p.AssignsReads) (lt : b < p.blocks.size)
    : Definite origin (startOf p t ends b) := by
  have above := input.tree.above_entry lt
  induction above with
  | refl =>
    rw [startOf_entry input.tree]
    intro x d isVersion
    by_cases isArg : p.args.contains x = true
    · rw [initial, if_pos isArg, Option.some.injEq] at isVersion
      rw [← isVersion, ssa.own x (input.arg_lt x (List.contains_iff_mem.mp isArg))]
      exact isArg
    · rw [initial, if_neg isArg] at isVersion
      cases isVersion
  | @up c parent isParent other above ih =>
    have inside := (input.tree.parent_lt isParent).1
    rw [startOf, isParent]
    exact (ssa.definite_block input phiVars assigned inside (ih inside)).1

end

end Constructed

end Renaming

end ArmBackend
