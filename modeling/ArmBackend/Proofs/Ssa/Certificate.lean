import ArmBackend.Proofs.FlowGraph.Padding
import ArmBackend.Proofs.Ssa.Assignment

/-!
Contract: what makes a procedure a renaming of one with fewer variables.

Each variable is a version of a source. At every point at most one version of a source is current:
reads are of current versions, a definition makes its variable current, and a version that is
current at the start of a block comes from a phi there or is current at the ends of all
predecessors. Versions that nothing defines may be read anywhere.

Owns: this certificate, and that single-assignment construction leaves a procedure that has it.
Does not own: runs, and which passes keep the certificate.
-/

namespace ArmBackend

open List Procedure

/-- Which version of each source is current where. -/
structure Versions where
  /-- Sources are numbered below this. -/
  sources : Nat
  /-- What a variable is a version of. -/
  source : VarId → VarId
  /-- Does nothing define the variable? -/
  unset : VarId → Bool
  /-- The current versions after the phis of a block. -/
  atBody : BlockId → VersionMap
  atEnd : BlockId → VersionMap

namespace Versions

/-- The current versions after an instruction. -/
def after (vs : Versions) (current : VersionMap) (i : Inst) : VersionMap :=
  i.defs.foldl (fun current d => current.define (vs.source d) d) current

/-- A variable that may be read where the given versions are current. -/
def Readable (vs : Versions) (current : VersionMap) (u : VarId) : Prop :=
  vs.source u < vs.sources ∧ (current (vs.source u) = some u ∨ vs.unset u = true)

/-- A variable that something defines. -/
def Set (vs : Versions) (d : VarId) : Prop := vs.source d < vs.sources ∧ vs.unset d = false

/-- Instructions that read current versions, from one point to a later one. -/
inductive Follows (vs : Versions) : VersionMap → List Inst → VersionMap → Prop
  | nil {current : VersionMap} : Follows vs current [] current
  | cons {current final : VersionMap} {i : Inst} {rest : List Inst}
      (reads : ∀ u ∈ i.uses, vs.Readable current u) (defs : ∀ d ∈ i.defs, vs.Set d)
      (more : Follows vs (vs.after current i) rest final) : Follows vs current (i :: rest) final

/-- Only what something defines can be read. -/
def Strict (vs : Versions) : Prop := ∀ v, vs.unset v = false

/-- Current versions stand for their own sources, and something defines them. -/
def Faithful (vs : Versions) (current : VersionMap) :
    Prop := ∀ x v, current x = some v → vs.source v = x ∧ vs.Set v

end Versions

namespace Procedure

/-- The certificate holds of a procedure. -/
structure Versioned (p : Procedure) (vs : Versions) : Prop where
  sources : vs.sources ≤ p.nextVar
  inside : ∀ u, vs.source u < vs.sources → u < p.nextVar
  listed : ∀ v, vs.Set v → v ∈ p.args ++ p.locals
  args : ∀ a ∈ p.args, vs.source a = a ∧ vs.Set a
  follows : ∀ b < p.blocks.size, vs.Follows (vs.atBody b) (p.block b).body (vs.atEnd b)
  faithful : ∀ b < p.blocks.size, vs.Faithful (vs.atBody b)
  phi : ∀ b < p.blocks.size, ∀ phi ∈ (p.block b).phis, vs.atBody b (vs.source phi.dst) =
    some phi.dst
  phiArg : ∀ b < p.blocks.size, ∀ phi ∈ (p.block b).phis,
    ∀ (slot : Nat) (pred : BlockId) (a : VarId),
    (p.block b).preds[slot]? = some pred → phi.args[slot]? = some (some a) →
    vs.source a = vs.source phi.dst ∧ vs.Readable (vs.atEnd pred) a
  edge : ∀ b < p.blocks.size, ∀ x v, vs.atBody b x = some v →
    (b = entry ∧ v ∈ p.args) ∨ (∃ phi ∈ (p.block b).phis, phi.dst = v) ∨
      (b ≠ entry ∧ ∀ pred ∈ (p.block b).preds, vs.atEnd pred x = some v)

/-- A flow graph in form, without spill code, that some certificate holds of. The certificate is
strict if reads are known to be assigned. -/
structure Certified (p : Procedure) (assigned : Prop) : Prop where
  wf : p.WellFormed
  ordinary : ∀ b < p.blocks.size, ∀ i ∈ (p.block b).insts, i.isInner = true → i.isOrdinary = true
  noPhis : (p.block entry).phis = []
  versioned : ∃ vs, p.Versioned vs ∧ (assigned → vs.Strict)

theorem Certified.mono {p : Procedure} {assigned assigned' : Prop} (cert : p.Certified assigned)
    (weaker : assigned' → assigned) : p.Certified assigned' := by
  obtain ⟨vs, versioned, strict⟩ := cert.versioned
  exact ⟨cert.wf, cert.ordinary, cert.noPhis, vs, versioned, fun holds => strict (weaker holds)⟩

/-- Two procedures that declare the same variables. -/
structure SameVars (p q : Procedure) : Prop where
  args : q.args = p.args
  locals : q.locals = p.locals
  vars : q.vars = p.vars

theorem SameVars.trans {p q r : Procedure} (first : p.SameVars q) (second : q.SameVars r) :
    p.SameVars r :=
  ⟨second.args.trans first.args, second.locals.trans first.locals, second.vars.trans first.vars⟩

end Procedure

namespace Versions

variable {vs : Versions} {current final : VersionMap} {i : Inst}
variable {first insts second : List Inst} {j : Inst} {vs' : Versions} {x : VarId}

/-- A variable has the version that is defined last, or else the one from before. -/
theorem after_apply (vs : Versions) (current : VersionMap) (i : Inst) (x : VarId) :
    vs.after current i x = (i.defs.reverse.find? (vs.source · == x)).or (current x) := by
  unfold after
  generalize i.defs = defs
  induction defs generalizing current with
  | nil => rfl
  | cons d defs ih =>
    rw [foldl_cons, ih, reverse_cons, find?_append, Option.or_assoc]
    congr 1
    by_cases same : vs.source d = x
    · simp [VersionMap.define, same]
    · simp [VersionMap.define, same, Ne.symm same]

theorem after_cases {v : VarId} (isCurrent : vs.after current i x = some v) :
    (v ∈ i.defs ∧ vs.source v = x) ∨ current x = some v := by
  rw [after_apply, Option.or_eq_some_iff] at isCurrent
  refine isCurrent.imp (fun found => ⟨?_, ?_⟩) And.right
  · exact mem_reverse.mp (mem_of_find?_eq_some found)
  · exact beq_iff_eq.mp (find?_some found :)

theorem after_of_not_mem (unwritten : ∀ d ∈ i.defs, vs.source d ≠ x) :
    vs.after current i x = current x := by
  rw [after_apply, find?_eq_none.mpr fun d mem => ?_, Option.none_or]
  simpa using unwritten d (mem_reverse.mp mem)

theorem after_congr {current' : VersionMap} (defs : j.defs = i.defs)
    (sources : ∀ d ∈ i.defs, vs'.source d = vs.source d) (same : current' x = current x) :
    vs'.after current' j x = vs.after current i x := by
  rw [after_apply, after_apply, defs, same, ← head?_filter, ← head?_filter,
    filter_congr fun d mem => by rw [sources d (mem_reverse.mp mem)]]

theorem after_of_defs_nil (none : i.defs = []) : vs.after current i = current := by
  rw [after, none]
  rfl

private theorem Faithful.after (faithful : vs.Faithful current) (defs : ∀ d ∈ i.defs, vs.Set d) :
    vs.Faithful (vs.after current i) := by
  intro x v isCurrent
  rcases after_cases isCurrent with ⟨mem, isSource⟩ | before
  · exact ⟨isSource, defs v mem⟩
  · exact faithful x v before

theorem Follows.faithful (follows : vs.Follows current insts final)
    (faithful : vs.Faithful current) : vs.Faithful final := by
  induction follows with
  | nil => exact faithful
  | cons reads defs more ih => exact ih (faithful.after defs)

theorem Follows.append {mid : VersionMap} (early : vs.Follows current first mid)
    (late : vs.Follows mid second final) : vs.Follows current (first ++ second) final := by
  induction early with
  | nil => exact late
  | cons reads defs more ih => exact .cons reads defs (ih late)

theorem Follows.append_inv (follows : vs.Follows current (first ++ second) final) :
    ∃ mid, vs.Follows current first mid ∧ vs.Follows mid second final := by
  induction first generalizing current with
  | nil => exact ⟨current, .nil, follows⟩
  | cons i rest ih =>
    cases follows with
    | cons reads defs more =>
      obtain ⟨mid, early, late⟩ := ih more
      exact ⟨mid, .cons reads defs early, late⟩

/-- Another certificate that agrees on what is read and defined. -/
theorem Follows.transfer (follows : vs.Follows current insts final)
    (reads : ∀ i ∈ insts, ∀ u ∈ i.uses, ∀ current, vs.Readable current u → vs'.Readable current u)
    (sets : ∀ d, vs.Set d → vs'.Set d ∧ vs'.source d = vs.source d) :
    vs'.Follows current insts final := by
  induction follows with
  | nil => exact .nil
  | cons readable defs more ih =>
    rw [forall_mem_cons] at reads
    refine .cons (fun u read => reads.1 u read _ (readable u read))
      (fun d isDef => (sets d (defs d isDef)).1) ?_
    rw [show vs'.after _ _ = _ from funext
      fun x => after_congr rfl (fun d isDef => (sets d (defs d isDef)).2) rfl]
    exact ih reads.2

theorem Follows.inside (follows : vs.Follows current insts final) :
    ∀ i ∈ insts, (∀ u ∈ i.uses, vs.source u < vs.sources) ∧ ∀ d ∈ i.defs, vs.Set d := by
  induction follows with
  | nil => exact forall_mem_nil _
  | cons reads defs _ ih => exact forall_mem_cons.mpr ⟨⟨fun u isUse => (reads u isUse).1, defs⟩, ih⟩

theorem Follows.singleton_congr (follows : vs.Follows current [i] final)
    (uses : j.uses = i.uses) (defs : j.defs = i.defs) : vs.Follows current [j] final := by
  cases follows with
  | cons reads set more =>
    cases more with
    | nil =>
      have same : vs.after current i = vs.after current j := by
        rw [Versions.after, Versions.after, defs]
      rw [same]
      exact .cons (uses ▸ reads) (defs ▸ set) .nil

end Versions

/-! ## Strict certificates -/

namespace Versions

variable {vs : Versions}
variable {u : VarId}

/-- The certificate without the variables that nothing defines. -/
def strict (vs : Versions) : Versions :=
  { vs with
    source := fun u => if vs.unset u = true then vs.sources else vs.source u
    unset := fun _ => false }

theorem source_strict (isSet : vs.unset u = false) :
    vs.strict.source u = vs.source u := if_neg (by simp [isSet])

private theorem set_strict : vs.strict.Set u ↔ vs.Set u := by
  cases isUnset : vs.unset u with
  | false =>
    unfold Set
    rw [source_strict isUnset, isUnset]
    exact Iff.rfl
  | true =>
    have source : vs.strict.source u = vs.sources := if_pos isUnset
    constructor
    · intro set
      exact absurd (source ▸ set.1) (Nat.lt_irrefl _)
    · intro set
      rw [set.2] at isUnset
      cases isUnset

private theorem Readable.strict {current : VersionMap} (readable : vs.Readable current u)
    (isSet : vs.unset u = false) : vs.strict.Readable current u := by
  obtain ⟨below, isCurrent | isUnset⟩ := readable
  · refine ⟨?_, .inl ?_⟩ <;> rw [source_strict isSet]
    · exact below
    · exact isCurrent
  · rw [isSet] at isUnset
    cases isUnset

end Versions

/-- Where nothing reads a variable that nothing defines, these variables can be left out. -/
theorem Procedure.Versioned.strict {p : Procedure} {vs : Versions} (versioned : p.Versioned vs)
    (reads : ∀ b < p.blocks.size, ∀ i ∈ (p.block b).body, ∀ u ∈ i.uses, vs.unset u = false)
    (phiReads : ∀ b < p.blocks.size, ∀ phi ∈ (p.block b).phis, ∀ a, some a ∈ phi.args →
      vs.unset a = false) :
    p.Versioned vs.strict where
  sources := versioned.sources
  inside u below := by
    cases isUnset : vs.unset u with
    | false => exact versioned.inside u (Versions.source_strict isUnset ▸ below)
    | true =>
      have source : vs.strict.source u = vs.sources := if_pos isUnset
      exact absurd (source ▸ below) (Nat.lt_irrefl _)
  listed v set := versioned.listed v (Versions.set_strict.mp set)
  args a mem := by
    obtain ⟨source, set⟩ := versioned.args a mem
    exact ⟨(Versions.source_strict set.2).trans source, Versions.set_strict.mpr set⟩
  follows b lt := (versioned.follows b lt).transfer
    (fun i mem u read _ readable => readable.strict (reads b lt i mem u read))
    fun d set => ⟨Versions.set_strict.mpr set, Versions.source_strict set.2⟩
  faithful b lt x v isCurrent := by
    obtain ⟨source, set⟩ := versioned.faithful b lt x v isCurrent
    exact ⟨(Versions.source_strict set.2).trans source, Versions.set_strict.mpr set⟩
  phi b lt phi mem := by
    have isCurrent := versioned.phi b lt phi mem
    rw [Versions.source_strict (versioned.faithful b lt _ _ isCurrent).2.2]
    exact isCurrent
  phiArg b lt phi mem slot pred a isPred isArg := by
    obtain ⟨same, readable⟩ := versioned.phiArg b lt phi mem slot pred a isPred isArg
    have isSet := phiReads b lt phi mem a (mem_of_getElem? isArg)
    have isCurrent := versioned.phi b lt phi mem
    rw [Versions.source_strict isSet,
      Versions.source_strict (versioned.faithful b lt _ _ isCurrent).2.2]
    exact ⟨same, readable.strict isSet⟩
  edge := versioned.edge

/-! ## Single-assignment construction -/

namespace Renaming

/-- The versions of some variables only. -/
def among (vars : List VarId) (versions : VersionMap) : VersionMap :=
  fun x => if vars.contains x then versions x else none

variable {p q : Procedure} {t : DomTree} {vars : BlockId → List VarId} {origin : VarId → Origin}
  {ends : BlockId → VersionMap} {pairs : BlockId → List (VarId × VarId)}
  {bodies : BlockId → List Inst} {before mid after : VersionMap}

theorem among_eq_some {vars : List VarId} {versions : VersionMap} {x d : VarId} :
    among vars versions x = some d ↔ x ∈ vars ∧ versions x = some d := by
  unfold among
  split
  · rename_i mem
    simp [List.contains_iff_mem.mp mem]
  · rename_i absent
    rw [List.contains_iff_mem] at absent
    simp [absent]

/-- The certificate that renaming leaves. A version counts from where its source may be read. -/
def versions (p : Procedure) (origin : VarId → Origin) (starts ends : BlockId → VersionMap) :
    Versions where
  sources := p.nextVar
  source d := (origin d).source
  unset d := !(origin d).isDefined
  atBody b := among (exposed p) (definedIn origin (starts b))
  atEnd b := among ((p.block b).insts.flatMap Inst.defs ++ exposed p) (definedIn origin (ends b))

theorem among_congr {few many : List VarId} (same : ∀ x, x ∈ few ↔ x ∈ many)
    (versions : VersionMap) : among few versions = among many versions := by
  funext x
  unfold among
  have both : few.contains x = many.contains x := by
    rw [Bool.eq_iff_iff, List.contains_iff_mem, List.contains_iff_mem]
    exact same x
  rw [both]

private theorem among_define {vars : List VarId} {versions : VersionMap} {x d : VarId} :
    among (x :: vars) (versions.define x d) = (among vars versions).define x d := by
  funext y
  by_cases same : y = x
  · simp [among, VersionMap.define, same]
  · simp [among, VersionMap.define, same]

section

variable {starts : BlockId → VersionMap} {kept : List VarId}

/-- A renamed read is of the current version, or of one that nothing defines. -/
theorem Extends.readable {reads : List VarId} (extends_ : Extends origin reads before mid)
    (faithful : Faithful origin before)
    {x : VarId} (below : x < p.nextVar) (present : (mid x).isSome = true) (mem : x ∈ kept) :
    (versions p origin starts ends).Readable (among kept (definedIn origin before))
    (mid.reading x) := by
  obtain ⟨u, isVersion⟩ := Option.isSome_iff_exists.mp present
  have source : (origin u).source = x := (faithful.extends extends_) x u isVersion
  rw [VersionMap.reading, isVersion, Option.getD_some]
  refine ⟨lt_of_eq_of_lt source below, ?_⟩
  cases isDefined : (origin u).isDefined with
  | false =>
    right
    change (!(origin u).isDefined) = true
    rw [isDefined]
    rfl
  | true =>
    left
    change among kept (definedIn origin before) (origin u).source = some u
    rw [source, among_eq_some, ← extends_.definedIn_eq]
    exact ⟨mem, definedIn_eq_some.mpr ⟨isVersion, isDefined⟩⟩

private theorem RenamesAll.follows {insts new : List Inst}
    (renames : RenamesAll origin before insts new after)
    (faithful : Faithful origin before) (inScope : ∀ i ∈ insts, i.Scoped p.nextVar)
    (local_ : ∀ done i rest, insts = done ++ i :: rest → ∀ x ∈ i.uses, x ∈ kept ∨
      ∃ j ∈ done, x ∈ j.defs) :
    (versions p origin starts ends).Follows (among kept (definedIn origin before)) new
      (among (insts.flatMap Inst.defs ++ kept) (definedIn origin after)) := by
  induction renames generalizing kept with
  | nil => exact .nil
  | @cons before mid after i i' rest rest' first more ih =>
    rw [forall_mem_cons] at inScope
    have now : ∀ x ∈ i.uses, x ∈ kept := fun x read =>
      (local_ [] i rest rfl x read).resolve_right (by simp)
    have later : ∀ done j tail, rest = done ++ j :: tail → ∀ x ∈ j.uses,
        x ∈ i.defs ++ kept ∨ ∃ k ∈ done, x ∈ k.defs := by
      intro done j tail split x read
      rcases local_ (i :: done) j tail (by rw [split]; rfl) x read with known | ⟨k, mem, writes⟩
      · exact .inl (mem_append_right _ known)
      · rcases mem_cons.mp mem with rfl | earlier
        · exact .inl (mem_append_left _ writes)
        · exact .inr ⟨k, earlier, writes⟩
    have sameEnd : among (rest.flatMap Inst.defs ++ (i.defs ++ kept)) (definedIn origin after) =
        among ((i :: rest).flatMap Inst.defs ++ kept) (definedIn origin after) := by
      apply among_congr
      intro x
      simp only [mem_append, flatMap_cons]
      exact or_left_comm.trans or_assoc.symm
    have tail := ih (first.faithful faithful) inScope.2 later
    rw [sameEnd] at tail
    cases first with
    | read extends_ present defs =>
      refine .cons ?_ ?_ ?_
      · intro u read
        rw [Inst.uses_mapUses] at read
        obtain ⟨x, isRead, rfl⟩ := mem_map.mp read
        exact extends_.readable faithful (inScope.1.uses x isRead) (present x isRead) (now x isRead)
      · rw [Inst.defs_mapUses, defs]
        simp
      · rw [Versions.after, Inst.defs_mapUses, defs]
        rw [defs, extends_.definedIn_eq] at tail
        exact tail
    | @define mid x d extends_ present defs isOrigin =>
      refine .cons ?_ ?_ ?_
      · intro u read
        rw [Inst.uses_mapDefs, Inst.uses_mapUses] at read
        obtain ⟨x, isRead, rfl⟩ := mem_map.mp read
        exact extends_.readable faithful (inScope.1.uses x isRead) (present x isRead) (now x isRead)
      · rw [Inst.defs_mapDefs, Inst.defs_mapUses, defs]
        intro e isDef
        obtain rfl : e = d := by simpa using isDef
        change (origin e).source < p.nextVar ∧ (!(origin e).isDefined) = false
        rw [isOrigin]
        exact ⟨inScope.1.defs x (by simp [defs]), rfl⟩
      · rw [Versions.after, Inst.defs_mapDefs, Inst.defs_mapUses, defs]
        rw [defs, definedIn_define isOrigin, extends_.definedIn_eq, singleton_append,
          among_define] at tail
        change Versions.Follows
          _ ((among kept (definedIn origin before)).define (origin d).source d) _ _
        rw [isOrigin]
        exact tail

end

/-! ## The form of the result -/

private theorem RenamesAll.append_inv {first second new : List Inst}
    (renames : RenamesAll origin before (first ++ second) new after) :
    ∃ first' second' mid, new = first' ++ second' ∧ RenamesAll origin before first first' mid ∧
      RenamesAll origin mid second second' after := by
  induction first generalizing before new with
  | nil => exact ⟨[], new, before, rfl, .nil, renames⟩
  | cons i rest ih =>
    cases renames with
    | cons head more =>
      obtain ⟨first', second', mid, rfl, left, right⟩ := ih more
      exact ⟨_ :: first', second', mid, rfl, .cons head left, right⟩

private theorem isInner_mapUses (i : Inst) (f : VarId → VarId) :
    (i.mapUses f).isInner = i.isInner := by
  cases i <;> rfl

private theorem isInner_mapDefs (i : Inst) (f : VarId → VarId) :
    (i.mapDefs f).isInner = i.isInner := by
  cases i <;> rfl

theorem Renames.isInner_eq {i i' : Inst} (renames : Renames origin before i i' after) :
    i'.isInner = i.isInner := by
  cases renames with
  | read => exact isInner_mapUses i _
  | define => rw [isInner_mapDefs, isInner_mapUses]

private theorem RenamesAll.isInner {insts new : List Inst}
    (renames : RenamesAll origin before insts new after)
    (inner : ∀ i ∈ insts, i.isInner = true) : ∀ i ∈ new, i.isInner = true := by
  induction renames with
  | nil => exact inner
  | cons first more ih =>
    rw [forall_mem_cons] at inner ⊢
    exact ⟨first.isInner_eq.trans inner.1, ih inner.2⟩

private theorem Renames.exits {i i' : Inst} (renames : Renames origin before i i' after) {b : Block}
    (exits : p.Exits b i) : p.Exits b i' := by
  cases renames with
  | read extends_ present defs => cases i <;> exact exits
  | define extends_ present defs isOrigin =>
    cases i with
    | branch | jump | ret => cases defs
    | _ => exact exits.elim

private theorem exposed_lt (input : Input p t vars) {x : VarId} (mem : x ∈ exposed p) :
    x < p.nextVar :=
  mem_range.mp (input.declared ▸ (mem_filter.mp mem).1)

namespace Constructed

variable (ssa : Constructed p q t vars origin ends pairs bodies)

include ssa

theorem sameGraph : p.SameGraph q := by
  refine .of_blocks ssa.size (fun b => ?_) ?_ ?_ ?_
  · rcases Nat.lt_or_ge b p.blocks.size with lt | beyond
    · rw [ssa.block b lt]
    · rw [block_of_size_le p beyond, block_of_size_le q (ssa.size ▸ beyond)]
  all_goals rw [ssa.rest]

private theorem wf (input : Input p t vars) : q.WellFormed := by
  refine ssa.sameGraph.wf input.wf fun b lt => ?_
  obtain ⟨shape⟩ := input.wf.shape b lt
  have renames := (ssa.renamed b lt).steps
  have noPhis : shape.phis = [] := shape.phis_eq ▸ input.phis_eq_nil b
  rw [shape.insts, noPhis, map_nil, nil_append] at renames
  obtain ⟨inner, last, mid', isBody, renamesInner, renamesLast⟩ := renames.append_inv
  cases renamesLast with
  | cons first more =>
    cases more with
    | nil =>
      refine ⟨⟨nodesWith (p.block b).preds ends (pairs b), inner, _,
        ?_, renamesInner.isInner shape.isInner, ssa.sameGraph.exits (first.exits shape.exits), ?_⟩⟩
      · rw [ssa.block b lt, isBody, phisWith_eq]
      · intro phi mem
        obtain ⟨pair, -, rfl⟩ := mem_map.mp mem
        rw [ssa.block b lt, length_map]

theorem args_eq : q.args = p.args := by rw [ssa.rest]

private theorem preds_eq {b : BlockId} (lt : b < p.blocks.size) :
    (q.block b).preds = (p.block b).preds := by rw [ssa.block b lt]

private theorem lt_nextVar {u : VarId} (below : (origin u).source < p.nextVar) :
    u < q.nextVar := by
  apply Nat.lt_of_not_le
  intro beyond
  rw [ssa.beyond u beyond] at below
  exact Nat.lt_irrefl _ (Nat.lt_of_lt_of_le below (Nat.le_trans ssa.grows beyond))

/-- What has a definition is an argument or a fresh local. -/
private theorem listed {v : VarId} (below : (origin v).source < p.nextVar)
    (isSet : (!(origin v).isDefined) = false) : v ∈ q.args ++ q.locals := by
  rcases Nat.lt_or_ge v p.nextVar with old | isNew
  · rw [ssa.own v old, Bool.not_eq_false', List.contains_iff_mem] at isSet
    exact mem_append_left _ (ssa.args_eq ▸ isSet)
  · rw [ssa.locals]
    refine mem_append_right _ (mem_map.mpr ⟨v - p.nextVar, ?_, ?_⟩)
    · exact mem_range.mpr (Nat.sub_lt_sub_right isNew (ssa.lt_nextVar below))
    · exact Nat.add_sub_of_le isNew

section Starts

variable (input : Input p t vars) (phiVars : p.PhiVars (.ofTree p t) (exposed p) vars)
variable {b : BlockId} (lt : b < p.blocks.size)

include input lt

private theorem faithful_end : Faithful origin (ends b) :=
  (ssa.renamed b lt).steps.faithful (ssa.faithful_body input lt)

include phiVars

/-- The phis of a block are for variables that some block reads before it writes them. -/
private theorem phi_cases {phi : Phi} (mem : phi ∈ (q.block b).phis) :
    ∃ x d, (x, d) ∈ pairs b ∧
    x ∈ exposed p ∧ ⟨d, x, (p.block b).preds.map fun pred => ends pred x, false⟩ = phi := by
  rw [(ssa.phis_body input lt).1] at mem
  obtain ⟨⟨x, d⟩, inPairs, isPhi⟩ := mem_map.mp mem
  exact ⟨x, d, inPairs, ((phiVars.mem b x).mp (ssa.mem_vars lt inPairs)).1, isPhi⟩

omit input in
private theorem definedIn_phi {x d : VarId} (inPairs : (x, d) ∈ pairs b) :
    definedIn origin (bodyStart p t ends pairs b) x = some d := by
  have nodup := (ssa.renamed b lt).sources ▸ phiVars.nodup b
  rcases ssa.definedIn_body lt x with ⟨noPhi, -⟩ | ⟨e, mem, isLast⟩
  · exact absurd (ssa.mem_vars lt inPairs) noPhi
  · rw [isLast, (Prod.mk.inj (inj_on_of_nodup_map nodup mem inPairs rfl)).2]

/-- What a phi takes from a predecessor is current at the end of it. -/
private theorem phiArg {phi : Phi} (mem : phi ∈ (q.block b).phis) {slot : Nat}
    {pred : BlockId}
    {a : VarId} (isPred : (q.block b).preds[slot]? = some pred)
    (isArg : phi.args[slot]? = some (some a)) : (origin a).source = (origin phi.dst).source ∧
      (versions p origin (bodyStart p t ends pairs) ends).Readable
        ((versions p origin (bodyStart p t ends pairs) ends).atEnd pred) a := by
  obtain ⟨x, d, inPairs, isExposed, rfl⟩ := ssa.phi_cases input phiVars lt mem
  have isOrigin := (ssa.renamed b lt).origins _ inPairs
  rw [ssa.preds_eq lt] at isPred
  have insidePred := input.wf.lt_of_mem_preds lt (mem_of_getElem? isPred)
  have isVersion : ends pred x = some a := by
    rw [getElem?_map, isPred] at isArg
    exact Option.some.inj isArg
  have isSource : (origin a).source = x :=
    ssa.faithful_end input insidePred x a isVersion
  change (origin a).source = (origin d).source ∧ (origin a).source < p.nextVar ∧ _
  rw [isSource, isOrigin]
  refine ⟨rfl, exposed_lt input isExposed, ?_⟩
  change among _ _ (origin a).source = some a ∨ (!(origin a).isDefined) = true
  rw [isSource, among_eq_some, definedIn_eq_some]
  cases isDefined : (origin a).isDefined with
  | false => exact .inr rfl
  | true => exact .inl ⟨mem_append_right _ isExposed, isVersion, rfl⟩

/-- A version that is current at the start of a body is an argument, comes from a phi, or is current
at the ends of all predecessors. -/
private theorem edge {x v : VarId} (isExposed : x ∈ exposed p)
    (isDefined : definedIn origin (bodyStart p t ends pairs b) x = some v) :
    (b = entry ∧ v ∈ q.args) ∨ (∃ phi ∈ (q.block b).phis, phi.dst = v) ∨
      (b ≠ entry ∧ ∀ pred ∈ (q.block b).preds, definedIn origin (ends pred) x = some v) := by
  rcases ssa.definedIn_body lt x with ⟨noPhi, same⟩ | ⟨d, inPairs, isLast⟩
  · rw [same] at isDefined
    by_cases isEntry : b = entry
    · subst isEntry
      have isStart : startOf p t ends entry = initial p := by rw [startOf, input.tree.root]
      rw [isStart, definedIn_eq_some, initial] at isDefined
      split at isDefined
      · rename_i isArg
        refine .inl ⟨rfl, ?_⟩
        rw [← Option.some.inj isDefined.1, ssa.args_eq]
        exact List.contains_iff_mem.mp isArg
      · cases isDefined.1
    · refine .inr (.inr ⟨isEntry, fun pred mem => ?_⟩)
      rw [ssa.preds_eq lt, input.wf.mem_preds lt] at mem
      rw [← ssa.definedIn_edge input.wf input.ordered input.tree phiVars isExposed mem noPhi]
      exact isDefined
  · rw [isLast, Option.some.injEq] at isDefined
    refine .inr (.inl ⟨⟨d, x, (p.block b).preds.map fun pred => ends pred x, false⟩, ?_, isDefined⟩)
    rw [(ssa.phis_body input lt).1]
    exact mem_map.mpr ⟨_, inPairs, rfl⟩

end Starts

section

variable (input : Input p t vars) (phiVars : p.PhiVars (.ofTree p t) (exposed p) vars)

include input phiVars

/-- Construction leaves a procedure with a certificate. -/
theorem versioned :
    q.Versioned (versions p origin (bodyStart p t ends pairs) ends) := by
  refine ⟨ssa.grows, fun u => ssa.lt_nextVar, fun v set => ssa.listed set.1 set.2,
    fun a mem => ?_, fun b lt => ?_, fun b lt x v current => ?_, fun b lt phi mem => ?_,
    fun b lt phi mem slot pred a => ?_, fun b lt x v current => ?_⟩
  · have isArg := ssa.args_eq ▸ mem
    have below := input.arg_lt a isArg
    change (origin a).source = a ∧ (origin a).source < p.nextVar ∧ (!(origin a).isDefined) = false
    rw [ssa.own a below, List.contains_iff_mem.mpr isArg]
    exact ⟨rfl, below, rfl⟩
  all_goals rw [ssa.size] at lt
  · rw [(ssa.phis_body input lt).2]
    refine (ssa.renamed b lt).steps.follows (ssa.faithful_body input lt)
      (fun i mem => (input.inScope b i mem).2) ?_
    intro done i rest split x read
    exact input.mem_exposed split read
  · obtain ⟨mem, isDefined⟩ := among_eq_some.mp current
    change (origin v).source = x ∧ (origin v).source < p.nextVar ∧ (!(origin v).isDefined) = false
    rw [(ssa.faithful_body input lt).origin_eq isDefined]
    exact ⟨rfl, exposed_lt input mem, rfl⟩
  · obtain ⟨x, d, inPairs, isExposed, rfl⟩ := ssa.phi_cases input phiVars lt mem
    change among (exposed p) (definedIn origin (bodyStart p t ends pairs b))
      (origin d).source = some d
    rw [(ssa.renamed b lt).origins _ inPairs, among_eq_some]
    exact ⟨isExposed, ssa.definedIn_phi phiVars lt inPairs⟩
  · exact ssa.phiArg input phiVars lt mem
  · obtain ⟨isExposed, isDefined⟩ := among_eq_some.mp current
    refine (ssa.edge input phiVars lt isExposed isDefined).imp_right (.imp_right ?_)
    rintro ⟨isInner, atEnds⟩
    exact ⟨isInner, fun pred mem => among_eq_some.mpr
      ⟨mem_append_right _ isExposed, atEnds pred mem⟩⟩

/-- The certificate is strict if all reads are assigned. -/
theorem exists_strict : ∃ vs, q.Versioned vs ∧ (p.AssignsReads → vs.Strict) := by
  have versioned := ssa.versioned input phiVars
  by_cases assigned : p.AssignsReads
  · refine ⟨_, versioned.strict ?_ ?_, fun _ _ => rfl⟩
    all_goals
      intro b lt
      rw [ssa.size] at lt
      obtain ⟨isPhis, isBody⟩ := ssa.phis_body input lt
    · intro i mem u read
      rw [isBody] at mem
      have definite := ssa.definite_start input phiVars assigned lt
      change (!(origin u).isDefined) = false
      rw [(ssa.definite_block input phiVars assigned lt definite).2 i mem u read]
      rfl
    · intro phi mem a isArg
      rw [isPhis] at mem
      obtain ⟨⟨x, d⟩, -, rfl⟩ := mem_map.mp mem
      obtain ⟨pred, isPred, isVersion⟩ := mem_map.mp isArg
      have inside := input.wf.lt_of_mem_preds lt isPred
      have definite := ssa.definite_start input phiVars assigned inside
      change (!(origin a).isDefined) = false
      rw [(ssa.definite_block input phiVars assigned inside definite).1 x a isVersion]
      rfl
  · exact ⟨_, versioned, fun holds => absurd holds assigned⟩

theorem certified : q.Certified p.AssignsReads := by
  refine ⟨ssa.wf input, fun b lt i mem inner => ?_, ?_, ssa.exists_strict input phiVars⟩
  rotate_left
  · have lt : entry < p.blocks.size := input.wf.nonempty
    rw [(ssa.phis_body input lt).1, ssa.pairs_entry input phiVars]
    rfl
  rw [ssa.size] at lt
  rw [ssa.block b lt] at mem
  have renames := (ssa.renamed b lt).steps
  rcases mem_append.mp mem with isPhi | inBody
  · rw [phisWith_eq] at isPhi
    obtain ⟨node, -, rfl⟩ := mem_map.mp isPhi
    cases inner
  · exact Inst.isOrdinary_of_isSource
      (renames.isSource (fun i mem => (input.inScope b i mem).1) i inBody) inner

end

end Constructed

end Renaming

end ArmBackend
