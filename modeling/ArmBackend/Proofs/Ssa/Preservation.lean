import ArmBackend.Proofs.Machine
import ArmBackend.Proofs.Ssa.Construction

/-!
Contract: single-assignment construction keeps every run.

A version that was made for a read alone is never assigned, so what stands for a variable at a point
is the version that something defines. Along a run of the flow graph, the renamed procedure stands
at the same point, and the word of each variable that may still be read is the word of its version.
A variable that some block reads before writing it may be read at any point; another one only after
the block has written it.

Owns: how versions change along blocks and edges, this relation between states, that a step keeps
it, and the theorem on whole runs.
-/

namespace ArmBackend

open List Procedure Machine

variable {c : BlockId} {literal : String → Int32}

namespace Renaming

variable {origin : VarId → Origin} {before mid after : VersionMap} {x d : VarId}
  {reads : List VarId}
variable {insts new : List Inst} {pairs : List (VarId × VarId)}

/-- The versions that something defines. -/
def definedIn (origin : VarId → Origin) (versions : VersionMap) : VersionMap :=
  fun x => (versions x).filter fun d => (origin d).isDefined

/-- Every version stands for its own source. -/
def Faithful (origin : VarId → Origin) (versions : VersionMap) : Prop :=
  ∀ x d, versions x = some d → (origin d).source = x

theorem definedIn_eq_some :
    definedIn origin before x = some d ↔ before x = some d ∧ (origin d).isDefined = true := by
  rw [definedIn, Option.filter_eq_some_iff]

theorem Faithful.origin_eq (faithful : Faithful origin before)
    (isDefined : definedIn origin before x = some d) : origin d = ⟨x, true⟩ := by
  obtain ⟨isVersion, made⟩ := definedIn_eq_some.mp isDefined
  rw [← faithful x d isVersion, ← made]

/-! ## Along a block -/

theorem Extends.definedIn_eq (extends_ : Extends origin reads before after) :
    definedIn origin after = definedIn origin before := by
  funext y
  rcases extends_ y with same | ⟨none, u, isNew, unset, -⟩
  · rw [definedIn, definedIn, same]
  · rw [definedIn, definedIn, isNew, none, Option.filter_some, unset]
    rfl

theorem definedIn_define (isOrigin : origin d = ⟨x, true⟩) :
    definedIn origin (before.define x d) = (definedIn origin before).define x d := by
  funext y
  by_cases same : y = x
  · simp [definedIn, VersionMap.define, same, isOrigin]
  · simp [definedIn, VersionMap.define, same]

theorem Faithful.extends (faithful : Faithful origin before)
    (extends_ : Extends origin reads before after) : Faithful origin after := by
  intro y u isVersion
  rcases extends_ y with same | ⟨-, v, isNew, unset, -⟩
  · exact faithful y u (same ▸ isVersion)
  · rw [isNew, Option.some.injEq] at isVersion
    rw [← isVersion, unset]

theorem Faithful.define (faithful : Faithful origin before) (isOrigin : origin d = ⟨x, true⟩) :
    Faithful origin (before.define x d) := by
  intro y u isVersion
  unfold VersionMap.define at isVersion
  split at isVersion
  · rw [Option.some.injEq] at isVersion
    rw [← isVersion, isOrigin]
    exact Eq.symm ‹_›
  · exact faithful y u isVersion

theorem Renames.faithful {i i' : Inst} (renames : Renames origin before i i' after)
    (faithful : Faithful origin before) : Faithful origin after := by
  cases renames with
  | read extends_ present defs => exact faithful.extends extends_
  | define extends_ present defs isOrigin => exact (faithful.extends extends_).define isOrigin

theorem RenamesAll.faithful (renames : RenamesAll origin before insts new after)
    (faithful : Faithful origin before) : Faithful origin after := by
  induction renames with
  | nil => exact faithful
  | cons first more ih => exact ih (first.faithful faithful)

theorem RenamesAll.definedIn_eq
    (renames : RenamesAll origin before insts new after) (unwritten : ∀ i ∈ insts, x ∉ i.defs) :
    definedIn origin after x = definedIn origin before x := by
  induction renames with
  | nil => rfl
  | cons first more ih =>
    rw [forall_mem_cons] at unwritten
    rw [ih unwritten.2]
    cases first with
    | read extends_ present defs => rw [extends_.definedIn_eq]
    | define extends_ present defs isOrigin =>
      have other := unwritten.1
      rw [defs, mem_singleton] at other
      rw [definedIn_define isOrigin, extends_.definedIn_eq, VersionMap.define, if_neg other]

theorem Faithful.defineAll (faithful : Faithful origin before)
    (origins : ∀ pair ∈ pairs, origin pair.2 = ⟨pair.1, true⟩) :
    Faithful origin (before.defineAll pairs) := by
  intro x d isVersion
  rcases before.defineAll_cases pairs x with ⟨-, same⟩ | ⟨e, mem, isLast⟩
  · exact faithful x d (same ▸ isVersion)
  · rw [isLast, Option.some.injEq] at isVersion
    rw [← isVersion, origins _ mem]

theorem definedIn_defineAll (origins : ∀ pair ∈ pairs, origin pair.2 = ⟨pair.1, true⟩)
    (before : VersionMap) (x : VarId) :
    (x ∉ pairs.map Prod.fst ∧ definedIn origin (before.defineAll pairs) x = definedIn origin
      before x) ∨ ∃ d, (x, d) ∈ pairs ∧ definedIn origin (before.defineAll pairs) x = some d := by
  refine (before.defineAll_cases pairs x).imp (fun ⟨absent, same⟩ => ⟨absent, ?_⟩)
    fun ⟨d, mem, isLast⟩ => ⟨d, mem, ?_⟩
  · rw [definedIn, definedIn, same]
  · rw [definedIn_eq_some, origins _ mem]
    exact ⟨isLast, rfl⟩

/-! ## Across blocks -/

variable {p q : Procedure} {t : DomTree} {vars : BlockId → List VarId}
  {ends : BlockId → VersionMap} {pairs : BlockId → List (VarId × VarId)}
  {bodies : BlockId → List Inst}

theorem startOf_entry (dom : t.Exact p) : startOf p t ends entry = initial p := by
  rw [startOf, dom.root]

namespace Constructed

section

variable (ssa : Constructed p q t vars origin ends pairs bodies)

include ssa

theorem faithful_start (dom : t.Exact p) (args : ∀ x ∈ p.args, x < p.nextVar)
    (lt : c < p.blocks.size) : Faithful origin (startOf p t ends c) := by
  have above := dom.above_entry lt
  induction above with
  | refl =>
    rw [startOf_entry dom]
    intro x u isVersion
    by_cases isArg : p.args.contains x = true
    · rw [initial, if_pos isArg, Option.some.injEq] at isVersion
      rw [← isVersion, ssa.own x (args x (List.contains_iff_mem.mp isArg))]
    · rw [initial, if_neg isArg] at isVersion
      cases isVersion
  | @up c parent isParent other above ih =>
    have inside := (dom.parent_lt isParent).1
    obtain ⟨-, origins, body⟩ := ssa.renamed parent inside
    rw [startOf, isParent]
    exact body.faithful ((ih inside).defineAll origins)

/-- A version that is current behind the phis of a block was so ahead of them, or is of a phi. -/
theorem definedIn_body (lt : c < p.blocks.size) (x : VarId) :
    (x ∉ vars c ∧ definedIn origin (bodyStart p t ends pairs c) x =
      definedIn origin (startOf p t ends c) x) ∨
      ∃ d, (x, d) ∈ pairs c ∧ definedIn origin (bodyStart p t ends pairs c) x = some d := by
  obtain ⟨sources, origins, -⟩ := ssa.renamed c lt
  rw [← sources]
  exact definedIn_defineAll origins _ x

theorem mem_vars (lt : c < p.blocks.size) (mem : (x, d) ∈ pairs c) : x ∈ vars c :=
  (ssa.renamed c lt).sources ▸ mem_map_of_mem mem

/-- A block that neither writes a variable nor has a phi for it leaves its version as it is. -/
theorem definedIn_ends (lt : c < p.blocks.size) (absent : x ∉ vars c)
    (unwritten : ∀ i ∈ (p.block c).insts, x ∉ i.defs) :
    definedIn origin (ends c) x = definedIn origin (startOf p t ends c) x := by
  rw [(ssa.renamed c lt).steps.definedIn_eq unwritten]
  rcases ssa.definedIn_body lt x with ⟨-, same⟩ | ⟨d, mem, -⟩
  · exact same
  · exact absurd (ssa.mem_vars lt mem) absent

theorem definedIn_edge (wf : p.WellFormed) (ordered : p.Ordered) (dom : t.Exact p)
    {needed : List VarId} (phiVars : p.PhiVars (.ofTree p t) needed vars) (mem : x ∈ needed)
    {b s : BlockId} (edge : s ∈ (p.block b).succs) (absent : x ∉ vars s) :
    definedIn origin (startOf p t ends s) x = definedIn origin (ends b) x := by
  obtain ⟨lt, other⟩ := wf.inside b s edge
  obtain ⟨top, isParent, -⟩ := dom.parent s lt other
  have closure := Frontiers.closure_iterated (p := p) (t := t) (p.writersOf x)
  have outside : ¬((Frontiers.ofTree p t).iterated (p.writersOf x)).contains s = true :=
    fun isIn => absent ((phiVars.mem s x).mpr ⟨mem, isIn⟩)
  rw [startOf, isParent]
  refine (Frontiers.value_at_edge ordered dom wf
    (fun c => definedIn origin (ends c) x) edge isParent ?_).symm
  intro y c inFrontier isParentOfY
  have inside := (dom.lt_of_parent isParentOfY).1
  have noPhi : x ∉ vars y := fun hasPhi =>
    outside (closure.step y ((phiVars.mem y x).mp hasPhi).2 s inFrontier)
  have unwritten : ∀ i ∈ (p.block y).insts, x ∉ i.defs := by
    intro i inBlock written
    refine outside (closure.base y ?_ s inFrontier)
    rw [writersOf, mem_filter, mem_blockIds]
    refine ⟨inside, any_eq_true.mpr ⟨i, inBlock, ?_⟩⟩
    exact List.contains_iff_mem.mpr written
  have kept := ssa.definedIn_ends inside noPhi unwritten
  rwa [startOf, isParentOfY] at kept

end

end Constructed

end Renaming

namespace Inst

private theorem isSource_mapUses (i : Inst) (f : VarId → VarId) :
    (i.mapUses f).isSource = i.isSource := by
  cases i <;> rfl

private theorem isSource_mapDefs (i : Inst) (f : VarId → VarId) :
    (i.mapDefs f).isSource = i.isSource := by
  cases i <;> rfl

end Inst

namespace Renaming

variable {origin : VarId → Origin} {before after : VersionMap}

theorem Renames.isSource {i i' : Inst} (renames : Renames origin before i i' after)
    (source : i.isSource = true) : i'.isSource = true := by
  cases renames with
  | read => rwa [Inst.isSource_mapUses]
  | define => rwa [Inst.isSource_mapDefs, Inst.isSource_mapUses]

theorem RenamesAll.isSource {insts new : List Inst}
    (renames : RenamesAll origin before insts new after)
    (source : ∀ i ∈ insts, i.isSource = true) : ∀ i ∈ new, i.isSource = true := by
  induction renames with
  | nil => exact source
  | cons first more ih =>
    rw [forall_mem_cons] at source ⊢
    exact ⟨first.isSource source.1, ih source.2⟩

end Renaming

namespace Machine

theorem settle_of_isSource {p : Procedure} {i : Inst} {rest : List Inst} {store : Store}
    (source : i.isSource = true) : settle p (i :: rest) store = (i :: rest, store) := by
  cases i with
  | spill v => cases source
  | reload dst => cases source
  | prepare dsts srcs n => cases source
  | _ => rfl

end Machine

namespace Renaming

variable {after : VersionMap} {b : BlockId} {i i' : Inst} {reads : List VarId} {x : VarId}

theorem Renames.extends_of_isTerminator {origin : VarId → Origin} {before : VersionMap}
    (renames : Renames origin before i i' after) (last : i.isTerminator = true) :
    Extends origin i.uses before after := by
  cases renames with
  | read extends_ present defs => exact extends_
  | define extends_ present defs isOrigin =>
    cases i with
    | branch | jump | ret => cases defs
    | _ => cases last

/-- The variables that some block reads before it writes them. -/
def exposed (p : Procedure) : List VarId := (p.args ++ p.locals).filter p.blockCrossing.contains

/-- Versions hold the words of the variables that they stand for, as far as these may be read. -/
structure Tracks (p : Procedure) (origin : VarId → Origin) (versions : VersionMap)
    (written : List VarId) (env env' : Env) : Prop where
  faithful : Faithful origin versions
  word : ∀ x w, x ∈ exposed p ∨ x ∈ written → env x = some w →
    ∃ d, definedIn origin versions x = some d ∧ env' d = some w

/-- The same point in both procedures. -/
structure SamePoint (p : Procedure) (origin : VarId → Origin) (ends : BlockId → VersionMap)
    (s s' : State) : Prop where
  block : s'.block = s.block
  within : s.block < p.blocks.size
  point : ∃ versions written done, RenamesAll origin versions s.rest s'.rest (ends s.block) ∧
    (p.block s.block).insts = done ++ s.rest ∧ (∀ j ∈ done, ∀ x ∈ j.defs, x ∈ written) ∧
    Tracks p origin versions written s.store.env s'.store.env

variable {p q : Procedure} {t : DomTree} {vars : BlockId → List VarId} {origin : VarId → Origin}
  {ends : BlockId → VersionMap} {pairs : BlockId → List (VarId × VarId)}
  {bodies : BlockId → List Inst} {versions mid : VersionMap} {written : List VarId} {env env' : Env}

section

variable (tracks : Tracks p origin versions written env env')

include tracks

private theorem Tracks.finds (extends_ : Extends origin reads versions mid)
    (types : ∀ d, (q.var d).ty = (p.var (origin d).source).ty)
    (local_ : ∀ x ∈ reads, x ∈ exposed p ∨ x ∈ written) : Finds p q env env' mid.reading reads := by
  intro x mem w isWord
  obtain ⟨d, isDefined, holds⟩ := tracks.word x w (local_ x mem) isWord
  have isVersion := (definedIn_eq_some.mp isDefined).1
  have read : mid.reading x = d := by
    rcases extends_ x with same | ⟨none, -⟩
    · rw [VersionMap.reading, same, isVersion, Option.getD_some]
    · rw [none] at isVersion
      cases isVersion
  rw [read, types d, tracks.faithful x d isVersion]
  exact ⟨holds, rfl⟩

private theorem Tracks.extends (extends_ : Extends origin reads versions mid) :
    Tracks p origin mid written env env' :=
  ⟨tracks.faithful.extends extends_, by rw [extends_.definedIn_eq]; exact tracks.word⟩

private theorem Tracks.define {d : VarId} (isOrigin : origin d = ⟨x, true⟩) (result : Int32) :
    Tracks p origin (versions.define x d) (x :: written) (env.define [x] result)
      (env'.define [d] result) := by
  refine ⟨tracks.faithful.define isOrigin, fun y w mayRead isWord => ?_⟩
  rw [definedIn_define isOrigin]
  unfold VersionMap.define Env.define at *
  by_cases same : y = x
  · subst same
    refine ⟨d, if_pos rfl, ?_⟩
    simpa using isWord
  · have mayReadOld : y ∈ exposed p ∨ y ∈ written :=
      mayRead.imp_right fun mem => (mem_cons.mp mem).resolve_left same
    obtain ⟨e, isDefined, holds⟩ := tracks.word y w mayReadOld (by simpa [same] using isWord)
    -- Versions of different sources are different.
    have other : e ≠ d := by
      rintro rfl
      have isOrigin' := tracks.faithful.origin_eq isDefined
      rw [isOrigin, Origin.mk.injEq] at isOrigin'
      exact same isOrigin'.1.symm
    exact ⟨e, by rw [if_neg same, isDefined], by simpa [other] using holds⟩

/-- A renamed instruction does the same, and leaves versions that hold the same words. -/
theorem Tracks.observe {answer : Int32} {event : Event}
    (renames : Renames origin versions i i' mid)
    (types : ∀ d, (q.var d).ty = (p.var (origin d).source).ty)
    (local_ : ∀ x ∈ i.uses, x ∈ exposed p ∨ x ∈ written)
    (observed : observe literal p answer env i = some event) :
    observe literal q answer env' i' = some event ∧
      Tracks p origin mid (i.defs ++ written) (env.define i.defs event.result)
        (env'.define i'.defs event.result) := by
  cases renames with
  | read extends_ present defs =>
    refine ⟨observe_mapUses (tracks.finds extends_ types local_) observed, ?_⟩
    rw [Inst.defs_mapUses, defs]
    exact tracks.extends extends_
  | @define mid x d extends_ present defs isOrigin =>
    rw [observe_mapDefs]
    refine ⟨observe_mapUses (tracks.finds extends_ types local_) observed, ?_⟩
    rw [Inst.defs_mapDefs, Inst.defs_mapUses, defs]
    exact (tracks.extends extends_).define isOrigin event.result

end

/-! ## Edges -/

theorem Input.arg_lt (input : Input p t vars) : ∀ x ∈ p.args, x < p.nextVar := by
  intro x mem
  exact mem_range.mp (input.declared ▸ mem_append_left _ mem)

theorem Input.phis_eq_nil (input : Input p t vars) (b : BlockId) : (p.block b).phis = [] :=
  leadingPhis_eq_nil fun i mem => isPhi_of_isSource (input.inScope b i mem).1

theorem Input.body_eq (input : Input p t vars) (b : BlockId) :
    (p.block b).body = (p.block b).insts := by
  rw [Block.body, input.phis_eq_nil b]
  rfl

section

variable (ssa : Constructed p q t vars origin ends pairs bodies) (input : Input p t vars)

include ssa input

theorem Constructed.noPhi (lt : b < p.blocks.size) : ∀ i ∈ bodies b, i.isPhi = false :=
  (ssa.renamed b lt).steps.isPhi fun i mem => isPhi_of_isSource (input.inScope b i mem).1

theorem Constructed.faithful_body (lt : b < p.blocks.size) :
    Faithful origin (bodyStart p t ends pairs b) :=
  (ssa.faithful_start input.tree input.arg_lt lt).defineAll (ssa.renamed b lt).origins

theorem Constructed.phis_body (lt : b < p.blocks.size) :
    (q.block b).phis = nodesWith (p.block b).preds ends (pairs b) ∧
    (q.block b).body = bodies b := by
  have insts : (q.block b).insts = phisWith (p.block b).preds ends (pairs b) ++ bodies b := by
    rw [ssa.block b lt]
  exact phis_eq_nodesWith insts (ssa.noPhi input lt)

/-- Nothing joins at the entry. -/
theorem Constructed.pairs_entry (phiVars : p.PhiVars (.ofTree p t) (exposed p) vars) :
    pairs entry = [] := by
  have none : vars entry = [] := by
    apply eq_nil_iff_forall_not_mem.mpr
    intro x mem
    have join := (Frontiers.closure_iterated (p.writersOf x)).joins entry
      ((phiVars.mem entry x).mp mem).2
    rw [input.wf.preds_entry] at join
    exact absurd join.2 (by decide)
  rw [← (ssa.renamed entry input.wf.nonempty).sources] at none
  exact map_eq_nil_iff.mp none

end

/-- The phis of a block give the versions at its start the words that the versions at the end of the
predecessor hold. -/
theorem Tracks.enter (tracks : Tracks p origin versions written env env') {pred : BlockId}
    {preds : List BlockId} {slot : Nat} (isSlot : preds[slot]? = some pred)
    {start : VersionMap} {nodes : List (VarId × VarId)} {slots : WebId → Option Int32}
    (origins : ∀ pair ∈ nodes, origin pair.2 = ⟨pair.1, true⟩) (faithful : Faithful origin start)
    (isEnd : definedIn origin (ends pred) = definedIn origin versions)
    (kept : ∀ x ∈ exposed p, x ∉ nodes.map Prod.fst →
      definedIn origin start x = definedIn origin (ends pred) x) :
      Tracks p origin (start.defineAll nodes) [] env
      (assignPhis (nodesWith preds ends nodes) slot ⟨env', slots⟩).env := by
  refine ⟨faithful.defineAll origins, fun x w mayRead isWord => ?_⟩
  have crossing : x ∈ exposed p := mayRead.resolve_right (by simp)
  obtain ⟨d, isDefined, holds⟩ := tracks.word x w (.inl crossing) isWord
  have isOrigin := tracks.faithful.origin_eq isDefined
  rw [← isEnd] at isDefined
  unfold assignPhis
  dsimp only
  rcases definedIn_defineAll origins start x with ⟨noPhi, unchanged⟩ | ⟨e, mem, isLast⟩
  · refine ⟨d, ?_, ?_⟩
    · rw [unchanged, kept x crossing noPhi, isDefined]
    · have none : (nodesWith preds ends nodes).find? (·.dst == d) = none := by
        apply find?_eq_none.mpr
        intro phi isNode isDst
        obtain ⟨⟨y, e⟩, mem, rfl⟩ := mem_map.mp isNode
        obtain rfl : e = d := eq_of_beq isDst
        rw [origins _ mem, Origin.mk.injEq] at isOrigin
        exact noPhi (mem_map.mpr ⟨_, mem, isOrigin.1⟩)
      rw [none]
      exact holds
  · refine ⟨e, isLast, ?_⟩
    -- Any phi that defines this version joins the same source.
    cases found : (nodesWith preds ends nodes).find? (·.dst == e) with
    | none =>
      have impossible := find?_eq_none.mp found _ (mem_map.mpr ⟨_, mem, rfl⟩)
      simp at impossible
    | some phi =>
      have isDst := find?_some found
      obtain ⟨⟨y, e'⟩, mem', rfl⟩ := mem_map.mp (mem_of_find?_eq_some found)
      obtain rfl : e' = e := eq_of_beq isDst
      have same := (origins (y, e') mem').symm.trans (origins (x, e') mem)
      obtain rfl : y = x := (Origin.mk.inj same).1
      have flows : (preds.map fun q => ends q y)[slot]? = some (some d) := by
        rw [getElem?_map, isSlot, Option.map_some, (definedIn_eq_some.mp isDefined).1]
      simp only [phiWord, flows, Bool.false_eq_true, if_false, Option.join_some, Option.bind_some]
      exact holds

/-- A read is of an exposed variable, or of one that its block wrote earlier. -/
theorem Input.mem_exposed (input : Input p t vars) {before after : List Inst}
    (split : (p.block b).insts = before ++ i :: after) (read : x ∈ i.uses) :
    x ∈ exposed p ∨ ∃ j ∈ before, x ∈ j.defs := by
  cases crossing : p.blockCrossing.contains x with
  | true =>
    have mem : i ∈ (p.block b).insts := split ▸ by simp
    left
    rw [exposed, mem_filter, input.declared]
    exact ⟨mem_range.mpr ((input.inScope b i mem).2.uses x read), crossing⟩
  | false => exact .inr (written_of_not_crossing split read crossing)

section Steps

variable (input : Input p t vars) (ssa : Constructed p q t vars origin ends pairs bodies)
  (phiVars : p.PhiVars (.ofTree p t) (exposed p) vars)
include input ssa phiVars

private theorem samePoint_enter {b s : BlockId} {store store' : Store} (taken : Bool)
    (edge : s ∈ (p.block b).succs) (isEnd : definedIn origin (ends b) = definedIn origin versions)
    (tracks : Tracks p origin versions written store.env store'.env) :
    SamePoint p origin ends (enter p b taken store s) (enter q b taken store' s) := by
  obtain ⟨lt, other⟩ := input.wf.inside b s edge
  obtain ⟨phis, body⟩ := ssa.phis_body input lt
  obtain ⟨sources, origins, renamesBody⟩ := ssa.renamed s lt
  have preds : (q.block s).preds = (p.block s).preds := by rw [ssa.block s lt]
  have slot : slotFrom (q.block s) b taken = slotFrom (p.block s) b taken := by
    rw [slotFrom, slotFrom, preds]
  have isSlot := slotFrom_spec ((input.wf.mem_preds lt).mpr edge) taken
  refine ⟨rfl, lt, bodyStart p t ends pairs s, [], [], ?_, ?_, by simp, ?_⟩
  · change RenamesAll origin _ (p.block s).body (q.block s).body (ends s)
    rw [input.body_eq s, body]
    exact renamesBody
  · change (p.block s).insts = [] ++ (p.block s).body
    rw [input.body_eq s, nil_append]
  · have unchanged : (enter p b taken store s).store.env = store.env := by
      simp only [Machine.enter, input.phis_eq_nil s]
      rfl
    rw [unchanged]
    simp only [Machine.enter, phis, slot]
    refine tracks.enter isSlot origins (ssa.faithful_start input.tree input.arg_lt lt) isEnd ?_
    intro x crossing absent
    rw [sources] at absent
    exact ssa.definedIn_edge input.wf input.ordered input.tree phiVars crossing edge absent

private theorem samePoint_step {answer : Int32} {s s' next : State}
    {entry : BlockId × Event} (same : SamePoint p origin ends s s')
    (stepped : step literal p answer s = some (entry, next)) :
    ∃ next', step literal q answer s' = some (entry, next') ∧
      SamePoint p origin ends next next' := by
  obtain ⟨i, rest, store, event, settled, observed, followed, rfl⟩ := step_eq_some.mp stepped
  obtain ⟨block, rest₀, store₀⟩ := s
  obtain ⟨block', rest', store'⟩ := s'
  obtain ⟨rfl, lt, versions, written, done, renamed, split, inWritten, tracks⟩ := same
  dsimp only at *
  cases renamed with
  | nil => cases settled
  | @cons _ mid _ j i' rest₁ rest'' first more =>
    have mem : j ∈ (p.block block').insts := split ▸ by simp
    have source := (input.inScope block' j mem).1
    rw [settle_of_isSource source] at settled
    obtain ⟨same, rfl⟩ := Prod.mk.inj settled
    obtain ⟨rfl, rfl⟩ := List.cons.inj same
    have local_ : ∀ x ∈ j.uses, x ∈ exposed p ∨ x ∈ written := by
      intro x read
      rcases input.mem_exposed split read with crossing | ⟨k, earlier, writes⟩
      · exact .inl crossing
      · exact .inr (inWritten k earlier x writes)
    obtain ⟨observed', tracks'⟩ := tracks.observe first ssa.types local_ observed
    have source' : i'.isSource = true := first.isSource source
    suffices ∃ next', follow q block' store' i' rest'' event = some next' ∧
      SamePoint p origin ends next next' by
      obtain ⟨next', followed', same⟩ := this
      exact ⟨next', step_eq_some.mpr ⟨i', rest'', store', event, settle_of_isSource source',
        observed', followed', rfl⟩, same⟩
    cases leaves : event.leaves? with
    | none =>
      simp only [follow, leaves, Option.some.injEq] at followed ⊢
      subst followed
      refine ⟨_, rfl, rfl, lt, mid, _, done ++ [j], more, by simpa using split, ?_, tracks'⟩
      intro k mem x writes
      rcases mem_append.mp mem with earlier | isLast
      · exact mem_append_right _ (inWritten k earlier x writes)
      · exact mem_append_left _ (mem_singleton.mp isLast ▸ writes)
    | some taken =>
      obtain ⟨shape⟩ := input.wf.shape block' lt
      have last := isTerminator_of_leaves observed leaves
      obtain rfl := shape.eq_nil_of_isTerminator split last
      cases more with
      | nil =>
        simp only [follow, leaves, Option.map_eq_some_iff] at followed ⊢
        obtain ⟨target, isExit, rfl⟩ := followed
        refine ⟨_, ⟨target, ?_, rfl⟩, ?_⟩
        · rw [ssa.block block' lt]
          exact isExit
        · exact samePoint_enter input ssa phiVars taken (mem_succs_of_exit isExit)
            (first.extends_of_isTerminator last).definedIn_eq tracks

private theorem samePoint_start (args : List Int32) :
    SamePoint p origin ends (Machine.start p args) (Machine.start q args) := by
  have lt : entry < p.blocks.size := input.wf.nonempty
  obtain ⟨phis, body⟩ := ssa.phis_body input lt
  have renamesBody := (ssa.renamed entry lt).steps
  have noPhis := ssa.pairs_entry input phiVars
  have isStart : startOf p t ends entry = initial p := by rw [startOf, input.tree.root]
  have faithful := ssa.faithful_start input.tree input.arg_lt lt
  rw [noPhis, isStart] at renamesBody
  refine ⟨rfl, lt, initial p, [], [], ?_, ?_, by simp, isStart ▸ faithful, ?_⟩
  · change RenamesAll origin (initial p) (p.block entry).body (q.block entry).body (ends entry)
    rw [input.body_eq entry, body]
    exact renamesBody
  · change (p.block entry).insts = [] ++ (p.block entry).body
    rw [input.body_eq entry, nil_append]
  · intro x w _ isWord
    have sameArgs : q.args = p.args := by rw [ssa.rest]
    have isArg : x ∈ p.args := by
      apply Classical.byContradiction
      intro absent
      have none : p.args.findIdx? (· == x) = none := by
        apply findIdx?_eq_none_iff.mpr
        intro y mem
        simpa using fun same : y = x => absent (same ▸ mem)
      rw [show (Machine.start p args).store.env x = passed p args x from rfl, passed,
        none] at isWord
      cases isWord
    refine ⟨x, definedIn_eq_some.mpr ⟨?_, ?_⟩, ?_⟩
    · rw [initial, if_pos (List.contains_iff_mem.mpr isArg)]
    · rw [ssa.own x (input.arg_lt x isArg)]
      exact List.contains_iff_mem.mpr isArg
    · change passed q args x = some w
      rw [passed, sameArgs]
      exact isWord

end Steps

end Renaming

/-- Every run of the flow graph of a procedure of a text is a run of its single-assignment form: it
visits the same blocks, reads the same words, makes the same calls and stores, and returns the same
value. -/
theorem Procedure.run_constructSsa {text : String} {program : Program} {p q : Procedure}
    {t : DomTree} (read : Program.ofText text = .ok program) (mem : p ∈ program.procedures)
    (graph : p.buildFlowGraph = .ok q) (tree : DomTree.ofProcedure q = .ok t)
    {literal : String → Int32} {args answers : List Int32} {trace : List (BlockId × Event)}
    {final : State} (ran : run literal q answers (start q args) = some (trace, final)) :
    ∃ final', run literal (q.constructSsa t (.ofTree q t)).1 answers
        (start (q.constructSsa t (.ofTree q t)).1 args) = some (trace, final') ∧
      final'.block = final.block := by
  have linear := Program.linear_of_ofText read p mem
  have built := built_buildFlowGraph linear graph
  have dom := DomTree.exact_ofProcedure built.wf.linked built.ordered tree
  obtain ⟨vars, origin, ends, pairs, bodies, input, ssa, phiVars⟩ :=
    constructed_constructSsa linear built dom
  obtain ⟨final', ran', same⟩ := run_simulates (Renaming.samePoint_step input ssa phiVars)
    (Renaming.samePoint_start input ssa phiVars args) ran
  exact ⟨final', ran', same.block⟩

/-- The flow graph of the first procedure of a text, with its dominator tree. -/
def Program.firstGraph? (text : String) : Option (Procedure × DomTree) := do
  let program ← (Program.ofText text).toOption
  let p ← program.procedures.head?
  let q ← p.buildFlowGraph.toOption
  let t ← (DomTree.ofProcedure q).toOption
  return (q, t)

theorem Program.exists_of_firstGraph {text : String} {q : Procedure} {t : DomTree}
    (found : firstGraph? text = some (q, t)) :
    ∃ program p, ofText text = .ok program ∧ p ∈ program.procedures ∧ p.buildFlowGraph = .ok q ∧
      DomTree.ofProcedure q = .ok t := by
  obtain ⟨program, p, read, mem, found⟩ := exists_of_first found
  obtain ⟨q', graph, found⟩ := Tables.exists_ok_of_bind found
  obtain ⟨t', tree, same⟩ := Tables.exists_ok_of_bind found
  obtain ⟨rfl, rfl⟩ := Prod.mk.inj (Option.some.inj same)
  exact ⟨program, p, read, mem, graph, tree⟩

/-- A loop that adds up the numbers down from its argument. -/
def Program.sumText : String :=
  "Int f(Int a) \x7b Int x; x = 0; P: if (a <= 0) goto Q; x = x + a; a = a - 1; goto P; " ++
    "Q: return x; \x7d"

theorem Procedure.run_constructSsa_sum :
    ∃ q t trace final final', Program.firstGraph? Program.sumText = some (q, t) ∧
      run (fun _ => 0) q (List.replicate 13 0) (start q [2]) = some (trace, final) ∧
      trace.getLast? = some (4, .ret (some 3)) ∧
      run (fun _ => 0) (q.constructSsa t (.ofTree q t)).1 (List.replicate 13 0)
        (start (q.constructSsa t (.ofTree q t)).1 [2]) = some (trace, final') := by
  have evaluated : ((Program.firstGraph? Program.sumText).bind fun graph =>
      (run (fun _ => 0) graph.1 (List.replicate 13 0) (start graph.1 [2])).bind fun ran =>
        ran.1.getLast?) = some (4, .ret (some 3)) := by
    decide +kernel
  obtain ⟨⟨q, t⟩, found, evaluated⟩ := Option.bind_eq_some_iff.mp evaluated
  obtain ⟨⟨trace, final⟩, ran, last⟩ := Option.bind_eq_some_iff.mp evaluated
  obtain ⟨program, p, read, mem, graph, tree⟩ := Program.exists_of_firstGraph found
  obtain ⟨final', ran', -⟩ := run_constructSsa read mem graph tree ran
  exact ⟨q, t, trace, final, final', found, ran, last, ran'⟩

end ArmBackend
