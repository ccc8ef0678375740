import ArmBackend.Proofs.DisjointSets
import ArmBackend.Proofs.Ssa.Certificate
import Mathlib.Data.Set.Card

/-!
Contract: which variables share a stack slot.

Owns: that webs are the classes of variables that phis connect, numbered in the order of their first
members, and that a web holds versions of one source only.
Does not own: how classes are found, and what is kept in a slot.
-/

namespace ArmBackend

open List Relation

namespace Procedure

variable {sets : DisjointSets} {done : List VarId} {numbered : Array (Option WebId)}
variable {p q q' r : Procedure} {v : VarId} {w : WebId} {vs : Versions}

/-- Webs are all that changes. -/
structure SameButWeb (p q : Procedure) : Prop where
  rest : q = { p with webs := q.webs, vars := q.vars }
  var : ∀ v, q.var v = { p.var v with web := q.web? v }

theorem SameButWeb.trans (first : p.SameButWeb q) (second : q.SameButWeb r) : p.SameButWeb r := by
  refine ⟨?_, fun v => ?_⟩
  · rw [second.rest, first.rest]
  · rw [second.var v, first.var v]

private theorem sameButWeb_assignWeb (state : Procedure × DisjointSets × Array (Option WebId))
    (v : VarId) : state.1.SameButWeb (assignWeb state v).1 := by
  have set : ∀ (p : Procedure) w, p.SameButWeb (p.setWeb v w) := fun p w => by
    refine ⟨rfl, fun u => ?_⟩
    rw [web?_setWeb, var_setWeb]
    split <;> rfl
  unfold assignWeb
  dsimp only
  split
  · exact set _ _
  · exact ⟨rfl, (set state.1.newWeb _).var⟩

theorem sameButWeb_buildWebs (p : Procedure) : p.SameButWeb p.buildWebs := by
  have folded : ∀ (vars : List VarId) (state : Procedure × DisjointSets × Array (Option WebId)),
      state.1.SameButWeb (vars.foldl assignWeb state).1 := by
    intro vars
    induction vars with
    | nil => exact fun state => ⟨rfl, fun _ => rfl⟩
    | cons v rest ih => exact fun state => (sameButWeb_assignWeb state v).trans (ih _)
  have start : p.SameButWeb { p with webs := #[] } := ⟨rfl, fun _ => rfl⟩
  exact start.trans (folded _ (_, _))

/-! ## Classes of phis -/

/-- What a leading phi defines is linked with each of its present arguments. -/
def PhiLink (p : Procedure) (d a : VarId) : Prop :=
  ∃ b < p.blocks.size, ∃ phi ∈ (p.block b).phis, some a ∈ phi.args ∧ phi.dst = d

theorem mem_phiPairs {d a : VarId} : (d, a) ∈ p.phiPairs ↔ p.PhiLink d a := by
  unfold phiPairs PhiLink
  simp only [mem_flatMap, mem_map, mem_filterMap, id, Prod.mk.injEq]
  constructor
  · rintro ⟨phi, ⟨block, mem, inPhis⟩, arg, ⟨_, isArg, rfl⟩, rfl, rfl⟩
    obtain ⟨b, lt, rfl⟩ := mem_iff_getElem.mp mem
    rw [Array.length_toList] at lt
    refine ⟨b, lt, phi, ?_, isArg, rfl⟩
    simpa [block, lt] using inPhis
  · rintro ⟨b, lt, phi, inPhis, isArg, rfl⟩
    refine ⟨phi, ⟨p.block b, ?_, inPhis⟩, a, ⟨some a, isArg, rfl⟩, rfl, rfl⟩
    simp [block, lt]

/-- The classes of variables are those that phis connect. -/
theorem forest_phiClasses (links : ∀ d a, p.PhiLink d a → d < p.nextVar ∧ a < p.nextVar) :
    p.phiClasses.Forest p.nextVar p.PhiLink := by
  have united := (DisjointSets.Forest.new p.nextVar).foldl_union p.phiPairs fun pair mem =>
    links pair.1 pair.2 (mem_phiPairs.mp mem)
  simp only [false_or, mem_phiPairs] at united
  exact united

/-! ## Numbers of webs -/

/-- The listed variables have the webs of their classes, and different classes have different webs,
with numbers in the order in which they are met. -/
structure Numbered (p q : Procedure) (sets : DisjointSets) (numbered : Array (Option WebId))
    (done : List VarId) : Prop where
  forest : sets.Forest p.nextVar p.PhiLink
  count : q.nextVar = p.nextVar
  table : numbered.size = p.nextVar
  below : ∀ r w, numbered.getD r none = some w → w < q.webs.size
  unique : ∀ r r' w, numbered.getD r none = some w → numbered.getD r' none = some w → r = r'
  web : ∀ v ∈ done, v < p.nextVar → ∃ w, numbered.getD (sets.find v).2 none = some w ∧
    q.web? v = some w
  order : (∀ v ∈ done, v < p.nextVar) → (done.filterMap q.web?).eraseDups = range q.webs.size

namespace Numbered

variable (state : Numbered p q sets numbered done)

include state

/-- A variable gets the web of its class, which is known or the next one. -/
private theorem order_append
    (web : ∀ u, q'.web? u = if v = u ∧ u < p.nextVar then some w else q.web? u)
    (same : ∀ u ∈ done, u = v → q.web? u = some w)
    (next : w < q.webs.size ∧ q'.webs.size = q.webs.size ∨
      w = q.webs.size ∧ q'.webs.size = q.webs.size + 1)
    (inside : ∀ u ∈ done ++ [v], u < p.nextVar) :
    ((done ++ [v]).filterMap q'.web?).eraseDups = range q'.webs.size := by
  have old : done.filterMap q'.web? = done.filterMap q.web? := by
    refine filterMap_congr fun u mem => ?_
    rw [web]
    split
    · rename_i here
      exact (same u mem here.1.symm).symm
    · rfl
  have new : [v].filterMap q'.web? = [w] := by
    rw [filterMap_cons_some ((web v).trans (if_pos ⟨rfl, inside v (by simp)⟩)), filterMap_nil]
  have first := state.order fun u mem => inside u (mem_append_left _ mem)
  have isOld : w ∈ done.filterMap q.web? ↔ w < q.webs.size := by
    rw [← mem_eraseDups, first, mem_range]
  rw [filterMap_append, old, new, eraseDups_append, first]
  rcases next with ⟨known, size⟩ | ⟨rfl, size⟩
  · rw [size, removeAll, filter_cons_of_neg (by simpa using isOld.mpr known)]
    simp
  · rw [size, range_succ, removeAll,
      filter_cons_of_pos (by simpa using mt isOld.mp (Nat.lt_irrefl _)), filter_nil]
    simp [eraseDups_cons]

private theorem known (isWeb : numbered.getD (sets.find v).2 none = some w) :
    Numbered p (q.setWeb v (some w)) (sets.find v).1 numbered (done ++ [v]) := by
  have web : ∀ u, (q.setWeb v (some w)).web? u =
      if v = u ∧ u < p.nextVar then some w else q.web? u := fun u => by
    rw [web?_setWeb, state.count]
  refine ⟨(state.forest.find v).1, (nextVar_setWeb ..).trans state.count, state.table, state.below,
    state.unique, fun u mem lt => ?_, fun inside => ?_⟩
  · rw [web, state.forest.find_find]
    by_cases same : v = u
    · subst same
      exact ⟨w, isWeb, if_pos ⟨rfl, lt⟩⟩
    · rw [if_neg fun both => same both.1]
      exact state.web u (by simpa [Ne.symm same] using mem) lt
  · refine state.order_append web ?_ (.inl ⟨state.below _ w isWeb, rfl⟩) inside
    rintro u mem rfl
    obtain ⟨w', isWeb', isVarWeb⟩ := state.web u mem (inside u (mem_append_left _ mem))
    rw [isVarWeb, ← isWeb', isWeb]

private theorem next (unmet : numbered.getD (sets.find v).2 none = none) :
    Numbered p (q.newWeb.setWeb v (some q.webs.size)) (sets.find v).1
      (numbered.setIfInBounds (sets.find v).2 (some q.webs.size)) (done ++ [v]) := by
  have lookup : ∀ r, (numbered.setIfInBounds (sets.find v).2 (some q.webs.size)).getD r none =
      if (sets.find v).2 = r ∧ r < p.nextVar then some q.webs.size else numbered.getD r none := by
    intro r
    rw [Tables.getD_setIfInBounds, state.table]
  have webs : (q.newWeb.setWeb v (some q.webs.size)).webs.size = q.webs.size + 1 := by
    simp [newWeb, setWeb, modifyVar]
  have count : q.newWeb.nextVar = p.nextVar := state.count
  have web : ∀ u, (q.newWeb.setWeb v (some q.webs.size)).web? u =
      if v = u ∧ u < p.nextVar then some q.webs.size else q.web? u := by
    intro u
    rw [web?_setWeb, count]
    rfl
  have other : ∀ u ∈ done, u < p.nextVar → (sets.find v).2 ≠ (sets.find u).2 := by
    intro u mem lt same
    obtain ⟨w, isWeb, -⟩ := state.web u mem lt
    rw [same, isWeb] at unmet
    cases unmet
  refine ⟨(state.forest.find v).1, (nextVar_setWeb ..).trans count, ?_, fun r w isWeb => ?_,
    fun r r' w first second => ?_, fun u mem lt => ?_, fun inside => ?_⟩
  · rw [Array.size_setIfInBounds, state.table]
  · rw [webs]
    rw [lookup] at isWeb
    split at isWeb
    · exact Option.some.inj isWeb ▸ Nat.lt_succ_self _
    · exact Nat.lt_succ_of_lt (state.below r w isWeb)
  · rw [lookup] at first second
    split at first <;> split at second
    · rename_i here here'
      exact here.1.symm.trans here'.1
    · exact absurd (state.below r' w second) (Option.some.inj first ▸ Nat.lt_irrefl _)
    · exact absurd (state.below r w first) (Option.some.inj second ▸ Nat.lt_irrefl _)
    · exact state.unique r r' w first second
  · rw [web, lookup, state.forest.find_find]
    by_cases same : v = u
    · subst same
      exact ⟨_, if_pos ⟨rfl, state.forest.find_lt lt⟩, if_pos ⟨rfl, lt⟩⟩
    · have earlier : u ∈ done := by simpa [Ne.symm same] using mem
      rw [if_neg fun both => other u earlier lt both.1, if_neg fun both => same both.1]
      exact state.web u earlier lt
  · refine state.order_append web ?_ (.inr ⟨rfl, webs⟩) inside
    rintro u mem rfl
    exact absurd rfl (other u mem (inside u (mem_append_left _ mem)))

private theorem foldl (vars : List VarId) : ∃ sets' numbered',
    Numbered p (vars.foldl assignWeb (q, sets, numbered)).1 sets' numbered' (done ++ vars) := by
  induction vars generalizing q sets numbered done with
  | nil => exact ⟨sets, numbered, by rwa [append_nil]⟩
  | cons v vars ih =>
    rw [append_cons, foldl_cons]
    cases isWeb : numbered.getD (sets.find v).2 none with
    | some w =>
      have step : assignWeb (q, sets, numbered) v =
          (q.setWeb v (some w), (sets.find v).1, numbered) := by simp only [assignWeb, isWeb]
      rw [step]
      exact ih (state.known isWeb)
    | none =>
      have step : assignWeb (q, sets, numbered) v = (q.newWeb.setWeb v (some q.webs.size),
          (sets.find v).1, numbered.setIfInBounds (sets.find v).2 (some q.webs.size)) := by
        simp only [assignWeb, isWeb]
      rw [step]
      exact ih (state.next isWeb)

end Numbered

theorem numbered_buildWebs (links : ∀ d a, p.PhiLink d a → d < p.nextVar ∧ a < p.nextVar) :
    ∃ sets numbered, Numbered p p.buildWebs sets numbered (p.args ++ p.locals) := by
  have none : ∀ r, (Array.replicate p.vars.size (none : Option WebId)).getD r Option.none =
      Option.none := by
    intro r
    rw [Tables.getD_replicate]
    split <;> rfl
  have start : Numbered p { p with webs := #[] } p.phiClasses
      (Array.replicate p.vars.size Option.none) [] := by
    refine ⟨forest_phiClasses links, rfl, Array.size_replicate, ?_, ?_, by simp, fun _ => rfl⟩
    · intro r w isWeb
      rw [none] at isWeb
      cases isWeb
    · intro r r' w isWeb
      rw [none] at isWeb
      cases isWeb
  exact start.foldl (p.args ++ p.locals)

/-- The members of the class of a variable. -/
def phiClass (p : Procedure) (v : VarId) : Set VarId :=
  {u | u ∈ p.args ++ p.locals ∧ EqvGen p.PhiLink u v}

/-- Every search ends at a root. Every argument and local gets a web, and two of them share one
exactly if a chain of phis links them. Webs are numbered in the order of their first members, and
there are as many as classes. -/
theorem exact_buildWebs (p : Procedure) (members : ∀ v ∈ p.args ++ p.locals, v < p.nextVar)
    (links : ∀ d a, p.PhiLink d a → d < p.nextVar ∧ a < p.nextVar) :
    (∀ c, DisjointSets.Arises p.nextVar c → ∀ v, c.parent (c.find v).2 = (c.find v).2) ∧
      (∀ v ∈ p.args ++ p.locals, ∃ w < p.buildWebs.webs.size, p.buildWebs.web? v = some w) ∧
      (∀ u ∈ p.args ++ p.locals, ∀ v ∈ p.args ++ p.locals,
        p.buildWebs.web? u = p.buildWebs.web? v ↔ EqvGen p.PhiLink u v) ∧
      ((p.args ++ p.locals).filterMap p.buildWebs.web?).eraseDups = range p.buildWebs.webs.size ∧
      (Set.image p.phiClass {v | v ∈ p.args ++ p.locals}).ncard = p.buildWebs.webs.size := by
  obtain ⟨sets, table, numbered⟩ := numbered_buildWebs links
  have order := numbered.order members
  have web (v : VarId) (mem : v ∈ p.args ++ p.locals) := numbered.web v mem (members v mem)
  have same : ∀ u ∈ p.args ++ p.locals, ∀ v ∈ p.args ++ p.locals,
      p.buildWebs.web? u = p.buildWebs.web? v ↔ EqvGen p.PhiLink u v := by
    intro u memU v memV
    obtain ⟨w, isWeb, isVarWeb⟩ := web u memU
    obtain ⟨w', isWeb', isVarWeb'⟩ := web v memV
    rw [← numbered.forest.find_eq_iff, isVarWeb, isVarWeb', Option.some.injEq]
    constructor
    · rintro rfl
      exact numbered.unique _ _ _ isWeb isWeb'
    · intro sameClass
      rw [sameClass, isWeb'] at isWeb
      exact (Option.some.inj isWeb).symm
  have webbed : ∀ v ∈ p.args ++ p.locals,
      ∃ w < p.buildWebs.webs.size, p.buildWebs.web? v = some w := by
    intro v mem
    obtain ⟨w, isWeb, isVarWeb⟩ := web v mem
    exact ⟨w, numbered.below _ w isWeb, isVarWeb⟩
  have met : ∀ w < p.buildWebs.webs.size, ∃ v ∈ p.args ++ p.locals, p.buildWebs.web? v =
      some w := by
    intro w below
    rwa [← mem_range, ← order, mem_eraseDups, mem_filterMap] at below
  refine ⟨fun c arises v => ?_, webbed, same, order, ?_⟩
  · obtain ⟨linked, forest⟩ := arises.forest
    exact forest.parent_find v
  -- A class is what has one web, and different webs have different members.
  have isClass : ∀ v ∈ p.args ++ p.locals, ∀ w, p.buildWebs.web? v = some w →
      p.phiClass v = {u | u ∈ p.args ++ p.locals ∧ p.buildWebs.web? u = some w} := by
    intro v mem w isWeb
    ext u
    exact and_congr_right fun memU => by rw [← same u memU v mem, isWeb]
  refine Set.ncard_eq_of_bijective
    (fun w _ => {u | u ∈ p.args ++ p.locals ∧ p.buildWebs.web? u = some w}) ?_ ?_ ?_
  · rintro _ ⟨v, mem, rfl⟩
    obtain ⟨w, below, isWeb⟩ := webbed v mem
    exact ⟨w, below, (isClass v mem w isWeb).symm⟩
  · intro w below
    obtain ⟨v, mem, isWeb⟩ := met w below
    exact ⟨v, mem, isClass v mem w isWeb⟩
  · intro w w' below _ sameSet
    obtain ⟨v, mem, isWeb⟩ := met w below
    have inOther := (Set.ext_iff.mp sameSet v).mp ⟨mem, isWeb⟩
    exact Option.some.inj (isWeb.symm.trans inOther.2)

/-- A chain of two phis, and a variable that no phi mentions. -/
def chaining : Procedure :=
  { ofName "chain" .int with
    args := [0]
    locals := [1, 2, 3, 4]
    vars := Array.replicate 5 ⟨"x", .int, none, none⟩
    blocks := #[Block.ofInsts 0 [.phi ⟨3, 3, [some 0, none], false⟩,
      .phi ⟨1, 1, [some 3, some 4], false⟩, .ret none]] }

/-- The argument is linked to what the second phi defines, by way of the first one. -/
theorem exact_buildWebs_chaining : EqvGen chaining.PhiLink 0 1 ∧ ¬EqvGen chaining.PhiLink 0 2 ∧
    (Set.image chaining.phiClass {v | v ∈ chaining.args ++ chaining.locals}).ncard = 2 := by
  have inside : ∀ pair ∈ chaining.phiPairs, pair.1 < chaining.nextVar ∧
      pair.2 < chaining.nextVar := by
    decide
  have shared : chaining.buildWebs.web? 0 = chaining.buildWebs.web? 1 := by decide
  have other : chaining.buildWebs.web? 0 ≠ chaining.buildWebs.web? 2 := by decide
  have size : chaining.buildWebs.webs.size = 2 := by decide
  obtain ⟨-, -, same, -, classes⟩ := exact_buildWebs chaining (by decide) fun d a link =>
    inside (d, a) (mem_phiPairs.mpr link)
  exact ⟨(same 0 (by decide) 1 (by decide)).mp shared,
    mt (same 0 (by decide) 2 (by decide)).mpr other, classes.trans size⟩

/-! ## Webs and versions -/

/-- Webs hold versions of one source. -/
structure Webbed (p : Procedure) (vs : Versions) : Prop where
  present : ∀ v, vs.Set v → ∃ w, p.web? v = some w
  source : ∀ u v, vs.Set u → vs.Set v → p.web? u = p.web? v → vs.source u = vs.source v

/-- Webs are built without a change to the flow graph or to the variables. -/
theorem webbed_buildWebs (wf : p.WellFormed) (versioned : p.Versioned vs) : p.buildWebs.Webbed vs ∧
      p.buildWebs.nextVar = p.nextVar := by
  have links : ∀ d a, p.PhiLink d a → (d < p.nextVar ∧ a < p.nextVar) ∧
      vs.source d = vs.source a := by
    rintro d a ⟨b, lt, phi, inPhis, isArg, rfl⟩
    obtain ⟨slot, inArgs, isSlot⟩ := mem_iff_getElem.mp isArg
    obtain ⟨shape⟩ := wf.shape b lt
    have inPreds : slot < (p.block b).preds.length := by
      rw [← shape.arity phi (shape.phis_eq ▸ inPhis)]
      exact inArgs
    obtain ⟨same, readable⟩ := versioned.phiArg b lt phi inPhis slot _ a
      (getElem?_eq_getElem inPreds) (List.getElem?_eq_some_iff.mpr ⟨inArgs, isSlot⟩)
    obtain ⟨-, set⟩ := versioned.faithful b lt _ _ (versioned.phi b lt phi inPhis)
    exact ⟨⟨versioned.inside _ set.1, versioned.inside _ readable.1⟩, same.symm⟩
  obtain ⟨sets, table, final⟩ := numbered_buildWebs fun d a isLink => (links d a isLink).1
  have web : ∀ v, vs.Set v → ∃ w, table.getD (sets.find v).2 none = some w ∧
      p.buildWebs.web? v = some w := fun v set =>
    final.web v (versioned.listed v set) (versioned.inside v set.1)
  refine ⟨⟨fun v set => ?_, fun u v setU setV same => ?_⟩, final.count⟩
  · obtain ⟨w, -, isWeb⟩ := web v set
    exact ⟨w, isWeb⟩
  · obtain ⟨w, isClass, isWeb⟩ := web u setU
    obtain ⟨w', isClass', isWeb'⟩ := web v setV
    rw [isWeb, isWeb', Option.some.injEq] at same
    subst same
    exact DisjointSets.eq_of_eqvGen (fun d a isLink => (links d a isLink).2)
      (final.forest.find_eq_iff.mp (final.unique _ _ _ isClass isClass'))

theorem Versioned.congr (versioned : p.Versioned vs)
    (same : q = { p with webs := q.webs, vars := q.vars }) (count : q.nextVar = p.nextVar) :
    q.Versioned vs := by
  have blocks : q.blocks = p.blocks := by rw [same]
  have block : ∀ b, q.block b = p.block b := fun b => by rw [Procedure.block, blocks]; rfl
  have args : q.args = p.args := by rw [same]
  have locals : q.locals = p.locals := by rw [same]
  constructor
  · exact count ▸ versioned.sources
  · exact count ▸ versioned.inside
  · rw [args, locals]
    exact versioned.listed
  · exact args ▸ versioned.args
  all_goals simp only [blocks, block, args]
  · exact versioned.follows
  · exact versioned.faithful
  · exact versioned.phi
  · exact versioned.phiArg
  · exact versioned.edge

/-- A certificate for a procedure with webs. -/
def HasWebs (p : Procedure) (assigned : Prop) :
    Prop := ∃ vs, p.Versioned vs ∧ p.Webbed vs ∧ (assigned → vs.Strict)

/-- Webs are built without a change to blocks, and the certificate still holds. -/
theorem certified_buildWebs {assigned : Prop} (cert : p.Certified assigned) :
    p.buildWebs.Certified assigned ∧ p.buildWebs.HasWebs assigned ∧ p.SameBlocks p.buildWebs := by
  obtain ⟨vs, versioned, strict⟩ := cert.versioned
  obtain ⟨webbed, count⟩ := webbed_buildWebs cert.wf versioned
  have rest := p.sameButWeb_buildWebs.rest
  have versioned' := versioned.congr rest count
  have same : p.SameBlocks p.buildWebs := by
    rw [rest]
    exact ⟨rfl, rfl, rfl, rfl⟩
  refine ⟨⟨same.padded.reshaped.wf cert.wf, ?_, ?_, vs,
    versioned', strict⟩, ⟨vs, versioned', webbed, strict⟩, same⟩
  · rw [same.blocks]
    simp only [same.block]
    exact cert.ordinary
  · rw [same.block]
    exact cert.noPhis

end Procedure

end ArmBackend
