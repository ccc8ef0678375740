import ArmBackend.FlowGraph.Landing
import ArmBackend.Proofs.Ssa.Certificate

/-!
Contract: splitting critical edges keeps the form of a flow graph and its version certificate.

Owns: what one landing block changes, and the induction over all edges that get one.
Does not own: the orders, which are found anew after splitting.
-/

namespace ArmBackend

open List Machine Procedure

variable {s : BlockId} {vs : Versions}

theorem FlowGraph.count_predsOf (blocks : Array Block) (source target : BlockId) :
    (FlowGraph.predsOf blocks target).count source =
    (blocks.getD source default).succs.count target := by
  have upTo : ∀ n, ((List.range n).flatMap fun b =>
      ((blocks.getD b default).succs.filter (· == target)).map fun _ => b).count source =
        if source < n then (blocks.getD source default).succs.count target else 0 := by
    intro n
    induction n with
    | zero => rfl
    | succ n ih =>
      have last : (((blocks.getD n default).succs.filter (· == target)).map fun _ => n).count
          source = if source = n then (blocks.getD n default).succs.count target else 0 := by
        rw [map_const', count_replicate, count_eq_length_filter]
        by_cases same : source = n
        · simp [same]
        · simp [same, Ne.symm same]
      rw [range_succ, flatMap_append, count_append, ih, flatMap_singleton, last]
      by_cases same : source = n
      · simp [same]
      · have bound : source < n + 1 ↔ source < n :=
          ⟨fun below => Nat.lt_of_le_of_ne (Nat.le_of_lt_succ below) same, Nat.lt_succ_of_lt⟩
        simp [same, bound]
  refine (upTo blocks.size).trans ?_
  split
  · rfl
  · rfl

namespace Procedure

/-- `q` is `p` with a landing block on an edge from `source` to `target`, which is the taken one or
the direct one. The block takes a position of the source among the predecessors of the target. -/
structure Landing (p q : Procedure) (taken : Bool) (source target : BlockId) (slot : Nat) :
    Prop where
  edge : exit? (p.block source) taken = some target
  isSlot : (p.block target).predIndex? source = some slot
  size : q.blocks.size = p.blocks.size + 1
  sameVars : p.SameVars q
  landing : ∃ label, q.block p.blocks.size =
    ⟨label, [.jump (p.block target).label], [source], some target, none, 0⟩
  label : ∀ b < p.blocks.size, (q.block b).label = (p.block b).label
  preds : ∀ b < p.blocks.size, (q.block b).preds =
    if b = target then (p.block b).preds.set slot p.blocks.size else (p.block b).preds
  other : ∀ b < p.blocks.size, b ≠ source → (q.block b).insts = (p.block b).insts ∧
    (q.block b).direct = (p.block b).direct ∧ (q.block b).cond = (p.block b).cond
  last : ∃ front op left right label label', (p.block source).insts =
    front ++ [.branch op left right label] ∧
    (q.block source).insts = front ++ [.branch op left right label'] ∧
      q.Exits (q.block source) (.branch op left right label')
  exits : ∀ way, exit? (q.block source) way = if way = taken then some p.blocks.size
    else exit? (p.block source) way

namespace Landing

variable {p q : Procedure} {taken : Bool} {source target : BlockId} {slot : Nat}
  (landing : p.Landing q taken source target slot)

include landing

theorem isEdge : target ∈ (p.block source).succs := mem_succs_of_exit landing.edge

theorem lt_or_eq {b : BlockId} (lt : b < q.blocks.size) :
    b < p.blocks.size ∨ b = p.blocks.size := by
  rw [landing.size] at lt
  exact Nat.lt_or_eq_of_le (Nat.le_of_lt_succ lt)

private theorem succs_other {b : BlockId} (lt : b < p.blocks.size) (other : b ≠ source) :
    (q.block b).succs = (p.block b).succs := by
  obtain ⟨-, direct, cond⟩ := landing.other b lt other
  rw [Block.succs, direct, cond]
  rfl

theorem succs_landing : (q.block p.blocks.size).succs = [target] := by
  obtain ⟨label, block⟩ := landing.landing
  rw [block]
  rfl

private theorem succs_source (s : BlockId) :
    (q.block source).succs.count s + (if s = target then 1 else 0) =
    (p.block source).succs.count s + (if s = p.blocks.size then 1 else 0) := by
  have direct : (q.block source).direct = _ := landing.exits false
  have cond : (q.block source).cond = _ := landing.exits true
  have edge := landing.edge
  cases taken
  · simp only [exit?, Block.succs, direct, cond,
      show (p.block source).direct = some target from edge, if_true,
      Bool.true_eq_false, Bool.false_eq_true, if_false, Option.toList_some,
      singleton_append, count_cons, beq_iff_eq, @eq_comm _ s]
    omega
  · simp only [exit?, Block.succs, direct, cond, show (p.block source).cond = some target from edge,
      if_true, Bool.false_eq_true, if_false, Option.toList_some, count_append, count_singleton,
      beq_iff_eq, @eq_comm _ s]
    omega

/-- One edge to the target became one to the landing block, which leads to the target. -/
theorem count_succs (a s : BlockId) :
    (q.block a).succs.count s + (if a = source ∧ s = target then 1 else 0) =
    (p.block a).succs.count s + (if a = source ∧ s = p.blocks.size then 1 else 0) +
      (if a = p.blocks.size ∧ s = target then 1 else 0) := by
  have lt := lt_size_of_mem_succs landing.isEdge
  by_cases isSource : a = source
  · subst isSource
    simp only [true_and, Nat.ne_of_lt lt, false_and, if_false, Nat.add_zero]
    exact landing.succs_source s
  · simp only [isSource, false_and, if_false, Nat.add_zero]
    rcases Nat.lt_trichotomy a p.blocks.size with old | rfl | beyond
    · rw [landing.succs_other old isSource, if_neg fun both => Nat.ne_of_lt old both.1]
      rfl
    · rw [landing.succs_landing, block_of_size_le p (Nat.le_refl _), count_singleton]
      change _ = 0 + _
      simp [@eq_comm _ target]
    · rw [block_of_size_le p (Nat.le_of_lt beyond), block_of_size_le q (landing.size ▸ beyond),
        if_neg fun both => Nat.ne_of_gt beyond both.1]
      rfl

theorem pred_slot : (p.block target).preds[slot]? = some source := by
  obtain ⟨lt, isSource, -⟩ := findIdx?_eq_some_iff_getElem.mp landing.isSlot
  rw [getElem?_eq_getElem lt, eq_of_beq isSource]

/-- The landing block stands in for one edge into the target. -/
theorem count_preds (lt : s < p.blocks.size) (a : BlockId) :
    (q.block s).preds.count a + (if a = source ∧ s = target then 1 else 0) =
      (p.block s).preds.count a + (if a = p.blocks.size ∧ s = target then 1 else 0) := by
  rw [landing.preds s lt]
  by_cases isTarget : s = target
  · subst isTarget
    obtain ⟨bound, atSlot⟩ := List.getElem?_eq_some_iff.mp landing.pred_slot
    have present : 0 < (p.block s).preds.count source :=
      count_pos_iff.mpr (mem_of_getElem? landing.pred_slot)
    rw [if_pos rfl, count_set bound, atSlot]
    simp only [beq_iff_eq, and_true, @eq_comm _ a]
    by_cases same : source = a
    · subst same
      simp only [if_true]
      omega
    · simp only [same, if_false]
      omega
  · simp only [isTarget, and_false, if_false]

private theorem wellFormed_preds (wf : p.WellFormed) (lt : s < q.blocks.size) :
    (q.block s).preds.Perm (FlowGraph.predsOf q.blocks s) := by
  rw [perm_iff_count]
  intro a
  have moved := landing.count_succs a s
  rw [FlowGraph.count_predsOf]
  change _ = (q.block a).succs.count s
  rcases landing.lt_or_eq lt with isOld | rfl
  · have replaced := landing.count_preds isOld a
    rw [(wf.preds s isOld).count_eq, FlowGraph.count_predsOf] at replaced
    change _ = (p.block a).succs.count s + _ at replaced
    simp only [Nat.ne_of_lt isOld, and_false, if_false, Nat.add_zero] at moved
    omega
  · have none : (p.block a).succs.count p.blocks.size = 0 :=
      count_eq_zero.mpr fun mem => Nat.lt_irrefl _ (wf.inside a _ mem).1
    have other : p.blocks.size ≠ target :=
      Ne.symm (Nat.ne_of_lt (wf.inside source target landing.isEdge).1)
    obtain ⟨label, block⟩ := landing.landing
    simp only [other, and_false, if_false, and_true, Nat.add_zero, none, Nat.zero_add] at moved
    rw [block, count_singleton, moved]
    simp only [beq_iff_eq, @eq_comm _ a]

/-- Phis stay, and the body of the source at most changes where its terminator jumps. -/
theorem shape (wf : p.WellFormed) {b : BlockId} (lt : b < p.blocks.size) :
    ∃ (old : p.Shape (p.block b)) (new : q.Shape (q.block b)) (label : LabelId),
      new.phis = old.phis ∧ new.inner = old.inner ∧
      (new.last = old.last ∨ new.last = old.last.withTarget label) := by
  obtain ⟨shape⟩ := wf.shape b lt
  have arity : ∀ phi ∈ shape.phis, phi.args.length = (q.block b).preds.length := by
    intro phi mem
    rw [landing.preds b lt, shape.arity phi mem]
    split
    · rw [length_set]
    · rfl
  by_cases isSource : b = source
  · subst isSource
    obtain ⟨front, op, left, right, label, label', old, insts, exits⟩ := landing.last
    rw [shape.insts, ← append_assoc] at old
    obtain ⟨rfl, isLast⟩ := append_inj' old rfl
    rw [append_assoc] at insts
    exact ⟨shape, ⟨shape.phis, shape.inner, _, insts, shape.isInner, exits, arity⟩,
      label', rfl, rfl, .inr (singleton_inj.mp isLast ▸ rfl)⟩
  · obtain ⟨insts, direct, cond⟩ := landing.other b lt isSource
    have exits : q.Exits (q.block b) shape.last := shape.exits.transfer direct cond fun s edge =>
      landing.label s (wf.inside b s edge).1
    exact ⟨shape, ⟨shape.phis, shape.inner, shape.last, insts.trans shape.insts,
      shape.isInner, exits, arity⟩, 0, rfl, rfl, .inl rfl⟩

theorem wf (wf : p.WellFormed) : q.WellFormed where
  nonempty := landing.size ▸ Nat.succ_pos _
  inside b s isEdge := by
    obtain ⟨insideTarget, other⟩ := wf.inside source target landing.isEdge
    have moved := landing.count_succs b s
    have present : 0 < (q.block b).succs.count s := count_pos_iff.mpr isEdge
    rw [landing.size]
    -- The edge leads to the landing block, leads on to the target, or is an old one.
    by_cases isNew : s = p.blocks.size
    · rw [isNew]
      exact ⟨Nat.lt_succ_self _, Ne.symm (Nat.ne_of_lt wf.nonempty)⟩
    · by_cases onward : b = p.blocks.size ∧ s = target
      · exact onward.2 ▸ ⟨Nat.lt_succ_of_lt insideTarget, other⟩
      · rw [if_neg onward] at moved
        simp only [isNew, and_false, if_false, Nat.add_zero] at moved
        have isOld := wf.inside b s (count_pos_iff.mp (by omega))
        exact ⟨Nat.lt_succ_of_lt isOld.1, isOld.2⟩
  preds s lt := landing.wellFormed_preds wf lt
  shape b lt := by
    have insideTarget := (wf.inside source target landing.isEdge).1
    rcases landing.lt_or_eq lt with old | rfl
    · obtain ⟨-, shape, -⟩ := landing.shape wf old
      exact ⟨shape⟩
    · obtain ⟨label, block⟩ := landing.landing
      rw [block]
      refine ⟨⟨[], [], .jump (p.block target).label, rfl, by simp, ?_, by simp⟩⟩
      exact ⟨target, rfl, rfl, (landing.label target insideTarget).symm⟩

theorem phis_body (wf : p.WellFormed) {b : BlockId} (lt : b < p.blocks.size)
    {current final : VersionMap} (follows : vs.Follows current (p.block b).body final) :
    (q.block b).phis = (p.block b).phis ∧ vs.Follows current (q.block b).body final := by
  obtain ⟨old, new, label, phis, inner, last⟩ := landing.shape wf lt
  rw [new.phis_eq, old.phis_eq, phis, new.body_eq, inner]
  rw [old.body_eq] at follows
  refine ⟨rfl, ?_⟩
  obtain ⟨mid, early, late⟩ := follows.append_inv
  refine early.append (late.singleton_congr ?_ ?_)
  · rcases last with same | same <;> rw [same]
    cases old.last <;> rfl
  · rcases last with same | same <;> rw [same]
    cases old.last <;> rfl

omit landing in
/-- The certificate with a landing block, where the versions at the end of the source are
current. -/
def versions (vs : Versions) (source landing : BlockId) : Versions :=
  { vs with
    atBody := fun b => if b = landing then vs.atEnd source else vs.atBody b
    atEnd := fun b => if b = landing then vs.atEnd source else vs.atEnd b }

theorem pred_cases {b : BlockId} (lt : b < p.blocks.size) {k : Nat} {pred : BlockId}
    (isPred : (q.block b).preds[k]? = some pred) :
    ∃ old, (p.block b).preds[k]? = some old ∧
      (pred = old ∨ pred = p.blocks.size ∧ old = source) := by
  rw [landing.preds b lt] at isPred
  split at isPred
  · rename_i isTarget
    subst isTarget
    rw [getElem?_set] at isPred
    split at isPred
    · rename_i same
      split at isPred
      · exact ⟨source, same ▸ landing.pred_slot, .inr ⟨(Option.some.inj isPred).symm, rfl⟩⟩
      · cases isPred
    · exact ⟨pred, isPred, .inl rfl⟩
  · exact ⟨pred, isPred, .inl rfl⟩

theorem versioned (wf : p.WellFormed) (versioned : p.Versioned vs) :
    q.Versioned (versions vs source p.blocks.size) := by
  have insideSource := lt_size_of_mem_succs landing.isEdge
  have atBody : ∀ b < p.blocks.size, (versions vs source p.blocks.size).atBody b = vs.atBody b :=
    fun b below =>
    if_neg (Nat.ne_of_lt below)
  have atEnd : ∀ b < p.blocks.size, (versions vs source p.blocks.size).atEnd b = vs.atEnd b :=
    fun b below =>
    if_neg (Nat.ne_of_lt below)
  have atNew : (versions vs source p.blocks.size).atBody p.blocks.size = vs.atEnd source ∧
      (versions vs source p.blocks.size).atEnd p.blocks.size = vs.atEnd source :=
    ⟨if_pos rfl, if_pos rfl⟩
  -- The landing block ends as the source does, which it stands in for.
  have atPred : ∀ b < p.blocks.size, ∀ (k : Nat) (pred : BlockId), (q.block b).preds[k]? =
      some pred →
      ∃ old, (p.block b).preds[k]? = some old ∧
      (versions vs source p.blocks.size).atEnd pred = vs.atEnd old := by
    intro b old k pred isPred
    obtain ⟨pred', isOld, rfl | ⟨rfl, rfl⟩⟩ := landing.pred_cases old isPred
    · exact ⟨pred, isOld, atEnd pred (wf.lt_of_mem_preds old (mem_of_getElem? isOld))⟩
    · exact ⟨pred', isOld, atNew.2⟩
  obtain ⟨label, block⟩ := landing.landing
  have sameVars : q.nextVar = p.nextVar := by rw [Procedure.nextVar, landing.sameVars.vars]; rfl
  have faithfulEnd : vs.Faithful (vs.atEnd source) :=
    (versioned.follows source insideSource).faithful (versioned.faithful source insideSource)
  refine ⟨?_, ?_, ?_, ?_, ?_, ?_, ?_, ?_, ?_⟩
  · rw [sameVars]
    exact versioned.sources
  · rw [sameVars]
    exact versioned.inside
  · rw [landing.sameVars.args, landing.sameVars.locals]
    exact versioned.listed
  · rw [landing.sameVars.args]
    exact versioned.args
  · intro b lt
    rcases landing.lt_or_eq lt with old | rfl
    · rw [atBody b old, atEnd b old]
      exact (landing.phis_body wf old (versioned.follows b old)).2.transfer (fun _ _ _ _ _ => id)
        fun _ set => ⟨set, rfl⟩
    · rw [atNew.1, atNew.2, block]
      exact .cons (forall_mem_nil _) (forall_mem_nil _) .nil
  · intro b lt
    rcases landing.lt_or_eq lt with old | rfl
    · rw [atBody b old]
      exact versioned.faithful b old
    · rw [atNew.1]
      exact faithfulEnd
  · intro b lt phi mem
    rcases landing.lt_or_eq lt with old | rfl
    · rw [(landing.phis_body wf old (versioned.follows b old)).1] at mem
      rw [atBody b old]
      exact versioned.phi b old phi mem
    · rw [block] at mem
      cases mem
  · intro b lt phi mem i pred a isPred isArg
    rcases landing.lt_or_eq lt with old | rfl
    · rw [(landing.phis_body wf old (versioned.follows b old)).1] at mem
      obtain ⟨pred', isOld, same⟩ := atPred b old i pred isPred
      rw [same]
      exact versioned.phiArg b old phi mem i pred' a isOld isArg
    · rw [block] at mem
      cases mem
  · intro b lt x v current
    rcases landing.lt_or_eq lt with old | rfl
    · rw [atBody b old] at current
      rw [landing.sameVars.args, (landing.phis_body wf old (versioned.follows b old)).1]
      refine (versioned.edge b old x v current).imp_right
        (Or.imp_right (And.imp_right fun all => ?_))
      intro pred mem
      obtain ⟨k, isPred⟩ := mem_iff_getElem?.mp mem
      obtain ⟨pred', isOld, same⟩ := atPred b old k pred isPred
      rw [same]
      exact all pred' (mem_of_getElem? isOld)
    · rw [atNew.1] at current
      refine .inr (.inr ⟨Ne.symm (Nat.ne_of_lt wf.nonempty), ?_⟩)
      rw [block]
      intro pred mem
      obtain rfl := mem_singleton.mp mem
      rw [atEnd pred insideSource]
      exact current

theorem certified {assigned : Prop} (cert : p.Certified assigned) : q.Certified assigned := by
  obtain ⟨vs, versioned, strict⟩ := cert.versioned
  refine ⟨landing.wf cert.wf, fun b lt i mem inner => ?_,
    ?_, _, landing.versioned cert.wf versioned, strict⟩
  rotate_left
  · have inside : entry < p.blocks.size := cert.wf.nonempty
    rw [(landing.phis_body cert.wf inside (versioned.follows entry inside)).1]
    exact cert.noPhis
  rcases landing.lt_or_eq lt with old | rfl
  · by_cases isSource : b = source
    · subst isSource
      obtain ⟨front, op, left, right, label, label', isOld, insts, -⟩ := landing.last
      rw [insts] at mem
      rcases mem_append.mp mem with early | isLast
      · exact cert.ordinary b old i (isOld ▸ mem_append_left _ early) inner
      · obtain rfl := mem_singleton.mp isLast
        cases inner
    · rw [(landing.other b old isSource).1] at mem
      exact cert.ordinary b old i mem inner
  · obtain ⟨label, block⟩ := landing.landing
    rw [block] at mem
    obtain rfl := mem_singleton.mp mem
    cases inner

end Landing

variable {b : Block} {r : Procedure}

/-! ## Splitting -/

variable {p q : Procedure} {taken : Bool} {source target : BlockId} {slot : Nat} {assigned : Prop}

section

variable (isSlot : (p.block target).predIndex? source = some slot) (inside : target < p.blocks.size)

include isSlot

theorem addLanding_eq :
    p.addLanding source target = (p.pushLanding source target).modifyBlock target
    fun b => { b with preds := b.preds.set slot p.blocks.size } := by
  rw [addLanding, isSlot]

theorem size_addLanding : (p.addLanding source target).blocks.size = p.blocks.size + 1 := by
  rw [addLanding_eq isSlot, size_modifyBlock]
  exact Array.size_push _

include inside

private theorem block_addLanding (b : BlockId) : (p.addLanding source target).block b =
      if b = p.blocks.size then p.landingBlock source target
      else if b = target then { p.block b with preds := (p.block b).preds.set slot p.blocks.size }
      else p.block b := by
  have pushed : (p.pushLanding source target).block b =
      if b = p.blocks.size then p.landingBlock source target else p.block b := by
    change (p.blocks.push _).getD b default = _
    rw [Tables.getD_push]
    rfl
  have size : (p.pushLanding source target).blocks.size = p.blocks.size + 1 := Array.size_push _
  rw [addLanding_eq isSlot, block_modifyBlock, pushed, size]
  by_cases isTarget : b = target
  · subst isTarget
    rw [if_pos ⟨rfl, Nat.lt_succ_of_lt inside⟩, if_neg (Nat.ne_of_lt inside),
      if_neg (Nat.ne_of_lt inside), if_pos rfl]
  · rw [if_neg fun both => isTarget both.1.symm, if_neg isTarget]

end

private theorem exists_predIndex {source : BlockId} (mem : source ∈ b.preds) :
    ∃ slot, b.predIndex? source = some slot := by
  cases found : b.preds.findIdx? (· == source) with
  | some slot => exact ⟨slot, found⟩
  | none =>
    have impossible := findIdx?_eq_none_iff.mp found source mem
    simp at impossible

theorem Exits.branch {i : Inst} (exits : p.Exits b i) (twoWay : b.cond.isSome = true) :
    ∃ op left right target, i = .branch op left right target := by
  cases i with
  | branch op left right target => exact ⟨op, left, right, target, rfl⟩
  | jump target =>
    obtain ⟨d, -, none, -⟩ := exits
    rw [none] at twoWay
    cases twoWay
  | ret value =>
    rw [exits.2] at twoWay
    cases twoWay
  | _ => exact exits.elim

theorem WellFormed.direct_of_cond (wf : p.WellFormed) {b cond : BlockId} (lt : b < p.blocks.size)
    (isCond : (p.block b).cond = some cond) : ∃ direct, (p.block b).direct = some direct := by
  obtain ⟨shape⟩ := wf.shape b lt
  have exits := shape.exits
  obtain ⟨op, left, right, target, isBranch⟩ := exits.branch (by rw [isCond]; rfl)
  rw [isBranch] at exits
  obtain ⟨direct, -, isDirect, -⟩ := exits
  exact ⟨direct, isDirect⟩

private theorem landing_splitExit (wf : p.WellFormed)
    (edge : exit? (p.block source) taken = some target)
    (twoWay : (p.block source).cond.isSome = true) (many : ¬(p.block target).preds.length < 2) :
    ∃ slot, p.Landing (p.splitExit taken source target) taken source target slot := by
  have isEdge := mem_succs_of_exit edge
  have insideSource := lt_size_of_mem_succs isEdge
  have lt := (wf.inside source target isEdge).1
  obtain ⟨slot, isSlot⟩ := exists_predIndex ((wf.mem_preds lt).mpr isEdge)
  have isNew : (p.addLanding source target).block p.blocks.size = p.landingBlock source target := by
    rw [block_addLanding isSlot lt, if_pos rfl]
  rw [splitExit, if_neg many]
  -- All blocks of the result, by what they were before.
  have size := size_addLanding isSlot
  have block : ∀ b, ((p.addLanding source target).modifyBlock source
      (redirect p.nextLabel p.blocks.size taken)).block b =
      if b = source then redirect p.nextLabel p.blocks.size taken
      ((p.addLanding source target).block b) else (p.addLanding source target).block b := by
    intro b
    rw [block_modifyBlock, size]
    by_cases isSource : b = source
    · rw [if_pos ⟨isSource.symm, isSource ▸ Nat.lt_succ_of_lt insideSource⟩, if_pos isSource]
    · rw [if_neg fun both => isSource both.1.symm, if_neg isSource]
  have old : ∀ b < p.blocks.size, (p.addLanding source target).block b =
      { p.block b with preds :=
        if b = target then (p.block b).preds.set slot p.blocks.size else (p.block b).preds } := by
    intro b below
    rw [block_addLanding isSlot lt, if_neg (Nat.ne_of_lt below)]
    split <;> rfl
  have isLanding := (block p.blocks.size).trans (if_neg (Ne.symm (Nat.ne_of_lt insideSource)))
  have atSource := (block source).trans (if_pos rfl)
  rw [old source insideSource] at atSource
  have labels : ∀ b < p.blocks.size, (((p.addLanding source target).modifyBlock source
      (redirect p.nextLabel p.blocks.size taken)).block b).label = (p.block b).label := by
    intro b below
    rw [block, old b below]
    split
    · cases taken <;> rfl
    · rfl
  refine ⟨slot, edge, isSlot, by rw [size_modifyBlock, size], ?_, ⟨_, isLanding.trans isNew⟩,
    labels, ?_, ?_, ?_, ?_⟩
  · rw [addLanding_eq isSlot]
    exact ⟨rfl, rfl, rfl⟩
  · intro b below
    rw [block, old b below]
    split
    · cases taken <;> rfl
    · rfl
  · intro b below other
    rw [block, if_neg other, old b below]
    exact ⟨rfl, rfl, rfl⟩
  · obtain ⟨shape⟩ := wf.shape source insideSource
    have exits := shape.exits
    have split := shape.insts
    obtain ⟨op, left, right, old, isLast⟩ := exits.branch twoWay
    rw [isLast] at exits split
    rw [← append_assoc] at split
    generalize shape.phis.map Inst.phi ++ shape.inner = front at split
    obtain ⟨direct, cond, isDirect, isCond, isLabel⟩ := exits
    rw [atSource]
    cases taken with
    | true =>
      refine ⟨_, op, left, right, old, p.nextLabel, split, ?_, direct, p.blocks.size,
        isDirect, rfl, by
        rw [isLanding, isNew]; rfl⟩
      change (p.block source).insts.modify _ _ = _
      rw [split]
      simp [modify_eq_take_drop, Inst.withTarget]
    | false =>
      refine ⟨_, op, left, right, old, old, split, split, p.blocks.size, cond, rfl, isCond,
        isLabel.trans (labels cond ?_).symm⟩
      exact (wf.inside source cond (by simp [Block.succs, isCond])).1
  · intro way
    rw [atSource]
    cases taken <;> cases way <;> rfl

/-- Landing blocks on edges between blocks that were there at first. A direct edge only gets one if
the taken edge does not lead to the same block. -/
inductive Landings (p : Procedure) : Procedure → Prop
  | refl : Landings p p
  | step {q r : Procedure} {taken : Bool} {source target : BlockId} {slot : Nat}
      (before : Landings p q)
      (landing : q.Landing r taken source target slot)
      (inside : source < p.blocks.size ∧ target < p.blocks.size)
      (apart : taken = false → (q.block source).cond ≠ some target) : Landings p r

theorem Landings.certified (landings : p.Landings q) (cert : p.Certified assigned) :
    q.Certified assigned := by
  induction landings with
  | refl => exact cert
  | step before landing lt apart ih => exact landing.certified ih

theorem Landings.grows (landings : p.Landings q) : q = p ∨ p.blocks.size < q.blocks.size := by
  induction landings with
  | refl => exact .inl rfl
  | step before landing lt apart ih =>
    rw [landing.size]
    exact .inr (Nat.lt_succ_of_le (ih.elim (fun same => Nat.le_of_eq (same ▸ rfl)) Nat.le_of_lt))

/-! ## Critical edges -/

/-- If the block has two edges, no other block has an edge to where they lead. -/
def Lone (p : Procedure) (b : BlockId) : Prop :=
  (p.block b).cond.isSome = true → ∀ s ∈ (p.block b).succs, (p.block s).preds.length < 2

/-- What a landing block on the edge of a block leaves as it is, if there is one. -/
structure Splits (p : Procedure) (taken : Bool) (b : BlockId) (q : Procedure) : Prop where
  size : p.blocks.size ≤ q.blocks.size
  preds : ∀ s < p.blocks.size, (q.block s).preds.length = (p.block s).preds.length
  other : ∀ c < p.blocks.size, ∀ way, c ≠ b ∨ way ≠ taken →
    exit? (q.block c) way = exit? (p.block c) way
  new : ∀ c, p.blocks.size ≤ c → (q.block c).cond = none
  /-- The edge leads to a block that no other edge leads to. -/
  few : ∃ c < q.blocks.size, exit? (q.block b) taken = some c ∧ (q.block c).preds.length < 2

theorem Landing.splits (landing : p.Landing q taken source target slot) :
    p.Splits taken source q where
  size := landing.size ▸ Nat.le_succ _
  preds s lt := by
    rw [landing.preds s lt]
    split
    · rw [length_set]
    · rfl
  other c lt way isOther := by
    by_cases isSource : c = source
    · rw [isSource, landing.exits, if_neg (isOther.resolve_left fun other => other isSource)]
    · obtain ⟨-, direct, cond⟩ := landing.other c lt isSource
      rw [exit?, direct, cond]
      rfl
  new c beyond := by
    rcases Nat.eq_or_lt_of_le beyond with rfl | behind
    · obtain ⟨label, block⟩ := landing.landing
      rw [block]
    · rw [block_of_size_le q (landing.size ▸ behind)]
      rfl
  few := by
    obtain ⟨label, block⟩ := landing.landing
    exact ⟨_, landing.size ▸ Nat.lt_succ_self _, (landing.exits taken).trans (if_pos rfl), by
      rw [block]; exact Nat.lt_succ_self 1⟩

theorem mem_succs_iff : s ∈ b.succs ↔ ∃ way, exit? b way = some s := by
  refine ⟨fun mem => ?_, fun ⟨way, isExit⟩ => mem_succs_of_exit isExit⟩
  rcases mem_append.mp mem with isDirect | isCond
  · exact ⟨false, Option.mem_toList.mp isDirect⟩
  · exact ⟨true, Option.mem_toList.mp isCond⟩

private theorem Splits.lone {b c : BlockId} (splits : p.Splits taken b q) (wf : p.WellFormed)
    (isOther : c ≠ b) (lone : p.Lone c) : q.Lone c := by
  intro twoWay s edge
  rcases Nat.lt_or_ge c p.blocks.size with lt | beyond
  · obtain ⟨way, isExit⟩ := mem_succs_iff.mp edge
    rw [splits.other c lt way (.inl isOther)] at isExit
    rw [splits.preds s (wf.inside c s (mem_succs_of_exit isExit)).1]
    have isCond : (q.block c).cond = (p.block c).cond := splits.other c lt true (.inl isOther)
    exact lone (isCond ▸ twoWay) s (mem_succs_of_exit isExit)
  · rw [splits.new c beyond] at twoWay
    cases twoWay

private theorem splits_splitExit (landings : r.Landings p) (wf : p.WellFormed) (taken : Bool)
    (edge : exit? (p.block source) taken = some target)
    (twoWay : (p.block source).cond.isSome = true)
    (lt : source < r.blocks.size ∧ target < r.blocks.size)
    (apart : taken = false → 2 ≤ (p.block target).preds.length →
      (p.block source).cond ≠ some target) :
    r.Landings (p.splitExit taken source target) ∧
      p.Splits taken source (p.splitExit taken source target) := by
  by_cases many : (p.block target).preds.length < 2
  · rw [splitExit, if_pos many]
    exact ⟨landings, Nat.le_refl _, fun _ _ => rfl, fun _ _ _ _ => rfl,
      fun c beyond => by rw [block_of_size_le p beyond]; rfl, target,
      (wf.inside _ _ (mem_succs_of_exit edge)).1, edge, many⟩
  · obtain ⟨slot, landing⟩ := landing_splitExit wf edge twoWay many
    exact ⟨.step landings landing lt fun isDirect => apart isDirect (Nat.le_of_not_lt many),
      landing.splits⟩

/-- Splitting the edges of a block puts landing blocks on them where others lead to the same
block. -/
theorem landings_splitEdgesOf (cert : r.Certified assigned) (landings : r.Landings p)
    {b : BlockId} (inside : ∀ s ∈ (p.block b).succs, b < r.blocks.size ∧ s < r.blocks.size) :
    r.Landings (p.splitEdgesOf b) ∧ (p.splitEdgesOf b).Lone b ∧
      (∀ c ≠ b, p.Lone c → (p.splitEdgesOf b).Lone c) ∧
      ∀ c < p.blocks.size, c ≠ b → ∀ way, exit? ((p.splitEdgesOf b).block c) way =
        exit? (p.block c) way := by
  have wf := (landings.certified cert).wf
  cases isCond : (p.block b).cond with
  | none =>
    have same : p.splitEdgesOf b = p := by simp [splitEdgesOf, isCond]
    rw [same]
    exact ⟨landings, fun twoWay => by simp [isCond] at twoWay, fun _ _ => id, fun _ _ _ _ => rfl⟩
  | some cond =>
    have edge : cond ∈ (p.block b).succs := by simp [Block.succs, isCond]
    have lt := lt_size_of_mem_succs edge
    obtain ⟨direct, isDirect⟩ := wf.direct_of_cond lt isCond
    have both : p.splitEdgesOf b = (p.splitExit true b cond).splitExit false b direct := by
      rw [splitEdgesOf, isDirect, isCond]
    rw [both]
    obtain ⟨landings, first⟩ := splits_splitExit landings wf true isCond (by rw [isCond]; rfl)
      (inside cond edge) fun never => Bool.noConfusion never
    generalize p.splitExit true b cond = q at *
    have wf' := (landings.certified cert).wf
    obtain ⟨c, insideTaken, isTaken, few⟩ := first.few
    have isTaken : (q.block b).cond = some c := isTaken
    obtain ⟨landings, second⟩ := splits_splitExit landings wf' false
      ((first.other b lt false (.inr Bool.false_ne_true)).trans isDirect) (by rw [isTaken]; rfl)
      (inside direct (by simp [Block.succs, isDirect])) fun _ many same => by
        rw [isTaken, Option.some.injEq] at same
        exact Nat.not_lt_of_le many (same ▸ few)
    refine ⟨landings, fun _ s isEdge => ?_, fun c isOther lone => second.lone wf' isOther
      (first.lone wf isOther lone), fun c inside isOther way => ?_⟩
    · obtain ⟨way, isExit⟩ := mem_succs_iff.mp isEdge
      cases way with
      | false =>
        obtain ⟨d, -, isDirect, few⟩ := second.few
        rwa [Option.some.inj (isExit.symm.trans isDirect)]
      | true =>
        rw [second.other b (Nat.lt_of_lt_of_le lt first.size) true
          (.inr Bool.true_eq_false.mp)] at isExit
        rwa [← Option.some.inj (isTaken.symm.trans isExit), second.preds c insideTaken]
    · rw [second.other c (Nat.lt_of_lt_of_le inside first.size) way (.inl isOther),
        first.other c inside way (.inl isOther)]

/-- No block with two edges shares where they lead. -/
def Uncritical (p : Procedure) : Prop := ∀ b, p.Lone b

private theorem landings_foldl_splitEdgesOf (cert : r.Certified assigned) (landings : r.Landings p)
    (blocks : List BlockId) (nodup : blocks.Nodup) (known : ∀ c, c ∉ blocks → p.Lone c)
    (same : ∀ b ∈ blocks, b < r.blocks.size ∧
      ∀ way, exit? (p.block b) way = exit? (r.block b) way) :
    r.Landings (blocks.foldl splitEdgesOf p) ∧ (blocks.foldl splitEdgesOf p).Uncritical := by
  induction blocks generalizing p with
  | nil => exact ⟨landings, fun c => known c not_mem_nil⟩
  | cons b blocks ih =>
    rw [nodup_cons] at nodup
    rw [forall_mem_cons] at same
    have size : r.blocks.size ≤ p.blocks.size :=
      landings.grows.elim (fun same => Nat.le_of_eq (same ▸ rfl)) Nat.le_of_lt
    obtain ⟨landings, lone, others, exits⟩ :=
      landings_splitEdgesOf cert landings (b := b) fun s edge => by
      obtain ⟨way, isExit⟩ := mem_succs_iff.mp edge
      rw [same.1.2 way] at isExit
      exact ⟨same.1.1, (cert.wf.inside b s (mem_succs_of_exit isExit)).1⟩
    refine ih landings nodup.2 (fun c absent => ?_) fun c mem => ?_
    · by_cases here : c = b
      · exact here ▸ lone
      · exact others c here (known c (by simp [here, absent]))
    · obtain ⟨lt, kept⟩ := same.2 c mem
      refine ⟨lt, fun way => ?_⟩
      rw [exits c (Nat.lt_of_lt_of_le lt size) (fun here => nodup.1 (here ▸ mem)), kept]

theorem SameEdges.uncritical {q : Procedure} (same : p.SameEdges q) (uncritical : p.Uncritical) :
    q.Uncritical := by
  intro b twoWay s edge
  rw [same.preds s]
  exact uncritical b (same.cond b ▸ twoWay) s (same.succs b ▸ edge)

theorem sameEdges_installOrders (p : Procedure) (walk : Walk) :
    p.SameEdges (p.installOrders walk) := by
  refine ⟨size_installOrders p walk, fun b => ?_, fun b => ?_, fun b => ?_, fun b => ?_⟩ <;>
  · obtain ⟨n, same⟩ := p.block_installOrders walk b
    rw [same]

/-- Recording orders changes nothing that a certificate speaks of. -/
theorem certified_installOrders (cert : p.Certified assigned) (walk : Walk) :
    (p.installOrders walk).Certified assigned := by
  have sameEdges := p.sameEdges_installOrders walk
  have sameInsts : ∀ b, ((p.installOrders walk).block b).insts = (p.block b).insts := by
    intro b
    obtain ⟨n, same⟩ := p.block_installOrders walk b
    rw [same]
  have samePhis : ∀ b, ((p.installOrders walk).block b).phis = (p.block b).phis := by
    intro b
    rw [Block.phis, sameInsts b]
    rfl
  have sameBody : ∀ b, ((p.installOrders walk).block b).body = (p.block b).body := by
    intro b
    rw [Block.body, sameInsts b, samePhis b]
    rfl
  obtain ⟨vs, versioned, strict⟩ := cert.versioned
  refine ⟨sameEdges.wf cert.wf fun b lt => ?_, fun b lt => ?_,
    (samePhis entry).trans cert.noPhis, vs, ?_, strict⟩
  · obtain ⟨shape⟩ := cert.wf.shape b lt
    exact sameEdges.shape shape (sameInsts b)
  · rw [sameInsts b]
    exact cert.ordinary b (sameEdges.size ▸ lt)
  · refine ⟨versioned.sources, versioned.inside, versioned.listed, versioned.args, ?_, ?_,
      ?_, ?_, ?_⟩
    all_goals
      intro b lt
      rw [sameEdges.size] at lt
    · rw [sameBody b]
      exact versioned.follows b lt
    · exact versioned.faithful b lt
    · rw [samePhis b]
      exact versioned.phi b lt
    · rw [samePhis b, sameEdges.preds b]
      exact versioned.phiArg b lt
    · rw [samePhis b, sameEdges.preds b]
      exact versioned.edge b lt

theorem landings_blockIds (cert : p.Certified assigned) :
    p.Landings (p.blockIds.foldl splitEdgesOf p) ∧
      (p.blockIds.foldl splitEdgesOf p).Uncritical := by
  refine landings_foldl_splitEdgesOf cert .refl p.blockIds nodup_range (fun c absent twoWay => ?_)
    fun b mem => ⟨mem_blockIds.mp mem, fun _ => rfl⟩
  rw [mem_blockIds, Nat.not_lt] at absent
  rw [block_of_size_le p absent] at twoWay
  cases twoWay

/-- Splitting critical edges keeps form and certificate, finds the orders, and leaves no critical
edge. -/
theorem certified_splitCriticalEdges {q : Procedure} {count : Nat} (cert : p.Certified assigned)
    (ordered : p.Ordered) (split : p.splitCriticalEdges = .ok (q, count)) :
    q.Certified assigned ∧ q.Ordered ∧ q.Uncritical ∧ (count = 0 → q = p) := by
  obtain ⟨landings, uncritical⟩ := landings_blockIds cert
  have cert' := landings.certified cert
  unfold splitCriticalEdges at split
  dsimp only at split
  generalize p.blockIds.foldl splitEdgesOf p = r at *
  by_cases none : r.blocks.size - p.blocks.size = 0
  · rw [if_pos none] at split
    obtain ⟨rfl, rfl⟩ := Prod.mk.inj (Except.ok.inj split)
    obtain rfl := landings.grows.resolve_right (Nat.not_lt.mpr (Nat.le_of_sub_eq_zero none))
    exact ⟨cert, ordered, uncritical, fun _ => rfl⟩
  · rw [if_neg none] at split
    obtain ⟨r', done, same⟩ := bind_pure_eq_ok split
    obtain ⟨rfl, rfl⟩ := Prod.mk.inj same
    obtain ⟨rfl, isOrdered⟩ := ordered_recomputeOrders done cert'.wf.nonempty
      fun b s edge => (cert'.wf.inside b s edge).1
    exact ⟨certified_installOrders cert' _, isOrdered,
      (r.sameEdges_installOrders _).uncritical uncritical, fun zero => absurd zero none⟩

end Procedure

end ArmBackend
