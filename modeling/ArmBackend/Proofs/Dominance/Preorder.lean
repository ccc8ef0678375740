import ArmBackend.Proofs.Dominance.Solve

/-!
Contract: the dominator tree of a flow graph is exact, and a traversal with a stack lists it in
preorder.

Owns: that the tree is always found, with two blocks meeting each time their ancestors are compared,
that being above in it is dominance, also in graphs with edges that lead back to the entry, what
holds of the blocks visited and of the stack at every point, the principle that what each visit
preserves holds when every block has been visited, and that each block is visited once, after its
parent.
-/

namespace ArmBackend

open List Procedure

variable {c q s : BlockId}

namespace DomTree

variable {p : Procedure} {a b : BlockId} {t : DomTree}

/-- The tree of a flow graph: every block but the entry has a parent that comes before it in reverse
postorder, and being above is dominance. -/
structure Exact (p : Procedure) (t : DomTree) : Prop where
  size : t.parents.size = p.blocks.size
  root : t.idom? entry = none
  parent : ∀ b < p.blocks.size, b ≠ entry → ∃ a, t.idom? b = some a ∧ a < p.blocks.size ∧
    (p.block b).postIndex < (p.block a).postIndex
  above : ∀ b < p.blocks.size, ∀ a, Above t.idom? a b ↔ p.Dominates a b

theorem Above.congr {parent parent' : BlockId → Option BlockId}
    (same : ∀ b, b ≠ entry → parent b = parent' b) (above : Above parent a b) :
    Above parent' a b := by
  induction above with
  | refl => exact .refl
  | up isParent other above ih =>
    exact .up (same _ other ▸ isParent) other ih

theorem exact_solve (linked : p.Linked) (ordered : p.Ordered) :
    Exact p ⟨(solve p).setIfInBounds entry none⟩ := by
  have settled := settled_solve linked ordered
  have isParent : ∀ b, b ≠ entry → idom? ⟨(solve p).setIfInBounds entry none⟩ b =
      parentIn (solve p) b := by
    intro b other
    rw [idom?, Tables.getD_setIfInBounds, if_neg fun both => other both.1.symm]
    rfl
  refine ⟨by simpa using settled.size, ?_, ?_, ?_⟩
  · rw [idom?, Tables.getD_setIfInBounds, settled.size, if_pos ⟨rfl, linked.nonempty⟩]
  · intro b lt other
    have known := settled.known (Nat.succ_pos _) b lt
    obtain ⟨a, found⟩ := Option.isSome_iff_exists.mp known
    refine ⟨a, (isParent b other).trans found, ?_, settled.search.later b a found other⟩
    exact settled.search.inside a (settled.search.known b a found other)
  · intro b lt a
    rw [← above_solve_iff linked ordered lt]
    exact ⟨Above.congr isParent, Above.congr fun x other => (isParent x other).symm⟩

theorem ofProcedure_eq (linked : p.Linked) (ordered : p.Ordered) :
    ofProcedure p = .ok ⟨(solve p).setIfInBounds entry none⟩ := by
  have settled := settled_solve linked ordered
  have none : p.blockIds.find? (fun b => ((solve p).getD b none).isNone) = none := by
    apply find?_eq_none.mpr
    intro b mem
    have known := settled.known (Nat.succ_pos _) b (mem_blockIds.mp mem)
    rw [parentIn] at known
    simpa [Option.isNone_iff_eq_none, Option.isSome_iff_ne_none] using known
  unfold ofProcedure
  simp only [none]

theorem exact_ofProcedure (linked : p.Linked) (ordered : p.Ordered)
    (found : ofProcedure p = .ok t) : Exact p t := by
  rw [ofProcedure_eq linked ordered, Except.ok.injEq] at found
  exact found ▸ exact_solve linked ordered

namespace Exact

theorem lt_of_parent (dom : Exact p t) (isParent : t.idom? b = some a) :
    b < p.blocks.size ∧ b ≠ entry := by
  constructor
  · apply Nat.lt_of_not_le
    intro above
    rw [idom?, Tables.getD_of_size_le _ none (dom.size ▸ above)] at isParent
    cases isParent
  · rintro rfl
    rw [dom.root] at isParent
    cases isParent

theorem parent_lt (dom : Exact p t) (isParent : t.idom? b = some a) :
    a < p.blocks.size ∧ (p.block b).postIndex < (p.block a).postIndex := by
  obtain ⟨lt, other⟩ := dom.lt_of_parent isParent
  obtain ⟨a', found, inside, later⟩ := dom.parent b lt other
  rw [isParent, Option.some.injEq] at found
  exact found ▸ ⟨inside, later⟩

theorem above_lt (dom : Exact p t) (above : Above t.idom? a b) (lt : b < p.blocks.size) :
    a < p.blocks.size := by
  induction above with
  | refl => exact lt
  | up isParent other above ih =>
    exact ih (dom.parent_lt isParent).1

theorem above_later (dom : Exact p t) (above : Above t.idom? a b) :
    a = b ∨ (p.block b).postIndex < (p.block a).postIndex := by
  induction above with
  | refl => exact .inl rfl
  | up isParent other above ih =>
    have first := (dom.parent_lt isParent).2
    rcases ih with rfl | rest
    · exact .inr first
    · exact .inr (Nat.lt_trans first rest)

theorem above_antisymm (dom : Exact p t) (down : Above t.idom? a b) (up : Above t.idom? b a) :
    a = b := by
  rcases dom.above_later down with same | lower
  · exact same
  · rcases dom.above_later up with same | higher
    · exact same.symm
    · omega

theorem above_total (_ : Exact p t) (first : Above t.idom? a c)
    (second : Above t.idom? b c) : Above t.idom? a b ∨ Above t.idom? b a := by
  induction first with
  | refl => exact .inr second
  | @up x y isParent other above ih =>
    rcases second.cases_parent isParent with rfl | higher
    · exact .inl (.up isParent other above)
    · exact ih higher

theorem parent_above_pred (dom : Exact p t)
    (edge : s ∈ (p.block q).succs) (isParent : t.idom? s = some a) : Above t.idom? a q := by
  obtain ⟨lt, other⟩ := dom.lt_of_parent isParent
  have inside := lt_size_of_mem_succs edge
  have dominates := (dom.above s lt a).mp (.up isParent other .refl)
  have later := (dom.parent_lt isParent).2
  refine (dom.above q inside a).mpr (dominates.pred ?_ edge)
  rintro rfl
  exact Nat.lt_irrefl _ later

theorem above_entry (dom : Exact p t) (lt : b < p.blocks.size) : Above t.idom? entry b :=
  (dom.above b lt entry).mpr (dominates_entry b)

theorem parent_of_lone (dom : Exact p t) (ordered : p.Ordered) (linked : p.Linked)
    (other : s ≠ entry) (edge : s ∈ (p.block q).succs)
    (lone : ∀ d ∈ (p.block s).preds, d = q) : t.idom? s = some q := by
  have lt := linked.inside q s edge
  obtain ⟨a, isParent, -⟩ := dom.parent s lt other
  obtain ⟨d, -, earlier, later⟩ := ordered.exists_earlier lt other
  obtain rfl : d = q := lone d ((linked.inverse d s).mpr earlier)
  have dominates : p.Dominates d s := by
    intro seen path
    cases path with
    | start => exact absurd rfl other
    | extend path last =>
      rw [lone _ ((linked.inverse _ s).mpr last)] at path
      exact mem_cons_of_mem _ path.mem
  have above := (dom.above s lt d).mpr dominates
  rcases above.cases_parent isParent with rfl | upper
  · exact absurd later (Nat.lt_irrefl _)
  · rw [dom.above_antisymm upper (dom.parent_above_pred edge isParent)]
    exact isParent

/-- What every block on the way up shares with its parent is the same at both ends of the way. -/
theorem climb (dom : Exact p t) {α : Type} (value : BlockId → α) {top : BlockId}
    (above : Above t.idom? top b)
    (same : ∀ y c, Above t.idom? y b → Above t.idom? top y → y ≠ top → t.idom? y = some c →
      value y = value c) : value b = value top := by
  induction above with
  | refl => rfl
  | @up b c isParent other above ih =>
    have different : b ≠ top := by
      rintro rfl
      have later := (dom.parent_lt isParent).2
      rcases dom.above_later above with rfl | higher
      · exact Nat.lt_irrefl _ later
      · exact Nat.lt_irrefl _ (Nat.lt_trans later higher)
    rw [same b c .refl (.up isParent other above) different isParent]
    exact ih fun y d lower => same y d (.up isParent other lower)

end Exact

/-! ## Climbing the tree -/

section

variable (ordered : p.Ordered) (dom : Exact p t) (lt : b < p.blocks.size)

include ordered dom lt

/-- A list that climbs far enough holds exactly what is above its first block. -/
theorem mem_chain (steps : Nat) (enough : headroom p b ≤ steps) :
    a ∈ t.chain steps b ↔ Above t.idom? a b := by
  induction steps generalizing b with
  | zero =>
    have room := ordered.postIndex_lt lt
    rw [headroom] at enough
    omega
  | succ steps ih =>
    rw [chain]
    cases isParent : t.idom? b with
    | none =>
      simp only [mem_singleton]
      constructor
      · rintro rfl
        exact .refl
      · intro above
        cases above with
        | refl => rfl
        | up found other above =>
          rw [isParent] at found
          cases found
    | some c =>
      obtain ⟨inside, later⟩ := dom.parent_lt isParent
      have room := ordered.postIndex_lt inside
      simp only [mem_cons]
      rw [ih inside (by rw [headroom] at enough ⊢; omega)]
      refine ⟨?_, fun above => above.cases_parent isParent⟩
      rintro (rfl | above)
      · exact .refl
      · exact .up isParent (dom.lt_of_parent isParent).2 above

theorem mem_dominators : a ∈ t.dominators b ↔ Above t.idom? a b := by
  apply mem_chain ordered dom lt
  have room := headroom_le p b
  rw [dom.size]
  omega

theorem dominates_iff : t.dominates a b = true ↔ Above t.idom? a b := by
  rw [dominates, List.contains_iff_mem]
  exact mem_dominators ordered dom lt

end

/-! ## Preorder -/

variable {σ : Type}

/-- The blocks visited, latest first, and the stack. Blocks further down the stack hang off blocks
that are further up the tree. -/
structure Stacked (p : Procedure) (t : DomTree) (done stack : List BlockId) : Prop where
  nodup : (stack ++ done).Nodup
  inside : ∀ b ∈ stack ++ done, b < p.blocks.size
  waiting : ∀ b ∈ stack, b = entry ∨ ∃ a ∈ done, t.idom? b = some a
  closed : ∀ b ∈ done, b = entry ∨ ∃ a ∈ done, t.idom? b = some a
  nested : stack.Pairwise fun b c =>
    ∀ x y, t.idom? b = some x → t.idom? c = some y → Above t.idom? y x
  alone : entry ∈ stack → stack = [entry]
  covered : ∀ b < p.blocks.size, b ∈ done ∨ ∃ c ∈ stack, Above t.idom? c b

theorem mem_children (dom : Exact p t) : c ∈ t.children b ↔ t.idom? c = some b := by
  rw [children, mem_filter, mem_range, decide_eq_true_eq]
  refine ⟨fun both => both.2, fun isParent => ⟨?_, isParent⟩⟩
  rw [dom.size]
  exact (dom.lt_of_parent isParent).1

private theorem Above.child {parent : BlockId → Option BlockId} {x : BlockId}
    (above : Above parent b x) (other : x ≠ b) : ∃ c, parent c = some b ∧ Above parent c x := by
  induction above with
  | refl => exact absurd rfl other
  | @up x y isParent notEntry above ih =>
    by_cases same : y = b
    · exact ⟨x, same ▸ isParent, .refl⟩
    · obtain ⟨c, isChild, below⟩ := ih same
      exact ⟨c, isChild, .up isParent notEntry below⟩

private theorem stacked_start (linked : p.Linked) (dom : Exact p t) : Stacked p t [] [entry] where
  nodup := by simp
  inside b mem := by
    have isEntry : b = entry := by simpa using mem
    exact isEntry ▸ linked.nonempty
  waiting b mem := .inl (mem_singleton.mp mem)
  closed b mem := by cases mem
  nested := by simp
  alone _ := rfl
  covered b lt := .inr ⟨entry, by simp, dom.above_entry lt⟩

theorem Stacked.step (dom : Exact p t) {done stack : List BlockId}
    (stacked : Stacked p t done (b :: stack)) :
    Stacked p t (b :: done) (t.children b ++ stack) := by
  have nodup := stacked.nodup
  rw [cons_append, nodup_cons] at nodup
  have fresh : b ∉ stack ∧ b ∉ done := by simpa using nodup.1
  have inside := stacked.inside b (by simp)
  -- A child of the visited block is neither visited nor on the stack.
  have newChild : ∀ c ∈ t.children b, c ∉ stack ∧ c ∉ done ∧ c ≠ b := by
    intro c mem
    have isParent := (mem_children dom).mp mem
    have notEntry := (dom.lt_of_parent isParent).2
    refine ⟨fun onStack => ?_, fun visited => ?_, ?_⟩
    · rcases stacked.waiting c (mem_cons_of_mem _ onStack) with isEntry | ⟨a, visited, found⟩
      · exact notEntry isEntry
      · rw [isParent, Option.some.injEq] at found
        exact fresh.2 (found ▸ visited)
    · rcases stacked.closed c visited with isEntry | ⟨a, earlier, found⟩
      · exact notEntry isEntry
      · rw [isParent, Option.some.injEq] at found
        exact fresh.2 (found ▸ earlier)
    · rintro rfl
      exact Nat.lt_irrefl _ (dom.parent_lt isParent).2
  have childrenNodup : (t.children b).Nodup := nodup_range.filter _
  refine ⟨?_, ?_, ?_, ?_, ?_, ?_, ?_⟩
  · rw [append_assoc, nodup_append]
    refine ⟨childrenNodup, ?_, ?_⟩
    · exact (perm_middle.nodup_iff).mpr (nodup_cons.mpr nodup)
    · rintro c mem d inRest rfl
      obtain ⟨offStack, offDone, other⟩ := newChild c mem
      rcases mem_append.mp inRest with onStack | visited
      · exact offStack onStack
      · rcases mem_cons.mp visited with isSelf | visited
        · exact other isSelf
        · exact offDone visited
  · intro c mem
    rcases mem_append.mp mem with upper | visited
    · rcases mem_append.mp upper with isChild | onStack
      · exact (dom.lt_of_parent ((mem_children dom).mp isChild)).1
      · exact stacked.inside c (by simp [onStack])
    · rcases mem_cons.mp visited with rfl | visited
      · exact inside
      · exact stacked.inside c (by simp [visited])
  · intro c mem
    rcases mem_append.mp mem with isChild | onStack
    · exact .inr ⟨b, by simp, (mem_children dom).mp isChild⟩
    · rcases stacked.waiting c (mem_cons_of_mem _ onStack) with isEntry | ⟨a, visited, found⟩
      · exact .inl isEntry
      · exact .inr ⟨a, mem_cons_of_mem _ visited, found⟩
  · intro c mem
    have earlier : c = entry ∨ ∃ a ∈ done, t.idom? c = some a := by
      rcases mem_cons.mp mem with rfl | visited
      · exact stacked.waiting c (by simp)
      · exact stacked.closed c visited
    rcases earlier with isEntry | ⟨a, visited, found⟩
    · exact .inl isEntry
    · exact .inr ⟨a, mem_cons_of_mem _ visited, found⟩
  · rw [pairwise_append]
    have nested := pairwise_cons.mp stacked.nested
    refine ⟨?_, nested.2, ?_⟩
    · apply List.Pairwise.imp_of_mem (R := fun _ _ => True)
      · intro c d inC inD _ x y foundC foundD
        rw [(mem_children dom).mp inC, Option.some.injEq] at foundC
        rw [(mem_children dom).mp inD, Option.some.injEq] at foundD
        exact foundC ▸ foundD ▸ .refl
      · exact pairwise_of_forall fun _ _ => trivial
    · intro c isChild d onStack x y foundC foundD
      rw [(mem_children dom).mp isChild, Option.some.injEq] at foundC
      subst foundC
      rcases stacked.waiting b (by simp) with isEntry | ⟨a, -, isParent⟩
      · have only := stacked.alone (isEntry ▸ mem_cons_self)
        rw [List.cons.injEq] at only
        rw [only.2] at onStack
        cases onStack
      · have above := nested.1 d onStack a y isParent foundD
        exact .up isParent (dom.lt_of_parent isParent).2 above
  · intro mem
    rcases mem_append.mp mem with isChild | onStack
    · exact absurd rfl (dom.lt_of_parent ((mem_children dom).mp isChild)).2
    · have only := stacked.alone (mem_cons_of_mem _ onStack)
      rw [List.cons.injEq] at only
      rw [only.2] at onStack
      cases onStack
  · intro x lt
    rcases stacked.covered x lt with visited | ⟨c, onStack, above⟩
    · exact .inl (mem_cons_of_mem _ visited)
    · rcases mem_cons.mp onStack with rfl | onStack
      · by_cases same : x = c
        · exact .inl (same ▸ mem_cons_self)
        · obtain ⟨d, isChild, below⟩ := above.child same
          exact .inr ⟨d, mem_append_left _ ((mem_children dom).mpr isChild), below⟩
      · exact .inr ⟨c, mem_append_right _ onStack, above⟩

/-- What every visit preserves holds when all blocks have been visited. -/
theorem visit_induction (dom : Exact p t) (f : BlockId → StateM σ Unit)
    (holds : List BlockId → List BlockId → σ → Prop)
    (step : ∀ done b stack state, Stacked p t done (b :: stack) → holds done (b :: stack) state →
      holds (b :: done) (t.children b ++ stack) ((f b).run state).2)
    (steps : Nat) (done stack : List BlockId) (state : σ) (stacked : Stacked p t done stack)
    (start : holds done stack state) (enough : p.blocks.size ≤ steps + done.length) :
    ∃ all, Stacked p t all [] ∧ holds all [] (((t.visit steps stack).forM f).run state).2 := by
  induction steps generalizing done stack state with
  | zero =>
    have none : stack = [] := by
      have few := Tables.length_le_of_nodup stacked.nodup stacked.inside
      rw [length_append] at few
      apply eq_nil_of_length_eq_zero
      omega
    subst none
    exact ⟨done, stacked, start⟩
  | succ steps ih =>
    cases stack with
    | nil => exact ⟨done, stacked, start⟩
    | cons b stack =>
      rw [visit]
      refine ih (b :: done) (t.children b ++ stack) ((f b).run state).2
        (stacked.step dom) (step done b stack state stacked start) ?_
      rw [length_cons]
      omega

section

variable (linked : p.Linked) (dom : Exact p t)

include linked dom

/-- The same for the whole preorder; every block has then been visited. -/
theorem preorder_induction (f : BlockId → StateM σ Unit)
    (holds : List BlockId → List BlockId → σ → Prop)
    (step : ∀ done b stack state, Stacked p t done (b :: stack) → holds done (b :: stack) state →
      holds (b :: done) (t.children b ++ stack) ((f b).run state).2)
    (state : σ) (start : holds [] [entry] state) :
    ∃ all, (∀ b < p.blocks.size, b ∈ all) ∧ Stacked p t all [] ∧
      holds all [] ((t.preorder.forM f).run state).2 := by
  have nonempty : t.parents.isEmpty = false := by
    have size := dom.size
    have positive := linked.nonempty
    simp only [Array.isEmpty, decide_eq_false_iff_not]
    omega
  rw [preorder, nonempty]
  obtain ⟨all, stacked, done⟩ := visit_induction dom f holds step t.parents.size [] [entry] state
    (stacked_start linked dom) start (by rw [dom.size]; omega)
  refine ⟨all, fun b lt => ?_, stacked, done⟩
  rcases stacked.covered b lt with visited | ⟨c, impossible, -⟩
  · exact visited
  · cases impossible

/-- What every visit adds to holds of the whole preorder. -/
theorem preorder_visits (holds : List BlockId → Prop) (start : holds [])
    (step : ∀ done b stack, Stacked p t done (b :: stack) → holds done → holds (b :: done)) :
    Stacked p t t.preorder.reverse [] ∧ holds t.preorder.reverse := by
  -- The blocks visited so far are noted down.
  let note (b : BlockId) : StateM (List BlockId) Unit := modify (b :: ·)
  have noted : ∀ (blocks visited : List BlockId), ((blocks.forM note).run visited).2 =
      blocks.reverse ++ visited := by
    intro blocks
    induction blocks with
    | nil => exact fun visited => rfl
    | cons b rest ih =>
      intro visited
      refine (ih (b :: visited)).trans ?_
      rw [reverse_cons, append_assoc, singleton_append]
  obtain ⟨all, -, stacked, isVisited, known⟩ := preorder_induction linked dom note
    (fun done _ visited => visited = done ∧ holds done)
    (fun done b stack visited stacked known =>
      ⟨congrArg (b :: ·) known.1, step done b stack stacked known.2⟩) [] ⟨rfl, start⟩
  rw [noted, append_nil] at isVisited
  exact isVisited ▸ ⟨stacked, known⟩

theorem preorder_perm : t.preorder.Perm p.blockIds := by
  obtain ⟨stacked, -⟩ := preorder_visits linked dom (fun _ => True) trivial fun _ _ _ _ _ => trivial
  refine (reverse_perm _).symm.trans ((perm_ext_iff_of_nodup ?_ nodup_range).mpr ?_)
  · simpa using stacked.nodup
  · intro b
    refine ⟨fun mem => mem_blockIds.mpr (stacked.inside b (by simpa using mem)), fun mem => ?_⟩
    rcases stacked.covered b (mem_blockIds.mp mem) with visited | ⟨c, impossible, -⟩
    · exact visited
    · cases impossible

theorem parent_before {a : BlockId} {front back : List BlockId}
    (split : t.preorder = front ++ b :: back) (isParent : t.idom? b = some a) : a ∈ front := by
  obtain ⟨-, ordered⟩ := preorder_visits linked dom
    (fun done => ∀ after b before, done = after ++ b :: before → ∀ a, t.idom? b = some a →
      a ∈ before)
    (fun after b before empty => by simp at empty) (by
      intro done b stack stacked ordered after c before split a isParent
      cases after with
      | nil =>
        obtain ⟨rfl, rfl⟩ := List.cons.inj split
        rcases stacked.waiting b mem_cons_self with rfl | ⟨d, visited, found⟩
        · rw [dom.root] at isParent
          cases isParent
        · rw [isParent, Option.some.injEq] at found
          exact found ▸ visited
      | cons d after => exact ordered after c before (List.cons.inj split).2 a isParent)
  have reversed : t.preorder.reverse = back.reverse ++ b :: front.reverse := by simp [split]
  exact mem_reverse.mp (ordered back.reverse b front.reverse reversed a isParent)

end

end DomTree

/-! ## Immediate dominators -/

/-- `a` is another block than `b`, and on every path to it. -/
def Procedure.StrictlyDominates (p : Procedure) (a b : BlockId) : Prop := p.Dominates a b ∧ a ≠ b

namespace DomTree

variable {p : Procedure} {t : DomTree}

/-- The parents known after some rounds, and in the next one after the blocks `before`. -/
def table (p : Procedure) (rounds : Nat) (before : List BlockId) : Candidates :=
  before.foldl (process p) (Nat.repeat (round p) rounds (start p))

private theorem settled_iterate (linked : p.Linked) (ordered : p.Ordered) (rounds : Nat) :
    Settled p rounds (Nat.repeat (round p) rounds (start p)) := by
  induction rounds with
  | zero => exact settled_start linked
  | succ rounds ih => exact ih.round linked ordered

/-- At every point of the search two known blocks meet. -/
theorem fingers_table (linked : p.Linked) (ordered : p.Ordered) {rounds : Nat}
    {before after : List BlockId} (split : p.rpo = before ++ after) {a b : BlockId}
    (knownA : (parentIn (table p rounds before) a).isSome = true)
    (knownB : (parentIn (table p rounds before) b).isSome = true) :
    Fingers p (parentIn (table p rounds before))
      (meet p (table p rounds before) (p.blocks.size * p.blocks.size + 1) a b) a b :=
  fingers_meet_square ordered
    ((settled_iterate linked ordered rounds).progress linked ordered split).search knownA knownB

namespace Exact

theorem strictlyDominates_parent (dom : Exact p t) {a b : BlockId} (isParent : t.idom? b = some a) :
    p.StrictlyDominates a b := by
  obtain ⟨lt, other⟩ := dom.lt_of_parent isParent
  refine ⟨(dom.above b lt a).mp (.up isParent other .refl), ?_⟩
  rintro rfl
  exact Nat.lt_irrefl _ (dom.parent_lt isParent).2

/-- The parent of a block is its nearest strict dominator. -/
theorem parent_iff (dom : Exact p t) {a b : BlockId} (lt : b < p.blocks.size) (other : b ≠ entry) :
    t.idom? b = some a ↔ p.StrictlyDominates a b ∧ ∀ c, p.StrictlyDominates c b → c ≠ a →
      p.StrictlyDominates c a := by
  obtain ⟨m, isParent, inside, -⟩ := dom.parent b lt other
  have strict := dom.strictlyDominates_parent isParent
  have nearest : ∀ c, p.StrictlyDominates c b → p.Dominates c m := by
    rintro c ⟨dominates, different⟩
    have above := (dom.above b lt c).mpr dominates
    exact (dom.above m inside c).mp ((above.cases_parent isParent).resolve_left different)
  rw [isParent, Option.some.injEq]
  constructor
  · rintro rfl
    exact ⟨strict, fun c strictC different => ⟨nearest c strictC, different⟩⟩
  · rintro ⟨strictA, nearestA⟩
    refine Decidable.byContradiction fun different => ?_
    have insideA := dom.above_lt ((dom.above b lt a).mpr strictA.1) lt
    have down := (dom.above a insideA m).mpr (nearestA m strict different).1
    have up := (dom.above m inside a).mpr (nearest a strictA)
    exact different (dom.above_antisymm down up)

end Exact

/-! ## Procedures without blocks -/

theorem round_of_empty (empty : p.blocks = #[]) (current : p.recomputeOrders = .ok p)
    (found : Candidates) : round p found = found := by
  have noIds : p.blockIds = [] := by simp [blockIds, empty]
  have noOrder : p.rpo = [] := by
    simp only [recomputeOrders, noIds, List.find?_nil, Except.ok.injEq] at current
    rw [← current, installOrders, walk, empty]
    rfl
  rw [round, noOrder]
  rfl

theorem ofProcedure_of_empty (empty : p.blocks = #[])
    (current : p.recomputeOrders = .ok p) : ofProcedure p = .ok .empty := by
  have noIds : p.blockIds = [] := by simp [blockIds, empty]
  have unknown : solve p = #[] := by
    rw [solve, stabilize]
    simp [round_of_empty empty current, start, empty]
  simp [ofProcedure, noIds, unknown, DomTree.empty]

theorem parentIn_table_of_empty (empty : p.blocks = #[]) (rounds : Nat)
    (before : List BlockId) (b : BlockId) : parentIn (table p rounds before) b = none := by
  have size : ∀ (order : List BlockId) (found : Candidates), (order.foldl (process p) found).size =
      found.size := by
    intro order
    induction order with
    | nil => exact fun found => rfl
    | cons b rest ih =>
      exact fun found => (ih _).trans (size_process p found b)
  have atStart : (Nat.repeat (round p) rounds (start p)).size = 0 := by
    induction rounds with
    | zero => simp [Nat.repeat, start, empty]
    | succ rounds ih => exact (size p.rpo _).trans ih
  apply Tables.getD_of_size_le
  rw [table, size, atStart]
  exact Nat.zero_le b

/-! ## Exactness -/

/-- The tree that is computed answers exactly what dominates what. The search for it ends: its last
round changes nothing, and whenever it compares two blocks, moving the lower one up makes them
meet. -/
theorem dominance_ofProcedure {p : Procedure}
    (inside : ∀ b s, s ∈ (p.block b).succs → s < p.blocks.size)
    (inverse : ∀ b s, b ∈ (p.block s).preds ↔ s ∈ (p.block b).succs)
    (current : p.recomputeOrders = .ok p) :
    round p (solve p) = solve p ∧
    (∀ rounds before after, p.rpo = before ++ after →
      ∀ a b, (parentIn (table p rounds before) a).isSome = true →
      (parentIn (table p rounds before) b).isSome = true →
      Fingers p (parentIn (table p rounds before))
        (meet p (table p rounds before) (p.blocks.size * p.blocks.size + 1) a b) a b) ∧
    ∃ t, ofProcedure p = .ok t ∧
      (∀ a b, b < p.blocks.size → (t.dominates a b = true ↔ p.Dominates a b)) ∧
      t.idom? entry = none ∧
      (∀ b, b < p.blocks.size → b ≠ entry → (t.idom? b).isSome = true ∧
        ∀ a, t.idom? b = some a ↔ p.StrictlyDominates a b ∧
          ∀ c, p.StrictlyDominates c b → c ≠ a → p.StrictlyDominates c a) ∧
      t.preorder.Perm p.blockIds ∧
      ∀ front b back, t.preorder = front ++ b :: back → ∀ a, t.idom? b = some a → a ∈ front := by
  by_cases nonempty : 0 < p.blocks.size
  · have linked : p.Linked := ⟨nonempty, inside, inverse⟩
    have ordered := (ordered_recomputeOrders current nonempty inside).2
    have dom := exact_solve linked ordered
    refine ⟨round_solve linked ordered,
      fun rounds before after split a b => fingers_table linked ordered split,
      _, ofProcedure_eq linked ordered, fun a b lt => ?_, dom.root, fun b lt other => ?_,
      preorder_perm linked dom, fun front b back split a => parent_before linked dom split⟩
    · rw [dominates_iff ordered dom lt, dom.above b lt]
    · obtain ⟨a, isParent, -⟩ := dom.parent b lt other
      exact ⟨by rw [isParent]; rfl, fun a => dom.parent_iff lt other⟩
  · have empty : p.blocks = #[] := Array.eq_empty_of_size_eq_zero (by omega)
    have noBlock : ∀ b, ¬ b < p.blocks.size := by simp [empty]
    refine ⟨round_of_empty empty current _, fun rounds before after split a b known => ?_, .empty,
      ofProcedure_of_empty empty current, fun a b lt => absurd lt (noBlock b), rfl,
      fun b lt => absurd lt (noBlock b), ?_, fun front b back split a isParent => ?_⟩
    · rw [parentIn_table_of_empty empty] at known
      cases known
    · simp [preorder, DomTree.empty, blockIds, empty]
    · cases isParent

/-- A loop with two ways in, from which an edge leads back to the entry. -/
def twoWays : Procedure :=
  { Procedure.ofName "loop" .void with
    blocks :=
      #[ { Block.ofInsts 0 [] with preds := [2], direct := some 1, cond := some 2, postIndex := 3 },
      { Block.ofInsts 1 [] with preds := [0, 2], direct := some 2, cond := some 3, postIndex := 2 },
      { Block.ofInsts 2 [] with preds := [0, 1], direct := some 1, cond := some 0, postIndex := 0 },
      { Block.ofInsts 3 [] with preds := [1], postIndex := 1 }]
    preorder := [0, 1, 2, 3]
    postorder := [2, 3, 1, 0]
    rpo := [0, 1, 3, 2] }

theorem dominance_ofProcedure_twoWays : twoWays.recomputeOrders = .ok twoWays ∧
    ∃ t, ofProcedure twoWays = .ok t ∧ t.parents = #[none, some 0, some 0, some 1] ∧
      (t.dominates 1 3 = true ↔ twoWays.Dominates 1 3) ∧
      (t.dominates 1 2 = true ↔ twoWays.Dominates 1 2) := by
  have current : twoWays.recomputeOrders = .ok twoWays := by rfl
  have inside : ∀ b s, s ∈ (twoWays.block b).succs → s < twoWays.blocks.size := by
    intro b s edge
    have all : ∀ b < 4, ∀ s ∈ (twoWays.block b).succs, s < 4 := by decide
    exact all b (lt_size_of_mem_succs edge) s edge
  have inverse : ∀ b s, b ∈ (twoWays.block s).preds ↔ s ∈ (twoWays.block b).succs := by
    intro b s
    have all : ∀ s < 4, ∀ b ∈ (twoWays.block s).preds, b < 4 ∧ s ∈ (twoWays.block b).succs := by
      decide
    have back : ∀ b < 4, ∀ s ∈ (twoWays.block b).succs, b ∈ (twoWays.block s).preds := by decide
    by_cases lt : s < 4
    · exact ⟨fun isPred => (all s lt b isPred).2,
        fun edge => back b (lt_size_of_mem_succs edge) s edge⟩
    · have noPreds : (twoWays.block s).preds = [] := by
        rw [block, Tables.getD_of_size_le _ _ (Nat.le_of_not_lt lt)]
        rfl
      rw [noPreds]
      exact ⟨fun mem => absurd mem List.not_mem_nil, fun edge => absurd (inside b s edge) lt⟩
  obtain ⟨-, -, t, found, dominates, -⟩ := dominance_ofProcedure inside inverse current
  have isTree : ofProcedure twoWays = .ok ⟨#[none, some 0, some 0, some 1]⟩ := by rfl
  obtain rfl := Except.ok.inj (found.symm.trans isTree)
  exact ⟨current, _, found, rfl, dominates 1 3 (by decide), dominates 1 2 (by decide)⟩

end DomTree

end ArmBackend
