import ArmBackend.FlowGraph.Build
import ArmBackend.Proofs.Tables
import ArmBackend.Proofs.Walk

/-!
Contract: the form that every flow graph has between passes.

Owns: the shape of a block (phis, inner instructions, one terminator that fits the edges), the
agreement of edges and predecessor lists, and the agreement of the orders that a complete walk
leaves with the edges.
Does not own: which passes establish or keep the form.
-/

namespace ArmBackend

open List

variable {rest : List Inst}

namespace Inst

variable {i : Inst}

/-- An instruction that a text can spell, other than a label marker. -/
def isSource : Inst → Bool
  | .branch .. | .jump _ | .assign .. | .binary .. | .negate .. | .load .. | .store .. | .ret _
  | .call .. => true
  | _ => false

/-- An instruction that can stand between the phis and the terminator of a block. -/
def isInner : Inst → Bool
  | .label _ | .phi _ | .branch .. | .jump _ | .ret _ => false
  | _ => true

/-- An inner instruction that is neither spill code nor a copy ahead of a call. -/
def isOrdinary : Inst → Bool
  | .assign .. | .binary .. | .negate .. | .load .. | .store .. | .call .. | .stackArg .. => true
  | _ => false

/-- A simultaneous copy has a source for each of its variables. -/
def Balanced : Inst → Prop
  | .prepare defs srcs _ => defs.length = srcs.length
  | _ => True

instance : DecidablePred Balanced := fun i => by
  cases i <;> (unfold Balanced; infer_instance)

theorem isInner_of_isOrdinary (ordinary : i.isOrdinary = true) : i.isInner = true := by
  cases i <;> simp_all [isOrdinary, isInner]

theorem isOrdinary_of_isSource (source : i.isSource = true) (inner : i.isInner = true) :
    i.isOrdinary = true := by
  cases i <;> simp_all [isSource, isOrdinary, isInner]

theorem isInner_of_isSource (source : i.isSource = true) (inner : i.isTerminator = false) :
    i.isInner = true := by
  cases i <;> simp_all [isSource, isTerminator, isInner]

theorem isTerminator_of_isInner (inner : i.isInner = true) : i.isTerminator = false := by
  cases i <;> simp_all [isTerminator, isInner]

theorem isPhi_of_isInner (inner : i.isInner = true) : i.isPhi = false := by
  cases i <;> simp_all [isPhi, phi?, isInner]

theorem isPhi_of_isTerminator (last : i.isTerminator = true) : i.isPhi = false := by
  cases i <;> simp_all [isPhi, phi?, isTerminator]

theorem defs_of_isTerminator (last : i.isTerminator = true) : i.defs = [] := by
  cases i <;> simp_all [defs, isTerminator]

theorem exists_phi_of_isPhi (isPhi : i.isPhi = true) : ∃ phi, i = .phi phi := by
  cases i with
  | phi phi => exact ⟨phi, rfl⟩
  | _ => cases isPhi

end Inst

namespace Procedure

variable {b : Block} {i : Inst} {p : Procedure}

/-- The terminator of a block fits its edges: it jumps to the label of the block that the taken
edge, or else the only one, leads to. -/
def Exits (p : Procedure) (b : Block) : Inst → Prop
  | .branch _ _ _ target => ∃ d c, b.direct = some d ∧ b.cond = some c ∧ target = (p.block c).label
  | .jump target => ∃ d, b.direct = some d ∧ b.cond = none ∧ target = (p.block d).label
  | .ret _ => b.direct = none ∧ b.cond = none
  | _ => False

theorem Exits.isTerminator (exits : p.Exits b i) : i.isTerminator = true := by
  cases i <;> simp_all [Exits, Inst.isTerminator]

/-- A terminator fits the edges of a block with the same ones, if these lead to the same labels. -/
theorem Exits.transfer {q : Procedure} {b' : Block} (exits : p.Exits b i)
    (direct : b'.direct = b.direct) (cond : b'.cond = b.cond)
    (label : ∀ s ∈ b.succs, (q.block s).label = (p.block s).label) : q.Exits b' i := by
  cases i with
  | branch op left right target =>
    obtain ⟨d, c, isDirect, isCond, isLabel⟩ := exits
    refine ⟨d, c, direct.trans isDirect, cond.trans isCond, isLabel.trans (label c ?_).symm⟩
    simp [Block.succs, isCond]
  | jump target =>
    obtain ⟨d, isDirect, isCond, isLabel⟩ := exits
    refine ⟨d, direct.trans isDirect, cond.trans isCond, isLabel.trans (label d ?_).symm⟩
    simp [Block.succs, isDirect]
  | ret value => exact ⟨direct.trans exits.1, cond.trans exits.2⟩
  | _ => exact exits.elim

/-- A block is a run of phis, then inner instructions, then one terminator. -/
structure Shape (p : Procedure) (b : Block) where
  phis : List Phi
  inner : List Inst
  last : Inst
  insts : b.insts = phis.map Inst.phi ++ (inner ++ [last])
  isInner : ∀ i ∈ inner, i.isInner = true
  exits : p.Exits b last
  arity : ∀ phi ∈ phis, phi.args.length = b.preds.length

/-- Blocks are in shape, edges stay inside and off the entry, and predecessor lists hold the sources
of the edges. -/
structure WellFormed (p : Procedure) : Prop where
  nonempty : 0 < p.blocks.size
  inside : ∀ b s, s ∈ (p.block b).succs → s < p.blocks.size ∧ s ≠ entry
  preds : ∀ s < p.blocks.size, (p.block s).preds.Perm (FlowGraph.predsOf p.blocks s)
  shape : ∀ b < p.blocks.size, Nonempty (p.Shape (p.block b))

/-- Every block is in shape. -/
def Shaped (p : Procedure) : Prop := ∀ b < p.blocks.size, Nonempty (p.Shape (p.block b))

/-- All variables that the instructions of a procedure mention are declared, and its copies are
balanced. -/
structure Bounded (p : Procedure) : Prop where
  args : ∀ a ∈ p.args, a < p.nextVar
  defs : ∀ b < p.blocks.size, ∀ i ∈ (p.block b).insts, ∀ d ∈ i.defs, d < p.nextVar
  uses : ∀ b < p.blocks.size, ∀ i ∈ (p.block b).insts, ∀ u ∈ i.uses, u < p.nextVar
  phiArgs : ∀ b < p.blocks.size, ∀ phi, Inst.phi phi ∈ (p.block b).insts → ∀ a, some a ∈ phi.args →
    a < p.nextVar
  balanced : ∀ b < p.blocks.size, ∀ i ∈ (p.block b).insts, i.Balanced

/-- Edges stay inside, and predecessor lists name the sources of the edges; the entry may be one of
the targets. -/
structure Linked (p : Procedure) : Prop where
  nonempty : 0 < p.blocks.size
  inside : ∀ b s, s ∈ (p.block b).succs → s < p.blocks.size
  inverse : ∀ b s, b ∈ (p.block s).preds ↔ s ∈ (p.block b).succs

/-- The recorded orders are those of a depth-first walk that reaches every block. -/
structure Ordered (p : Procedure) : Prop where
  nodup : p.postorder.Nodup
  mem : ∀ b, b ∈ p.postorder ↔ b < p.blocks.size
  preorder : p.preorder.Perm p.postorder
  rpo : p.rpo = p.postorder.reverse
  index : ∀ (i : Nat) b, p.postorder[i]? = some b → (p.block b).postIndex = i
  first : ∃ rest, p.rpo = entry :: rest
  rooted : Walk.Rooted (fun b => (p.block b).succs) entry p.rpo

end Procedure

open Procedure

theorem leadingPhis_append {phis : List Phi} (none : leadingPhis rest = []) :
    leadingPhis (phis.map Inst.phi ++ rest) = phis := by
  induction phis with
  | nil => simpa using none
  | cons head tail ih => simp [leadingPhis, ih]

theorem leadingPhis_of_head {i : Inst} (other : i.isPhi = false) :
    leadingPhis (i :: rest) = [] := by
  cases i <;> simp_all [leadingPhis, Inst.isPhi, Inst.phi?]

theorem leadingPhis_eq_nil {insts : List Inst} (noPhi : ∀ i ∈ insts, i.isPhi = false) :
    leadingPhis insts = [] := by
  cases insts with
  | nil => rfl
  | cons i rest => exact leadingPhis_of_head (noPhi i mem_cons_self)

theorem Block.insts_eq (block : Block) : block.insts = block.phis.map Inst.phi ++ block.body := by
  rw [Block.body, Block.phis]
  induction block.insts with
  | nil => rfl
  | cons i rest ih =>
    cases i with
    | phi node => exact congrArg (Inst.phi node :: ·) ih
    | _ => rfl

/-- A list of phis in front of instructions that are none. -/
theorem Block.phis_body_of_insts {b : Block} {phis : List Phi}
    (insts : b.insts = phis.map Inst.phi ++ rest) (noPhi : ∀ i ∈ rest, i.isPhi = false) :
    b.phis = phis ∧ b.body = rest := by
  have isPhis : b.phis = phis := by
    rw [Block.phis, insts]
    exact leadingPhis_append (leadingPhis_eq_nil noPhi)
  refine ⟨isPhis, ?_⟩
  rw [Block.body, isPhis, insts]
  have same : phis.length = (phis.map Inst.phi).length := by simp
  rw [same, drop_left]

namespace Procedure.Shape

variable {p : Procedure} {b : Block}

variable {i : Inst}

section

variable (shape : p.Shape b)

include shape

private theorem leadingPhis_body : leadingPhis (shape.inner ++ [shape.last]) = [] := by
  cases inner : shape.inner with
  | nil => exact leadingPhis_of_head (Inst.isPhi_of_isTerminator shape.exits.isTerminator)
  | cons head tail =>
    exact leadingPhis_of_head (Inst.isPhi_of_isInner (shape.isInner head (by simp [inner])))

theorem phis_eq : b.phis = shape.phis := by
  rw [Block.phis, shape.insts]
  exact leadingPhis_append shape.leadingPhis_body

theorem body_eq : b.body = shape.inner ++ [shape.last] := by
  rw [Block.body, shape.phis_eq, shape.insts]
  have same : shape.phis.length = (shape.phis.map Inst.phi).length := by simp
  rw [same, drop_left]

theorem isPhi_body : ∀ i ∈ b.body, i.isPhi = false := by
  rw [shape.body_eq]
  intro i mem
  rcases mem_append.mp mem with inInner | isLast
  · exact Inst.isPhi_of_isInner (shape.isInner i inInner)
  · rw [mem_singleton.mp isLast]
    exact Inst.isPhi_of_isTerminator shape.exits.isTerminator

theorem mem_phis {phi : Phi} : Inst.phi phi ∈ b.insts ↔ phi ∈ b.phis := by
  rw [Block.insts_eq, mem_append]
  constructor
  · rintro (mem | inBody)
    · obtain ⟨node, inPhis, same⟩ := mem_map.mp mem
      exact Inst.phi.inj same ▸ inPhis
    · cases shape.isPhi_body _ inBody
  · exact fun inPhis => .inl (mem_map_of_mem inPhis)

theorem mem_cases (mem : i ∈ b.insts) :
    (∃ phi ∈ b.phis, i = .phi phi) ∨ i.isInner = true ∨ p.Exits b i := by
  rw [Block.insts_eq, shape.body_eq, mem_append, mem_append] at mem
  rcases mem with isPhi | inInner | isLast
  · obtain ⟨phi, inPhis, rfl⟩ := mem_map.mp isPhi
    exact .inl ⟨phi, inPhis, rfl⟩
  · exact .inr (.inl (shape.isInner i inInner))
  · rw [mem_singleton.mp isLast]
    exact .inr (.inr shape.exits)

theorem eq_nil_of_isTerminator {before after : List Inst} (split : b.insts = before ++ i :: after)
    (last : i.isTerminator = true) : after = [] := by
  rcases eq_nil_or_concat after with none | ⟨front, final, rfl⟩
  · exact none
  · -- Otherwise the terminator stands among the phis and the inner instructions.
    have dropped : before ++ i :: front = shape.phis.map Inst.phi ++ shape.inner := by
      have both := split.symm.trans shape.insts
      rw [← append_assoc, concat_eq_append, ← cons_append, ← append_assoc] at both
      exact append_inj_left' both rfl
    have mem : i ∈ shape.phis.map Inst.phi ++ shape.inner := dropped ▸ by simp
    rcases mem_append.mp mem with isPhi | isInner
    · obtain ⟨phi, -, rfl⟩ := mem_map.mp isPhi
      cases last
    · rw [Inst.isTerminator_of_isInner (shape.isInner i isInner)] at last
      cases last

theorem exists_phi_of_mem {front back : List Inst} {phi : Phi}
    (split : b.insts = front ++ .phi phi :: back)
    : ∀ i ∈ front, ∃ first ∈ b.phis, i = .phi first := by
  have inPhis : front.length < (b.phis.map Inst.phi).length := by
    apply Nat.lt_of_not_le
    intro behind
    have isAt : b.insts[front.length]? = some (.phi phi) := by simp [split]
    rw [Block.insts_eq, getElem?_append_right behind] at isAt
    cases shape.isPhi_body _ (mem_of_getElem? isAt)
  have isFront : front = (b.phis.map Inst.phi).take front.length := by
    have isTake := congrArg (List.take front.length) b.insts_eq
    rwa [take_append_of_le_length (Nat.le_of_lt inPhis), split, take_left] at isTake
  intro i mem
  rw [isFront] at mem
  obtain ⟨first, inPhis, same⟩ := mem_map.mp (mem_of_mem_take mem)
  exact ⟨first, inPhis, same.symm⟩

/-- The place behind an instruction that is neither phi nor terminator is behind the phis and in
front of the terminator. -/
theorem between {passed more : List Inst} (insts : b.insts = passed ++ i :: more)
    (other : i.isPhi = false) (inner : i.isTerminator = false) :
    b.phis.length ≤ passed.length + 1 ∧ passed.length + 1 < b.insts.length := by
  constructor
  · refine Nat.le_succ_of_le (Nat.le_of_not_lt fun inPhis => ?_)
    have isAt : b.insts[passed.length]? = some i := by simp [insts]
    rw [Block.insts_eq, getElem?_append_left (by simpa using inPhis), getElem?_map] at isAt
    obtain ⟨phi, -, rfl⟩ := Option.map_eq_some_iff.mp isAt
    cases other
  · have length := congrArg List.length insts
    rw [length_append, length_cons] at length
    cases more with
    | cons next more =>
      rw [length_cons] at length
      omega
    | nil =>
      have isLast : b.insts.getLast? = some i := by simp [insts]
      have isLast' : b.insts.getLast? = some shape.last := by simp [shape.insts]
      obtain rfl := Option.some.inj (isLast.symm.trans isLast')
      rw [shape.exits.isTerminator] at inner
      cases inner

end

end Procedure.Shape

/-! ## Edges -/

private theorem FlowGraph.mem_predsOf {blocks : Array Block} {source target : BlockId} :
    source ∈ FlowGraph.predsOf blocks target ↔ source < blocks.size ∧
      target ∈ (blocks.getD source default).succs := by
  simp only [FlowGraph.predsOf, mem_flatMap, mem_range, mem_map, mem_filter, beq_iff_eq]
  constructor
  · rintro ⟨b, lt, s, ⟨mem, rfl⟩, rfl⟩
    exact ⟨lt, mem⟩
  · rintro ⟨lt, mem⟩
    exact ⟨source, lt, target, ⟨mem, rfl⟩, rfl⟩

namespace Procedure.WellFormed

variable {p : Procedure}
variable {source target : BlockId}

theorem mem_preds (wf : p.WellFormed) (lt : target < p.blocks.size) :
    source ∈ (p.block target).preds ↔ target ∈ (p.block source).succs := by
  rw [(wf.preds target lt).mem_iff, FlowGraph.mem_predsOf]
  constructor
  · exact fun edge => edge.2
  · exact fun edge => ⟨lt_size_of_mem_succs edge, edge⟩

theorem lt_of_mem_preds (wf : p.WellFormed)
    (lt : target < p.blocks.size) (mem : source ∈ (p.block target).preds) :
    source < p.blocks.size :=
  lt_size_of_mem_succs ((wf.mem_preds lt).mp mem)

theorem linked (wf : p.WellFormed) : p.Linked where
  nonempty := wf.nonempty
  inside b s edge := (wf.inside b s edge).1
  inverse b s := by
    by_cases lt : s < p.blocks.size
    · exact wf.mem_preds lt
    · have noPreds : (p.block s).preds = [] := by
        rw [block, Tables.getD_of_size_le _ _ (Nat.le_of_not_lt lt)]
        rfl
      rw [noPreds]
      exact ⟨fun mem => absurd mem not_mem_nil, fun edge => absurd (wf.inside b s edge).1 lt⟩

theorem preds_entry (wf : p.WellFormed) : (p.block entry).preds = [] := by
  apply eq_nil_iff_forall_not_mem.mpr
  intro source mem
  have edge := (wf.mem_preds wf.nonempty).mp mem
  exact (wf.inside source entry edge).2 rfl

/-- Does the terminator fit the edges of the block? -/
def fitsEdges (p : Procedure) (b : Block) : Inst → Bool
  | .branch _ _ _ target => b.direct.isSome && b.cond.any fun c => target == (p.block c).label
  | .jump target => b.cond.isNone && b.direct.any fun d => target == (p.block d).label
  | .ret _ => b.direct.isNone && b.cond.isNone
  | _ => false

theorem exits_of_fitsEdges {p : Procedure} {b : Block} {i : Inst} (fits : fitsEdges p b i = true) :
    p.Exits b i := by
  cases i with
  | branch | jump | ret => simp_all [fitsEdges, Exits, Option.isSome_iff_exists, Option.any_eq_true]
  | _ => cases fits

/-- A procedure whose blocks can all be seen to be in form. -/
theorem of_check {p : Procedure} (nonempty : 0 < p.blocks.size)
    (inside : ∀ b < p.blocks.size, ∀ s ∈ (p.block b).succs, s < p.blocks.size ∧ s ≠ entry)
    (preds : ∀ s < p.blocks.size, (p.block s).preds.Perm (FlowGraph.predsOf p.blocks s))
    (shape : ∀ b < p.blocks.size, (∀ i ∈ (p.block b).body.dropLast, i.isInner = true) ∧
      (p.block b).body.getLast?.any (fitsEdges p (p.block b)) = true ∧
      ∀ phi ∈ (p.block b).phis, phi.args.length = (p.block b).preds.length) : p.WellFormed := by
  refine ⟨nonempty, fun b s edge => inside b (lt_size_of_mem_succs edge) s edge, preds,
    fun b lt => ?_⟩
  obtain ⟨isInner, exits, arity⟩ := shape b lt
  obtain ⟨last, isLast, fits⟩ := Option.any_eq_true _ _ |>.mp exits
  obtain ⟨inner, isBody⟩ := getLast?_eq_some_iff.mp isLast
  rw [isBody, dropLast_concat] at isInner
  exact ⟨_, inner, last, isBody ▸ Block.insts_eq _, isInner, exits_of_fitsEdges fits, arity⟩

theorem bounded {p : Procedure} (wf : p.WellFormed) (args : ∀ a ∈ p.args, a < p.nextVar)
    (each : ∀ b < p.blocks.size, ∀ i ∈ (p.block b).insts,
      (∀ d ∈ i.defs, d < p.nextVar) ∧ (∀ u ∈ i.uses, u < p.nextVar) ∧ i.Balanced)
    (phiArgs : ∀ b < p.blocks.size, ∀ phi ∈ (p.block b).phis, ∀ a ∈ phi.args.filterMap id, a <
      p.nextVar) :
    p.Bounded := by
  refine ⟨args, fun b lt i mem => (each b lt i mem).1,
    fun b lt i mem => (each b lt i mem).2.1, fun b lt phi mem a isArg => ?_,
    fun b lt i mem => (each b lt i mem).2.2⟩
  obtain ⟨shape⟩ := wf.shape b lt
  exact phiArgs b lt phi (shape.mem_phis.mp mem) a (mem_filterMap.mpr ⟨_, isArg, rfl⟩)

end Procedure.WellFormed

/-! ## Orders -/

namespace Procedure.Ordered

variable {p : Procedure}

variable {b : BlockId}

section

variable (ordered : p.Ordered)

include ordered

theorem mem_rpo : b ∈ p.rpo ↔ b < p.blocks.size := by
  rw [ordered.rpo, mem_reverse]
  exact ordered.mem b

theorem exists_index (lt : b < p.blocks.size) : p.postorder[(p.block b).postIndex]? = some b := by
  obtain ⟨i, inRange, isAt⟩ := mem_iff_getElem.mp ((ordered.mem b).mpr lt)
  have found : p.postorder[i]? = some b := by simp [inRange, isAt]
  rw [ordered.index i b found]
  exact found

theorem postIndex_injective {a : BlockId} (inA : a < p.blocks.size) (inB : b < p.blocks.size)
    (same : (p.block a).postIndex = (p.block b).postIndex) : a = b := by
  have atA := ordered.exists_index inA
  rw [same, ordered.exists_index inB] at atA
  exact (Option.some.inj atA).symm

private theorem postorder_perm : p.postorder.Perm (List.range p.blocks.size) := by
  apply (perm_ext_iff_of_nodup ordered.nodup nodup_range).mpr
  intro b
  rw [ordered.mem b, mem_range]

theorem postIndex_lt (lt : b < p.blocks.size) : (p.block b).postIndex < p.blocks.size := by
  have found := ordered.exists_index lt
  have inRange := (List.getElem?_eq_some_iff.mp found).1
  have size := ordered.postorder_perm.length_eq
  rw [length_range] at size
  omega

theorem postIndex_lt_of_before {before after : List BlockId} {d : BlockId}
    (split : p.rpo = before ++ b :: after) (mem : d ∈ before) :
    (p.block b).postIndex < (p.block d).postIndex := by
  have postorder : p.postorder = after.reverse ++ b :: before.reverse := by
    have reversed := congrArg List.reverse ordered.rpo
    rw [split] at reversed
    simpa using reversed.symm
  have atB : (p.block b).postIndex = after.reverse.length := by
    apply ordered.index
    rw [postorder]
    simp
  obtain ⟨i, inRange, isAt⟩ := mem_iff_getElem.mp (mem_reverse.mpr mem)
  have atD : (p.block d).postIndex = after.reverse.length + (i + 1) := by
    apply ordered.index
    have found : before.reverse[i]? = some d := List.getElem?_eq_some_iff.mpr ⟨inRange, isAt⟩
    rw [postorder, getElem?_append_right (by omega)]
    simpa using found
  omega

theorem exists_earlier (lt : b < p.blocks.size) (other : b ≠ entry) :
    ∃ d, d < p.blocks.size ∧ b ∈ (p.block d).succs ∧
      (p.block b).postIndex < (p.block d).postIndex := by
  obtain ⟨before, after, split⟩ := append_of_mem (ordered.mem_rpo.mpr lt)
  rcases ordered.rooted before b after split with isEntry | ⟨d, mem, edge⟩
  · exact absurd isEntry other
  · refine ⟨d, lt_size_of_mem_succs edge, edge, ?_⟩
    exact ordered.postIndex_lt_of_before split mem

end

end Procedure.Ordered

namespace Procedure

variable {b : BlockId} {p : Procedure} {walk : Walk}

/-- What recording orders does to the table of blocks. -/
def indexBlocks (order : List (BlockId × Nat)) (blocks : Array Block) : Array Block :=
  order.foldl (fun blocks entry => blocks.modify entry.1 ({ · with postIndex := entry.2 })) blocks

theorem size_indexBlocks (order : List (BlockId × Nat)) (blocks : Array Block) :
    (indexBlocks order blocks).size = blocks.size := by
  induction order generalizing blocks with
  | nil => rfl
  | cons head tail ih =>
    rw [indexBlocks, foldl_cons]
    exact (ih _).trans (by simp)

/-- Recording orders changes only positions. -/
theorem getD_indexBlocks (order : List (BlockId × Nat)) (blocks : Array Block) (b : BlockId) :
    ∃ n, (indexBlocks order blocks).getD b default =
      { blocks.getD b default with postIndex := n } := by
  induction order generalizing blocks with
  | nil => exact ⟨_, rfl⟩
  | cons head tail ih =>
    obtain ⟨n, same⟩ := ih (blocks.modify head.1 ({ · with postIndex := head.2 }))
    refine ⟨n, same.trans ?_⟩
    rw [Tables.getD_modify]
    split <;> rfl

theorem getD_indexBlocks_of_not_mem (order : List (BlockId × Nat)) (blocks : Array Block)
    (b : BlockId) (absent : b ∉ order.map Prod.fst) :
    (indexBlocks order blocks).getD b default = blocks.getD b default := by
  induction order generalizing blocks with
  | nil => rfl
  | cons head tail ih =>
    rw [map_cons, mem_cons, not_or] at absent
    refine (ih _ absent.2).trans ?_
    rw [Tables.getD_modify, if_neg fun same => absent.1 same.1.symm]

private theorem postIndex_indexBlocks {order : List (BlockId × Nat)} {blocks : Array Block}
    {n : Nat} (nodup : (order.map Prod.fst).Nodup) (mem : (b, n) ∈ order)
    (lt : b < blocks.size) : ((indexBlocks order blocks).getD b default).postIndex = n := by
  induction order generalizing blocks with
  | nil => cases mem
  | cons head tail ih =>
    rw [map_cons, nodup_cons] at nodup
    rcases mem_cons.mp mem with rfl | later
    · have kept := getD_indexBlocks_of_not_mem tail
        (blocks.modify b ({ · with postIndex := n })) b nodup.1
      rw [indexBlocks, foldl_cons]
      refine (congrArg Block.postIndex kept).trans ?_
      rw [Tables.getD_modify, if_pos ⟨rfl, lt⟩]
    · exact ih nodup.2 later (by simpa using lt)

theorem size_installOrders (p : Procedure) (walk : Walk) :
    (p.installOrders walk).blocks.size = p.blocks.size :=
  size_indexBlocks walk.postorder.zipIdx p.blocks

theorem block_installOrders (p : Procedure) (walk : Walk) (b : BlockId) :
    ∃ n, (p.installOrders walk).block b = { p.block b with postIndex := n } :=
  getD_indexBlocks walk.postorder.zipIdx p.blocks b

theorem succs_installOrders (p : Procedure) (walk : Walk) (b : BlockId) :
    ((p.installOrders walk).block b).succs = (p.block b).succs := by
  obtain ⟨n, same⟩ := p.block_installOrders walk b
  rw [same]
  rfl

/-- Orders are current after they were recorded from a complete walk that saw every block. -/
theorem ordered_installOrders (complete : Walk.Complete (fun b => (p.block b).succs) entry walk)
    (all : ∀ b, b ∈ walk.postorder ↔ b < p.blocks.size) : (p.installOrders walk).Ordered where
  nodup := complete.nodup
  mem b := by
    rw [size_installOrders]
    exact all b
  preorder := complete.perm
  rpo := rfl
  index i b found := by
    have lt := (all b).mp (mem_of_getElem? found)
    refine postIndex_indexBlocks ?_ (mem_zipIdx_iff_getElem?.mpr found) lt
    rw [zipIdx_map_fst]
    exact complete.nodup
  first := complete.first
  rooted := by
    have same : (fun b => ((p.installOrders walk).block b).succs) = fun b => (p.block b).succs :=
      funext (p.succs_installOrders walk)
    rw [same]
    exact complete.rooted

section

variable (nonempty : 0 < p.blocks.size) (inside : ∀ b s, s ∈ (p.block b).succs → s < p.blocks.size)

include nonempty inside

theorem complete_walk : Walk.Complete (fun b => (p.block b).succs) entry p.walk :=
  Walk.complete_ofGraph (fun b s => by simp [Walk.Edge, Block.succs, eq_comm])
    (fun b _ => inside b) nonempty

theorem lt_size_of_mem_walk (complete : Walk.Complete (fun b => (p.block b).succs) entry walk)
    (mem : b ∈ walk.postorder) : b < p.blocks.size := by
  obtain ⟨before, after, split⟩ := append_of_mem (mem_reverse.mpr mem)
  rcases complete.rooted before b after split with rfl | ⟨d, -, edge⟩
  · exact nonempty
  · exact inside d b edge

end

theorem ordered_recomputeOrders {q : Procedure} (done : p.recomputeOrders = .ok q)
    (nonempty : 0 < p.blocks.size) (inside : ∀ b s, s ∈ (p.block b).succs → s < p.blocks.size) :
    q = p.installOrders p.walk ∧ q.Ordered := by
  unfold recomputeOrders at done
  have complete := complete_walk nonempty inside
  cases unseen : p.blockIds.find? (!p.walk.preorder.contains ·) with
  | some b =>
    simp only [unseen] at done
    cases done
  | none =>
    simp only [unseen, Except.ok.injEq] at done
    refine ⟨done.symm, done ▸ ordered_installOrders complete fun b => ⟨?_, fun lt => ?_⟩⟩
    · exact lt_size_of_mem_walk nonempty inside complete
    · have seen := find?_eq_none.mp unseen b (mem_blockIds.mpr lt)
      exact complete.perm.mem_iff.mp (by simpa using seen)

end Procedure

end ArmBackend
