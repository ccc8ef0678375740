import ArmBackend.Error
import ArmBackend.Program.Procedure
import ArmBackend.Walk

/-!
Contract: the flow graph of a linear body.

The body is cut before every label that some jump targets and after every terminator. An empty block
is put in front, so the entry has no predecessors even when the body starts with a loop. A block
without a terminator jumps to the next one, and falling off the end of the body returns. Blocks that
cannot be reached are dropped and the rest keep their order. The orders
of a depth-first walk are recorded in the procedure.
-/

namespace ArmBackend

namespace Procedure

/-- The depth-first walk from the entry that follows direct edges first. -/
def walk (p : Procedure) : Walk :=
  Walk.ofGraph p.blocks.size entry fun b => [(p.block b).direct, (p.block b).cond]

def installOrders (p : Procedure) (walk : Walk) : Procedure :=
  let index (blocks : Array Block) (entry : BlockId × Nat) : Array Block :=
    blocks.modify entry.1 ({ · with postIndex := entry.2 })
  { p with
    blocks := walk.postorder.zipIdx.foldl index p.blocks
    preorder := walk.preorder
    postorder := walk.postorder
    rpo := walk.postorder.reverse }

/-- Record the current orders. Every block has to be reachable from the entry. -/
def recomputeOrders (p : Procedure) : Except Error Procedure :=
  let walk := p.walk
  match p.blockIds.find? (!walk.preorder.contains ·) with
  | some b => .error (.disconnectedBlock p.name (p.blockName b))
  | none => .ok (p.installOrders walk)

end Procedure

namespace FlowGraph

/-- A piece of a linear body with the labels that name its start. -/
structure Segment where
  labels : List LabelId
  insts : List Inst
deriving DecidableEq, Repr

/-- Cut a linear body. `labels` and `pending` are the labels and instructions of the segment that is
still open. -/
def cut (targeted : List LabelId) (labels : List LabelId) (pending : List Inst) :
    List Inst → List Segment
  | [] => if pending.isEmpty && labels.isEmpty then [] else [⟨labels, pending⟩]
  | i :: rest =>
    match i with
    | .label l =>
      if !targeted.contains l then cut targeted labels pending rest
      else if pending.isEmpty then cut targeted (labels ++ [l]) [] rest
      else ⟨labels, pending⟩ :: cut targeted [l] [] rest
    | i =>
      if i.isTerminator then ⟨labels, pending ++ [i]⟩ :: cut targeted [] [] rest
      else cut targeted labels (pending ++ [i]) rest

def closeTail : List Segment → List Segment
  | [] => []
  | [last] =>
    match last.insts.getLast? with
    | some (.ret _) | some (.jump _) => [last]
    | some (.branch ..) => [last, ⟨[], [.ret none]⟩]
    | _ => [{ last with insts := last.insts ++ [.ret none] }]
  | first :: rest => first :: closeTail rest

/-- All segments of a linear body, the empty start in front. -/
def segments (linear : List Inst) : List Segment :=
  closeTail (⟨[], []⟩ :: cut (linear.filterMap Inst.target?) [] [] linear)

def segmentOf? (segments : List Segment) (l : LabelId) : Option Nat :=
  (segments.zipIdx.filter fun s => s.1.labels.contains l).getLast?.map (·.2)

def resolve (p : Procedure) (segments : List Segment) (l : LabelId) : Except Error Nat :=
  match segmentOf? segments l with
  | some i => .ok i
  | none => .error (.unknownLabel p.name (p.labelName l))

def blockLabel (i : Nat) : String := "B" ++ toString i

/-- The block of the `i`-th segment, with its outgoing edges. Block labels are numbered from
`firstLabel`; from here on jumps name them. -/
def wire (p : Procedure) (segments : List Segment) (firstLabel : LabelId) (s : Segment) (i : Nat) :
    Except Error Block := do
  let block := Block.ofInsts (firstLabel + i) s.insts
  match s.insts.getLast? with
  | some (.branch _ _ _ target) =>
    let taken ← resolve p segments target
    return { block.retarget (firstLabel + taken) with direct := some (i + 1), cond := some taken }
  | some (.jump target) =>
    let next ← resolve p segments target
    return { block.retarget (firstLabel + next) with direct := some next }
  | some (.ret _) => return block
  | _ =>
    return { block with
      insts := s.insts ++ [.jump (firstLabel + (i + 1))]
      direct := some (i + 1) }

/-- Predecessors of a block: sources of the edges into it, a source with two edges twice. -/
def predsOf (blocks : Array Block) (b : BlockId) : List BlockId :=
  (List.range blocks.size).flatMap fun source =>
    ((blocks.getD source default).succs.filter (· == b)).map fun _ => source

def linkPreds (blocks : Array Block) : Array Block :=
  blocks.mapIdx fun i b => { b with preds := predsOf blocks i }

end FlowGraph

open FlowGraph

namespace Procedure

/-- The number of a block among the kept ones. -/
def renumber? (kept : List BlockId) (b : BlockId) : Option BlockId := kept.findIdx? (· == b)

/-- The kept blocks with new numbers, before their predecessors are recorded. -/
def keptBlocks (p : Procedure) (kept : List BlockId) : Array Block :=
  (kept.map fun b =>
    { p.block b with
      direct := (p.block b).direct.bind (renumber? kept)
      cond := (p.block b).cond.bind (renumber? kept) }).toArray

def nameBlocks (p : Procedure) : Procedure :=
  p.blocks.toList.zipIdx.foldl (fun p b => p.renameLabel b.1.label (blockLabel b.2)) p

/-- Keep the given blocks, in the given order, and number them anew. -/
def restrictBlocks (p : Procedure) (kept : List BlockId) (walk : Walk) : Procedure :=
  let linked := { p with blocks := linkPreds (p.keptBlocks kept) }
  linked.nameBlocks.installOrders
    ⟨walk.preorder.filterMap (renumber? kept), walk.postorder.filterMap (renumber? kept)⟩

end Procedure

def Procedure.buildFlowGraph (p : Procedure) : Except Error Procedure := do
  let segments := segments p.insts
  let firstLabel := p.nextLabel
  let blocks ← segments.zipIdx.mapM fun s => wire p segments firstLabel s.1 s.2
  let labels := p.labels ++ (List.range segments.length).map blockLabel
  let p := { p with blocks := blocks.toArray, labels := labels }
  let walk := p.walk
  return p.restrictBlocks (p.blockIds.filter walk.preorder.contains) walk

end ArmBackend
