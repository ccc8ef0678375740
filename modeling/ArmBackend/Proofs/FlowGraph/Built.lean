import ArmBackend.Proofs.Fixpoint
import ArmBackend.Proofs.Source

/-!
Contract: flow graphs built from linear bodies are well formed.

Owns: what every segment of a body holds, the edges and the terminator of each wired block, the
result of keeping the reachable blocks, and the form of every flow graph that comes out of a body as
read.
-/

namespace ArmBackend

open List

namespace FlowGraph

variable {b : Block} {i vars : Nat} {known : Inst → Prop} {firstLabel l : LabelId} {p : Procedure}
  {s : Segment} {segs : List Segment}

/-- Instructions of a text, with no terminator before the last one. -/
structure Segment.Tidy (s : Segment) : Prop where
  source : ∀ i ∈ s.insts, i.isSource = true
  inner : ∀ i ∈ s.insts.dropLast, i.isTerminator = false

/-- Does control stay off the place behind these instructions? -/
def Leaves (insts : List Inst) : Prop :=
  (∃ value, insts.getLast? = some (.ret value)) ∨ ∃ target, insts.getLast? = some (.jump target)

private theorem tidy_cut (targeted : List LabelId) (insts : List Inst) (labels : List LabelId)
    (pending : List Inst) (source : ∀ i ∈ insts, i.isSource = true ∨ ∃ l, i = .label l)
    (pendingSource : ∀ i ∈ pending, i.isSource = true)
    (pendingInner : ∀ i ∈ pending, i.isTerminator = false) :
    ∀ s ∈ cut targeted labels pending insts, s.Tidy ∧ ∀ i ∈ s.insts, i ∈ pending ∨ i ∈ insts := by
  have open_ : (⟨labels, pending⟩ : Segment).Tidy :=
    ⟨pendingSource, fun i mem => pendingInner i ((dropLast_sublist _).subset mem)⟩
  induction insts generalizing labels pending with
  | nil =>
    intro s mem
    rw [cut] at mem
    split at mem
    · cases mem
    · obtain rfl := mem_singleton.mp mem
      exact ⟨open_, fun i lt => .inl lt⟩
  | cons i rest ih =>
    rw [forall_mem_cons] at source
    -- Whatever comes out of the rest of the body holds instructions of the rest.
    have later : ∀ labels' pending', (∀ j ∈ pending', j ∈ pending ∨ j = i) →
        (∀ j ∈ pending', j.isSource = true) → (∀ j ∈ pending', j.isTerminator = false) →
        ∀ s ∈ cut targeted labels' pending' rest, s.Tidy ∧ ∀ j ∈ s.insts, j ∈ pending ∨
        j ∈ i :: rest := by
      intro labels' pending' known isSource isInner s mem
      have result := ih labels' pending' source.2 isSource isInner
        ⟨isSource, fun j lt => isInner j ((dropLast_sublist _).subset lt)⟩ s mem
      refine ⟨result.1, fun j lt => ?_⟩
      rcases result.2 j lt with inPending | inRest
      · rcases known j inPending with old | rfl
        · exact .inl old
        · exact .inr mem_cons_self
      · exact .inr (mem_cons_of_mem _ inRest)
    intro s mem
    unfold cut at mem
    split at mem
    · rename_i l
      split at mem
      · exact later labels pending (fun j lt => .inl lt) pendingSource pendingInner s mem
      · split at mem
        · exact later _ [] (by simp) (by simp) (by simp) s mem
        · rcases mem_cons.mp mem with rfl | mem
          · exact ⟨open_, fun j lt => .inl lt⟩
          · exact later _ [] (by simp) (by simp) (by simp) s mem
    · rename_i notLabel
      have isSource : i.isSource = true := by
        rcases source.1 with isSource | ⟨l, isLabel⟩
        · exact isSource
        · exact absurd isLabel (notLabel l)
      split at mem
      · rcases mem_cons.mp mem with rfl | mem
        · refine ⟨⟨?_, ?_⟩, ?_⟩
          · intro j lt
            rcases mem_append.mp lt with old | new
            · exact pendingSource j old
            · exact mem_singleton.mp new ▸ isSource
          · simpa using pendingInner
          · intro j lt
            rcases mem_append.mp lt with old | new
            · exact .inl old
            · exact .inr (mem_singleton.mp new ▸ mem_cons_self)
        · exact later _ [] (by simp) (by simp) (by simp) s mem
      · rename_i inner
        have isInner : i.isTerminator = false := by simpa using inner
        refine later labels (pending ++ [i]) ?_ ?_ ?_ s mem
        · intro j lt
          simpa using lt
        · intro j lt
          rcases mem_append.mp lt with old | new
          · exact pendingSource j old
          · exact mem_singleton.mp new ▸ isSource
        · intro j lt
          rcases mem_append.mp lt with old | new
          · exact pendingInner j old
          · exact mem_singleton.mp new ▸ isInner

/-! ## The end of the body -/

private theorem Segment.Tidy.close (tidy : s.Tidy)
    (falls : ∀ i, s.insts.getLast? = some i → i.isTerminator = false) :
    (⟨s.labels, s.insts ++ [.ret none]⟩ : Segment).Tidy := by
  refine ⟨?_, ?_⟩
  · intro i mem
    rcases mem_append.mp mem with old | new
    · exact tidy.source i old
    · exact mem_singleton.mp new ▸ rfl
  · intro i mem
    simp only [dropLast_concat] at mem
    rcases eq_nil_or_concat s.insts with isNil | ⟨front, last, shape⟩
    · simp [isNil] at mem
    · rw [shape, concat_eq_append] at mem
      have inner := tidy.inner
      rw [shape, concat_eq_append, dropLast_concat] at inner
      rcases mem_append.mp mem with old | new
      · exact inner i old
      · exact mem_singleton.mp new ▸ falls last (by simp [shape])

/-- Closing a body keeps its segments tidy and adds no instruction but a return. -/
theorem tidy_closeTail (known : Inst → Prop) (returns : known (.ret none)) (segs : List Segment)
    (tidy : ∀ s ∈ segs, s.Tidy ∧ ∀ i ∈ s.insts, known i) :
    ∀ s ∈ closeTail segs, s.Tidy ∧ ∀ i ∈ s.insts, known i := by
  induction segs with
  | nil => exact tidy
  | cons first rest ih =>
    rw [forall_mem_cons] at tidy
    cases rest with
    | cons second rest =>
      rw [closeTail]
      · exact forall_mem_cons.mpr ⟨tidy.1, ih tidy.2⟩
      · simp
    | nil =>
      rw [closeTail]
      split
      · exact forall_mem_cons.mpr ⟨tidy.1, by simp⟩
      · exact forall_mem_cons.mpr ⟨tidy.1, by simp⟩
      · refine forall_mem_cons.mpr ⟨tidy.1, forall_mem_singleton.mpr ⟨⟨?_, ?_⟩, ?_⟩⟩
        · simp [Inst.isSource]
        · simp
        · simpa using returns
      · rename_i notRet notJump notBranch
        refine forall_mem_singleton.mpr ⟨tidy.1.1.close ?_, ?_⟩
        · intro i isLast
          cases i with
          | ret value => exact absurd isLast (notRet value)
          | jump target => exact absurd isLast (notJump target)
          | branch op left right target => exact absurd isLast (notBranch op left right target)
          | _ => rfl
        · intro i mem
          rcases mem_append.mp mem with old | new
          · exact tidy.1.2 i old
          · exact mem_singleton.mp new ▸ returns

private theorem leaves_closeTail (segs : List Segment) (nonempty : segs ≠ []) :
    ∃ front last, closeTail segs = front ++ [last] ∧ Leaves last.insts := by
  induction segs with
  | nil => exact absurd rfl nonempty
  | cons first rest ih =>
    cases rest with
    | cons second rest =>
      obtain ⟨front, last, shape, leaves⟩ := ih (by simp)
      refine ⟨first :: front, last, ?_, leaves⟩
      rw [closeTail, shape]
      · rfl
      · simp
    | nil =>
      rw [closeTail]
      split
      · rename_i value isLast
        exact ⟨[], first, rfl, .inl ⟨value, isLast⟩⟩
      · rename_i target isLast
        exact ⟨[], first, rfl, .inr ⟨target, isLast⟩⟩
      · exact ⟨[first], _, rfl, .inl ⟨none, rfl⟩⟩
      · exact ⟨[], _, rfl, .inl ⟨none, by simp⟩⟩

private theorem head_closeTail (first : Segment) (rest : List Segment) :
    ∃ insts rest', closeTail (first :: rest) = ⟨first.labels, insts⟩ :: rest' := by
  cases rest with
  | cons second rest =>
    refine ⟨first.insts, closeTail (second :: rest), ?_⟩
    rw [closeTail]
    simp
  | nil =>
    rw [closeTail]
    split <;> exact ⟨_, _, rfl⟩

/-- What the segments of a body are. -/
structure Laid (known : Inst → Prop) (segs : List Segment) : Prop where
  tidy : ∀ s ∈ segs, s.Tidy
  known : ∀ s ∈ segs, ∀ i ∈ s.insts, known i
  leaves : ∃ front last, segs = front ++ [last] ∧ Leaves last.insts
  unnamed : ∃ insts rest, segs = ⟨[], insts⟩ :: rest

private theorem laid_segments (known : Inst → Prop) (returns : known (.ret none))
    (linear : List Inst) (source : ∀ i ∈ linear, i.isSource = true ∨ ∃ l, i = .label l)
    (all : ∀ i ∈ linear, known i) : Laid known (segments linear) := by
  have cuts := tidy_cut (linear.filterMap Inst.target?) linear [] [] source (by simp) (by simp)
  have opened : ∀ s ∈ (⟨[], []⟩ : Segment) :: cut (linear.filterMap Inst.target?) [] [] linear,
      s.Tidy ∧ ∀ i ∈ s.insts, known i := by
    refine forall_mem_cons.mpr ⟨⟨⟨by simp, by simp⟩, by simp⟩, fun s mem => ?_⟩
    refine ⟨(cuts s mem).1, fun i lt => all i ?_⟩
    rcases (cuts s mem).2 i lt with impossible | known
    · cases impossible
    · exact known
  have closed := tidy_closeTail known returns _ opened
  exact {
    tidy := fun s mem => (closed s mem).1
    known := fun s mem => (closed s mem).2
    leaves := leaves_closeTail _ (by simp)
    unnamed := head_closeTail _ _ }

/-! ## Wiring -/

/-- A jump goes to a segment that its label names, so never to the first one. -/
theorem segmentOf?_inside (laid : Laid known segs)
    (found : segmentOf? segs l = some i) : i < segs.length ∧ i ≠ Procedure.entry := by
  unfold segmentOf? at found
  obtain ⟨s, isLast, rfl⟩ := Option.map_eq_some_iff.mp found
  obtain ⟨inSegs, named⟩ := mem_filter.mp (mem_of_getLast? isLast)
  have isAt := mem_zipIdx_iff_getElem?.mp inSegs
  refine ⟨(List.getElem?_eq_some_iff.mp isAt).1, fun isFirst => ?_⟩
  obtain ⟨insts, rest, shape⟩ := laid.unnamed
  rw [show s.2 = 0 from isFirst, shape, getElem?_cons_zero, Option.some.injEq] at isAt
  rw [← isAt] at named
  simp at named

private theorem resolve_inside (laid : Laid known segs) (found : resolve p segs l = .ok i) :
    i < segs.length ∧ i ≠ Procedure.entry := by
  unfold resolve at found
  cases named : segmentOf? segs l with
  | none => simp [named] at found
  | some j =>
    simp only [named, Except.ok.injEq] at found
    exact found ▸ segmentOf?_inside laid named

/-- The block of the segment at a position: a run of inner instructions and a terminator whose
target is the number, counted from `firstLabel`, of the block its edge leads to. -/
structure Wired (count : Nat) (vars : Nat) (firstLabel : LabelId) (i : Nat) (b : Block) : Prop where
  label : b.label = firstLabel + i
  inside : ∀ t ∈ b.succs, t < count ∧ t ≠ Procedure.entry
  inScope : ∀ j ∈ b.insts, j.isSource = true ∧ j.Scoped vars
  shape : ∃ inner last, b.insts = inner ++ [last] ∧ (∀ j ∈ inner, j.isInner = true) ∧
    ∀ q : Procedure, (∀ c < count, (q.block c).label = firstLabel + c) → q.Exits b last

private theorem retarget_insts (label : LabelId) (front : List Inst)
    (last : Inst) (target : LabelId) : ((Block.ofInsts label (front ++ [last])).retarget target) =
      Block.ofInsts label (front ++ [last.withTarget target]) := by
  simp [Block.retarget, Block.modifyInst, Block.ofInsts, modify_eq_take_drop]

theorem wired_of_last {count : Nat}
    (front : List Inst) (last : Inst) (label : b.label = firstLabel + i)
    (insts : b.insts = front ++ [last])
    (frontKnown : ∀ j ∈ front, j.isSource = true ∧ j.Scoped vars ∧ j.isTerminator = false)
    (lastKnown : last.isSource = true ∧ last.Scoped vars)
    (inside : ∀ t ∈ b.succs, t < count ∧ t ≠ Procedure.entry)
    (exits : ∀ q : Procedure, (∀ c < count, (q.block c).label = firstLabel + c) → q.Exits b last) :
    Wired count vars firstLabel i b := by
  refine ⟨label, inside, ?_, front, last, insts, ?_, exits⟩
  · intro j mem
    rw [insts] at mem
    rcases mem_append.mp mem with inFront | isLast
    · exact ⟨(frontKnown j inFront).1, (frontKnown j inFront).2.1⟩
    · exact mem_singleton.mp isLast ▸ lastKnown
  · intro j mem
    exact Inst.isInner_of_isSource (frontKnown j mem).1 (frontKnown j mem).2.2

/-- The ways in which a segment becomes a block. -/
inductive Wires (p : Procedure) (segs : List Segment) (firstLabel : LabelId) (s : Segment)
    (i : Nat) : Block → Prop
  | falls (onward : ∀ last ∈ s.insts.getLast?, last.isTerminator = false) :
    Wires p segs firstLabel s i
    { Block.ofInsts (firstLabel + i) (s.insts ++ [.jump (firstLabel + (i + 1))]) with
      direct := some (i + 1) }
  | branch {front : List Inst} {op : Comparison} {left right : Operand} {target : LabelId}
    {taken : Nat}
    (shape : s.insts = front ++ [.branch op left right target])
    (found : resolve p segs target = .ok taken) : Wires p segs firstLabel s i
      { Block.ofInsts (firstLabel + i) (front ++ [.branch op left right (firstLabel + taken)]) with
        direct := some (i + 1), cond := some taken }
  | jump {front : List Inst} {target : LabelId} {next : Nat}
    (shape : s.insts = front ++ [.jump target]) (found : resolve p segs target = .ok next) :
    Wires p segs firstLabel s i
      { Block.ofInsts (firstLabel + i) (front ++ [.jump (firstLabel + next)]) with
        direct := some next }
  | ret {front : List Inst} {value : Option Operand} (shape : s.insts = front ++ [.ret value]) :
    Wires p segs firstLabel s i (Block.ofInsts (firstLabel + i) (front ++ [.ret value]))

theorem wires_wire (ok : wire p segs firstLabel s i = .ok b) : Wires p segs firstLabel s i b := by
  unfold wire at ok
  rcases eq_nil_or_concat s.insts with isNil | ⟨front, last, shape⟩
  · have onward : ∀ last ∈ s.insts.getLast?, last.isTerminator = false := by simp [isNil]
    rw [show s.insts.getLast? = none by rw [isNil, getLast?_nil]] at ok
    exact Except.ok.inj ok ▸ .falls onward
  · rw [concat_eq_append] at shape
    have isLast : s.insts.getLast? = some last := by simp [shape]
    rw [isLast] at ok
    cases last with
    | branch op left right target =>
      obtain ⟨taken, found, same⟩ := bind_eq_ok ok
      rw [← Except.ok.inj same, shape, retarget_insts]
      exact .branch shape found
    | jump target =>
      obtain ⟨next, found, same⟩ := bind_eq_ok ok
      rw [← Except.ok.inj same, shape, retarget_insts]
      exact .jump shape found
    | ret value =>
      rw [← Except.ok.inj ok, shape]
      exact .ret shape
    | _ =>
      have onward : ∀ last ∈ s.insts.getLast?, last.isTerminator = false := by
        simp [isLast, Inst.isTerminator]
      exact Except.ok.inj ok ▸ .falls onward

private theorem wired_wire (laid : Laid (Inst.Scoped vars) segs)
    (isAt : segs[i]? = some s) (ok : wire p segs firstLabel s i = .ok b) :
    Wired segs.length vars firstLabel i b := by
  have mem := mem_of_getElem? isAt
  have lt := (List.getElem?_eq_some_iff.mp isAt).1
  have nextInside : ¬Leaves s.insts → i + 1 < segs.length ∧ i + 1 ≠ Procedure.entry := by
    intro falls
    refine ⟨?_, Nat.succ_ne_zero i⟩
    apply Nat.lt_of_le_of_ne lt
    intro isEnd
    obtain ⟨front, last, shape, leaves⟩ := laid.leaves
    have isLast : i = front.length := by
      rw [shape, length_append, length_singleton] at isEnd
      omega
    rw [shape, isLast, getElem?_concat_length, Option.some.injEq] at isAt
    exact falls (isAt ▸ leaves)
  have known : ∀ j ∈ s.insts, j.isSource = true ∧ j.Scoped vars :=
    fun j inside => ⟨(laid.tidy s mem).source j inside, laid.known s mem j inside⟩
  have split : ∀ front last, s.insts = front ++ [last] →
      (∀ j ∈ front, j.isSource = true ∧ j.Scoped vars ∧ j.isTerminator = false) ∧
        last.isSource = true ∧ last.Scoped vars := by
    intro front last shape
    have inner := (laid.tidy s mem).inner
    rw [shape] at inner known
    rw [dropLast_concat] at inner
    refine ⟨fun j inFront => ?_, known last (by simp)⟩
    obtain ⟨source, isScoped⟩ := known j (mem_append_left _ inFront)
    exact ⟨source, isScoped, inner j inFront⟩
  cases wires_wire ok with
  | falls onward =>
    have stays : ¬Leaves s.insts := by
      rintro (⟨value, isLast⟩ | ⟨target, isLast⟩)
      · cases onward _ isLast
      · cases onward _ isLast
    refine wired_of_last s.insts _ rfl rfl (fun j inside => ?_) ⟨rfl, .inl rfl, ?_, ?_⟩ ?_ ?_
    · refine ⟨(known j inside).1, (known j inside).2, ?_⟩
      obtain ⟨front, last, shape⟩ := eq_nil_or_concat s.insts |>.resolve_left (ne_nil_of_mem inside)
      rw [concat_eq_append] at shape
      rcases mem_append.mp (shape ▸ inside) with inFront | isLast
      · exact ((split front last shape).1 j inFront).2.2
      · exact onward j (by rw [mem_singleton.mp isLast, shape]; simp)
    · simp [Inst.defs]
    · simp [Inst.uses, Inst.operands]
    · simpa [Block.succs, Block.ofInsts] using nextInside stays
    · intro q labels
      exact ⟨i + 1, rfl, rfl, (labels _ (nextInside stays).1).symm⟩
  | branch shape found =>
    have falls : ¬Leaves s.insts := by simp [Leaves, shape]
    have takenInside := resolve_inside laid found
    obtain ⟨frontOk, lastOk⟩ := split _ _ shape
    refine wired_of_last _ _ rfl rfl frontOk ⟨rfl, lastOk.2.withTarget _⟩ ?_ ?_
    · simpa [Block.succs, Block.ofInsts] using ⟨nextInside falls, takenInside⟩
    · intro q labels
      exact ⟨i + 1, _, rfl, rfl, (labels _ takenInside.1).symm⟩
  | jump shape found =>
    have inside := resolve_inside laid found
    obtain ⟨frontOk, lastOk⟩ := split _ _ shape
    refine wired_of_last _ _ rfl rfl frontOk ⟨rfl, lastOk.2.withTarget _⟩ ?_ ?_
    · simpa [Block.succs, Block.ofInsts] using inside
    · intro q labels
      exact ⟨_, rfl, rfl, (labels _ inside.1).symm⟩
  | ret shape =>
    obtain ⟨frontOk, lastOk⟩ := split _ _ shape
    refine wired_of_last _ _ rfl rfl frontOk lastOk ?_ ?_
    · simp [Block.succs, Block.ofInsts]
    · intro q labels
      exact ⟨rfl, rfl⟩

theorem predsOf_congr {xs ys : Array Block} (size : xs.size = ys.size)
    (succs : ∀ b, (xs.getD b default).succs = (ys.getD b default).succs) (t : BlockId) :
    predsOf xs t = predsOf ys t := by
  unfold predsOf
  rw [size]
  congr 1
  funext source
  rw [succs]

theorem getD_linkPreds (blocks : Array Block) (b : BlockId) : (linkPreds blocks).getD b default =
      if b < blocks.size then { blocks.getD b default with preds := predsOf blocks b }
      else default := by
  by_cases lt : b < blocks.size <;> simp [linkPreds, lt]

theorem succs_linkPreds (blocks : Array Block) (b : BlockId) :
    ((linkPreds blocks).getD b default).succs = (blocks.getD b default).succs := by
  rw [getD_linkPreds]
  by_cases lt : b < blocks.size
  · rw [if_pos lt]
    rfl
  · rw [if_neg lt, Tables.getD_of_size_le blocks default (Nat.le_of_not_lt lt)]

end FlowGraph

open FlowGraph

namespace Procedure

variable {b : BlockId} {i : Nat}

/-- Naming blocks changes the labels only. -/
private theorem foldl_renameLabel (named : List (Block × Nat)) (p : Procedure) :
    ∃ labels, named.foldl (fun p b => p.renameLabel b.1.label (blockLabel b.2)) p =
      { p with labels := labels } := by
  induction named generalizing p with
  | nil => exact ⟨p.labels, rfl⟩
  | cons head tail ih =>
    obtain ⟨labels, same⟩ := ih (p.renameLabel head.1.label (blockLabel head.2))
    exact ⟨labels, same⟩

theorem restrictBlocks_eq (p : Procedure) (kept : List BlockId) (walk : Walk) :
    ∃ labels, p.restrictBlocks kept walk =
      ({ p with blocks := linkPreds (p.keptBlocks kept), labels := labels } :
        Procedure).installOrders ⟨walk.preorder.filterMap (renumber? kept),
          walk.postorder.filterMap (renumber? kept)⟩ := by
  obtain ⟨labels, same⟩ := foldl_renameLabel _ { p with blocks := linkPreds (p.keptBlocks kept) }
  exact ⟨labels, congrArg (installOrders · _) same⟩

/-- The number that a kept block gets. -/
def newNumber (kept : List BlockId) (b : BlockId) : BlockId := (renumber? kept b).getD entry

theorem renumber?_of_mem {kept : List BlockId} (mem : b ∈ kept) :
    renumber? kept b = some (newNumber kept b) := by
  have found : (renumber? kept b).isSome = true := by
    rw [renumber?, findIdx?_isSome]
    simpa using mem
  obtain ⟨i, isSome⟩ := Option.isSome_iff_exists.mp found
  rw [newNumber, isSome]
  rfl

theorem getElem?_newNumber {kept : List BlockId} (mem : b ∈ kept) :
    kept[newNumber kept b]? = some b := by
  obtain ⟨inRange, isAt, -⟩ := findIdx?_eq_some_iff_getElem.mp (renumber?_of_mem mem)
  exact List.getElem?_eq_some_iff.mpr ⟨inRange, by simpa using isAt⟩

theorem newNumber_of_getElem? {kept : List BlockId} (nodup : kept.Nodup)
    (isAt : kept[i]? = some b) : newNumber kept b = i := by
  have same := (getElem?_newNumber (mem_of_getElem? isAt)).trans isAt.symm
  obtain ⟨inRange, -⟩ := List.getElem?_eq_some_iff.mp (getElem?_newNumber (mem_of_getElem? isAt))
  exact (getElem?_inj inRange nodup).mp same

private theorem newNumber_injective {kept : List BlockId} {a : BlockId} (inA : a ∈ kept)
    (inB : b ∈ kept) (same : newNumber kept a = newNumber kept b) : a = b := by
  have atA := getElem?_newNumber inA
  rw [same, getElem?_newNumber inB] at atA
  exact (Option.some.inj atA).symm

theorem size_keptBlocks (p : Procedure) (kept : List BlockId) :
    (p.keptBlocks kept).size = kept.length := by
  simp [keptBlocks]

/-- A kept block has its old edges, under their new numbers, if their targets are kept. -/
theorem getD_keptBlocks {p : Procedure} {kept : List BlockId}
    (isAt : kept[i]? = some b) (closed : ∀ s ∈ (p.block b).succs, s ∈ kept) :
    (p.keptBlocks kept).getD i default = { p.block b with
        direct := (p.block b).direct.map (newNumber kept)
        cond := (p.block b).cond.map (newNumber kept) } := by
  obtain ⟨inRange, isElement⟩ := List.getElem?_eq_some_iff.mp isAt
  have direct : (p.block b).direct.bind (renumber? kept) =
      (p.block b).direct.map (newNumber kept) := by
    cases isDirect : (p.block b).direct with
    | none => rfl
    | some s => exact renumber?_of_mem (closed s (by simp [Block.succs, isDirect]))
  have cond : (p.block b).cond.bind (renumber? kept) =
      (p.block b).cond.map (newNumber kept) := by
    cases isCond : (p.block b).cond with
    | none => rfl
    | some s => exact renumber?_of_mem (closed s (by simp [Block.succs, isCond]))
  rw [← direct, ← cond]
  simp [keptBlocks, inRange, isElement]

/-- What is kept of a procedure: the blocks that a complete walk saw, the entry first. -/
structure Kept (p : Procedure) (kept : List BlockId) (walk : Walk) : Prop where
  complete : Walk.Complete (fun b => (p.block b).succs) entry walk
  mem : ∀ b, b ∈ kept ↔ b ∈ walk.postorder
  nodup : kept.Nodup
  first : kept[0]? = some entry
  offEntry : ∀ b s, s ∈ (p.block b).succs → s ≠ entry

namespace Kept

variable {p : Procedure} {kept : List BlockId} {walk : Walk}
variable {b : BlockId} {i : Nat}

section

variable (is : p.Kept kept walk)

include is

theorem closed (mem : b ∈ kept) : ∀ s ∈ (p.block b).succs, s ∈ kept := by
  intro s edge
  exact (is.mem s).mpr (is.complete.closed b ((is.mem b).mp mem) s edge)

private theorem number_entry : newNumber kept entry = entry :=
  newNumber_of_getElem? is.nodup is.first

private theorem succs_kept (isAt : kept[i]? = some b) :
    ((p.keptBlocks kept).getD i default).succs = (p.block b).succs.map (newNumber kept) := by
  rw [getD_keptBlocks isAt (is.closed (mem_of_getElem? isAt))]
  cases direct : (p.block b).direct <;> cases cond : (p.block b).cond <;>
    simp [Block.succs, direct, cond]

theorem filterMap_eq_map {order : List BlockId} (inside : ∀ b ∈ order, b ∈ walk.postorder) :
    order.filterMap (renumber? kept) = order.map (newNumber kept) := by
  induction order with
  | nil => rfl
  | cons head tail ih =>
    rw [forall_mem_cons] at inside
    have found := renumber?_of_mem ((is.mem head).mpr inside.1)
    simp only [filterMap_cons, found, ih inside.2, map_cons]

private theorem complete_number :
    Walk.Complete (fun b => ((p.keptBlocks kept).getD b default).succs) entry
      ⟨walk.preorder.map (newNumber kept), walk.postorder.map (newNumber kept)⟩ := by
  have moved : Walk.Complete (fun b => ((p.keptBlocks kept).getD b default).succs)
      (newNumber kept entry)
      ⟨walk.preorder.map (newNumber kept), walk.postorder.map (newNumber kept)⟩ := by
    refine is.complete.map (newNumber kept) ?_ ?_
    · intro a inA b inB
      exact newNumber_injective ((is.mem a).mpr inA) ((is.mem b).mpr inB)
    · intro b mem
      exact is.succs_kept (getElem?_newNumber ((is.mem b).mpr mem))
  rw [is.number_entry] at moved
  exact moved

theorem mem_number (i : BlockId) : i ∈ walk.postorder.map (newNumber kept) ↔ i < kept.length := by
  constructor
  · intro mem
    obtain ⟨b, inOrder, rfl⟩ := mem_map.mp mem
    exact (List.getElem?_eq_some_iff.mp (getElem?_newNumber ((is.mem b).mpr inOrder))).1
  · intro lt
    have isAt : kept[i]? = some kept[i] := List.getElem?_eq_some_iff.mpr ⟨lt, rfl⟩
    refine mem_map.mpr ⟨kept[i], (is.mem _).mp (mem_of_getElem? isAt), ?_⟩
    exact newNumber_of_getElem? is.nodup isAt

/-- The blocks of the restricted procedure: kept ones with their predecessors and positions. -/
theorem block_restrict (isAt : kept[i]? = some b) :
    ∃ n, (p.restrictBlocks kept walk).block i = { p.block b with
        preds := predsOf (p.keptBlocks kept) i
        direct := (p.block b).direct.map (newNumber kept)
        cond := (p.block b).cond.map (newNumber kept)
        postIndex := n } := by
  obtain ⟨labels, same⟩ := p.restrictBlocks_eq kept walk
  rw [same]
  obtain ⟨n, isBlock⟩ := block_installOrders
    { p with blocks := linkPreds (p.keptBlocks kept), labels := labels } _ i
  refine ⟨n, isBlock.trans ?_⟩
  have lt : i < (p.keptBlocks kept).size := by
    rw [size_keptBlocks]
    exact (List.getElem?_eq_some_iff.mp isAt).1
  have linked : Procedure.block { p with blocks := linkPreds (p.keptBlocks kept), labels := labels }
      i = (linkPreds (p.keptBlocks kept)).getD i default := rfl
  rw [linked, getD_linkPreds, if_pos lt, getD_keptBlocks isAt (is.closed (mem_of_getElem? isAt))]

end

theorem size_restrict (kept : List BlockId) (walk : Walk) :
    (p.restrictBlocks kept walk).blocks.size = kept.length := by
  obtain ⟨labels, same⟩ := p.restrictBlocks_eq kept walk
  rw [same, size_installOrders]
  simp [linkPreds, size_keptBlocks]

private theorem ordered_restrict (is : p.Kept kept walk) :
    (p.restrictBlocks kept walk).Ordered := by
  obtain ⟨labels, same⟩ := p.restrictBlocks_eq kept walk
  rw [same, is.filterMap_eq_map fun b => is.complete.perm.mem_iff.mp,
    is.filterMap_eq_map fun b => id]
  apply ordered_installOrders
  · have succs : (fun b => ((({ p with blocks := linkPreds (p.keptBlocks kept), labels := labels } :
        Procedure)).block b).succs) = fun b => ((p.keptBlocks kept).getD b default).succs :=
      funext fun b => succs_linkPreds _ b
    rw [succs]
    exact is.complete_number
  · intro b
    rw [is.mem_number]
    simp [linkPreds, size_keptBlocks]

private theorem succs_restrict (is : p.Kept kept walk) (isAt : kept[i]? = some b) :
    ((p.restrictBlocks kept walk).block i).succs = (p.block b).succs.map (newNumber kept) := by
  obtain ⟨n, isBlock⟩ := is.block_restrict isAt
  rw [isBlock]
  cases direct : (p.block b).direct <;> cases cond : (p.block b).cond <;>
    simp [Block.succs, direct, cond]

private theorem exits_restrict (is : p.Kept kept walk) (isAt : kept[i]? = some b)
    {last : Inst} (exits : p.Exits (p.block b) last) :
    (p.restrictBlocks kept walk).Exits ((p.restrictBlocks kept walk).block i) last := by
  have label : ∀ c ∈ (p.block b).succs,
      ((p.restrictBlocks kept walk).block (newNumber kept c)).label = (p.block c).label := by
    intro c edge
    obtain ⟨n, isBlock⟩ :=
      is.block_restrict (getElem?_newNumber (is.closed (mem_of_getElem? isAt) c edge))
    rw [isBlock]
  obtain ⟨n, isBlock⟩ := is.block_restrict isAt
  rw [isBlock]
  cases last with
  | branch op left right target =>
    obtain ⟨d, c, direct, cond, rfl⟩ := exits
    refine ⟨newNumber kept d, newNumber kept c, by simp [direct], by simp [cond], ?_⟩
    exact (label c (by simp [Block.succs, cond])).symm
  | jump target =>
    obtain ⟨d, direct, cond, rfl⟩ := exits
    refine ⟨newNumber kept d, by simp [direct], by simp [cond], ?_⟩
    exact (label d (by simp [Block.succs, direct])).symm
  | ret value => exact ⟨by simp [exits.1], by simp [exits.2]⟩
  | _ => exact exits

private theorem wellFormed_restrict (is : p.Kept kept walk)
    (shape : ∀ b ∈ kept, ∃ inner last, (p.block b).insts = inner ++ [last] ∧
      (∀ j ∈ inner, j.isInner = true) ∧ p.Exits (p.block b) last) :
    (p.restrictBlocks kept walk).WellFormed where
  nonempty := by
    rw [size_restrict]
    exact (List.getElem?_eq_some_iff.mp is.first).1
  inside i s edge := by
    have lt := lt_size_of_mem_succs edge
    rw [size_restrict] at lt ⊢
    have isAt : kept[i]? = some kept[i] := List.getElem?_eq_some_iff.mpr ⟨lt, rfl⟩
    rw [is.succs_restrict isAt] at edge
    obtain ⟨t, isEdge, rfl⟩ := mem_map.mp edge
    have mem := is.closed (mem_of_getElem? isAt) t isEdge
    refine ⟨(List.getElem?_eq_some_iff.mp (getElem?_newNumber mem)).1, fun isEntry => ?_⟩
    have atEntry := getElem?_newNumber mem
    rw [isEntry] at atEntry
    exact is.offEntry _ t isEdge (Option.some.inj (atEntry.symm.trans is.first))
  preds i lt := by
    rw [size_restrict] at lt
    have isAt : kept[i]? = some kept[i] := List.getElem?_eq_some_iff.mpr ⟨lt, rfl⟩
    obtain ⟨n, isBlock⟩ := is.block_restrict isAt
    rw [isBlock]
    apply List.Perm.of_eq
    apply predsOf_congr
    · rw [size_keptBlocks, size_restrict]
    · intro b
      change _ = ((p.restrictBlocks kept walk).block b).succs
      obtain ⟨labels, same⟩ := p.restrictBlocks_eq kept walk
      rw [same, succs_installOrders]
      exact (succs_linkPreds _ b).symm
  shape i lt := by
    rw [size_restrict] at lt
    have isAt : kept[i]? = some kept[i] := List.getElem?_eq_some_iff.mpr ⟨lt, rfl⟩
    obtain ⟨inner, last, insts, isInner, exits⟩ := shape _ (mem_of_getElem? isAt)
    obtain ⟨n, isBlock⟩ := is.block_restrict isAt
    exact ⟨[], inner, last, by rw [isBlock]; exact insts, isInner,
      is.exits_restrict isAt exits, by simp⟩

end Kept

variable {p : Procedure}

/-- A flow graph of a linear body: its variables are those of the body, and its blocks hold
instructions of a text. -/
structure Built (p q : Procedure) : Prop where
  wf : q.WellFormed
  ordered : q.Ordered
  args : q.args = p.args
  locals : q.locals = p.locals
  vars : q.vars = p.vars
  inScope : ∀ b, ∀ i ∈ (q.block b).insts, i.isSource = true ∧ i.Scoped p.nextVar

/-- The blocks that the walk of a graph reaches, in ascending order. -/
theorem kept_reachable (nonempty : 0 < p.blocks.size)
    (inside : ∀ b s, s ∈ (p.block b).succs → s < p.blocks.size ∧ s ≠ entry) :
    p.Kept (p.blockIds.filter p.walk.preorder.contains) p.walk := by
  have complete := complete_walk nonempty fun b s edge => (inside b s edge).1
  have seen : ∀ b, p.walk.preorder.contains b = true ↔ b ∈ p.walk.postorder := by
    intro b
    rw [List.contains_iff_mem]
    exact complete.perm.mem_iff
  refine ⟨complete, fun b => ?_, ?_, ?_, fun b s edge => (inside b s edge).2⟩
  · rw [mem_filter, seen, mem_blockIds]
    refine ⟨fun both => both.2, fun mem => ⟨?_, mem⟩⟩
    exact lt_size_of_mem_walk nonempty (fun b s edge => (inside b s edge).1) complete mem
  · exact nodup_range.filter _
  · obtain ⟨n, size⟩ : ∃ n, p.blocks.size = n + 1 := ⟨p.blocks.size - 1, by omega⟩
    have isSeen : p.walk.preorder.contains entry = true := by
      rw [seen]
      obtain ⟨rest, first⟩ := complete.first
      rw [← mem_reverse, first]
      exact mem_cons_self
    rw [blockIds, size, range_succ_eq_map]
    change (List.filter _ (entry :: _))[0]? = _
    rw [filter_cons_of_pos isSeen]
    rfl

/-- The blocks of all segments of a body, before those out of reach are dropped. -/
structure Raw (p raw : Procedure) : Prop where
  same : ∃ blocks labels, raw = { p with blocks := blocks, labels := labels }
  size : raw.blocks.size = (segments p.insts).length
  wired : ∀ (i : Nat) s, (segments p.insts)[i]? = some s →
    wire p (segments p.insts) p.nextLabel s i = .ok (raw.block i)

/-- The blocks that are kept of all segments' blocks. -/
def reached (raw : Procedure) : List BlockId := raw.blockIds.filter raw.walk.preorder.contains

theorem raw_of_buildFlowGraph {q : Procedure} (ok : p.buildFlowGraph = .ok q) :
    ∃ raw, p.Raw raw ∧ q = raw.restrictBlocks raw.reached raw.walk := by
  unfold buildFlowGraph at ok
  cases wired : (segments p.insts).zipIdx.mapM fun s =>
      wire p (segments p.insts) p.nextLabel s.1 s.2 with
  | error e => simp [wired, Bind.bind, Except.bind] at ok
  | ok blocks =>
    simp only [wired, Bind.bind, Except.bind, Pure.pure, Except.pure, Except.ok.injEq] at ok
    obtain ⟨length, results⟩ := getElem?_of_mapM_ok wired
    rw [length_zipIdx] at length
    refine ⟨_, ⟨⟨_, _, rfl⟩, ?_, fun i s isAt => ?_⟩, ok.symm⟩
    · simp [length]
    · obtain ⟨block, isBlock, fromWire⟩ := results i (s, i) (by simp [isAt])
      rw [fromWire]
      simp [Procedure.block, Array.getD_eq_getD_getElem?, isBlock]

theorem laid_of_linear (linear : p.Linear) : Laid (Inst.Scoped p.nextVar) (segments p.insts) := by
  refine laid_segments _ ⟨.inl rfl, ?_, ?_⟩ _ (fun i mem => (linear.inScope i mem).source)
    linear.inScope
  · simp [Inst.defs]
  · simp [Inst.uses, Inst.operands]

namespace Raw

variable {p raw : Procedure}

theorem isWired (is : p.Raw raw) (linear : p.Linear) {b : BlockId} (lt : b < raw.blocks.size) :
    Wired (segments p.insts).length p.nextVar p.nextLabel b (raw.block b) := by
  obtain ⟨s, isAt⟩ : ∃ s, (segments p.insts)[b]? = some s := ⟨_, getElem?_eq_getElem (is.size ▸ lt)⟩
  exact wired_wire (laid_of_linear linear) isAt (is.wired b s isAt)

theorem kept (is : p.Raw raw) (linear : p.Linear) : raw.Kept raw.reached raw.walk := by
  refine kept_reachable ?_ fun b s edge => ?_
  · obtain ⟨insts, rest, shape⟩ := (laid_of_linear linear).unnamed
    rw [is.size, shape]
    exact Nat.zero_lt_succ _
  · rw [is.size]
    exact (is.isWired linear (lt_size_of_mem_succs edge)).inside s edge

theorem lt_of_reached {raw : Procedure} {b : BlockId} (mem : b ∈ raw.reached) :
    b < raw.blocks.size :=
  mem_blockIds.mp (mem_filter.mp mem).1

end Raw

theorem built_buildFlowGraph {p q : Procedure} (linear : p.Linear) (ok : p.buildFlowGraph = .ok q) :
    p.Built q := by
  obtain ⟨raw, is, rfl⟩ := raw_of_buildFlowGraph ok
  have kept := is.kept linear
  have labels : ∀ c < (segments p.insts).length, (raw.block c).label = p.nextLabel + c :=
    fun c inRange => (is.isWired linear (is.size ▸ inRange)).label
  obtain ⟨names, same⟩ := raw.restrictBlocks_eq raw.reached raw.walk
  obtain ⟨blocks, others, isRaw⟩ := is.same
  refine ⟨kept.wellFormed_restrict ?_, kept.ordered_restrict, ?_, ?_, ?_, ?_⟩
  · intro b mem
    obtain ⟨inner, last, insts, isInner, exits⟩ := (is.isWired linear (Raw.lt_of_reached mem)).shape
    exact ⟨inner, last, insts, isInner, exits raw labels⟩
  · rw [same, isRaw]
    rfl
  · rw [same, isRaw]
    rfl
  · rw [same, isRaw]
    rfl
  · intro b i mem
    by_cases inRange : b < (raw.restrictBlocks raw.reached raw.walk).blocks.size
    · rw [Kept.size_restrict] at inRange
      have isAt : raw.reached[b]? = some raw.reached[b] :=
        List.getElem?_eq_some_iff.mpr ⟨inRange, rfl⟩
      obtain ⟨n, isBlock⟩ := kept.block_restrict isAt
      rw [isBlock] at mem
      exact (is.isWired linear (Raw.lt_of_reached (mem_of_getElem? isAt))).inScope i mem
    · rw [block_of_size_le _ (Nat.le_of_not_lt inRange)] at mem
      cases mem

end Procedure

end ArmBackend
