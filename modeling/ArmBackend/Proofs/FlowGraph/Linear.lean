import ArmBackend.Proofs.Control
import ArmBackend.Proofs.FlowGraph.Built

/-!
Contract: the flow graph of a body does what the body does.

Written one after the other, the segments of a body are the body itself, without the markers that no
jump names and with a return at its end. So what is left of the body at any point is what is left of
one segment and all segments behind it, and both forms move on together.

Owns: that comparison, the condition under which a body has a flow graph, and the equality of
traces. Does not own: what the flow graph looks like otherwise.
-/

namespace ArmBackend

open List

variable {t : Nat} {e : Error}

namespace FlowGraph

variable {segs : List Segment} {s : Segment} {i : Inst} {p : Procedure} {l : LabelId}

/-! ## Segments as code -/

/-- The instructions of a segment, after markers of its labels. -/
def Segment.code (s : Segment) : List Inst := s.labels.map Inst.label ++ s.insts

/-- The instructions of segments one after the other. -/
def code (segs : List Segment) : List Inst := segs.flatMap Segment.code

theorem code_cons (s : Segment) (segs : List Segment) :
    code (s :: segs) = s.code ++ code segs := flatMap_cons

/-- A body without the markers of labels outside a list. -/
def named (targeted : List LabelId) (body : List Inst) : List Inst :=
  body.filter fun i => i.label?.all targeted.contains

theorem named_label (targeted : List LabelId) (l : LabelId) (rest : List Inst) :
    named targeted (.label l :: rest) =
      if targeted.contains l then .label l :: named targeted rest else named targeted rest := by
  simp [named, filter_cons, Inst.label?]

theorem named_cons (targeted : List LabelId) (other : i.label? = none) (rest : List Inst) :
    named targeted (i :: rest) = i :: named targeted rest := by
  simp [named, other]

private theorem code_cut (targeted : List LabelId) (body : List Inst) (labels : List LabelId)
    (pending : List Inst) :
    code (cut targeted labels pending body) =
      labels.map Inst.label ++ pending ++ named targeted body := by
  induction body generalizing labels pending with
  | nil =>
    rw [cut]
    split
    · rename_i empty
      simp only [Bool.and_eq_true, List.isEmpty_iff] at empty
      simp [empty, code, named]
    · simp [code, named, Segment.code]
  | cons i rest ih =>
    unfold cut
    split
    · rename_i l
      rw [named_label]
      by_cases isTarget : targeted.contains l = true
      · rw [if_neg (by simpa using isTarget), if_pos isTarget]
        split
        · rename_i empty
          rw [List.isEmpty_iff] at empty
          rw [ih]
          simp [empty]
        · rw [code_cons, ih]
          simp [Segment.code]
      · rw [if_pos (by simpa using isTarget), if_neg isTarget]
        exact ih labels pending
    · rename_i notLabel
      have other : i.label? = none := by
        cases i with
        | label l => exact absurd rfl (notLabel l)
        | _ => rfl
      rw [named_cons targeted other]
      split
      · rw [code_cons, ih]
        simp [Segment.code]
      · rw [ih]
        simp

private theorem code_closeTail (segs : List Segment) (nonempty : segs ≠ []) :
    ∃ closing, (closing = [] ∨ closing = [.ret none]) ∧
      code (closeTail segs) = code segs ++ closing := by
  induction segs with
  | nil => exact absurd rfl nonempty
  | cons first rest ih =>
    cases rest with
    | cons second rest =>
      obtain ⟨closing, isClosing, same⟩ := ih (by simp)
      refine ⟨closing, isClosing, ?_⟩
      rw [closeTail]
      · rw [code_cons, code_cons first, same, append_assoc]
      · simp
    | nil =>
      rw [closeTail]
      split
      · exact ⟨[], .inl rfl, by simp⟩
      · exact ⟨[], .inl rfl, by simp⟩
      · exact ⟨[.ret none], .inr rfl, by simp [code, Segment.code]⟩
      · exact ⟨[.ret none], .inr rfl, by simp [code, Segment.code]⟩

/-- Labels that some jump of a body names. -/
def targets (body : List Inst) : List LabelId := body.filterMap Inst.target?

theorem code_segments (body : List Inst) : ∃ closing, (closing = [] ∨ closing = [.ret none]) ∧
      code (segments body) = named (targets body) body ++ closing := by
  obtain ⟨closing, isClosing, same⟩ :=
    code_closeTail (⟨[], []⟩ :: cut (targets body) [] [] body) (by simp)
  refine ⟨closing, isClosing, same.trans ?_⟩
  rw [code_cons, code_cut]
  rfl

private theorem code_split {i : Nat} (isAt : segs[i]? = some s) :
    code segs = code (segs.take i) ++ s.code ++ code (segs.drop (i + 1)) := by
  obtain ⟨lt, isElement⟩ := List.getElem?_eq_some_iff.mp isAt
  have whole : segs = segs.take i ++ s :: segs.drop (i + 1) := by
    rw [← isElement, getElem_cons_drop, take_append_drop]
  conv_lhs => rw [whole]
  simp [code]

theorem code_drop {i : Nat} (isAt : segs[i]? = some s) :
    code (segs.drop i) = s.code ++ code (segs.drop (i + 1)) := by
  obtain ⟨lt, rfl⟩ := List.getElem?_eq_some_iff.mp isAt
  rw [drop_eq_getElem_cons lt, code_cons]

theorem mem_code : i ∈ code segs ↔ ∃ s ∈ segs, (∃ l ∈ s.labels, i = .label l) ∨ i ∈ s.insts := by
  simp [code, Segment.code, eq_comm]

theorem mem_named {targeted : List LabelId} {body : List Inst} :
    i ∈ named targeted body ↔ i ∈ body ∧ ∀ l, i = .label l → l ∈ targeted := by
  simp only [named, mem_filter, Option.all_eq_true, Inst.label?_eq_some, List.contains_iff_mem]

/-! ## Labels and jumps -/

theorem Segment.Tidy.label?_of_mem (tidy : s.Tidy) (mem : i ∈ s.insts) : i.label? = none :=
  Inst.label?_of_isSource (tidy.source i mem)

theorem Segment.Tidy.eq_nil_of_terminator (tidy : s.Tidy) {done rest : List Inst}
    (insts : s.insts = done ++ i :: rest) (terminates : i.isTerminator = true) :
    rest = [] := by
  rcases eq_nil_or_concat rest with isNil | ⟨front, last, shape⟩
  · exact isNil
  · have isFront : s.insts.dropLast = done ++ i :: front := by
      rw [insts, shape, concat_eq_append, ← cons_append, ← append_assoc, dropLast_concat]
    have inner := tidy.inner i (by simp [isFront])
    rw [terminates] at inner
    cases inner

/-- A body, its segments, and the return added to it. -/
structure Layout (body : List Inst) (segs : List Segment) (closing : List Inst) : Prop where
  same : code segs = named (targets body) body ++ closing
  closing : closing = [] ∨ closing = [.ret none]
  tidy : ∀ s ∈ segs, s.Tidy
  once : (body.filterMap Inst.label?).Nodup

theorem layout_of_linear (linear : p.Linear) :
    ∃ closing, Layout p.insts (segments p.insts) closing := by
  obtain ⟨closing, isClosing, same⟩ := code_segments p.insts
  exact ⟨closing, same, isClosing, (Procedure.laid_of_linear linear).tidy, linear.marked⟩

private theorem segmentOf?_eq_some (found : segmentOf? segs l = some t) :
    ∃ s, segs[t]? = some s ∧ l ∈ s.labels := by
  unfold segmentOf? at found
  obtain ⟨s, isLast, rfl⟩ := Option.map_eq_some_iff.mp found
  obtain ⟨inSegs, isNamed⟩ := mem_filter.mp (mem_of_getLast? isLast)
  exact ⟨s.1, mem_zipIdx_iff_getElem?.mp inSegs, List.contains_iff_mem.mp isNamed⟩

theorem segmentOf?_eq_none : segmentOf? segs l = none ↔ ∀ s ∈ segs, l ∉ s.labels := by
  unfold segmentOf?
  rw [Option.map_eq_none_iff, getLast?_eq_none_iff, filter_eq_nil_iff]
  constructor
  · intro none s mem isNamed
    obtain ⟨i, isAt⟩ := getElem?_of_mem mem
    exact none (s, i) (mem_zipIdx_iff_getElem?.mpr isAt) (List.contains_iff_mem.mpr isNamed)
  · intro none entry mem isNamed
    have isAt := mem_zipIdx_iff_getElem?.mp mem
    exact none entry.1 (mem_of_getElem? isAt) (List.contains_iff_mem.mp isNamed)

namespace Layout

variable {body : List Inst} {closing : List Inst}

theorem label?_closing (layout : Layout body segs closing) {i : Inst} (mem : i ∈ closing) :
    i = .ret none := by
  rcases layout.closing with isNil | isReturn
  · rw [isNil] at mem
    cases mem
  · rw [isReturn] at mem
    exact mem_singleton.mp mem

/-- A segment has a label exactly if the body marks it and jumps to it. -/
theorem exists_labels (layout : Layout body segs closing) :
    (∃ s ∈ segs, l ∈ s.labels) ↔ .label l ∈ body ∧ l ∈ targets body := by
  have inCode : (∃ s ∈ segs, l ∈ s.labels) ↔ .label l ∈ code segs := by
    rw [mem_code]
    constructor
    · rintro ⟨s, mem, isNamed⟩
      exact ⟨s, mem, .inl ⟨l, isNamed, rfl⟩⟩
    · rintro ⟨s, mem, ⟨l', isNamed, same⟩ | lt⟩
      · exact ⟨s, mem, Inst.label.inj same ▸ isNamed⟩
      · have impossible := (layout.tidy s mem).label?_of_mem lt
        cases impossible
  rw [inCode, layout.same, mem_append, mem_named]
  constructor
  · rintro (⟨inBody, targeted⟩ | inClosing)
    · exact ⟨inBody, targeted l rfl⟩
    · cases layout.label?_closing inClosing
  · rintro ⟨inBody, targeted⟩
    exact .inl ⟨inBody, fun l' same => Inst.label.inj same ▸ targeted⟩

theorem exists_getLast (layout : Layout body segs closing) {i : Inst} (jumps : i.target? = some l) :
    (∃ s ∈ segs, s.insts.getLast? = some i) ↔ i ∈ body := by
  have other : ∀ l', i ≠ .label l' := by
    rintro l' rfl
    cases jumps
  have inCode : i ∈ code segs ↔ i ∈ body := by
    rw [layout.same, mem_append, mem_named]
    constructor
    · rintro (⟨inBody, -⟩ | inClosing)
      · exact inBody
      · rw [layout.label?_closing inClosing] at jumps
        cases jumps
    · exact fun inBody => .inl ⟨inBody, fun l' same => absurd same (other l')⟩
  rw [← inCode, mem_code]
  constructor
  · rintro ⟨s, mem, isLast⟩
    exact ⟨s, mem, .inr (mem_of_getLast? isLast)⟩
  · rintro ⟨s, mem, ⟨l', -, same⟩ | lt⟩
    · exact absurd same (other l')
    · refine ⟨s, mem, ?_⟩
      obtain ⟨done, rest, shape⟩ := append_of_mem lt
      have terminates : i.isTerminator = true := by
        cases i <;> simp_all [Inst.target?, Inst.isTerminator]
      rw [shape, (layout.tidy s mem).eq_nil_of_terminator shape terminates]
      simp

/-- Behind the marker of a label stands the code of the segment that it names. -/
theorem after_marker (layout : Layout body segs closing) {before after : List Inst}
    (marked : body = before ++ .label l :: after) {s : Segment}
    (isAt : segs[t]? = some s) (isNamed : l ∈ s.labels) :
    ∃ labels : List LabelId, named (targets body) after ++ closing =
      labels.map Inst.label ++ s.insts ++ code (segs.drop (t + 1)) := by
  obtain ⟨front, labels, shape⟩ := append_of_mem isNamed
  have targeted := (layout.exists_labels.mp ⟨s, mem_of_getElem? isAt, isNamed⟩).2
  have once := layout.once
  have same := layout.same
  rw [code_split isAt, Segment.code, shape] at same
  generalize targets body = targeted' at targeted same ⊢
  subst marked
  rw [filterMap_append, filterMap_cons_some (f := Inst.label?) rfl, nodup_append,
    nodup_cons] at once
  have inFilter : ∀ part : List Inst, .label l ∈ part → l ∈ part.filterMap Inst.label? :=
    fun part mem => mem_filterMap.mpr ⟨_, mem, rfl⟩
  have notBefore : .label l ∉ named targeted' before := fun mem =>
    once.2.2 l (inFilter before (mem_named.mp mem).1) l mem_cons_self rfl
  have notAfter : .label l ∉ named targeted' after ++ closing := by
    intro mem
    rcases mem_append.mp mem with inAfter | inClosing
    · exact once.2.1.1 (inFilter after (mem_named.mp inAfter).1)
    · cases layout.label?_closing inClosing
  have isNamed' : named targeted' (before ++ .label l :: after) =
      named targeted' before ++ .label l :: named targeted' after := by
    rw [named, filter_append]
    change _ ++ named targeted' (.label l :: after) = _
    rw [named_label, if_pos (List.contains_iff_mem.mpr targeted)]
    rfl
  rw [isNamed'] at same
  have split : named targeted' before ++ .label l :: (named targeted' after ++ closing) =
      (code (segs.take t) ++ front.map Inst.label) ++ .label l ::
        (labels.map Inst.label ++ s.insts ++ code (segs.drop (t + 1))) := by
    rw [← cons_append, ← append_assoc, ← same]
    simp
  exact ⟨labels, ((append_cons_inj_of_notMem notBefore notAfter).mp split).2.2⟩

end Layout

variable {firstLabel : LabelId}

/-! ## Wired blocks -/

/-- What a block needs behind the instructions of its segment: a jump if control would fall
through. -/
def Segment.exit (s : Segment) : List Inst :=
  if s.insts.getLast?.any Inst.isTerminator then [] else [.jump 0]

/-- A block holds the instructions of its segment, and its edges lead where control goes behind
them. -/
structure Joins (segs : List Segment) (s : Segment) (i : Nat) (b : Block) : Prop where
  insts : b.insts.map Inst.unaimed = s.insts.map Inst.unaimed ++ s.exit
  next : ¬Leaves s.insts → b.direct = some (i + 1)
  jump : ∀ l, s.insts.getLast? = some (.jump l) → ∃ t, segmentOf? segs l = some t ∧
    b.direct = some t
  branch : ∀ op left right l, s.insts.getLast? = some (.branch op left right l) →
    ∃ t, segmentOf? segs l = some t ∧ b.cond = some t

private theorem resolve_eq_ok (found : resolve p segs l = .ok t) : segmentOf? segs l = some t := by
  unfold resolve at found
  cases isNamed : segmentOf? segs l with
  | none => simp [isNamed] at found
  | some j => simpa [isNamed] using found

private theorem joins_wire {i : Nat} {b : Block} (ok : wire p segs firstLabel s i = .ok b) :
    Joins segs s i b := by
  cases wires_wire ok with
  | falls onward =>
    have other : ∀ last, last.isTerminator = true → s.insts.getLast? ≠ some last :=
      fun last ends isLast => absurd (onward last isLast) (by rw [ends]; decide)
    refine ⟨?_, fun _ => rfl, fun l isJump => absurd isJump (other _ rfl),
      fun op left right l isBranch => absurd isBranch (other _ rfl)⟩
    have open_ : s.insts.getLast?.any Inst.isTerminator = false := by
      rw [Option.any_eq_false]
      exact fun last isLast => Bool.not_eq_true _ ▸ onward last isLast
    simp [Segment.exit, open_, Block.ofInsts, Inst.unaimed, Inst.withTarget]
  | branch shape found =>
    have isLast := shape ▸ getLast?_concat
    refine ⟨?_, fun _ => rfl, by simp [isLast], ?_⟩
    · simp [Segment.exit, shape, Inst.isTerminator, Block.ofInsts, Inst.unaimed, Inst.withTarget]
    · intro op left right l isBranch
      rw [isLast, Option.some.injEq] at isBranch
      obtain ⟨-, -, -, rfl⟩ := Inst.branch.inj isBranch
      exact ⟨_, resolve_eq_ok found, rfl⟩
  | jump shape found =>
    have isLast := shape ▸ getLast?_concat
    refine ⟨?_, fun falls => absurd (.inr ⟨_, isLast⟩) falls, ?_, by simp [isLast]⟩
    · simp [Segment.exit, shape, Inst.isTerminator, Block.ofInsts, Inst.unaimed, Inst.withTarget]
    · intro l isJump
      rw [isLast, Option.some.injEq] at isJump
      obtain rfl := Inst.jump.inj isJump
      exact ⟨_, resolve_eq_ok found, rfl⟩
  | ret shape =>
    have isLast := shape ▸ getLast?_concat
    refine ⟨?_, fun falls => absurd (.inl ⟨_, isLast⟩) falls, by simp [isLast], by simp [isLast]⟩
    simp [Segment.exit, shape, Inst.isTerminator, Block.ofInsts]

/-- A segment has no block exactly if it ends with a jump to a label of no segment. -/
theorem wire_error_iff {i : Nat} : wire p segs firstLabel s i = .error e ↔
      ∃ last l, s.insts.getLast? = some last ∧ last.target? = some l ∧ segmentOf? segs l = none ∧
        e = .unknownLabel p.name (p.labelName l) := by
  unfold wire
  cases isLast : s.insts.getLast? with
  | none => simp [Pure.pure, Except.pure]
  | some last =>
    cases last with
    | branch op left right target =>
      cases found : segmentOf? segs target <;>
        simp [resolve, found, Inst.target?, Bind.bind, Except.bind, Pure.pure, Except.pure, eq_comm]
    | jump target =>
      cases found : segmentOf? segs target <;>
        simp [resolve, found, Inst.target?, Bind.bind, Except.bind, Pure.pure, Except.pure, eq_comm]
    | _ => simp [Inst.target?, Pure.pure, Except.pure]

/-- The blocks of a flow graph hold segments, as `home` says. -/
structure Hosts (segs : List Segment) (q : Procedure) (home : BlockId → Nat → Prop) : Prop where
  entry : home Procedure.entry 0
  segment : ∀ {b i}, home b i → ∃ s, segs[i]? = some s
  insts : ∀ {b i s}, home b i → segs[i]? = some s →
    (q.block b).insts.map Inst.unaimed = s.insts.map Inst.unaimed ++ s.exit
  next : ∀ {b i s}, home b i → segs[i]? = some s → ¬Leaves s.insts →
    ∃ d, (q.block b).direct = some d ∧ home d (i + 1)
  jump : ∀ {b i s l}, home b i → segs[i]? = some s → s.insts.getLast? = some (.jump l) →
    ∃ d t, (q.block b).direct = some d ∧ home d t ∧ segmentOf? segs l = some t
  branch : ∀ {b i s op left right l}, home b i → segs[i]? = some s →
    s.insts.getLast? = some (.branch op left right l) →
    ∃ c t, (q.block b).cond = some c ∧ home c t ∧ segmentOf? segs l = some t

theorem hosts_restrict {raw : Procedure} (is : p.Raw raw) (linear : p.Linear) :
    Hosts (segments p.insts) (raw.restrictBlocks raw.reached raw.walk) fun b i => raw.reached[b]? =
      some i := by
  have kept := is.kept linear
  have segment : ∀ {b i : Nat}, raw.reached[b]? = some i →
      ∃ s, (segments p.insts)[i]? = some s := by
    intro b i isAt
    have lt := Procedure.Raw.lt_of_reached (mem_of_getElem? isAt)
    exact ⟨_, getElem?_eq_getElem (is.size ▸ lt)⟩
  have joins : ∀ {i : Nat} {s}, (segments p.insts)[i]? = some s →
      Joins (segments p.insts) s i (raw.block i) :=
      fun isSegment => joins_wire (is.wired _ _ isSegment)
  -- A kept block's edges lead to kept blocks, under their new numbers.
  have moved : ∀ {b i t : Nat}, raw.reached[b]? = some i → t ∈ (raw.block i).succs →
      raw.reached[Procedure.newNumber raw.reached t]? = some t := fun isAt edge =>
    Procedure.getElem?_newNumber (kept.closed (mem_of_getElem? isAt) _ edge)
  refine ⟨kept.first, segment, ?_, ?_, ?_, ?_⟩
  · intro b i s isAt isSegment
    obtain ⟨n, isBlock⟩ := kept.block_restrict isAt
    rw [isBlock]
    exact (joins isSegment).insts
  · intro b i s isAt isSegment falls
    obtain ⟨n, isBlock⟩ := kept.block_restrict isAt
    have direct := (joins isSegment).next falls
    exact ⟨_, by rw [isBlock, direct]; rfl, moved isAt (by simp [Block.succs, direct])⟩
  · intro b i s l isAt isSegment isJump
    obtain ⟨n, isBlock⟩ := kept.block_restrict isAt
    obtain ⟨t, found, direct⟩ := (joins isSegment).jump l isJump
    exact ⟨_, t, by rw [isBlock, direct]; rfl, moved isAt (by simp [Block.succs, direct]), found⟩
  · intro b i s op left right l isAt isSegment isBranch
    obtain ⟨n, isBlock⟩ := kept.block_restrict isAt
    obtain ⟨t, found, cond⟩ := (joins isSegment).branch op left right l isBranch
    exact ⟨_, t, by rw [isBlock, cond]; rfl, moved isAt (by simp [Block.succs, cond]), found⟩

/-! ## Points of the body and of the flow graph -/

section Points

variable {body : List Inst} {closing : List Inst} {q : Procedure} {home : BlockId → Nat → Prop}

variable {blockRest left rest : List Inst} {b : BlockId} {i : Nat} {labels : List LabelId}
  {x y : Inst} {a : Option (List Inst)}

/-- A point of the body and a point of the flow graph with the same code ahead: labels that name no
place of the graph any more, what is left of a segment, and the segments behind it. -/
structure Place (body : List Inst) (segs : List Segment) (closing : List Inst)
    (home : BlockId → Nat → Prop) (rest : List Inst) (b : BlockId) (blockRest : List Inst) (i : Nat)
    (s : Segment) (labels : List LabelId) (left : List Inst) : Prop where
  home : home b i
  segment : segs[i]? = some s
  insts : ∃ done, s.insts = done ++ left
  block : blockRest.map Inst.unaimed = left.map Inst.unaimed ++ s.exit
  same : named (targets body) rest ++ closing =
    labels.map Inst.label ++ left ++ code (segs.drop (i + 1))
  falls : left = [] → s.exit ≠ []

/-- Points with the same code ahead; after a return there is none. -/
inductive Together (body : List Inst) (segs : List Segment) (closing : List Inst)
    (home : BlockId → Nat → Prop) : Option (List Inst) → Option (BlockId × List Inst) → Prop
  | returned : Together body segs closing home none none
  | placed {rest : List Inst} {b : BlockId} {blockRest : List Inst} {i : Nat} {s : Segment}
      {labels : List LabelId} {left : List Inst}
      (place : Place body segs closing home rest b blockRest i s labels left) :
      Together body segs closing home (some rest) (some (b, blockRest))

theorem Hosts.place (hosts : Hosts segs q home) (isHome : home b i) (segment : segs[i]? = some s)
    (labels : List LabelId)
    (same : named (targets body) rest ++ closing =
      labels.map Inst.label ++ s.insts ++ code (segs.drop (i + 1))) :
    Place body segs closing home rest b (q.block b).insts i s labels s.insts := by
  refine ⟨isHome, segment, ⟨[], rfl⟩, hosts.insts isHome segment, same, fun isNil => ?_⟩
  simp [Segment.exit, isNil]

private theorem Hosts.place_start (hosts : Hosts segs q home) (layout : Layout body segs closing) :
    Together body segs closing home (some body)
      (some (Procedure.entry, (q.block Procedure.entry).insts)) := by
  obtain ⟨s, segment⟩ := hosts.segment hosts.entry
  refine .placed (hosts.place hosts.entry segment s.labels ?_)
  rw [← layout.same]
  exact code_drop segment

/-- At the end of a segment that control falls through, the flow graph moves on alone. -/
theorem Hosts.advance (hosts : Hosts segs q home)
    (place : Place body segs closing home rest b blockRest i s labels []) :
    ∃ d s', (FlowGraph.control q).silent (some (b, blockRest)) (some (d, (q.block d).insts)) ∧
      Place body segs closing home rest d (q.block d).insts (i + 1) s'
        (labels ++ s'.labels) s'.insts := by
  have exits : s.exit = [.jump 0] := by
    have nonempty := place.falls rfl
    unfold Segment.exit at nonempty ⊢
    split
    · rename_i terminated
      rw [if_pos terminated] at nonempty
      exact absurd rfl nonempty
    · rfl
  have falls : ¬Leaves s.insts := by
    have open_ : s.insts.getLast?.any Inst.isTerminator = false := by
      rw [← Bool.not_eq_true]
      intro terminated
      rw [Segment.exit, if_pos terminated] at exits
      cases exits
    rintro (⟨value, isLast⟩ | ⟨target, isLast⟩) <;> rw [isLast] at open_ <;> cases open_
  obtain ⟨d, direct, isHome⟩ := hosts.next place.home place.segment falls
  obtain ⟨s', segment⟩ := hosts.segment isHome
  have isJump : ∃ l, blockRest = [.jump l] := by
    have block := place.block
    rw [exits] at block
    obtain ⟨i, rfl, isUnaimed⟩ := map_eq_singleton_iff.mp block
    cases i <;> simp_all [Inst.unaimed, Inst.withTarget]
  obtain ⟨l, rfl⟩ := isJump
  refine ⟨d, s', .jump direct l [], hosts.place isHome segment _ ?_⟩
  rw [place.same, code_drop segment]
  simp [Segment.code]

/-- The flow graph moves on to where its code has a label or an instruction ahead. -/
theorem Hosts.settle (hosts : Hosts segs q home)
    (place : Place body segs closing home rest b blockRest i s labels left) :
    ∃ b' blockRest' i' s' labels' left', (FlowGraph.control q).Silently (some (b, blockRest))
      (some (b', blockRest')) ∧
      Place body segs closing home rest b' blockRest' i' s' labels' left' ∧
      (labels' ≠ [] ∨ left' ≠ []) := by
  -- The number of segments ahead goes down with each move.
  induction bound : segs.length - i generalizing b blockRest i s labels left with
  | zero =>
    obtain ⟨lt, -⟩ := List.getElem?_eq_some_iff.mp place.segment
    omega
  | succ bound ih =>
    cases left with
    | cons x left => exact ⟨_, _, _, _, _, _, .refl _, place, .inr (by simp)⟩
    | nil =>
      obtain ⟨d, s', moves, place'⟩ := hosts.advance place
      obtain ⟨b'', blockRest'', i'', s'', labels'', left'', more, result⟩ := ih place' (by omega)
      exact ⟨b'', blockRest'', i'', s'', labels'', left'', .step moves more, result⟩

/-- With an instruction ahead in the graph, the body moves past markers to the same instruction, or
to its end if that instruction is the return added there. -/
theorem Layout.settle (layout : Layout body segs closing) (other : x.label? = none)
    {more : List Inst}
    (same : named (targets body) rest ++ closing = labels.map Inst.label ++ x :: more) :
    (∃ rest', (Linear.control body).Silently (some rest) (some (x :: rest')) ∧
      named (targets body) rest' ++ closing = more) ∨
    ((Linear.control body).Silently (some rest) (some []) ∧ x = .ret none) := by
  induction rest generalizing labels with
  | nil =>
    have mem : x ∈ closing := by
      change [] ++ closing = _ at same
      rw [nil_append] at same
      simp [same]
    exact .inr ⟨.refl _, layout.label?_closing mem⟩
  | cons head rest ih =>
    cases isLabel : head.label? with
    | some l =>
      obtain rfl := Inst.label?_eq_some.mp isLabel
      have moves : (Linear.control body).silent (some (.label l :: rest)) (some rest) :=
        .label l rest
      have later : ∃ labels' : List LabelId,
          named (targets body) rest ++ closing = labels'.map Inst.label ++ x :: more := by
        rw [named_label] at same
        split at same
        · cases labels with
          | nil =>
            obtain ⟨rfl, -⟩ := List.cons.inj same
            cases other
          | cons l' labels => exact ⟨labels, (List.cons.inj same).2⟩
        · exact ⟨labels, same⟩
      obtain ⟨labels', same'⟩ := later
      rcases ih same' with ⟨rest', moves', ahead⟩ | ⟨moves', isReturn⟩
      · exact .inl ⟨rest', .step moves moves', ahead⟩
      · exact .inr ⟨.step moves moves', isReturn⟩
    | none =>
      rw [named_cons _ isLabel, cons_append] at same
      cases labels with
      | cons l labels =>
        obtain ⟨rfl, -⟩ := List.cons.inj same
        cases isLabel
      | nil =>
        obtain ⟨rfl, ahead⟩ := List.cons.inj same
        exact .inl ⟨rest, .refl _, ahead⟩

/-! ## Moves -/

theorem Place.block_cons
    (place : Place body segs closing home rest b blockRest i s labels (x :: left)) :
    ∃ y blockRest', blockRest = y :: blockRest' ∧ x.unaimed = y.unaimed := by
  obtain ⟨y, blockRest', rfl, isHead, -⟩ := map_eq_cons_iff.mp place.block
  exact ⟨y, blockRest', rfl, isHead.symm⟩

section

variable (layout : Layout body segs closing)
  (place : Place body segs closing home rest b blockRest i s labels (x :: left))

include layout place

theorem Place.label?_head : x.label? = none := by
  obtain ⟨done, insts⟩ := place.insts
  exact (layout.tidy s (mem_of_getElem? place.segment)).label?_of_mem (by simp [insts])

theorem Place.getLast_head (terminates : x.isTerminator = true) :
    s.insts.getLast? = some x ∧ left = [] := by
  obtain ⟨done, insts⟩ := place.insts
  obtain rfl :=
    (layout.tidy s (mem_of_getElem? place.segment)).eq_nil_of_terminator insts terminates
  exact ⟨by simp [insts], rfl⟩

end

/-- A jump leads behind the marker of its label, and to the block of the segment it names. -/
theorem Hosts.land (hosts : Hosts segs q home) (layout : Layout body segs closing) {d : BlockId}
    (isHome : home d t) (found : segmentOf? segs l = some t) :
    (∃ before after, body = before ++ .label l :: after) ∧
    ∀ before after, body = before ++ .label l :: after →
        Together body segs closing home (some after) (some (d, (q.block d).insts)) := by
  obtain ⟨s, segment, isNamed⟩ := segmentOf?_eq_some found
  refine ⟨?_, fun before after marked => ?_⟩
  · exact append_of_mem (layout.exists_labels.mp ⟨s, mem_of_getElem? segment, isNamed⟩).1
  · obtain ⟨labels, same⟩ := layout.after_marker marked segment isNamed
    exact .placed (hosts.place isHome segment labels same)

/-- Both forms have the same instruction ahead. -/
structure Facing (body : List Inst) (segs : List Segment) (closing : List Inst)
    (home : BlockId → Nat → Prop) (x y : Inst) (rest : List Inst)
    (b : BlockId) (blockRest : List Inst) (i : Nat) (s : Segment) (left : List Inst) : Prop where
  unaimed : x.unaimed = y.unaimed
  place : Place body segs closing home (x :: rest) b (y :: blockRest) i s [] (x :: left)

section Facing

variable {op : Comparison} {r : Operand} {target : LabelId}

section

variable (facing : Facing body segs closing home x y rest b blockRest i s left)

include facing

theorem Facing.same (layout : Layout body segs closing) :
    named (targets body) rest ++ closing = left ++ code (segs.drop (i + 1)) := by
  have same := facing.place.same
  rw [named_cons _ (facing.place.label?_head layout)] at same
  exact (List.cons.inj same).2

theorem Facing.ordinary (layout : Layout body segs closing) (isOrdinary : x.isOrdinary = true) :
    Together body segs closing home (some rest) (some (b, blockRest)) := by
  obtain ⟨done, insts⟩ := facing.place.insts
  have place : Place body segs closing home rest b blockRest i s [] left := by
    refine ⟨facing.place.home, facing.place.segment, ⟨done ++ [x], by simp [insts]⟩,
      (List.cons.inj facing.place.block).2, facing.same layout, fun isNil => ?_⟩
    have inner := Inst.isTerminator_of_isInner (Inst.isInner_of_isOrdinary isOrdinary)
    simp [Segment.exit, insts, isNil, inner]
  exact .placed place

section

variable (hosts : Hosts segs q home) (layout : Layout body segs closing)

include hosts layout

theorem Facing.falls {l : Operand} (isBranch : x = .branch op l r target) :
    ∃ d, (q.block b).direct = some d ∧
      Together body segs closing home (some rest) (some (d, (q.block d).insts)) := by
  subst isBranch
  obtain ⟨isLast, rfl⟩ := facing.place.getLast_head layout rfl
  obtain ⟨d, direct, isHome⟩ :=
    hosts.next facing.place.home facing.place.segment (by simp [Leaves, isLast])
  obtain ⟨s', segment⟩ := hosts.segment isHome
  refine ⟨d, direct, .placed (hosts.place isHome segment s'.labels ?_)⟩
  rw [facing.same layout, nil_append, code_drop segment, Segment.code]

theorem Facing.jump {l : LabelId} (isJump : x = .jump l) :
    ∃ d t, (q.block b).direct = some d ∧ home d t ∧ segmentOf? segs l = some t := by
  subst isJump
  exact hosts.jump facing.place.home facing.place.segment (facing.place.getLast_head layout rfl).1

theorem Facing.branch {l : Operand} (isBranch : x = .branch op l r target) :
    ∃ c t, (q.block b).cond = some c ∧ home c t ∧ segmentOf? segs target = some t := by
  subst isBranch
  exact hosts.branch facing.place.home facing.place.segment (facing.place.getLast_head layout rfl).1

end

end

end Facing

variable {a' : Option (List Inst)} {taken : Bool}

/-- The flow graph moves on to the instruction that the body has ahead. -/
theorem Hosts.face (hosts : Hosts segs q home) (other : x.label? = none)
    (place : Place body segs closing home (x :: rest) b blockRest i s labels left) :
    ∃ b' y blockRest' i' s' left', (FlowGraph.control q).Silently (some (b, blockRest))
      (some (b', y :: blockRest')) ∧
      Facing body segs closing home x y rest b' blockRest' i' s' left' := by
  obtain ⟨b', blockRest', i', s', labels', left', moves, place', ahead⟩ := hosts.settle place
  have same := place'.same
  rw [named_cons _ other, cons_append] at same
  cases labels' with
  | cons l labels' =>
    obtain ⟨rfl, -⟩ := List.cons.inj same
    cases other
  | nil =>
    cases left' with
    | nil => simp at ahead
    | cons z left' =>
      obtain ⟨rfl, -⟩ := List.cons.inj same
      obtain ⟨y, blockRest'', rfl, unaimed⟩ := place'.block_cons
      exact ⟨b', y, blockRest'', i', s', left', moves, unaimed, place'⟩

/-- The body moves on to the instruction that the flow graph has ahead, or else both return without
a value. -/
theorem Layout.face (layout : Layout body segs closing)
    (place : Place body segs closing home rest b (y :: blockRest) i s labels (x :: left)) :
    x.unaimed = y.unaimed ∧
      ((∃ rest', (Linear.control body).Silently (some rest) (some (x :: rest')) ∧
        Facing body segs closing home x y rest' b blockRest i s left) ∨
      ((Linear.control body).Silently (some rest) (some []) ∧ x = .ret none)) := by
  have unaimed : x.unaimed = y.unaimed := ((List.cons.inj place.block).1).symm
  have other := place.label?_head layout
  refine ⟨unaimed, ?_⟩
  have same := place.same
  rw [append_assoc, cons_append] at same
  rcases layout.settle other same with ⟨rest', moves, ahead⟩ | returns
  · refine .inl ⟨rest', moves, unaimed, place.home, place.segment, place.insts, place.block, ?_,
      place.falls⟩
    rw [named_cons _ other, cons_append, ahead]
    rfl
  · exact .inr returns

theorem Inst.eq_jump_of_unaimed (same : x.unaimed = (Inst.jump l).unaimed) :
    ∃ l', x = .jump l' := by
  cases x <;> simp_all [Inst.unaimed, Inst.withTarget]

theorem Inst.eq_branch_of_unaimed {op : Comparison} {left right : Operand}
    (same : x.unaimed = (Inst.branch op left right l).unaimed) :
    ∃ l', x = .branch op left right l' := by
  cases x <;> simp_all [Inst.unaimed, Inst.withTarget]

section

variable {b : Option (BlockId × List Inst)} (hosts : Hosts segs q home)
  (layout : Layout body segs closing) (together : Together body segs closing home a b)

include hosts layout together

private theorem Hosts.follow_silent (moves : (Linear.control body).silent a a') :
    ∃ b', (FlowGraph.control q).Silently b b' ∧ Together body segs closing home a' b' := by
  cases moves with
  | label l rest =>
    cases together with
    | placed place =>
      by_cases targeted : (targets body).contains l = true
      · obtain ⟨b', blockRest', i', s', labels', left', moves, place', ahead⟩ := hosts.settle place
        have same := place'.same
        rw [named_label, if_pos targeted, cons_append] at same
        cases labels' with
        | cons l' labels' =>
          have onward : Place body segs closing home rest b' blockRest' i' s' labels' left' :=
            ⟨place'.home, place'.segment, place'.insts, place'.block, (List.cons.inj same).2,
              place'.falls⟩
          exact ⟨_, moves, .placed onward⟩
        | nil =>
          cases left' with
          | nil => simp at ahead
          | cons x left' =>
            obtain ⟨rfl, -⟩ := List.cons.inj same
            cases place'.label?_head layout
      · have same := place.same
        rw [named_label, if_neg targeted] at same
        exact ⟨_, .refl _,
          .placed ⟨place.home, place.segment, place.insts, place.block, same, place.falls⟩⟩
  | jump marked rest =>
    cases together with
    | placed place =>
      obtain ⟨b', y, blockRest', i', s', left', moves, facing⟩ := hosts.face rfl place
      obtain ⟨l', rfl⟩ := Inst.eq_jump_of_unaimed facing.unaimed.symm
      obtain ⟨d, t, direct, isHome, found⟩ := facing.jump hosts layout rfl
      refine ⟨_, moves.trans (.step (.jump direct l' blockRest') (.refl _)), ?_⟩
      exact (hosts.land layout isHome found).2 _ _ marked

private theorem Hosts.follow_visible (moves : (Linear.control body).visible a x taken a') :
    ∃ b' y b'', (FlowGraph.control q).Silently b b' ∧ x.unaimed = y.unaimed ∧
      (FlowGraph.control q).visible b' y taken b'' ∧ Together body segs closing home a' b'' := by
  cases together with
  | returned => cases moves
  | placed place =>
    cases moves with
    | ordinary isOrdinary rest =>
      have other : x.label? = none := by cases x <;> simp_all [Inst.isOrdinary, Inst.label?]
      have stays : x.target? = none := by cases x <;> simp_all [Inst.isOrdinary, Inst.target?]
      obtain ⟨b', y, blockRest', i', s', left', moves, facing⟩ := hosts.face other place
      obtain rfl := Inst.eq_of_unaimed facing.unaimed stays
      exact ⟨_, x, _, moves, rfl, .ordinary isOrdinary b' blockRest',
        facing.ordinary layout isOrdinary⟩
    | falls op left right l rest =>
      obtain ⟨b', y, blockRest', i', s', left', moves, facing⟩ := hosts.face rfl place
      obtain ⟨l', rfl⟩ := Inst.eq_branch_of_unaimed facing.unaimed.symm
      obtain ⟨d, direct, onward⟩ := facing.falls hosts layout rfl
      exact ⟨_, _, _, moves, facing.unaimed, .falls direct op left right l' blockRest', onward⟩
    | taken op left right marked rest =>
      obtain ⟨b', y, blockRest', i', s', left', moves, facing⟩ := hosts.face rfl place
      obtain ⟨l', rfl⟩ := Inst.eq_branch_of_unaimed facing.unaimed.symm
      obtain ⟨c, t, cond, isHome, found⟩ := facing.branch hosts layout rfl
      exact ⟨_, _, _, moves, facing.unaimed, .taken cond op left right l' blockRest',
        (hosts.land layout isHome found).2 _ _ marked⟩
    | ret value rest =>
      obtain ⟨b', y, blockRest', i', s', left', moves, facing⟩ := hosts.face rfl place
      obtain rfl := Inst.eq_of_unaimed facing.unaimed rfl
      exact ⟨_, _, _, moves, rfl, .ret value b' blockRest', .returned⟩
    | atEnd =>
      obtain ⟨b', blockRest', i', s', labels', left', moves, place', ahead⟩ := hosts.settle place
      have same : closing = labels'.map Inst.label ++ left' ++ code (segs.drop (i' + 1)) :=
        place'.same
      cases labels' with
      | cons l labels' =>
        have mem : .label l ∈ closing := by rw [same]; simp
        cases layout.label?_closing mem
      | nil =>
        cases left' with
        | nil => simp at ahead
        | cons x left' =>
          obtain rfl := layout.label?_closing (i := x) (by rw [same]; simp)
          obtain ⟨y, blockRest'', rfl, unaimed⟩ := place'.block_cons
          obtain rfl := Inst.eq_of_unaimed unaimed rfl
          exact ⟨_, _, _, moves, rfl, .ret none b' blockRest'', .returned⟩

end

private theorem Layout.follow_silent (layout : Layout body segs closing) (hosts : Hosts segs q home)
    {b b' : Option (BlockId × List Inst)}
    (together : Together body segs closing home a b) (moves : (FlowGraph.control q).silent b b') :
    ∃ a', (Linear.control body).Silently a a' ∧ Together body segs closing home a' b' := by
  cases moves with
  | @jump b d direct l blockRest =>
    cases together with
    | @placed rest _ _ i s labels left place =>
      cases left with
      | nil =>
        obtain ⟨d', s', moves, place'⟩ := hosts.advance place
        cases moves with
        | jump direct' =>
          obtain rfl := Option.some.inj (direct.symm.trans direct')
          exact ⟨_, .refl _, .placed place'⟩
      | cons x left =>
        obtain ⟨unaimed, ⟨rest', moves, facing⟩ | ⟨-, rfl⟩⟩ := layout.face place
        · obtain ⟨l', rfl⟩ := Inst.eq_jump_of_unaimed unaimed
          obtain ⟨d', t, direct', isHome, found⟩ := facing.jump hosts layout rfl
          obtain rfl := Option.some.inj (direct.symm.trans direct')
          obtain ⟨⟨before, after, marked⟩, lands⟩ := hosts.land layout isHome found
          exact ⟨_, moves.trans (.step (.jump marked rest') (.refl _)), lands before after marked⟩
        · cases unaimed

theorem Place.exists_cons
    (place : Place body segs closing home rest b (y :: blockRest) i s labels left)
    (stays : ∀ l, y ≠ .jump l) : ∃ x left', left = x :: left' := by
  cases left with
  | cons x left => exact ⟨x, left, rfl⟩
  | nil =>
    have block := place.block
    unfold Segment.exit at block
    split at block
    · cases block
    · have isJump : y.unaimed = (Inst.jump 0).unaimed := (List.cons.inj block).1
      obtain ⟨l, rfl⟩ := Inst.eq_jump_of_unaimed isJump
      exact absurd rfl (stays l)

private theorem Layout.follow_visible (layout : Layout body segs closing)
    (hosts : Hosts segs q home)
    {b b' : Option (BlockId × List Inst)} (together : Together body segs closing home a b)
    (moves : (FlowGraph.control q).visible b y taken b') :
    ∃ a' x a'', (Linear.control body).Silently a a' ∧ y.unaimed = x.unaimed ∧
      (Linear.control body).visible a' x taken a'' ∧ Together body segs closing home a'' b' := by
  have stays : ∀ l, y ≠ .jump l := by
    rintro l rfl
    cases moves with
    | ordinary isOrdinary => cases isOrdinary
  cases together with
  | returned => cases moves
  | placed place =>
    cases moves with
    | ordinary isOrdinary b blockRest =>
      obtain ⟨x, left', rfl⟩ := place.exists_cons stays
      obtain ⟨unaimed, ⟨rest', moves, facing⟩ | ⟨-, rfl⟩⟩ := layout.face place
      · have aimless : y.target? = none := by cases y <;> simp_all [Inst.isOrdinary, Inst.target?]
        obtain rfl := Inst.eq_of_unaimed unaimed.symm aimless
        exact ⟨_, y, _, moves, rfl, .ordinary isOrdinary rest', facing.ordinary layout isOrdinary⟩
      · obtain rfl := Inst.eq_of_unaimed unaimed rfl
        cases isOrdinary
    | falls direct op left right l blockRest =>
      obtain ⟨x, left', rfl⟩ := place.exists_cons stays
      obtain ⟨unaimed, ⟨rest', moves, facing⟩ | ⟨-, rfl⟩⟩ := layout.face place
      · obtain ⟨l', rfl⟩ := Inst.eq_branch_of_unaimed unaimed
        obtain ⟨d', direct', onward⟩ := facing.falls hosts layout rfl
        obtain rfl := Option.some.inj (direct.symm.trans direct')
        exact ⟨_, _, _, moves, unaimed.symm, .falls op left right l' rest', onward⟩
      · cases unaimed
    | taken cond op left right l blockRest =>
      obtain ⟨x, left', rfl⟩ := place.exists_cons stays
      obtain ⟨unaimed, ⟨rest', moves, facing⟩ | ⟨-, rfl⟩⟩ := layout.face place
      · obtain ⟨l', rfl⟩ := Inst.eq_branch_of_unaimed unaimed
        obtain ⟨c', t, cond', isHome, found⟩ := facing.branch hosts layout rfl
        obtain rfl := Option.some.inj (cond.symm.trans cond')
        obtain ⟨⟨before, after, marked⟩, lands⟩ := hosts.land layout isHome found
        exact ⟨_, _, _, moves, unaimed.symm, .taken op left right marked rest',
          lands before after marked⟩
      · cases unaimed
    | ret value b blockRest =>
      obtain ⟨x, left', rfl⟩ := place.exists_cons stays
      obtain ⟨unaimed, ⟨rest', moves, facing⟩ | ⟨moves, rfl⟩⟩ := layout.face place
      · obtain rfl := Inst.eq_of_unaimed unaimed.symm rfl
        exact ⟨_, _, _, moves, rfl, .ret value rest', .returned⟩
      · obtain rfl := Inst.ret.inj (Inst.eq_of_unaimed unaimed rfl)
        exact ⟨_, _, _, moves, rfl, .atEnd, .returned⟩

end Points

end FlowGraph

namespace Procedure

open FlowGraph

/-- The body jumps to a label that it does not mark. -/
def Dangling (p : Procedure) (l : LabelId) :
    Prop := (∃ i ∈ p.insts, i.target? = some l) ∧ .label l ∉ p.insts

theorem dangling_of_error {p : Procedure} (linear : p.Linear)
    (failed : p.buildFlowGraph = .error e) :
    ∃ l, p.Dangling l ∧ e = .unknownLabel p.name (p.labelName l) := by
  obtain ⟨closing, layout⟩ := layout_of_linear linear
  unfold buildFlowGraph at failed
  cases wired : (segments p.insts).zipIdx.mapM fun s =>
      wire p (segments p.insts) p.nextLabel s.1 s.2 with
  | ok blocks => simp [wired, Bind.bind, Except.bind, Pure.pure, Except.pure] at failed
  | error e' =>
    simp only [wired, Bind.bind, Except.bind, Except.error.injEq] at failed
    subst failed
    obtain ⟨entry, mem, isError⟩ := exists_of_mapM_error wired
    obtain ⟨last, l, isLast, jumps, unnamed, rfl⟩ := wire_error_iff.mp isError
    have inSegs := mem_of_getElem? (mem_zipIdx_iff_getElem?.mp mem)
    have inBody := (layout.exists_getLast jumps).mp ⟨entry.1, inSegs, isLast⟩
    refine ⟨l, ⟨⟨last, inBody, jumps⟩, fun marked => ?_⟩, rfl⟩
    obtain ⟨s, isSegment, isNamed⟩ :=
      layout.exists_labels.mpr ⟨marked, mem_filterMap.mpr ⟨last, inBody, jumps⟩⟩
    exact segmentOf?_eq_none.mp unnamed s isSegment isNamed

theorem not_dangling_of_ok {p q : Procedure} (linear : p.Linear) (ok : p.buildFlowGraph = .ok q)
    (l : LabelId) : ¬p.Dangling l := by
  rintro ⟨⟨i, inBody, jumps⟩, unmarked⟩
  obtain ⟨closing, layout⟩ := layout_of_linear linear
  obtain ⟨raw, is, -⟩ := raw_of_buildFlowGraph ok
  obtain ⟨s, isSegment, isLast⟩ := (layout.exists_getLast jumps).mpr inBody
  obtain ⟨k, isAt⟩ := getElem?_of_mem isSegment
  have unnamed : segmentOf? (segments p.insts) l = none := segmentOf?_eq_none.mpr
    fun s' mem isNamed => unmarked (layout.exists_labels.mp ⟨s', mem, isNamed⟩).1
  have failed : wire p (segments p.insts) p.nextLabel s k =
      .error (.unknownLabel p.name (p.labelName l)) :=
    wire_error_iff.mpr ⟨i, l, isLast, jumps, unnamed, rfl⟩
  rw [is.wired k s isAt] at failed
  cases failed

/-- A body of a text has no flow graph exactly if one of its jumps names a label without a marker,
and such a label is what the error names. Otherwise body and flow graph have the same traces,
whatever the variables hold at the start and whatever calls and loads deliver. -/
theorem trace_buildFlowGraph {text : String} {program : Program} {p : Procedure}
    (read : Program.ofText text = .ok program) (mem : p ∈ program.procedures) :
    ((∃ e, p.buildFlowGraph = .error e) ↔ ∃ l, p.Dangling l) ∧ (∀ e, p.buildFlowGraph = .error e →
        ∃ l, p.Dangling l ∧ e = .unknownLabel p.name (p.labelName l)) ∧
      ∀ q, p.buildFlowGraph = .ok q → ∀ literal env answers events final,
        (Linear.control p.insts).Trace literal p (some p.insts) env answers events final ↔
          (FlowGraph.control q).Trace literal q
            (some (entry, (q.block entry).insts)) env answers events final := by
  have linear := Program.linear_of_ofText read p mem
  refine ⟨⟨?_, ?_⟩, fun e => dangling_of_error linear,
    fun q ok literal env answers events final => ?_⟩
  · rintro ⟨e, failed⟩
    obtain ⟨l, dangling, -⟩ := dangling_of_error linear failed
    exact ⟨l, dangling⟩
  · rintro ⟨l, dangling⟩
    cases built : p.buildFlowGraph with
    | error e => exact ⟨e, rfl⟩
    | ok q => exact absurd dangling (not_dangling_of_ok linear built l)
  · have vars := (built_buildFlowGraph linear ok).vars
    obtain ⟨closing, layout⟩ := layout_of_linear linear
    obtain ⟨raw, is, rfl⟩ := raw_of_buildFlowGraph ok
    have hosts := hosts_restrict is linear
    constructor
    · exact Control.Trace.simulate vars (hosts.follow_silent layout) (hosts.follow_visible layout)
        (hosts.place_start layout)
    · exact Control.Trace.simulate vars.symm (layout.follow_silent hosts)
        (layout.follow_visible hosts) (hosts.place_start layout)

/-- A jump over an assignment: the flow graph returns what the body returns. -/
theorem trace_buildFlowGraph_skip : ∃ program p q, Program.ofText
        "Int f(Int a) \x7b if (a < 5) goto L; a = 7; L: return a; \x7d" = .ok program ∧
      p ∈ program.procedures ∧ p.buildFlowGraph = .ok q ∧
      (FlowGraph.control q).Trace (fun _ => 0) q (some (entry, (q.block entry).insts))
        (fun _ => some 3) [0, 0]
        [(.branch .lt (.var 0) (.int 5) 0, .compare .lt 3 5), (.ret (some (.var 0)), .ret (some 3))]
        (Machine.Env.define (Machine.Env.define (fun _ => some 3) [] 0) [] 0) := by
  have evaluated : ((Program.ofText
      "Int f(Int a) \x7b if (a < 5) goto L; a = 7; L: return a; \x7d").toOption.bind fun program =>
        program.procedures.head?.bind fun p => p.buildFlowGraph.toOption.map fun _ => p.insts) =
      some
        [.branch .lt (.var 0) (.int 5) 1, .assign 0 (.int 7), .label 1, .ret (some (.var 0))] := by
    decide +kernel
  obtain ⟨program, p, isRead, mem, evaluated⟩ := Program.exists_of_first evaluated
  obtain ⟨q, isBuilt, insts⟩ := Tables.exists_ok_of_map evaluated
  refine ⟨program, p, q, isRead, mem, isBuilt, ?_⟩
  refine ((trace_buildFlowGraph isRead mem).2.2 q isBuilt _ _ _ _ _).mp ?_
  rw [insts]
  have marked : [Inst.branch .lt (.var 0) (.int 5) 1, .assign 0 (.int 7), .label 1,
      .ret (some (.var 0))] = [.branch .lt (.var 0) (.int 5) 1, .assign 0 (.int 7)] ++
        .label 1 :: [.ret (some (.var 0))] := rfl
  refine .visible (i := .branch .lt (.var 0) (.int 5) 1) rfl (.taken .lt _ _ marked _) ?_
  exact .visible (i := .ret (some (.var 0))) rfl (.ret _ _) (.stop none _)

end Procedure

end ArmBackend
