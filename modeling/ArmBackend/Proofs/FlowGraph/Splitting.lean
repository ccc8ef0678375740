import ArmBackend.Proofs.Control
import ArmBackend.Proofs.Passes

/-!
Contract: splitting critical edges is complete, local and idempotent.

A landing block is one jump on an edge. It takes the place of the source among the predecessors of
the target, so phis read the same argument on the same edge, and runs stop by at it without
noticing.

Owns: what a procedure and its runs have in common with what splitting makes of it.
Does not own: the form and the certificate of the result.
-/

namespace ArmBackend

open List Machine Procedure

variable {b c : BlockId} {way : Bool} {assigned : Prop} {s s' final : State} {answers : List Int32}

/-! ## Positions among predecessors -/

theorem eq_of_count {l : List BlockId} {a : BlockId} (few : l.count a < 2) {i j : Nat}
    (first : l[i]? = some a) (second : l[j]? = some a) : i = j := by
  by_contra differ
  wlog before : i < j generalizing i j
  · exact this second first (Ne.symm differ) (by omega)
  obtain ⟨inI, isI⟩ := List.getElem?_eq_some_iff.mp first
  obtain ⟨inJ, isJ⟩ := List.getElem?_eq_some_iff.mp second
  refine Nat.not_le_of_lt few (duplicate_iff_two_le_count.mp ?_)
  exact duplicate_iff_exists_distinct_get.mpr ⟨⟨i, inI⟩, ⟨j, inJ⟩, before, isI.symm, isJ.symm⟩

/-- Positions depend on where the source stands only. -/
theorem slotFrom_congr {b b' : Block} {source : BlockId}
    (same : b'.preds.map (· == source) = b.preds.map (· == source)) (taken : Bool) :
    slotFrom b' source taken = slotFrom b source taken := by
  have first : ∀ l : List BlockId, l.findIdx (· == source) = (l.map (· == source)).findIdx id :=
    fun l => by
    rw [findIdx_map]
    rfl
  have length := congrArg List.length same
  rw [length_map, length_map] at length
  rw [slotFrom, slotFrom, first, first, first, first, map_reverse, map_reverse, same, length]

/-- Where a block comes in twice, the taken edge has the first place and the direct one the last. -/
theorem slotFrom_ne {b : Block} {source : BlockId} (twice : 2 ≤ b.preds.count source) :
    slotFrom b source true ≠ slotFrom b source false := by
  obtain ⟨⟨i, inI⟩, ⟨j, inJ⟩, before, isI, isJ⟩ :=
    duplicate_iff_exists_distinct_get.mp (duplicate_iff_two_le_count.mpr twice)
  have first : b.preds.findIdx (· == source) ≤ i := by
    refine Nat.le_of_not_lt fun less => ?_
    exact absurd (not_of_lt_findIdx less) (by simpa using isI.symm)
  have last : b.preds.reverse.findIdx (· == source) ≤ b.preds.length - 1 - j := by
    refine Nat.le_of_not_lt fun less => ?_
    have notHere := not_of_lt_findIdx less
    rw [getElem_reverse] at notHere
    have place : b.preds.length - 1 - (b.preds.length - 1 - j) = j := by omega
    simp only [place] at notHere
    exact absurd notHere (by simpa using isJ.symm)
  have order : i < j := before
  rw [slotFrom, slotFrom, if_pos rfl, if_neg Bool.false_ne_true]
  omega

/-! ## Instructions -/

/-- The same instruction, wherever it branches to. -/
def Inst.unbranched : Inst → Inst
  | .branch op left right _ => .branch op left right 0
  | i => i

theorem Inst.unaimed_of_unbranched {i j : Inst} (same : j.unbranched = i.unbranched) :
    i.unaimed = j.unaimed := by
  have unchanged : ∀ i : Inst, i.unbranched.unaimed = i.unaimed := fun i => by cases i <;> rfl
  rw [← unchanged i, ← same, unchanged]

variable {p q r : Procedure} {taken : Bool} {source target : BlockId} {slot : Nat}
  {literal : String → Int32}

theorem silent?_of_vars (vars : q.vars = p.vars) (store : Store) (i : Inst) :
    silent? q store i = silent? p store i := by
  have web? : q.web? = p.web? := by
    funext v
    rw [Procedure.web?, Procedure.web?, Procedure.var, Procedure.var, vars]
  cases i <;> simp only [silent?, Store.spill, Store.reload, Store.slotOf, web?]

private theorem settle_unbranched (vars : q.vars = p.vars) {insts insts' : List Inst}
    (same : insts'.map Inst.unbranched = insts.map Inst.unbranched) (store : Store) :
    (settle q insts' store).1.map Inst.unbranched = (settle p insts store).1.map Inst.unbranched ∧
      (settle q insts' store).2 = (settle p insts store).2 := by
  induction insts generalizing insts' store with
  | nil =>
    obtain rfl := map_eq_nil_iff.mp same
    exact ⟨rfl, rfl⟩
  | cons i rest ih =>
    obtain ⟨j, rest', rfl, first, more⟩ := map_eq_cons_iff.mp same
    have unchanged : ∀ i : Inst, silent? p store i.unbranched = silent? p store i :=
      fun i => by cases i <;> rfl
    have silent : silent? q store j = silent? p store i := by
      rw [silent?_of_vars vars, ← unchanged, first, unchanged]
    cases isSilent : silent? p store i with
    | none =>
      rw [settle_visible isSilent, settle_visible (silent.trans isSilent)]
      exact ⟨same, rfl⟩
    | some next =>
      rw [settle_silent isSilent, settle_silent (silent.trans isSilent)]
      exact ih more next

/-! ## Landing blocks -/

namespace Procedure.Landing

variable (landing : p.Landing q taken source target slot) (wf : p.WellFormed)
  (apart : taken = false → (p.block source).cond ≠ some target)

include landing

private theorem insts (lt : b < p.blocks.size) :
    (q.block b).insts.map Inst.unbranched = (p.block b).insts.map Inst.unbranched := by
  by_cases isSource : b = source
  · obtain ⟨front, op, left, right, label, label', old, new, -⟩ := landing.last
    rw [isSource, old, new, map_append, map_append]
    rfl
  · rw [(landing.other b lt isSource).1]

include wf in
theorem insideTarget : target < p.blocks.size := (wf.inside source target landing.isEdge).1

include wf in
theorem count_source :
    (p.block target).preds.count source = (p.block source).succs.count target := by
  rw [(wf.preds target (landing.insideTarget wf)).count_eq, FlowGraph.count_predsOf]
  rfl

include wf apart in
/-- The landing block has the place of the edge that it is on. -/
theorem slot_eq : slotFrom (p.block target) source taken = slot ∧
    slotFrom (q.block target) p.blocks.size false = slot := by
  have insideTarget := landing.insideTarget wf
  have isSource := landing.pred_slot
  constructor
  · cases taken with
    | true => exact (findIdx?_eq_some_iff_findIdx_eq.mp landing.isSlot).2
    | false =>
      have isDirect : (p.block source).direct = some target := landing.edge
      have noCond : (p.block source).cond.toList.count target = 0 :=
        count_eq_zero.mpr fun mem => apart rfl (Option.mem_toList.mp mem)
      refine eq_of_count ?_ (slotFrom_spec (mem_of_getElem? isSource) false) isSource
      rw [landing.count_source wf, Block.succs, isDirect, count_append, noCond]
      simp
  · have preds := landing.preds target insideTarget
    rw [if_pos rfl] at preds
    have lt := (List.getElem?_eq_some_iff.mp isSource).1
    have isNew : (q.block target).preds[slot]? = some p.blocks.size := by
      rw [preds, getElem?_set_self lt]
    have found := slotFrom_spec (mem_of_getElem? isNew) false
    generalize slotFrom (q.block target) p.blocks.size false = k at found
    rw [preds, getElem?_set] at found
    split at found
    · rename_i same
      exact same.symm
    · exact absurd (wf.lt_of_mem_preds insideTarget (mem_of_getElem? found)) (Nat.lt_irrefl _)

include wf apart in
private theorem slot_other (edge : exit? (p.block b) way = some c)
    (other : ¬(b = source ∧ way = taken)) :
    slotFrom (q.block c) b way = slotFrom (p.block c) b way := by
  have isEdge := mem_succs_of_exit edge
  have lt := lt_size_of_mem_succs isEdge
  have inside := (wf.inside b c isEdge).1
  have preds := landing.preds c inside
  by_cases isTarget : c = target
  · subst isTarget
    rw [if_pos rfl] at preds
    by_cases isSource : b = source
    · subst isSource
      -- Both edges lead to the target, and it is the taken one that is split.
      cases taken with
      | false =>
        cases way with
        | false => exact absurd ⟨rfl, rfl⟩ other
        | true => exact absurd edge (apart rfl)
      | true =>
        cases way with
        | true => exact absurd ⟨rfl, rfl⟩ other
        | false =>
          have isCond : (p.block b).cond = some c := landing.edge
          have isDirect : (p.block b).direct = some c := edge
          have twice : (p.block c).preds.count b = 2 := by
            rw [landing.count_source wf, Block.succs, isCond, isDirect]
            simp
          have apartSlots := slotFrom_ne (Nat.le_of_eq twice.symm)
          rw [(landing.slot_eq wf apart).1] at apartSlots
          have found := slotFrom_spec (mem_of_getElem? landing.pred_slot) false
          have kept : (q.block c).preds[slotFrom (p.block c) b false]? = some b := by
            rw [preds, getElem?_set_ne apartSlots, found]
          have once := landing.count_preds inside b
          simp only [and_self, if_true, Nat.ne_of_lt lt, false_and, if_false] at once
          exact eq_of_count (by omega) (slotFrom_spec (mem_of_getElem? kept) false) kept
    · refine slotFrom_congr (ext_getElem? fun k => ?_) way
      rw [preds, getElem?_map, getElem?_map, getElem?_set]
      split
      · rename_i same
        obtain ⟨atSlot, isAt⟩ := List.getElem?_eq_some_iff.mp landing.pred_slot
        subst same
        simp [atSlot, isAt, Ne.symm isSource, Nat.ne_of_gt lt]
      · rfl
  · rw [if_neg isTarget] at preds
    rw [slotFrom, slotFrom, preds]

end Procedure.Landing

namespace Procedure

/-- An edge is kept, or it leads through a new block. On either way the target is entered by its
place. -/
def Leads (p q : Procedure) (b : BlockId) (way : Bool) (c : BlockId) : Prop :=
  exit? (q.block b) way = some c ∧ slotFrom (q.block c) b way = slotFrom (p.block c) b way ∨
    ∃ n, p.blocks.size ≤ n ∧ n < q.blocks.size ∧ exit? (q.block b) way = some n ∧
      exit? (q.block n) false = some c ∧ slotFrom (q.block c) n false = slotFrom (p.block c) b way

/-- What splitting leaves as it is, and what it adds. -/
structure Split (p q : Procedure) : Prop where
  sameVars : p.SameVars q
  size : p.blocks.size ≤ q.blocks.size
  insts : ∀ b < p.blocks.size, (q.block b).insts.map Inst.unbranched =
    (p.block b).insts.map Inst.unbranched
  /-- New blocks are one jump, with one predecessor. -/
  landing : ∀ c < q.blocks.size, p.blocks.size ≤ c → ∃ label source,
    (q.block c).insts = [.jump label] ∧ (q.block c).preds = [source] ∧ source < p.blocks.size
  length : ∀ b < p.blocks.size, (q.block b).preds.length = (p.block b).preds.length
  /-- Each predecessor is the one before, or a new block behind it. -/
  preds : ∀ b < p.blocks.size, ∀ (k : Nat) pred, (q.block b).preds[k]? = some pred →
    ∃ old, (p.block b).preds[k]? = some old ∧
      (pred = old ∨ p.blocks.size ≤ pred ∧ pred < q.blocks.size ∧ (q.block pred).preds = [old])
  edges : ∀ b way c, exit? (p.block b) way = some c → p.Leads q b way c
  ends : ∀ b < p.blocks.size, ∀ way, exit? (p.block b) way = none → exit? (q.block b) way = none

theorem Split.refl (p : Procedure) : p.Split p :=
  ⟨⟨rfl, rfl, rfl⟩, Nat.le_refl _, fun _ _ => rfl,
    fun _ lt beyond => absurd lt (Nat.not_lt.mpr beyond),
    fun _ _ => rfl, fun _ _ _ pred isPred => ⟨pred, isPred, .inl rfl⟩,
    fun _ _ _ edge => .inl ⟨edge, rfl⟩, fun _ _ _ => id⟩

/-- One more landing block, between old blocks. -/
theorem Split.step (split : p.Split q) (wf : q.WellFormed)
    (landing : q.Landing r taken source target slot)
    (inside : source < p.blocks.size ∧ target < p.blocks.size)
    (apart : taken = false → (q.block source).cond ≠ some target) : p.Split r := by
  obtain ⟨label, block⟩ := landing.landing
  have old {b : BlockId} (lt : b < p.blocks.size) : b < q.blocks.size :=
    Nat.lt_of_lt_of_le lt split.size
  have exits {b : BlockId} {way : Bool} (lt : b < q.blocks.size)
      (other : ¬(b = source ∧ way = taken)) :
      exit? (r.block b) way = exit? (q.block b) way :=
      landing.splits.other b lt way (not_and_or.mp other)
  have keeps {c : BlockId} (lt : c < q.blocks.size) (beyond : p.blocks.size ≤ c) :
      (r.block c).insts = (q.block c).insts ∧ (r.block c).preds = (q.block c).preds := by
    have notSource : c ≠ source := fun same => Nat.not_lt.mpr beyond (same ▸ inside.1)
    have notTarget : c ≠ target := fun same => Nat.not_lt.mpr beyond (same ▸ inside.2)
    exact ⟨(landing.other c lt notSource).1, (landing.preds c lt).trans (if_neg notTarget)⟩
  refine ⟨split.sameVars.trans landing.sameVars, Nat.le_trans split.size landing.splits.size,
    fun b lt => ?_, fun c lt beyond => ?_, fun b lt => ?_, fun b lt k pred isPred => ?_,
    fun b way c edge => ?_, fun b lt way none => ?_⟩
  · rw [landing.insts (old lt), split.insts b lt]
  · rcases landing.lt_or_eq lt with isOld | rfl
    · obtain ⟨insts, preds⟩ := keeps isOld beyond
      rw [insts, preds]
      exact split.landing c isOld beyond
    · rw [block]
      exact ⟨_, source, rfl, rfl, inside.1⟩
  · exact (landing.splits.preds b (old lt)).trans (split.length b lt)
  · obtain ⟨mid, isMid, same⟩ := landing.pred_cases (old lt) isPred
    obtain ⟨first, isFirst, known⟩ := split.preds b lt k mid isMid
    refine ⟨first, isFirst, ?_⟩
    rcases same with rfl | ⟨rfl, rfl⟩
    · refine known.imp_right fun ⟨beyond, lt, preds⟩ =>
        ⟨beyond, ?_, (keeps lt beyond).2.trans preds⟩
      exact Nat.lt_of_lt_of_le lt landing.splits.size
    · rcases known with rfl | ⟨beyond, -⟩
      · exact .inr ⟨split.size, landing.size ▸ Nat.lt_succ_self _, by rw [block]⟩
      · exact absurd inside.1 (Nat.not_lt.mpr beyond)
  · have lt := lt_size_of_mem_succs (mem_succs_of_exit edge)
    rcases split.edges b way c edge with ⟨kept, slots⟩ | ⟨n, beyond, isNew, first, second, slots⟩
    · by_cases isSplit : b = source ∧ way = taken
      · obtain ⟨rfl, rfl⟩ := isSplit
        obtain rfl := Option.some.inj (landing.edge.symm.trans kept)
        obtain ⟨before, after⟩ := landing.slot_eq wf apart
        exact .inr ⟨q.blocks.size, split.size, landing.size ▸ Nat.lt_succ_self _,
          (landing.exits way).trans (if_pos rfl), by
          rw [block]; rfl, by rw [after, ← slots, before]⟩
      · exact .inl ⟨(exits (old lt) isSplit).trans kept,
          (landing.slot_other wf apart kept isSplit).trans slots⟩
    · have notSplit : ¬(b = source ∧ way = taken) := by
        rintro ⟨rfl, rfl⟩
        obtain rfl := Option.some.inj (landing.edge.symm.trans first)
        exact absurd inside.2 (Nat.not_lt.mpr beyond)
      have notSource : ¬(n = source ∧ false = taken) := fun both =>
        absurd (both.1 ▸ inside.1) (Nat.not_lt.mpr beyond)
      exact .inr ⟨n, beyond, Nat.lt_of_lt_of_le isNew landing.splits.size,
        (exits (old lt) notSplit).trans first, (exits isNew notSource).trans second,
        (landing.slot_other wf apart second notSource).trans slots⟩
  · have notSplit : ¬(b = source ∧ way = taken) := by
      rintro ⟨rfl, rfl⟩
      exact Option.some_ne_none _ (landing.edge.symm.trans (split.ends b lt way none))
    exact (exits (old lt) notSplit).trans (split.ends b lt way none)

private theorem Landings.split (landings : p.Landings q) (cert : p.Certified assigned) :
    p.Split q := by
  induction landings with
  | refl => exact .refl p
  | step before landing lt apart ih =>
    exact ih.step (before.certified cert).wf landing lt apart

private theorem Split.installOrders (split : p.Split q) (walk : Walk) :
    p.Split (q.installOrders walk) := by
  have same := q.sameEdges_installOrders walk
  have insts (b : BlockId) : ((q.installOrders walk).block b).insts = (q.block b).insts := by
    obtain ⟨n, same⟩ := q.block_installOrders walk b
    rw [same]
  have exits (b : BlockId) (way : Bool) :
      exit? ((q.installOrders walk).block b) way = exit? (q.block b) way := by
    rw [exit?, exit?, same.cond, same.direct]
  have slots (c b : BlockId) (way : Bool) :
      slotFrom ((q.installOrders walk).block c) b way = slotFrom (q.block c) b way := by
    rw [slotFrom, slotFrom, same.preds]
  refine ⟨split.sameVars.trans ⟨rfl, rfl, rfl⟩, ?_, ?_, ?_, ?_, ?_, ?_, ?_⟩ <;>
    simp only [Leads, same.size, insts, same.preds, exits, slots]
  exacts [split.size, split.insts, split.landing, split.length, split.preds, split.edges,
    split.ends]

/-! ## Runs -/

/-- The same point of both procedures. -/
structure Aligned (p : Procedure) (s s' : State) : Prop where
  inside : s.block < p.blocks.size
  block : s'.block = s.block
  rest : s'.rest.map Inst.unbranched = s.rest.map Inst.unbranched
  store : s'.store = s.store

/-- The second run is at the same point as the first, or will be after the jump of a new block. -/
def Arrives (literal : String → Int32) (p q : Procedure) (s s' : State) : Prop :=
  p.Aligned s s' ∨ p.blocks.size ≤ s'.block ∧
    ∃ t, (∀ answer, step literal q answer s' = some ((s'.block, .jump), t)) ∧ p.Aligned s t

section Runs

variable (split : p.Split q) (wf : p.WellFormed)

include split

theorem aligned_body (lt : b < p.blocks.size) : (q.block b).phis = (p.block b).phis ∧
    (q.block b).body.map Inst.unbranched = (p.block b).body.map Inst.unbranched := by
  have unchanged (insts : List Inst) : leadingPhis (insts.map Inst.unbranched) =
      leadingPhis insts := by
    induction insts with
    | nil => rfl
    | cons i rest ih =>
      cases i with
      | phi node => exact congrArg (node :: ·) ih
      | _ => rfl
  have phis : (q.block b).phis = (p.block b).phis := by
    rw [Block.phis, ← unchanged, split.insts b lt, unchanged]
    rfl
  refine ⟨phis, ?_⟩
  rw [Block.body, Block.body, phis, map_drop, map_drop, split.insts b lt]

include wf

/-- Along every edge the same block is entered with the same words. -/
theorem arrives_enter (edge : exit? (p.block b) way = some c) (store : Store) :
    ∃ c', exit? (q.block b) way = some c' ∧
      Arrives literal p q (enter p b way store c) (enter q b way store c') := by
  have lt := (wf.inside b c (mem_succs_of_exit edge)).1
  obtain ⟨phis, body⟩ := aligned_body split lt
  have aligned {b' : BlockId} {way' : Bool} (slots : slotFrom (q.block c) b' way' =
      slotFrom (p.block c) b way) : p.Aligned (enter p b way store c) (enter q b' way' store c) :=
    ⟨lt, rfl, body, by rw [enter, enter, phis, slots]⟩
  rcases split.edges b way c edge with ⟨kept, slots⟩ | ⟨n, beyond, isNew, first, second, slots⟩
  · exact ⟨c, kept, .inl (aligned slots)⟩
  · obtain ⟨label, source, insts, -⟩ := split.landing n isNew beyond
    have isState : enter q b way store n = ⟨n, [.jump label], store⟩ := by
      rw [enter, Block.body, Block.phis, insts]
      rfl
    refine ⟨n, first, .inr ⟨beyond, enter q n false store c, fun answer => ?_, aligned slots⟩⟩
    rw [isState]
    refine step_eq_some.mpr ⟨.jump label, [], store, .jump, rfl, rfl, ?_, rfl⟩
    rw [follow_leaves rfl, second]
    rfl

theorem step_related (literal : String → Int32) (aligned : p.Aligned s s') (answer : Int32) :
    Option.Rel (fun x y => y.1 = x.1 ∧ Arrives literal p q x.2 y.2) (step literal p answer s)
      (step literal q answer s') := by
  have vars := split.sameVars.vars
  obtain ⟨settled, sameStore⟩ := settle_unbranched vars aligned.rest s.store
  rw [step, step, aligned.block, aligned.store]
  generalize settle p s.rest s.store = before at settled sameStore
  generalize settle q s'.rest s.store = after at settled sameStore
  obtain ⟨insts, store⟩ := before
  obtain ⟨insts', store'⟩ := after
  obtain rfl : store' = store := sameStore
  dsimp only at settled ⊢
  cases insts with
  | nil =>
    obtain rfl := map_eq_nil_iff.mp settled
    exact .none
  | cons i rest =>
    obtain ⟨j, rest', rfl, first, more⟩ := map_eq_cons_iff.mp settled
    dsimp only
    rw [Control.observe_of_unaimed vars (Inst.unaimed_of_unbranched first)]
    cases observe literal p answer store'.env i with
    | none => exact .none
    | some event =>
      simp only [Option.bind_eq_bind, Option.bind_some]
      cases leaves : event.leaves? with
      | none =>
        rw [follow_stays leaves, follow_stays leaves,
          Inst.defs_of_unaimed (Inst.unaimed_of_unbranched first)]
        exact .some ⟨rfl, .inl ⟨aligned.inside, rfl, more, rfl⟩⟩
      | some way =>
        rw [follow_leaves leaves, follow_leaves leaves]
        cases edge : exit? (p.block s.block) way with
        | none =>
          rw [split.ends _ aligned.inside way edge]
          exact .none
        | some c =>
          obtain ⟨c', isExit, arrives⟩ := arrives_enter split wf edge store'
          rw [isExit]
          exact .some ⟨rfl, arrives⟩

/-- Each run has one that also stops by at new blocks. -/
theorem run_forward {trace : List (BlockId × Event)}
    (arrives : Arrives literal p q s s') (ran : run literal p answers s = some (trace, final)) :
    ∃ answers' trace' final', run literal q answers' s' = some (trace', final') ∧
      trace'.filter (·.1 < p.blocks.size) = trace ∧ p.Aligned final final' := by
  induction answers generalizing s s' trace with
  | nil =>
    obtain ⟨rfl, rfl⟩ := Prod.mk.inj (Option.some.inj ran)
    rcases arrives with aligned | ⟨beyond, t, jumps, aligned⟩
    · exact ⟨[], [], s', rfl, rfl, aligned⟩
    · exact ⟨[0], [(s'.block, .jump)], t,
        run_cons.mpr ⟨_, _, _, jumps 0, rfl, rfl⟩, by simp [beyond], aligned⟩
  | cons answer answers ih =>
    obtain ⟨entry, t, rest, stepped, more, rfl⟩ := run_cons.mp ran
    have ahead {s' : State} (aligned : p.Aligned s s') : ∃ answers' trace' final',
        run literal q answers' s' = some (trace', final') ∧
          trace'.filter (·.1 < p.blocks.size) = entry :: rest ∧ p.Aligned final final' := by
      have related := step_related split wf literal aligned answer
      generalize isStep : step literal q answer s' = result at related
      obtain ⟨i, later, store, event, -, -, -, rfl⟩ := step_eq_some.mp stepped
      rw [stepped] at related
      cases related with
      | some both =>
        obtain ⟨same, arrives⟩ := both
        obtain ⟨answers', trace', final', ran', isTrace, finally_⟩ := ih arrives more
        refine ⟨answer :: answers', _, final', run_cons.mpr ⟨_, _, _, isStep, ran', rfl⟩, ?_,
          finally_⟩
        rw [same, filter_cons_of_pos (by simpa using aligned.inside), isTrace]
    rcases arrives with aligned | ⟨beyond, t', jumps, aligned⟩
    · exact ahead aligned
    · obtain ⟨answers', trace', final', ran', isTrace, finally_⟩ := ahead aligned
      refine ⟨0 :: answers', _, final', run_cons.mpr ⟨_, _, _, jumps 0, ran', rfl⟩, ?_, finally_⟩
      rw [filter_cons_of_neg (by simpa using beyond), isTrace]

/-- Each run is one of the procedure before, but for new blocks. -/
theorem run_backward {trace : List (BlockId × Event)}
    (arrives : Arrives literal p q s s') (ran : run literal q answers s' = some (trace, final)) :
    ∃ answers' final', run literal p answers' s =
      some (trace.filter (·.1 < p.blocks.size), final') ∧ Arrives literal p q final' final := by
  induction answers generalizing s s' trace with
  | nil =>
    obtain ⟨rfl, rfl⟩ := Prod.mk.inj (Option.some.inj ran)
    exact ⟨[], s, rfl, arrives⟩
  | cons answer answers ih =>
    obtain ⟨entry, t, rest, stepped, more, rfl⟩ := run_cons.mp ran
    rcases arrives with aligned | ⟨beyond, t', jumps, aligned⟩
    · have related := step_related split wf literal aligned answer
      generalize isStep : step literal p answer s = result at related
      obtain ⟨i, later, store, event, -, -, -, rfl⟩ := step_eq_some.mp stepped
      rw [stepped] at related
      cases related with
      | some both =>
        obtain ⟨same, arrives⟩ := both
        obtain ⟨answers', final', ran', finally_⟩ := ih arrives more
        refine ⟨answer :: answers', final', run_cons.mpr ⟨_, _, _, isStep, ran', ?_⟩, finally_⟩
        rw [filter_cons_of_pos (by simpa [aligned.block] using aligned.inside)]
        exact congrArg (· :: _) same
    · obtain ⟨rfl, rfl⟩ := Prod.mk.inj (Option.some.inj ((jumps answer).symm.trans stepped))
      rw [filter_cons_of_neg (by simpa using beyond)]
      exact ih (.inl aligned) more

end Runs

/-- The second procedure has the runs of the first, with stops at blocks that only it has. -/
structure SameRuns (p q : Procedure) : Prop where
  forward : ∀ literal args answers trace final, run literal p answers (start p args) =
    some (trace, final) →
    ∃ answers' trace' final', run literal q answers' (start q args) = some (trace', final') ∧
      trace'.filter (·.1 < p.blocks.size) = trace ∧ final'.block = final.block ∧
      final'.store = final.store
  backward : ∀ literal args answers trace final, run literal q answers (start q args) =
    some (trace, final) →
    ∃ answers' final', run literal p answers' (start p args) =
      some (trace.filter (·.1 < p.blocks.size), final') ∧
      (final.block < p.blocks.size → final'.block = final.block ∧ final'.store = final.store)

private theorem Split.sameRuns (split : p.Split q) (wf : p.WellFormed) : p.SameRuns q := by
  have aligned (args : List Int32) : p.Aligned (start p args) (start q args) := by
    have passed : passed q args = passed p args := by
      unfold passed
      rw [split.sameVars.args]
    exact ⟨wf.nonempty, rfl, (aligned_body split wf.nonempty).2, congrArg (Store.mk · _) passed⟩
  refine ⟨fun literal args answers trace final ran => ?_,
    fun literal args answers trace final ran => ?_⟩
  · obtain ⟨answers', trace', final', ran', isTrace, last⟩ :=
      run_forward split wf (.inl (aligned args)) ran
    exact ⟨answers', trace', final', ran', isTrace, last.block, last.store⟩
  · obtain ⟨answers', final', ran', last⟩ := run_backward split wf (.inl (aligned args)) ran
    refine ⟨answers', final', ran', fun below => ?_⟩
    obtain ⟨-, block, -, store⟩ := last.resolve_right fun isNew => Nat.not_lt.mpr isNew.1 below
    exact ⟨block.symm, store.symm⟩

/-! ## Orders -/

private theorem Landing.path (landing : p.Landing q taken source target slot) {seen : List BlockId}
    (path : p.Path seen b) : ∃ seen, q.Path seen b := by
  induction path with
  | start => exact ⟨_, .start⟩
  | @extend _ a b _ edge ih =>
    obtain ⟨seen, path⟩ := ih
    obtain ⟨way, isExit⟩ := mem_succs_iff.mp edge
    by_cases isSplit : a = source ∧ way = taken
    · obtain ⟨rfl, rfl⟩ := isSplit
      obtain rfl := Option.some.inj (landing.edge.symm.trans isExit)
      have first := path.extend (mem_succs_of_exit ((landing.exits way).trans (if_pos rfl)))
      exact ⟨_, first.extend (by rw [landing.succs_landing]; exact mem_cons_self)⟩
    · have kept := landing.splits.other a (lt_size_of_mem_succs edge) way (not_and_or.mp isSplit)
      exact ⟨_, path.extend (mem_succs_of_exit (kept.trans isExit))⟩

private theorem Landings.path (landings : p.Landings q)
    (reached : ∀ b < p.blocks.size, ∃ seen, p.Path seen b) :
    ∀ b < q.blocks.size, ∃ seen, q.Path seen b := by
  induction landings with
  | refl => exact reached
  | step before landing inside apart ih =>
    intro b lt
    rcases landing.lt_or_eq lt with old | rfl
    · obtain ⟨seen, path⟩ := ih b old
      exact landing.path path
    · obtain ⟨seen, path⟩ := ih _ (lt_size_of_mem_succs landing.isEdge)
      obtain ⟨seen, path⟩ := landing.path path
      exact ⟨_, path.extend (mem_succs_of_exit ((landing.exits _).trans (if_pos rfl)))⟩

/-- Orders are found where all blocks are reached. -/
theorem recomputeOrders_of_path (wf : p.WellFormed)
    (reached : ∀ b < p.blocks.size, ∃ seen, p.Path seen b) :
    p.recomputeOrders = .ok (p.installOrders p.walk) := by
  have complete := complete_walk wf.nonempty fun b s edge => (wf.inside b s edge).1
  have seen : ∀ {seen b}, p.Path seen b → b ∈ p.walk.postorder := by
    intro seen b path
    induction path with
    | start =>
      obtain ⟨rest, isFirst⟩ := complete.first
      exact mem_reverse.mp (isFirst ▸ mem_cons_self)
    | extend path edge ih => exact complete.closed _ ih _ edge
  have none : p.blockIds.find? (!p.walk.preorder.contains ·) = none := by
    refine find?_eq_none.mpr fun b lt => ?_
    obtain ⟨_, path⟩ := reached b (mem_blockIds.mp lt)
    simpa using complete.perm.mem_iff.mpr (seen path)
  rw [recomputeOrders, none]

/-- Without critical edges there is nothing to split. -/
theorem Uncritical.splitCriticalEdges (uncritical : p.Uncritical) :
    p.splitCriticalEdges = .ok (p, 0) := by
  have each (b : BlockId) : p.splitEdgesOf b = p := by
    unfold splitEdgesOf
    split
    · rename_i direct cond isDirect isCond
      have few := uncritical b (by rw [isCond]; rfl)
      simp only [Block.succs, isDirect, isCond, Option.toList_some, singleton_append,
        forall_mem_cons] at few
      simp [splitExit, few.1, few.2]
    · rfl
  have all (blocks : List BlockId) : blocks.foldl splitEdgesOf p = p := by
    induction blocks with
    | nil => rfl
    | cons b blocks ih => rw [foldl_cons, each, ih]
  simp [Procedure.splitCriticalEdges, all]
  rfl

private theorem exists_splitCriticalEdges (cert : p.Certified assigned) (ordered : p.Ordered) :
    ∃ q count, p.splitCriticalEdges = .ok (q, count) ∧ q.blocks.size = p.blocks.size + count ∧
      p.Split q := by
  obtain ⟨landings, -⟩ := landings_blockIds cert
  have wf := (landings.certified cert).wf
  have split := landings.split cert
  have done := recomputeOrders_of_path wf (landings.path fun b lt => ordered.exists_path lt)
  unfold Procedure.splitCriticalEdges
  dsimp only
  generalize p.blockIds.foldl splitEdgesOf p = r at *
  split
  · exact ⟨p, 0, rfl, rfl, .refl p⟩
  · rw [done]
    refine ⟨_, _, rfl, ?_, split.installOrders _⟩
    rw [size_installOrders, Nat.add_sub_cancel' split.size]

end Procedure

/-- Splitting the critical edges of a procedure of a text succeeds and leaves none. Blocks keep
their numbers and their instructions but for where they branch, phis keep their arguments by edge,
and runs visit the same blocks with the same words. Something is split if there are critical edges,
and nothing the second time. -/
theorem Work.exact_edgeSplitting {text : String} {program : Program} {p : Procedure}
    (read : Program.ofText text = .ok program) (mem : p ∈ program.procedures) {config : Config}
    {stats : Statistics} {w : Work}
    (ok : [Pass.flowGraph, .dominance, .ssa].foldlM (Work.run config) (Work.start p stats) =
      .ok w) :
    ∃ q count, w.proc.splitCriticalEdges = .ok (q, count) ∧
      w.splitEdges =
        .ok { w with proc := q, stats := w.stats.recordEdgesSplit count, added := count } ∧
      q.Uncritical ∧ w.proc.Split q ∧ w.proc.SameRuns q ∧
      q.blocks.size = w.proc.blocks.size + count ∧
      (0 < count ↔ ¬w.proc.Uncritical) ∧ q.splitCriticalEdges = .ok (q, 0) := by
  obtain ⟨cert, ordered, -⟩ := Work.after_take (k := 2) (Program.linear_of_ofText read p mem) rfl ok
  obtain ⟨q, count, done, size, split⟩ := exists_splitCriticalEdges cert ordered
  obtain ⟨-, -, uncritical, unsplit⟩ := certified_splitCriticalEdges cert ordered done
  refine ⟨q, count, done, by rw [splitEdges, done]; rfl, uncritical, split,
    split.sameRuns cert.wf, size,
    ⟨fun some none => ?_, fun critical => Nat.pos_of_ne_zero
      fun none => critical (unsplit none ▸ uncritical)⟩,
    uncritical.splitCriticalEdges⟩
  obtain ⟨-, rfl⟩ := Prod.mk.inj (Except.ok.inj (none.splitCriticalEdges.symm.trans done))
  exact Nat.lt_irrefl 0 some

theorem Work.exact_edgeSplitting_count : ∃ program p w q,
    Program.ofText Program.countText = .ok program ∧ p ∈ program.procedures ∧
      [Pass.flowGraph, .dominance, .ssa].foldlM (Work.run .standard) (Work.start p .zero) = .ok w ∧
      w.proc.splitCriticalEdges = .ok (q, 1) ∧ q.Uncritical ∧ ¬w.proc.Uncritical ∧
      w.proc.SameRuns q := by
  have evaluated : ((Program.ofText Program.countText).toOption.bind fun program =>
      program.procedures.head?.bind fun p =>
        ([Pass.flowGraph, .dominance, .ssa].foldlM (Work.run .standard)
          (Work.start p .zero)).toOption.bind fun w =>
            w.proc.splitCriticalEdges.toOption.map (·.2)) = some 1 := by
    decide +kernel
  obtain ⟨program, p, isRead, mem, evaluated⟩ := Program.exists_of_first evaluated
  obtain ⟨w, isRan, split⟩ := Tables.exists_ok_of_bind evaluated
  obtain ⟨q, count, done, -, uncritical, -, runs, -, critical, -⟩ :=
    Work.exact_edgeSplitting isRead mem isRan
  rw [done] at split
  obtain rfl : count = 1 := Option.some.inj split
  exact ⟨program, p, w, q, isRead, mem, isRan, done, uncritical, critical.mp Nat.one_pos, runs⟩

end ArmBackend
