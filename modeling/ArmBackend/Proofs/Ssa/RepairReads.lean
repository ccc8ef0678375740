import ArmBackend.Proofs.Ssa.Occurrences
import ArmBackend.Proofs.Ssa.RepairStep

/-!
Contract: runs of repaired procedures.

A repaired procedure runs exactly as the procedure before, through the same blocks and with the same
words observed. Its reloads read the same words, each into a variable that stands for the one that
was reloaded before. At each instruction of a run, silent ones included, what stands in the place of
the variable under repair holds the word that the variable holds there. The same is true of the
arguments of phis on each edge that a run takes.

Owns: that neither procedure gets further than the other, for one repair and for a list of them, and
the words that reads find.
-/

namespace ArmBackend

open List Procedure Machine

namespace Repair

variable {q q' : Procedure} {s : Scope} {heads : BlockId → Option Phi} {tails : BlockId → List Inst}

/-! ## Runs -/

/-- States at the same point of both procedures. -/
structure Related (q q' : Procedure) (s : Scope) (heads : BlockId → Option Phi)
    (tails : BlockId → List Inst) (state state' : State) : Prop where
  block : state'.block = state.block
  within : state.block < q.blocks.size
  suffix_ : state.rest <:+ (q.block state.block).insts
  point : Point q q' s heads tails state.block state.rest state'.rest state.store state'.store

private theorem Related.exit?_eq {state state' : State} (repaired : Repaired q q' s heads tails)
    (related : Related q q' s heads tails state state') (taken : Bool) :
    exit? (q'.block state'.block) taken = exit? (q.block state.block) taken := by
  unfold exit?
  rw [related.block, repaired.graph.cond, repaired.graph.direct]

section Steps

variable (repaired : Repaired q q' s heads tails) (wf : q.WellFormed) (bounded : q.Bounded)
  (distinct : ∀ b < q.blocks.size, ((q.block b).phis.map Phi.dst).Nodup)
include repaired wf bounded distinct

private theorem Related.step {literal : String → Int32} {answer : Int32} {state state' t : State}
    {entry : BlockId × Event} (related : Related q q' s heads tails state state')
    (stepped : step literal q answer state = some (entry, t)) :
    ∃ t', Machine.step literal q' answer state' = some (entry, t') ∧
      Related q q' s heads tails t t' := by
  obtain ⟨i, rest, store, event, settled, observed, followed, rfl⟩ := step_eq_some.mp stepped
  have point := (related.point.settle repaired).1
  have suffix_ := (settle_suffix (p := q) state.rest state.store).trans related.suffix_
  rw [settled] at point suffix_
  obtain ⟨j, rest', isRest, observed', point', atEnd⟩ :=
    point.visible repaired (silent?_eq_none_of_observe observed) observed
  have settled' : Machine.settle q' state'.rest state'.store =
      (j :: rest', (Machine.settle q' state'.rest state'.store).2) := by rw [← isRest]
  generalize (Machine.settle q' state'.rest state'.store).2 =
    store' at settled' observed' point' atEnd
  cases leaves : event.leaves? with
  | none =>
    rw [follow_stays leaves, Option.some.injEq] at followed
    subst followed
    exact ⟨_, step_eq_some.mpr ⟨j, rest', store', event, settled', observed', follow_stays leaves,
        congrArg (·, event) related.block.symm⟩,
      related.block, related.within, (suffix_cons i rest).trans suffix_, point'⟩
  | some taken =>
    rw [follow_leaves leaves] at followed
    obtain ⟨c, isExit, rfl⟩ := Option.map_eq_some_iff.mp followed
    obtain ⟨shape⟩ := wf.shape _ related.within
    have isLast := isTerminator_of_leaves observed leaves
    obtain ⟨done, split⟩ := suffix_
    have noRest : rest = [] := shape.eq_nil_of_isTerminator split.symm isLast
    have noDefs := Inst.defs_of_isTerminator isLast
    have edge := mem_succs_of_exit isExit
    have lt := (wf.inside _ c edge).1
    have followed' : follow q' state'.block store' j rest' event =
        some (Machine.enter q' state'.block taken store' c) := by
      rw [follow_leaves leaves, related.exit?_eq repaired, isExit]
      rfl
    refine ⟨_, step_eq_some.mpr ⟨j, rest', store', event, settled', observed', followed',
      congrArg (·, event) related.block.symm⟩, rfl, lt, ⟨_, (Block.insts_eq _).symm⟩, ?_⟩
    rw [related.block]
    exact ((atEnd noRest noDefs).enter repaired wf bounded (distinct c lt) edge taken).1

end Steps

private theorem Related.start (repaired : Repaired q q' s heads tails) (wf : q.WellFormed)
    (bounded : q.Bounded) (noPhis : (q.block entry).phis = []) (registers : Nat)
    (args : List Int32) :
    Related q q' s heads tails (startWith registers q args) (startWith registers q' args) := by
  obtain ⟨shape⟩ := wf.shape entry wf.nonempty
  have lt' : entry < q'.blocks.size := repaired.graph.size ▸ wf.nonempty
  have isBody : (q.block entry).insts = (q.block entry).body := by
    rw [Block.insts_eq, noPhis, map_nil, nil_append]
  have lines := repaired.lines entry wf.nonempty
  rw [repaired.atEntry.1, isBody] at lines
  have insts' : (q'.block entry).insts = ([] : List Phi).map Inst.phi ++ tails entry := by
    rw [repaired.insts entry wf.nonempty, code, repaired.atEntry.1]
    rfl
  have noPhi := lines.isPhi shape.isPhi_body
  have isBody' := (Block.phis_body_of_insts insts' noPhi).2
  have sameFind (w : WebId) {list : List VarId} (declared : ∀ a ∈ list, a < s.base) :
      list.find? (fun a => q'.web? a == some w) = list.find? (fun a => q.web? a == some w) := by
    refine find?_congr fun a mem => ?_
    rw [Procedure.web?, repaired.old a (declared a mem)]
    rfl
  have sameStore : (startWith registers q' args).store = (startWith registers q args).store := by
    unfold startWith passed
    dsimp only
    rw [repaired.args]
    congr 1
    funext w
    rw [sameFind w fun a mem => repaired.base ▸ bounded.args a (mem_of_mem_drop mem)]
  refine ⟨rfl, wf.nonempty, ⟨_, (Block.insts_eq _).symm⟩, fun i mem => ?_, fun j mem => ?_,
    none, ?_, ?_, fun _ isHead => absurd isHead (Option.some_ne_none _).symm, ?_⟩
  · rw [repaired.base]
    exact bounded.inside wf.nonempty (isBody ▸ mem) (shape.isPhi_body i mem)
  · have inTail : j ∈ tails entry := isBody' ▸ mem
    exact repaired.bounded.inside lt' (insts' ▸ mem_append_right _ inTail) (noPhi j inTail)
  · change Lines q s _ entry none (q.block entry).body (q'.block entry).body
    rw [isBody']
    exact lines
  · change (s.last (q'.block entry).body).or none = s.ends heads tails entry
    rw [isBody', Option.or_none, Scope.ends, code, repaired.atEntry.1]
    rfl
  · rw [sameStore]
    refine ⟨fun _ _ _ => rfl, fun x reaches => ?_, rfl⟩
    rw [repaired.atEntry.2 x reaches]

end Repair

namespace Machine

variable {literal : String → Int32} {p q : Procedure}
variable {insts rest : List Inst} {store : Store}

/-- Silent instructions lead from one point of a block to another. -/
inductive Passes (p : Procedure) : List Inst → Store → List Inst → Store → Prop
  | none {insts : List Inst} {store : Store} : Passes p insts store insts store
  | more {i : Inst} {rest insts : List Inst} {store next final : Store}
      (silent : silent? p store i = some next) (later : Passes p rest next insts final) :
      Passes p (i :: rest) store insts final

private theorem Passes.isSuffix {final : Store} (passes : Passes p insts store rest final) :
    rest <:+ insts := by
  induction passes with
  | none => exact suffix_rfl
  | more _ _ ih => exact ih.trans (suffix_cons ..)

theorem silent?_of_settle {i : Inst} {store' : Store}
    (settled : settle p insts store = (i :: rest, store')) : silent? p store' i = none := by
  induction insts generalizing store with
  | nil => cases settled
  | cons j insts ih =>
    cases silent : silent? p store j with
    | some next => exact ih (settle_silent silent ▸ settled)
    | none =>
      rw [settle_visible silent] at settled
      obtain ⟨isInsts, rfl⟩ := Prod.mk.inj settled
      obtain ⟨rfl, -⟩ := List.cons.inj isInsts
      exact silent

/-- Procedures that step together, and get stuck together, run alike. -/
theorem run_trace_eq {related : State → State → Prop}
    (advance : ∀ {answer s s' entry t}, related s s' → step literal p answer s = some (entry, t) →
      ∃ t', step literal q answer s' = some (entry, t') ∧ related t t')
    (stuck : ∀ {answer s s'}, related s s' → step literal p answer s = none →
      step literal q answer s' = none)
    (answers : List Int32) {s s' : State} (start : related s s') :
    (run literal q answers s').map Prod.fst = (run literal p answers s).map Prod.fst := by
  induction answers generalizing s s' with
  | nil => rfl
  | cons answer answers ih =>
    cases stepped : step literal p answer s with
    | none =>
      rw [run, run, stepped, stuck start stepped]
      rfl
    | some next =>
      obtain ⟨t', stepped', kept⟩ := advance start stepped
      have later := ih kept
      rw [run, run, stepped, stepped']
      dsimp only [Option.bind_eq_bind, Option.bind_some]
      cases ran : run literal p answers next.2 with
      | none =>
        rw [ran, Option.map_none, Option.map_eq_none_iff] at later
        rw [later]
      | some final =>
        rw [ran, Option.map_some, Option.map_eq_some_iff] at later
        obtain ⟨final', ran', same⟩ := later
        rw [ran']
        exact congrArg (fun trace => some (next.1 :: trace)) same

end Machine

namespace Repair

variable {q q' : Procedure} {s : Scope} {heads : BlockId → Option Phi} {tails : BlockId → List Inst}
  {b : BlockId} {rest rest' : List Inst} {store store' : Store} {i : Inst}

section Points

variable (repaired : Repaired q q' s heads tails)
include repaired

/-- What the reads of an instruction find at a point: the same words under other names. -/
theorem Point.words {rest₀ : List Inst}
    (point : Point q q' s heads tails b (i :: rest) rest₀ store store') :
    ∃ j rest', rest₀ = j :: rest' ∧ rest'.length = rest.length ∧ i.Replaces s.var j ∧
      j.uses.map store'.env = i.uses.map store.env ∧
      (rest = [] → i.defs = [] → Agrees s (s.ends heads tails) b
        (s.ends heads tails b) store store') := by
  obtain ⟨lastDef, lines, -⟩ := point.here
  have sameLength := lines.length_eq
  obtain ⟨_, rest', top, k, f, rfl, rfl, rename, same⟩ := point.reads repaired
  obtain ⟨_, _, last, _, _, isSame, -, -, -, agrees, isEnd, rename', redirect, -⟩ := point.uncons
  obtain ⟨rfl, rfl⟩ := List.cons.inj isSame
  refine ⟨_, rest', rfl, Nat.succ.inj sameLength, rename'.replaces redirect, ?_,
    fun noRest noDefs => (isEnd noRest noDefs).symm ▸ agrees⟩
  rw [Inst.uses_mapUses, map_map, ← rename.uses]
  exact map_congr_left fun u isUse => (same u isUse).1

private theorem Point.passes {insts : List Inst} {final : Store}
    (point : Point q q' s heads tails b rest rest' store store')
    (passes : Passes q rest store insts final) : ∃ insts' final', Passes
      q' rest' store' insts' final' ∧ Point q q' s heads tails b insts insts' final final' := by
  induction passes generalizing rest' store' with
  | none => exact ⟨_, _, .none, point⟩
  | more silent _ ih =>
    obtain ⟨j, rest₁, next', rfl, silent', point', -⟩ := point.silent repaired silent
    obtain ⟨insts', final', later, reached⟩ := ih point'
    exact ⟨insts', final', .more silent' later, reached⟩

private theorem Related.stuck {literal : String → Int32} {answer : Int32} {state state' : State}
    (related : Related q q' s heads tails state state')
    (stuck : Machine.step literal q answer state = none) :
    Machine.step literal q' answer state' = none := by
  have point := (related.point.settle repaired).1
  generalize settled : settle q state.rest state.store = before at point
  generalize settled' : settle q' state'.rest state'.store = after at point
  obtain ⟨insts, store⟩ := before
  obtain ⟨insts', store'⟩ := after
  unfold Machine.step at stuck ⊢
  rw [settled] at stuck
  rw [settled']
  cases insts with
  | nil =>
    obtain ⟨last, ⟨_, _, ⟨⟩, ⟨⟩⟩, -⟩ := point.here
    rfl
  | cons i rest =>
    obtain ⟨j, rest', isInsts, -, observed⟩ := point.observes repaired (silent?_of_settle settled)
    dsimp only at isInsts observed stuck ⊢
    subst isInsts
    dsimp only
    rw [observed]
    cases isEvent : observe literal q answer store.env i with
    | none => rfl
    | some event =>
      rw [isEvent] at stuck
      cases leaves : event.leaves? with
      | none =>
        rw [Option.bind_eq_bind, Option.bind_some, follow_stays leaves] at stuck
        cases stuck
      | some taken =>
        rw [Option.bind_eq_bind, Option.bind_some, follow_leaves leaves] at stuck
        rw [Option.bind_eq_bind, Option.bind_some, follow_leaves leaves, related.exit?_eq repaired]
        cases isExit : exit? (q.block state.block) taken with
        | none => rfl
        | some c =>
          rw [isExit] at stuck
          cases stuck

end Points

end Repair

/-- Every run of `q` is one of `q'`, and the other way round. At each instruction of a run, what
stands in `q'` in the place of `v` holds the word of `v`, and so it is with the phis that each edge
leads to. -/
structure Procedure.ReadsAs (q q' : Procedure) (v : VarId) : Prop where
  traces : ∀ (literal : String → Int32) (registers : Nat) (args answers : List Int32),
    (Machine.run literal q' answers (Machine.startWith registers q' args)).map Prod.fst =
      (Machine.run literal q answers (Machine.startWith registers q args)).map Prod.fst
  reads : ∀ (literal : String → Int32) (registers : Nat) (args answers : List Int32)
    (trace : List (BlockId × Machine.Event)) (state : Machine.State),
    Machine.run literal q answers (Machine.startWith registers q args) = some (trace, state) →
    ∀ (i : Inst) (rest : List Inst) (store : Machine.Store),
    Machine.Passes q state.rest state.store (i :: rest) store →
      ∃ (state' : Machine.State) (j : Inst) (rest' : List Inst) (store' : Machine.Store),
        Machine.run literal q' answers (Machine.startWith registers q' args) =
          some (trace, state') ∧
        state'.block = state.block ∧ Machine.Passes q' state'.rest state'.store
        (j :: rest') store' ∧ rest'.length = rest.length ∧ i.Replaces v j ∧
        j.uses.map store'.env = i.uses.map store.env ∧
        ∀ (taken : Bool) (c : BlockId), rest = [] →
        Machine.exit? (q.block state.block) taken = some c →
          (q.block c).phis.map
          (Repair.argWord store.env (Machine.slotFrom (q.block c) state.block taken)) <:+
            (q'.block c).phis.map
            (Repair.argWord store'.env (Machine.slotFrom (q.block c) state.block taken))

/-- A repair keeps what every read finds. -/
theorem Repair.Repaired.readsAs {q q' : Procedure} {s : Scope} {heads : BlockId → Option Phi}
    {tails : BlockId → List Inst} (repaired : Repaired q q' s heads tails) (wf : q.WellFormed)
    (bounded : q.Bounded) (distinct : ∀ b < q.blocks.size, ((q.block b).phis.map Phi.dst).Nodup)
    (noPhis : (q.block entry).phis = []) : q.ReadsAs q' s.var where
  traces literal registers args answers :=
    Machine.run_trace_eq (fun related stepped => related.step repaired wf bounded distinct stepped)
      (fun related stuck => related.stuck repaired stuck) answers
      (Related.start repaired wf bounded noPhis registers args)
  reads literal registers args answers trace state ran i rest store passes := by
    obtain ⟨state', ran', related⟩ := Machine.run_simulates
      (fun related stepped => related.step repaired wf bounded distinct stepped)
      (Related.start repaired wf bounded noPhis registers args) ran
    obtain ⟨insts', store', passes', point⟩ := related.point.passes repaired passes
    obtain ⟨j, rest', rfl, length, replaces, words, atEnd⟩ := point.words repaired
    refine ⟨state', j, rest', store', ran', related.block, passes', length, replaces, words,
      fun taken c noRest isExit => ?_⟩
    have noDefs : i.defs = [] := by
      obtain ⟨shape⟩ := wf.shape state.block related.within
      obtain ⟨done, split⟩ := (noRest ▸ passes.isSuffix).trans related.suffix_
      have isLast : some i = some shape.last := by
        rw [← getLast?_concat (l := done), split, shape.insts, ← append_assoc, getLast?_concat]
      have terminates := shape.exits.isTerminator
      rw [← Option.some.inj isLast] at terminates
      cases i with
      | branch | jump | ret => rfl
      | _ => cases terminates
    have edge := Machine.mem_succs_of_exit isExit
    exact ((atEnd noRest noDefs).enter repaired wf bounded
      (distinct c (wf.inside _ _ edge).1) edge taken).2

end ArmBackend
