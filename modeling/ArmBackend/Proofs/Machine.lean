import ArmBackend.Program.Procedure
import ArmBackend.Proofs.Ssa.Traversal

/-!
Contract: how a flow graph runs.

A run is driven by answers, one for each visible instruction: what a call or a field load delivers,
and the quotient where a division has none. It leaves a trace of visible instructions, each with the
block it stands in and the words that it reads. Reading a variable that was never assigned has no
step. Entering a block assigns its phis at once from the arguments of the edge that was taken.
Spills, reloads and copies ahead of calls are silent: they only move words between variables and the
stack slots of webs.

Owns: states, steps and runs, and the rule by which a relation between states that survives one step
survives a whole run.
Does not own: the meaning of calls and fields, which the answers stand for.
-/

namespace ArmBackend

open List

/-- The variable that a reload loads. -/
def Inst.reloaded? : Inst → Option VarId
  | .reload dst => some dst
  | _ => none

namespace Machine

variable {i : Inst} {store : Store} {rest : List Inst} {event : Event} {answer : Int32}
  {taken : Bool}

/-- Words held by variables; a variable that was never assigned holds none. -/
abbrev Env := VarId → Option Int32

/-- Assign one word to some variables. -/
def Env.define (env : Env) (vars : List VarId) (word : Int32) : Env :=
  fun v => if vars.contains v then some word else env v

/-- What variables and the stack slots of webs hold. -/
structure Store where
  env : Env
  slots : WebId → Option Int32

namespace Store

/-- What the slot of a variable's web holds. -/
def slotOf (p : Procedure) (store : Store) (v : VarId) : Option Int32 := (p.web? v).bind store.slots

/-- Write a variable to the slot of its web. -/
def spill (p : Procedure) (store : Store) (v : VarId) : Store :=
  { store with slots := fun w => if p.web? v = some w then store.env v else store.slots w }

/-- Read a variable from the slot of its web. -/
def reload (p : Procedure) (store : Store) (dst : VarId) : Store :=
  { store with env := fun v => if v = dst then store.slotOf p dst else store.env v }

/-- Copy variables to variables at once. -/
def copy (store : Store) (dsts srcs : List VarId) : Store :=
  { store with env := fun v =>
      match (dsts.zip srcs).find? (·.1 == v) with
      | some (_, src) => store.env src
      | none => store.env v }

end Store

/-- A visible instruction with the words it reads and the word it delivers. -/
inductive Event where
  | assign (word : Int32)
  | binary (op : BinaryOp) (left right result : Int32)
  | negate (word : Int32)
  | load (layout : Ty) (field : String) (base result : Int32)
  | store (layout : Ty) (field : String) (base word : Int32)
  | call (callee : Callee) (args : List Int32) (result : Int32)
  | stackArg (index : Nat) (word : Int32)
  | compare (op : Comparison) (left right : Int32)
  | jump
  | ret (value : Option Int32)
deriving DecidableEq, Repr

namespace Event

/-- The word that the instruction's definition gets. -/
def result : Event → Int32
  | .assign word => word
  | .binary _ _ _ result | .load _ _ _ result | .call _ _ result => result
  | .negate word => -word
  | _ => 0

/-- Does control leave the block, and then along the taken edge? -/
def leaves? : Event → Option Bool
  | .compare op left right => some (op.eval left right)
  | .jump => some false
  | _ => none

end Event

/-- A point of a run: the block, what is left of it, and what is stored. -/
structure State where
  block : BlockId
  rest : List Inst
  store : Store

section Step

variable (literal : String → Int32) (p : Procedure)

/-- Word of an operand; `literal` gives the addresses of texts. -/
def word (env : Env) : Operand → Option Int32
  | .var v => env v
  | .str text => some (literal text)
  | o => o.word?

/-- What a visible instruction does, if everything it reads is assigned. -/
def observe (answer : Int32) (env : Env) : Inst → Option Event
  | .assign _ src => do return .assign (← word literal env src)
  | .binary _ op left right => do
    let a ← word literal env left
    let b ← word literal env right
    return .binary op a b ((op.eval? a b).getD answer)
  | .negate _ src => do return .negate (← word literal env src)
  | .load _ base field => do
    return .load (p.operandTy base) field (← word literal env base) answer
  | .store base field src => do
    let word ← word literal env src
    return .store (p.var base).ty field (← env base) word
  | .call _ callee args => do
    return .call callee (← args.mapM (word literal env)) answer
  | .stackArg v index => do return .stackArg index (← env v)
  | .branch op left right _ => do
    let a ← word literal env left
    return .compare op a (← word literal env right)
  | .jump _ => some .jump
  | .ret none => some (.ret none)
  | .ret (some value) => do return .ret (some (← word literal env value))
  | _ => none

/-- The store after a silent instruction. -/
def silent? (store : Store) : Inst → Option Store
  | .spill v => some (store.spill p v)
  | .reload dst => some (store.reload p dst)
  | .prepare dsts srcs _ => some (store.copy dsts srcs)
  | _ => none

/-- Run the silent instructions at the head. -/
def settle : List Inst → Store → List Inst × Store
  | [], store => ([], store)
  | i :: rest, store =>
    match silent? p store i with
    | some next => settle rest next
    | none => (i :: rest, store)

/-- The reloads among the silent instructions at the head, with the words that they read. -/
def reloads : List Inst → Store → List (VarId × Option Int32)
  | [], _ => []
  | i :: rest, store =>
    match silent? p store i with
    | some next =>
      (i.reloaded?.map fun dst => (dst, store.slotOf p dst)).toList ++ reloads rest next
    | none => []

/-- Position among the predecessors of the edge from `source`. Where both edges of a branch lead
here, the taken one has the first of its positions and the direct one the last. -/
def slotFrom (b : Block) (source : BlockId) (taken : Bool) : Nat :=
  if taken then b.preds.findIdx (· == source)
  else b.preds.length - 1 - b.preds.reverse.findIdx (· == source)

/-- What a phi assigns on entry through a predecessor's position. A phi in memory moves nothing: its
value is what the slot of its web holds, and only a reload brings it into a variable. -/
def phiWord (env : Env) (slot : Nat) (phi : Phi) : Option Int32 :=
  if phi.inMemory then none else phi.args[slot]?.join.bind env

/-- Assign the phis of a block at once. -/
def assignPhis (phis : List Phi) (slot : Nat) (store : Store) : Store :=
  { store with env := fun v =>
      match phis.find? (·.dst == v) with
      | some phi => phiWord store.env slot phi
      | none => store.env v }

/-- The head of a block, entered from a predecessor. -/
def enter (source : BlockId) (taken : Bool) (store : Store) (b : BlockId) : State where
  block := b
  rest := (p.block b).body
  store := assignPhis (p.block b).phis (slotFrom (p.block b) source taken) store

/-- The target of the taken edge or of the direct one. -/
def exit? (b : Block) (taken : Bool) : Option BlockId := if taken then b.cond else b.direct

/-- What follows a visible instruction of a block. -/
def follow (b : BlockId) (store : Store) (i : Inst) (rest : List Inst) (event : Event) :
    Option State :=
  match event.leaves? with
  | some taken => (exit? (p.block b) taken).map (enter p b taken store)
  | none => some ⟨b, rest, { store with env := store.env.define i.defs event.result }⟩

/-- The next visible instruction, after the silent ones ahead of it. -/
def step (answer : Int32) (s : State) : Option ((BlockId × Event) × State) :=
  match settle p s.rest s.store with
  | ([], _) => none
  | (i :: rest, store) => do
    let event ← observe literal p answer store.env i
    return ((s.block, event), ← follow p s.block store i rest event)

/-- One visible instruction for each answer. -/
def run : List Int32 → State → Option (List (BlockId × Event) × State)
  | [], s => some ([], s)
  | answer :: answers, s => do
    let (entry, next) ← step literal p answer s
    let (trace, final) ← run answers next
    return (entry :: trace, final)

end Step

variable {answers : List Int32} {args : List Operand} {b : BlockId} {next : Store} {final s : State}
  {trace : List (BlockId × Event)}

/-- The arguments' words at the start; one that is not passed is unassigned. -/
def passed (p : Procedure) (args : List Int32) :
    Env := fun v => (p.args.findIdx? (· == v)).bind (args[·]?)

/-- The head of the entry block, with the arguments in their variables. -/
def start (p : Procedure) (args : List Int32) : State where
  block := Procedure.entry
  rest := (p.block Procedure.entry).body
  store := ⟨passed p args, fun _ => none⟩

/-- The head of the entry block when only the first `registers` arguments are passed in registers:
the others start in the slots of their webs. -/
def startWith (registers : Nat) (p : Procedure) (args : List Int32) : State where
  block := Procedure.entry
  rest := (p.block Procedure.entry).body
  store := {
    env := fun v => if (p.args.take registers).contains v then passed p args v else none
    slots := fun w => ((p.args.drop registers).find? fun a => p.web? a == some w).bind
      (passed p args) }

/-! ## Instructions -/

variable {literal : String → Int32} {p q : Procedure}

theorem slotFrom_spec {b : Block} {source : BlockId} (mem : source ∈ b.preds) (taken : Bool) :
    b.preds[slotFrom b source taken]? = some source := by
  have found {l : List BlockId} (mem : source ∈ l) :
      ∃ h : l.findIdx (· == source) < l.length, l[l.findIdx (· == source)] = source := by
    have inside : l.findIdx (· == source) < l.length :=
      findIdx_lt_length_of_exists ⟨source, mem, beq_self_eq_true source⟩
    exact ⟨inside, eq_of_beq (findIdx_getElem (w := inside))⟩
  cases taken with
  | true =>
    obtain ⟨inside, same⟩ := found mem
    rw [slotFrom, if_pos rfl, getElem?_eq_getElem inside, same]
  | false =>
    obtain ⟨inside, same⟩ := found (mem_reverse.mpr mem)
    rw [length_reverse] at inside
    rw [getElem_reverse] at same
    rw [slotFrom, if_neg Bool.false_ne_true, getElem?_eq_getElem (by omega), same]

theorem mem_succs_of_exit {b : Block} {s : BlockId} (isExit : exit? b taken = some s) :
    s ∈ b.succs := by
  cases taken with
  | true => exact mem_append_right _ (Option.mem_toList.mpr isExit)
  | false => exact mem_append_left _ (Option.mem_toList.mpr isExit)

/-- A definition gets the same word under another name. -/
theorem observe_mapDefs (answer : Int32) (env : Env) (f : VarId → VarId) (i : Inst) :
    observe literal p answer env (i.mapDefs f) = observe literal p answer env i := by
  cases i <;> rfl

variable {env env' : Env} {f : VarId → VarId}

/-- Reads hold the same words under their new names, with the same types. -/
def Matches (p q : Procedure) (env env' : Env) (f : VarId → VarId) (vars : List VarId) : Prop :=
  ∀ x ∈ vars, env' (f x) = env x ∧ (q.var (f x)).ty = (p.var x).ty

theorem word_rename {o : Operand} (same : Matches p q env env' f o.var?.toList) :
    word literal env' (Id.run (o.traverse fun v => pure (f v))) = word literal env o ∧
      q.operandTy (Id.run (o.traverse fun v => pure (f v))) = p.operandTy o := by
  cases o with
  | var v => exact same v (by simp [Operand.var?])
  | _ => exact ⟨rfl, rfl⟩

private theorem words_rename (same : Matches p q env env' f (args.filterMap Operand.var?)) :
    (args.map fun o => Id.run (o.traverse fun v => pure (f v))).mapM (word literal env') =
      args.mapM (word literal env) := by
  induction args with
  | nil => rfl
  | cons o rest ih =>
    have first : word literal env' _ = word literal env o := (word_rename fun x mem => same x (by
      rw [← Traversal.flatMap_var?, flatMap_cons]
      exact mem_append_left _ mem)).1
    have more := ih fun x mem => same x (by
      rw [← Traversal.flatMap_var?, flatMap_cons, Traversal.flatMap_var?]
      exact mem_append_right _ mem)
    rw [map_cons, mapM_cons, mapM_cons, first, more]

/-- An instruction does the same on reads that hold the same words, or gets stuck as before. -/
theorem observe_rename (same : Matches p q env env' f i.uses) :
    observe literal q answer env' (i.mapUses f) = observe literal p answer env i := by
  have operand : ∀ o ∈ i.operands, word literal env' (Id.run (o.traverse fun v => pure (f v))) =
      word literal env o ∧
        q.operandTy (Id.run (o.traverse fun v => pure (f v))) = p.operandTy o := by
    intro o mem
    refine word_rename fun x isVar => same x ?_
    exact mem_append_left _ (mem_filterMap.mpr ⟨o, mem, Option.mem_toList.mp isVar⟩)
  cases i with
  | assign dst src =>
    have found := (operand src (by simp [Inst.operands])).1
    exact congrArg (fun w : Option Int32 => w.bind fun w => some (Event.assign w)) found
  | negate dst src =>
    have found := (operand src (by simp [Inst.operands])).1
    exact congrArg (fun w : Option Int32 => w.bind fun w => some (Event.negate w)) found
  | binary dst op left right =>
    have first := (operand left (by simp [Inst.operands])).1
    have second := (operand right (by simp [Inst.operands])).1
    have both := congr (congrArg (fun a b : Option Int32 => a.bind fun a => b.bind fun b =>
      some (Event.binary op a b ((op.eval? a b).getD answer))) first) second
    exact both
  | branch op left right target =>
    have first := (operand left (by simp [Inst.operands])).1
    have second := (operand right (by simp [Inst.operands])).1
    have both := congr (congrArg (fun a b : Option Int32 => a.bind fun a => b.bind fun b =>
      some (Event.compare op a b)) first) second
    exact both
  | load dst base field =>
    obtain ⟨found, ty⟩ := operand base (by simp [Inst.operands])
    have both := congr (congrArg (fun (ty : Ty) (a : Option Int32) => a.bind fun a =>
      some (Event.load ty field a answer)) ty) found
    exact both
  | store base field src =>
    obtain ⟨found, ty⟩ := same base (by simp [Inst.uses])
    have isWord := (operand src (by simp [Inst.operands])).1
    have all :=
      congr (congr (congrArg (fun (ty : Ty) (w a : Option Int32) => w.bind fun w => a.bind fun a =>
      some (Event.store ty field a w)) ty) isWord) found
    exact all
  | ret value =>
    cases value with
    | none => rfl
    | some o =>
      have found := (operand o (by simp [Inst.operands])).1
      exact congrArg (fun w : Option Int32 => w.bind fun w => some (Event.ret (some w))) found
  | call dst callee args =>
    have reads : (Inst.call dst callee args).uses = args.filterMap Operand.var? := by
      simp only [Inst.uses, Inst.operands, append_nil]
    have found : (args.map fun o => Id.run (o.traverse fun v => pure (f v))).mapM
        (word literal env') = _ :=
      words_rename (reads ▸ same)
    rw [Traversal.map_traverse] at found
    exact congrArg (fun words : Option (List Int32) => words.bind fun words =>
      some (Event.call callee words answer)) found
  | stackArg v index =>
    have found := (same v (by simp [Inst.uses])).1
    exact congrArg (fun w : Option Int32 => w.bind fun w => some (Event.stackArg index w)) found
  | _ => rfl

theorem exists_word_of_mapM {words : List Int32}
    (ok : args.mapM (word literal env) = some words) :
    ∀ o ∈ args, ∃ w, word literal env o = some w := by
  induction args generalizing words with
  | nil => exact forall_mem_nil _
  | cons o rest ih =>
    rw [mapM_cons] at ok
    obtain ⟨w, isWord, ok⟩ := Option.bind_eq_some_iff.mp ok
    obtain ⟨others, areWords, -⟩ := Option.bind_eq_some_iff.mp ok
    exact forall_mem_cons.mpr ⟨⟨w, isWord⟩, ih areWords⟩

/-- An instruction that is observed finds all it reads assigned. -/
theorem exists_word_of_observe (ok : observe literal p answer env i = some event) :
    ∀ x ∈ i.uses, ∃ w, env x = some w := by
  have only {op : Operand} {w : Int32} (isWord : word literal env op = some w) :
      ∀ o ∈ [op], ∃ w, word literal env o = some w := forall_mem_singleton.mpr ⟨w, isWord⟩
  have operand : ∀ o ∈ i.operands, ∃ w, word literal env o = some w := by
    cases i with
    | assign | negate | load =>
      obtain ⟨w, isWord, -⟩ := Option.bind_eq_some_iff.mp ok
      exact only isWord
    | binary | branch =>
      obtain ⟨a, isLeft, ok⟩ := Option.bind_eq_some_iff.mp ok
      obtain ⟨b, isRight, -⟩ := Option.bind_eq_some_iff.mp ok
      exact forall_mem_cons.mpr ⟨⟨a, isLeft⟩, only isRight⟩
    | store =>
      obtain ⟨w, isWord, -⟩ := Option.bind_eq_some_iff.mp ok
      exact only isWord
    | ret value =>
      cases value with
      | none => exact forall_mem_nil _
      | some o =>
        obtain ⟨w, isWord, -⟩ := Option.bind_eq_some_iff.mp ok
        exact only isWord
    | call dst callee args =>
      obtain ⟨words, areWords, -⟩ := Option.bind_eq_some_iff.mp ok
      exact exists_word_of_mapM areWords
    | _ => exact forall_mem_nil _
  intro x isUse
  rcases mem_append.mp isUse with inOperands | other
  · obtain ⟨o, mem, isVar⟩ := mem_filterMap.mp inOperands
    obtain ⟨w, isWord⟩ := operand o mem
    cases o with
    | var v => exact ⟨w, Option.some.inj isVar ▸ isWord⟩
    | _ => cases isVar
  · cases i with
    | store base field src =>
      obtain ⟨w, -, ok⟩ := Option.bind_eq_some_iff.mp ok
      obtain ⟨a, isBase, -⟩ := Option.bind_eq_some_iff.mp ok
      exact ⟨a, mem_singleton.mp other ▸ isBase⟩
    | stackArg v index =>
      obtain ⟨w, isWord, -⟩ := Option.bind_eq_some_iff.mp ok
      exact ⟨w, mem_singleton.mp other ▸ isWord⟩
    | prepare | spill => cases ok
    | _ => cases other

/-- Everything that the reads of an instruction find assigned is found under their new names, with
the same types. -/
def Finds (p q : Procedure) (env env' : Env) (f : VarId → VarId) (vars : List VarId) : Prop :=
  ∀ x ∈ vars, ∀ w, env x = some w → env' (f x) = some w ∧ (q.var (f x)).ty = (p.var x).ty

/-- An instruction does the same on renamed reads. -/
theorem observe_mapUses (finds : Finds p q env env' f i.uses)
    (ok : observe literal p answer env i = some event) :
    observe literal q answer env' (i.mapUses f) = some event := by
  rw [observe_rename fun x isUse => ?_, ok]
  obtain ⟨w, isWord⟩ := exists_word_of_observe ok x isUse
  obtain ⟨found, ty⟩ := finds x isUse w isWord
  exact ⟨found.trans isWord.symm, ty⟩

theorem settle_silent (silent : silent? p store i = some next) :
    settle p (i :: rest) store = settle p rest next := by
  rw [settle, silent]

theorem settle_visible (visible : silent? p store i = none) :
    settle p (i :: rest) store = (i :: rest, store) := by
  rw [settle, visible]

theorem settle_suffix (insts : List Inst) (store : Store) : (settle p insts store).1 <:+ insts := by
  induction insts generalizing store with
  | nil => exact suffix_rfl
  | cons i rest ih =>
    cases silent : silent? p store i with
    | none => simpa only [settle_visible silent] using suffix_rfl
    | some next =>
      rw [settle_silent silent]
      exact (ih next).trans (suffix_cons i rest)

theorem silent?_eq_none_of_observe (observed : observe literal p answer env i = some event) :
    silent? q store i = none := by
  cases i with
  | spill | reload | prepare => cases observed
  | _ => rfl

theorem reloads_silent (silent : silent? p store i = some next) : reloads p (i :: rest) store =
      (i.reloaded?.map fun dst => (dst, store.slotOf p dst)).toList ++ reloads p rest next := by
  rw [reloads, silent]

theorem reloads_visible (visible : silent? p store i = none) :
    reloads p (i :: rest) store = [] := by
  rw [reloads, visible]

/-- Control leaves a block only at its terminator. -/
theorem isTerminator_of_leaves (observed : observe literal p answer env i = some event)
    (leaves : event.leaves? = some taken) :
    i.isTerminator = true := by
  cases i with
  | branch | jump | ret => rfl
  | label | phi | prepare | spill | reload => cases observed
  | assign | negate | load | call | stackArg =>
    obtain ⟨_, -, same⟩ := Option.bind_eq_some_iff.mp observed
    cases same
    cases leaves
  | binary | store =>
    obtain ⟨_, -, more⟩ := Option.bind_eq_some_iff.mp observed
    obtain ⟨_, -, same⟩ := Option.bind_eq_some_iff.mp more
    cases same
    cases leaves

theorem follow_stays (stays : event.leaves? = none) : follow p b store i rest event =
      some ⟨b, rest, { store with env := store.env.define i.defs event.result }⟩ := by
  rw [follow, stays]

theorem follow_leaves (leaves : event.leaves? = some taken) : follow p b store i rest event =
      (exit? (p.block b) taken).map (enter p b taken store) := by
  rw [follow, leaves]

/-! ## Runs -/

theorem step_eq_some {t : State} {entry : BlockId × Event} : step literal p answer s =
      some (entry, t) ↔ ∃ i rest store event, settle p s.rest s.store = (i :: rest, store) ∧
        observe literal p answer store.env i = some event ∧
        follow p s.block store i rest event = some t ∧ entry = (s.block, event) := by
  unfold step
  split
  · rename_i settled
    simp [settled]
  · rename_i i rest store settled
    constructor
    · intro ok
      obtain ⟨event, observed, ok⟩ := Option.bind_eq_some_iff.mp ok
      obtain ⟨next, followed, same⟩ := Option.bind_eq_some_iff.mp ok
      obtain ⟨rfl, rfl⟩ := Prod.mk.inj (Option.some.inj same)
      exact ⟨i, rest, store, event, settled, observed, followed, rfl⟩
    · rintro ⟨i', rest', store', event, settled', observed, followed, rfl⟩
      obtain ⟨same, rfl⟩ := Prod.mk.inj (settled.symm.trans settled')
      obtain ⟨rfl, rfl⟩ := List.cons.inj same
      exact Option.bind_eq_some_iff.mpr
        ⟨event, observed, Option.bind_eq_some_iff.mpr ⟨t, followed, rfl⟩⟩

theorem run_cons {answer : Int32} :
    run literal p (answer :: answers) s = some (trace, final) ↔ ∃ entry t rest,
      step literal p answer s = some (entry, t) ∧ run literal p answers t = some (rest, final) ∧
        trace = entry :: rest := by
  constructor
  · intro ran
    obtain ⟨⟨entry, t⟩, stepped, ran⟩ := Option.bind_eq_some_iff.mp ran
    obtain ⟨⟨rest, last⟩, more, same⟩ := Option.bind_eq_some_iff.mp ran
    obtain ⟨rfl, rfl⟩ := Prod.mk.inj (Option.some.inj same)
    exact ⟨entry, t, rest, stepped, more, rfl⟩
  · rintro ⟨entry, t, rest, stepped, more, rfl⟩
    exact Option.bind_eq_some_iff.mpr
      ⟨(entry, t), stepped, Option.bind_eq_some_iff.mpr ⟨(rest, final), more, rfl⟩⟩

/-- A relation between states that every step keeps is kept by every run. -/
theorem run_simulates {related : State → State → Prop}
    (advance : ∀ {answer s s' entry t}, related s s' → step literal p answer s = some (entry, t) →
      ∃ t', step literal q answer s' = some (entry, t') ∧ related t t') {s' : State}
    (start : related s s') (ok : run literal p answers s = some (trace, final)) :
    ∃ final', run literal q answers s' = some (trace, final') ∧ related final final' := by
  induction answers generalizing s s' trace with
  | nil =>
    obtain ⟨rfl, rfl⟩ := Prod.mk.inj (Option.some.inj ok)
    exact ⟨s', rfl, start⟩
  | cons answer answers ih =>
    obtain ⟨entry, next, rest, stepped, more, rfl⟩ := run_cons.mp ok
    obtain ⟨next', stepped', kept⟩ := advance start stepped
    obtain ⟨final', run', finally_⟩ := ih kept more
    exact ⟨final', run_cons.mpr ⟨entry, next', rest, stepped', run', rfl⟩, finally_⟩

end Machine

end ArmBackend
