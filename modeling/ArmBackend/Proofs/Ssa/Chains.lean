import ArmBackend.Proofs.Dominance.Preorder
import ArmBackend.Ssa.Renaming
import Mathlib.Data.List.Find

/-!
Contract: the chains of definitions that renaming follows.

The pointer of a variable starts a chain of ever older definitions; the version of the variable that
a block sees is the first one on the chain whose home dominates the block. Moving a pointer forward
in its chain, or putting a new definition in front, changes what the current block sees and nothing
for the blocks that wait on the stack.

Owns: this view of the state, and the effect of a read and of a definition on it.
-/

namespace ArmBackend.Renaming

open List Procedure

variable {chain : List VarId} {start : Option VarId}

/-- The definitions found from a pointer on, newest first. An argument ends its own chain, whatever
its pointer says by then. -/
inductive Chain (r : Renaming) : Option VarId → List VarId → Prop
  | done : Chain r none []
  | own {a : VarId} (old : a < r.base) (atEntry : r.home.getD a none = some entry) :
      Chain r (some a) [a]
  | link {d : VarId} {rest : List VarId} (fresh : r.base ≤ d) (inside : d < r.proc.nextVar)
      (older : ∀ e ∈ rest, e < d) (chain : Chain r (r.reaching.getD d none) rest) :
      Chain r (some d) (d :: rest)

/-- What a variable was made for, and whether a definition of it made it. -/
structure Origin where
  source : VarId
  isDefined : Bool

/-- The origin of a variable, when fresh ones have those in the log. Others stand for themselves. -/
def originIn (base : VarId) (log : List Origin) (d : VarId) : Origin :=
  if d < base then ⟨d, true⟩ else log.getD (d - base) ⟨d, true⟩

/-- The state of renaming `p`: every variable has a chain of definitions of its own. The log holds
the origins of the fresh variables, in order, and definitions are at home in the blocks `homes`. -/
structure Chained (p : Procedure) (r : Renaming) (log : List Origin) (homes : List BlockId) :
    Prop where
  base : r.base = p.nextVar
  count : r.proc.nextVar = r.base + log.length
  reachingSize : r.reaching.size = r.proc.nextVar
  homeSize : r.home.size = r.proc.nextVar
  chain : ∀ x < r.base, ∃ chain, Chain r (r.reaching.getD x none) chain ∧
    ∀ d ∈ chain, (originIn r.base log d).source = x ∧ ∃ h ∈ homes, r.home.getD d none = some h
  types : ∀ d < r.proc.nextVar, (r.proc.var d).ty = (p.var (originIn r.base log d).source).ty
  regs : ∀ d, r.proc.reg? d = p.reg? d

variable {r r' : Renaming} {t : DomTree} {b : BlockId}

/-! ## Chains -/

theorem Chain.length_le {d : VarId} (is : Chain r (some d) chain) : chain.length ≤ d + 1 := by
  generalize isStart : some d = start at is
  induction is generalizing d with
  | done => cases isStart
  | own old atEntry =>
    cases isStart
    simp
  | @link e rest fresh lt older chain ih =>
    cases isStart
    rw [length_cons]
    cases next : r.reaching.getD e none with
    | none =>
      rw [next] at chain
      cases chain
      simp
    | some f =>
      have shorter := ih next.symm
      have first : f ∈ rest := by
        rw [next] at chain
        cases chain <;> exact mem_cons_self
      exact Nat.succ_le_succ (Nat.le_trans shorter (older f first))

theorem Chain.lt_nextVar (base : r.base ≤ r.proc.nextVar) (is : Chain r start chain) :
    ∀ d ∈ chain, d < r.proc.nextVar := by
  induction is with
  | done => simp
  | own old atEntry =>
    intro d mem
    exact mem_singleton.mp mem ▸ Nat.lt_of_lt_of_le old base
  | link fresh lt older chain ih =>
    exact forall_mem_cons.mpr ⟨lt, ih⟩

/-- A chain depends on the pointers of fresh variables and on the homes of its members. -/
theorem Chain.transfer (is : Chain r start chain) (base : r'.base = r.base)
    (count : r.proc.nextVar ≤ r'.proc.nextVar)
    (pointers : ∀ d ∈ chain, r.base ≤ d → r'.reaching.getD d none = r.reaching.getD d none)
    (homes : ∀ d ∈ chain, r'.home.getD d none = r.home.getD d none) : Chain r' start chain := by
  induction is with
  | done => exact .done
  | own old atEntry => exact .own (base ▸ old) ((homes _ (by simp)).trans atEntry)
  | link fresh lt older chain ih =>
    refine .link (base ▸ fresh) (Nat.lt_of_lt_of_le lt count) older ?_
    rw [pointers _ (by simp) fresh]
    exact ih (fun d mem => pointers d (mem_cons_of_mem _ mem))
      fun d mem => homes d (mem_cons_of_mem _ mem)

/-- Following a chain finds the first definition that the block sees. -/
theorem traceBack_eq (is : Chain r start chain) (root : t.dominates entry b = true) (steps : Nat)
    (enough : chain.length < steps) :
    r.traceBack t b steps start = chain.find? (r.sees t b) := by
  induction is generalizing steps with
  | done =>
    cases steps with
    | zero => omega
    | succ steps => rfl
  | @own a old atEntry =>
    cases steps with
    | zero => omega
    | succ steps =>
      have seen : r.sees t b a = true := by simp [sees, atEntry, root]
      rw [traceBack, find?_cons_of_pos seen]
      exact if_pos seen
  | @link d rest fresh lt older chain ih =>
    cases steps with
    | zero => omega
    | succ steps =>
      rw [traceBack]
      by_cases seen : r.sees t b d = true
      · rw [find?_cons_of_pos seen]
        exact if_pos seen
      · rw [find?_cons_of_neg seen]
        rw [length_cons] at enough
        exact (if_neg seen).trans (ih steps (by omega))

theorem current_eq (base : r.base ≤ r.proc.nextVar) {x : VarId}
    (is : Chain r (r.reaching.getD x none) chain) (root : t.dominates entry b = true) :
    r.current t b x = chain.find? (r.sees t b) := by
  apply traceBack_eq is root
  cases start : r.reaching.getD x none with
  | none =>
    rw [start] at is
    cases is
    exact Nat.succ_pos _
  | some d =>
    rw [start] at is
    have length := is.length_le
    have lt := is.lt_nextVar base d (by cases is <;> exact mem_cons_self)
    exact Nat.lt_succ_of_le (Nat.le_trans length lt)

private theorem Chain.dropWhile (is : Chain r start chain) (sees : VarId → Bool) :
    Chain r (chain.find? sees) (chain.dropWhile (!sees ·)) := by
  induction is with
  | done => exact .done
  | @own a old atEntry =>
    by_cases seen : sees a = true
    · rw [find?_cons_of_pos seen, dropWhile_cons_of_neg (by simp [seen])]
      exact .own old atEntry
    · rw [find?_cons_of_neg seen, dropWhile_cons_of_pos (by simp [seen])]
      exact .done
  | @link d rest fresh lt older chain ih =>
    by_cases seen : sees d = true
    · rw [find?_cons_of_pos seen, dropWhile_cons_of_neg (by simp [seen])]
      exact .link fresh lt older chain
    · rw [find?_cons_of_neg seen, dropWhile_cons_of_pos (by simp [seen])]
      exact ih

/-- Dropping what one test fails does not matter to a test that is at least as strict. -/
theorem find?_dropWhile {sees strict : VarId → Bool}
    (implies : ∀ d ∈ chain, strict d = true → sees d = true) :
    (chain.dropWhile (!sees ·)).find? strict = chain.find? strict := by
  induction chain with
  | nil => rfl
  | cons d rest ih =>
    rw [forall_mem_cons] at implies
    by_cases seen : sees d = true
    · rw [dropWhile_cons_of_neg (by simp [seen])]
    · rw [dropWhile_cons_of_pos (by simp [seen]), ih implies.2,
        find?_cons_of_neg fun isStrict => seen (implies.1 isStrict)]

/-! ## One step -/

/-- The blocks that wait while `b` is renamed: none is dominated by `b`, and the homes of
definitions that dominate one of them dominate `b`. -/
structure Waiting (t : DomTree) (b : BlockId) (homes others : List BlockId) : Prop where
  here : b ∈ homes
  self : t.dominates b b = true
  root : ∀ c ∈ b :: others, t.dominates entry c = true
  apart : ∀ c ∈ others, t.dominates b c = false
  shared : ∀ c ∈ others, ∀ h ∈ homes, t.dominates h c = true → t.dominates h b = true

/-- What does not change while a block is renamed: the waiting blocks see what they saw, and of the
procedure only the table of variables grows. -/
structure Steady (t : DomTree) (others : List BlockId) (r r' : Renaming) : Prop where
  base : r'.base = r.base
  proc : r'.proc = { r.proc with vars := r'.proc.vars }
  current : ∀ c ∈ others, ∀ y < r.base, r'.current t c y = r.current t c y

theorem Steady.refl (t : DomTree) (others : List BlockId) (r : Renaming) : Steady t others r r :=
  ⟨rfl, rfl, fun _ _ _ _ => rfl⟩

theorem Steady.trans {others : List BlockId} {r₁ r₂ r₃ : Renaming} (first : Steady t others r₁ r₂)
    (second : Steady t others r₂ r₃) : Steady t others r₁ r₃ := by
  refine ⟨second.base.trans first.base, ?_, fun c mem y below => ?_⟩
  · rw [second.proc, first.proc]
  · exact (second.current c mem y (first.base ▸ below)).trans (first.current c mem y below)

section Step

variable {p : Procedure} {log : List Origin} {homes others : List BlockId}

variable {d x : VarId}

theorem Chained.base_le (chained : Chained p r log homes) : r.base ≤ r.proc.nextVar := by
  rw [chained.count]
  exact Nat.le_add_right _ _

theorem sees_eq {h : BlockId} (isHome : r.home.getD d none = some h) (c : BlockId) :
    r.sees t c d = t.dominates h c := by
  simp [sees, isHome]

/-- Moving the pointer of a variable to what the block sees changes nothing that the block or a
waiting one sees. -/
theorem Chained.settle (chained : Chained p r log homes) (waiting : Waiting t b homes others)
    (below : x < r.base) :
    Chained p (r.settle t b x) log homes ∧ Steady t (b :: others) r (r.settle t b x) ∧
      (r.settle t b x).reaching.getD x none = r.current t b x := by
  have pointer : ∀ y, (r.settle t b x).reaching.getD y none =
      if y = x then r.current t b x else r.reaching.getD y none := by
    intro y
    have lt : x < r.reaching.size := by
      rw [chained.reachingSize]
      exact Nat.lt_of_lt_of_le below chained.base_le
    change (r.reaching.setIfInBounds x (r.current t b x)).getD y none = _
    rw [Tables.getD_setIfInBounds]
    by_cases same : y = x
    · rw [if_pos ⟨same.symm, same ▸ lt⟩, if_pos same]
    · rw [if_neg fun both => same both.1.symm, if_neg same]
  -- The pointers that chains follow are those of fresh variables, and these did not move.
  have kept : ∀ {start chain}, Chain r start chain → Chain (r.settle t b x) start chain := by
    intro start chain is
    refine is.transfer rfl (Nat.le_refl _) (fun d _ fresh => ?_) fun d _ => rfl
    have other : d ≠ x := fun same => Nat.lt_irrefl _ (Nat.lt_of_lt_of_le (same ▸ below) fresh)
    rw [pointer d, if_neg other]
  have chains : ∀ y < r.base, ∃ chain, Chain (r.settle t b x)
      ((r.settle t b x).reaching.getD y none) chain ∧
      (∀ d ∈ chain, (originIn r.base log d).source = y ∧ ∃ h ∈ homes, r.home.getD d none = some h) ∧
      ∀ c ∈ b :: others, chain.find? (r.sees t c) = r.current t c y := by
    intro y lt
    obtain ⟨chain, is, members⟩ := chained.chain y lt
    by_cases same : y = x
    · subst same
      refine ⟨chain.dropWhile (!r.sees t b ·), ?_, ?_, ?_⟩
      · rw [pointer y, if_pos rfl, current_eq chained.base_le is (waiting.root b (by simp))]
        exact kept (is.dropWhile (r.sees t b))
      · intro d mem
        exact members d ((dropWhile_sublist _).subset mem)
      · intro c mem
        rw [current_eq chained.base_le is (waiting.root c mem)]
        apply find?_dropWhile
        intro d inChain seen
        rcases mem_cons.mp mem with rfl | isOther
        · exact seen
        · obtain ⟨h, inHomes, isHome⟩ := (members d inChain).2
          rw [sees_eq isHome] at seen ⊢
          exact waiting.shared c isOther h inHomes seen
    · refine ⟨chain, ?_, members, ?_⟩
      · rw [pointer y, if_neg same]
        exact kept is
      · intro c mem
        exact (current_eq chained.base_le is (waiting.root c mem)).symm
  refine ⟨⟨chained.base, chained.count, ?_, chained.homeSize, ?_, chained.types, chained.regs⟩,
    ⟨rfl, rfl, ?_⟩, ?_⟩
  · change (r.reaching.setIfInBounds _ _).size = _
    rw [Array.size_setIfInBounds]
    exact chained.reachingSize
  · intro y lt
    obtain ⟨chain, is, members, -⟩ := chains y lt
    exact ⟨chain, is, members⟩
  · intro c mem y lt
    obtain ⟨chain, is, -, found⟩ := chains y lt
    rw [current_eq (r := r.settle t b x) chained.base_le is (waiting.root c mem)]
    exact found c mem
  · rw [pointer x, if_pos rfl]

theorem originIn_append {base : VarId} {more : List Origin} (lt : d < base + log.length) :
    originIn base (log ++ more) d = originIn base log d := by
  unfold originIn
  split
  · rfl
  · rename_i above
    have short : d - base < log.length := Nat.sub_lt_left_of_lt_add (Nat.le_of_not_lt above) lt
    rw [getD_eq_getElem?_getD, getElem?_append_left short, getD_eq_getElem?_getD]

theorem originIn_last (base : VarId) (log : List Origin) (o : Origin) :
    originIn base (log ++ [o]) (base + log.length) = o := by
  unfold originIn
  rw [if_neg (Nat.not_lt.mpr (Nat.le_add_right _ _)), Nat.add_sub_cancel_left]
  simp

namespace Chained

section Attach

variable (chained : Chained p r log homes) (below : x < r.base)

include chained

private theorem home_attach (d : VarId) : (r.attach b x).home.getD d none =
    if d = r.proc.nextVar then some b else r.home.getD d none := by
  change (r.home.push (some b)).getD d none = _
  rw [Tables.getD_push, chained.homeSize]

private theorem home_attach_of_chain (is : Chain r start chain) (mem : d ∈ chain) :
    (r.attach b x).home.getD d none = r.home.getD d none := by
  rw [chained.home_attach, if_neg (Nat.ne_of_lt (is.lt_nextVar chained.base_le d mem))]

omit chained in
theorem nextVar_attach : (r.attach b x).proc.nextVar = r.proc.nextVar + 1 := nextVar_newVar ..

private theorem source_attach (origin : Origin) (lt : d < r.proc.nextVar) :
    originIn r.base (log ++ [origin]) d = originIn r.base log d :=
  originIn_append (chained.count ▸ lt)

private theorem source_fresh (isDefined : Bool) :
    originIn r.base (log ++ [⟨x, isDefined⟩]) r.proc.nextVar = ⟨x, isDefined⟩ := by
  rw [chained.count, originIn_last]

private theorem types_attach (isDefined : Bool) (below : x < r.base)
    (lt : d < (r.attach b x).proc.nextVar) : ((r.attach b x).proc.var d).ty =
      (p.var (originIn r.base (log ++ [⟨x, isDefined⟩]) d).source).ty := by
  change ((r.proc.newVar _ (r.proc.var x).ty).var d).ty = _
  rw [nextVar_attach] at lt
  rw [var_newVar]
  by_cases isNew : d = r.proc.nextVar
  · have typed := chained.types x (Nat.lt_of_lt_of_le below chained.base_le)
    rw [originIn, if_pos below] at typed
    rw [if_pos isNew, isNew, chained.source_fresh]
    exact typed
  · have lower := Nat.lt_of_le_of_ne (Nat.le_of_lt_succ lt) isNew
    rw [if_neg isNew, chained.types d lower, chained.source_attach _ lower]

include below

private theorem reaching_attach (y : VarId) : (r.attach b x).reaching.getD y none =
    if y = x then some r.proc.nextVar else if y = r.proc.nextVar then r.reaching.getD x none
    else r.reaching.getD y none := by
  change ((r.reaching.push _).setIfInBounds x (some r.proc.nextVar)).getD y none = _
  have lt := Nat.lt_succ_of_lt (Nat.lt_of_lt_of_le below chained.base_le)
  rw [Tables.getD_setIfInBounds, Tables.getD_push, Array.size_push, chained.reachingSize]
  by_cases same : y = x
  · rw [if_pos ⟨same.symm, same ▸ lt⟩, if_pos same]
  · rw [if_neg fun both => same both.1.symm, if_neg same]

/-- Chains of older definitions stay. -/
private theorem chain_attach (is : Chain r start chain) : Chain (r.attach b x) start chain := by
  refine is.transfer rfl ?_ (fun d mem isNew => ?_) fun d mem => chained.home_attach_of_chain is mem
  · rw [nextVar_attach]
    exact Nat.le_succ _
  · have other : d ≠ x := Nat.ne_of_gt (Nat.lt_of_lt_of_le below isNew)
    rw [chained.reaching_attach below, if_neg other,
      if_neg (Nat.ne_of_lt (is.lt_nextVar chained.base_le d mem))]

private theorem chain_fresh (is : Chain r (r.reaching.getD x none) chain) :
    Chain (r.attach b x) (some r.proc.nextVar) (r.proc.nextVar :: chain) := by
  refine .link chained.base_le (nextVar_attach ▸ Nat.lt_succ_self _)
    (is.lt_nextVar chained.base_le) ?_
  have other : r.proc.nextVar ≠ x := Nat.ne_of_gt (Nat.lt_of_lt_of_le below chained.base_le)
  rw [chained.reaching_attach below, if_neg other, if_pos rfl]
  exact chained.chain_attach below is

/-- Every variable has a chain again. Blocks that wait see in it what they saw, and the block itself
sees the fresh definition. -/
private theorem chains_attach (waiting : Waiting t b homes others) (isDefined : Bool) {y : VarId}
    (lt : y < r.base) :
    ∃ chain, Chain (r.attach b x) ((r.attach b x).reaching.getD y none) chain ∧
      (∀ d ∈ chain, (originIn r.base (log ++ [⟨x, isDefined⟩]) d).source = y ∧
        ∃ h ∈ homes, (r.attach b x).home.getD d none = some h) ∧
      (∀ c ∈ others, chain.find? ((r.attach b x).sees t c) = r.current t c y) ∧
      chain.find? ((r.attach b x).sees t b) = if y = x then some r.proc.nextVar
        else r.current t b y := by
  obtain ⟨chain, is, members⟩ := chained.chain y lt
  have members' : ∀ d ∈ chain, (originIn r.base (log ++ [⟨x, isDefined⟩]) d).source = y ∧
      ∃ h ∈ homes, (r.attach b x).home.getD d none = some h := by
    intro d mem
    rw [chained.source_attach _ (is.lt_nextVar chained.base_le d mem),
      chained.home_attach_of_chain is mem]
    exact members d mem
  have found : ∀ c ∈ b :: others, chain.find? ((r.attach b x).sees t c) = r.current t c y := by
    intro c mem
    rw [current_eq chained.base_le is (waiting.root c mem)]
    refine find?_congr fun d inChain => ?_
    rw [Renaming.sees, chained.home_attach_of_chain is inChain]
    rfl
  rw [chained.reaching_attach below]
  by_cases same : y = x
  · subst same
    have isHome : (r.attach b y).home.getD r.proc.nextVar none = some b := by
      rw [chained.home_attach, if_pos rfl]
    rw [if_pos rfl]
    refine ⟨r.proc.nextVar :: chain, chained.chain_fresh below is, ?_, fun c mem => ?_, ?_⟩
    · refine forall_mem_cons.mpr ⟨⟨?_, b, waiting.here, isHome⟩, members'⟩
      rw [chained.source_fresh]
    · rw [find?_cons_of_neg (by simp [sees_eq isHome, waiting.apart c mem])]
      exact found c (mem_cons_of_mem _ mem)
    · rw [find?_cons_of_pos (by rw [sees_eq isHome]; exact waiting.self), if_pos rfl]
  · have notFresh := Nat.ne_of_lt (Nat.lt_of_lt_of_le lt chained.base_le)
    rw [if_neg same, if_neg notFresh, if_neg same]
    exact ⟨chain, chained.chain_attach below is, members',
      fun c mem => found c (mem_cons_of_mem _ mem), found b mem_cons_self⟩

/-- A fresh definition in front of a settled chain is what the block sees from then on. -/
theorem attach (waiting : Waiting t b homes others) (isDefined : Bool) :
    Chained p (r.attach b x) (log ++ [⟨x, isDefined⟩]) homes ∧ Steady t others r (r.attach b x) ∧
      ∀ y < r.base, (r.attach b x).current t b y =
        if y = x then some r.proc.nextVar else r.current t b y := by
  have baseLe : (r.attach b x).base ≤ (r.attach b x).proc.nextVar :=
    nextVar_attach ▸ Nat.le_succ_of_le chained.base_le
  refine ⟨⟨chained.base, ?_, ?_, ?_, fun y lt => ?_, fun d => chained.types_attach isDefined below,
    fun d => (r.proc.reg?_newVar _ _ d).trans (chained.regs d)⟩,
    ⟨rfl, rfl, fun c mem y lt => ?_⟩, fun y lt => ?_⟩
  · rw [nextVar_attach, chained.count, length_append]
    rfl
  · rw [nextVar_attach]
    change ((r.reaching.push _).setIfInBounds _ _).size = _
    rw [Array.size_setIfInBounds, Array.size_push, chained.reachingSize]
  · rw [nextVar_attach]
    change (r.home.push _).size = _
    rw [Array.size_push, chained.homeSize]
  · obtain ⟨chain, is, members, -, -⟩ := chained.chains_attach below waiting isDefined lt
    exact ⟨chain, is, members⟩
  · obtain ⟨chain, is, -, found, -⟩ := chained.chains_attach below waiting isDefined lt
    rw [current_eq baseLe is (waiting.root c (mem_cons_of_mem _ mem))]
    exact found c mem
  · obtain ⟨chain, is, -, -, found⟩ := chained.chains_attach below waiting isDefined lt
    rw [current_eq baseLe is (waiting.root b mem_cons_self)]
    exact found

end Attach

end Chained

/-! ## Reads and definitions -/

theorem run_define (t : DomTree) (b : BlockId) (x : VarId) (r : Renaming) :
    (define t b x).run r = ((r.settle t b x).proc.nextVar, (r.settle t b x).attach b x) := rfl

theorem run_read_some {t : DomTree} (known : (r.settle t b x).reaching.getD x none = some d) :
    (read t b x).run r = (d, r.settle t b x) := by
  simp only [read, StateT.run_bind, StateT.run_modify, StateT.run_get, pure_bind, known]
  rfl

theorem run_read_none {t : DomTree} (absent : (r.settle t b x).reaching.getD x none = none) :
    (read t b x).run r = ((r.settle t b x).proc.nextVar, (r.settle t b x).attach b x) := by
  simp only [read, StateT.run_bind, StateT.run_modify, StateT.run_get, pure_bind, absent]
  rfl

end Step

end ArmBackend.Renaming
