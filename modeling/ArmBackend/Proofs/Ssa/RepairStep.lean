import ArmBackend.Proofs.Machine
import ArmBackend.Proofs.Ssa.Repaired

/-!
Contract: a repair keeps what instructions and edges do.

At each point of a run, what reaches it in the repaired procedure holds the word of the variable
under repair, and all other variables and the slots hold the same. A phi that the repair placed
takes over the word of whatever reaches the end of the predecessor; where none is placed, the same
definition reaches the start of a block and the ends of its predecessors.

Owns: this relation between stores, and that instructions and edges keep it.
Does not own: whole runs, and repairs of several variables.
-/

namespace ArmBackend

open List Procedure Machine

/-- An instruction behind the phis of a block that mentions declared variables only. -/
structure Inst.Inside (i : Inst) (top : VarId) : Prop where
  other : i.isPhi = false
  defs : ∀ d ∈ i.defs, d < top
  uses : ∀ u ∈ i.uses, u < top
  balanced : i.Balanced

theorem Procedure.Bounded.inside {p : Procedure} {b : BlockId} {i : Inst} (bounded : p.Bounded)
    (lt : b < p.blocks.size) (mem : i ∈ (p.block b).insts) (other : i.isPhi = false) :
    i.Inside p.nextVar :=
  ⟨other, bounded.defs b lt i mem, bounded.uses b lt i mem, bounded.balanced b lt i mem⟩

namespace Repair

variable {dsts srcs : List VarId} {v x : VarId} {f : VarId → VarId}

/-- What a variable of the repaired procedure stands for. -/
def Scope.stands (s : Scope) (x : VarId) : VarId := if s.base ≤ x then s.var else x

/-- What reaches a point holds the word of the variable under repair; all else is the same. -/
structure Agrees (s : Scope) (ends : BlockId → Option VarId) (b : BlockId) (last : Option VarId)
    (store store' : Store) : Prop where
  others : ∀ u < s.base, u ≠ s.var → store'.env u = store.env u
  current : ∀ x, s.Reaches ends b last x → store'.env x = store.env s.var
  slots : store'.slots = store.slots

variable {q q' : Procedure} {s : Scope} {heads : BlockId → Option Phi}
  {tails : BlockId → List Inst} {ends : BlockId → Option VarId} {b : BlockId} {last : Option VarId}
  {store store' : Store} {i j k : Inst} {top : VarId}

/-- Renames the variable under repair to what reaches a point. -/
def pointing (s : Scope) (x u : VarId) : VarId := if u = s.var then x else u

/-- A redirected instruction is the same one with its reads renamed. -/
theorem Redirect.exists_pointing (redirect : Redirect q s ends b last k j)
    (other : k.isPhi = false) :
    ∃ x, j = k.mapUses (pointing s x) ∧ (s.var ∈ k.uses → s.Reaches ends b last x) := by
  cases redirect with
  | phi => cases other
  | unread _ absent =>
    refine ⟨s.var, (Inst.mapUses_eq_self fun u isUse => ?_).symm, fun read => absurd read absent⟩
    unfold pointing
    split
    · rename_i same
      exact same.symm
    · rfl
  | @read _ x _ reaches => exact ⟨x, rfl, fun _ => reaches⟩

theorem Scope.Reaches.fresh (reaches : s.Reaches ends b last x)
    (inEnds : ∀ b y, ends b = some y → s.base ≤ y) (inLast : ∀ y, last = some y → s.base ≤ y) :
    x = s.var ∨ s.base ≤ x := by
  induction reaches with
  | here => exact .inr (inLast _ rfl)
  | above _ _ _ ih => exact ih (inEnds _)
  | root => exact .inl rfl

theorem Repaired.ends_fresh (isEnd : s.ends heads tails b = some x) :
    s.base ≤ x := (Scope.mem_of_last isEnd).1

private theorem Repaired.isFresh (repaired : Repaired q q' s heads tails) : Fresh s heads :=
  fun b phi isHead => ⟨(repaired.head b phi isHead).fresh, (repaired.head b phi isHead).joins⟩

section Words

variable (repaired : Repaired q q' s heads tails)
include repaired

/-- A variable of the repaired procedure has the type and the web of what it stands for. -/
theorem Repaired.stands_var {x : VarId} (lt : x < q'.nextVar) :
    (q'.var x).ty = (q.var (s.stands x)).ty ∧ q'.web? x = q.web? (s.stands x) := by
  unfold Scope.stands
  split
  · rename_i isFresh
    exact repaired.new x isFresh lt
  · rename_i isOld
    rw [Procedure.web?, repaired.old x (Nat.lt_of_not_le isOld)]
    exact ⟨rfl, rfl⟩

variable (agrees : Agrees s (s.ends heads tails) b last store store')
  (fresh : ∀ y, last = some y → s.base ≤ y)
include agrees fresh

theorem Agrees.reads (rename : Rename s top i k)
    (redirect : Redirect q s (s.ends heads tails) b last k j) (inside : i.Inside s.base) :
    ∃ f, j = k.mapUses f ∧ ∀ u ∈ i.uses, store'.env (f u) = store.env u ∧ s.stands (f u) = u := by
  obtain ⟨x, isImage, reaches⟩ := redirect.exists_pointing (rename.isPhi.trans inside.other)
  rw [rename.uses] at reaches
  refine ⟨pointing s x, isImage, fun u isUse => ?_⟩
  unfold pointing Scope.stands
  split
  · rename_i same
    have reaches := reaches (same ▸ isUse)
    refine ⟨same ▸ agrees.current x reaches, ?_⟩
    rcases reaches.fresh (fun _ _ => Repaired.ends_fresh) fresh with rfl | above
    · rw [if_neg (Nat.not_le.mpr repaired.below), same]
    · rw [if_pos above, same]
  · rename_i other
    have below := inside.uses u isUse
    exact ⟨agrees.others u below other, if_neg (Nat.not_le.mpr below)⟩

end Words

variable {env env' : Env} {new old : VarId}

/-! ## Definitions -/

/-- A word for variables other than the one under repair. -/
theorem Agrees.keep (agrees : Agrees s (s.ends heads tails) b last store store')
    (fresh : ∀ y, last = some y → s.base ≤ y) {defs : List VarId}
    (absent : s.var ∉ defs) (inside : ∀ d ∈ defs, d < s.base)
    (others : ∀ u < s.base, u ≠ s.var → env' u = env u)
    (kept : ∀ v, v ∉ defs → env v = store.env v ∧ env' v = store'.env v) :
    Agrees s (s.ends heads tails) b last { store with env := env } { store' with env := env' } := by
  refine ⟨others, fun x reaches => ?_, agrees.slots⟩
  have notDef : x ∉ defs := by
    rcases reaches.fresh (fun _ _ => Repaired.ends_fresh) fresh with rfl | above
    · exact absent
    · exact fun isDef => absurd (inside x isDef) (Nat.not_lt.mpr above)
  dsimp only
  rw [(kept x notDef).2, (kept s.var absent).1]
  exact agrees.current x reaches

/-- A word for the variable under repair, under a fresh name. -/
theorem Agrees.fresh (others : ∀ u < s.base, u ≠ s.var → env' u = env u)
    (same : env' x = env s.var) (slots : store'.slots = store.slots) :
    Agrees s ends b (some x) { store with env := env } { store' with env := env' } := by
  refine ⟨others, fun y reaches => ?_, slots⟩
  rw [reaches.of_some]
  exact same

/-! ## Simultaneous copies -/

theorem copy_env (store : Store) (dsts srcs : List VarId) (v : VarId) :
    (store.copy dsts srcs).env v =
      (((dsts.zip srcs).find? (·.1 == v)).map fun pair => store.env pair.2).getD (store.env v) := by
  rw [Store.copy]
  dsimp only
  cases (dsts.zip srcs).find? (·.1 == v) <;> rfl

theorem find?_zip_map (dsts srcs : List VarId) (f : VarId → VarId) (v : VarId) :
    (dsts.zip (srcs.map f)).find? (·.1 == v) =
      ((dsts.zip srcs).find? (·.1 == v)).map fun pair => (pair.1, f pair.2) := by
  rw [zip_map_right, find?_map]
  rfl

theorem copy_env_of_not_mem (absent : v ∉ dsts) : (store.copy dsts srcs).env v = store.env v := by
  have isNone : (dsts.zip srcs).find? (·.1 == v) = none := by
    refine find?_eq_none.mpr fun pair mem isV => absent ?_
    rw [beq_iff_eq] at isV
    exact isV ▸ (of_mem_zip (a := pair.1) (b := pair.2) mem).1
  rw [copy_env, isNone]
  rfl

private theorem find?_zip_replaceFirst (srcs : List VarId) (notOld : v ≠ old) (notNew : v ≠ new) :
    ((replaceFirst old new dsts).zip srcs).find? (·.1 == v) = (dsts.zip srcs).find? (·.1 == v) := by
  induction dsts generalizing srcs with
  | nil => rfl
  | cons d dsts ih =>
    cases srcs with
    | nil => simp
    | cons src srcs =>
      rw [replaceFirst]
      split
      · rename_i isOld
        rw [zip_cons_cons, zip_cons_cons, find?_cons_of_neg (by simpa using Ne.symm notNew),
          find?_cons_of_neg (by simpa [isOld] using Ne.symm notOld)]
      · rw [zip_cons_cons, zip_cons_cons, find?_cons, find?_cons, ih srcs]

private theorem find?_zip_replaceFirst_new (srcs : List VarId) (absent : new ∉ dsts)
    (mem : old ∈ dsts) : (((replaceFirst old new dsts).zip srcs).find? (·.1 == new)).map Prod.snd =
      ((dsts.zip srcs).find? (·.1 == old)).map Prod.snd := by
  induction dsts generalizing srcs with
  | nil => cases mem
  | cons d dsts ih =>
    rw [mem_cons, not_or] at absent
    cases srcs with
    | nil => simp
    | cons src srcs =>
      rw [replaceFirst]
      split
      · rename_i isOld
        rw [zip_cons_cons, zip_cons_cons, find?_cons_of_pos (by simp),
          find?_cons_of_pos (by simp [isOld])]
        rfl
      · rename_i notOld
        rw [zip_cons_cons, zip_cons_cons, find?_cons_of_neg (by simpa using Ne.symm absent.1),
          find?_cons_of_neg (by simpa using notOld)]
        exact ih srcs absent.2 (mem_of_ne_of_mem (Ne.symm notOld) mem)

private theorem exists_find?_zip (balanced : dsts.length = srcs.length) (mem : v ∈ dsts) :
    ∃ src, (dsts.zip srcs).find? (·.1 == v) = some (v, src) := by
  obtain ⟨n, lt, rfl⟩ := getElem_of_mem mem
  have paired : (dsts[n], srcs[n]) ∈ dsts.zip srcs := by
    rw [← getElem_zip (h := by rw [length_zip]; omega)]
    exact getElem_mem _
  have isFound : ((dsts.zip srcs).find? (·.1 == dsts[n])).isSome = true :=
    find?_isSome.mpr ⟨_, paired, beq_self_eq_true dsts[n]⟩
  obtain ⟨⟨dst, src⟩, found⟩ := Option.isSome_iff_exists.mp isFound
  have isDst := find?_some found
  rw [beq_iff_eq] at isDst
  dsimp only at isDst
  subst isDst
  exact ⟨src, found⟩

theorem copy_env_congr {dsts' : List VarId} {v' : VarId}
    (reads : ∀ u ∈ srcs, store'.env (f u) = store.env u)
    (found : ((dsts'.zip srcs).find? (·.1 == v')).map Prod.snd =
      ((dsts.zip srcs).find? (·.1 == v)).map Prod.snd)
    (other : (dsts.zip srcs).find? (·.1 == v) = none → store'.env v' = store.env v) :
    (store'.copy dsts' (srcs.map f)).env v' = (store.copy dsts srcs).env v := by
  rw [copy_env, copy_env, find?_zip_map]
  cases isFound : (dsts.zip srcs).find? (·.1 == v) with
  | none =>
    rw [isFound, Option.map_none, Option.map_eq_none_iff] at found
    rw [found]
    exact other isFound
  | some pair =>
    rw [isFound, Option.map_some, Option.map_eq_some_iff] at found
    obtain ⟨pair', isFound', sameSrc⟩ := found
    rw [isFound']
    change store'.env (f pair'.2) = store.env pair.2
    rw [sameSrc]
    exact reads _ (of_mem_zip (a := pair.1) (b := pair.2) (mem_of_find?_eq_some isFound)).2

/-! ## Silent instructions -/

section Silent

variable {next : Store} (repaired : Repaired q q' s heads tails)
include repaired

private theorem Agrees.slotOf (agrees : Agrees s ends b last store store') (lt : x < q'.nextVar) :
    store'.slotOf q' x = store.slotOf q (s.stands x) := by
  rw [Store.slotOf, Store.slotOf, (repaired.stands_var lt).2, agrees.slots]

variable (agrees : Agrees s (s.ends heads tails) b last store store')
  (fresh : ∀ y, last = some y → s.base ≤ y)
include agrees fresh

/-- Where a given definition reaches a silent instruction, the one that reaches the next holds the
word of the variable under repair. -/
theorem Agrees.silent (rename : Rename s top i k)
    (redirect : Redirect q s (s.ends heads tails) b last k j)
    (inside : i.Inside s.base) (inside' : j.Inside q'.nextVar)
    (silent : silent? q store i = some next) : ∃ next', silent? q' store' j = some next' ∧
      Agrees s (s.ends heads tails) b ((k.defs.find? (s.base ≤ ·)).or last) next next' ∧
      (j.reloaded?.map fun dst => (s.stands dst, store'.slotOf q' dst)) =
        i.reloaded?.map fun dst => (dst, store.slotOf q dst) := by
  obtain ⟨f, rfl, reads⟩ := agrees.reads repaired fresh rename redirect inside
  rcases rename.cases_find? inside.defs with
    ⟨absent, rfl, found⟩ | ⟨x, defines, above, rfl, found⟩ <;>
    rw [found]
  · rw [Option.none_or]
    cases k with
    | spill v =>
      obtain rfl := Option.some.inj silent
      obtain ⟨sameWord, stands⟩ := reads v mem_cons_self
      have web := (repaired.stands_var (inside'.uses (f v) mem_cons_self)).2
      rw [stands] at web
      refine ⟨_, rfl, ⟨agrees.others, agrees.current, ?_⟩, rfl⟩
      funext w
      change (if q'.web? (f v) = some w then store'.env (f v) else store'.slots w) = _
      rw [web, sameWord, agrees.slots]
      rfl
    | reload dst =>
      obtain rfl := Option.some.inj silent
      have below : dst < s.base := inside.defs dst mem_cons_self
      have isSelf : s.stands dst = dst := if_neg (Nat.not_le.mpr below)
      have sameSlot : store'.slotOf q' dst = store.slotOf q dst :=
        (agrees.slotOf repaired (inside'.defs dst mem_cons_self)).trans (congrArg _ isSelf)
      refine ⟨_, rfl, agrees.keep fresh absent inside.defs (fun u isOld notVar => ?_)
        fun v notDef => ?_, ?_⟩
      · rw [sameSlot, agrees.others u isOld notVar]
      · have other : v ≠ dst := fun isDst => notDef (isDst ▸ mem_cons_self)
        exact ⟨if_neg other, if_neg other⟩
      · change some (s.stands dst, store'.slotOf q' dst) = some (dst, store.slotOf q dst)
        rw [isSelf, sameSlot]
    | prepare dsts srcs argCount =>
      obtain rfl := Option.some.inj silent
      rw [Inst.mapUses_prepare]
      refine ⟨_, rfl, agrees.keep fresh absent inside.defs (fun u isOld notVar => ?_)
        fun v notDef => ?_, rfl⟩
      · exact copy_env_congr (fun u isSrc => (reads u isSrc).1) rfl
          fun _ => agrees.others u isOld notVar
      · exact ⟨copy_env_of_not_mem notDef, copy_env_of_not_mem notDef⟩
    | _ => cases silent
  · have isFresh {u : VarId} (isOld : u < s.base) : u ≠ x := fun same =>
      absurd (same ▸ isOld) (Nat.not_lt.mpr above)
    cases i with
    | spill v => cases defines
    | reload dst =>
      obtain rfl := Option.some.inj silent
      obtain rfl := mem_singleton.mp defines
      have isImage : redefine s.var x (.reload s.var) = .reload x := by
        change Inst.reload (if s.var = s.var then x else s.var) = _
        rw [if_pos rfl]
      rw [isImage] at inside' ⊢
      have isVar : s.stands x = s.var := if_pos above
      have sameSlot : store'.slotOf q' x = store.slotOf q s.var :=
        (agrees.slotOf repaired (inside'.defs x mem_cons_self)).trans (congrArg _ isVar)
      refine ⟨_, rfl, .fresh (fun u isOld notVar => ?_) ?_ agrees.slots, ?_⟩
      · rw [if_neg (isFresh isOld), if_neg notVar]
        exact agrees.others u isOld notVar
      · rw [if_pos rfl, if_pos rfl, sameSlot]
      · change some (s.stands x, store'.slotOf q' x) = some (s.var, store.slotOf q s.var)
        rw [isVar, sameSlot]
    | prepare dsts srcs argCount =>
      obtain rfl := Option.some.inj silent
      have reads : ∀ u ∈ srcs, store'.env (f u) = store.env u := fun u isSrc => (reads u isSrc).1
      rw [redefine, Inst.mapUses_prepare]
      refine ⟨_, rfl, .fresh (fun u isOld notVar => ?_) ?_ agrees.slots, rfl⟩
      · refine copy_env_congr reads ?_ fun _ => agrees.others u isOld notVar
        rw [find?_zip_replaceFirst srcs notVar (isFresh isOld)]
      · have absent : x ∉ dsts := fun isDst => isFresh (inside.defs x isDst) rfl
        refine copy_env_congr reads (find?_zip_replaceFirst_new srcs absent defines)
          fun isNone => ?_
        obtain ⟨src, found⟩ := exists_find?_zip inside.balanced defines
        rw [found] at isNone
        cases isNone
    | _ => cases silent

end Silent

/-! ## Points -/

/-- The same point of both procedures: what is left of the block, and what is stored. -/
structure Point (q q' : Procedure) (s : Scope) (heads : BlockId → Option Phi)
    (tails : BlockId → List Inst) (b : BlockId) (rest rest' : List Inst) (store store' : Store) :
    Prop where
  inside : ∀ i ∈ rest, i.Inside s.base
  inside' : ∀ j ∈ rest', j.Inside q'.nextVar
  here : ∃ last, Lines q s (s.ends heads tails) b last rest rest' ∧
    (s.last rest').or last = s.ends heads tails b ∧ (∀ y, last = some y → s.base ≤ y) ∧
    Agrees s (s.ends heads tails) b last store store'

variable {rest rest' : List Inst}

/-- The instruction at a point, in both procedures, and what remains to be shown for the next
point. -/
theorem Point.uncons (point : Point q q' s heads tails b (i :: rest) rest₀ store store') :
    ∃ j rest' last top k, rest₀ = j :: rest' ∧ i.Inside s.base ∧ j.Inside q'.nextVar ∧
      (∀ y, last = some y → s.base ≤ y) ∧ Agrees s (s.ends heads tails) b last store store' ∧
      (rest = [] → i.defs = [] → s.ends heads tails b = last) ∧ Rename s top i k ∧
      Redirect q s (s.ends heads tails) b last k j ∧
      ∀ next next',
        Agrees s (s.ends heads tails) b ((k.defs.find? (s.base ≤ ·)).or last) next next' →
          Point q q' s heads tails b rest rest' next next' := by
  obtain ⟨inside, inside', last, ⟨top, _, renames, redirects⟩, isEnd, fresh, agrees⟩ := point
  rw [forall_mem_cons] at inside
  cases renames with
  | @cons _ k _ raw rename renames =>
    cases redirects with
    | @cons _ _ j _ rest' here later =>
      rw [forall_mem_cons] at inside'
      rw [Scope.last_cons, here.defs, Option.or_assoc] at isEnd
      refine ⟨j, rest', last, top, k, rfl, inside.1, inside'.1, fresh, agrees, ?_, rename, here,
        fun next next' agrees' => ⟨inside.2, inside'.2, _, ⟨top, raw, renames, later⟩, isEnd,
          fun y isLast => ?_, agrees'⟩⟩
      · rintro rfl noDefs
        cases renames
        cases later
        rcases rename.cases_find? inside.1.defs with ⟨-, -, none⟩ | ⟨x, defines, -⟩
        · rw [none] at isEnd
          exact isEnd.symm
        · rw [noDefs] at defines
          cases defines
      · rcases Option.or_eq_some_iff.mp isLast with isDef | ⟨-, isLast⟩
        · have above := find?_some isDef
          exact of_decide_eq_true above
        · exact fresh y isLast

private theorem silent?_mapUses_eq_none (visible : silent? q store k = none) :
    silent? q' store' (k.mapUses f) = none := by
  cases k with
  | spill | reload | prepare => cases visible
  | _ => rfl

/-- All but copies ahead of calls are redefined by renaming. -/
theorem redefine_of_visible (visible : silent? q store i = none) :
    redefine s.var x i = i.mapDefs fun v => if v = s.var then x else v := by
  cases i with
  | prepare => cases visible
  | _ => rfl

private theorem silent?_mapDefs_eq_none (visible : silent? q store i = none) :
    silent? q store (i.mapDefs f) = none := by
  cases i with
  | spill | reload | prepare => cases visible
  | _ => rfl

section Runs

variable (repaired : Repaired q q' s heads tails)
variable {rest₀ : List Inst}

include repaired

section

variable (point : Point q q' s heads tails b (i :: rest) rest₀ store store')

include point

theorem Point.silent {next : Store} (silent : silent? q store i = some next) :
    ∃ j rest' next', rest₀ = j :: rest' ∧ silent? q' store' j = some next' ∧
      Point q q' s heads tails b rest rest' next next' ∧
      (j.reloaded?.map fun dst => (s.stands dst, store'.slotOf q' dst)) =
        i.reloaded?.map fun dst => (dst, store.slotOf q dst) := by
  obtain ⟨j, rest', last, top, k, rfl, lt, inside', fresh, agrees, -, rename, redirect, next⟩ :=
    point.uncons
  obtain ⟨next', silent', agrees', log⟩ :=
    agrees.silent repaired fresh rename redirect lt inside' silent
  exact ⟨j, rest', next', rfl, silent', next _ _ agrees', log⟩

theorem Point.reads : ∃ j rest' top k f, rest₀ = j :: rest' ∧ j = k.mapUses f ∧ Rename s top i k ∧
      Matches q q' store.env store'.env f k.uses := by
  obtain ⟨j, rest', last, top, k, rfl, lt, inside', fresh, agrees, -, rename, redirect, -⟩ :=
    point.uncons
  obtain ⟨f, isImage, reads⟩ := agrees.reads repaired fresh rename redirect lt
  refine ⟨j, rest', top, k, f, rfl, isImage, rename, fun u isUse => ?_⟩
  obtain ⟨sameWord, stands⟩ := reads u (rename.uses ▸ isUse)
  have below : f u < q'.nextVar := inside'.uses (f u) (by
    rw [isImage, Inst.uses_mapUses]
    exact mem_map_of_mem isUse)
  have sameTy := (repaired.stands_var below).1
  rw [stands] at sameTy
  exact ⟨sameWord, sameTy⟩

/-- Where one procedure has a visible instruction, so has the other, and it observes the same. -/
theorem Point.observes (visible : silent? q store i = none) :
    ∃ j rest', rest₀ = j :: rest' ∧ silent? q' store' j = none ∧
      ∀ (literal : String → Int32) (answer : Int32),
      observe literal q' answer store'.env j = observe literal q answer store.env i := by
  obtain ⟨_, rest', top, k, f, rfl, rfl, rename, same⟩ := point.reads repaired
  have source : silent? q store k = none ∧ ∀ (literal : String → Int32) (answer : Int32),
      observe literal q answer store.env k = observe literal q answer store.env i := by
    rcases rename with ⟨-, rfl⟩ | ⟨x, -, -, -, rfl⟩
    · exact ⟨visible, fun _ _ => rfl⟩
    · rw [redefine_of_visible visible]
      exact ⟨silent?_mapDefs_eq_none visible, fun _ _ => observe_mapDefs ..⟩
  exact ⟨_, rest', rfl, silent?_mapUses_eq_none source.1,
    fun literal answer => (observe_rename same).trans (source.2 literal answer)⟩

/-- A visible instruction leads to the next point or, where it ends the block, what reaches the end
of the block holds the word of the variable under repair. -/
theorem Point.visible {literal : String → Int32} {answer : Int32} {event : Event}
    (visible : silent? q store i = none)
    (observed : observe literal q answer store.env i = some event) :
    ∃ j rest', rest₀ = j :: rest' ∧ observe literal q' answer store'.env j = some event ∧
      Point q q' s heads tails b rest rest'
        { store with env := store.env.define i.defs event.result }
        { store' with env := store'.env.define j.defs event.result } ∧
      (rest = [] → i.defs = [] → Agrees s (s.ends heads tails) b
        (s.ends heads tails b) store store') := by
  obtain ⟨j, rest', rfl, -, observes⟩ := point.observes repaired visible
  obtain ⟨_, _, last, top, k, isSame, inside, -, fresh, agrees, isEnd, rename, redirect, next⟩ :=
    point.uncons
  obtain ⟨rfl, rfl⟩ := List.cons.inj isSame
  refine ⟨j, rest', rfl, (observes literal answer).trans observed, ?_,
    fun noRest noDefs => (isEnd noRest noDefs).symm ▸ agrees⟩
  have defs := redirect.defs
  rcases rename.cases_find? inside.defs with
    ⟨absent, rfl, found⟩ | ⟨x, defines, above, rfl, found⟩ <;>
    rw [found] at next
  · rw [defs]
    refine next _ _ (agrees.keep fresh absent inside.defs (fun u isOld notVar => ?_)
      fun v notDef => ?_)
    · unfold Env.define
      rw [agrees.others u isOld notVar]
    · have notDef : k.defs.contains v = false := by simpa using notDef
      unfold Env.define
      rw [notDef]
      exact ⟨rfl, rfl⟩
  · rw [redefine_of_visible visible, Inst.defs_mapDefs] at defs
    refine next _ _ (.fresh (fun u isOld notVar => ?_) ?_ agrees.slots)
    · have sameDef : j.defs.contains u = i.defs.contains u := by
        rw [Bool.eq_iff_iff, List.contains_iff_mem, List.contains_iff_mem, defs, mem_map]
        constructor
        · rintro ⟨d, isDef, rfl⟩
          split at isOld
          · exact absurd isOld (Nat.not_lt.mpr above)
          · split
            · contradiction
            · exact isDef
        · exact fun isDef => ⟨u, isDef, if_neg notVar⟩
      unfold Env.define
      rw [sameDef, agrees.others u isOld notVar]
    · have isDef : j.defs.contains x = true := by
        rw [List.contains_iff_mem, defs, mem_map]
        exact ⟨s.var, defines, if_pos rfl⟩
      unfold Env.define
      rw [isDef, List.contains_iff_mem.mpr defines]
      rfl

end

/-- Both procedures settle at the same point, after reloads of the same words. -/
theorem Point.settle (point : Point q q' s heads tails b rest rest' store store') :
    Point q q' s heads tails b (settle q rest store).1 (Machine.settle q' rest' store').1
        (Machine.settle q rest store).2 (Machine.settle q' rest' store').2 ∧
      (reloads q' rest' store').map (fun log => (s.stands log.1, log.2)) =
        reloads q rest store := by
  induction rest generalizing rest' store store' with
  | nil =>
    obtain ⟨last, ⟨_, _, ⟨⟩, ⟨⟩⟩, -⟩ := point.here
    exact ⟨point, rfl⟩
  | cons i rest ih =>
    cases silent : silent? q store i with
    | none =>
      obtain ⟨j, rest₁, rfl, silent', -⟩ := point.observes repaired silent
      rw [settle_visible silent, settle_visible silent', reloads_visible silent,
        reloads_visible silent']
      exact ⟨point, rfl⟩
    | some next =>
      obtain ⟨j, rest₁, next', rfl, silent', point', log⟩ := point.silent repaired silent
      obtain ⟨settled, logs⟩ := ih point'
      rw [settle_silent silent, settle_silent silent', reloads_silent silent,
        reloads_silent silent', map_append, logs, ← log]
      refine ⟨settled, ?_⟩
      cases j.reloaded? <;> rfl

end Runs

/-! ## Edges -/

section Edges

variable {c : BlockId} {phi : Phi} {slot : Nat}

/-- The word of the argument that a phi has for a predecessor's position. -/
def argWord (env : Env) (slot : Nat) (phi : Phi) : Option Int32 := phi.args[slot]?.join.bind env

/-- A redirected phi takes the same word over an edge, and reads it if it is in memory. -/
theorem Redirect.phiWord_eq (redirect : Redirect q s ends c last (.phi phi) j)
    (agrees : Agrees s ends b (ends b) store store') (inside : ∀ a, some a ∈ phi.args → a < s.base)
    (isPred : (q.block c).preds[slot]? = some b) :
    ∃ args, j = .phi { phi with args := args } ∧
      argWord store'.env slot { phi with args := args } = argWord store.env slot phi ∧
      phiWord store'.env slot { phi with args := args } = phiWord store.env slot phi := by
  cases redirect with
  | @phi _ args length kept found =>
    have sameWord : argWord store'.env slot { phi with args := args } =
        argWord store.env slot phi := by
      unfold argWord
      dsimp only
      cases isArg : phi.args[slot]? with
      | none =>
        have none' : args[slot]? = none := by
          rw [List.getElem?_eq_none_iff, length]
          exact List.getElem?_eq_none_iff.mp isArg
        rw [none']
        rfl
      | some a =>
        by_cases isVar : a = some s.var
        · subst isVar
          obtain ⟨x, pred, isPred', isFound, reaches⟩ := found slot isArg
          rw [isPred, Option.some.injEq] at isPred'
          subst isPred'
          rw [isFound]
          exact agrees.current x reaches
        · rw [kept slot a isArg isVar]
          cases a with
          | none => rfl
          | some u =>
            exact agrees.others u (inside u (mem_of_getElem? isArg)) fun same => isVar (same ▸ rfl)
    exact ⟨args, rfl, sameWord, congrArg (fun word => if phi.inMemory then none else word) sameWord⟩
  | unread other => cases other
  | read other => cases other

/-- The phis of a block take the same words over an edge; one for the variable under repair gives it
a fresh name. -/
theorem Lines.phis {phis : List Phi} {body image : List Inst}
    (lines : Lines q s ends c last (phis.map Inst.phi ++ body) image)
    (distinct : (phis.map Phi.dst).Nodup) (inside : ∀ phi ∈ phis, phi.dst < s.base)
    (args : ∀ phi ∈ phis, ∀ a, some a ∈ phi.args → a < s.base)
    (agrees : Agrees s ends b (ends b) store store') (isPred : (q.block c).preds[slot]? = some b) :
    ∃ (phis' : List Phi) (body' : List Inst) (last' : Option VarId),
      image = phis'.map Inst.phi ++ body' ∧ Lines q s ends c last' body body' ∧
      (s.last body').or last' = (s.last image).or last ∧
      phis'.map (argWord store'.env slot) = phis.map (argWord store.env slot) ∧
      (∀ u < s.base, u ≠ s.var → (phis'.find? (·.dst == u)).map (phiWord store'.env slot) =
          (phis.find? (·.dst == u)).map (phiWord store.env slot)) ∧
      ((last' = last ∧ phis.find? (·.dst == s.var) = none ∧ ∀ phi ∈ phis', phi.dst < s.base ∧
        phi.dst ≠ s.var) ∨
        ∃ x word, last' = some x ∧ s.base ≤ x ∧
        (phis'.find? (·.dst == x)).map (phiWord store'.env slot) = some word ∧
          (phis.find? (·.dst == s.var)).map (phiWord store.env slot) = some word) := by
  induction phis generalizing last image with
  | nil => exact ⟨[], image, last, rfl, lines, rfl, rfl, fun _ _ _ => rfl, .inl ⟨rfl, rfl, nofun⟩⟩
  | cons phi rest ih =>
    rw [map_cons, nodup_cons] at distinct
    rw [forall_mem_cons] at inside args
    obtain ⟨top, _, _ | ⟨rename, renames⟩, _ | ⟨here, later⟩⟩ := lines
    obtain ⟨phis', body', last', rfl, lines', isEnd, sameArgs, others, current⟩ :=
      ih ⟨top, _, renames, later⟩ distinct.2 inside.2 args.2
    rcases rename.cases_find? (forall_mem_singleton.mpr inside.1) with
      ⟨absent, rfl, found⟩ | ⟨x, defines, above, rfl, found⟩ <;>
      rw [found] at isEnd current
    · obtain ⟨args', rfl, sameArg, sameWord⟩ := here.phiWord_eq agrees args.1 isPred
      have notVar : phi.dst ≠ s.var := fun same => absent (same ▸ mem_cons_self)
      refine ⟨{ phi with args := args' } :: phis', body', last', rfl, lines', ?_,
        cons_eq_cons.mpr ⟨sameArg, sameArgs⟩, fun u isOld other => ?_, ?_⟩
      · rw [isEnd, Scope.last_cons, here.defs, found, Option.or_assoc]
      · by_cases isDst : phi.dst = u
        · rw [find?_cons_of_pos (by simpa using isDst), find?_cons_of_pos (by simpa using isDst)]
          exact congrArg some sameWord
        · rw [find?_cons_of_neg (by simpa using isDst), find?_cons_of_neg (by simpa using isDst)]
          exact others u isOld other
      · rw [find?_cons_of_neg (by simpa using notVar)]
        refine current.imp (fun facts => ⟨facts.1, facts.2.1, ?_⟩) ?_
        · exact forall_mem_cons.mpr ⟨⟨inside.1, notVar⟩, facts.2.2⟩
        · rintro ⟨x, word, isLast, above, found, isWord⟩
          refine ⟨x, word, isLast, above, ?_, isWord⟩
          rwa [find?_cons_of_neg]
          simpa using Nat.ne_of_lt (Nat.lt_of_lt_of_le inside.1 above)
    · have isVar : phi.dst = s.var := (mem_singleton.mp defines).symm
      have isImage : redefine s.var x (.phi phi) = .phi { phi with dst := x } := by
        change Inst.phi { phi with dst := if phi.dst = s.var then x else phi.dst } = _
        rw [if_pos isVar]
      rw [isImage] at here found
      have defs := here.defs
      obtain ⟨args', rfl, sameArg, sameWord⟩ := here.phiWord_eq agrees args.1 isPred
      refine ⟨_ :: phis', body', last', rfl, lines', ?_, cons_eq_cons.mpr ⟨sameArg, sameArgs⟩,
        fun u isOld other => ?_, .inr ?_⟩
      · rw [isEnd, Scope.last_cons, defs, found, Option.or_assoc]
      · rw [find?_cons_of_neg, find?_cons_of_neg]
        · exact others u isOld other
        · simpa [isVar] using Ne.symm other
        · simpa using Ne.symm (Nat.ne_of_lt (Nat.lt_of_lt_of_le isOld above))
      · rw [find?_cons_of_pos (by simpa using isVar)]
        rcases current with ⟨isLast, -, -⟩ | ⟨x', word, -, -, -, again⟩
        · refine ⟨x, _, isLast, above, ?_, rfl⟩
          rw [find?_cons_of_pos (by simp)]
          exact congrArg some sameWord
        · obtain ⟨phi', isFound, -⟩ := Option.map_eq_some_iff.mp again
          have isDst := find?_some isFound
          rw [beq_iff_eq] at isDst
          refine absurd ?_ distinct.1
          rw [isVar, ← isDst]
          exact mem_map_of_mem (mem_of_find?_eq_some isFound)

private theorem assignPhis_env (phis : List Phi) (slot : Nat) (store : Store) (v : VarId) :
    (assignPhis phis slot store).env v =
      ((phis.find? (·.dst == v)).map (phiWord store.env slot)).getD (store.env v) := by
  unfold assignPhis
  dsimp only
  cases phis.find? (·.dst == v) <;> rfl

/-- Crossing an edge leads to the same point, and the phis that were there before the repair read
the same words on it. -/
theorem Agrees.enter (repaired : Repaired q q' s heads tails) (wf : q.WellFormed)
    (bounded : q.Bounded) (distinct : ((q.block c).phis.map Phi.dst).Nodup)
    (agrees : Agrees s (s.ends heads tails) b (s.ends heads tails b) store store')
    (edge : c ∈ (q.block b).succs) (taken : Bool) :
    Point q q' s heads tails c (enter q b taken store c).rest (enter q' b taken store' c).rest
        (enter q b taken store c).store (enter q' b taken store' c).store ∧
      (q.block c).phis.map (argWord store.env (slotFrom (q.block c) b taken)) <:+
        (q'.block c).phis.map (argWord store'.env (slotFrom (q.block c) b taken)) := by
  have lt := (wf.inside b c edge).1
  have lt' : c < q'.blocks.size := repaired.graph.size ▸ lt
  obtain ⟨shape⟩ := wf.shape c lt
  have isPred := slotFrom_spec ((wf.mem_preds lt).mpr edge) taken
  have lines := repaired.lines c lt
  have inPhis {phi : Phi} (mem : phi ∈ (q.block c).phis) : Inst.phi phi ∈ (q.block c).insts :=
    shape.mem_phis.mpr mem
  rw [Block.insts_eq] at lines
  obtain ⟨phis', body', last', isTail, lines', isEnd, sameArgs, others, current⟩ :=
    lines.phis distinct
    (fun phi mem => repaired.base ▸ bounded.defs c lt _ (inPhis mem) _ (mem_singleton.mpr rfl))
    (fun phi mem => repaired.base ▸ bounded.phiArgs c lt phi (inPhis mem)) agrees isPred
  have noPhi := lines'.isPhi shape.isPhi_body
  have insts' : (q'.block c).insts = ((heads c).toList ++ phis').map Inst.phi ++ body' := by
    rw [repaired.insts c lt, code, isTail, map_append, append_assoc]
  obtain ⟨isPhis, isBody⟩ := Block.phis_body_of_insts insts' noPhi
  have sameSlot : slotFrom (q'.block c) b taken = slotFrom (q.block c) b taken := by
    unfold slotFrom
    rw [repaired.graph.preds c]
  unfold Machine.enter
  dsimp only
  rw [isPhis, isBody, sameSlot, map_append, sameArgs]
  refine ⟨?_, suffix_append ..⟩
  generalize slotFrom (q.block c) b taken = slot at isPred others current
  have headFresh {phi : Phi} (isHead : heads c = some phi) : s.base ≤ phi.dst :=
    (repaired.head c phi isHead).fresh
  have skipHead {u : VarId} (other : ∀ phi, heads c = some phi → phi.dst ≠ u) :
      ((heads c).toList ++ phis').find? (·.dst == u) = phis'.find? (·.dst == u) := by
    have none : (heads c).toList.find? (·.dst == u) = none :=
      find?_eq_none.mpr fun phi mem => by simpa using other phi (Option.mem_toList.mp mem)
    rw [find?_append, none, Option.none_or]
  refine ⟨fun i mem => ?_, fun j mem => ?_, last', lines', ?_, fun y isLast => ?_,
    ⟨fun u isOld notVar => ?_, fun x reaches => ?_, agrees.slots⟩⟩
  · rw [repaired.base]
    refine bounded.inside lt ?_ (shape.isPhi_body i mem)
    rw [Block.insts_eq]
    exact mem_append_right _ mem
  · exact repaired.bounded.inside lt' (insts' ▸ mem_append_right _ mem) (noPhi j mem)
  · rw [isEnd, Scope.ends, code, repaired.isFresh.last_eq]
  · rcases current with ⟨rfl, -, -⟩ | ⟨x, word, rfl, above, -, -⟩
    · obtain ⟨phi, isHead, rfl⟩ := Option.map_eq_some_iff.mp isLast
      exact headFresh isHead
    · exact Option.some.inj isLast ▸ above
  · rw [assignPhis_env, assignPhis_env, skipHead, others u isOld notVar,
      agrees.others u isOld notVar]
    exact fun phi isHead => Ne.symm (Nat.ne_of_lt (Nat.lt_of_lt_of_le isOld (headFresh isHead)))
  · rw [assignPhis_env, assignPhis_env]
    rcases current with ⟨rfl, noPhiOfVar, kept⟩ | ⟨y, word, rfl, above, found, isWord⟩
    · rw [noPhiOfVar]
      cases isHead : heads c with
      | some phi =>
        rw [isHead] at reaches
        obtain rfl := reaches.of_some
        obtain ⟨y, isArg, reaches⟩ := repaired.filled c lt phi isHead slot b isPred id
        rw [Option.toList_some, singleton_append, find?_cons_of_pos (by simp)]
        change phiWord store'.env slot phi = store.env s.var
        rw [phiWord, (repaired.head c phi isHead).inRegister, isArg]
        exact agrees.current y reaches
      | none =>
        rw [isHead] at reaches
        have absent : phis'.find? (·.dst == x) = none := by
          refine find?_eq_none.mpr fun phi mem isX => ?_
          rw [beq_iff_eq] at isX
          obtain ⟨isOld, notVar⟩ := kept phi mem
          have noHead : ∀ y, (none : Option VarId) = some y → s.base ≤ y := fun _ isHead =>
            absurd isHead (Option.some_ne_none _).symm
          rcases reaches.fresh (fun _ _ => Repaired.ends_fresh) noHead with isVar | above
          · exact notVar (isX.trans isVar)
          · exact absurd (isX ▸ isOld) (Nat.not_lt.mpr above)
        rw [Option.toList_none, nil_append, absent]
        exact agrees.current x (repaired.edge b c edge x reaches)
    · obtain rfl := reaches.of_some
      rw [skipHead, found, isWord]
      · rfl
      · intro phi isHead same
        obtain ⟨phi', isFound, -⟩ := Option.map_eq_some_iff.mp found
        have isDst := find?_some isFound
        rw [beq_iff_eq] at isDst
        refine (repaired.head c phi isHead).absent (.phi phi') ?_ ?_
        · rw [isTail]
          exact mem_append_left _ (mem_map_of_mem (mem_of_find?_eq_some isFound))
        · rw [same, ← isDst]
          exact mem_singleton.mpr rfl

end Edges

end Repair

end ArmBackend
