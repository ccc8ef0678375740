import ArmBackend.Coloring
import ArmBackend.Proofs.FlowGraph.Padding

/-!
Contract: colouring gives registers to definitions and changes nothing else.

Every step of colouring comes down to values that are given registers one after another, each of
them a register that nothing owns.

Owns: procedures that differ in registers only, which variables each step of colouring gives which
registers, and that a register once given is not taken away.
Does not own: which values own registers at once, and when registers are released.
-/

namespace ArmBackend

open List Procedure

theorem RegSet.contains_ofList {regs : List Reg} {r : Reg} :
    (ofList regs).contains r = true ↔ r ∈ regs := by
  have inserted : ∀ (regs : List Reg) (set : RegSet), (regs.foldl insert set).contains r = true ↔
      set.contains r = true ∨ r ∈ regs := by
    intro regs
    induction regs with
    | nil => simp
    | cons q rest ih =>
      intro set
      rw [foldl_cons, ih, contains_insert, Bool.or_eq_true, decide_eq_true_eq, mem_cons, or_assoc,
        eq_comm (a := q)]
  rw [ofList, inserted, contains_empty]
  simp

namespace Procedure

variable {p q r : Procedure}

/-- The procedures differ in the registers of variables only. -/
structure SameButRegs (p q : Procedure) : Prop where
  rest : q = { p with vars := q.vars }
  count : q.nextVar = p.nextVar
  var : ∀ v, q.var v = { p.var v with reg := q.reg? v }

theorem reg?_setReg (p : Procedure) (u v : VarId) (r : Option Reg) :
    (p.setReg u r).reg? v = if u = v ∧ v < p.nextVar then r else p.reg? v := by
  have isVar : (p.setReg u r).var v = if u = v ∧ v < p.nextVar then { p.var v with reg := r }
      else p.var v :=
    Tables.getD_modify p.vars u v _ default
  rw [reg?, isVar]
  split <;> rfl

namespace SameButRegs

theorem refl (p : Procedure) : p.SameButRegs p := ⟨rfl, rfl, fun _ => rfl⟩

theorem trans (first : p.SameButRegs q) (second : q.SameButRegs r) : p.SameButRegs r where
  rest := by
    rw [second.rest, first.rest]
  count := second.count.trans first.count
  var v := by
    rw [second.var v, first.var v]

theorem setReg (p : Procedure) (v : VarId) (r : Option Reg) : p.SameButRegs (p.setReg v r) where
  rest := rfl
  count := by simp [Procedure.setReg, modifyVar, nextVar]
  var u := by
    rw [reg?_setReg, Procedure.setReg, modifyVar, Procedure.var, Tables.getD_modify]
    change (if v = u ∧ u < p.nextVar then _ else _) = _
    split <;> rfl

theorem sameBlocks (same : p.SameButRegs q) : p.SameBlocks q := by
  rw [same.rest]
  exact ⟨rfl, rfl, rfl, rfl⟩

theorem insts (same : p.SameButRegs q) : q.insts = p.insts := by
  rw [Procedure.insts, same.sameBlocks.blocks]
  rfl

theorem ty (same : p.SameButRegs q) (v : VarId) : (q.var v).ty = (p.var v).ty := by rw [same.var v]

theorem web? (same : p.SameButRegs q) (v : VarId) : q.web? v = p.web? v := by
  rw [Procedure.web?, same.var v]
  rfl

theorem bounded (same : p.SameButRegs q) (bounded : p.Bounded) : q.Bounded := by
  obtain ⟨rest, count, -⟩ := same
  generalize q.vars = vars at rest
  subst rest
  exact ⟨fun a isArg => count ▸ bounded.args a isArg,
    fun b lt i mem d isDef => count ▸ bounded.defs b lt i mem d isDef,
    fun b lt i mem u isUse => count ▸ bounded.uses b lt i mem u isUse,
    fun b lt phi mem a isArg => count ▸ bounded.phiArgs b lt phi mem a isArg, bounded.balanced⟩

end SameButRegs

end Procedure

namespace RegisterFile

variable {file file' : RegisterFile} {r : Reg} {v : VarId}

theorem owner?_of_assign? (ok : file.assign? r v = some file') :
    file.owner? r = none ∧ ∀ q, file'.owner? q = if r = q then some v else file.owner? q := by
  unfold assign? at ok
  split at ok
  · cases ok
  · rename_i unused
    obtain rfl := Option.some.inj ok
    refine ⟨by simpa [isUsed] using unused, fun q => ?_⟩
    exact RegTable.lookup_update ..

theorem allocatable_of_assign? (ok : file.assign? r v = some file') :
    file'.allocatable = file.allocatable := by
  unfold assign? at ok
  split at ok
  · cases ok
  · rw [← Option.some.inj ok]

theorem exists_assign? (unused : file.owner? r = none) (v : VarId) :
    ∃ file', file.assign? r v = some file' := by
  unfold assign?
  rw [if_neg (by simp [isUsed, unused])]
  exact ⟨_, rfl⟩

theorem of_isFree (free : file.isFree r = true) :
    file.allocatable.contains r = true ∧ file.owner? r = none := by
  rw [isFree, Bool.and_eq_true] at free
  exact ⟨free.1, by simpa [isUsed] using free.2⟩

private theorem of_allocate? {floor : Reg} (ok : file.allocate? floor v = some (r, file')) :
    file.assign? r v = some file' ∧ floor ≤ r ∧ file.allocatable.contains r = true := by
  obtain ⟨r', found, ok⟩ := Option.bind_eq_some_iff.mp ok
  obtain ⟨file'', assigned, same⟩ := Option.bind_eq_some_iff.mp ok
  obtain ⟨rfl, rfl⟩ := Prod.mk.inj (Option.some.inj same)
  have test := find?_some found
  rw [Bool.and_eq_true, decide_eq_true_eq] at test
  exact ⟨assigned, test.1, (of_isFree test.2).1⟩

theorem owner?_clear (file : RegisterFile) (r : Reg) :
    file.clear.owner? r = none := RegTable.lookup_fill ..

end RegisterFile

namespace Coloring

variable {live : Liveness} {exitReads : List VarId} {p q : Procedure}

/-- There are eight to thirteen registers, four of them for arguments. -/
theorem of_validate {config : Config} (valid : config.validate = .ok ()) :
    config.argRegisters = 4 ∧ 8 ≤ config.registers ∧ config.registers ≤ 13 := by
  unfold Config.validate at valid
  split at valid
  · cases valid
  · rename_i few
    split at valid
    · cases valid
    · rename_i enough
      have isFour : config.argRegisters = 4 := Decidable.not_not.mp few
      have least : config.leastRegisters = 8 := by rw [Config.leastRegisters, isFour]
      have most : mostRegisters = 13 := rfl
      omega

/-- The listed variables have registers in the second procedure; nothing else changed. -/
structure Recolors (vars : List VarId) (p q : Procedure) : Prop extends p.SameButRegs q where
  kept : ∀ v ∉ vars, q.reg? v = p.reg? v
  given : ∀ v ∈ vars, v < p.nextVar → (q.reg? v).isSome = true

namespace Recolors

variable {vars more : List VarId} {r : Procedure}

theorem refl (p : Procedure) : Recolors [] p p := ⟨.refl p, fun _ _ => rfl, by simp⟩

theorem stays (recolors : Recolors vars p q) {v : VarId} (colored : (p.reg? v).isSome = true) :
    (q.reg? v).isSome = true := by
  by_cases listed : v ∈ vars
  · refine recolors.given v listed (Nat.lt_of_not_le fun above => ?_)
    have outside : p.var v = default := Tables.getD_of_size_le p.vars default above
    rw [reg?, outside] at colored
    cases colored
  · rwa [recolors.kept v listed]

theorem trans (first : Recolors vars p q) (second : Recolors more q r) :
    Recolors (vars ++ more) p r where
  toSameButRegs := first.toSameButRegs.trans second.toSameButRegs
  kept v unlisted := by
    rw [mem_append, not_or] at unlisted
    rw [second.kept v unlisted.2, first.kept v unlisted.1]
  given v mem below := by
    rcases mem_append.mp mem with isFirst | isSecond
    · exact second.stays (first.given v isFirst below)
    · exact second.given v isSecond (first.count ▸ below)

theorem congr (recolors : Recolors vars p q) (same : ∀ v, v ∈ vars ↔ v ∈ more) :
    Recolors more p q :=
  ⟨recolors.toSameButRegs, fun v unlisted => recolors.kept v (mt (same v).mp unlisted),
    fun v mem => recolors.given v ((same v).mpr mem)⟩

private theorem setReg (p : Procedure) (v : VarId) (r : Reg) :
    Recolors [v] p (p.setReg v (some r)) where
  toSameButRegs := .setReg p v _
  kept u unlisted := by
    rw [reg?_setReg, if_neg fun both => unlisted (mem_singleton.mpr both.1.symm)]
  given u mem below := by
    obtain rfl := mem_singleton.mp mem
    rw [reg?_setReg, if_pos ⟨rfl, below⟩]
    rfl

private theorem foldlM {α : Type} (varsOf : α → List VarId) {f : State → α → Except Error State}
    {entries : List α} {s s' : State}
    (step : ∀ before after entry, f before entry = .ok after →
      Recolors (varsOf entry) before.proc after.proc)
    (ok : entries.foldlM f s = .ok s') : Recolors (entries.flatMap varsOf) s.proc s'.proc :=
  foldlM_induction (fun done (after : State) => Recolors (done.flatMap varsOf) s.proc after.proc)
    (fun done entry _ _ _ _ known stepped => by
      rw [flatMap_append, flatMap_singleton]
      exact known.trans (step _ _ _ stepped)) (.refl _) ok

end Recolors

/-- The definitions of an instruction that get a register. -/
def placed : Inst → List VarId
  | .prepare defs srcs argCount => defs.take argCount ++
    ((defs.zip srcs).drop argCount).map Prod.fst
  | i => if definesRegister i then i.defs else []

theorem placed_of_ne {i : Inst} (other : ∀ defs srcs argCount, i ≠ .prepare defs srcs argCount) :
    placed i = if definesRegister i then i.defs else [] := by
  cases i with
  | prepare defs srcs argCount => exact absurd rfl (other _ _ _)
  | _ => rfl

theorem placed_subset {i : Inst} {v : VarId} (mem : v ∈ placed i) : v ∈ i.defs := by
  by_cases isPrepare : ∃ defs srcs argCount, i = .prepare defs srcs argCount
  · obtain ⟨defs, srcs, argCount, rfl⟩ := isPrepare
    rcases mem_append.mp mem with isArgument | isCarried
    · exact mem_of_mem_take isArgument
    · obtain ⟨copy, isCopy, rfl⟩ := mem_map.mp isCarried
      exact (of_mem_zip (mem_of_mem_drop isCopy)).1
  · rw [placed_of_ne fun defs srcs argCount same => isPrepare ⟨defs, srcs, argCount, same⟩] at mem
    split at mem
    · exact mem
    · cases mem

theorem mem_defs_of_placed {insts : List Inst} {v : VarId} (mem : v ∈ insts.flatMap placed) :
    v ∈ insts.flatMap Inst.defs := by
  obtain ⟨i, inInsts, mem⟩ := mem_flatMap.mp mem
  exact mem_flatMap.mpr ⟨i, inInsts, placed_subset mem⟩

variable {s s' s'' : State} {b : BlockId} {v : VarId} {r : Reg}

/-! ## Giving registers -/

/-- Values are given registers one after another, each a register that nothing owns. -/
inductive Places : State → List (VarId × Reg) → State → Prop
  | nil {s : State} : Places s [] s
  | cons {s s' : State} {v : VarId} {r : Reg} {file : RegisterFile} {rest : List (VarId × Reg)}
      (assigned : s.file.assign? r v = some file) (more : Places (s.setReg v r file) rest s') :
      Places s ((v, r) :: rest) s'

namespace Places

variable {entries more : List (VarId × Reg)}

theorem trans (first : Places s entries s') (second : Places s' more s'') :
    Places s (entries ++ more) s'' := by
  induction first with
  | nil => exact second
  | cons assigned _ ih => exact .cons assigned (ih second)

section

variable (places : Places s entries s')

include places

theorem recolors : Recolors (entries.map Prod.fst) s.proc s'.proc := by
  induction places with
  | nil => exact .refl _
  | @cons s s' v r file rest assigned _ ih =>
    exact (Recolors.setReg s.proc v r).trans ih

theorem recent : s'.recent = s.recent := by
  induction places with
  | nil => rfl
  | cons assigned _ ih => exact ih

theorem allocatable : s'.file.allocatable = s.file.allocatable := by
  induction places with
  | nil => rfl
  | cons assigned _ ih =>
    exact ih.trans (RegisterFile.allocatable_of_assign? assigned)

theorem reg?_eq (nodup : (entries.map Prod.fst).Nodup) (mem : (v, r) ∈ entries)
    (below : v < s.proc.nextVar) : s'.proc.reg? v = some r := by
  induction places with
  | nil => cases mem
  | @cons s s' u q file rest assigned more ih =>
    rw [map_cons, nodup_cons] at nodup
    rcases mem_cons.mp mem with isFirst | later
    · obtain ⟨rfl, rfl⟩ := Prod.mk.inj isFirst
      rw [more.recolors.kept v nodup.1]
      exact (reg?_setReg ..).trans (if_pos ⟨rfl, below⟩)
    · exact ih nodup.2 later ((SameButRegs.setReg s.proc u (some q)).count.symm ▸ below)

theorem reg?_cases (isReg : s'.proc.reg? v = some r) :
    s.proc.reg? v = some r ∨ (v, r) ∈ entries := by
  induction places with
  | nil => exact .inl isReg
  | @cons s s' u q file rest assigned more ih =>
    rcases ih isReg with early | late
    · change (s.proc.setReg u (some q)).reg? v = some r at early
      rw [reg?_setReg] at early
      split at early
      · rename_i here
        rw [here.1, Option.some.inj early]
        exact .inr mem_cons_self
      · exact .inl early
    · exact .inr (mem_cons_of_mem _ late)

end

theorem foldlM (suits : RegSet → Reg → Prop) {f : State → VarId → Except Error State}
    {vars : List VarId}
    (step : ∀ s s' v, f s v = .ok s' → ∃ r, Places s [(v, r)] s' ∧ suits s.file.allocatable r)
    (ok : vars.foldlM f s = .ok s') :
    ∃ entries, Places s entries s' ∧ entries.map Prod.fst = vars ∧
      ∀ entry ∈ entries, suits s.file.allocatable entry.2 := by
  induction vars generalizing s with
  | nil =>
    obtain rfl := Except.ok.inj ok
    exact ⟨[], .nil, rfl, forall_mem_nil _⟩
  | cons v rest ih =>
    rw [foldlM_cons] at ok
    obtain ⟨s₁, stepped, ok⟩ := bind_eq_ok ok
    obtain ⟨r, first, isSuited⟩ := step s s₁ v stepped
    obtain ⟨entries, places, vars, suited⟩ := ih ok
    refine ⟨(v, r) :: entries, first.trans places, by rw [map_cons, vars], ?_⟩
    exact forall_mem_cons.mpr ⟨isSuited, first.allocatable ▸ suited⟩

end Places

variable {argCount : Nat} {config : Config} {i : Inst × Nat}

theorem places_allocate {floor : Reg} (ok : s.allocate b floor v = .ok s') :
    ∃ r, Places s [(v, r)] s' ∧ floor ≤ r ∧ s.file.allocatable.contains r = true := by
  unfold State.allocate at ok
  split at ok
  · rename_i r file allocated
    obtain rfl := Except.ok.inj ok
    obtain ⟨assigned, above, lt⟩ := RegisterFile.of_allocate? allocated
    exact ⟨r, .cons assigned .nil, above, lt⟩
  · cases ok

private theorem places_define (ok : State.define b s v = .ok s') :
    ∃ r, Places s [(v, r)] s' ∧ s.file.allocatable.contains r = true := by
  unfold State.define at ok
  split at ok
  · cases ok
  · obtain ⟨r, places, -, lt⟩ := places_allocate ok
    exact ⟨r, places, lt⟩

theorem places_defines {vars : List VarId} (ok : vars.foldlM (State.define b) s = .ok s') :
    ∃ entries, Places s entries s' ∧ entries.map Prod.fst = vars ∧
      ∀ entry ∈ entries, s.file.allocatable.contains entry.2 = true :=
  Places.foldlM (fun allocatable r => allocatable.contains r = true) (fun _ _ _ => places_define) ok

/-! ## Copies -/

/-- Arguments are pinned to the registers from number `index` on, as long as these have no owner. -/
theorem places_pinArguments {index : Nat} {args : List VarId}
    (above : ∀ r : Reg, index ≤ r.val → s.file.owner? r = none)
    (ok : (args.zipIdx index).foldlM (State.pinArgument argCount) s = .ok s') :
    ∃ entries, Places s entries s' ∧ entries.map Prod.fst = args ∧
      entries.map (·.2.val) = List.range' index args.length := by
  induction args generalizing s index with
  | nil =>
    obtain rfl := Except.ok.inj ok
    exact ⟨[], .nil, rfl, rfl⟩
  | cons arg rest ih =>
    rw [zipIdx_cons, foldlM_cons] at ok
    obtain ⟨s₁, pinned, ok⟩ := bind_eq_ok ok
    unfold State.pinArgument at pinned
    split at pinned
    · cases pinned
    · rename_i r isReg
      have isIndex : r.val = index := by
        unfold Reg.ofIndex? at isReg
        split at isReg
        · rw [← Option.some.inj isReg]
        · cases isReg
      obtain ⟨file, assigned⟩ :=
        RegisterFile.exists_assign? (above r (Nat.le_of_eq isIndex.symm)) arg
      rw [assigned, Option.getD_some] at pinned
      obtain rfl := Except.ok.inj pinned
      have stillAbove : ∀ q : Reg, index + 1 ≤ q.val → file.owner? q = none := by
        intro q higher
        have other : r ≠ q := by
          rintro rfl
          omega
        rw [(RegisterFile.owner?_of_assign? assigned).2, if_neg other]
        exact above q (Nat.le_of_succ_le higher)
      obtain ⟨entries, places, vars, regs⟩ := ih stillAbove ok
      refine ⟨(arg, r) :: entries, .cons assigned places, by rw [map_cons, vars], ?_⟩
      rw [map_cons, regs, length_cons, range'_succ, isIndex]

/-- A register that a call leaves alone and that values may occupy. -/
def Carries (allocatable : RegSet) (r : Reg) :
    Prop := firstPreserved ≤ r ∧ allocatable.contains r = true

private theorem keepCarried_cases (s : State) (pending : List VarId) (copy : VarId × VarId) :
    (∃ r file, Carries s.file.allocatable r ∧ s.file.assign? r copy.1 = some file ∧
        State.keepCarried (s, pending) copy = (s.setReg copy.1 r file, pending)) ∨
      State.keepCarried (s, pending) copy = (s, pending ++ [copy.1]) := by
  unfold State.keepCarried
  dsimp only
  split
  · rename_i r stays
    have test := (Option.filter_eq_some_iff.mp stays).2
    rw [Bool.and_eq_true, decide_eq_true_eq] at test
    obtain ⟨lt, unused⟩ := RegisterFile.of_isFree test.2
    obtain ⟨file, assigned⟩ := RegisterFile.exists_assign? unused copy.1
    rw [assigned, Option.getD_some]
    exact .inl ⟨r, file, ⟨test.1, lt⟩, assigned, rfl⟩
  · exact .inr rfl

theorem places_keepCarried (copies : List (VarId × VarId)) (s : State) (pending : List VarId) :
    ∃ kept moved, Places s kept (copies.foldl State.keepCarried (s, pending)).1 ∧
      (copies.foldl State.keepCarried (s, pending)).2 = pending ++ moved ∧
      (∀ entry ∈ kept, Carries s.file.allocatable entry.2) ∧
      (kept.map Prod.fst ++ moved).Perm (copies.map Prod.fst) := by
  induction copies generalizing s pending with
  | nil => exact ⟨[], [], .nil, (append_nil _).symm, forall_mem_nil _, .refl _⟩
  | cons copy rest ih =>
    rw [foldl_cons]
    rcases keepCarried_cases s pending copy with ⟨r, file, carries, assigned, isNext⟩ | isNext
    · obtain ⟨kept, moved, places, isPending, carried, perm⟩ := ih (s.setReg copy.1 r file) pending
      have sameSet : (s.setReg copy.1 r file).file.allocatable = s.file.allocatable :=
        RegisterFile.allocatable_of_assign? assigned
      rw [isNext]
      refine ⟨(copy.1, r) :: kept, moved, .cons assigned places, isPending, ?_, perm.cons copy.1⟩
      exact forall_mem_cons.mpr ⟨carries, sameSet ▸ carried⟩
    · obtain ⟨kept, moved, places, isPending, carried, perm⟩ := ih s (pending ++ [copy.1])
      rw [isNext]
      refine ⟨kept, copy.1 :: moved, places, by rw [isPending, append_assoc]; rfl, carried, ?_⟩
      exact perm_middle.trans (perm.cons copy.1)

/-- A copy pins arguments to the lowest registers and puts all else into registers that the call
leaves alone. -/
theorem places_prepare {defs srcs : List VarId} (ok : s.prepare b defs srcs argCount = .ok s') :
    ∃ pinned others, Places { s with file := s.file.clear } (pinned ++ others) s' ∧
      pinned.map Prod.fst = defs.take argCount ∧
      pinned.map (·.2.val) = List.range' 0 (defs.take argCount).length ∧
      (∀ entry ∈ others, Carries s.file.allocatable entry.2) ∧
      (others.map Prod.fst).Perm (((defs.zip srcs).drop argCount).map Prod.fst) := by
  obtain ⟨s₁, pinning, ok⟩ := bind_eq_ok ok
  obtain ⟨pinned, first, vars, regs⟩ :=
    places_pinArguments (fun r _ => RegisterFile.owner?_clear s.file r) pinning
  obtain ⟨kept, moved, second, isPending, carried, perm⟩ :=
    places_keepCarried ((defs.zip srcs).drop argCount) s₁ []
  dsimp only at ok
  rw [isPending, nil_append] at ok
  obtain ⟨allocated, third, isMoved, suited⟩ :=
    Places.foldlM Carries (fun _ _ _ => places_allocate) ok
  have sameSet : s₁.file.allocatable = s.file.allocatable := first.allocatable
  refine ⟨pinned, kept ++ allocated, first.trans (second.trans third), vars, regs,
    forall_mem_append.mpr ⟨sameSet ▸ carried, ?_⟩, ?_⟩
  · rw [second.allocatable, sameSet] at suited
    exact suited
  · rw [map_append, isMoved]
    exact perm

/-! ## Instructions -/

theorem State.proc_released (s : State) (live : Liveness) (b : BlockId) (exitReads : List VarId)
    (i : Inst × Nat) : (s.released live b exitReads i).proc = s.proc := by
  unfold released
  split <;> rfl

theorem step_of_ne (other : ∀ defs srcs argCount, i.1 ≠ .prepare defs srcs argCount) :
    State.step live b exitReads s i =
      (placed i.1).foldlM (State.define b) (s.released live b exitReads i) >>= fun s₁ =>
        .ok { s₁ with recent := s₁.recent ++ placed i.1 } := by
  rw [placed_of_ne other]
  obtain ⟨i, index⟩ := i
  cases i with
  | prepare defs srcs argCount => exact absurd rfl (other _ _ _)
  | phi phi =>
    unfold State.step
    dsimp only
    split
    · rfl
    · simp only [append_nil]
      rfl
  | _ => rfl

/-- An instruction is a copy in front of a call, or its definitions are placed one by one. -/
theorem step_cases (ok : State.step live b exitReads s i = .ok s') :
    (∃ defs srcs argCount s₁, i.1 = .prepare defs srcs argCount ∧
        (s.released live b exitReads i).prepare b defs srcs argCount = .ok s₁ ∧
        s' = { s₁ with recent := s₁.recent ++ defs }) ∨
      ((∀ defs srcs argCount, i.1 ≠ .prepare defs srcs argCount) ∧
        ∃ s₁, (placed i.1).foldlM (State.define b) (s.released live b exitReads i) = .ok s₁ ∧
          s' = { s₁ with recent := s₁.recent ++ placed i.1 }) := by
  by_cases isPrepare : ∃ defs srcs argCount, i.1 = .prepare defs srcs argCount
  · obtain ⟨defs, srcs, argCount, isPrepare⟩ := isPrepare
    obtain ⟨i, index⟩ := i
    obtain rfl : i = .prepare defs srcs argCount := isPrepare
    obtain ⟨s₁, prepared, same⟩ := bind_eq_ok ok
    exact .inl ⟨defs, srcs, argCount, s₁, rfl, prepared, (Except.ok.inj same).symm⟩
  · have other : ∀ defs srcs argCount, i.1 ≠ .prepare defs srcs argCount :=
      fun defs srcs argCount same => isPrepare ⟨defs, srcs, argCount, same⟩
    rw [step_of_ne other] at ok
    obtain ⟨s₁, defined, same⟩ := bind_eq_ok ok
    exact .inr ⟨other, s₁, defined, (Except.ok.inj same).symm⟩

theorem recolors_step (ok : State.step live b exitReads s i = .ok s') :
    Recolors (placed i.1) s.proc s'.proc := by
  rw [← s.proc_released live b exitReads i]
  rcases step_cases ok with
    ⟨defs, srcs, argCount, s₁, isPrepare, prepared, rfl⟩ | ⟨-, s₁, defined, rfl⟩
  · obtain ⟨pinned, others, places, vars, -, -, perm⟩ := places_prepare prepared
    refine places.recolors.congr fun v => ?_
    rw [isPrepare, placed, map_append, mem_append, mem_append, vars, perm.mem_iff]
  · obtain ⟨entries, places, vars, -⟩ := places_defines defined
    exact vars ▸ places.recolors

theorem recolors_insts {insts : List Inst} {start : Nat}
    (ok : (insts.zipIdx start).foldlM (State.step live b exitReads) s = .ok s') :
    Recolors (insts.flatMap placed) s.proc s'.proc := by
  have all := Recolors.foldlM (fun i => placed i.1) (fun _ _ _ => recolors_step) ok
  rwa [← flatMap_map, zipIdx_map_fst] at all

theorem recolors_colorBlock (ok : colorBlock live config p b = .ok q) :
    Recolors ((p.block b).insts.flatMap placed) p q := by
  obtain ⟨file, -, ok⟩ := bind_eq_ok ok
  obtain ⟨s, ran, rfl⟩ := bind_pure_eq_ok ok
  exact recolors_insts ran

/-- The definitions that get a register in some blocks. -/
def placedIn (p : Procedure) (blocks : List BlockId) : List VarId :=
  blocks.flatMap fun b => (p.block b).insts.flatMap placed

theorem placedIn_congr (same : p.SameButRegs q) (blocks : List BlockId) :
    placedIn q blocks = placedIn p blocks := by
  unfold placedIn
  simp only [same.sameBlocks.block]

theorem recolors_colorBlocks {blocks : List BlockId}
    (ok : blocks.foldlM (colorBlock live config) p = .ok q) : Recolors (placedIn p blocks) p q :=
  foldlM_induction (fun done after => Recolors (placedIn p done) p after)
    (fun done b _ _ _ _ known stepped => by
      have next := recolors_colorBlock stepped
      rw [known.sameBlocks.block] at next
      rw [placedIn, flatMap_append, flatMap_singleton]
      exact known.trans next) (.refl _) ok

/-! ## Arguments -/

theorem sameButRegs_setRegs {α : Type} (var : α → VarId) (reg : α → Option Reg) (entries : List α)
    (p : Procedure) :
    p.SameButRegs (entries.foldl (fun p entry => p.setReg (var entry) (reg entry)) p) := by
  induction entries generalizing p with
  | nil => exact .refl p
  | cons entry rest ih =>
    exact (SameButRegs.setReg p _ _).trans (ih _)

theorem sameButRegs_pinArguments (p : Procedure) (config : Config) :
    p.SameButRegs (pinArguments p config) :=
  (sameButRegs_setRegs id (fun _ => none) (p.args ++ p.locals) p).trans
    (sameButRegs_setRegs Prod.fst (fun arg => Reg.ofIndex? arg.2) _ _)

end Coloring

/-- Colouring gives registers only. -/
theorem Procedure.sameButRegs_color {p q : Procedure} {t : DomTree}
    {live : Liveness} {config : Config} (ok : p.color t live config = .ok q) : p.SameButRegs q :=
  (Coloring.sameButRegs_pinArguments p config).trans
  (Coloring.recolors_colorBlocks ok).toSameButRegs

end ArmBackend
