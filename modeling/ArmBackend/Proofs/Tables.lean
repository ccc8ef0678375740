import ArmBackend.Program.Procedure
import Mathlib.Data.List.Forall2

/-!
Contract: what the tables of a procedure hold after one entry was replaced or appended.

Owns: look-up after each update of the tables of blocks and variables, with a default outside, and
the partner that each entry of a list has in another.
Does not own: which updates a pass makes.
-/

namespace ArmBackend

open List

namespace Tables

variable {α β : Type} {relates : α → β → Prop} {xs : List α} {front ys rest : List β} {y : β}

theorem exists_split_of_forall₂ (all : Forall₂ relates xs (front ++ y :: rest)) :
    ∃ front' x rest', xs = front' ++ x :: rest' ∧ Forall₂ relates front' front ∧ relates x y := by
  obtain ⟨x, rest', here, -, isDrop⟩ :=
    forall₂_cons_right_iff.mp (forall₂_drop_append xs front (y :: rest) all)
  refine ⟨xs.take front.length, x, rest', ?_, forall₂_take_append xs front (y :: rest) all, here⟩
  rw [← isDrop, take_append_drop]

theorem exists_of_forall₂ (all : Forall₂ relates xs ys) (mem : y ∈ ys) : ∃ x ∈ xs, relates x y := by
  obtain ⟨front, rest, rfl⟩ := append_of_mem mem
  obtain ⟨front', x, rest', rfl, -, here⟩ := exists_split_of_forall₂ all
  exact ⟨x, mem_append_right _ mem_cons_self, here⟩

theorem getD_modify (table : Array α) (i j : Nat) (f : α → α) (outside : α) :
    (table.modify i f).getD j outside =
      if i = j ∧ j < table.size then f (table.getD j outside) else table.getD j outside := by
  by_cases lt : j < table.size
  · by_cases same : i = j <;> simp [Array.getElem_modify, lt, same]
  · simp [lt]

theorem getD_setIfInBounds (table : Array α) (i j : Nat) (entry outside : α) :
    (table.setIfInBounds i entry).getD j outside = if i = j ∧ j < table.size then entry
    else table.getD j outside := by
  by_cases lt : j < table.size
  · by_cases same : i = j <;> simp [lt, same]
  · simp [lt]

theorem getD_push (table : Array α) (j : Nat) (entry outside : α) :
    (table.push entry).getD j outside =
      if j = table.size then entry else table.getD j outside := by
  by_cases lt : j < table.size
  · have different : j ≠ table.size := Nat.ne_of_lt lt
    have below : j < table.size + 1 := Nat.lt_succ_of_lt lt
    simp [Array.getElem_push, lt, different, below]
  · by_cases last : j = table.size
    · simp [last]
    · have above : ¬j < table.size + 1 := by omega
      simp [lt, last, above]

theorem getD_of_size_le (table : Array α) {j : Nat} (outside : α) (above : table.size ≤ j) :
    table.getD j outside = outside := by
  simp [Nat.not_lt.mpr above]

theorem ext_getD {table table' : Array α} {size : Nat} (isSize : table.size = size)
    (isSize' : table'.size = size)
    (outside : α) (same : ∀ i < size, table.getD i outside = table'.getD i outside) :
    table = table' := by
  refine Array.ext (isSize.trans isSize'.symm) fun i lt inside' => ?_
  have entry := same i (isSize ▸ lt)
  rwa [Array.getD, dif_pos lt, Array.getD, dif_pos inside'] at entry

theorem getD_replicate (count j : Nat) (entry outside : α) :
    (Array.replicate count entry).getD j outside = if j < count then entry else outside := by
  by_cases lt : j < count <;> simp [lt]

theorem exists_ok_of_bind {ε : Type} {e : Except ε α} {f : α → Option β} {b : β}
    (found : e.toOption.bind f = some b) : ∃ a, e = .ok a ∧ f a = some b := by
  cases e with
  | error e => cases found
  | ok a => exact ⟨a, rfl, found⟩

theorem exists_ok_of_map {ε : Type} {e : Except ε α} {f : α → β} {b : β}
    (found : e.toOption.map f = some b) : ∃ a, e = .ok a ∧ f a = b := by
  cases e with
  | error e => cases found
  | ok a => exact ⟨a, rfl, Option.some.inj found⟩

/-- There are at most `count` different numbers below `count`. -/
theorem length_le_of_nodup {numbers : List Nat} {count : Nat} (nodup : numbers.Nodup)
    (below : ∀ x ∈ numbers, x < count) : numbers.length ≤ count := by
  have same : numbers.Perm ((List.range count).filter (numbers.contains ·)) := by
    apply (perm_ext_iff_of_nodup nodup (nodup_range.filter _)).mpr
    intro x
    simpa using below x
  have atMost := length_filter_le (numbers.contains ·) (List.range count)
  rw [length_range] at atMost
  exact same.length_eq ▸ atMost

end Tables

namespace Procedure

variable {b : BlockId} {i : Inst} {p : Procedure}

/-! ## Blocks -/

@[simp] theorem block_modifyBlock (p : Procedure) (b c : BlockId) (f : Block → Block) :
    (p.modifyBlock b f).block c = if b = c ∧ c < p.blocks.size then f (p.block c) else p.block c :=
  Tables.getD_modify p.blocks b c f default

@[simp] theorem size_modifyBlock (p : Procedure) (b : BlockId) (f : Block → Block) :
    (p.modifyBlock b f).blocks.size = p.blocks.size := by
  simp [modifyBlock]

theorem modifyBlock_eq_self (p : Procedure) (b : BlockId) {f : Block → Block}
    (same : b < p.blocks.size → f (p.block b) = p.block b) : p.modifyBlock b f = p := by
  have blocks : p.blocks.modify b f = p.blocks := by
    refine Array.ext (by simp) fun c lt lt' => ?_
    rw [Array.getElem_modify]
    split
    · rename_i isHere
      subst isHere
      have isBlock : p.block b = p.blocks[b] := by
        rw [block, Array.getD_eq_getD_getElem?, Array.getElem?_eq_getElem lt', Option.getD_some]
      rw [← isBlock]
      exact same lt'
    · rfl
  rw [modifyBlock, blocks]

theorem block_setInsts (p : Procedure) (b c : BlockId) (insts : List Inst) :
    (p.setInsts b insts).block c =
      if b = c ∧ c < p.blocks.size then { p.block c with insts := insts } else p.block c :=
  block_modifyBlock p b c _

@[simp] theorem size_setInsts (p : Procedure) (b : BlockId) (insts : List Inst) :
    (p.setInsts b insts).blocks.size = p.blocks.size :=
  size_modifyBlock p b _

@[simp] theorem nextVar_newVar (p : Procedure) (name : String) (ty : Ty) :
    (p.newVar name ty).nextVar = p.nextVar + 1 := by
  simp [nextVar, newVar]

@[simp] theorem nextVar_addLocal (p : Procedure) (name : String) (ty : Ty) :
    (p.addLocal name ty).nextVar = p.nextVar + 1 :=
  nextVar_newVar p name ty

theorem mem_blockIds : b ∈ p.blockIds ↔ b < p.blocks.size := mem_range

theorem block_of_size_le (p : Procedure) (above : p.blocks.size ≤ b) : p.block b = default :=
  Tables.getD_of_size_le p.blocks default above

theorem insts_eq_flatMap (p : Procedure) :
    p.insts = p.blockIds.flatMap fun b => (p.block b).insts := by
  have blocks : p.blocks.toList = p.blockIds.map p.block := by
    apply ext_getElem
    · simp [blockIds]
    · intro b lt _
      simp only [Array.length_toList] at lt
      simp [blockIds, block, lt]
  rw [insts, blocks, flatMap_map]

theorem lt_size_of_mem_insts (mem : i ∈ (p.block b).insts) : b < p.blocks.size := by
  apply Nat.lt_of_not_le
  intro above
  rw [block_of_size_le p above] at mem
  cases mem

theorem mem_insts : i ∈ p.insts ↔ ∃ b, i ∈ (p.block b).insts := by
  rw [insts_eq_flatMap, mem_flatMap]
  exact ⟨fun ⟨b, _, mem⟩ => ⟨b, mem⟩,
    fun ⟨b, mem⟩ => ⟨b, mem_blockIds.mpr (lt_size_of_mem_insts mem), mem⟩⟩

private theorem succs_default : (default : Block).succs = [] := rfl

theorem lt_size_of_mem_succs {s : BlockId} (edge : s ∈ (p.block b).succs) : b < p.blocks.size := by
  apply Nat.lt_of_not_le
  intro above
  rw [block_of_size_le p above, succs_default] at edge
  cases edge

/-! ## Variables -/

theorem var_newVar (p : Procedure) (name : String) (ty : Ty) (d : VarId) :
    (p.newVar name ty).var d = if d = p.nextVar then ⟨name, ty, none, none⟩ else p.var d :=
  Tables.getD_push p.vars d _ default

theorem var_addLocal (p : Procedure) (name : String) (ty : Ty) (d : VarId) :
    (p.addLocal name ty).var d = if d = p.nextVar then ⟨name, ty, none, none⟩ else p.var d :=
  var_newVar p name ty d

/-- A new variable has no register, like those outside the table. -/
theorem reg?_newVar (p : Procedure) (name : String) (ty : Ty) (v : VarId) :
    (p.newVar name ty).reg? v = p.reg? v := by
  rw [reg?, reg?, var_newVar]
  split
  · rename_i isNew
    have outside : p.var v = default :=
      Tables.getD_of_size_le p.vars default (Nat.le_of_eq isNew.symm)
    rw [outside]
    rfl
  · rfl

theorem var_setWeb (p : Procedure) (u v : VarId) (w : Option WebId) :
    (p.setWeb u w).var v = if u = v ∧ v < p.nextVar then { p.var v with web := w } else p.var v :=
  Tables.getD_modify p.vars u v _ default

theorem web?_setWeb (p : Procedure) (u v : VarId) (w : Option WebId) :
    (p.setWeb u w).web? v = if u = v ∧ v < p.nextVar then w else p.web? v := by
  rw [web?, var_setWeb]
  split <;> rfl

theorem reg?_setWeb (p : Procedure) (u v : VarId) (w : Option WebId) :
    (p.setWeb u w).reg? v = p.reg? v := by
  rw [reg?, var_setWeb]
  split <;> rfl

theorem nextVar_setWeb (p : Procedure) (v : VarId) (w : Option WebId) :
    (p.setWeb v w).nextVar = p.nextVar := by
  simp [setWeb, modifyVar, nextVar]

end Procedure

end ArmBackend
