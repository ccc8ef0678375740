import ArmBackend.Frame
import ArmBackend.Proofs.Coloring.Registers
import ArmBackend.Proofs.Descent.Shape

/-!
Contract: the layout of frames.

From the stack pointer upwards lie the outgoing arguments, the slots of the frame, the saved
registers, and above the frame the incoming arguments, one of which may take the place of a slot of
the frame.

Owns: that a procedure whose slots belong to webs has a frame, with an offset for each slot; that
the parts of a frame are aligned and do not overlap; which registers are saved.
Does not own: the code that sets a frame up and takes it down.
-/

namespace ArmBackend

open List Procedure

variable {p : Procedure} {v : VarId} {w : WebId}

theorem Procedure.requireWeb_eq_ok : p.requireWeb v = .ok w ↔ p.web? v = some w := by
  unfold requireWeb
  cases p.web? v with
  | none => exact ⟨nofun, nofun⟩
  | some w' => rw [Except.ok.injEq, Option.some.injEq]

namespace Frame

variable {f : Frame} {webs : List WebId} {slots : List (WebId × Int32)} {offset : Int32}
  {words outgoing : Nat}

/-! ## Slots of the frame -/

theorem mem_slotAccesses :
    v ∈ slotAccesses p ↔ Inst.spill v ∈ p.insts ∨ Inst.reload v ∈ p.insts := by
  rw [slotAccesses, mem_filterMap]
  constructor
  · rintro ⟨i, mem, access⟩
    split at access
    · obtain rfl := Option.some.inj access
      exact .inl mem
    · obtain rfl := Option.some.inj access
      exact .inr mem
    · cases access
  · rintro (isSpill | isReload)
    · exact ⟨_, isSpill, rfl⟩
    · exact ⟨_, isReload, rfl⟩

theorem mem_of_accessedWebs (ok : accessedWebs p = .ok webs)
    (access : Inst.spill v ∈ p.insts ∨ Inst.reload v ∈ p.insts) :
    ∃ w ∈ webs, p.web? v = some w := by
  obtain ⟨all, listed, rfl⟩ := bind_pure_eq_ok ok
  obtain ⟨i, isAt⟩ := mem_iff_getElem?.mp (mem_slotAccesses.mpr access)
  obtain ⟨w, isAt', isOk⟩ := (getElem?_of_mapM_ok listed).2 i v isAt
  exact ⟨w, mem_eraseDups.mpr (mem_of_getElem? isAt'), requireWeb_eq_ok.mp isOk⟩

private theorem nodup_eraseDups : (webs : List WebId) → webs.eraseDups.Nodup
  | [] => nodup_nil
  | web :: rest => by
    rw [eraseDups_cons, nodup_cons, mem_eraseDups, mem_filter]
    exact ⟨fun again => by simp at again, nodup_eraseDups _⟩
termination_by webs => webs.length
decreasing_by exact Nat.lt_succ_of_le (length_filter_le _ _)

theorem map_fst_localSlots (outgoing : Nat) (webs : List WebId) :
    (localSlots outgoing webs).map Prod.fst = webs := by
  rw [localSlots, map_map]
  exact zipIdx_map_fst 0 webs

private theorem isSome_lookup_localSlots (mem : w ∈ webs) :
    ((localSlots outgoing webs).lookup w).isSome = true := by
  rw [← map_fst_localSlots outgoing webs] at mem
  obtain ⟨slot, inSlots, rfl⟩ := mem_map.mp mem
  exact lookup_isSome_iff.mpr ⟨slot, inSlots, beq_self_eq_true _⟩

private theorem of_lookup_localSlots (found : (localSlots outgoing webs).lookup w = some offset) :
    ∃ j, webs[j]? = some w ∧ offset = bytes (outgoing + j) := by
  obtain ⟨front, back, split, -⟩ := lookup_eq_some_iff.mp found
  have mem : (w, offset) ∈ localSlots outgoing webs := split ▸ mem_append_right _ mem_cons_self
  obtain ⟨⟨_, j⟩, isAt, ⟨⟩⟩ := mem_map.mp mem
  exact ⟨j, mem_zipIdx_iff_getElem?.mp isAt, rfl⟩

/-! ## Slots of incoming arguments -/

private theorem lookup_setSlot (web : WebId) (offset : Int32) (slots : List (WebId × Int32))
    (w : WebId) :
    (setSlot web offset slots).lookup w = if w = web then some offset else slots.lookup w := by
  fun_induction setSlot web offset slots with
  | case1 => grind
  | case2 slot rest isWeb => grind
  | case3 slot rest other ih => grind

private theorem nodup_setSlot (web : WebId) (offset : Int32) (once : (slots.map Prod.fst).Nodup) :
    ((setSlot web offset slots).map Prod.fst).Nodup := by
  have keys : (setSlot web offset slots).map Prod.fst =
      if web ∈ slots.map Prod.fst then slots.map Prod.fst else slots.map Prod.fst ++ [web] := by
    fun_induction setSlot web offset slots with
    | case1 => rfl
    | case2 slot rest isWeb => simp [isWeb]
    | case3 slot rest other ih => grind
  rw [keys]
  split
  · exact once
  · rename_i new
    exact nodup_append.mpr ⟨once, nodup_singleton web, by grind⟩

/-- Once they are placed, the last argument of a web has its slot, and the webs of no argument keep
theirs. -/
theorem lookup_placed {args : List (VarId × Nat)} {start : List (WebId × Int32)}
    (ok : args.foldlM (place p words) start = .ok slots) (once : (start.map Prod.fst).Nodup) :
    (slots.map Prod.fst).Nodup ∧ (∀ arg ∈ args, ∃ w, p.web? arg.1 = some w) ∧ ∀ w,
      (∀ arg ∈ args, p.web? arg.1 ≠ some w) ∧ slots.lookup w = start.lookup w ∨
        ∃ arg ∈ args, p.web? arg.1 = some w ∧ slots.lookup w = some (bytes (words + arg.2)) := by
  induction args generalizing start with
  | nil =>
    obtain rfl := Except.ok.inj ok
    exact ⟨once, forall_mem_nil _, fun _ => .inl ⟨forall_mem_nil _, rfl⟩⟩
  | cons arg rest ih =>
    rw [foldlM_cons] at ok
    obtain ⟨middle, isPlaced, ok⟩ := bind_eq_ok ok
    obtain ⟨web, isOk, rfl⟩ := bind_pure_eq_ok isPlaced
    have isWeb := requireWeb_eq_ok.mp isOk
    obtain ⟨onceAfter, haveWebs, each⟩ := ih ok (nodup_setSlot _ _ once)
    refine ⟨onceAfter, forall_mem_cons.mpr ⟨⟨web, isWeb⟩, haveWebs⟩, fun w => ?_⟩
    rcases each w with ⟨notLater, kept⟩ | ⟨later, isLater, isSlot⟩
    · rw [lookup_setSlot] at kept
      by_cases same : w = web
      · rw [if_pos same] at kept
        exact .inr ⟨arg, mem_cons_self, same ▸ isWeb, kept⟩
      · rw [if_neg same] at kept
        refine .inl ⟨forall_mem_cons.mpr ⟨fun isWeb' => ?_, notLater⟩, kept⟩
        exact same (Option.some.inj (isWeb'.symm.trans isWeb))
    · exact .inr ⟨later, mem_cons_of_mem _ isLater, isSlot⟩

theorem exists_of_placed_error {args : List (VarId × Nat)} {e : Error}
    (failed : args.foldlM (place p words) slots = .error e) :
    ∃ arg ∈ args, p.requireWeb arg.1 = .error e := by
  induction args generalizing slots with
  | nil => cases failed
  | cons arg rest ih =>
    rcases bind_eq_error failed with failed | ⟨_, -, failed⟩
    · obtain failed | ⟨_, -, ⟨⟩⟩ := bind_eq_error failed
      exact ⟨arg, mem_cons_self, failed⟩
    · obtain ⟨later, isLater, failed⟩ := ih failed
      exact ⟨later, mem_cons_of_mem _ isLater, failed⟩

/-! ## The parts of a frame -/

theorem toInt_bytes {n : Nat} (fits : 4 * n < 2 ^ 31) : (bytes n).toInt = 4 * n := by
  rw [bytes, Int32.toInt_ofNat_of_lt (by omega)]
  omega

/-- A frame as the sum of its parts, for the webs that spill code accesses. -/
structure Parts (p : Procedure) (webs : List WebId) (f : Frame) : Prop where
  accessed : accessedWebs p = .ok webs
  outgoing : f.outgoing = outgoingWords p
  words : f.words = roundUp (f.outgoing + webs.length + f.saved.size)
  adjust : f.adjust = adjustment (f.outgoing + webs.length) f.saved
  saved : f.saved = savedRegisters p ∧ Immediate.isEncodable f.adjust = true ∨
    f.saved = (savedRegisters p).insert Convention.scratch
  slots : (p.args.drop 4).zipIdx.foldlM (place p f.words) (localSlots f.outgoing webs) = .ok f.slots

theorem parts_of_ofProcedure (ok : ofProcedure p = .ok f) : ∃ webs, Parts p webs f := by
  unfold ofProcedure at ok
  obtain ⟨webs, isWebs, ok⟩ := bind_eq_ok ok
  obtain ⟨slots, isSlots, rfl⟩ := bind_pure_eq_ok ok
  refine ⟨webs, isWebs, rfl, rfl, rfl, ?_, isSlots⟩
  dsimp only
  split
  · rename_i encodable
    exact .inl ⟨rfl, encodable⟩
  · exact .inr rfl

namespace Parts

variable (parts : Parts p webs f)

include parts

theorem used_le : f.outgoing + webs.length + f.saved.size ≤ f.words :=
  parts.words ▸ Nat.le_add_right ..

theorem placed : (f.slots.map Prod.fst).Nodup ∧
      (∀ arg ∈ (p.args.drop 4).zipIdx, ∃ w, p.web? arg.1 = some w) ∧
    ∀ w, (∀ arg ∈ (p.args.drop 4).zipIdx, p.web? arg.1 ≠ some w) ∧
      f.slot? w = (localSlots f.outgoing webs).lookup w ∨
      ∃ arg ∈ (p.args.drop 4).zipIdx, p.web? arg.1 = some w ∧
      f.slot? w = some (bytes (f.words + arg.2)) := by
  obtain ⟨all, -, isDeduped⟩ := bind_pure_eq_ok parts.accessed
  refine lookup_placed parts.slots ?_
  rw [map_fst_localSlots, ← isDeduped]
  exact nodup_eraseDups all

theorem exists_slot (access : Inst.spill v ∈ p.insts ∨ Inst.reload v ∈ p.insts) :
    ∃ w offset, p.web? v = some w ∧ f.slot? w = some offset := by
  obtain ⟨w, mem, isWeb⟩ := mem_of_accessedWebs parts.accessed access
  rcases parts.placed.2.2 w with ⟨-, kept⟩ | ⟨_, -, -, isSlot⟩
  · obtain ⟨offset, isLocal⟩ := Option.isSome_iff_exists.mp (isSome_lookup_localSlots mem)
    exact ⟨w, offset, isWeb, kept.trans isLocal⟩
  · exact ⟨w, _, isWeb, isSlot⟩

/-- Arguments of distinct webs keep the slots of their caller. -/
theorem slot_incoming (distinct : ((p.args.drop 4).map p.web?).Nodup) {i : Nat}
    (isAt : (p.args.drop 4)[i]? = some v) :
    ∃ w, p.web? v = some w ∧ f.slot? w = some (bytes (f.words + i)) := by
  obtain ⟨-, haveWebs, each⟩ := parts.placed
  have isArg : (v, i) ∈ (p.args.drop 4).zipIdx := mem_zipIdx_iff_getElem?.mpr isAt
  obtain ⟨w, isWeb⟩ := haveWebs _ isArg
  refine ⟨w, isWeb, ?_⟩
  rcases each w with ⟨noArg, -⟩ | ⟨⟨u, j⟩, isArg', isWeb', isSlot⟩
  · exact absurd isWeb (noArg _ isArg)
  · have sameWeb : ((p.args.drop 4).map p.web?)[i]? = ((p.args.drop 4).map p.web?)[j]? := by
      rw [getElem?_map, getElem?_map, isAt, mem_zipIdx_iff_getElem?.mp isArg',
        Option.map_some, Option.map_some, isWeb, isWeb']
    have lt : i < ((p.args.drop 4).map p.web?).length := by
      rw [length_map]
      exact (List.getElem?_eq_some_iff.mp isAt).1
    rwa [(getElem?_inj lt distinct).mp sameWeb]

/-- Where a slot lies: in the frame, or above it. -/
theorem toInt_slot (fits : 4 * (f.words + (p.args.length - 4)) < 2 ^ 31)
    (found : f.slot? w = some offset) :
    (∃ j, webs[j]? = some w ∧ j < webs.length ∧ offset.toInt = 4 * (f.outgoing + j : Nat)) ∨
      ∃ i v, (p.args.drop 4)[i]? = some v ∧ p.web? v = some w ∧
      offset.toInt = 4 * (f.words + i : Nat) := by
  have used := parts.used_le
  rcases parts.placed.2.2 w with ⟨-, kept⟩ | ⟨⟨v, i⟩, isArg, isWeb, isSlot⟩
  · obtain ⟨j, isAt, rfl⟩ := of_lookup_localSlots (kept.symm.trans found)
    have lt := (List.getElem?_eq_some_iff.mp isAt).1
    exact .inl ⟨j, isAt, lt, toInt_bytes (by omega)⟩
  · obtain rfl := Option.some.inj (found.symm.trans isSlot)
    have isAt := mem_zipIdx_iff_getElem?.mp isArg
    have lt := (List.getElem?_eq_some_iff.mp isAt).1
    rw [length_drop] at lt
    exact .inr ⟨i, v, isAt, isWeb, toInt_bytes (by omega)⟩

theorem contains_saved {r : Reg} (saved : (savedRegisters p).contains r = true) :
    f.saved.contains r = true := by
  rcases parts.saved with ⟨same, -⟩ | added
  · rwa [same]
  · rw [added, RegSet.contains_insert, saved, Bool.true_or]

end Parts

/-- The frame is laid out, and the slots that are accessed have offsets. -/
theorem ofProcedure_eq_ok (slotted : p.Slotted) : ∃ frame, ofProcedure p = .ok frame ∧
    ∀ v, Inst.spill v ∈ p.insts ∨ Inst.reload v ∈ p.insts →
      ((p.web? v).bind frame.slot?).isSome = true := by
  cases isFrame : ofProcedure p with
  | ok frame =>
    obtain ⟨webs, parts⟩ := parts_of_ofProcedure isFrame
    refine ⟨frame, rfl, fun v access => ?_⟩
    obtain ⟨w, offset, isWeb, isSlot⟩ := parts.exists_slot access
    rw [isWeb, Option.bind_some, isSlot, Option.isSome_some]
  | error e =>
    unfold ofProcedure accessedWebs at isFrame
    have hasWeb {v : VarId} (isSome : (p.web? v).isSome = true) : p.requireWeb v ≠ .error e := by
      obtain ⟨w, isWeb⟩ := Option.isSome_iff_exists.mp isSome
      rw [requireWeb_eq_ok.mpr isWeb]
      nofun
    rcases bind_eq_error isFrame with failed | ⟨webs, -, failed⟩
    · obtain failed | ⟨_, -, ⟨⟩⟩ := bind_eq_error failed
      obtain ⟨v, access, failed⟩ := exists_of_mapM_error failed
      exact absurd failed (hasWeb (slotted.access v (mem_slotAccesses.mp access)))
    · obtain failed | ⟨_, -, ⟨⟩⟩ := bind_eq_error failed
      obtain ⟨arg, isArg, failed⟩ := exists_of_placed_error failed
      exact absurd failed
        (hasWeb (slotted.args arg.1 (mem_of_mem_drop (fst_mem_of_mem_zipIdx isArg))))

/-- Registers of variables that calls preserve are saved, and the link register where there are
calls. -/
theorem contains_savedRegisters {r : Reg} : (savedRegisters p).contains r = true ↔
    (∃ v ∈ p.locals, p.reg? v = some r) ∧ r ∉ Convention.argRegisters ∨ r = .lr ∧
    ∃ i ∈ p.insts, i.isCall = true := by
  have colored : ((RegSet.ofList (p.locals.filterMap p.reg?)).diff Convention.callerSaved).contains
      r = true ↔ (∃ v ∈ p.locals, p.reg? v = some r) ∧ r ∉ Convention.argRegisters := by
    rw [RegSet.contains_diff, Bool.and_eq_true, RegSet.contains_ofList, mem_filterMap,
      Bool.not_eq_true', ← Bool.not_eq_true, Convention.callerSaved, RegSet.contains_ofList]
  rw [savedRegisters]
  split
  · rename_i calls
    rw [RegSet.contains_insert, Bool.or_eq_true, colored, decide_eq_true_iff, eq_comm,
      and_iff_left (any_eq_true.mp calls)]
  · rename_i none
    rw [colored, or_iff_left fun link => none (any_eq_true.mpr link.2)]

/-- Every stack argument has a word of its own among the outgoing ones. -/
theorem lt_outgoingWords {index : Nat} (mem : Inst.stackArg v index ∈ p.insts) :
    index < outgoingWords p := by
  have all : ∀ (insts : List Inst) (words : Nat), index < words ∨ .stackArg v index ∈ insts →
      index < insts.foldl (fun words i => max words (wordsUpTo i)) words := by
    intro insts
    induction insts with
    | nil => exact fun words known => known.resolve_right not_mem_nil
    | cons i rest ih =>
      intro words known
      refine ih _ ?_
      rw [mem_cons] at known
      rcases known with below | rfl | later
      · exact .inl (Nat.lt_of_lt_of_le below (Nat.le_max_left ..))
      · exact .inl (Nat.le_max_right ..)
      · exact .inr later
  exact all p.insts 0 (.inr mem)

/-- A frame whose parts are aligned and disjoint, and that saves the registers in use. -/
structure LaysOut (p : Procedure) (f : Frame) : Prop where
  even : f.words % 2 = 0
  adjust : f.saved.size ≤ f.words ∧ f.adjust.toInt = 4 * (f.words - f.saved.size : Nat)
  /-- No web has two slots. -/
  once : (f.slots.map Prod.fst).Nodup
  accessed : ∀ v, Inst.spill v ∈ p.insts ∨ Inst.reload v ∈ p.insts →
    ∃ w offset, p.web? v = some w ∧ f.slot? w = some offset
  incoming : ∀ i v, (p.args.drop 4)[i]? = some v →
    ∃ w offset, p.web? v = some w ∧ f.slot? w = some offset ∧ offset.toInt = 4 * (f.words + i : Nat)
  inside : ∀ w offset, f.slot? w = some offset → 4 ∣ offset.toInt ∧
    (4 * f.outgoing ≤ offset.toInt ∧ offset.toInt + 4 ≤ f.adjust.toInt ∨
      ∃ i v, (p.args.drop 4)[i]? = some v ∧ p.web? v = some w ∧
      offset.toInt = 4 * (f.words + i : Nat))
  apart : ∀ w w' offset offset', f.slot? w = some offset → f.slot? w' = some offset' → w ≠ w' →
    offset.toInt + 4 ≤ offset'.toInt ∨ offset'.toInt + 4 ≤ offset.toInt
  outgoing : ∀ v index, Inst.stackArg v index ∈ p.insts → index < f.outgoing
  preserved : ∀ v ∈ p.locals, ∀ r, p.reg? v = some r → r ∉ Convention.argRegisters →
    f.saved.contains r = true
  link : (∃ i ∈ p.insts, i.isCall = true) → f.saved.contains .lr = true
  scratch : Immediate.isEncodable f.adjust = false → f.saved.contains Convention.scratch = true

/-- Frames of procedures whose incoming stack arguments have distinct webs are laid out without
overlap. -/
theorem laysOut_ofProcedure (ok : ofProcedure p = .ok f)
    (distinct : ((p.args.drop 4).map p.web?).Nodup)
    (fits : 4 * (f.words + (p.args.length - 4)) < 2 ^ 31) : LaysOut p f := by
  obtain ⟨webs, parts⟩ := parts_of_ofProcedure ok
  have used := parts.used_le
  have even : f.words % 2 = 0 := by
    rw [parts.words, roundUp]
    omega
  have toAdjust : f.adjust.toInt = 4 * (f.words - f.saved.size : Nat) := by
    rw [parts.adjust, adjustment, ← parts.words]
    exact toInt_bytes (by omega)
  refine ⟨even, ⟨by omega, toAdjust⟩, parts.placed.1, fun v => parts.exists_slot,
    fun i v isAt => ?_, fun w offset found => ?_, fun w w' offset offset' found found' differ => ?_,
    fun v index mem => parts.outgoing ▸ lt_outgoingWords mem,
    fun v isLocal r isReg high => parts.contains_saved
      (contains_savedRegisters.mpr (.inl ⟨⟨v, isLocal, isReg⟩, high⟩)),
    fun calls => parts.contains_saved (contains_savedRegisters.mpr (.inr ⟨rfl, calls⟩)),
    fun wide => ?_⟩
  · obtain ⟨w, isWeb, isSlot⟩ := parts.slot_incoming distinct isAt
    have inside := (List.getElem?_eq_some_iff.mp isAt).1
    rw [length_drop] at inside
    exact ⟨w, _, isWeb, isSlot, toInt_bytes (by omega)⟩
  · rcases parts.toInt_slot fits found with ⟨j, -, inside, isOffset⟩ | ⟨i, v, isAt, isWeb, isOffset⟩
    · exact ⟨⟨_, isOffset⟩, .inl (by omega)⟩
    · exact ⟨⟨_, isOffset⟩, .inr ⟨i, v, isAt, isWeb, isOffset⟩⟩
  · -- Slots of one kind differ in their index, and slots of two kinds lie on either side of the
    -- frame's end.
    rcases parts.toInt_slot fits found with
      ⟨j, isAt, inside, isOffset⟩ | ⟨i, v, isAt, isWeb, isOffset⟩ <;>
      rcases parts.toInt_slot fits found' with
        ⟨j', isAt', inside', isOffset'⟩ | ⟨i', v', isAt', isWeb', isOffset'⟩
    · have : j ≠ j' := by
        rintro rfl
        exact differ (Option.some.inj (isAt.symm.trans isAt'))
      omega
    · omega
    · omega
    · have : i ≠ i' := by
        rintro rfl
        obtain rfl := Option.some.inj (isAt.symm.trans isAt')
        exact differ (Option.some.inj (isWeb.symm.trans isWeb'))
      omega
  · rcases parts.saved with ⟨-, encodable⟩ | added
    · rw [encodable] at wide
      cases wide
    · rw [added, RegSet.contains_insert, Bool.or_eq_true]
      exact .inr (decide_eq_true rfl)

/-- Spills its fifth argument and a local variable, and passes five arguments on. -/
def relay : Procedure :=
  { Procedure.ofName "relay" .int with
    args := .range 5
    locals := .range 6
    vars := ((List.range 6).map fun v => ⟨toString v, .int, Reg.ofIndex? v, some v⟩).toArray
    blocks := #[Block.ofInsts 0 [.spill 4, .spill 5, .stackArg 4 0,
      .call (some 5) (.external "f") [.var 0, .var 1, .var 2, .var 3], .reload 5,
      .ret (some (.var 5))]] }

/-- Its own slot lies above its one outgoing word, and the slot of the fifth argument above the
frame of six words, three of which hold saved registers. -/
theorem laysOut_relay : LaysOut relay ⟨⟨0x4030⟩, 1, 6, 12, [(4, 24), (5, 8)]⟩ :=
  laysOut_ofProcedure (p := relay) (by rfl) (by decide) (by decide)

end Frame

end ArmBackend
