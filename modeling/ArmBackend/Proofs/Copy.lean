import ArmBackend.Config
import ArmBackend.Copy
import ArmBackend.Proofs.Assembly.Run
import Mathlib.Data.Finset.Card
import Mathlib.Data.Fintype.Card

/-!
Contract: a simultaneous copy is what its sequence of moves does.

Owns: which moves conflict, and that the instructions of a copy give every destination the word its
source held at first and leave every other register alone, but for the spare one.
Does not own: how many moves that takes.

The words themselves play no part: `contents` follows, move by move, which register's first word
each register holds. A destination that still waits to be written is either about to be written or
still holds its own word where others have to fetch it; once every tree is done, the waiting
destinations are therefore each other's sources, which leaves the spare register free for the next
cycle.
-/

namespace ArmBackend

open List Assembly

namespace Copy

variable {dst r src : Reg} {s : Progress} {done : List (Reg × Reg)}
variable {clobberable : RegSet} {early late moves : List (Reg × Reg)}

/-! ## Conflicts -/

/-- Two moves give one destination different sources. -/
def Conflicting (moves : List (Reg × Reg)) : Prop := ∃ a ∈ moves, ∃ b ∈ moves, a.2 = b.2 ∧ a.1 ≠ b.1

/-- What a copy holds of the moves it is made of. -/
structure Records (c : Copy) (moves : List (Reg × Reg)) : Prop where
  source : ∀ src dst, c.source? dst = some src ↔ (src, dst) ∈ moves ∧ src ≠ dst
  pinned : ∀ r, c.pinned.contains r = true ↔ (r, r) ∈ moves
  touched : ∀ r, c.touched.contains r = true ↔ ∃ move ∈ moves, move.1 = r ∨ move.2 = r
  agree : ¬Conflicting moves

theorem records_empty : Records empty [] where
  source src dst := by simp [empty, source?, RegTable.lookup_fill]
  pinned r := by simp [empty]
  touched r := by simp [empty]
  agree := by simp [Conflicting]

theorem not_conflicting_append (agree : ¬Conflicting done)
    (new : ∀ other, (other, dst) ∈ done → other = src) : ¬Conflicting (done ++ [(src, dst)]) := by
  rintro ⟨⟨a, d⟩, inA, ⟨b, d'⟩, inB, sameDst, differ⟩
  dsimp only at sameDst differ
  subst sameDst
  rw [mem_append, mem_singleton, Prod.mk.injEq] at inA inB
  rcases inA with oldA | ⟨rfl, rfl⟩ <;> rcases inB with oldB | ⟨isSrc, isDst⟩
  · exact agree ⟨_, oldA, _, oldB, rfl, differ⟩
  · subst isSrc isDst
    exact differ (new a oldA)
  · exact differ (new b oldB).symm
  · exact differ isSrc.symm

theorem conflicting_append {other : Reg}
    (old : (other, dst) ∈ done) (differ : other ≠ src) : Conflicting (done ++ [(src, dst)]) :=
  ⟨(other, dst), mem_append_left _ old, (src, dst), by simp, rfl, differ⟩

theorem touched_append {touched : RegSet}
    (known : ∀ r, touched.contains r = true ↔ ∃ move ∈ done, move.1 = r ∨ move.2 = r)
    (src dst r : Reg) :
    ((touched.insert src).insert dst).contains r = true ↔ ∃ move ∈ done ++ [(src, dst)],
    move.1 = r ∨ move.2 = r := by
  simp only [RegSet.contains_insert, Bool.or_eq_true, decide_eq_true_eq, known, mem_append,
    mem_singleton]
  constructor
  · rintro ((⟨move, mem, isPart⟩ | isSrc) | isDst)
    · exact ⟨move, .inl mem, isPart⟩
    · exact ⟨_, .inr rfl, .inl isSrc⟩
    · exact ⟨_, .inr rfl, .inr isDst⟩
  · rintro ⟨move, mem | rfl, isPart⟩
    · exact .inl (.inl ⟨move, mem, isPart⟩)
    · exact isPart.elim (fun isSrc => .inl (.inr isSrc)) .inr

/-- A move that is there already, or that moves nothing, gives no destination a source. -/
theorem Records.source_append {c : Copy} (records : Records c done)
    (idle : src ≠ dst → (src, dst) ∈ done)
    (s d : Reg) : c.source? d = some s ↔ (s, d) ∈ done ++ [(src, dst)] ∧ s ≠ d := by
  rw [mem_append, mem_singleton, Prod.mk.injEq]
  refine (records.source s d).trans ⟨fun is => ⟨.inl is.1, is.2⟩, ?_⟩
  rintro ⟨old | ⟨rfl, rfl⟩, differ⟩
  · exact ⟨old, differ⟩
  · exact ⟨idle differ, differ⟩

theorem Records.pinned_append {c : Copy} (records : Records c done) (differ : src ≠ dst) (r : Reg) :
    c.pinned.contains r = true ↔ (r, r) ∈ done ++ [(src, dst)] := by
  rw [records.pinned, mem_append, mem_singleton, Prod.mk.injEq]
  refine ⟨.inl, ?_⟩
  rintro (old | ⟨rfl, rfl⟩)
  · exact old
  · exact absurd rfl differ

/-- One more move is recorded, or refused because it conflicts with an earlier one. -/
theorem Records.add {c : Copy} (records : Records c done) (move : Reg × Reg) :
    (∃ c', c.add move = .ok c' ∧ Records c' (done ++ [move])) ∨
      (c.add move = .error (.copyConflict move.2) ∧ Conflicting (done ++ [move])) := by
  obtain ⟨src, dst⟩ := move
  have touched := touched_append records.touched src dst
  unfold Copy.add
  dsimp only
  cases known : c.source? dst with
  | none =>
    have unwritten : ∀ other, (other, dst) ∈ done → other = dst := by
      intro other mem
      apply Classical.byContradiction
      intro differ
      have isSource := (records.source other dst).mpr ⟨mem, differ⟩
      rw [known] at isSource
      cases isSource
    by_cases same : src = dst
    · subst same
      rw [decide_eq_true rfl]
      refine .inl ⟨_, rfl, records.source_append (absurd rfl), fun r => ?_, touched,
        not_conflicting_append records.agree unwritten⟩
      rw [RegSet.contains_insert, Bool.or_eq_true, decide_eq_true_eq, records.pinned,
        mem_append, mem_singleton, Prod.mk.injEq]
      exact or_congr_right ⟨fun is => ⟨is.symm, is.symm⟩, fun is => is.1.symm⟩
    · rw [decide_eq_false same]
      dsimp only
      cases isPinned : c.pinned.contains dst with
      | true =>
        exact .inr ⟨rfl, conflicting_append ((records.pinned dst).mp isPinned) (Ne.symm same)⟩
      | false =>
        have absent : (dst, dst) ∉ done := fun mem => by
          rw [(records.pinned dst).mpr mem] at isPinned
          cases isPinned
        have none : ∀ other, (other, dst) ∉ done := fun other mem =>
          absent (unwritten other mem ▸ mem)
        refine .inl ⟨_, rfl, fun s d => ?_, records.pinned_append same, touched,
          not_conflicting_append records.agree fun other mem => absurd mem (none other)⟩
        rw [source?, RegTable.lookup_update, mem_append, mem_singleton, Prod.mk.injEq]
        by_cases here : dst = d
        · subst here
          rw [if_pos rfl, Option.some.injEq]
          constructor
          · rintro rfl
            exact ⟨.inr ⟨rfl, rfl⟩, same⟩
          · rintro ⟨old | ⟨rfl, -⟩, -⟩
            · exact absurd old (none s)
            · rfl
        · rw [if_neg here]
          refine (records.source s d).trans ⟨fun is => ⟨.inl is.1, is.2⟩, ?_⟩
          rintro ⟨old | ⟨-, rfl⟩, differ⟩
          · exact ⟨old, differ⟩
          · exact absurd rfl here
  | some other =>
    obtain ⟨mem, differ⟩ := (records.source other dst).mp known
    by_cases same : src = dst
    · subst same
      rw [decide_eq_true rfl]
      exact .inr ⟨rfl, conflicting_append mem differ⟩
    · rw [decide_eq_false same]
      dsimp only
      have notPinned : c.pinned.contains dst = false := by
        cases isPinned : c.pinned.contains dst with
        | false => rfl
        | true =>
          exact absurd ⟨_, mem, _, (records.pinned dst).mp isPinned, rfl, differ⟩ records.agree
      by_cases sameSource : other = src
      · subst sameSource
        rw [notPinned, if_neg (by simp)]
        exact .inl ⟨_, rfl, records.source_append fun _ => mem, records.pinned_append same, touched,
          not_conflicting_append records.agree fun s old => Classical.byContradiction fun differ' =>
            records.agree ⟨_, old, _, mem, rfl, differ'⟩⟩
      · rw [if_pos (by simp [sameSource])]
        exact .inr ⟨rfl, conflicting_append mem sameSource⟩

/-- Moves make a copy exactly if they do not conflict. -/
theorem ofMoves_cases (moves : List (Reg × Reg)) : (∃ c, ofMoves moves = .ok c ∧ Records c moves) ∨
      ((∃ move ∈ moves, ofMoves moves = .error (.copyConflict move.2)) ∧ Conflicting moves) := by
  have all : ∀ (rest done : List (Reg × Reg)) (c : Copy), Records c done →
      (∃ c', rest.foldlM Copy.add c = .ok c' ∧ Records c' (done ++ rest)) ∨
        ((∃ move ∈ rest, rest.foldlM Copy.add c = .error (.copyConflict move.2)) ∧
          Conflicting (done ++ rest)) := by
    intro rest
    induction rest with
    | nil =>
      intro done c records
      exact .inl ⟨c, rfl, by rwa [append_nil]⟩
    | cons move rest ih =>
      intro done c records
      have isAppend : done ++ move :: rest = done ++ [move] ++ rest := by simp
      rw [foldlM_cons, isAppend]
      rcases records.add move with ⟨c', added, records'⟩ | ⟨refused, a, inA, b, inB, conflict⟩
      · rw [added]
        refine (ih (done ++ [move]) c' records').imp_right ?_
        rintro ⟨⟨other, mem, isError⟩, conflict⟩
        exact ⟨⟨other, mem_cons_of_mem _ mem, isError⟩, conflict⟩
      · rw [refused]
        exact .inr ⟨⟨move, mem_cons_self, rfl⟩, a, mem_append_left _ inA, b, mem_append_left _ inB,
          conflict⟩
  exact all moves [] empty records_empty

/-! ## What registers hold -/

/-- The register whose first word each register holds after moves, given from the latest on. -/
def contents : List (Reg × Reg) → Reg → Reg
  | [], r => r
  | (dst, src) :: earlier, r => if r = dst then contents earlier src else contents earlier r

theorem contents_append (later earlier : List (Reg × Reg)) (r : Reg) :
    contents (later ++ earlier) r = contents earlier (contents later r) := by
  induction later generalizing r with
  | nil => rfl
  | cons move later ih =>
    simp only [cons_append, contents]
    split <;> exact ih _

theorem contents_of_unmentioned {keep : Reg}
    (unmentioned : ∀ move ∈ moves, move.1 ≠ keep ∧ move.2 ≠ keep) (r : Reg) :
    contents moves r = keep ↔ r = keep := by
  induction moves generalizing r with
  | nil => exact Iff.rfl
  | cons move moves ih =>
    rw [forall_mem_cons] at unmentioned
    simp only [contents]
    split
    · rename_i here
      rw [ih unmentioned.2, here]
      exact ⟨fun same => absurd same unmentioned.1.2, fun same => absurd same unmentioned.1.1⟩
    · exact ih unmentioned.2 r

/-- Running moves gives every register the word that `contents` says. -/
theorem runAll_emit (plain : ∀ move ∈ moves, move.1 ≠ .sp ∧ move.1 ≠ .pc) (s : CoreState) :
    runAll (emit moves.reverse) s = some { s with regs := fun r => s.regs (contents moves r) } := by
  induction moves with
  | nil => rfl
  | cons move moves ih =>
    rw [forall_mem_cons] at plain
    have isEmit : emit (move :: moves).reverse = emit moves.reverse ++ [.move move.1 move.2] := by
      simp [emit]
    rw [isEmit, runAll_append, ih plain.2, Option.bind_some]
    change (Instr.run _ (.mov .always move.1 (.reg move.2))).bind _ = _
    rw [Instr.run, if_neg (by simp [plain.1.1, plain.1.2]), Option.bind_some]
    change some (CoreState.set _ _ _) = _
    simp only [CoreState.set, CoreState.flexible, contents]
    congr 2
    funext r
    split <;> rfl

/-- Moves around which the link register is saved: it gets back the word it had before the late
ones, and the stack is as it was. -/
theorem runAll_saved (avoidsSp : ∀ move ∈ late ++ early, move.1 ≠ .sp ∧ move.2 ≠ .sp)
    (avoidsPc : ∀ move ∈ late ++ early, move.1 ≠ .pc) (s : CoreState) :
    runAll (emit early.reverse ++ [.push (.ofList [.lr])] ++
        emit late.reverse ++ [.pop (.ofList [.lr])]) s =
      some { s with regs := fun r =>
        if r = .lr then s.regs (contents early .lr) else s.regs (contents (late ++ early) r) } := by
  have isEarly : ∀ move ∈ early, move ∈ late ++ early := fun _ => mem_append_right _
  have isLate : ∀ move ∈ late, move ∈ late ++ early := fun _ => mem_append_left _
  have spEarly : contents early .sp = .sp :=
    (contents_of_unmentioned (fun move mem => avoidsSp move (isEarly move mem)) .sp).mpr rfl
  have spLate := contents_of_unmentioned fun move mem => avoidsSp move (isLate move mem)
  rw [runAll_append, runAll_append, runAll_append,
    runAll_emit fun move mem =>
      ⟨(avoidsSp move (isEarly move mem)).1, avoidsPc move (isEarly move mem)⟩]
  rw [Option.bind_some, runAll_singleton, run_push_link, Option.bind_some,
    runAll_emit fun move mem =>
      ⟨(avoidsSp move (isLate move mem)).1, avoidsPc move (isLate move mem)⟩]
  rw [Option.bind_some, runAll_singleton, run_pop_link _ _ _ rfl]
  simp only [CoreState.set, (spLate .sp).mpr rfl, if_pos, spEarly]
  congr 2
  funext r
  by_cases isSp : r = .sp
  · subst isSp
    rw [if_pos rfl, if_neg (by decide), contents_append, (spLate .sp).mpr rfl, spEarly,
      Int32.sub_add_cancel]
  · rw [if_neg isSp, contents_append, if_neg (mt (spLate r).mp isSp)]

/-! ## Progress -/

theorem isSource_iff {c : Copy} : c.isSource r = true ↔ ∃ dst, c.source? dst = some r := by
  simp [isSource, Reg.all]

/-- No register is its own source, and the spare register has no part in the copy. -/
structure Proper (c : Copy) (spare : Reg) : Prop where
  other : ∀ src dst, c.source? dst = some src → src ≠ dst
  unread : ∀ dst, c.source? dst ≠ some spare
  unwritten : c.source? spare = none

theorem Proper.ne_spare {c : Copy} {spare : Reg} (proper : c.Proper spare)
    (isDst : (c.source? r).isSome = true) : r ≠ spare := by
  rintro rfl
  rw [proper.unwritten] at isDst
  cases isDst

variable {c : Copy} {spare : Reg}

namespace Progress

/-- Destinations that are not written yet. -/
def waiting (c : Copy) (s : Progress) : Finset Reg :=
  Finset.univ.filter fun r => (c.source? r).isSome = true ∧ s.written.contains r = false

/-- What was emitted so far is right: words that are still to be moved are where they are said to
be, written destinations hold the words of their sources, and all other registers hold their own. -/
structure Sound (c : Copy) (spare : Reg) (s : Progress) : Prop where
  /-- The word of a register is in it, in a destination of it that is written, or parked. -/
  location : ∀ r, s.locations.lookup r = r ∨ (c.source? (s.locations.lookup r) = some r ∧
      s.written.contains (s.locations.lookup r) = true) ∨ s.locations.lookup r = spare
  /-- The word of a register can be fetched while a destination of it waits. -/
  held : ∀ src dst, c.source? dst = some src → s.written.contains dst = false →
    contents s.moves (s.locations.lookup src) = src
  written : ∀ r, s.written.contains r = true → (c.source? r).isSome = true
  moved : ∀ src dst, c.source? dst = some src → s.written.contains dst = true →
    contents s.moves dst = src ∧ s.locations.lookup src ≠ src
  /-- The word of a register that was overwritten is elsewhere. -/
  freed : ∀ src dst, c.source? dst = some src → s.written.contains src = true →
    s.locations.lookup src ≠ src
  kept : ∀ r, s.written.contains r = false → r ≠ spare ∨ s.cycles = 0 → contents s.moves r = r
  /-- Moves only mention registers that have a part in the copy. -/
  mentions : ∀ move ∈ s.moves, ((c.source? move.1).isSome = true ∨ move.1 = spare) ∧
    (c.isSource move.2 = true ∨ (c.source? move.2).isSome = true ∨ move.2 = spare)

/-- A destination can be written without losing a word: it waits, and its own word is elsewhere or
nobody asks for it. -/
def Ready (c : Copy) (s : Progress) (dst : Reg) : Prop :=
  s.written.contains dst = false ∧
    (s.locations.lookup dst ≠ dst ∨ ∀ other, c.source? other ≠ some dst)

/-- Every waiting destination, apart from some, still holds its own word for another destination. -/
def Settled (c : Copy) (s : Progress) (apart : Reg → Prop) : Prop :=
  ∀ dst, (c.source? dst).isSome = true → s.written.contains dst = false →
    apart dst ∨ (s.locations.lookup dst = dst ∧ ∃ other, c.source? other = some dst)

theorem mem_waiting :
    r ∈ s.waiting c ↔ (c.source? r).isSome = true ∧ s.written.contains r = false := by
  simp [waiting]

private theorem sound_start : (start).Sound c spare where
  location r := .inl (by simp [start, RegTable.lookup])
  held src dst _ _ := by simp [start, RegTable.lookup, contents]
  written r isWritten := by simp [start] at isWritten
  moved src dst _ isWritten := by simp [start] at isWritten
  freed src dst _ isWritten := by simp [start] at isWritten
  kept r _ _ := rfl
  mentions := by simp [start]

theorem lookup_written1 (s : Progress) (src dst r : Reg) :
    (s.written1 src dst).locations.lookup r = if src = r then dst else s.locations.lookup r :=
  RegTable.lookup_update ..

private theorem Sound.write1 (sound : s.Sound c spare) (proper : c.Proper spare)
    (isSource : c.source? dst = some src) (ready : s.Ready c dst) :
    (s.written1 src dst).Sound c spare := by
  have other := proper.other src dst isSource
  have written : ∀ r, (s.written1 src dst).written.contains r =
      (s.written.contains r || decide (dst = r)) := fun r => RegSet.contains_insert ..
  have now : ∀ r, contents (s.written1 src dst).moves r =
      if r = dst then contents s.moves (s.locations.lookup src) else contents s.moves r :=
      fun r => rfl
  have fetched := sound.held src dst isSource ready.1
  refine ⟨?_, ?_, ?_, ?_, ?_, ?_, ?_⟩
  · intro r
    rw [lookup_written1]
    by_cases same : src = r
    · subst same
      rw [if_pos rfl, written]
      exact .inr (.inl ⟨isSource, by simp⟩)
    · rw [if_neg same]
      refine (sound.location r).imp_right (Or.imp_left fun ⟨isAt, isWritten⟩ => ⟨isAt, ?_⟩)
      rw [written, isWritten]
      rfl
  · intro src' dst' isSource' waits
    rw [written, Bool.or_eq_false_iff, decide_eq_false_iff_not] at waits
    rw [lookup_written1, now]
    by_cases same : src = src'
    · subst same
      rw [if_pos rfl, if_pos rfl]
      exact fetched
    · -- The place of another word that is still asked for is not the register just written.
      have elsewhere : s.locations.lookup src' ≠ dst := by
        intro here
        rcases sound.location src' with own | ⟨-, isWritten⟩ | parked
        · rw [own] at here
          subst here
          rcases ready.2 with moved | unasked
          · exact moved own
          · exact unasked dst' isSource'
        · rw [here, ready.1] at isWritten
          cases isWritten
        · exact proper.ne_spare (by rw [isSource]; rfl) (here.symm.trans parked)
      rw [if_neg same, if_neg elsewhere]
      exact sound.held src' dst' isSource' waits.1
  · intro r isWritten
    rw [written, Bool.or_eq_true, decide_eq_true_eq] at isWritten
    rcases isWritten with early | rfl
    · exact sound.written r early
    · rw [isSource]
      rfl
  · intro src' dst' isSource' isWritten
    rw [written, Bool.or_eq_true, decide_eq_true_eq] at isWritten
    rw [now, lookup_written1]
    by_cases here : dst = dst'
    · subst here
      obtain rfl := Option.some.inj (isSource.symm.trans isSource')
      rw [if_pos rfl, if_pos rfl]
      exact ⟨fetched, Ne.symm other⟩
    · obtain ⟨holds, moved⟩ := sound.moved src' dst' isSource' (isWritten.resolve_right here)
      rw [if_neg (Ne.symm here)]
      refine ⟨holds, ?_⟩
      by_cases same : src = src'
      · subst same
        rw [if_pos rfl]
        exact Ne.symm other
      · rw [if_neg same]
        exact moved
  · intro src' dst' isSource' isWritten
    rw [written, Bool.or_eq_true, decide_eq_true_eq] at isWritten
    rw [lookup_written1]
    by_cases same : src = src'
    · subst same
      rw [if_pos rfl]
      exact Ne.symm other
    · rw [if_neg same]
      rcases isWritten with early | rfl
      · exact sound.freed src' dst' isSource' early
      · exact ready.2.resolve_right fun unasked => unasked dst' isSource'
  · intro r waits isKept
    rw [written, Bool.or_eq_false_iff, decide_eq_false_iff_not] at waits
    rw [now, if_neg (Ne.symm waits.2)]
    exact sound.kept r waits.1 isKept
  · refine forall_mem_cons.mpr ⟨⟨.inl (by rw [isSource]; rfl), ?_⟩, sound.mentions⟩
    rcases sound.location src with own | ⟨isAt, -⟩ | parked
    · exact .inl (by rw [own]; exact isSource_iff.mpr ⟨dst, isSource⟩)
    · exact .inr (.inl (by rw [isAt]; rfl))
    · exact .inr (.inr parked)

private theorem waiting_written1 (s : Progress) (src dst : Reg) :
    (s.written1 src dst).waiting c = (s.waiting c).erase dst := by
  ext r
  rw [Finset.mem_erase, mem_waiting, mem_waiting]
  change _ ∧ (s.written.insert dst).contains r = false ↔ _
  rw [RegSet.contains_insert, Bool.or_eq_false_iff, decide_eq_false_iff_not]
  constructor
  · exact fun ⟨isDst, waits, differ⟩ => ⟨Ne.symm differ, isDst, waits⟩
  · exact fun ⟨differ, isDst, waits⟩ => ⟨isDst, waits, Ne.symm differ⟩

private theorem written_written1
    (isWritten : (s.written1 src dst).written.contains r = true) :
    s.written.contains r = true ∨ r = dst := by
  change (s.written.insert dst).contains r = true at isWritten
  rw [RegSet.contains_insert, Bool.or_eq_true, decide_eq_true_eq] at isWritten
  exact isWritten.imp_right Eq.symm

/-- Later progress: nothing that was written is forgotten. -/
structure Advanced (s t : Progress) : Prop where
  grows : ∀ r, s.written.contains r = true → t.written.contains r = true
  moves : ∃ new, t.moves = new ++ s.moves

theorem Advanced.refl (s : Progress) : Advanced s s := ⟨fun _ => id, ⟨[], rfl⟩⟩

theorem Advanced.trans {t u : Progress} (first : Advanced s t) (second : Advanced t u) :
    Advanced s u := by
  obtain ⟨new, isNew⟩ := first.moves
  obtain ⟨newer, isNewer⟩ := second.moves
  refine ⟨fun r isWritten => second.grows r (first.grows r isWritten), ⟨newer ++ new, ?_⟩⟩
  rw [isNewer, isNew, append_assoc]

private theorem advanced_written1 (s : Progress) (src dst : Reg) :
    Advanced s (s.written1 src dst) := by
  refine ⟨fun r isWritten => ?_, ⟨[_], rfl⟩⟩
  change (s.written.insert dst).contains r = true
  rw [RegSet.contains_insert, isWritten]
  rfl

/-- What a chain of writes from a ready destination leaves: progress in which nothing new can be
written, after writing that destination and sources only. -/
structure Chained (c : Copy) (spare : Reg) (apart : Reg → Prop) (dst : Reg)
    (s t : Progress) : Prop where
  sound : t.Sound c spare
  settled : t.Settled c apart
  advanced : Advanced s t
  only : ∀ r, t.written.contains r = true → s.written.contains r = true ∨ r = dst ∨
    ∃ other, c.source? other = some r
  done : (c.source? dst).isSome = true → t.written.contains dst = true
  cycles : t.cycles = s.cycles

/-- A chain of writes goes on until nothing new can be written. The number of waiting destinations
bounds its length. -/
theorem Sound.writeFrom (sound : s.Sound c spare) (proper : c.Proper spare) {bound : Nat}
    {apart : Reg → Prop} (enough : (s.waiting c).card ≤ bound)
    (ready : s.Ready c dst) (settled : s.Settled c fun r => apart r ∨ r = dst) :
    Chained c spare apart dst s (writeFrom c bound dst s) := by
  induction bound generalizing s dst with
  | zero =>
    have none : ∀ r, r ∉ s.waiting c := by
      rw [Nat.le_zero, Finset.card_eq_zero] at enough
      simp [enough]
    refine ⟨sound, fun r isDst waits => absurd (mem_waiting.mpr ⟨isDst, waits⟩) (none r), .refl s,
      fun r => .inl, fun isDst => ?_, rfl⟩
    exact absurd (mem_waiting.mpr ⟨isDst, ready.1⟩) (none dst)
  | succ bound ih =>
    cases isSource : c.source? dst with
    | none =>
      have same : writeFrom c (bound + 1) dst s = s := by rw [writeFrom, isSource]
      rw [same]
      refine ⟨sound, fun r isDst waits => ?_, .refl s, fun r => .inl, by simp [isSource], rfl⟩
      refine (settled r isDst waits).imp_left fun isApart => isApart.resolve_right ?_
      rintro rfl
      rw [isSource] at isDst
      cases isDst
    | some src =>
      have sound' := sound.write1 proper isSource ready
      have waits : dst ∈ s.waiting c := mem_waiting.mpr ⟨by rw [isSource]; rfl, ready.1⟩
      have enough' : ((s.written1 src dst).waiting c).card ≤ bound := by
        rw [waiting_written1, Finset.card_erase_of_mem waits]
        omega
      have advanced := advanced_written1 s src dst
      have isWritten : (s.written1 src dst).written.contains dst = true := by
        change (s.written.insert dst).contains dst = true
        simp
      have other := proper.other src dst isSource
      have waited : ∀ r, (s.written1 src dst).written.contains r = false →
          s.written.contains r = false := by
        intro r
        rw [← Bool.not_eq_true, ← Bool.not_eq_true]
        exact mt (advanced.grows r)
      -- Only the source may have changed its place, so the other waiting destinations are as
      -- before.
      have settled' : (s.written1 src dst).Settled c fun r => apart r ∨ r = src := by
        intro r isDst waits'
        by_cases same : r = src
        · exact .inl (.inr same)
        · rcases settled r isDst (waited r waits') with (isApart | rfl) | stays
          · exact .inl (.inl isApart)
          · rw [isWritten] at waits'
            cases waits'
          · rw [lookup_written1, if_neg (Ne.symm same)]
            exact .inr stays
      rw [writeFrom, isSource]
      dsimp only
      by_cases own : s.locations.lookup src = src
      · rw [if_pos own]
        have ready' : (s.written1 src dst).Ready c src := by
          refine ⟨?_, .inl ?_⟩
          · rw [← Bool.not_eq_true]
            intro isWritten'
            rcases written_written1 isWritten' with early | same
            · exact sound.freed src dst isSource early own
            · exact other same
          · rw [lookup_written1, if_pos rfl]
            exact Ne.symm other
        have chained := ih sound' enough' ready' settled'
        refine ⟨chained.sound, chained.settled, advanced.trans chained.advanced, fun r late => ?_,
          fun _ => chained.advanced.grows dst isWritten, chained.cycles⟩
        rcases chained.only r late with early | rfl | isRead
        · exact (written_written1 early).imp_right .inl
        · exact .inr (.inr ⟨dst, isSource⟩)
        · exact .inr (.inr isRead)
      · rw [if_neg own]
        refine ⟨sound', fun r isDst waits' => ?_, advanced,
          fun r late => (written_written1 late).imp_right .inl, fun _ => isWritten, rfl⟩
        rcases settled' r isDst waits' with (isApart | rfl) | stays
        · exact .inl isApart
        · rcases settled r isDst (waited r waits') with (isApart | same) | stays
          · exact .inl isApart
          · exact absurd same other
          · exact absurd stays.1 own
        · exact .inr stays

theorem card_waiting_le (s : Progress) : (s.waiting c).card ≤ 16 := by
  have atMost := Finset.card_le_univ (s.waiting c)
  rwa [Fintype.card_fin] at atMost

theorem Sound.write (sound : s.Sound c spare) (proper : c.Proper spare)
    (apart : Reg → Prop) (ready : s.Ready c dst)
    (settled : s.Settled c fun r => apart r ∨ r = dst) :
    Chained c spare apart dst s (s.write c dst) :=
  sound.writeFrom proper (card_waiting_le s) ready settled

end Progress

/-! ## Trees -/

theorem mem_destinations : r ∈ c.destinations ↔ (c.source? r).isSome = true := by
  simp [destinations, Reg.all]

/-- Writing the trees leaves nothing that could be written without a spare register. -/
theorem settled_treesWritten (proper : c.Proper spare) :
    c.treesWritten.Sound c spare ∧ (c.treesWritten.Settled c fun _ => False) ∧
      c.treesWritten.cycles = 0 := by
  have all : ∀ (leaves : List Reg) (s : Progress), leaves.Nodup →
      (∀ r ∈ leaves, (∀ other, c.source? other ≠ some r) ∧ s.written.contains r = false) →
      s.Sound c spare → s.Settled c (· ∈ leaves) →
      (leaves.foldl (Progress.write c) s).Sound c spare ∧
        ((leaves.foldl (Progress.write c) s).Settled c fun _ => False) ∧
        (leaves.foldl (Progress.write c) s).cycles = s.cycles := by
    intro leaves
    induction leaves with
    | nil =>
      intro s _ _ sound settled
      refine ⟨sound, fun r isDst waits => (settled r isDst waits).imp_left ?_, rfl⟩
      exact not_mem_nil
    | cons leaf leaves ih =>
      intro s nodup unread sound settled
      rw [nodup_cons] at nodup
      rw [forall_mem_cons] at unread
      have chained := sound.write proper (· ∈ leaves) ⟨unread.1.2, .inr unread.1.1⟩
        fun r isDst waits => (settled r isDst waits).imp_left fun mem =>
          (mem_cons.mp mem).symm
      rw [← chained.cycles]
      refine ih _ nodup.2 (fun r mem => ⟨(unread.2 r mem).1, ?_⟩) chained.sound chained.settled
      rw [← Bool.not_eq_true]
      intro isWritten
      rcases chained.only r isWritten with early | rfl | ⟨other, isRead⟩
      · rw [(unread.2 r mem).2] at early
        cases early
      · exact nodup.1 mem
      · exact (unread.2 r mem).1 other isRead
  refine all _ .start (((nodup_finRange 16).filter _).filter _) ?_ Progress.sound_start ?_
  · intro r mem
    refine ⟨fun other isRead => ?_, by simp [Progress.start]⟩
    have leaf := (mem_filter.mp mem).2
    rw [isSource_iff.mpr ⟨other, isRead⟩] at leaf
    cases leaf
  · intro r isDst _
    by_cases isRead : c.isSource r = true
    · exact .inr ⟨by simp [Progress.start, RegTable.lookup], isSource_iff.mp isRead⟩
    · exact .inl (mem_filter.mpr ⟨mem_destinations.mpr isDst, by simpa using isRead⟩)

/-! ## Cycles -/

namespace Progress

/-- When nothing can be written, the sources of waiting destinations wait themselves: each waiting
destination is the source of another one, and there are no more sources than destinations. -/
theorem Settled.source_waits (settled : s.Settled c fun _ => False)
    (sound : s.Sound c spare) (isSource : c.source? dst = some src)
    (waits : s.written.contains dst = false) :
    s.written.contains src = false ∧ s.locations.lookup src = src := by
  have covered : s.waiting c ⊆ (s.waiting c).image fun r => (c.source? r).getD r := by
    intro r mem
    obtain ⟨isDst, waits⟩ := mem_waiting.mp mem
    obtain ⟨stays, other, isRead⟩ := (settled r isDst waits).resolve_left id
    have otherWaits : s.written.contains other = false := by
      rw [← Bool.not_eq_true]
      exact fun isWritten => (sound.moved r other isRead isWritten).2 stays
    refine Finset.mem_image.mpr ⟨other, mem_waiting.mpr ⟨by rw [isRead]; rfl, otherWaits⟩, ?_⟩
    rw [isRead]
    rfl
  have same := Finset.eq_of_subset_of_card_le covered Finset.card_image_le
  have mem : src ∈ s.waiting c := by
    rw [same]
    refine Finset.mem_image.mpr ⟨dst, mem_waiting.mpr ⟨by rw [isSource]; rfl, waits⟩, ?_⟩
    rw [isSource]
    rfl
  obtain ⟨isDst, srcWaits⟩ := mem_waiting.mp mem
  exact ⟨srcWaits, ((settled src isDst srcWaits).resolve_left id).1⟩

theorem lookup_parked (s : Progress) (dst r : Reg) :
    (s.parked spare dst).locations.lookup r = if dst = r then spare else s.locations.lookup r :=
  RegTable.lookup_update ..

section

variable (sound : s.Sound c spare) (proper : c.Proper spare) (settled : s.Settled c fun _ => False)

include sound proper settled

private theorem Sound.park (isDst : (c.source? dst).isSome = true)
    (waits : s.written.contains dst = false) : (s.parked spare dst).Sound c spare := by
  have now : ∀ r, contents (s.parked spare dst).moves r =
      if r = spare then contents s.moves dst else contents s.moves r := fun r => rfl
  refine ⟨?_, ?_, sound.written, ?_, ?_, ?_, ?_⟩
  · intro r
    rw [lookup_parked]
    by_cases here : dst = r
    · rw [if_pos here]
      exact .inr (.inr rfl)
    · rw [if_neg here]
      exact sound.location r
  · intro src dst' isSource waits'
    -- No word is parked yet: what is still to be moved is where it was at first.
    obtain ⟨srcWaits, own⟩ := settled.source_waits sound isSource waits'
    have other : src ≠ spare := fun same => proper.unread dst' (same ▸ isSource)
    rw [lookup_parked, now]
    by_cases here : dst = src
    · subst here
      rw [if_pos rfl, if_pos rfl]
      exact sound.kept dst waits (.inl other)
    · rw [if_neg here, own, if_neg other]
      exact sound.kept src srcWaits (.inl other)
  · intro src dst' isSource isWritten
    obtain ⟨holds, moved⟩ := sound.moved src dst' isSource isWritten
    rw [now, if_neg (proper.ne_spare (by rw [isSource]; rfl)), lookup_parked]
    refine ⟨holds, ?_⟩
    by_cases here : dst = src
    · subst here
      rw [if_pos rfl]
      exact Ne.symm (proper.ne_spare isDst)
    · rw [if_neg here]
      exact moved
  · intro src dst' isSource isWritten
    rw [lookup_parked]
    by_cases here : dst = src
    · subst here
      rw [if_pos rfl]
      exact Ne.symm (proper.ne_spare isDst)
    · rw [if_neg here]
      exact sound.freed src dst' isSource isWritten
  · intro r waits' isKept
    have other : r ≠ spare := isKept.resolve_right (Nat.succ_ne_zero _)
    rw [now, if_neg other]
    exact sound.kept r waits' (.inl other)
  · exact forall_mem_cons.mpr ⟨⟨.inr rfl, .inr (.inl isDst)⟩, sound.mentions⟩

/-- Breaking a cycle writes its destinations and leaves the spare register free again. -/
theorem Sound.breakCycle (isDst : (c.source? dst).isSome = true) :
    (s.breakCycle c spare dst).Sound c spare ∧
      ((s.breakCycle c spare dst).Settled c fun _ => False) ∧
      Advanced s (s.breakCycle c spare dst) ∧
      (s.breakCycle c spare dst).written.contains dst = true := by
  unfold Progress.breakCycle
  cases waits : s.written.contains dst with
  | true =>
    rw [if_pos rfl]
    exact ⟨sound, settled, .refl s, waits⟩
  | false =>
    rw [if_neg Bool.false_ne_true]
    have ready : (s.parked spare dst).Ready c dst := by
      refine ⟨waits, .inl ?_⟩
      rw [lookup_parked, if_pos rfl]
      exact Ne.symm (proper.ne_spare isDst)
    have settled' : (s.parked spare dst).Settled c fun r => False ∨ r = dst := by
      intro r isDst' waits'
      by_cases here : dst = r
      · exact .inl (.inr here.symm)
      · rw [lookup_parked, if_neg here]
        exact .inr ((settled r isDst' waits').resolve_left id)
    have chained := (sound.park proper settled isDst waits).write proper _ ready settled'
    have parked : Advanced s (s.parked spare dst) := ⟨fun _ => id, ⟨[_], rfl⟩⟩
    exact ⟨chained.sound, chained.settled, parked.trans chained.advanced, chained.done isDst⟩

private theorem Sound.breakCycles {dsts : List Reg}
    (areDsts : ∀ r ∈ dsts, (c.source? r).isSome = true) :
    (dsts.foldl (Progress.breakCycle c spare) s).Sound c spare ∧
      Advanced s (dsts.foldl (Progress.breakCycle c spare) s) ∧
      ∀ r ∈ dsts, (dsts.foldl (Progress.breakCycle c spare) s).written.contains r = true := by
  induction dsts generalizing s with
  | nil => exact ⟨sound, .refl s, by simp⟩
  | cons dst dsts ih =>
    rw [forall_mem_cons] at areDsts
    obtain ⟨sound', settled', advanced, isWritten⟩ := sound.breakCycle proper settled areDsts.1
    obtain ⟨soundEnd, advancedEnd, allWritten⟩ := ih sound' settled' areDsts.2
    exact ⟨soundEnd, advanced.trans advancedEnd,
      forall_mem_cons.mpr ⟨advancedEnd.grows dst isWritten, allWritten⟩⟩

end

end Progress

/-! ## The sequence of a copy -/

/-- The moves of a copy, the early ones without a cycle, each part from the latest on. -/
structure Emits (c : Copy) (spare : Reg) (early late : List (Reg × Reg)) : Prop where
  moved : ∀ src dst, c.source? dst = some src → contents (late ++ early) dst = src
  kept : ∀ r, c.source? r = none → r ≠ spare ∨ (c.allWritten spare).cycles = 0 →
    contents (late ++ early) r = r
  keptEarly : ∀ r, c.source? r = none → contents early r = r
  mentions : ∀ move ∈ late ++ early, ((c.source? move.1).isSome = true ∨ move.1 = spare) ∧
    (c.isSource move.2 = true ∨ (c.source? move.2).isSome = true ∨ move.2 = spare)

private theorem exists_emits (proper : c.Proper spare) :
    ∃ early late, c.treesWritten.moves = early ∧ (c.allWritten spare).moves = late ++ early ∧
      c.Emits spare early late := by
  obtain ⟨soundTrees, settled, noCycles⟩ := settled_treesWritten proper
  obtain ⟨sound, advanced, written⟩ := soundTrees.breakCycles proper settled fun r =>
    mem_destinations.mp
  obtain ⟨late, isLate⟩ := advanced.moves
  have unwritten : ∀ {s : Progress}, s.Sound c spare → ∀ r, c.source? r = none →
      s.written.contains r = false := by
    intro s sound r isNone
    rw [← Bool.not_eq_true]
    intro isWritten
    have isDst := sound.written r isWritten
    rw [isNone] at isDst
    cases isDst
  refine ⟨_, late, rfl, isLate, ?_, ?_, ?_, ?_⟩
  · intro src dst isSource
    rw [← isLate]
    exact (sound.moved src dst isSource
      (written dst (mem_destinations.mpr (by rw [isSource]; rfl)))).1
  · intro r isNone isKept
    rw [← isLate]
    exact sound.kept r (unwritten sound r isNone) isKept
  · exact fun r isNone => soundTrees.kept r (unwritten soundTrees r isNone) (.inr noCycles)
  · rw [← isLate]
    exact sound.mentions

/-- The instructions of a copy: its moves, with the link register saved around the late ones if they
borrow it. -/
theorem instrs_sequence (isEarly : c.treesWritten.moves = early)
    (isAll : (c.allWritten ((c.spare? clobberable).getD .lr)).moves = late ++ early) :
    (c.sequence clobberable).instrs =
      if (c.spare? clobberable).isNone &&
          decide (0 < (c.allWritten ((c.spare? clobberable).getD .lr)).cycles) then
        emit early.reverse ++ [.push (.ofList [.lr])] ++ emit late.reverse ++ [.pop (.ofList [.lr])]
      else emit early.reverse ++ emit late.reverse := by
  have isLate : (c.allWritten ((c.spare? clobberable).getD .lr)).moves.reverse.drop
      c.treesWritten.moves.length = late.reverse := by
    rw [isAll, isEarly, reverse_append, drop_left' length_reverse]
  rw [← isLate, ← isEarly]
  rfl

/-- The spare register may be overwritten and has no part in the copy. -/
theorem spare?_eq_some (found : c.spare? clobberable = some r) :
    clobberable.contains r = true ∧ c.touched.contains r = false := by
  unfold spare? RegSet.firstFrom? at found
  have mem := (mem_filter.mp (mem_of_find?_eq_some found)).2
  simpa [RegSet.contains_diff] using mem

section Recorded

variable (records : Records c moves)
  (low : ∀ move ∈ moves, move.1.val < mostRegisters ∧ move.2.val < mostRegisters)

include records low

/-- No move between low registers touches the spare register, or the link register if there is
none. -/
theorem Records.apart (clobberable : RegSet) :
    ∀ move ∈ moves, move.1 ≠ (c.spare? clobberable).getD .lr ∧
      move.2 ≠ (c.spare? clobberable).getD .lr := by
  intro move mem
  cases found : c.spare? clobberable with
  | some r =>
    have untouched := (spare?_eq_some found).2
    rw [← Bool.not_eq_true, records.touched] at untouched
    exact ⟨fun same => untouched ⟨move, mem, .inl same⟩,
      fun same => untouched ⟨move, mem, .inr same⟩⟩
  | none =>
    change move.1 ≠ .lr ∧ move.2 ≠ .lr
    have high : ¬Reg.lr.val < mostRegisters := by decide
    exact ⟨fun same => high (same ▸ (low move mem).1), fun same => high (same ▸ (low move mem).2)⟩

private theorem Records.proper (clobberable : RegSet) :
    c.Proper ((c.spare? clobberable).getD .lr) := by
  refine ⟨fun src dst isSource => ((records.source src dst).mp isSource).2,
    fun dst isSource => ?_, ?_⟩
  · exact (records.apart low clobberable _ ((records.source _ dst).mp isSource).1).1 rfl
  · cases isSource : c.source? ((c.spare? clobberable).getD .lr) with
    | none => rfl
    | some src =>
      exact absurd rfl (records.apart low clobberable _ ((records.source src _).mp isSource).1).2

section

variable (emits : c.Emits ((c.spare? clobberable).getD .lr) early late)

include emits

/-- Every move's destination ends up with the first word of its source. -/
theorem Emits.contents_move : ∀ move ∈ moves, contents (late ++ early) move.2 = move.1 := by
  rintro ⟨src, dst⟩ mem
  by_cases isPinned : src = dst
  · subst isPinned
    have unmoved : c.source? src = none := by
      cases isSource : c.source? src with
      | none => rfl
      | some other =>
        obtain ⟨inMoves, differ⟩ := (records.source other src).mp isSource
        exact absurd ⟨_, inMoves, _, mem, rfl, differ⟩ records.agree
    exact emits.kept src unmoved (.inl (records.apart low clobberable _ mem).2)
  · exact emits.moved _ _ ((records.source _ _).mpr ⟨mem, isPinned⟩)

private theorem Emits.unmentioned
    (lowSpare : ∀ r, clobberable.contains r = true → r.val < mostRegisters)
    (high : Reg) (above : mostRegisters ≤ high.val) (notLink : high ≠ .lr) :
    ∀ move ∈ late ++ early, move.1 ≠ high ∧ move.2 ≠ high := by
  have isDst : (c.source? high).isSome = false := by
    cases isSource : c.source? high with
    | none => rfl
    | some src =>
      exact absurd (low _ ((records.source src high).mp isSource).1).2 (Nat.not_lt.mpr above)
  have isRead : c.isSource high = false := by
    rw [← Bool.not_eq_true, isSource_iff]
    rintro ⟨dst, isSource⟩
    exact absurd (low _ ((records.source high dst).mp isSource).1).1 (Nat.not_lt.mpr above)
  have isSpare : high ≠ (c.spare? clobberable).getD .lr := by
    cases found : c.spare? clobberable with
    | some r =>
      rintro rfl
      exact absurd (lowSpare _ (spare?_eq_some found).1) (Nat.not_lt.mpr above)
    | none => exact notLink
  intro move mem
  obtain ⟨first, second⟩ := emits.mentions move mem
  constructor
  · rintro rfl
    rw [isDst] at first
    exact first.elim Bool.false_ne_true isSpare
  · rintro rfl
    rw [isDst, isRead] at second
    exact second.elim Bool.false_ne_true fun rest => rest.elim Bool.false_ne_true isSpare

end

/-- Running the sequence of a copy does the copy. -/
theorem Records.run_sequence (lowSpare : ∀ r, clobberable.contains r = true → r.val < mostRegisters)
    (s : CoreState) :
    ∃ t, runAll (c.sequence clobberable).instrs s = some t ∧
      (∀ move ∈ moves, t.regs move.2 = s.regs move.1) ∧
      (∀ r, (∀ move ∈ moves, move.2 ≠ r) → c.spare? clobberable ≠ some r → t.regs r = s.regs r) ∧
      t.stack = s.stack := by
  obtain ⟨early, late, isEarly, isAll, emits⟩ := exists_emits (records.proper low clobberable)
  have copied := emits.contents_move records low
  have avoidsSp := emits.unmentioned records low lowSpare .sp (by decide) (by decide)
  have avoidsPc := emits.unmentioned records low lowSpare .pc (by decide) (by decide)
  have free : ∀ r, (∀ move ∈ moves, move.2 ≠ r) → c.source? r = none := by
    intro r isFree
    cases isSource : c.source? r with
    | none => rfl
    | some src => exact absurd rfl (isFree _ ((records.source src r).mp isSource).1)
  have unlinked : ∀ move ∈ moves, move.2 ≠ .lr := by
    intro move mem same
    exact absurd (same ▸ (low move mem).2) (by decide)
  rw [instrs_sequence isEarly isAll]
  split
  · rename_i borrows
    rw [Bool.and_eq_true, Option.isNone_iff_eq_none] at borrows
    rw [runAll_saved avoidsSp fun move mem => (avoidsPc move mem).1]
    refine ⟨_, rfl, fun move mem => ?_, fun r isFree _ => ?_, rfl⟩ <;> dsimp only
    · rw [if_neg (unlinked move mem), copied move mem]
    · -- The link register still holds its own word when it is saved.
      split
      · rename_i isLink
        rw [isLink, emits.keptEarly .lr (free .lr unlinked)]
      · rename_i notLink
        rw [emits.kept r (free r isFree) (.inl (by rw [borrows.1]; exact notLink))]
  · rename_i keeps
    have joined : emit early.reverse ++ emit late.reverse = emit (late ++ early).reverse := by
      simp [emit]
    rw [joined, runAll_emit fun move mem => ⟨(avoidsSp move mem).1, (avoidsPc move mem).1⟩]
    refine ⟨_, rfl, fun move mem => ?_, fun r isFree other => ?_, rfl⟩ <;> dsimp only
    · rw [copied move mem]
    · rw [emits.kept r (free r isFree) ?_]
      cases found : c.spare? clobberable with
      | some r' =>
        refine .inl fun same => other ?_
        rw [found, same]
        rfl
      | none =>
        rw [found, Option.isNone_none, Bool.true_and, decide_eq_true_eq] at keeps
        exact .inr (Nat.eq_zero_of_not_pos keeps)

end Recorded

/-! ## Copies -/

/-- Moves that do not conflict have a sequence, and running it does them all. -/
theorem exists_sequence
    (low : ∀ move ∈ moves, move.1.val < mostRegisters ∧ move.2.val < mostRegisters)
    (lowSpare : ∀ r, clobberable.contains r = true → r.val < mostRegisters)
    (agree : ¬Conflicting moves) :
    ∃ sequence spare, sequentialize moves clobberable = .ok sequence ∧
      (∀ r, spare = some r → clobberable.contains r = true ∧ ∀ move ∈ moves, move.1 ≠ r ∧
        move.2 ≠ r) ∧
      ∀ s, ∃ t, runAll sequence.instrs s = some t ∧
      (∀ move ∈ moves, t.regs move.2 = s.regs move.1) ∧
        (∀ r, (∀ move ∈ moves, move.2 ≠ r) → spare ≠ some r → t.regs r = s.regs r) ∧
        t.regs .lr = s.regs .lr ∧ t.regs .sp = s.regs .sp ∧ t.stack = s.stack := by
  rcases ofMoves_cases moves with ⟨c, made, records⟩ | ⟨-, conflicting⟩
  · refine ⟨c.sequence clobberable, c.spare? clobberable, by rw [sequentialize, made]; rfl,
      fun r found => ?_, fun s => ?_⟩
    · refine ⟨(spare?_eq_some found).1, fun move mem => ?_⟩
      have apart := records.apart low clobberable move mem
      rwa [found, Option.getD_some] at apart
    obtain ⟨t, ran, copied, kept, stack⟩ := records.run_sequence low lowSpare s
    have keptHigh : ∀ r : Reg, mostRegisters ≤ r.val → t.regs r = s.regs r := by
      intro r above
      refine kept r (fun move mem => ?_) fun found => ?_
      · rintro rfl
        exact absurd (low move mem).2 (Nat.not_lt.mpr above)
      · exact absurd (lowSpare r (spare?_eq_some found).1) (Nat.not_lt.mpr above)
    exact ⟨t, ran, copied, kept, keptHigh .lr (by decide), keptHigh .sp (by decide), stack⟩
  · exact absurd conflicting agree

/-- A simultaneous copy between registers for variables is refused exactly if two of its moves give
one destination different sources. Otherwise its instructions do the copy: whatever the registers
and the stack hold, every destination gets the word its source held, and nothing else changes but
perhaps one spare register, which may be overwritten and has no part in the copy. -/
theorem run_sequentialize (moves : List (Reg × Reg)) (clobberable : RegSet)
    (low : ∀ move ∈ moves, move.1.val < mostRegisters ∧ move.2.val < mostRegisters)
    (lowSpare : ∀ r, clobberable.contains r = true → r.val < mostRegisters) :
    ((∃ dst, sequentialize moves clobberable = .error (.copyConflict dst)) ↔ Conflicting moves) ∧
      (¬Conflicting moves → ∃ sequence spare, sequentialize moves clobberable = .ok sequence ∧
        (∀ r, spare = some r → clobberable.contains r = true ∧ ∀ move ∈ moves, move.1 ≠ r ∧
          move.2 ≠ r) ∧
        ∀ s, ∃ t, runAll sequence.instrs s = some t ∧
        (∀ move ∈ moves, t.regs move.2 = s.regs move.1) ∧
          (∀ r, (∀ move ∈ moves, move.2 ≠ r) → spare ≠ some r → t.regs r = s.regs r) ∧
          t.regs .lr = s.regs .lr ∧ t.regs .sp = s.regs .sp ∧ t.stack = s.stack) := by
  refine ⟨⟨?_, fun conflicting => ?_⟩, exists_sequence low lowSpare⟩
  · rintro ⟨dst, isError⟩
    by_contra agree
    obtain ⟨sequence, -, isOk, -⟩ := exists_sequence low lowSpare agree
    rw [isOk] at isError
    cases isError
  · rcases ofMoves_cases moves with ⟨c, -, records⟩ | ⟨⟨move, -, refused⟩, -⟩
    · exact absurd conflicting records.agree
    · exact ⟨move.2, by rw [sequentialize, refused]; rfl⟩

/-- Two registers are exchanged with nothing to spare, so that the link register is borrowed. -/
theorem run_sequentialize_swap : ∃ sequence t, sequentialize [(.r0, .r4), (.r4, .r0)] .empty =
      .ok sequence ∧ sequence.borrowedLink = true ∧
      runAll sequence.instrs ⟨fun r => if r = .r0 then 7 else 9, []⟩ = some t ∧
      t.regs .r0 = 9 ∧ t.regs .r4 = 7 ∧ t.regs .lr = 9 ∧ t.stack = [] := by
  obtain ⟨sequence, spare, isOk, -, runs⟩ := (run_sequentialize [(.r0, .r4), (.r4, .r0)] .empty
    (by decide +kernel) (by decide)).2 (by unfold Conflicting; decide)
  obtain ⟨t, ran, copied, -, link, -, stack⟩ := runs ⟨fun r => if r = .r0 then 7 else 9, []⟩
  have borrowed : sequence.borrowedLink = true := by
    have computed : (sequentialize [(.r0, .r4), (.r4, .r0)] .empty).map (·.borrowedLink) =
        .ok true := by decide
    rw [isOk] at computed
    exact Except.ok.inj computed
  exact ⟨sequence, t, isOk, borrowed, ran, copied (.r4, .r0) (by simp), copied (.r0, .r4) (by simp),
    link, stack⟩

end Copy

end ArmBackend
