import ArmBackend.Proofs.Source.Listed

/-!
Contract: the listing of a program that was read is read back.

Owns: how classes and whole programs are read from their listings, and that resolved calls are
listed as they were written.
Does not own: the listings of programs that no text spells.
-/

namespace ArmBackend

open List Source Source.Cursor Source.Reader

/-- The program with a marker of a label named `entry` in front of every body. -/
def Program.withEntryMarkers (program : Program) : Program :=
  { program with procedures := program.procedures.map Procedure.withEntryMarker }

namespace Source

variable {program : Program} {ps : List Procedure} {rounds : Nat}

/-! ## Classes -/

/-- The listed fields of a class. -/
def fieldsText (entries : List (String × Ty)) : List Char :=
  entries.flatMap fun f => ' ' :: ' ' :: ((spelling f).toList ++ [';', '\n'])

private theorem fields_takes {entries : List (String × Ty)} (spelt : ∀ f ∈ entries, SpeltPair f)
    (limit rounds : Nat) (enough : limit < rounds) :
    Within limit (fields rounds) (fieldsText entries ++ ['\x7d']) entries Anything := by
  induction entries generalizing limit rounds with
  | nil =>
    obtain ⟨rounds, rfl⟩ := Nat.exists_eq_add_one.mpr (Nat.zero_lt_of_lt enough)
    refine Takes.within ?_ limit
    exact (tryChar_takes rfl).last (.pure _ _)
  | cons f entries ih =>
    obtain ⟨rounds, rfl⟩ := Nat.exists_eq_add_one.mpr (Nat.zero_lt_of_lt enough)
    have isSpelt := spelt f mem_cons_self
    have takesTy := ty_takes isSpelt.spelt.isName
    rw [isSpelt.spelt.same] at takesTy
    have text : fieldsText (f :: entries) ++ ['\x7d'] = ' ' :: ' ' :: (f.2.name.toList ++ ' ' ::
        (f.1.toList ++ ([';'] ++ '\n' :: (fieldsText entries ++ ['\x7d'])))) := by
      simp [fieldsText, toList_spelling]
    rw [text]
    refine .blank
      (.blank (.look (tryChar_lacks '\x7d') (tryChar_forward '\x7d') ?_ fun rest _ => ?_) rfl) rfl
    · refine .bind takesTy (identifier_forward.bind fun _ => .pure _) (.blank ?_ rfl)
        fun _ _ => .of_cons rfl
      refine .bind (identifier_takes isSpelt.isName) identifier_forward ?_ fun _ _ => .of_cons rfl
      refine .shorten (expect_takes rfl) (fun _ _ => expect_shortens)
        (fun less fewer => .blank ?_ rfl) fun _ _ => trivial
      exact (ih (fun f mem => spelt f (mem_cons_of_mem _ mem)) less rounds
        (Nat.lt_of_lt_of_le fewer (Nat.le_of_lt_succ enough))).map _
    · rw [append_assoc]
      exact .of_word isSpelt.spelt.isName rfl _

/-- A listed class, without the end of its last line. -/
def classText (layout : ClassLayout) : List Char :=
  "class".toList ++ ' ' ::
    (layout.name.toList ++ ' ' :: '\x7b' :: '\n' :: (fieldsText layout.fields ++ ['\x7d']))

private theorem toList_classListing (layout : ClassLayout) :
    layout.listing.toList = classText layout ++ ['\n'] := by
  have line (f : String × Ty) : ("  " ++ f.2.name ++ " " ++ f.1 ++ ";\n").toList =
      ' ' :: ' ' :: ((spelling f).toList ++ [';', '\n']) := by simp [toList_spelling]
  rw [ClassLayout.listing, classText, fieldsText]
  simp only [String.toList_append, String.toList_join, flatMap_map, line]
  simp

private theorem classLayout_takes {layout : ClassLayout} (isName : Word layout.name)
    (spelt : ∀ f ∈ layout.fields, SpeltPair f) (new : program.class? layout.name = none) :
    Takes (classLayout program) (classText layout) layout Anything := by
  refine (identifier_takes (word_of_decide rfl rfl)).bind (.blank ?_ rfl) fun _ _ => .of_cons rfl
  refine (identifier_takes isName).bind ?_ fun _ _ => .of_cons rfl
  rw [if_neg (by simp [new])]
  refine .blank ((expect_takes rfl).cons (.blank ?_ rfl) fun _ _ => trivial) rfl
  have bounded : ∀ limit rounds, limit < rounds → Within limit
      (fields rounds >>= fun entries => (pure ⟨layout.name, entries⟩ : Reader ClassLayout))
      (fieldsText layout.fields ++ ['\x7d']) layout Anything :=
    fun limit rounds enough => (fields_takes spelt limit rounds enough).map
      (ClassLayout.mk layout.name)
  exact .rounds bounded

/-! ## Texts -/

/-- A procedure that is read back from its listing. -/
structure ReadBack (p : Procedure) : Prop where
  reading : ∃ c, Nonempty (Reading c p)
  respelt : ∀ i ∈ p.insts, i.Respelt
  noEntry : "entry" ∉ p.labels.toList.drop 1

/-- The text ends. -/
def AtEnd (rest : List Char) : Prop := rest = []

private theorem declarations_takes_nothing (program : Program) (rounds : Nat) :
    Takes (declarations program rounds) [] program AtEnd := by
  rintro c _ here rfl
  cases rounds with
  | zero => exact ⟨c, rfl, here⟩
  | succ rounds =>
    have left : c.skip.rest = [] := (Cursor.rest_skip c).trans here
    refine ⟨c.skip, ?_, here.skip⟩
    rw [declarations, bind_ok (skip_eq c), bind_ok (peek?_eq _), left]
    rfl

private theorem atIdentifier_differs {name other : String} (isName : Word other)
    (differs : other ≠ name) :
    Takes (atIdentifier name) [] false fun rest => ∃ more, rest = other.toList ++ more ∧
      Ends more := by
  rintro c _ here ⟨more, rfl, ends⟩
  obtain ⟨c', read, -⟩ := identifier_takes isName c more here ends
  refine ⟨c, ?_, here⟩
  rw [atIdentifier_eq, read]
  simp [Except.toOption, differs]

/-- A declaration is in sight where a word is. -/
theorem declarations_takes_word {result : Program} {first : String} {written : List Char}
    (isFirst : Word first)
    (takes : Takes (atIdentifier "class" >>= fun isClass => if isClass = true then
        classLayout program >>= fun layout =>
          declarations { program with classes := program.classes ++ [layout] } rounds
      else procedure program >>= fun p =>
        declarations { program with procedures := program.procedures ++ [p] } rounds)
      (first.toList ++ written) result AtEnd) :
    Takes (declarations program (rounds + 1)) (first.toList ++ written) result AtEnd := by
  obtain ⟨ch, more, spelt, starts, notBlank, -⟩ := isFirst
  rw [spelt] at takes ⊢
  refine .peek (solid_of_starts starts notBlank) ?_
  rw [if_neg (by simp)]
  exact takes

theorem find?_eq_none_of_not_mem {α : Type} {name : α → String} {entries : List α} {wanted : String}
    (new : wanted ∉ entries.map name) : entries.find? (name · == wanted) = none := by
  rw [find?_eq_none]
  exact fun x mem same => new (beq_iff_eq.mp same ▸ mem_map_of_mem mem)

private theorem declarations_takes_procedures (readBack : ∀ p ∈ ps, ReadBack p)
    (distinct : (program.procedures.map Procedure.name ++ ps.map Procedure.name).Nodup)
    (enough : ps.length ≤ rounds) :
    Takes (declarations program rounds) (ps.flatMap (·.listing.toList))
      { program with procedures := program.procedures ++ ps.map Procedure.withEntryMarker }
        AtEnd := by
  induction ps generalizing program rounds with
  | nil => simpa using declarations_takes_nothing program rounds
  | cons p ps ih =>
    obtain ⟨rounds, rfl⟩ := Nat.exists_eq_add_one.mpr (Nat.zero_lt_of_lt enough)
    obtain ⟨⟨c, ⟨reading⟩⟩, respelt, noEntry⟩ := readBack p mem_cons_self
    obtain ⟨args, more, declares⟩ := reading.exists_declares
    have new : program.procedure? p.name = none := find?_eq_none_of_not_mem fun mem =>
      disjoint_of_nodup_append distinct mem (by simp)
    have takes := declares.takes respelt noEntry new
    have later :
        Takes (declarations { program with procedures := program.procedures ++ [p.withEntryMarker] }
        rounds) (ps.flatMap (·.listing.toList)) _ AtEnd :=
      ih (fun q mem => readBack q (mem_cons_of_mem _ mem))
        (by simpa [Procedure.withEntryMarker] using distinct) (Nat.le_of_succ_le_succ enough)
    rw [map_cons, append_cons, flatMap_cons, declares.toList_listing, append_assoc]
    obtain ⟨tail, isText⟩ : ∃ tail, Reading.headText p args ++ ' ' :: '\x7b' :: '\n' ::
        (linesText (Reading.bodyLines p more) ++ ['\x7d']) = p.returns.name.toList ++ ' ' :: tail :=
      ⟨_, by rw [Reading.headText, append_assoc]; rfl⟩
    rw [isText] at takes ⊢
    rw [append_assoc]
    obtain ⟨spelt, notClass⟩ := reading.returns_spelt
    refine declarations_takes_word spelt.isName ?_
    refine (atIdentifier_differs spelt.isName notClass).look ?_ fun rest _ =>
      ⟨_, append_assoc _ _ _, by exact .of_cons rfl⟩
    rw [if_neg Bool.false_ne_true, ← append_assoc]
    exact takes.bind (later.blank rfl) fun _ _ => trivial

private theorem declarations_takes_classes {layouts : List ClassLayout}
    (spelt : ∀ layout ∈ layouts, Word layout.name ∧ ∀ f ∈ layout.fields, SpeltPair f)
    (classNames : (program.classes.map ClassLayout.name ++ layouts.map ClassLayout.name).Nodup)
    (readBack : ∀ p ∈ ps, ReadBack p)
    (names : (program.procedures.map Procedure.name ++ ps.map Procedure.name).Nodup)
    (enough : layouts.length + ps.length ≤ rounds) : Takes (declarations program rounds)
      (layouts.flatMap (·.listing.toList) ++ ps.flatMap (·.listing.toList))
      ⟨program.classes ++ layouts, program.procedures ++ ps.map Procedure.withEntryMarker⟩
        AtEnd := by
  induction layouts generalizing program rounds with
  | nil =>
    rw [append_nil]
    exact declarations_takes_procedures readBack names (by simpa using enough)
  | cons layout layouts ih =>
    rw [length_cons, Nat.succ_add] at enough
    obtain ⟨rounds, rfl⟩ := Nat.exists_eq_add_one.mpr (Nat.zero_lt_of_lt enough)
    obtain ⟨isName, speltFields⟩ := spelt layout mem_cons_self
    have new : program.class? layout.name = none := find?_eq_none_of_not_mem fun mem =>
      disjoint_of_nodup_append classNames mem (by simp)
    have takes := classLayout_takes isName speltFields new
    have later : Takes (declarations { program with classes := program.classes ++ [layout] } rounds)
        (layouts.flatMap (·.listing.toList) ++ ps.flatMap (·.listing.toList)) _ AtEnd :=
      ih (fun other mem => spelt other (mem_cons_of_mem _ mem))
        (by simpa using classNames) (by exact names) (Nat.le_of_succ_le_succ enough)
    rw [append_cons, flatMap_cons, toList_classListing, append_assoc, append_assoc]
    rw [classText] at takes ⊢
    rw [append_assoc]
    have isClass : Word "class" := word_of_decide rfl rfl
    refine declarations_takes_word isClass ?_
    refine (atIdentifier_same isClass).look ?_ fun rest _ =>
      ⟨_, append_assoc _ _ _, by exact .of_cons rfl⟩
    rw [if_pos rfl, ← append_assoc]
    exact takes.bind (later.blank rfl) fun _ _ => trivial

end Source

/-! ## Programs -/

namespace Program

/-- Calls are listed by the names of what they call, resolved or not. -/
theorem showInst_resolved (names : List String) (p : Procedure) (i : Inst) :
    (resolved names p).showInst (resolveInst names i) = p.showInst i := by
  cases i with
  | call dst callee args =>
    cases callee with
    | procedure name => rfl
    | external name =>
      rw [resolveInst]
      split <;> rfl
  | ret value => cases value <;> rfl
  | _ => rfl

private theorem listing_resolved (names : List String) (p : Procedure) :
    (resolved names p).listing = p.listing := by
  have line (i : Inst) : (resolved names p).instLine (resolveInst names i) = p.instLine i := by
    have shown := showInst_resolved names p i
    cases i with
    | call dst callee args =>
      cases callee with
      | procedure name => rfl
      | external name => exact congrArg ("  " ++ · ++ "\n") shown
    | ret value => cases value <;> rfl
    | _ => rfl
  have blocks : (resolved names p).blocks.toList.map (resolved names p).blockLines =
      p.blocks.toList.map p.blockLines := by
    rw [resolved, Array.toList_map, map_map]
    refine map_congr_left fun b _ => ?_
    have lines : (b.insts.map (resolveInst names)).map (resolved names p).instLine =
        b.insts.map p.instLine := by
      rw [map_map]
      exact map_congr_left fun i _ => line i
    exact congrArg (p.labelName b.label ++ ":\n" ++ String.join ·) lines
  rw [Procedure.listing, blocks]
  rfl

private theorem withEntryMarker_resolved (names : List String) (p : Procedure) :
    resolved names p.withEntryMarker = (resolved names p).withEntryMarker := by
  have raise (i : Inst) : resolveInst names i.raiseLabels = (resolveInst names i).raiseLabels := by
    cases i with
    | call dst callee args => cases callee <;> rfl
    | _ => rfl
  have marker : resolveInst names (.label 1) = .label 1 := rfl
  simp [resolved, Procedure.withEntryMarker, raise, marker, Function.comp_def]

/-- Resolving a call does not change how its instruction is spelt. -/
theorem respelt_of_resolveInst {names : List String} {i : Inst}
    (respelt : (resolveInst names i).Respelt) : i.Respelt := by
  cases i with
  | call dst callee args =>
    cases callee with
    | procedure name => exact respelt
    | external name => exact ⟨respelt.narrow, by simp⟩
  | _ => exact respelt

theorem toList_listing (program : Program) : program.listing.toList =
    program.classes.flatMap (·.listing.toList) ++ program.procedures.flatMap
      (·.listing.toList) := by
  simp [listing, flatMap_map]

private theorem listing_resolveCallees (program : Program) :
    program.resolveCallees.listing = program.listing := by
  rw [resolveCallees, listing, listing, map_map]
  exact congrArg (fun texts => String.join (program.classes.map ClassLayout.listing) ++
    String.join texts) (map_congr_left fun p _ => listing_resolved _ p)

private theorem resolveCallees_withEntryMarkers (program : Program) :
    program.withEntryMarkers.resolveCallees = program.resolveCallees.withEntryMarkers := by
  have names : (program.procedures.map Procedure.withEntryMarker).map (·.name) =
      program.procedures.map (·.name) := by
    rw [map_map]
    rfl
  simp only [resolveCallees, withEntryMarkers, names, map_map, Function.comp_def,
    withEntryMarker_resolved]

theorem length_le_listing (program : Program) :
    program.classes.length + program.procedures.length ≤ program.listing.toList.length := by
  have each {α : Type} {entries : List α} {text : α → List Char} (nonempty : ∀ x, text x ≠ []) :
      entries.length ≤ (entries.flatMap text).length := by
    induction entries with
    | nil => exact Nat.le_refl 0
    | cons x entries ih =>
      have some := length_pos_iff.mpr (nonempty x)
      rw [flatMap_cons, length_append, length_cons]
      omega
  rw [toList_listing, length_append]
  exact Nat.add_le_add (each fun layout => by simp [ClassLayout.listing])
    (each fun p => by simp [Procedure.listing])

/-- The listing of a program that was read is read back as the program, except that every body gains
a marker of a label named `entry` in front and the other labels the next numbers. String literals
must be narrow, no literal may follow a negation whose sign it would take, and no label may be named
`entry` already. -/
theorem ofText_listing {text : String} {program : Program}
    (read : Program.ofText text = .ok program)
    (respelt : ∀ p ∈ program.procedures, ∀ i ∈ p.insts, i.Respelt)
    (noEntry : ∀ p ∈ program.procedures, "entry" ∉ p.labels.toList.drop 1) :
    Program.ofText program.listing = .ok program.withEntryMarkers := by
  obtain ⟨unresolved, known, rfl⟩ := exists_readFrom read
  have readBack : ∀ p ∈ unresolved.procedures, ReadBack p := by
    intro p mem
    have inProgram : resolved (unresolved.procedures.map (·.name)) p ∈
        unresolved.resolveCallees.procedures := mem_map_of_mem mem
    obtain ⟨c, -, reading⟩ := known.procedures p mem
    refine ⟨⟨c, reading⟩, fun i inBody => ?_, noEntry (resolved _ p) inProgram⟩
    have inResolved : resolveInst (unresolved.procedures.map (·.name)) i ∈
        (resolved (unresolved.procedures.map (·.name)) p).insts := by
      rw [insts_resolved]
      exact mem_map_of_mem inBody
    exact respelt_of_resolveInst (respelt _ inProgram _ inResolved)
  have spelt : ∀ layout ∈ unresolved.classes, Word layout.name ∧
      ∀ f ∈ layout.fields, SpeltPair f := by
    intro layout mem
    obtain ⟨isName, fields⟩ := known.classes layout mem
    refine ⟨isName, fun f inFields => ?_⟩
    obtain ⟨isField, type, isType, isTy⟩ := fields f inFields
    exact ⟨isField, isTy ▸ spelt_tyOfName isType⟩
  have takes : Takes (declarations .empty (unresolved.listing.toList.length + 1)) _ _ AtEnd :=
    declarations_takes_classes spelt (by exact known.classNames) readBack
      (by exact known.procedureNames) (Nat.le_succ_of_le (length_le_listing unresolved))
  rw [← toList_listing] at takes
  obtain ⟨c, result, -⟩ :=
    takes (Cursor.ofText unresolved.listing.toList) [] (.of_rest (append_nil _).symm) rfl
  rw [listing_resolveCallees, ← resolveCallees_withEntryMarkers]
  unfold Program.ofText
  simp only [result, Bind.bind, Except.bind, Pure.pure, Except.pure]
  rfl

/-- Signs of literals, of operators and of negations next to each other, a field of a literal, and a
variable that is named as a statement starts. -/
def signsText : String :=
  "class T \x7b Int n; \x7d
Int f(Int x, T if) \x7b
L:
  x = --5;
  x = x - -3;
  x = -x;
  x = 5.n;
  print(\"\\xff//\", if);
  if (x <= -1) goto L;
  return x;
\x7d
"

def signsBody : List Inst :=
  [.label 1, .negate 0 (.int (-5)), .binary 0 .sub (.var 0) (.int (-3)), .negate 0 (.var 0),
    .load 0 (.int 5) "n", .call none (.external "print") [.str "\xff//", .var 1],
    .branch .le (.var 0) (.int (-1)) 1, .ret (some (.var 0))]

theorem ofText_listing_signs : ∃ program, Program.ofText signsText = .ok program ∧
    program.procedures.map (·.insts) = [signsBody] ∧
    (∀ i ∈ signsBody, i.Respelt) ∧
    Program.ofText program.listing = .ok program.withEntryMarkers := by
  have evaluated : (Program.ofText signsText).toOption.map
      (fun program => program.procedures.map fun p => (p.insts, p.labels.toList)) =
      some [(signsBody, ["entry", "L"])] := by
    decide +kernel
  obtain ⟨program, isRead, bodies⟩ := Tables.exists_ok_of_map evaluated
  have each : ∀ p ∈ program.procedures, p.insts = signsBody ∧ p.labels.toList = ["entry", "L"] := by
    intro p mem
    have body := bodies ▸ mem_map_of_mem (f := fun p : Procedure => (p.insts, p.labels.toList)) mem
    simpa using body
  have respelt : ∀ i ∈ signsBody, i.Respelt := by
    intro i mem
    simp only [signsBody, mem_cons, not_mem_nil, or_false] at mem
    rcases mem with rfl | rfl | rfl | rfl | rfl | rfl | rfl | rfl
      <;> exact ⟨by simp [Inst.operands], by simp⟩
  refine ⟨program, isRead, ?_, respelt, ofText_listing isRead (fun p mem => ?_) fun p mem => ?_⟩
  · have insts := congrArg (List.map Prod.fst) bodies
    rwa [map_map] at insts
  · rw [(each p mem).1]
    exact respelt
  · rw [(each p mem).2]
    decide

end Program

end ArmBackend
