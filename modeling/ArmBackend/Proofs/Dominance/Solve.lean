import ArmBackend.Proofs.Dominance.Path
import ArmBackend.Proofs.Fixpoint

/-!
Contract: the rounds that find immediate dominators find exactly dominance.

At every point of the search what dominates a block is above it among the parents found so far, for
each parent reaches its children by forward edges alone. After `limit` rounds what is above a block
is on every path to it with fewer than `limit` retreating edges; once there have been as many rounds
as blocks that means every path.
-/

namespace ArmBackend

open List

namespace DomTree

open Procedure

variable {p : Procedure} {found : Candidates} {a b : BlockId} {rounds : Nat}

/-- `a` is `b`, or above it along parents. The parent of the entry plays no part. -/
inductive Above (parent : BlockId → Option BlockId) (a : BlockId) : BlockId → Prop
  | refl : Above parent a a
  | up {b c : BlockId} (isParent : parent b = some c) (other : b ≠ entry)
      (above : Above parent a c) : Above parent a b

namespace Above

variable {parent : BlockId → Option BlockId}

variable {c m x y : BlockId}

theorem trans {b : BlockId} (upper : Above parent a b) (lower : Above parent b c) :
    Above parent a c := by
  induction lower with
  | refl => exact upper
  | up isParent other above ih => exact .up isParent other ih

theorem eq_entry (above : Above parent a entry) : a = entry := by
  cases above with
  | refl => rfl
  | up isParent other above => exact absurd rfl other

theorem cases_parent {b : BlockId} (above : Above parent a b) (isParent : parent b = some c) :
    a = b ∨ Above parent a c := by
  cases above with
  | refl => exact .inl rfl
  | up found other above =>
    rw [isParent, Option.some.injEq] at found
    exact .inr (found ▸ above)

/-- Parents after `y` was given a new one. -/
def update (parent : BlockId → Option BlockId) (y m : BlockId) (b : BlockId) : Option BlockId :=
  if b = y then some m else parent b

private theorem of_update (above : Above (update parent y m) c x) :
    Above parent c x ∨ (Above parent y x ∧ Above (update parent y m) c y) := by
  induction above with
  | refl => exact .inl .refl
  | @up b e isParent other above ih =>
    by_cases same : b = y
    · subst same
      exact .inr ⟨.refl, .up isParent other above⟩
    · rw [update, if_neg same] at isParent
      rcases ih with old | ⟨below, new⟩
      · exact .inl (.up isParent other old)
      · exact .inr ⟨.up isParent other below, new⟩

theorem to_update (above : Above parent c x) :
    Above (update parent y m) c x ∨ (Above parent y x ∧ Above parent c y ∧ c ≠ y) := by
  induction above with
  | refl => exact .inl .refl
  | @up b e isParent other above ih =>
    by_cases same : b = y
    · subst same
      by_cases isSelf : c = b
      · subst isSelf
        exact .inl .refl
      · exact .inr ⟨.refl, .up isParent other above, isSelf⟩
    · have kept : update parent y m b = some e := by rw [update, if_neg same, isParent]
      rcases ih with new | ⟨below, rest⟩
      · exact .inl (.up kept other new)
      · exact .inr ⟨.up isParent other below, rest⟩

private theorem to_updated (above : Above parent y x) : Above (update parent y m) y x := by
  rcases above.to_update with new | ⟨-, -, different⟩
  · exact new
  · exact absurd rfl different

end Above

/-- The parents found so far. -/
def parentIn (found : Candidates) (b : BlockId) : Option BlockId := found.getD b none

/-- What holds of the parents found so far at every point of the search. -/
structure Search (p : Procedure) (parent : BlockId → Option BlockId) : Prop where
  inside : ∀ b, (parent b).isSome = true → b < p.blocks.size
  root : parent entry = some entry
  known : ∀ b a, parent b = some a → b ≠ entry → (parent a).isSome = true
  later : ∀ b a, parent b = some a → b ≠ entry → (p.block b).postIndex < (p.block a).postIndex
  forward : ∀ b a, parent b = some a → b ≠ entry → p.Forward a b
  sound : ∀ b c, (parent b).isSome = true → p.Dominates c b → Above parent c b

/-- What is above a block is on every path to it with fewer than the given number of retreating
edges. -/
def Precise (p : Procedure) (parent : BlockId → Option BlockId) (limit : BlockId → Nat) : Prop :=
  ∀ b seen, p.Reach (limit b) seen b → (parent b).isSome = true ∧ ∀ c, Above parent c b → c ∈ seen

namespace Search

variable {parent : BlockId → Option BlockId}

theorem above_later (search : Search p parent) {a b : BlockId} (above : Above parent a b) :
    a = b ∨ (p.block b).postIndex < (p.block a).postIndex := by
  induction above with
  | refl => exact .inl rfl
  | @up b c isParent other above ih =>
    have first := search.later _ _ isParent other
    rcases ih with rfl | rest
    · exact .inr first
    · exact .inr (Nat.lt_trans first rest)

theorem above_forward (search : Search p parent) {a b : BlockId} (above : Above parent a b) :
    p.Forward a b := by
  have compose : ∀ {a c b}, p.Forward a c → p.Forward c b → p.Forward a b := by
    intro a c b first second
    induction second with
    | refl => exact first
    | step path edge later ih => exact ih.step edge later
  induction above with
  | refl => exact .refl
  | up isParent other above ih =>
    exact compose ih (search.forward _ _ isParent other)

end Search

/-! ## Nearest common ancestors -/

/-- Steps up that are left to a block. -/
def headroom (p : Procedure) (b : BlockId) : Nat := p.blocks.size - (p.block b).postIndex

theorem getD_parentIn {c : BlockId} (isParent : parentIn found a = some c) :
    (found.getD a none).getD a = c := by
  rw [show found.getD a none = some c from isParent]
  rfl

theorem ne_entry_of_lt (ordered : p.Ordered) (inside : b < p.blocks.size)
    (lt : (p.block a).postIndex < (p.block b).postIndex) :
    a ≠ entry := by
  rintro rfl
  obtain ⟨rest, first⟩ := ordered.first
  by_cases same : b = entry
  · subst same
    exact Nat.lt_irrefl _ lt
  · have mem : b ∈ rest := by
      have inOrder := ordered.mem_rpo.mpr inside
      rw [first] at inOrder
      exact (mem_cons.mp inOrder).resolve_left same
    obtain ⟨before, after, split⟩ := append_of_mem mem
    have order : p.rpo = (entry :: before) ++ b :: after := by rw [first, split]; rfl
    have reversed := ordered.postIndex_lt_of_before order mem_cons_self
    omega

/-- From two blocks the one with the smaller position moves up to its parent again and again, until
both are at `m`. -/
inductive Fingers (p : Procedure) (parent : BlockId → Option BlockId) (m : BlockId) :
    BlockId → BlockId → Prop
  | met : Fingers p parent m m m
  | left {a b c : BlockId} (isParent : parent a = some c)
      (lower : (p.block a).postIndex < (p.block b).postIndex) (rest : Fingers p parent m c b) :
      Fingers p parent m a b
  | right {a b c : BlockId} (isParent : parent b = some c)
      (lower : (p.block b).postIndex < (p.block a).postIndex) (rest : Fingers p parent m a c) :
      Fingers p parent m a b

/-- Where the two meet is a known block, and above it is what is above both. -/
theorem Fingers.nearest (ordered : p.Ordered) {parent : BlockId → Option BlockId}
    (search : Search p parent) {m : BlockId} (fingers : Fingers p parent m a b)
    (knownA : (parent a).isSome = true) (knownB : (parent b).isSome = true) :
    (parent m).isSome = true ∧ ∀ c, Above parent c m ↔ Above parent c a ∧ Above parent c b := by
  induction fingers with
  | met => exact ⟨knownA, fun c => ⟨fun above => ⟨above, above⟩, fun both => both.1⟩⟩
  | @left a b c isParent lower rest ih =>
    have other := ne_entry_of_lt ordered (search.inside b knownB) lower
    obtain ⟨known, isMeet⟩ := ih (search.known a c isParent other) knownB
    refine ⟨known, fun x => (isMeet x).trans ⟨fun both => ⟨.up isParent other both.1, both.2⟩, ?_⟩⟩
    rintro ⟨aboveA, aboveB⟩
    refine ⟨(aboveA.cases_parent isParent).resolve_left ?_, aboveB⟩
    rintro rfl
    rcases search.above_later aboveB with rfl | higher <;> omega
  | @right a b c isParent lower rest ih =>
    have other := ne_entry_of_lt ordered (search.inside a knownA) lower
    obtain ⟨known, isMeet⟩ := ih knownA (search.known b c isParent other)
    refine ⟨known, fun x => (isMeet x).trans ⟨fun both => ⟨both.1, .up isParent other both.2⟩, ?_⟩⟩
    rintro ⟨aboveA, aboveB⟩
    refine ⟨aboveA, (aboveB.cases_parent isParent).resolve_left ?_⟩
    rintro rfl
    rcases search.above_later aboveA with rfl | higher <;> omega

/-- Two known blocks always meet: each move raises a position, and positions are distinct. -/
theorem fingers_meet (ordered : p.Ordered) (search : Search p (parentIn found)) (steps : Nat)
    (a b : BlockId)
    (knownA : (parentIn found a).isSome = true) (knownB : (parentIn found b).isSome = true)
    (enough : headroom p a + headroom p b ≤ steps + 1) :
    Fingers p (parentIn found) (meet p found steps a b) a b := by
  induction steps generalizing a b with
  | zero =>
    have roomA := ordered.postIndex_lt (search.inside a knownA)
    have roomB := ordered.postIndex_lt (search.inside b knownB)
    simp only [headroom] at enough
    omega
  | succ steps ih =>
    have insideA := search.inside a knownA
    have insideB := search.inside b knownB
    rw [meet]
    by_cases same : a = b
    · subst same
      rw [if_pos rfl]
      exact .met
    rw [if_neg same]
    by_cases lower : (p.block a).postIndex < (p.block b).postIndex
    · rw [if_pos lower]
      obtain ⟨c, isParent⟩ := Option.isSome_iff_exists.mp knownA
      have other := ne_entry_of_lt ordered insideB lower
      have up := search.later a c isParent other
      have knownC := search.known a c isParent other
      rw [getD_parentIn isParent]
      refine .left isParent lower (ih c b knownC knownB ?_)
      have roomC := ordered.postIndex_lt (search.inside c knownC)
      simp only [headroom] at enough ⊢
      omega
    rw [if_neg lower]
    by_cases higher : (p.block b).postIndex < (p.block a).postIndex
    · rw [if_pos higher]
      obtain ⟨c, isParent⟩ := Option.isSome_iff_exists.mp knownB
      have other := ne_entry_of_lt ordered insideA higher
      have up := search.later b c isParent other
      have knownC := search.known b c isParent other
      rw [getD_parentIn isParent]
      refine .right isParent higher (ih a c knownA knownC ?_)
      have roomC := ordered.postIndex_lt (search.inside c knownC)
      simp only [headroom] at enough ⊢
      omega
    · exact absurd (ordered.postIndex_injective insideA insideB (by omega)) same

theorem headroom_le (p : Procedure) (b : BlockId) : headroom p b ≤ p.blocks.size := Nat.sub_le _ _

private theorem enough_steps (n : Nat) : n + n ≤ n * n + 1 + 1 := by
  rcases Nat.lt_or_ge n 2 with small | large
  · have few : n = 0 ∨ n = 1 := by omega
    rcases few with rfl | rfl <;> decide
  · have square : 2 * n ≤ n * n := Nat.mul_le_mul_right n large
    omega

/-- The number of steps that the search allows is enough. -/
theorem fingers_meet_square (ordered : p.Ordered) (search : Search p (parentIn found))
    (knownA : (parentIn found a).isSome = true) (knownB : (parentIn found b).isSome = true) :
    Fingers p (parentIn found) (meet p found (p.blocks.size * p.blocks.size + 1) a b) a b := by
  apply fingers_meet ordered search _ a b knownA knownB
  have roomA := headroom_le p a
  have roomB := headroom_le p b
  have steps := enough_steps p.blocks.size
  omega

/-! ## One block -/

/-- The parent that a list of predecessors gives: their nearest common ancestor. -/
def Placed (found : Candidates) (preds : List BlockId) (parent : Option BlockId) : Prop :=
  match parent with
  | none => ∀ q ∈ preds, (parentIn found q).isSome = false
  | some m => (parentIn found m).isSome = true ∧
      ∀ c, Above (parentIn found) c m ↔ ∀ q ∈ preds, (parentIn found q).isSome = true →
      Above (parentIn found) c q

private theorem placed_parentOf? (ordered : p.Ordered) (search : Search p (parentIn found))
    (b : BlockId) : Placed found (p.block b).preds (parentOf? p found b) := by
  -- The fold keeps the nearest common ancestor of the predecessors it has passed.
  have general : ∀ (rest passed : List BlockId) (current : Option BlockId), Placed found
      passed current → Placed found (passed ++ rest) (rest.foldl (joinPred p found) current) := by
    intro rest
    induction rest with
    | nil =>
      intro passed current placed
      simpa using placed
    | cons q rest ih =>
      intro passed current placed
      rw [append_cons, foldl_cons]
      apply ih
      unfold joinPred
      by_cases unknown : (found.getD q none).isNone = true
      · rw [if_pos unknown]
        have absent : (parentIn found q).isSome = false := by
          simpa [parentIn] using unknown
        cases current with
        | none =>
          intro x mem
          rcases mem_append.mp mem with old | new
          · exact placed x old
          · exact mem_singleton.mp new ▸ absent
        | some m =>
          refine ⟨placed.1, fun c => (placed.2 c).trans ⟨fun above x mem known => ?_, ?_⟩⟩
          · rcases mem_append.mp mem with old | new
            · exact above x old known
            · rw [mem_singleton.mp new, absent] at known
              cases known
          · exact fun above x mem => above x (mem_append_left _ mem)
      · rw [if_neg unknown]
        have known : (parentIn found q).isSome = true := by
          simpa [parentIn, Option.isSome_iff_ne_none] using unknown
        cases current with
        | none =>
          refine ⟨known, fun c => ⟨fun above x mem isKnown => ?_, fun above => ?_⟩⟩
          · rcases mem_append.mp mem with old | new
            · rw [placed x old] at isKnown
              cases isKnown
            · exact mem_singleton.mp new ▸ above
          · exact above q (mem_append_right _ mem_cons_self) known
        | some m =>
          obtain ⟨knownMeet, isMeet⟩ :=
            (fingers_meet_square ordered search known placed.1).nearest ordered search known
              placed.1
          refine ⟨knownMeet, fun c => (isMeet c).trans ⟨?_, fun above => ⟨?_, ?_⟩⟩⟩
          · rintro ⟨aboveQ, aboveM⟩ x mem isKnown
            rcases mem_append.mp mem with old | new
            · exact (placed.2 c).mp aboveM x old isKnown
            · exact mem_singleton.mp new ▸ aboveQ
          · exact above q (mem_append_right _ mem_cons_self) known
          · exact (placed.2 c).mpr fun x mem => above x (mem_append_left _ mem)
  exact general (p.block b).preds [] none (by simp [Placed])

theorem size_process (p : Procedure) (found : Candidates) (b : BlockId) :
    (process p found b).size = found.size := by
  unfold process
  split
  · rfl
  · split <;> simp

/-- A block with a known forward predecessor gets as its parent the nearest common ancestor of its
known predecessors. -/
theorem process_eq (ordered : p.Ordered)
    (search : Search p (parentIn found)) (size : found.size = p.blocks.size) {y d : BlockId}
    (lt : y < p.blocks.size) (other : y ≠ entry) (isPred : d ∈ (p.block y).preds)
    (known : (parentIn found d).isSome = true) :
    ∃ m, parentIn (process p found y) = Above.update (parentIn found) y m ∧
      (parentIn found m).isSome = true ∧ ∀ c, Above (parentIn found) c m ↔
        ∀ q ∈ (p.block y).preds, (parentIn found q).isSome = true → Above (parentIn found) c q := by
  have placed := placed_parentOf? ordered search y
  unfold process
  rw [if_neg other]
  cases isParent : parentOf? p found y with
  | none =>
    rw [isParent] at placed
    rw [placed d isPred] at known
    cases known
  | some m =>
    rw [isParent] at placed
    refine ⟨m, funext fun b => ?_, placed⟩
    rw [parentIn, Tables.getD_setIfInBounds, Above.update]
    by_cases same : b = y
    · subst same
      rw [if_pos ⟨rfl, size ▸ lt⟩, if_pos rfl]
    · rw [if_neg fun both => same both.1.symm, if_neg same]
      rfl

/-! ## One round -/

section Update

variable {parent : BlockId → Option BlockId} {y m d : BlockId}

theorem isSome_update {b : BlockId} (known : (parent b).isSome = true) :
    (Above.update parent y m b).isSome = true := by
  unfold Above.update
  split
  · rfl
  · exact known

section

variable (linked : p.Linked) (search : Search p parent) (lt : y < p.blocks.size) (other : y ≠ entry)
  (isMeet : ∀ c, Above parent c m ↔ ∀ q ∈ (p.block y).preds, (parent q).isSome = true →
    Above parent c q)

include linked search lt other isMeet

/-- The nearest common ancestor of the known predecessors of a block, one of them forward, can be
its parent. -/
theorem Search.update (edge : y ∈ (p.block d).succs)
    (later : (p.block y).postIndex < (p.block d).postIndex)
    (known : (parent d).isSome = true) (knownMeet : (parent m).isSome = true) :
    Search p (Above.update parent y m) ∧ (p.block y).postIndex < (p.block m).postIndex := by
  have isPred := (linked.inverse _ _).mpr edge
  have aboveForward : Above parent m d := (isMeet m).mp .refl d isPred known
  have upward : (p.block y).postIndex < (p.block m).postIndex := by
    rcases search.above_later aboveForward with rfl | higher
    · exact later
    · exact Nat.lt_trans later higher
  -- What dominates the block is above it under its new parent.
  have soundHere : ∀ c, p.Dominates c y → Above (Above.update parent y m) c y := by
    intro c dominates
    by_cases isSelf : c = y
    · exact isSelf ▸ .refl
    have above : Above parent c m := (isMeet c).mpr fun q mem isKnown =>
      search.sound q c isKnown (dominates.pred isSelf ((linked.inverse _ _).mp mem))
    have kept : Above (Above.update parent y m) c m := by
      rcases above.to_update with new | ⟨below, -, -⟩
      · exact new
      · rcases search.above_later below with rfl | lower
        · exact absurd upward (Nat.lt_irrefl _)
        · omega
    exact .up (by rw [Above.update, if_pos rfl]) other kept
  refine ⟨⟨?_, ?_, ?_, ?_, ?_, ?_⟩, upward⟩
  · intro b isKnown
    by_cases same : b = y
    · exact same ▸ lt
    · rw [Above.update, if_neg same] at isKnown
      exact search.inside b isKnown
  · rw [Above.update, if_neg (Ne.symm other)]
    exact search.root
  · intro b a isParent notEntry
    apply isSome_update
    by_cases same : b = y
    · rw [Above.update, if_pos same, Option.some.injEq] at isParent
      exact isParent ▸ knownMeet
    · rw [Above.update, if_neg same] at isParent
      exact search.known b a isParent notEntry
  · intro b a isParent notEntry
    by_cases same : b = y
    · rw [Above.update, if_pos same, Option.some.injEq] at isParent
      exact same ▸ isParent ▸ upward
    · rw [Above.update, if_neg same] at isParent
      exact search.later b a isParent notEntry
  · intro b a isParent notEntry
    by_cases same : b = y
    · rw [Above.update, if_pos same, Option.some.injEq] at isParent
      subst same isParent
      exact (search.above_forward aboveForward).step edge later
    · rw [Above.update, if_neg same] at isParent
      exact search.forward b a isParent notEntry
  · intro b c isKnown dominates
    by_cases same : b = y
    · exact same ▸ soundHere c (same ▸ dominates)
    · rw [Above.update, if_neg same] at isKnown
      rcases (search.sound b c isKnown dominates).to_update with new | ⟨below, above, different⟩
      · exact new
      · have higher := (search.above_later above).resolve_left different
        exact (soundHere c (dominates.back (search.above_forward below) higher)).trans
          below.to_updated

/-- The new parent is as precise as the predecessors are. -/
theorem Precise.update {limit : BlockId → Nat} (rounds : Nat) (precise : Precise p parent limit)
    (upward : (p.block y).postIndex < (p.block m).postIndex) (atLeast : ∀ q, rounds ≤ limit q)
    (atMost : ∀ q, limit q ≤ rounds + 1)
    (done : ∀ q < p.blocks.size, (p.block y).postIndex < (p.block q).postIndex →
      limit q = rounds + 1) : Precise p (Above.update parent y m) fun b => if b = y then rounds + 1
        else limit b := by
  have here : ∀ seen, p.Reach (rounds + 1) seen y → ∀ c, Above (Above.update parent y m) c y →
      c ∈ seen := by
    intro seen path c above
    have isParent : Above.update parent y m y = some m := by rw [Above.update, if_pos rfl]
    rcases above.cases_parent isParent with rfl | aboveMeet
    · exact path.mem
    have old : Above parent c m := by
      rcases aboveMeet.of_update with old | ⟨below, -⟩
      · exact old
      · rcases search.above_later below with rfl | lower
        · exact absurd upward (Nat.lt_irrefl _)
        · omega
    cases path with
    | start => exact absurd rfl other
    | @forward _ seen q _ path edge later =>
      have lt := lt_size_of_mem_succs edge
      have reached := precise q seen (done q lt later ▸ path)
      have isPred := (linked.inverse _ _).mpr edge
      exact mem_cons_of_mem _ (reached.2 c ((isMeet c).mp old q isPred reached.1))
    | @retreat _ seen q _ path edge =>
      have reached := precise q seen (path.mono (atLeast q))
      have isPred := (linked.inverse _ _).mpr edge
      exact mem_cons_of_mem _ (reached.2 c ((isMeet c).mp old q isPred reached.1))
  intro b seen path
  dsimp only at path
  by_cases same : b = y
  · subst same
    rw [if_pos rfl] at path
    exact ⟨by rw [Above.update, if_pos rfl]; rfl, here seen path⟩
  · rw [if_neg same] at path
    have reached := precise b seen path
    refine ⟨isSome_update reached.1, fun c above => ?_⟩
    rcases above.of_update with old | ⟨below, new⟩
    · exact reached.2 c old
    · obtain ⟨rest, subset, cut⟩ := path.cut (reached.2 y below)
      exact subset (here rest (cut.mono (atMost b)) c new)

end

end Update

variable {after before : List BlockId}

/-- What holds after some blocks of a round were processed: these are known, and precise for one
more retreating edge than the others. -/
structure Progress (p : Procedure) (rounds : Nat) (before : List BlockId) (found : Candidates) :
    Prop where
  size : found.size = p.blocks.size
  search : Search p (parentIn found)
  known : ∀ b ∈ before, (parentIn found b).isSome = true
  precise : Precise p (parentIn found) fun b => if b ∈ before then rounds + 1 else rounds

private theorem Progress.step (linked : p.Linked) (ordered : p.Ordered) {y : BlockId}
    (split : p.rpo = before ++ y :: after) (progress : Progress p rounds before found) :
    Progress p rounds (before ++ [y]) (process p found y) := by
  have lt : y < p.blocks.size := ordered.mem_rpo.mp (by simp [split])
  by_cases other : y = entry
  · subst other
    have same : process p found entry = found := by rw [process, if_pos rfl]
    rw [same]
    have knownRoot : (parentIn found entry).isSome = true := by simp [progress.search.root]
    refine ⟨progress.size, progress.search, ?_, ?_⟩
    · intro b mem
      rcases mem_append.mp mem with old | new
      · exact progress.known b old
      · exact mem_singleton.mp new ▸ knownRoot
    · intro b seen path
      by_cases isEntry : b = entry
      · subst isEntry
        refine ⟨knownRoot, fun c above => above.eq_entry ▸ path.mem⟩
      · apply progress.precise b seen
        simpa [isEntry] using path
  · have earlier : ∀ q < p.blocks.size, (p.block y).postIndex < (p.block q).postIndex →
        q ∈ before := by
      intro q inside higher
      have mem := ordered.mem_rpo.mpr inside
      rw [split] at mem
      rcases mem_append.mp mem with done | rest
      · exact done
      rcases mem_cons.mp rest with rfl | behind
      · exact absurd higher (Nat.lt_irrefl _)
      · obtain ⟨front, back, cut⟩ := append_of_mem behind
        have order : p.rpo = (before ++ y :: front) ++ q :: back := by rw [split, cut]; simp
        have lower := ordered.postIndex_lt_of_before order (mem_append_right _ mem_cons_self)
        omega
    obtain ⟨d, insideD, edge, later⟩ := ordered.exists_earlier lt other
    have knownD := progress.known d (earlier d insideD later)
    obtain ⟨m, isUpdate, knownMeet, isMeet⟩ := process_eq ordered progress.search progress.size
      lt other ((linked.inverse _ _).mpr edge) knownD
    obtain ⟨search, upward⟩ :=
      progress.search.update linked lt other isMeet edge later knownD knownMeet
    have precise := Precise.update linked progress.search lt other isMeet
      rounds progress.precise upward (fun q => by split <;> omega) (fun q => by split <;> omega)
      (fun q inside higher => by rw [if_pos (earlier q inside higher)])
    refine ⟨?_, ?_, ?_, ?_⟩
    · rw [size_process]
      exact progress.size
    · rw [isUpdate]
      exact search
    · intro b mem
      rw [isUpdate]
      rcases mem_append.mp mem with old | new
      · exact isSome_update (progress.known b old)
      · rw [mem_singleton.mp new, Above.update, if_pos rfl]
        rfl
    · rw [isUpdate]
      intro b seen path
      apply precise b seen
      by_cases same : b = y
      · simpa [same] using path
      · simpa [same] using path

private theorem Progress.run (linked : p.Linked) (ordered : p.Ordered)
    (middle before after : List BlockId) (found : Candidates)
    (split : p.rpo = before ++ (middle ++ after)) (progress : Progress p rounds before found) :
    Progress p rounds (before ++ middle) (middle.foldl (process p) found) := by
  induction middle generalizing before found with
  | nil =>
    rw [append_nil]
    exact progress
  | cons y middle ih =>
    rw [foldl_cons, append_cons]
    apply ih (before ++ [y])
    · rw [split, append_assoc]
      rfl
    · exact progress.step linked ordered split

/-- What holds after some rounds. -/
structure Settled (p : Procedure) (rounds : Nat) (found : Candidates) : Prop where
  size : found.size = p.blocks.size
  search : Search p (parentIn found)
  known : 0 < rounds → ∀ b < p.blocks.size, (parentIn found b).isSome = true
  precise : Precise p (parentIn found) fun _ => rounds

/-- What holds inside the next round. -/
theorem Settled.progress (linked : p.Linked) (ordered : p.Ordered)
    (settled : Settled p rounds found)
    (split : p.rpo = before ++ after) :
    Progress p rounds before (before.foldl (process p) found) := by
  have start : Progress p rounds [] found :=
    ⟨settled.size, settled.search, by simp, by simpa using settled.precise⟩
  exact start.run linked ordered before [] after found split

theorem Settled.round (linked : p.Linked) (ordered : p.Ordered) (settled : Settled p rounds found) :
    Settled p (rounds + 1) (DomTree.round p found) := by
  have done := settled.progress linked ordered (append_nil p.rpo).symm
  change Progress _ _ _ (DomTree.round p _) at done
  refine ⟨done.size, done.search, fun _ b lt => done.known b (ordered.mem_rpo.mpr lt), ?_⟩
  intro b seen path
  apply done.precise b seen
  have inOrder := ordered.mem_rpo.mpr (path.lt_size linked)
  simpa only [if_pos inOrder] using path

theorem settled_start (linked : p.Linked) : Settled p 0 (start p) := by
  have isParent : ∀ b, parentIn (start p) b = if b = entry then some entry else none := by
    intro b
    rw [parentIn, start, Tables.getD_setIfInBounds, Tables.getD_replicate, Array.size_replicate]
    by_cases same : b = entry
    · rw [if_pos ⟨same.symm, same ▸ linked.nonempty⟩, if_pos same]
    · rw [if_neg fun both => same both.1.symm, if_neg same]
      split <;> rfl
  refine ⟨by simp [start], ⟨?_, ?_, ?_, ?_, ?_, ?_⟩, ?_, ?_⟩
  · intro b known
    rw [isParent] at known
    by_cases same : b = entry
    · exact same ▸ linked.nonempty
    · simp [same] at known
  · rw [isParent, if_pos rfl]
  · intro b a found other
    simp [isParent, other] at found
  · intro b a found other
    simp [isParent, other] at found
  · intro b a found other
    simp [isParent, other] at found
  · intro b c known dominates
    rw [isParent] at known
    by_cases same : b = entry
    · subst same
      have isEntry := mem_singleton.mp (dominates [entry] .start)
      exact isEntry ▸ .refl
    · simp [same] at known
  · intro impossible
    cases impossible
  · intro b seen path
    exact absurd path.limit_pos (Nat.lt_irrefl 0)

theorem settled_solve (linked : p.Linked) (ordered : p.Ordered) :
    Settled p (p.blocks.size * p.blocks.size + 2) (solve p) := by
  have settled := stabilize_induction (DomTree.round p) (Settled p)
    (fun rounds found => Settled.round linked ordered) (p.blocks.size * p.blocks.size + 2) 0 _
    (settled_start linked)
  rwa [Nat.zero_add] at settled

/-- Once there have been as many rounds as blocks, being above a block is dominating it. -/
theorem Settled.above_iff (linked : p.Linked) (settled : Settled p rounds found)
    (enough : p.blocks.size ≤ rounds)
    (lt : b < p.blocks.size) : Above (parentIn found) a b ↔ p.Dominates a b := by
  have positive : 0 < rounds := Nat.lt_of_lt_of_le linked.nonempty enough
  constructor
  · intro above
    apply dominates_of_reach linked
    intro seen path
    exact (settled.precise b seen (path.mono enough)).2 a above
  · exact settled.search.sound b a (settled.known positive b lt)

theorem square_enough (n : Nat) : n ≤ n * n + 2 := Nat.le_add_right_of_le (Nat.le_mul_self n)

/-- Being above a block among the parents that were found is dominating it. -/
theorem above_solve_iff (linked : p.Linked) (ordered : p.Ordered) (lt : b < p.blocks.size) :
    Above (parentIn (solve p)) a b ↔ p.Dominates a b :=
  (settled_solve linked ordered).above_iff linked (square_enough _) lt

/-! ## The rounds come to an end -/

theorem Settled.unique (linked : p.Linked) {few many : Nat} {found' : Candidates}
    (settled : Settled p few found) (settled' : Settled p many found')
    (enough : p.blocks.size ≤ few) (enough' : p.blocks.size ≤ many) : found = found' := by
  -- The parent of a block in one table is above its parent in the other.
  have climbs : ∀ {few many : Nat} {found found' : Candidates}, Settled p few found →
      Settled p many found' → p.blocks.size ≤ few → p.blocks.size ≤ many → ∀ {b a a' : BlockId},
      b < p.blocks.size → b ≠ entry → parentIn found b = some a → parentIn found' b = some a' →
      Above (parentIn found') a a' := by
    intro few many found found' settled settled' enough enough' b a a' lt other isParent isParent'
    have dominates := (settled.above_iff linked enough lt).mp (.up isParent other .refl)
    have above := (settled'.above_iff linked enough' lt).mpr dominates
    refine (above.cases_parent isParent').resolve_left ?_
    rintro rfl
    exact Nat.lt_irrefl _ (settled.search.later a a isParent other)
  have same : ∀ b < p.blocks.size, parentIn found b = parentIn found' b := by
    intro b lt
    by_cases other : b = entry
    · rw [other, settled.search.root, settled'.search.root]
    have positive := Nat.lt_of_lt_of_le linked.nonempty enough
    have positive' := Nat.lt_of_lt_of_le linked.nonempty enough'
    obtain ⟨a, isParent⟩ := Option.isSome_iff_exists.mp (settled.known positive b lt)
    obtain ⟨a', isParent'⟩ := Option.isSome_iff_exists.mp (settled'.known positive' b lt)
    have up := settled'.search.above_later
      (climbs settled settled' enough enough' lt other isParent isParent')
    have down := settled.search.above_later
      (climbs settled' settled enough' enough lt other isParent' isParent)
    rw [isParent, isParent', Option.some.injEq]
    rcases up with rfl | higher
    · rfl
    · rcases down with rfl | lower
      · rfl
      · omega
  apply Array.ext (settled.size.trans settled'.size.symm)
  intro b inside inside'
  have equal := same b (settled.size ▸ inside)
  rwa [parentIn, parentIn, Array.getD_eq_getD_getElem?, Array.getD_eq_getD_getElem?,
    Array.getElem?_eq_getElem inside, Array.getElem?_eq_getElem inside'] at equal

/-- The search ends with a round that changes nothing. -/
theorem round_solve (linked : p.Linked) (ordered : p.Ordered) : round p (solve p) = solve p := by
  have settled := settled_solve linked ordered
  exact (settled.round linked ordered).unique linked settled (Nat.le_succ_of_le (square_enough _))
    (square_enough _)

end DomTree

end ArmBackend
