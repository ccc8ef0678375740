import ArmBackend.Dominance.Frontier
import ArmBackend.Proofs.FlowGraph.Form

/-!
Contract: paths from the entry and the blocks that no path can avoid.

Owns: paths with the blocks they visit, dominance as a property of paths, paths counted by their
retreating edges, and the fact that a path without repetitions is enough to avoid a block.
Does not own: how dominators are found.
-/

namespace ArmBackend.Procedure

open List

variable {a b x : BlockId} {seen : List BlockId} {limit : Nat}

/-- A path from the entry to `b`, with the blocks it visits, `b` first. -/
inductive Path (p : Procedure) : List BlockId → BlockId → Prop
  | start : Path p [entry] entry
  | extend {seen : List BlockId} {q b : BlockId} (path : Path p seen q)
      (edge : b ∈ (p.block q).succs) : Path p (b :: seen) b

/-- Every path from the entry to `b` visits `a`. -/
def Dominates (p : Procedure) (a b : BlockId) : Prop := ∀ seen, p.Path seen b → a ∈ seen

/-- A path with fewer than `limit` retreating edges. The other edges lead to a block that comes
later in reverse postorder. -/
inductive Reach (p : Procedure) : (limit : Nat) → List BlockId → BlockId → Prop
  | start {limit : Nat} : Reach p (limit + 1) [entry] entry
  | forward {limit : Nat} {seen : List BlockId} {q b : BlockId} (path : Reach p limit seen q)
      (edge : b ∈ (p.block q).succs) (later : (p.block b).postIndex < (p.block q).postIndex) :
      Reach p limit (b :: seen) b
  | retreat {limit : Nat} {seen : List BlockId} {q b : BlockId} (path : Reach p limit seen q)
      (edge : b ∈ (p.block q).succs) : Reach p (limit + 1) (b :: seen) b

/-- A path between two blocks on which every edge leads to a later block. -/
inductive Forward (p : Procedure) (a : BlockId) : BlockId → Prop
  | refl : Forward p a a
  | step {q b : BlockId} (path : Forward p a q) (edge : b ∈ (p.block q).succs)
      (later : (p.block b).postIndex < (p.block q).postIndex) : Forward p a b

variable {p : Procedure}

/-! ## Paths -/

theorem Path.head (path : p.Path seen b) : ∃ rest, seen = b :: rest := by
  cases path with
  | start => exact ⟨[], rfl⟩
  | extend path edge => exact ⟨_, rfl⟩

theorem Path.mem (path : p.Path seen b) : b ∈ seen := by
  obtain ⟨rest, rfl⟩ := path.head
  exact mem_cons_self

theorem Path.lt_size (linked : p.Linked) (path : p.Path seen b) :
    ∀ x ∈ seen, x < p.blocks.size := by
  induction path with
  | start =>
    intro x mem
    exact mem_singleton.mp mem ▸ linked.nonempty
  | extend path edge ih =>
    exact forall_mem_cons.mpr ⟨linked.inside _ _ edge, ih⟩

theorem Path.cut (path : p.Path seen b) (mem : x ∈ seen) :
    ∃ front rest, seen = front ++ x :: rest ∧ p.Path (x :: rest) x := by
  induction path with
  | start =>
    obtain rfl := mem_singleton.mp mem
    exact ⟨[], [], rfl, .start⟩
  | @extend seen q b path edge ih =>
    rcases mem_cons.mp mem with rfl | earlier
    · exact ⟨[], seen, rfl, path.extend edge⟩
    · obtain ⟨front, rest, rfl, cut⟩ := ih earlier
      exact ⟨b :: front, rest, rfl, cut⟩

theorem Path.simple (path : p.Path seen b) : ∃ few, p.Path few b ∧ few.Nodup ∧ few ⊆ seen := by
  induction path with
  | start => exact ⟨[entry], .start, by simp, fun _ => id⟩
  | @extend seen q b path edge ih =>
    obtain ⟨few, simple, nodup, subset⟩ := ih
    by_cases visited : b ∈ few
    · obtain ⟨front, rest, rfl, cut⟩ := simple.cut visited
      refine ⟨b :: rest, cut, (nodup_append.mp nodup).2.1, fun x mem => ?_⟩
      exact mem_cons_of_mem _ (subset (mem_append_right _ mem))
    · refine ⟨b :: few, simple.extend edge, nodup_cons.mpr ⟨visited, nodup⟩, ?_⟩
      exact cons_subset_cons _ subset

theorem Ordered.exists_path (ordered : p.Ordered) (lt : b < p.blocks.size) :
    ∃ seen, p.Path seen b := by
  -- The induction follows the reverse postorder, in which a predecessor stands in front of each
  -- block.
  have all : ∀ before, ∀ x after, p.rpo = before ++ x :: after → ∃ seen, p.Path seen x := by
    intro before
    induction bound : before.length using Nat.strongRecOn generalizing before with
    | ind bound ih =>
      intro x after split
      rcases ordered.rooted before x after split with rfl | ⟨d, mem, edge⟩
      · exact ⟨_, .start⟩
      · obtain ⟨front, back, rfl⟩ := append_of_mem mem
        obtain ⟨seen, path⟩ := ih front.length (by rw [← bound, length_append, length_cons]; omega)
          front rfl d (back ++ x :: after) (by rw [split, append_assoc]; rfl)
        exact ⟨_, path.extend edge⟩
  obtain ⟨before, after, split⟩ := append_of_mem (ordered.mem_rpo.mpr lt)
  exact all before b after split

/-! ## Dominance -/

theorem Dominates.refl (b : BlockId) : p.Dominates b b := fun _ path => path.mem

theorem Dominates.trans {c : BlockId} (upper : p.Dominates a b) (lower : p.Dominates b c) :
    p.Dominates a c := by
  intro seen path
  obtain ⟨front, rest, rfl, cut⟩ := path.cut (lower seen path)
  exact mem_append_right _ (upper _ cut)

theorem Dominates.pred {q : BlockId} (dominates : p.Dominates a b) (other : a ≠ b)
    (edge : b ∈ (p.block q).succs) : p.Dominates a q := by
  intro seen path
  rcases mem_cons.mp (dominates _ (path.extend edge)) with isSelf | earlier
  · exact absurd isSelf other
  · exact earlier

/-- A block that comes before the start of a forward path and dominates its end dominates its
start. -/
theorem Dominates.back {y : BlockId} (dominates : p.Dominates a x) (path : p.Forward y x)
    (before : (p.block y).postIndex < (p.block a).postIndex) : p.Dominates a y := by
  have below : ∀ {x}, p.Forward y x → (p.block x).postIndex ≤ (p.block y).postIndex := by
    intro x path
    induction path with
    | refl => exact Nat.le_refl _
    | step path edge later ih => omega
  induction path with
  | refl => exact dominates
  | @step q b path edge later ih =>
    apply ih
    refine dominates.pred ?_ edge
    rintro rfl
    have atEnd := below (path.step edge later)
    omega

theorem dominates_entry (b : BlockId) : p.Dominates entry b := by
  intro seen path
  induction path with
  | start => exact mem_cons_self
  | extend path edge ih => exact mem_cons_of_mem _ ih

/-! ## Retreating edges -/

theorem Reach.mem (path : p.Reach limit seen b) : b ∈ seen := by
  cases path <;> exact mem_cons_self

theorem Reach.limit_pos (path : p.Reach limit seen b) : 0 < limit := by
  induction path with
  | start => exact Nat.succ_pos _
  | forward path edge later ih => exact ih
  | retreat path edge ih => exact Nat.succ_pos _

theorem Reach.lt_size (linked : p.Linked) (path : p.Reach limit seen b) : b < p.blocks.size := by
  cases path with
  | start => exact linked.nonempty
  | forward path edge later => exact linked.inside _ _ edge
  | retreat path edge => exact linked.inside _ _ edge

theorem Reach.mono {few many : Nat} (path : p.Reach few seen b) (le : few ≤ many) :
    p.Reach many seen b := by
  induction path generalizing many with
  | start =>
    obtain ⟨m, rfl⟩ := Nat.exists_eq_add_of_lt le
    exact .start
  | forward path edge later ih => exact (ih le).forward edge later
  | retreat path edge ih =>
    cases many with
    | zero => omega
    | succ many => exact (ih (Nat.le_of_succ_le_succ le)).retreat edge

theorem Reach.cut (path : p.Reach limit seen b) (mem : x ∈ seen) :
    ∃ rest, rest ⊆ seen ∧ p.Reach limit rest x := by
  induction path with
  | start =>
    obtain rfl := mem_singleton.mp mem
    exact ⟨[entry], fun _ => id, .start⟩
  | @forward limit seen q b path edge later ih =>
    rcases mem_cons.mp mem with rfl | earlier
    · exact ⟨x :: seen, fun _ => id, path.forward edge later⟩
    · obtain ⟨rest, subset, cut⟩ := ih earlier
      exact ⟨rest, fun y lt => mem_cons_of_mem _ (subset lt), cut⟩
  | @retreat limit seen q b path edge ih =>
    rcases mem_cons.mp mem with rfl | earlier
    · exact ⟨x :: seen, fun _ => id, path.retreat edge⟩
    · obtain ⟨rest, subset, cut⟩ := ih earlier
      exact ⟨rest, fun y lt => mem_cons_of_mem _ (subset lt), cut.mono (Nat.le_succ _)⟩

/-- Every edge of a path can count as retreating. -/
theorem Path.reach (path : p.Path seen b) : p.Reach seen.length seen b := by
  induction path with
  | start => exact .start
  | extend path edge ih => exact ih.retreat edge

/-- A block that is on every path with fewer retreating edges than there are blocks is on every
path. -/
theorem dominates_of_reach (linked : p.Linked)
    (onPaths : ∀ seen, p.Reach p.blocks.size seen b → a ∈ seen) : p.Dominates a b := by
  intro seen path
  obtain ⟨few, simple, nodup, subset⟩ := path.simple
  have short := Tables.length_le_of_nodup nodup (simple.lt_size linked)
  exact subset (onPaths few (simple.reach.mono short))

end ArmBackend.Procedure
