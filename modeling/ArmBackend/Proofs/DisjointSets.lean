import ArmBackend.Proofs.Tables
import ArmBackend.Web
import Mathlib.Logic.Relation

/-!
Contract: disjoint sets with ranks and path compression.

Owns: that searches end at a root, that two variables have one root exactly if the pairs united so
far connect them, and that a search keeps every root.
Does not own: which pairs are united.

All changes are made of two: a variable gets a parent of higher rank, and a root gets a higher rank.
-/

namespace ArmBackend

open Relation

namespace DisjointSets

variable {c : DisjointSets} {a b child root u v : VarId} {count : Nat}
  {linked wider : VarId → VarId → Prop}

/-- Trees of connected variables, with one root for all that are connected. -/
structure Forest (c : DisjointSets) (count : Nat) (linked : VarId → VarId → Prop) : Prop where
  parents : c.parents.size = count
  ranks : c.ranks.size = count
  inside : ∀ v < count, c.parent v < count
  up : ∀ v, c.parent v ≠ v → c.rank v < c.rank (c.parent v)
  sound : ∀ v, EqvGen linked v (c.parent v)
  apart : ∀ r r', c.parent r = r → c.parent r' = r' → EqvGen linked r r' → r = r'

/-- What a climb finds: the root of a variable, and lower variables on the way. -/
structure Climbed (c : DisjointSets) (count : Nat) (linked : VarId → VarId → Prop) (v root : VarId)
    (path : List VarId) : Prop where
  isRoot : c.parent root = root
  chain : EqvGen linked v root
  inside : v < count → root < count
  rank_le : c.rank v ≤ c.rank root
  path : ∀ u ∈ path, root < count ∧ u < count ∧ EqvGen linked u root ∧ c.rank u < c.rank root

private theorem parent_attach (c : DisjointSets) (root child v : VarId) :
    (c.attach root child).parent v = if child = v ∧ v < c.parents.size then root else c.parent v :=
  Tables.getD_setIfInBounds ..

private theorem rank_raise (c : DisjointSets) (root v : VarId) :
    (c.raise root).rank v = if root = v ∧ v < c.ranks.size then c.rank root + 1 else c.rank v :=
  Tables.getD_setIfInBounds ..

private theorem rank_le (c : DisjointSets) (v : VarId) : c.rank v ≤ c.ranks.foldl max 0 := by
  have most : ∀ u < c.ranks.size, c.rank u ≤ c.ranks.foldl max 0 := by
    refine Array.foldl_induction (fun i most => ∀ u < i, c.rank u ≤ most) (by simp)
      fun i most known u lt => ?_
    rcases Nat.lt_succ_iff_lt_or_eq.mp lt with before | rfl
    · exact Nat.le_trans (known u before) (Nat.le_max_left ..)
    · simp only [rank, Fin.getElem_fin, i.isLt, Array.getD_eq_getD_getElem?,
        Array.getElem?_eq_getElem, Option.getD_some]
      exact Nat.le_max_right ..
  by_cases lt : v < c.ranks.size
  · exact most v lt
  · simp [rank, lt]

private theorem parent_new (count : Nat) (v : VarId) : (new count).parent v = v := by
  by_cases lt : v < count <;> simp [new, parent, lt]

theorem eq_of_eqvGen {α : Type} {f : VarId → α} (same : ∀ u v, linked u v → f u = f v)
    (chain : EqvGen linked u v) : f u = f v := by
  induction chain with
  | rel u v link => exact same u v link
  | refl => rfl
  | symm _ _ _ ih => exact ih.symm
  | trans _ _ _ _ _ first second => exact first.trans second

namespace Forest

/-! ## Searches -/

theorem new (count : Nat) : (new count).Forest count fun _ _ => False where
  parents := Array.size_range
  ranks := Array.size_replicate
  inside v lt := by rwa [parent_new]
  up v moved := absurd (parent_new count v) moved
  sound v := by
    rw [parent_new]
    exact .refl v
  apart _ _ _ _ chain := eq_of_eqvGen (f := id) (fun _ _ => False.elim) chain

variable (forest : c.Forest count linked)

include forest

private theorem lt_of_parent_ne (moved : c.parent v ≠ v) : v < count :=
  Decidable.byContradiction fun beyond => moved (by simp [parent, forest.parents, beyond])

/-- A climb ends at a root if it may have as many steps as there are ranks above its start. -/
private theorem climb (bound : Nat) (v : VarId) (enough : ∀ u, c.rank u ≤ c.rank v + bound) :
    c.Climbed count linked v (c.climb bound v).1 (c.climb bound v).2 := by
  have stay (isRoot : c.parent v = v) : c.Climbed count linked v v [] :=
    ⟨isRoot, .refl v, id, Nat.le_refl _, by simp⟩
  induction bound generalizing v with
  | zero =>
    refine stay (Decidable.byContradiction fun moved => ?_)
    exact Nat.not_le_of_lt (forest.up v moved) (enough _)
  | succ bound ih =>
    rw [DisjointSets.climb]
    split
    · rename_i isRoot
      exact stay isRoot
    · rename_i moved
      have higher := forest.up v moved
      have lt := forest.lt_of_parent_ne moved
      have inside := forest.inside v lt
      have above := ih (c.parent v) (fun u => Nat.le_trans (enough u) (by omega))
        fun isRoot => ⟨isRoot, .refl _, id, Nat.le_refl _, by simp⟩
      have chain := (forest.sound v).trans _ _ _ above.chain
      have lower := Nat.lt_of_lt_of_le higher above.rank_le
      refine ⟨above.isRoot, chain, fun _ => above.inside inside, Nat.le_of_lt lower, ?_⟩
      rw [List.forall_mem_cons]
      exact ⟨⟨above.inside inside, lt, chain, lower⟩, above.path⟩

private theorem climbed (v : VarId) :
    c.Climbed count linked v (c.find v).2 (c.climb (c.ranks.foldl max 0) v).2 :=
  forest.climb _ v fun u => Nat.le_trans (c.rank_le u) (Nat.le_add_left ..)

/-- Every search ends at a root. -/
theorem parent_find (v : VarId) : c.parent (c.find v).2 = (c.find v).2 := (forest.climbed v).isRoot

theorem find_lt (lt : v < count) : (c.find v).2 < count := (forest.climbed v).inside lt

/-- Searches for two variables end at one root exactly if they are connected. -/
theorem find_eq_iff : (c.find u).2 = (c.find v).2 ↔ EqvGen linked u v := by
  have chain := (forest.climbed u).chain
  have chain' := (forest.climbed v).chain
  constructor
  · intro same
    rw [same] at chain
    exact chain.trans _ _ _ (chain'.symm _ _)
  · intro connected
    exact forest.apart _ _ (forest.parent_find u) (forest.parent_find v)
      (((chain.symm _ _).trans _ _ _ connected).trans _ _ _ chain')

/-! ## Changes -/

private theorem find_root (isRoot : c.parent v = v) : (c.find v).2 = v :=
  forest.apart _ _ (forest.parent_find v) isRoot ((forest.climbed v).chain.symm _ _)

/-- A variable gets a parent of higher rank. It is no root any longer, and all other roots stay. -/
private theorem attach (more : ∀ u v, linked u v → wider u v) (lt : root < count)
    (lt' : child < count) (chain : EqvGen wider child root) (higher : c.rank child < c.rank root)
    (apart : ∀ r r', c.parent r = r → c.parent r' = r' → r ≠ child → r' ≠ child →
      EqvGen wider r r' → r = r') :
    (c.attach root child).Forest count wider := by
  have parent : ∀ v, (c.attach root child).parent v = if child = v then root else c.parent v := by
    intro v
    rw [parent_attach, forest.parents]
    simp only [and_iff_left_of_imp fun same : child = v => same ▸ lt']
  have isRoot : ∀ r, (c.attach root child).parent r = r → c.parent r = r ∧ r ≠ child := by
    intro r
    rw [parent]
    split
    · rename_i here
      intro isRoot
      exact absurd higher (here.trans isRoot.symm ▸ Nat.lt_irrefl _)
    · rename_i other
      exact fun isRoot => ⟨isRoot, Ne.symm other⟩
  refine ⟨by simp [DisjointSets.attach, forest.parents], forest.ranks,
    fun v inside => ?_, fun v => ?_, fun v => ?_, fun r r' here here' => ?_⟩
  · rw [parent]
    split
    · exact lt
    · exact forest.inside v inside
  · rw [parent]
    split
    · rename_i here
      exact fun _ => here ▸ higher
    · exact forest.up v
  · rw [parent]
    split
    · rename_i here
      exact here ▸ chain
    · exact (forest.sound v).mono more
  · exact apart r r' (isRoot r here).1 (isRoot r' here').1 (isRoot r here).2 (isRoot r' here').2

private theorem raise (isRoot : c.parent root = root) : (c.raise root).Forest count linked := by
  refine { forest with
    ranks := by simp [DisjointSets.raise, forest.ranks]
    up := fun v moved => ?_ }
  have grows := forest.up v moved
  have other : root ≠ v := fun same => moved (same ▸ isRoot)
  rw [rank_raise, rank_raise, if_neg fun both => other both.1]
  split
  · rename_i here
    exact Nat.lt_succ_of_lt (here.1 ▸ grows)
  · exact grows

/-- Variables on the way to a root become its children, and all roots stay. -/
private theorem compress (isRoot : c.parent root = root) (path : List VarId)
    (lower : ∀ u ∈ path, root < count ∧ u < count ∧ EqvGen linked u root ∧ c.rank u < c.rank root) :
    (path.foldl (DisjointSets.attach · root) c).Forest count linked ∧
      ∀ r, c.parent r = r → (path.foldl (DisjointSets.attach · root) c).parent r = r := by
  induction path generalizing c with
  | nil => exact ⟨forest, fun _ => id⟩
  | cons child path ih =>
    rw [List.forall_mem_cons] at lower
    obtain ⟨⟨lt, lt', chain, higher⟩, lower⟩ := lower
    have attached := forest.attach (fun _ _ => id) lt lt' chain higher
      fun r r' here here' _ _ => forest.apart r r' here here'
    have keeps : ∀ r, c.parent r = r → (c.attach root child).parent r = r := by
      intro r here
      rw [parent_attach, if_neg, here]
      rintro ⟨rfl, -⟩
      exact absurd higher (forest.apart _ _ here isRoot chain ▸ Nat.lt_irrefl _)
    obtain ⟨final, kept⟩ := ih attached (keeps root isRoot) lower
    exact ⟨final, fun r here => kept r (keeps r here)⟩

theorem find (v : VarId) :
    (c.find v).1.Forest count linked ∧ ∀ r, c.parent r = r → (c.find v).1.parent r = r :=
  forest.compress (forest.parent_find v) _ (forest.climbed v).path

theorem find_find (u v : VarId) : ((c.find u).1.find v).2 = (c.find v).2 := by
  obtain ⟨searched, keeps⟩ := forest.find u
  exact searched.apart _ _ (searched.parent_find v) (keeps _ (forest.parent_find v))
    (((searched.climbed v).chain.symm _ _).trans _ _ _ (forest.climbed v).chain)

/-- Putting one root below another connects their classes, and no others. -/
private theorem link {x y : VarId} (isRoot : c.parent a = a) (isRoot' : c.parent b = b)
    (lt : a < count) (lt' : b < count) (chain : EqvGen linked x a) (chain' : EqvGen linked y b)
    (isWider : ∀ u v, wider u v ↔ linked u v ∨ u = x ∧ v = y) :
    (c.link a b).Forest count wider := by
  have more : ∀ u v, linked u v → wider u v := fun u v isLink => (isWider u v).mpr (.inl isLink)
  have joined : EqvGen wider a b := by
    have new : EqvGen wider x y := .rel x y ((isWider x y).mpr (.inr ⟨rfl, rfl⟩))
    exact (((chain.mono more).symm _ _).trans _ _ _ new).trans _ _ _ (chain'.mono more)
  have found := (forest.find_eq_iff.mpr chain).trans (forest.find_root isRoot)
  have found' := (forest.find_eq_iff.mpr chain').trans (forest.find_root isRoot')
  -- Only these two roots are connected: with one put for the other, connected variables have one
  -- root.
  have apart : ∀ r r', c.parent r = r → c.parent r' = r' → EqvGen wider r r' →
      r = r' ∨ r = a ∧ r' = b ∨ r = b ∧ r' = a := by
    intro r r' here here' connected
    have same :=
      eq_of_eqvGen (f := fun v => if (c.find v).2 = a then b else (c.find v).2) ?_ connected
    · rw [forest.find_root here, forest.find_root here'] at same
      grind
    · intro u v isLink
      rcases (isWider u v).mp isLink with isLink | ⟨rfl, rfl⟩
      · rw [forest.find_eq_iff.mpr (.rel _ _ isLink)]
      · simp [found, found']
  have below : ∀ r r', c.parent r = r → c.parent r' = r' → r ≠ a → r' ≠ a → EqvGen wider r r' →
      r = r' := by
    grind
  unfold DisjointSets.link
  split
  · rename_i same
    exact { forest with sound := fun v => (forest.sound v).mono more, apart := by grind }
  split
  · rename_i higher
    exact forest.attach more lt lt' (joined.symm _ _) higher (by grind)
  split
  · rename_i other _ equal
    have raised : (c.raise b).rank a < (c.raise b).rank b := by
      rw [rank_raise, rank_raise, if_neg fun both => other both.1.symm,
        if_pos ⟨rfl, forest.ranks ▸ lt'⟩, equal]
      exact Nat.lt_succ_self _
    exact (forest.raise isRoot').attach more lt' lt joined raised below
  · exact forest.attach more lt' lt joined (by omega) below

theorem union {x y : VarId} (lt : x < count) (lt' : y < count) :
    (c.union x y).Forest count fun u v => linked u v ∨ u = x ∧ v = y := by
  obtain ⟨first, keeps⟩ := forest.find x
  obtain ⟨second, keeps'⟩ := first.find y
  exact second.link (keeps' _ (keeps _ (forest.parent_find x))) (keeps' _ (first.parent_find y))
    (forest.find_lt lt) (first.find_lt lt') (forest.climbed x).chain (first.climbed y).chain
    fun _ _ => .rfl

/-- All pairs of a list are united, one after the other. -/
theorem foldl_union (pairs : List (VarId × VarId))
    (inside : ∀ pair ∈ pairs, pair.1 < count ∧ pair.2 < count) :
    (pairs.foldl (fun c pair => c.union pair.1 pair.2) c).Forest count fun u v => linked u v ∨
    (u, v) ∈ pairs := by
  induction pairs generalizing c linked with
  | nil => simpa using forest
  | cons pair pairs ih =>
    rw [List.forall_mem_cons] at inside
    have united := ih (forest.union inside.1.1 inside.1.2) inside.2
    simpa only [List.foldl_cons, List.mem_cons, Prod.ext_iff, or_assoc] using united

end Forest

/-- All disjoint sets that searches and unions make of single variables. -/
inductive Arises (count : Nat) : DisjointSets → Prop
  | new : Arises count (.new count)
  | find {c : DisjointSets} (v : VarId) : Arises count c → Arises count (c.find v).1
  | union {c : DisjointSets} {a b : VarId} : Arises count c → a < count → b < count →
    Arises count (c.union a b)

theorem Arises.forest (arises : Arises count c) : ∃ linked, c.Forest count linked := by
  induction arises with
  | new => exact ⟨_, .new count⟩
  | find v _ ih =>
    obtain ⟨linked, forest⟩ := ih
    exact ⟨linked, (forest.find v).1⟩
  | union _ lt lt' ih =>
    obtain ⟨linked, forest⟩ := ih
    exact ⟨_, forest.union lt lt'⟩

end DisjointSets
end ArmBackend
