import ArmBackend.Walk
import Mathlib.Algebra.BigOperators.Group.Finset.Basic
import Mathlib.Algebra.Order.BigOperators.Group.Finset
import Mathlib.Data.List.ReduceOption
import Mathlib.Logic.Relation

/-!
Contract: the walk with a stack is the recursive depth-first search.

`Explores` states the recursion: try places in order, pass over those without a new node, enter a
new node by exploring its places, then go on with the rest. What the search visits, and in which
orders, is proved by induction on it. A stack machine that is inside a node takes the steps of the
recursion over the places that the node has left, and then leaves the node.
-/

namespace ArmBackend.Walk

open List

/-- Trying places in order, with the nodes of `seen` behind, enters and leaves nodes in the given
orders and ends with those of `after` behind. -/
inductive Explores (succs : BlockId → List (Option BlockId)) :
    IndexSet → List (Option BlockId) → List BlockId → List BlockId → IndexSet → Prop where
  | done (seen : IndexSet) : Explores succs seen [] [] [] seen
  | pass {seen after : IndexSet} {place : Option BlockId} {rest : List (Option BlockId)}
    {pre post : List BlockId} (old : unseen? seen place = none)
    (later : Explores succs seen rest pre post after) :
    Explores succs seen (place :: rest) pre post after
  | enter {seen mid after : IndexSet} {place : Option BlockId} {rest : List (Option BlockId)}
    {s : BlockId} {pre post pre' post' : List BlockId} (new : unseen? seen place = some s)
    (inner : Explores succs (seen.insert s) (succs s) pre post mid)
    (later : Explores succs mid rest pre' post' after) :
    Explores succs seen (place :: rest) (s :: pre ++ pre') (post ++ s :: post') after

/-- The edges of a graph. -/
def Edge (succs : BlockId → List (Option BlockId)) (d x : BlockId) : Prop := some x ∈ succs d

variable {succs : BlockId → List (Option BlockId)} {seen after after' : IndexSet}
  {s start : BlockId}
variable {place : Option BlockId} {places : List (Option BlockId)}
  {pre post pre' post' : List BlockId}

theorem unseen?_eq_some :
    unseen? seen place = some s ↔ place = some s ∧ seen.contains s = false := by
  simp [unseen?, Option.filter_eq_some_iff]

private theorem unseen?_eq_none :
    unseen? seen place = none ↔ ∀ s, place = some s → seen.contains s = true := by
  simp [unseen?, Option.filter_eq_none_iff]

/-- A node of two lists joined stands in the first or in the second. -/
theorem split_cases {front back before behind : List BlockId} {x : BlockId}
    (split : front ++ back = before ++ x :: behind) :
    (∃ between, front = before ++ x :: between) ∨ ∃ more, before = front ++ more ∧
    back = more ++ x :: behind := by
  rcases append_eq_append_iff.mp split with ⟨more, isBefore, isBack⟩ | ⟨between, isFront, tail⟩
  · exact .inr ⟨more, isBefore, isBack⟩
  · rcases cons_eq_append_iff.mp tail with ⟨rfl, isBack⟩ | ⟨between, rfl, -⟩
    · exact .inr ⟨[], by simpa using isFront.symm, isBack⟩
    · exact .inl ⟨between, isFront⟩

namespace Explores

section

variable (run : Explores succs seen places pre post after)

include run

/-- Nodes behind afterwards are those behind before and those left. -/
theorem contains_iff (x : BlockId) :
    after.contains x = true ↔ seen.contains x = true ∨ x ∈ post := by
  induction run with
  | done => simp
  | pass _ _ ih => exact ih
  | enter _ _ _ inner later =>
    rw [later, inner, IndexSet.contains_insert, mem_append, mem_cons, Bool.or_eq_true,
      decide_eq_true_eq, @eq_comm _ x]
    tauto

/-- Every node is left once, and was not behind before. -/
theorem nodup : post.Nodup ∧ ∀ x ∈ post, seen.contains x = false := by
  induction run with
  | done => simp
  | pass _ _ ih => exact ih
  | @enter seen _ _ _ _ s _ post _ post' new inner _ fresh fresh' =>
    have apart : ∀ x ∈ post, seen.contains x = false ∧ decide (s = x) = false := fun x mem =>
      Bool.or_eq_false_iff.mp (IndexSet.contains_insert .. ▸ fresh.2 x mem)
    have apart' : ∀ x ∈ post', ¬(seen.insert s).contains x = true ∧ x ∉ post := fun x mem =>
      not_or.mp (mt (inner.contains_iff x).mpr (Bool.eq_false_iff.mp (fresh'.2 x mem)))
    refine ⟨nodup_middle.mpr (nodup_cons.mpr ⟨fun mem => ?_, ?_⟩), fun x mem => ?_⟩
    · rcases mem_append.mp mem with mem | mem
      · exact of_decide_eq_false (apart _ mem).2 rfl
      · exact (apart' _ mem).1 (by simp)
    · exact nodup_append.mpr ⟨fresh.1, fresh'.1, fun x left y later same =>
        (apart' y later).2 (same ▸ left)⟩
    · rcases mem_append.mp mem with mem | mem
      · exact (apart x mem).1
      rcases mem_cons.mp mem with rfl | mem
      · exact (unseen?_eq_some.mp new).2
      · exact Bool.eq_false_iff.mpr fun known => (apart' x mem).1 (by simp [known])

theorem perm : pre.Perm post := by
  induction run with
  | done => exact .refl _
  | pass _ _ ih => exact ih
  | enter _ _ _ inner later => exact ((inner.append later).cons _).trans perm_middle.symm

/-- The nodes in the places are behind afterwards, and so are the successors of all nodes left. -/
theorem closed : (∀ x, some x ∈ places → after.contains x = true) ∧
      ∀ d ∈ post, ∀ x, Edge succs d x → after.contains x = true := by
  induction run with
  | done => simp
  | pass old later ih =>
    refine ⟨fun x mem => ?_, ih.2⟩
    rcases mem_cons.mp mem with same | mem
    · exact (later.contains_iff x).mpr (.inl (unseen?_eq_none.mp old x same.symm))
    · exact ih.1 x mem
  | @enter _ mid after _ _ _ _ _ _ _ new inner later innerClosed laterClosed =>
    have kept : ∀ x, mid.contains x = true → after.contains x = true := fun x known =>
      (later.contains_iff x).mpr (.inl known)
    refine ⟨fun x mem => ?_, fun d mem x edge => ?_⟩
    · rcases mem_cons.mp mem with same | mem
      · refine kept x ((inner.contains_iff x).mpr (.inl ?_))
        rw [(unseen?_eq_some.mp new).1] at same
        simp [Option.some.inj same]
      · exact laterClosed.1 x mem
    · rcases mem_append.mp mem with mem | mem
      · exact kept x (innerClosed.2 d mem x edge)
      rcases mem_cons.mp mem with rfl | mem
      · exact kept x (innerClosed.1 x edge)
      · exact laterClosed.2 d mem x edge

/-- Every node left is reached from one of the places. -/
theorem reached : ∀ x ∈ post, ∃ s, some s ∈ places ∧ Relation.ReflTransGen (Edge succs) s x := by
  induction run with
  | done => simp
  | pass _ _ ih =>
    intro x mem
    obtain ⟨s, among, path⟩ := ih x mem
    exact ⟨s, mem_cons_of_mem _ among, path⟩
  | @enter _ _ _ place rest s _ _ _ _ new _ _ inner later =>
    have here : some s ∈ place :: rest := mem_cons.mpr (.inl (unseen?_eq_some.mp new).1.symm)
    intro x mem
    rcases mem_append.mp mem with mem | mem
    · obtain ⟨d, edge, path⟩ := inner x mem
      exact ⟨s, here, .head edge path⟩
    rcases mem_cons.mp mem with rfl | mem
    · exact ⟨x, here, .refl⟩
    · obtain ⟨d, among, path⟩ := later x mem
      exact ⟨d, mem_cons_of_mem _ among, path⟩

/-- In the order opposite to that of leaving, every node not in a place has a predecessor in
front. -/
theorem rooted (before : List BlockId) (x : BlockId) (behind : List BlockId)
    (split : post.reverse = before ++ x :: behind) :
    some x ∈ places ∨ ∃ d ∈ before, Edge succs d x := by
  induction run generalizing before behind with
  | done => simp at split
  | pass _ _ ih => exact (ih before behind split).imp_left (mem_cons_of_mem _)
  | enter new _ _ inner later =>
    rw [reverse_append, reverse_cons] at split
    rcases split_cases split with ⟨_, inFront⟩ | ⟨more, rfl, inBack⟩
    · rcases split_cases inFront with ⟨between, inLater⟩ | ⟨more, rfl, here⟩
      · exact (later before between inLater).imp_left (mem_cons_of_mem _)
      · rcases cons_eq_append_iff.mp here with ⟨rfl, same⟩ | ⟨_, rfl, same⟩
        · simp only [List.cons.injEq] at same
          exact .inl (mem_cons.mpr (.inl (same.1 ▸ (unseen?_eq_some.mp new).1.symm)))
        · simp at same
    · rcases inner more behind inBack with edge | ⟨d, mem, edge⟩
      · exact .inr ⟨_, by simp, edge⟩
      · exact .inr ⟨d, mem_append_right _ mem, edge⟩

theorem unique (run' : Explores succs seen places pre' post' after') :
    pre = pre' ∧ post = post' ∧ after = after' := by
  induction run generalizing pre' post' after' with
  | done =>
    cases run'
    exact ⟨rfl, rfl, rfl⟩
  | pass old _ ih =>
    cases run' with
    | pass _ later => exact ih later
    | enter new => cases old.symm.trans new
  | enter new _ _ inner later =>
    cases run' with
    | pass old => cases old.symm.trans new
    | enter new' inner' later' =>
      obtain rfl := Option.some.inj (new.symm.trans new')
      obtain ⟨rfl, rfl, rfl⟩ := inner inner'
      obtain ⟨rfl, rfl, rfl⟩ := later later'
      exact ⟨rfl, rfl, rfl⟩

end

end Explores

variable {count : Nat}

/-- The search comes to an end: every node entered leaves fewer to see. -/
theorem exists_explores (range : ∀ d < count, ∀ x, Edge succs d x → x < count) (seen : IndexSet)
    (places : List (Option BlockId)) (inside : ∀ s, some s ∈ places → s < count) :
    ∃ pre post after, Explores succs seen places pre post after := by
  let unseen (seen : IndexSet) : Finset BlockId :=
    {x ∈ Finset.range count | seen.contains x = false}
  suffices bounded : ∀ n seen places, (∀ s, some s ∈ places → s < count) → (unseen seen).card ≤ n →
      ∃ pre post after, Explores succs seen places pre post after from
    bounded _ seen places inside le_rfl
  intro n
  induction n using Nat.strong_induction_on with
  | _ n fewer =>
    intro seen places
    induction places generalizing seen with
    | nil => exact fun _ _ => ⟨_, _, _, .done seen⟩
    | cons place rest ih =>
      intro inside few
      have insideRest := fun s mem => inside s (mem_cons_of_mem _ mem)
      cases new : unseen? seen place with
      | none =>
        obtain ⟨pre, post, after, later⟩ := ih seen insideRest few
        exact ⟨_, _, _, .pass new later⟩
      | some s =>
        obtain ⟨rfl, isNew⟩ := unseen?_eq_some.mp new
        have lt := inside s mem_cons_self
        have shrinks : (unseen (seen.insert s)).card < (unseen seen).card := by
          refine Finset.card_lt_card
            (Finset.ssubset_iff_of_subset (fun x mem => ?_) |>.mpr ⟨s, ?_, ?_⟩)
          · simp only [unseen, Finset.mem_filter, IndexSet.contains_insert,
              Bool.or_eq_false_iff] at mem ⊢
            exact ⟨mem.1, mem.2.1⟩
          · simp [unseen, lt, isNew]
          · simp [unseen]
        obtain ⟨pre, post, mid, inner⟩ :=
          fewer _ (shrinks.trans_le few) (seen.insert s) (succs s) (range s lt) le_rfl
        have shrunk : (unseen mid).card ≤ (unseen seen).card := by
          refine Finset.card_le_card fun x mem => ?_
          simp only [unseen, Finset.mem_filter, Bool.eq_false_iff, ne_eq,
            inner.contains_iff] at mem ⊢
          refine ⟨mem.1, fun known => mem.2 (.inl ?_)⟩
          simp [known]
        obtain ⟨pre', post', after, later⟩ := ih mid insideRest (shrunk.trans few)
        exact ⟨_, _, _, .enter new inner later⟩

theorem getElem?_of_drop {next : Nat} {rest : List (Option BlockId)}
    (here : places.drop next = place :: rest) :
    places[next]? = some place ∧ places.drop (next + 1) = rest := by
  rw [← head?_drop, ← tail_drop, here]
  exact ⟨rfl, rfl⟩

/-- Inside a node, the walk explores the places that are left and then leaves the node. -/
theorem resume_explores (run : Explores succs seen places pre post after) (b : BlockId) (next : Nat)
    (here : (succs b).drop next = places) (steps : Nat) (stack : List (BlockId × Nat))
    (entered left : List BlockId) :
    resume succs (steps + cost succs post + places.length + 1) seen
      ((b, next) :: stack) entered left =
      resume succs steps after stack (pre.reverse ++ entered) (b :: (post.reverse ++ left)) := by
  induction run generalizing b next steps stack entered left with
  | done =>
    have atEnd : (succs b)[next]? = none := getElem?_eq_none (drop_eq_nil_iff.mp here)
    simp only [resume, atEnd]
    rfl
  | pass old _ ih =>
    obtain ⟨isHere, ahead⟩ := getElem?_of_drop here
    simp only [length_cons, resume, isHere, old]
    exact ih b (next + 1) ahead steps stack entered left
  | @enter _ _ _ _ rest s pre post pre' post' new _ _ inner later =>
    obtain ⟨isHere, ahead⟩ := getElem?_of_drop here
    have lt := inner s 0 rfl (steps + cost succs post' + rest.length + 1) ((b, next + 1) :: stack)
      (s :: entered) left
    have outside := later b (next + 1) ahead steps stack (pre.reverse ++ s :: entered)
      (s :: (post.reverse ++ left))
    have steps : steps + cost succs (post ++ s :: post') + rest.length + 1 =
        steps + cost succs post' + rest.length + 1 + cost succs post + (succs s).length + 1 := by
      simp only [cost, flatMap_append, flatMap_cons, length_append, length_cons]
      omega
    rw [length_cons, ← Nat.add_assoc, steps]
    rw [resume, isHere]
    simp only [new]
    rw [lt, outside]
    simp

private theorem cost_le_cost_range (nodup : post.Nodup) (lt : ∀ x ∈ post, x < count) :
    cost succs post ≤ cost succs (.range count) := by
  rw [cost, cost, length_flatMap, length_flatMap, ← sum_toFinset _ nodup,
    ← sum_toFinset _ nodup_range]
  refine Finset.sum_le_sum_of_subset fun x mem => ?_
  rw [mem_toFinset] at mem ⊢
  exact mem_range.mpr (lt x mem)

/-- A search from one node leaves the nodes reached from it. -/
theorem Explores.mem_iff (run : Explores succs .empty [some start] pre post after) {x : BlockId} :
    x ∈ post ↔ Relation.ReflTransGen (Edge succs) start x := by
  have behind : ∀ x, after.contains x = true ↔ x ∈ post :=
    fun x => (run.contains_iff x).trans (by simp)
  constructor
  · intro mem
    obtain ⟨s, among, path⟩ := run.reached x mem
    rw [mem_singleton, Option.some_inj] at among
    exact among ▸ path
  · intro path
    induction path with
    | refl => exact (behind start).mp (run.closed.1 start mem_cons_self)
    | tail _ edge ih => exact (behind _).mp (run.closed.2 _ ih _ edge)

theorem Explores.within (run : Explores succs .empty [some start] pre post after)
    (range : ∀ d < count, ∀ x, Edge succs d x → x < count) (lt : start < count) :
    ∀ x ∈ post, x < count :=
  fun _ mem => (run.mem_iff.mp mem).recOn lt fun _ edge below => range _ below _ edge

theorem Explores.of_inner
    (inner : Explores succs (.insert .empty start) (succs start) pre post after) :
    Explores succs .empty [some start] (start :: pre) (post ++ [start]) after := by
  have new : unseen? .empty (some start) = some start :=
    unseen?_eq_some.mpr ⟨rfl, IndexSet.contains_empty _⟩
  simpa using Explores.enter new inner (.done _)

/-- The walk searches from inside its first node, which it leaves last. -/
theorem exists_ofGraph_eq (range : ∀ d < count, ∀ x, Edge succs d x → x < count)
    (lt : start < count) :
    ∃ pre post after, ofGraph count start succs = ⟨start :: pre, post ++ [start]⟩ ∧
      Explores succs (.insert .empty start) (succs start) pre post after := by
  obtain ⟨pre, post, after, inner⟩ :=
    exists_explores range (.insert .empty start) (succs start) (range start lt)
  have run := inner.of_inner
  have enough : cost succs (post ++ [start]) ≤ cost succs (.range count) :=
    cost_le_cost_range run.nodup.1 (run.within range lt)
  obtain ⟨spare, isBound⟩ := Nat.exists_eq_add_of_le' enough
  have steps : cost succs (.range count) = spare + cost succs post + (succs start).length + 1 := by
    rw [isBound, cost, flatMap_append, length_append, ← cost]
    simp
    omega
  refine ⟨pre, post, after, ?_, inner⟩
  rw [ofGraph, if_neg (Nat.ne_of_gt (Nat.zero_lt_of_lt lt)), steps,
    resume_explores inner start 0 rfl]
  cases spare <;> simp [resume]

/-- A walk in the orders of the recursive search from a node: there is one such search, and it
enters and leaves every node that is reached, once. -/
structure Recursive (succs : BlockId → List (Option BlockId)) (start : BlockId) (w : Walk) :
    Prop where
  orders : ∀ pre post, (∃ after, Explores succs .empty [some start] pre post after) ↔ w =
    ⟨pre, post⟩
  entered : w.preorder.Nodup ∧ ∀ b, b ∈ w.preorder ↔ Relation.ReflTransGen (Edge succs) start b
  left : w.postorder.Nodup ∧ ∀ b, b ∈ w.postorder ↔ Relation.ReflTransGen (Edge succs) start b

theorem recursive_ofGraph (range : ∀ d < count, ∀ x, Edge succs d x → x < count)
    (lt : start < count) : Recursive succs start (ofGraph count start succs) := by
  obtain ⟨pre, post, after, isWalk, inner⟩ := exists_ofGraph_eq range lt
  have run := inner.of_inner
  rw [isWalk]
  refine ⟨fun pre' post' => ⟨fun ⟨_, run'⟩ => ?_, fun same => ?_⟩, ?_, run.nodup.1,
    fun b => run.mem_iff⟩
  · obtain ⟨rfl, rfl, -⟩ := run.unique run'
    rfl
  · obtain ⟨rfl, rfl⟩ := Walk.mk.inj same
    exact ⟨after, run⟩
  · exact ⟨run.perm.nodup_iff.mpr run.nodup.1, fun b => run.perm.mem_iff.trans run.mem_iff⟩

/-- Every element but `start` has a predecessor in front of it. -/
def Rooted (succs : BlockId → List BlockId) (start : BlockId) (order : List BlockId) : Prop :=
  ∀ before x after, order = before ++ x :: after → x = start ∨ ∃ d ∈ before, x ∈ succs d

/-- A walk that is over: its reverse postorder starts with `start`, holds the same nodes as its
preorder, each once, is closed under successors, and is rooted. -/
structure Complete (succs : BlockId → List BlockId) (start : BlockId) (w : Walk) : Prop where
  nodup : w.postorder.Nodup
  perm : w.preorder.Perm w.postorder
  first : ∃ rest, w.postorder.reverse = start :: rest
  closed : ∀ b ∈ w.postorder, ∀ s ∈ succs b, s ∈ w.postorder
  rooted : Rooted succs start w.postorder.reverse

theorem complete_ofGraph {next : BlockId → List BlockId}
    (edges : ∀ d x, x ∈ next d ↔ Edge succs d x)
    (range : ∀ d < count, ∀ x ∈ next d, x < count) (inside : start < count) :
    Complete next start (ofGraph count start succs) := by
  have lt : ∀ d < count, ∀ x, Edge succs d x → x < count := fun d below x edge =>
    range d below x ((edges d x).mpr edge)
  obtain ⟨pre, post, after, isWalk, inner⟩ := exists_ofGraph_eq lt inside
  have run := inner.of_inner
  rw [isWalk]
  refine ⟨run.nodup.1, run.perm, ⟨post.reverse, by simp⟩, fun d mem x edge => ?_, ?_⟩
  · exact run.mem_iff.mpr ((run.mem_iff.mp mem).tail ((edges d x).mp edge))
  · intro before x behind split
    rcases run.rooted before x behind split with among | ⟨d, mem, edge⟩
    · exact .inl (Option.some.inj (mem_singleton.mp among))
    · exact .inr ⟨d, mem, (edges d x).mpr edge⟩

theorem Complete.map {succs succs' : BlockId → List BlockId} {w : Walk} (number : BlockId → BlockId)
    (complete : Complete succs start w)
    (distinct : ∀ a ∈ w.postorder, ∀ b ∈ w.postorder, number a = number b → a = b)
    (edges : ∀ b ∈ w.postorder, succs' (number b) = (succs b).map number) :
    Complete succs' (number start) ⟨w.preorder.map number, w.postorder.map number⟩ where
  nodup := by
    apply pairwise_map.mpr
    refine complete.nodup.imp_of_mem fun {a b} inA inB different same => ?_
    exact different (distinct a inA b inB same)
  perm := complete.perm.map number
  first := by
    obtain ⟨rest, shape⟩ := complete.first
    exact ⟨rest.map number, by simp [← map_reverse, shape]⟩
  closed := by
    intro b mem s edge
    obtain ⟨a, inOrder, rfl⟩ := mem_map.mp mem
    rw [edges a inOrder] at edge
    obtain ⟨t, isEdge, rfl⟩ := mem_map.mp edge
    exact mem_map_of_mem (complete.closed a inOrder t isEdge)
  rooted := by
    intro before x after split
    rw [← map_reverse] at split
    obtain ⟨front, back, shape, rfl, isBack⟩ := map_eq_append_iff.mp split
    obtain ⟨y, tail, rfl, rfl, rfl⟩ := map_eq_cons_iff.mp isBack
    rcases complete.rooted front y tail shape with rfl | ⟨d, earlier, edge⟩
    · exact .inl rfl
    · have inOrder : d ∈ w.postorder := by
        rw [← mem_reverse, shape]
        exact mem_append_left _ earlier
      refine .inr ⟨number d, mem_map_of_mem earlier, ?_⟩
      rw [edges d inOrder]
      exact mem_map_of_mem edge

end ArmBackend.Walk
