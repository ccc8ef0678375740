/-!
Contract: finite sets of small indices.

A set is one natural number whose binary digits are its characteristic function, so two sets with
the same members are the same value and no capacity is ever visible. `toList` is the view the rest
of the library reads: every member once, in ascending order.
-/

namespace ArmBackend

/-- A finite set of indices: bit `i` of `bits` says whether `i` is a member. -/
structure IndexSet where
  bits : Nat
deriving DecidableEq, Repr

namespace IndexSet

def empty : IndexSet := ⟨0⟩

instance : EmptyCollection IndexSet := ⟨empty⟩
instance : Inhabited IndexSet := ⟨empty⟩

def contains (s : IndexSet) (i : Nat) : Bool := s.bits.testBit i

instance : Membership Nat IndexSet := ⟨fun s i => s.contains i = true⟩

instance (i : Nat) (s : IndexSet) : Decidable (i ∈ s) :=
  inferInstanceAs (Decidable (s.contains i = true))

def insert (s : IndexSet) (i : Nat) : IndexSet := ⟨s.bits ||| 1 <<< i⟩

def erase (s : IndexSet) (i : Nat) : IndexSet :=
  if s.contains i then ⟨s.bits ^^^ 1 <<< i⟩ else s

def union (s t : IndexSet) : IndexSet := ⟨s.bits ||| t.bits⟩

def inter (s t : IndexSet) : IndexSet := ⟨s.bits &&& t.bits⟩

def diff (s t : IndexSet) : IndexSet := ⟨s.bits ^^^ (s.bits &&& t.bits)⟩

def isEmpty (s : IndexSet) : Bool := s.bits == 0

/-- Places of the one digits of `bits`, moved up by `offset`, when `bits` has at most `1 <<< depth`
digits. The digits are halved, and a half of zeros is passed over. -/
def places : (depth offset bits : Nat) → List Nat
  | 0, offset, bits => if bits = 0 then [] else [offset]
  | depth + 1, offset, bits =>
    if bits = 0 then []
    else
      let half := 1 <<< depth
      places depth offset (bits &&& (1 <<< half - 1)) ++
        places depth (offset + half) (bits >>> half)

/-- How often the digits of a set have to be halved until single ones are left. -/
def depth (s : IndexSet) : Nat := s.bits.log2.log2 + 1

def toList (s : IndexSet) : List Nat := places s.depth 0 s.bits

def size (s : IndexSet) : Nat := s.toList.length

def insertMany (s : IndexSet) (indices : List Nat) : IndexSet := indices.foldl insert s

def ofList (indices : List Nat) : IndexSet := empty.insertMany indices

/-! ## Membership after each operation -/

theorem mem_iff_contains (s : IndexSet) (i : Nat) : i ∈ s ↔ s.contains i = true := Iff.rfl

@[simp] theorem contains_empty (i : Nat) : empty.contains i = false := by
  simp [contains, empty]

@[simp] theorem contains_insert (s : IndexSet) (i j : Nat) :
    (s.insert i).contains j = (s.contains j || decide (i = j)) := by
  simp [contains, insert, Nat.one_shiftLeft, Nat.testBit_two_pow]

@[simp] theorem contains_erase (s : IndexSet) (i j : Nat) :
    (s.erase i).contains j = (s.contains j && !decide (i = j)) := by
  by_cases mem : s.contains i = true
  · by_cases same : i = j
    · subst same
      simp_all [contains, erase, Nat.one_shiftLeft]
    · simp only [contains] at mem
      simp [contains, erase, mem, same, Nat.one_shiftLeft]
  · by_cases same : i = j
    · subst same
      simp_all [erase]
    · simp [erase, mem, same]

@[simp] theorem contains_union (s t : IndexSet) (i : Nat) :
    (s.union t).contains i = (s.contains i || t.contains i) := by
  simp [contains, union]

@[simp] theorem contains_inter (s t : IndexSet) (i : Nat) :
    (s.inter t).contains i = (s.contains i && t.contains i) := by
  simp [contains, inter]

@[simp] theorem contains_diff (s t : IndexSet) (i : Nat) :
    (s.diff t).contains i = (s.contains i && !t.contains i) := by
  simp only [contains, diff, Nat.testBit_xor, Nat.testBit_and]
  cases s.bits.testBit i <;> cases t.bits.testBit i <;> rfl

/-! ## The list of members -/

theorem places_eq (depth offset bits : Nat) (bound : bits < 1 <<< (1 <<< depth)) :
    places depth offset bits =
      ((List.range (1 <<< depth)).filter bits.testBit).map (offset + ·) := by
  induction depth generalizing offset bits with
  | zero =>
    have few : bits = 0 ∨ bits = 1 := by
      simp [Nat.one_shiftLeft] at bound
      omega
    rcases few with rfl | rfl <;> simp [places, List.range_succ]
  | succ depth ih =>
    by_cases none : bits = 0
    · subst none
      simp [places, List.filter_eq_nil_iff]
    · have double : 1 <<< (depth + 1) = 1 <<< depth + 1 <<< depth := by
        simp [Nat.one_shiftLeft, Nat.pow_succ]
        omega
      have low : bits &&& (1 <<< (1 <<< depth) - 1) < 1 <<< (1 <<< depth) := by
        have positive : 0 < 1 <<< (1 <<< depth) := by
          rw [Nat.one_shiftLeft]
          exact Nat.two_pow_pos _
        have below := Nat.and_le_right (n := bits) (m := 1 <<< (1 <<< depth) - 1)
        omega
      have high : bits >>> (1 <<< depth) < 1 <<< (1 <<< depth) := by
        rw [double] at bound
        rw [Nat.one_shiftLeft, Nat.pow_add] at bound
        rw [Nat.shiftRight_eq_div_pow, Nat.one_shiftLeft (1 <<< depth)]
        exact Nat.div_lt_of_lt_mul bound
      rw [places]
      simp only [none, if_false]
      rw [ih _ _ low, ih _ _ high, double, List.range_add, List.filter_append, List.map_append]
      congr 1
      · congr 1
        apply List.filter_congr
        intro i mem
        have small := List.mem_range.mp mem
        simp [Nat.one_shiftLeft] at small ⊢
        omega
      · rw [List.filter_map, List.map_map]
        have shifted : (bits >>> (1 <<< depth)).testBit = bits.testBit ∘ (1 <<< depth + ·) := by
          funext i
          simp
        rw [shifted]
        apply List.map_congr_left
        intro i _
        simp [Nat.add_assoc]

theorem bits_lt (s : IndexSet) : s.bits < 1 <<< (1 <<< s.depth) := by
  have topmost : s.bits.log2 + 1 ≤ 1 <<< s.depth := by
    rw [Nat.one_shiftLeft]
    exact Nat.lt_log2_self
  rw [Nat.one_shiftLeft (1 <<< _)]
  exact Nat.lt_of_lt_of_le Nat.lt_log2_self (Nat.pow_le_pow_right Nat.two_pos topmost)

theorem toList_eq_filter (s : IndexSet) :
    s.toList = (List.range (1 <<< s.depth)).filter s.contains := by
  rw [toList, places_eq _ _ _ s.bits_lt]
  simp only [Nat.zero_add, List.map_id']
  rfl

@[simp] theorem mem_toList (s : IndexSet) (i : Nat) : i ∈ s.toList ↔ s.contains i = true := by
  rw [toList_eq_filter, List.mem_filter, List.mem_range, and_iff_right_iff_imp]
  intro mem
  apply Nat.lt_of_not_le
  intro above
  have bound := s.bits_lt
  rw [Nat.one_shiftLeft (1 <<< _)] at bound
  have absent := Nat.testBit_lt_two_pow
    (Nat.lt_of_lt_of_le bound (Nat.pow_le_pow_right Nat.two_pos above))
  simp [contains, absent] at mem

@[simp] theorem contains_insertMany (s : IndexSet) (indices : List Nat) (i : Nat) :
    (s.insertMany indices).contains i = (s.contains i || indices.contains i) := by
  unfold insertMany
  induction indices generalizing s with
  | nil => simp
  | cons head tail ih =>
    rw [List.foldl_cons, ih, contains_insert]
    by_cases same : i = head
    · simp [same]
    · have other : head ≠ i := Ne.symm same
      simp [same, other]

@[simp] theorem contains_ofList (indices : List Nat) (i : Nat) :
    (ofList indices).contains i = indices.contains i := by
  rw [ofList, contains_insertMany, contains_empty, Bool.false_or]

theorem nodup_toList (s : IndexSet) : s.toList.Nodup := by
  rw [toList_eq_filter]
  exact List.nodup_range.filter _

theorem ext_contains {s t : IndexSet} (same : ∀ i, s.contains i = true ↔ t.contains i = true) :
    s = t := by
  obtain ⟨bits⟩ := s
  obtain ⟨bits'⟩ := t
  exact congrArg mk (Nat.eq_of_testBit_eq fun i => Bool.eq_iff_iff.mpr (same i))

end IndexSet

end ArmBackend
