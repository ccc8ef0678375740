import ArmBackend.Fixpoint

/-!
Contract: what a repeated step establishes.
-/

namespace ArmBackend

open List

variable {σ : Type} [DecidableEq σ]

/-- What the `k`-th step establishes from what the steps before it did holds after all rounds, also
when they ended early: a state that the step leaves alone is one it has reached any number of times.
-/
theorem stabilize_induction (step : σ → σ) (holds : Nat → σ → Prop)
    (advance : ∀ k state, holds k state → holds (k + 1) (step state)) (rounds k : Nat) (state : σ)
    (start : holds k state) : holds (k + rounds) (stabilize step rounds state) := by
  induction rounds generalizing k state with
  | zero => exact start
  | succ rounds ih =>
    rw [stabilize]
    by_cases stable : step state = state
    · have repeated : ∀ more, holds (k + more) state := by
        intro more
        induction more with
        | zero => exact start
        | succ more earlier =>
          have next := advance (k + more) state earlier
          rw [stable] at next
          exact next
      simp only [stable, if_true]
      exact repeated (rounds + 1)
    · simp only [stable, if_false]
      have later := ih (k + 1) (step state) (advance k state start)
      rwa [show k + 1 + rounds = k + (rounds + 1) by omega] at later

/-- Steps over the entries of a list, of which each raises its own entry by one level and leaves the
others where they are, if none is below `k`: in the end all entries of the list are raised. -/
theorem foldl_levels {α τ : Type} {f : τ → α → τ} (level : Nat → τ → α → Prop) {k : Nat}
    {entries : List α}
    (raise : ∀ a ∈ entries, ∀ state, (∀ b, level k state b) → level (k + 1) (f state a) a)
    (lower : ∀ state a, level (k + 1) state a → level k state a)
    (keep : ∀ j state a b, b ≠ a → level j state b → level j (f state a) b)
    (state : τ) (known : ∀ b, level k state b) :
    ∀ b, b ∈ entries ∨ level (k + 1) state b → level (k + 1) (entries.foldl f state) b := by
  induction entries generalizing state with
  | nil => exact fun b => Or.rec (fun never => absurd never not_mem_nil) id
  | cons a rest ih =>
    rw [forall_mem_cons] at raise
    have raised := raise.1 state known
    have later := ih raise.2 (f state a) fun b => by
      by_cases same : b = a
      · exact same ▸ lower _ a raised
      · exact keep k state a b same (known b)
    refine fun b reached => later b ?_
    by_cases same : b = a
    · exact .inr (same ▸ raised)
    · rcases reached with mem | above
      · exact .inl ((mem_cons.mp mem).resolve_left same)
      · exact .inr (keep _ state a b same above)

/-! ## Steps that can fail -/

variable {α β τ ε : Type}

theorem bind_eq_ok {x : Except ε α} {f : α → Except ε β} {b : β} (ok : x >>= f = .ok b) :
    ∃ a, x = .ok a ∧ f a = .ok b := by
  cases x with
  | error e => cases ok
  | ok a => exact ⟨a, rfl, ok⟩

theorem bind_pure_eq_ok {x : Except ε α} {f : α → β} {b : β}
    (ok : (x >>= fun a => pure (f a)) = .ok b) : ∃ a, x = .ok a ∧ f a = b := by
  obtain ⟨a, isOk, same⟩ := bind_eq_ok ok
  exact ⟨a, isOk, Except.ok.inj same⟩

theorem bind_eq_error {x : Except ε α} {f : α → Except ε β} {e : ε} (failed : x >>= f = .error e) :
    x = .error e ∨ ∃ a, x = .ok a ∧ f a = .error e := by
  cases x with
  | error e' => exact .inl (congrArg Except.error (Except.error.inj failed))
  | ok a => exact .inr ⟨a, rfl, failed⟩

/-- A step that can fail, taken for each entry of a list: the results stand at the same places. -/
theorem getElem?_of_mapM_ok {f : α → Except ε β} {xs : List α} {ys : List β}
    (ok : xs.mapM f = .ok ys) :
    ys.length = xs.length ∧ ∀ (i : Nat) x, xs[i]? = some x → ∃ y, ys[i]? = some y ∧
      f x = .ok y := by
  induction xs generalizing ys with
  | nil =>
    rw [mapM_nil] at ok
    cases ok
    exact ⟨rfl, by simp⟩
  | cons head tail ih =>
    rw [mapM_cons] at ok
    obtain ⟨y, first, ok⟩ := bind_eq_ok ok
    obtain ⟨more, rest, same⟩ := bind_eq_ok ok
    obtain rfl := Except.ok.inj same
    obtain ⟨length, results⟩ := ih rest
    refine ⟨by simp [length], fun i x isAt => ?_⟩
    cases i with
    | zero =>
      obtain rfl : head = x := by simpa using isAt
      exact ⟨y, rfl, first⟩
    | succ i => exact results i x (by simpa using isAt)

/-- It fails as one of the entries does. -/
theorem exists_of_mapM_error {f : α → Except ε β} {xs : List α}
    {e : ε} (failed : xs.mapM f = .error e) : ∃ x ∈ xs, f x = .error e := by
  induction xs with
  | nil =>
    rw [mapM_nil] at failed
    cases failed
  | cons head tail ih =>
    rw [mapM_cons] at failed
    rcases bind_eq_error failed with here | ⟨y, -, failed⟩
    · exact ⟨head, mem_cons_self, here⟩
    · rcases bind_eq_error failed with later | ⟨_, -, never⟩
      · obtain ⟨x, mem, isError⟩ := ih later
        exact ⟨x, mem_cons_of_mem _ mem, isError⟩
      · cases never

theorem forM_eq_ok {f : α → Except ε Unit} {entries : List α} (ok : entries.forM f = .ok ()) :
    ∀ a ∈ entries, f a = .ok () := by
  induction entries with
  | nil => exact forall_mem_nil _
  | cons a rest ih =>
    obtain ⟨_, first, ok⟩ := bind_eq_ok ok
    exact forall_mem_cons.mpr ⟨first, ih ok⟩

theorem forM_of_forall {f : α → Except ε Unit} {entries : List α}
    (all : ∀ a ∈ entries, f a = .ok ()) : entries.forM f = .ok () := by
  induction entries with
  | nil => rfl
  | cons a rest ih =>
    rw [forall_mem_cons] at all
    change (f a >>= fun _ => rest.forM f) = .ok ()
    rw [all.1]
    exact ih all.2

/-- What each step of a run that succeeds establishes for the entries done so far. -/
theorem foldlM_induction {f : τ → α → Except ε τ} (holds : List α → τ → Prop) {entries : List α}
    (advance : ∀ done entry rest before after, entries = done ++ entry :: rest → holds done before →
      f before entry = .ok after → holds (done ++ [entry]) after)
    {first last : τ} (start : holds [] first) (ok : entries.foldlM f first = .ok last) :
    holds entries last := by
  have all : ∀ (rest done : List α) (state : τ), entries = done ++ rest → holds done state →
      rest.foldlM f state = .ok last → holds entries last := by
    intro rest
    induction rest with
    | nil =>
      intro done state split known ok
      obtain rfl := Except.ok.inj ok
      rw [split, append_nil]
      exact known
    | cons entry rest ih =>
      intro done state split known ok
      rw [foldlM_cons] at ok
      obtain ⟨next, stepped, ok⟩ := bind_eq_ok ok
      exact ih (done ++ [entry]) next (by simpa using split)
        (advance done entry rest state next split known stepped) ok
  exact all entries [] first rfl start ok

/-- A run succeeds if every step does, from what the steps before it established. -/
theorem exists_foldlM {f : τ → α → Except ε τ} (holds : List α → τ → Prop) {entries : List α}
    (advance : ∀ done entry rest before, entries = done ++ entry :: rest → holds done before →
      ∃ after, f before entry = .ok after ∧ holds (done ++ [entry]) after)
    {first : τ} (start : holds [] first) :
    ∃ last, entries.foldlM f first = .ok last ∧ holds entries last := by
  have all : ∀ (rest done : List α) (state : τ), entries = done ++ rest → holds done state →
      ∃ last, rest.foldlM f state = .ok last ∧ holds entries last := by
    intro rest
    induction rest with
    | nil =>
      exact fun done state split known => ⟨state, rfl, by rw [split, append_nil]; exact known⟩
    | cons entry rest ih =>
      intro done state split known
      obtain ⟨next, stepped, known⟩ := advance done entry rest state split known
      obtain ⟨last, ok, final⟩ := ih (done ++ [entry]) next (by simpa using split) known
      exact ⟨last, by rw [foldlM_cons, stepped]; exact ok, final⟩
  exact all entries [] first rfl start

end ArmBackend
