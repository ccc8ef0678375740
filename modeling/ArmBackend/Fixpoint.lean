/-!
Contract: repeating a step until it changes nothing.

Data-flow solutions are found by running whole rounds over a graph until one leaves the state as it
was. The number of rounds is bounded by what the caller knows about the lengths of chains of its
states.
-/

namespace ArmBackend

/-- The state after at most `rounds` steps, or the first one that the step leaves unchanged. -/
def stabilize {σ : Type} [DecidableEq σ] (step : σ → σ) : Nat → σ → σ
  | 0, state => state
  | rounds + 1, state =>
    let next := step state
    if next = state then state else stabilize step rounds next

end ArmBackend
