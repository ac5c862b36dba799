/-! A loop that may never end. A pass takes steps until one is the last, and so do runs with answers
in between. Whether one ever is depends on the trees, so there may be no result. -/

namespace Reconcile

section Loop

variable {σ β : Type} (next : σ → σ × Option β)

/-- Take steps until one is the last. There is no result if none is. The call stands in a tactic block,
because as a term it would leave its place in the source in the definition. -/
def loop (s : σ) : Option (σ × β) :=
  match next s with
  | (s, some result) => some (s, result)
  | (s, none) => by
    apply loop
    exact s
partial_fixpoint

variable {next} {s s' : σ}

theorem loop_of_none (h : next s = (s', none)) : loop next s = loop next s' := by
  rw [loop, h]

theorem loop_of_some {result : β} (h : next s = (s', some result)) :
    loop next s = some (s', result) := by
  rw [loop, h]

/-- What the last step establishes and every step carries back holds of the result of a loop. -/
theorem loop_induction {P : σ → σ × β → Prop}
    (last : ∀ s s' result, next s = (s', some result) → P s (s', result))
    (onward : ∀ s s' result, next s = (s', none) → P s' result → P s result)
    {result : σ × β} (h : loop next s = some result) : P s result := by
  refine loop.partial_correctness next P ?_ s result h
  intro rest ih s result h
  split at h
  · rename_i s' b hnext
    cases h
    exact last s s' b hnext
  · rename_i s' hnext
    exact onward s s' result hnext (ih s' result h)

end Loop

end Reconcile
