import Mathlib.Data.List.Induction

/-! # Rows of events

What follows from a row of events that each had to be possible, and what has come about in a row and
was not followed by something else. The last event is at the end. -/

namespace Reconcile

variable {σ α : Type} {a b e : α} {es : List α}

/-- A row goes through a state before each of its events, and one after it. -/
theorem row_split {on : σ → α → Option σ} {s t : σ} {before since : List α}
    (h : (before ++ e :: since).foldlM on s = some t) :
    ∃ u v, before.foldlM on s = some u ∧ on u e = some v ∧ since.foldlM on v = some t := by
  rw [List.foldlM_append] at h
  obtain ⟨u, hu, hlater⟩ := Option.bind_eq_some_iff.mp h
  rw [List.foldlM_cons] at hlater
  obtain ⟨v, hv, hsince⟩ := Option.bind_eq_some_iff.mp hlater
  exact ⟨u, v, hu, hv, hsince⟩

theorem row_cons {on : σ → α → Option σ} {s t u : σ} (h : on s e = some t)
    (h' : es.foldlM on t = some u) : (e :: es).foldlM on s = some u := by
  rw [List.foldlM_cons, h]
  exact h'

theorem row_append {on : σ → α → Option σ} {s t u : σ} {es' : List α}
    (h : es.foldlM on s = some t) (h' : es'.foldlM on t = some u) :
    (es ++ es').foldlM on s = some u := by
  rw [List.foldlM_append, h]
  exact h'

/-- What holds at the start and is kept by each event that is possible holds after every row. -/
theorem row_induction {on : σ → α → Option σ} {s : σ} {motive : List α → σ → Prop}
    (start : motive [] s)
    (step : ∀ {es t e u}, es.foldlM on s = some t → motive es t → on t e = some u →
      motive (es ++ [e]) u) {t : σ} (h : es.foldlM on s = some t) : motive es t := by
  induction es using List.reverseRecOn generalizing t with
  | nil =>
      cases h
      exact start
  | append_singleton es e ih =>
      obtain ⟨u, v, hu, hlast, hv⟩ := row_split h
      cases hv
      exact step hu (ih hu) hlast

/-- `a` has come about, and `b` has not since. -/
def Since (a b : α) (es : List α) : Prop := ∃ before since, es = before ++ a :: since ∧ b ∉ since

theorem not_since_nil : ¬ Since a b [] := by
  rintro ⟨before, since, hes, -⟩
  simp at hes

/-- Either the last event is `a`, or `a` came about before and the last event is not `b`. -/
theorem since_concat_iff : Since a b (es ++ [e]) ↔ e = a ∨ Since a b es ∧ e ≠ b := by
  constructor
  · rintro ⟨before, since, hes, hb⟩
    cases since using List.reverseRecOn with
    | nil =>
        obtain ⟨-, hlast⟩ := List.append_inj' hes rfl
        exact .inl (List.cons.inj hlast).1
    | append_singleton since last =>
        rw [← List.cons_append, ← List.append_assoc] at hes
        obtain ⟨rfl, hlast⟩ := List.append_inj' hes rfl
        obtain ⟨rfl, -⟩ := List.cons.inj hlast
        simp only [List.mem_append, List.mem_singleton, not_or] at hb
        exact .inr ⟨⟨before, since, rfl, hb.1⟩, Ne.symm hb.2⟩
  · rintro (rfl | ⟨⟨before, since, rfl, hb⟩, hne⟩)
    · exact ⟨es, [], rfl, by simp⟩
    · exact ⟨before, since ++ [e], by simp, by simp [hb, Ne.symm hne]⟩

/-- What begins with `a` and ends with `b` is the case just while `a` has come about and `b` has not
since. -/
theorem since_iff {on : σ → α → Option σ} {s t : σ} {p : σ → Prop} (start : ¬ p s)
    (step : ∀ {t e u}, on t e = some u → (p u ↔ e = a ∨ p t ∧ e ≠ b))
    (h : es.foldlM on s = some t) : Since a b es ↔ p t := by
  refine row_induction (motive := fun es t => Since a b es ↔ p t) ?_ ?_ h
  · exact iff_of_false not_since_nil start
  · intro es t e u _ ih hon
    rw [since_concat_iff, ih, step hon]

end Reconcile
