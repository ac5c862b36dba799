import Mathlib.Data.List.Induction
import Reconcile.Proofs.History.Coverage

/-! # When a name is found again

A reconciler never finds a name that it remembers. It stops remembering a name in one way only: a
round is through whose root does not hold it, and only the old baseline did. So a name is found twice
just when that happens to it in between. -/

namespace Reconcile

namespace Reconciler

variable {H : Hashing} {S : Name → Prop} {r : Reconciler} {a : Name}

/-- Between two states a round was completed, and a name went out of all that is remembered: only the
old baseline held it, and the new one does not. -/
def Drops (H : Hashing) (r r' : Reconciler) (a : Name) : Prop :=
  r.tally.completed < r'.tally.completed ∧ Held H r.baseline a ∧ a ∉ r.remembered ∧
    ¬ Held H r'.baseline a

/-- A name that was not in the log before is remembered after, and was not remembered before. -/
theorem Change.log_eq {known : Digest → Bool} {l l' : Ledger} (h : Change H known l l') :
    l'.log = l.log ∨ ∃ b, l'.log = l.log ++ [b] ∧ ¬ l.Remembers H b ∧ l'.Remembers H b := by
  cases h with
  | note y b round mem new =>
      refine .inr ⟨b, rfl, new, .inr (.inr ?_)⟩
      exact List.mem_append_right _ (List.mem_singleton_self b)
  | quiet phase => exact .inl rfl
  | close y extra round kept => exact .inl rfl
  | abandon y baseline extra round work kept => exact .inl rfl
  | rest round adoption none_left => exact .inl rfl
  | start best round adoption chosen => exact .inl rfl

/-- Taking bodies in drops nothing, because only a reconciler without a baseline adopts one. -/
theorem Adoption.held {l : Ledger} {awaits : Bool} {baseline : Option Digest} {ds : List Digest}
    (h : Adoption H l awaits baseline ds) (hl : l.awaitsBaseline = true → l.baseline = none)
    (ha : a ∈ heldNames H l.baseline) : a ∈ heldNames H baseline := by
  cases h with
  | without brought nodes none_yet => exact ha
  | adopted front body back split awaited node brought nodes =>
      rw [hl awaited] at ha
      cases ha

/-- What is remembered stays so, unless only the old baseline held it when a round was completed. -/
theorem Change.remembers {known : Digest → Bool} {l l' : Ledger} (h : Change H known l l')
    (hawaiting : l.awaitsBaseline = true → l.baseline = none)
    (hresting : l.round = none → l.recorded = []) (ha : l.Remembers H a) :
    l'.Remembers H a ∨ l.completed < l'.completed ∧ a ∈ heldNames H l.baseline ∧
      ¬ ((∃ n ∈ l.extra, a ∈ n.leaves) ∨ a ∈ l.recorded) ∧ a ∉ heldNames H l'.baseline := by
  cases h with
  | quiet phase => exact .inl ha
  | note y b round mem new =>
      rcases ha with ha | ha | ha
      · exact .inl (.inl ha)
      · exact .inl (.inr (.inl ha))
      · exact .inl (.inr (.inr (List.mem_append_left [b] ha)))
  | close y extra round kept =>
      by_cases hy : a ∈ namesBelow H y
      · exact .inl (.inl hy)
      · by_cases hbeside : (∃ n ∈ l.extra, a ∈ n.leaves) ∨ a ∈ l.recorded
        · rcases kept a hbeside with ha | ha
          · exact absurd ha hy
          · exact .inl (.inr (.inl ha))
        · exact .inr ⟨Nat.lt_succ_self _, ha.resolve_right hbeside, hbeside, hy⟩
  | abandon y baseline extra round work kept =>
      rcases kept a ha with ha | ha
      · exact .inl (.inl ha)
      · exact .inl (.inr (.inl ha))
  | rest round adoption none_left => exact .inl (ha.imp_left (adoption.held hawaiting))
  | start best round adoption chosen =>
      rcases ha with ha | ha | ha
      · exact .inl (.inl (adoption.held hawaiting ha))
      · exact .inl (.inr (.inl ha))
      · rw [hresting round] at ha
        cases ha

/-- What a reconciler in order remembers stays so, unless it is dropped. -/
theorem Evolves.remembers {r' : Reconciler} (inj : Function.Injective H) (h : r.Orderly H S)
    (hr : r.Evolves H S r') (ha : r.ledger.Remembers H a) :
    r'.ledger.Remembers H a ∨ Drops H r r' a := by
  have hawaiting : r.ledger.awaitsBaseline = true → r.ledger.baseline = none :=
    fun hawaits => (h.awaiting hawaits).1
  rcases hr.change.remembers hawaiting h.resting ha with ha | ⟨hcompleted, hheld, hbeside, hgone⟩
  · exact .inl ha
  · refine .inr ⟨hcompleted, (mem_heldNames inj).mp hheld, ?_, ?_⟩
    · rw [mem_remembered]
      exact hbeside
    · rw [← mem_heldNames inj]
      exact hgone

/-! ## One event -/

/-- What an event does to the log and to what is remembered. -/
theorem on_cases (inj : Function.Injective H) (h : r.Orderly H (fun _ => True)) (e : Event)
    (a : Name) :
    (r.ledger.Remembers H a → (r.on H e).ledger.Remembers H a ∨ Drops H r (r.on H e) a) ∧
      ((r.on H e).journal.recorded = r.journal.recorded ∨
        ∃ b, (r.on H e).journal.recorded = r.journal.recorded ++ [b] ∧
          ¬ r.ledger.Remembers H b ∧ (r.on H e).ledger.Remembers H b) := by
  have hquiet : e.announces = false → _ := fun he =>
    evolves_on inj h he (fun _ _ _ _ _ => trivial)
  cases e with
  | announce d =>
      simp only [on, announce]
      split <;> exact ⟨.inl, .inl rfl⟩
  | handIn bytes => exact ⟨.inl, .inl rfl⟩
  | complete d result =>
      exact ⟨(hquiet rfl).remembers inj h, (hquiet rfl).change.log_eq⟩
  | call => exact ⟨(hquiet rfl).remembers inj h, (hquiet rfl).change.log_eq⟩
  | step agent => exact ⟨(hquiet rfl).remembers inj h, (hquiet rfl).change.log_eq⟩

theorem remembers_of_found (inj : Function.Injective H) (h : r.Orderly H (fun _ => True)) {e : Event}
    (hbefore : a ∉ r.journal.recorded) (ha : a ∈ (r.on H e).journal.recorded) :
    (r.on H e).ledger.Remembers H a := by
  rcases (on_cases inj h e a).2 with hlog | ⟨b, hlog, -, hnow⟩
  · rw [hlog] at ha
    exact absurd ha hbefore
  · rw [hlog] at ha
    rcases List.mem_append.mp ha with ha | ha
    · exact absurd ha hbefore
    · obtain rfl := List.mem_singleton.mp ha
      exact hnow

/-- An event finds a name at most once, and only if it is not remembered. -/
theorem count_on (inj : Function.Injective H) (h : r.Orderly H (fun _ => True)) (e : Event)
    (a : Name) :
    (r.on H e).journal.recorded.count a = r.journal.recorded.count a ∨
      (r.on H e).journal.recorded.count a = r.journal.recorded.count a + 1 ∧
        ¬ r.ledger.Remembers H a := by
  rcases (on_cases inj h e a).2 with hlog | ⟨b, hlog, hnew, -⟩
  · exact .inl (by rw [hlog])
  · rw [hlog, List.count_append]
    by_cases hb : b = a
    · subst hb
      exact .inr ⟨by simp, hnew⟩
    · exact .inl (by simp [hb])

/-! ## Histories -/

/-- A name is not found less often in the course of a history. -/
theorem count_le_append (inj : Function.Injective H) (h : r.Orderly H (fun _ => True))
    {es es' : List Event} (hes : ∀ e ∈ es ++ es', e.Honest H) (a : Name) :
    (after H r es).journal.recorded.count a ≤ (after H r (es ++ es')).journal.recorded.count a := by
  induction es' using List.reverseRecOn with
  | nil => rw [List.append_nil]
  | append_singleton es' e ih =>
      rw [← List.append_assoc] at hes ⊢
      have hfront : ∀ e ∈ es ++ es', e.Honest H := fun e he => hes e (List.mem_append_left _ he)
      have horderly := h.after inj hfront (fun _ _ _ _ _ => trivial)
      have hle := ih hfront
      rw [after_concat]
      rcases count_on inj horderly e a with hcount | ⟨hcount, -⟩ <;> omega

/-- A name that was found but is remembered no more was dropped after it was found. -/
theorem exists_drop (inj : Function.Injective H) (h : r.Orderly H (fun _ => True))
    (hempty : r.journal.recorded = []) {es : List Event} (hes : ∀ e ∈ es, e.Honest H)
    (ha : a ∈ (after H r es).journal.recorded)
    (hgone : ¬ (after H r es).ledger.Remembers H a) :
    ∃ es₁ e es₂, es = es₁ ++ e :: es₂ ∧ a ∈ (after H r es₁).journal.recorded ∧
      Drops H (after H r es₁) (after H r (es₁ ++ [e])) a := by
  induction es using List.reverseRecOn with
  | nil =>
      rw [after_nil, hempty] at ha
      cases ha
  | append_singleton es e ih =>
      have hes' : ∀ e ∈ es, e.Honest H := fun e he => hes e (List.mem_append_left _ he)
      have horderly := h.after inj hes' (fun _ _ _ _ _ => trivial)
      rw [after_concat] at ha hgone
      by_cases hfound : a ∈ (after H r es).journal.recorded
      · by_cases hknows : (after H r es).ledger.Remembers H a
        · refine ⟨es, e, [], rfl, hfound, ?_⟩
          rw [after_concat]
          exact ((on_cases inj horderly e a).1 hknows).resolve_left hgone
        · obtain ⟨es₁, e', es₂, rfl, hfound₁, hdrops⟩ := ih hes' hfound hknows
          exact ⟨es₁, e', es₂ ++ [e], by simp, hfound₁, hdrops⟩
      · exact absurd (remembers_of_found inj horderly hfound ha) hgone

/-- A name that is found twice was dropped between the two times. -/
theorem exists_drop_between (inj : Function.Injective H) (h : r.Orderly H (fun _ => True))
    (hempty : r.journal.recorded = []) {es : List Event} (hes : ∀ e ∈ es, e.Honest H)
    (htwice : 2 ≤ (after H r es).journal.recorded.count a) :
    ∃ es₁ e es₂, es = es₁ ++ e :: es₂ ∧ a ∈ (after H r es₁).journal.recorded ∧
      Drops H (after H r es₁) (after H r (es₁ ++ [e])) a ∧
      (after H r (es₁ ++ [e])).journal.recorded.count a <
        (after H r es).journal.recorded.count a := by
  induction es using List.reverseRecOn with
  | nil => simp [hempty] at htwice
  | append_singleton es e ih =>
      have hes' : ∀ e ∈ es, e.Honest H := fun e he => hes e (List.mem_append_left _ he)
      have horderly := h.after inj hes' (fun _ _ _ _ _ => trivial)
      by_cases hbefore : 2 ≤ (after H r es).journal.recorded.count a
      · obtain ⟨es₁, e', es₂, rfl, hfound, hdrops, hlt⟩ := ih hes' hbefore
        have hgrows := count_le_append inj h hes a
        exact ⟨es₁, e', es₂ ++ [e], by simp, hfound, hdrops, Nat.lt_of_lt_of_le hlt hgrows⟩
      · rw [after_concat] at htwice ⊢
        rcases count_on inj horderly e a with hsame | ⟨hmore, hnew⟩
        · rw [hsame] at htwice
          exact absurd htwice hbefore
        · have hfound : a ∈ (after H r es).journal.recorded := by
            refine List.count_pos_iff.mp ?_
            omega
          obtain ⟨es₁, e', es₂, rfl, hfound₁, hdrops⟩ := exists_drop inj h hempty hes' hfound hnew
          refine ⟨es₁, e', es₂ ++ [e], by simp, hfound₁, hdrops, ?_⟩
          have hsplit : es₁ ++ e' :: es₂ = (es₁ ++ [e']) ++ es₂ := by simp
          rw [hsplit] at hes' hmore ⊢
          have hle := count_le_append inj h hes' a
          omega

/-- A name is found twice just when it was dropped after it was found, and found again after that. -/
theorem found_twice_iff (inj : Function.Injective H) {c : Cache} (hgenuine : c.Genuine H)
    (hknown : ∀ d, c.known d = false) {start : Origin} (hstart : ∀ d, start = .root d → Honest H d)
    (firstName : Option Name) {es : List Event} (hes : ∀ e ∈ es, e.Honest H) (a : Name) :
    2 ≤ (after H (create c start firstName) es).journal.recorded.count a ↔
      ∃ es₁ e es₂, es = es₁ ++ e :: es₂ ∧
        a ∈ (after H (create c start firstName) es₁).journal.recorded ∧
        Drops H (after H (create c start firstName) es₁)
          (after H (create c start firstName) (es₁ ++ [e])) a ∧
        (after H (create c start firstName) (es₁ ++ [e])).journal.recorded.count a <
          (after H (create c start firstName) es).journal.recorded.count a := by
  have horderly : (create c start firstName).Orderly H (fun _ => True) := by
    refine orderly_create hgenuine hknown start firstName ?_
    intro d hd
    cases start with
    | empty => cases hd
    | current => cases hd
    | root e =>
        obtain rfl : e = d := Option.some.inj hd
        exact ⟨hstart e rfl, fun _ _ => trivial⟩
  constructor
  · exact exists_drop_between inj horderly rfl hes
  · rintro ⟨es₁, e, es₂, rfl, hfound, -, hlt⟩
    have hfront : ∀ e' ∈ es₁ ++ [e], e'.Honest H := by
      intro e' he'
      rw [List.append_cons] at hes
      exact hes e' (List.mem_append_left _ he')
    have hle := count_le_append inj horderly hfront a
    have hpos := List.count_pos_iff.mpr hfound
    omega

end Reconciler

namespace Sample

open Reconciler

/-- The branch of the first root cannot be had, so its round is given up for the root `{3}`, and what
it found becomes the baseline. When `{3}` is through, the name `1` is dropped, and the root `{1, 3}`
brings it again. -/
def repetition : List Event :=
  [.announce (root branching), .call] ++ stepping 2 ++ [fetched branching] ++ stepping 2 ++
    [.complete (root (flat [2])) (.error (.notFound (root (flat [2]))))] ++ stepping 9 ++
    [.announce (root (flat [3])), .call] ++ stepping 3 ++ [fetched (flat [3])] ++ stepping 8 ++
    [.announce (root (flat [1, 3])), .call] ++ stepping 3 ++ [fetched (flat [1, 3])] ++ stepping 8

theorem honest_repetition : ∀ e ∈ repetition, e.Honest Digest.mk := by
  have hfirst : Honest Digest.mk (root branching) := ⟨_, honestTree_branching⟩
  have hsecond : Honest Digest.mk (root (flat [3])) := ⟨_, honestTree_flat [3]⟩
  have hthird : Honest Digest.mk (root (flat [1, 3])) := ⟨_, honestTree_flat [1, 3]⟩
  simp [repetition, stepping, fetched, Event.Honest, hfirst, hsecond, hthird]

end Sample

namespace Reconciler

open Sample in
/-- Finding the name `1` twice, it was dropped in between. -/
theorem found_twice_repetition :
    ∃ es₁ e es₂, repetition = es₁ ++ e :: es₂ ∧
      name 1 ∈ (after Digest.mk (create (.ofAttempts 1) .empty none) es₁).journal.recorded ∧
      Drops Digest.mk (after Digest.mk (create (.ofAttempts 1) .empty none) es₁)
        (after Digest.mk (create (.ofAttempts 1) .empty none) (es₁ ++ [e])) (name 1) ∧
      (after Digest.mk (create (.ofAttempts 1) .empty none) (es₁ ++ [e])).journal.recorded.count
          (name 1) <
        (after Digest.mk (create (.ofAttempts 1) .empty none) repetition).journal.recorded.count
          (name 1) :=
  (found_twice_iff injective_mk (Cache.genuine_ofAttempts 1) (Cache.known_ofAttempts 1)
    (fun _ h => by cases h) none honest_repetition (name 1)).mp (by decide +kernel)

end Reconciler

end Reconcile
