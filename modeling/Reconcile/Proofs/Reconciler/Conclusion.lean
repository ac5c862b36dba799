import Reconcile.Proofs.Reconciler.Engagement

/-! # What a round has found when it ends

A round that is through found every name of its root that the baseline does not hold; so none of its
nodes were lost. A round that is stuck found all that lost nodes do not stand in the way of. When the
lost nodes come after all, it can go on from there. -/

namespace Reconcile

variable {H : Hashing} {lost : Digest → Prop} {x y d : Digest} {i j : Item} {a : Name}

/-- Where an item leads to another, a lost node may stand in the way. -/
theorem Leads.cases_lost (h : Leads H (fun _ => False) i j) (lost : Digest → Prop) :
    Leads H lost i j ∨
      ∃ e, lost e ∧ Leads H lost i (.ref e) ∧ Leads H (fun _ => False) (.ref e) j := by
  induction h with
  | refl i => exact .inl (.refl i)
  | @into d n j i kept denotes mem rest ih =>
      by_cases hd : lost d
      · exact .inr ⟨d, hd, .refl _, .into kept denotes mem rest⟩
      · rcases ih with h | ⟨e, he, hlost, hrest⟩
        · exact .inl (.into hd denotes mem h)
        · exact .inr ⟨e, he, .into hd denotes mem hlost, hrest⟩

/-- What is done with although nodes are lost does not depend on them. -/
theorem Leads.done_regain {S S' : Name → Prop} (hi : ∀ j, Leads H lost i j → j.Done lost S)
    (hS : ∀ a, S a → S' a) (hj : Leads H (fun _ => False) i j) : j.Done (fun _ => False) S' := by
  rcases hj.cases_lost lost with hj | ⟨e, he, hleads, -⟩
  · cases j with
    | leaf a => exact hS a (hi (.leaf a) hj)
    | ref d => exact id
  · exact absurd he (hi (.ref e) hleads)

/-- Nor does a traversal when all that is left was put aside. -/
theorem Traversal.Covers.regain {S S' : Name → Prop} {w : Traversal} (h : w.Covers H lost x y S)
    (hnext : w.next = []) (hS : ∀ a, S a → S' a) : w.Covers H (fun _ => False) x y S' where
  next f hf := by
    rw [hnext] at hf
    cases hf
  current g hg := by
    obtain ⟨leads, start, denotes⟩ := h.current g hg
    exact ⟨leads.mono (fun _ => False.elim), start, fun n hn => ⟨(denotes n hn).1, id⟩⟩
  aside d hd := (h.aside d hd).mono (fun _ => False.elim)
  covered j hj := by
    have haside : ∀ k, Leads H lost (.ref y) k → Leads H (fun _ => False) k j →
        k.Done lost S ∨ ∃ d ∈ w.aside, Leads H (fun _ => False) (.ref d) j := by
      intro k hk hkj
      rcases h.covered k hk with hdone | hahead | ⟨d, hd, hleads⟩
      · exact .inl hdone
      · rw [hnext] at hahead
        exact absurd hahead not_ahead_nil
      · exact .inr ⟨d, hd, (hleads.mono (fun _ => False.elim)).trans hkj⟩
    rcases hj.cases_lost lost with hleads | ⟨e, he, hleads, hrest⟩
    · rcases haside j hleads (.refl j) with hdone | hd
      · refine .inl ?_
        cases j with
        | leaf a => exact hS a hdone
        | ref d => exact id
      · exact .inr (.inr hd)
    · exact .inr (.inr ((haside (.ref e) hleads hrest).resolve_left (fun hdone => hdone he)))
  closed := by
    rw [hnext]
    trivial

/-- The ends of ranges in an honest tree are names of the tree. -/
theorem Bounds.mem (inj : Function.Injective H) (hx : Honest H x) (h : Bounds H x a) :
    a ∈ namesBelow H x := by
  obtain ⟨d, n, e, child, hd, hn, he, hchild, ha⟩ := h
  have hparent := hx.of_leads inj hd
  have hhonest := hparent.branch inj hn he
  have hne := hparent.inhabited inj hn he
  have hbelow : a ∈ namesBelow H e := by
    rcases ha with rfl | rfl
    · exact hhonest.least_mem inj hchild hne
    · exact hhonest.greatest_mem inj hchild hne
  rw [hx.mem_namesBelow_iff inj]
  have hitem := hd.trans (leads_item id hn (Node.mem_refs.mp he))
  exact hitem.trans ((hhonest.mem_namesBelow_iff inj).mp hbelow)

namespace Reconciler

open Traversal

variable {t : Task H} {owed : List Digest} {start : Nat} {r : Reconciler}

namespace Engaged

/-! ## A round that is through -/

theorem found_of_through (h : Engaged t owed start r) (hnext : r.traversal.next = [])
    (haside : r.traversal.aside = []) :
    r.journal.recorded.Nodup ∧
      ∀ a, a ∈ r.journal.recorded ↔ a ∈ namesBelow H t.y ∧ a ∉ namesBelow H t.x := by
  obtain ⟨-, -, hlog, -, hfinds⟩ := h.during
  refine ⟨hlog ▸ hfinds.nodup, ?_⟩
  intro a
  constructor
  · intro ha
    rw [hlog] at ha
    exact ⟨hfinds.mem a ha, hfinds.fresh a ha⟩
  · rintro ⟨hy, hx⟩
    exact ((h.orderly.round t.y h.round).accounted hnext haside a hy).resolve_left hx

/-- A round gets through only if no node was lost. -/
theorem kept_of_through (h : Engaged t owed start r) (hnext : r.traversal.next = [])
    (haside : r.traversal.aside = []) (hd : Leads H (fun _ => False) (.ref t.y) (.ref d)) :
    ¬ t.lost d := by
  have hdone := h.covers.done hnext haside
  intro hlost
  rcases hd.cases_lost t.lost with hd | ⟨e, he, hleads, -⟩
  · exact hdone (.ref d) hd hlost
  · exact hdone (.ref e) hleads he

theorem closed (h : Engaged t owed start r) :
    (r.closeRound H).journal = r.journal ∧ (r.closeRound H).tally.faults = 0 ∧
      (r.closeRound H).tally.completed = 1 ∧ (r.closeRound H).baseline = some t.y := by
  obtain ⟨-, -, -, hcompleted, -⟩ := h.during
  simp [closeRound, h.round, h.faults, hcompleted]

/-! ## A round that is stuck -/

section Stuck

variable (h : Engaged t owed start r) (hnext : r.traversal.next = [])
  (hmissed : ∀ d ∈ r.traversal.aside, r.cache.GivenUp d)

include h hnext hmissed

theorem found_of_stuck :
    r.journal.recorded.Nodup ∧
      ∀ a, a ∈ r.journal.recorded ↔
        Leads H t.lost (.ref t.y) (.leaf a) ∧ a ∉ namesBelow H t.x := by
  obtain ⟨-, -, hlog, -, hfinds⟩ := h.during
  refine ⟨hlog ▸ hfinds.nodup, ?_⟩
  intro a
  constructor
  · intro ha
    exact ⟨h.listed a ha, hfinds.fresh a (hlog ▸ ha)⟩
  · rintro ⟨hy, hx⟩
    have hheld : Leads H t.lost (.ref t.x) (.leaf a) → a ∈ namesBelow H t.x := by
      intro hleads
      exact (t.current.mem_namesBelow_iff t.inj).mpr (hleads.mono (fun _ => False.elim))
    rcases h.covers.covered (.leaf a) hy with hdone | hahead | ⟨d, hd, hleads⟩
    · rcases hdone with hfound | hcurrent | hbounds
      · simpa [foundSince, t.log] using hfound
      · exact absurd (hheld hcurrent) hx
      · exact absurd (hbounds.mem t.inj t.current) hx
    · rw [hnext] at hahead
      exact absurd hahead not_ahead_nil
    · cases hleads.of_lost (h.supplied.lost_of_givenUp (hmissed d hd))

/-- A lost node that was asked for was given up, and no other was ever there. -/
theorem unfilled_of_lost (hlost : t.lost d) :
    (r.cache.slot d).isFilled = false ∧ (r.cache.slot d).pending = false := by
  have htracked := h.supplied.slots d
  by_cases hasked : d ∈ r.journal.asked
  · have hleads : Leads H t.lost (.ref t.y) (.ref d) :=
      (h.supplied.scope d hasked).resolve_right (fun hx => t.baseline d hx hlost)
    have hgivenUp : r.cache.GivenUp d := by
      rcases h.covers.covered (.ref d) hleads with hdone | hahead | ⟨e, he, heads⟩
      · exact absurd hlost hdone
      · rw [hnext] at hahead
        exact absurd hahead not_ahead_nil
      · have he' := hmissed e he
        cases heads.of_lost (h.supplied.lost_of_givenUp he')
        exact he'
    refine ⟨hgivenUp.unfilled, ?_⟩
    cases hpending : (r.cache.slot d).pending with
    | false => rfl
    | true =>
        have hfailures := (htracked.pending hpending).2.1
        rw [← h.supplied.attempts] at hfailures
        exact absurd hgivenUp.2 (Nat.not_le_of_gt hfailures)
  · have hcount : r.journal.asked.count d = 0 := List.count_eq_zero.mpr hasked
    refine ⟨htracked.unasked hlost hcount, ?_⟩
    cases hpending : (r.cache.slot d).pending with
    | false => rfl
    | true => exact absurd (htracked.pending hpending).2.2 (by omega)

end Stuck

end Engaged

/-! ## Lost nodes that come after all -/

section Regained

variable {r₀ : Reconciler}

theorem Handled.regain {a : Name} (h : Handled H lost x r₀ r a) :
    Handled H (fun _ => False) x r₀ r a :=
  h.imp_right (Or.imp_left (·.mono (fun _ => False.elim)))

theorem Finishes.regain (h : Finishes H lost x r₀ r d) : Finishes H (fun _ => False) x r₀ r d :=
  fun _ hi => Leads.done_regain h (fun _ => Handled.regain) hi

theorem Attends.regain (h : Attends H lost x y r₀ r) (hnext : r.traversal.next = []) :
    Attends H (fun _ => False) x y r₀ r where
  genuine := h.genuine
  known d hd := (h.known d hd).regain
  grows := h.grows
  extra := h.extra
  recorded := h.recorded
  roots := h.roots
  bodies := h.bodies
  awaits := h.awaits
  phase := h.phase
  round d hd := by
    obtain ⟨hy, hbaseline, hcovers⟩ := h.round d hd
    exact ⟨hy, hbaseline, hcovers.regain hnext (fun _ => Handled.regain)⟩
  baseline := h.baseline.imp_right (And.imp_right Finishes.regain)

end Regained

end Reconciler

/-- The same task when nothing is lost any more. -/
def Task.regained (t : Task H) : Task H :=
  { t with
    lost := fun _ => False
    baseline := fun _ _ => id
    root := id
    failed_of_lost := fun _ => False.elim }

theorem Task.Reaches.regained {t : Task H} (h : t.Reaches d) : t.regained.Reaches d :=
  h.imp (·.mono (fun _ => False.elim)) (·.mono (fun _ => False.elim))

namespace Reconciler

variable {t : Task H} {owed : List Digest} {start : Nat} {r : Reconciler}

/-- A round that is stuck goes on as if nothing had been lost, once all lost nodes have come. -/
theorem Engaged.regain (h : Engaged t owed start r) (hnext : r.traversal.next = []) {c : Cache}
    (hc : Cache.Keeps H r.cache c)
    (hsupplied : Supplied H (fun _ => False) t.failed t.Reaches t.limit owed start
      { r with cache := c }) :
    Engaged t.regained owed start { r with cache := c } := by
  have hf := fetches_cache r hc
  refine ⟨(h.attends.regain hnext).fetches hf, h.orderly.fetches hf, ?_,
    { hsupplied with scope := fun d hd => (hsupplied.scope d hd).regained }, h.round, h.begins,
    fun _ _ => id, fun a ha => (h.listed a ha).mono (fun _ => False.elim), h.faults, h.delivered, ?_⟩
  · rw [hf.known, hf.ledger]
    exact h.course
  · intro hnone
    obtain ⟨haside, recorded, ordered, last⟩ := h.tidy hnone
    exact ⟨haside, recorded, ordered, last⟩

end Reconciler

/-- Fetches end in a row, asked for or not. -/
def Cache.completeAll (c : Cache) (results : List (Digest × Except FetchFailure Bytes)) : Cache :=
  results.foldl (fun c result => (c.complete result.1 result.2).1) c

theorem Cache.keeps_completeAll (c : Cache) (results : List (Digest × Except FetchFailure Bytes)) :
    Cache.Keeps H c (c.completeAll results) := by
  induction results generalizing c with
  | nil => exact .refl c
  | cons result results ih => exact (Cache.keeps_complete c _ _).trans (ih _)

namespace Reconciler

variable {lost failed scope : Digest → Prop} {limit start : Nat} {owed : List Digest}
  {r : Reconciler} {results : List (Digest × Except FetchFailure Bytes)}

/-- Nodes come in a row. -/
theorem Supplied.recoverAll (h : r.Supplied H lost failed scope limit owed start)
    (hresults : ∀ result ∈ results, Brings H result.1 result.2)
    (hunfilled : ∀ d, lost d → (r.cache.slot d).isFilled = false)
    (hpending : ∀ result ∈ results, r.cache.pending result.1 = false) :
    Supplied H (fun d => lost d ∧ ∀ result ∈ results, d ≠ result.1) failed scope limit owed start
      { r with cache := r.cache.completeAll results } := by
  induction results generalizing lost r with
  | nil =>
      simp only [List.not_mem_nil, false_implies, implies_true, and_true]
      exact h
  | cons result results ih =>
      have hfirst := h.recover (hresults result List.mem_cons_self) (hunfilled result.1)
        (hpending result List.mem_cons_self)
      have hrest := ih hfirst
        (fun result hresult => hresults result (List.mem_cons_of_mem _ hresult)) ?_ ?_
      · have hsame : (fun d => (lost d ∧ d ≠ result.1) ∧ ∀ result ∈ results, d ≠ result.1) =
            fun d => lost d ∧ ∀ result' ∈ result :: results, d ≠ result'.1 := by
          funext d
          simp [and_assoc]
        rw [hsame] at hrest
        exact hrest
      · rintro d ⟨hlost, hd⟩
        dsimp only
        rw [Cache.slot_complete, if_neg (Ne.symm hd)]
        exact hunfilled d hlost
      · intro result' hresult'
        dsimp only
        by_cases hsame : result.1 = result'.1
        · rw [← hsame]
          exact Cache.pending_complete_self _ _ _
        · rw [Cache.pending_complete_of_ne _ _ hsame]
          exact hpending result' (List.mem_cons_of_mem _ hresult')

/-- When all lost nodes of a round that is stuck come, it can go on. -/
theorem Engaged.recovers {t : Task H} (h : Engaged t owed start r) (hnext : r.traversal.next = [])
    (hmissed : ∀ d ∈ r.traversal.aside, r.cache.GivenUp d)
    (hresults : ∀ result ∈ results, t.lost result.1 ∧ Brings H result.1 result.2)
    (hall : ∀ d, t.lost d → ∃ result ∈ results, result.1 = d) :
    Engaged t.regained owed start { r with cache := r.cache.completeAll results } := by
  have hsupplied := h.supplied.recoverAll (fun result hresult => (hresults result hresult).2)
    (fun d hd => (h.unfilled_of_lost hnext hmissed hd).1)
    (fun result hresult => (h.unfilled_of_lost hnext hmissed (hresults result hresult).1).2)
  have hnone : (fun d => t.lost d ∧ ∀ result ∈ results, d ≠ result.1) = fun _ => False := by
    funext d
    refine propext (iff_false_intro ?_)
    rintro ⟨hlost, hnever⟩
    obtain ⟨result, hresult, hd⟩ := hall d hlost
    exact hnever result hresult hd.symm
  rw [hnone] at hsupplied
  exact h.regain hnext (Cache.keeps_completeAll _ _) hsupplied

end Reconciler

end Reconcile
