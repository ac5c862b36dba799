import Reconcile.Proofs.Reconciler.Dealing
import Reconcile.Proofs.Reconciler.Requests

/-! # Whoever waits will be woken

A pass that waits leaves a fetch under way of a node that its round needs. Every fetch that is under way
was agreed to and has not ended since, so it will end, and wake the one who waits. -/

namespace Reconcile

namespace Reconciler

open Traversal

variable {H : Hashing} {agent : Agent} {P : Digest → Prop} {r r' : Reconciler} {d : Digest}
  {es : List Event} {e : Event}

/-! ## What is under way -/

theorem Deals.consistent (h : Deals H r r') (hr : r.cache.Consistent) : r'.cache.Consistent := by
  obtain ⟨deeds, hcache, -⟩ := h
  rw [hcache]
  exact hr.after deeds

theorem consistent_after (hr : r.cache.Consistent) (es : List Event) :
    (after H r es).cache.Consistent := by
  refine after_induction (P := fun r => r.cache.Consistent) hr ?_
  intro r e _ hr
  rcases ends_or_deals (H := H) r e with ⟨d, result, rfl⟩ | ⟨-, hdeals⟩
  · exact hr.complete d result
  · exact hdeals.consistent hr

theorem Deals.pending (h : Deals H r r') (hd : r'.cache.pending d = true) :
    r.cache.pending d = true ∨ d ∈ r'.journal.accepted.drop r.journal.accepted.length := by
  obtain ⟨deeds, hcache, haccepted, -⟩ := h
  rw [hcache] at hd
  rw [haccepted, List.drop_left]
  exact Cache.pending_of_after hd

/-- The nodes that the agent agrees to fetch in an event. -/
def accepts (H : Hashing) (r : Reconciler) (e : Event) : List Digest :=
  (r.on H e).journal.accepted.drop r.journal.accepted.length

/-- In a history the agent agreed to fetch the node, and no fetch of it has ended since. -/
def Outstanding (H : Hashing) (r : Reconciler) (es : List Event) (d : Digest) : Prop :=
  ∃ es₁ e es₂, es = es₁ ++ e :: es₂ ∧ d ∈ (after H r es₁).accepts H e ∧
    ∀ result, .complete d result ∉ es₂

theorem pending_of_on (h : (r.on H e).cache.pending d = true) :
    d ∈ r.accepts H e ∨ r.cache.pending d = true ∧ ∀ result, e ≠ .complete d result := by
  rcases ends_or_deals (H := H) r e with ⟨d', result, rfl⟩ | ⟨hends, hdeals⟩
  · have hne : d' ≠ d := by
      rintro rfl
      cases (Cache.pending_complete_self r.cache d' result).symm.trans h
    refine .inr ⟨(Cache.pending_complete_of_ne r.cache result hne).symm.trans h, ?_⟩
    exact fun result' hsame => hne (Event.complete.inj hsame).1
  · rcases hdeals.pending h with hpending | haccepted
    · exact .inr ⟨hpending, hends d⟩
    · exact .inl haccepted

/-- Whatever is under way after a history is outstanding. -/
theorem outstanding_of_pending (hr : r.cache.pending d = false)
    (h : (after H r es).cache.pending d = true) : Outstanding H r es d := by
  induction es using List.reverseRecOn with
  | nil => cases hr.symm.trans h
  | append_singleton es e ih =>
      rw [after_concat] at h
      rcases pending_of_on h with haccepted | ⟨hpending, he⟩
      · exact ⟨es, e, [], rfl, haccepted, fun result hmem => nomatch hmem⟩
      · obtain ⟨es₁, e', es₂, rfl, haccepted, hnone⟩ := ih hpending
        refine ⟨es₁, e', es₂ ++ [e], by simp, haccepted, ?_⟩
        intro result hmem
        rcases List.mem_append.mp hmem with hmem | hmem
        · exact hnone result hmem
        · exact he result (List.mem_singleton.mp hmem).symm

/-! ## Whoever waits -/

/-- A node that the round in progress cannot do without. -/
inductive Needs (H : Hashing) (r : Reconciler) : Digest → Prop
  | root {y : Digest} (round : r.round = some y) : Needs H r y
  | child {y d : Digest} {n : Node} (round : r.round = some y)
      (found : (r.cache.look H y).2 = .present n) (mem : d ∈ n.refs) : Needs H r d
  | position {d : Digest} (awaits : r.traversal.Awaits d) : Needs H r d

/-- Looking and asking end no fetch. -/
theorem Consults.pending (h : Consults H agent P r r') (hr : r.cache.Consistent)
    (hd : r.cache.pending d = true) : r'.cache.pending d = true := by
  induction h with
  | refl => exact hd
  | look before e ih => exact (before.deals.consistent hr).pending_look e ih
  | @ask r' before e allowed ih =>
      obtain ⟨hcache, -⟩ := request_await agent r' e
      rw [hcache]
      exact (before.deals.consistent hr).pending_request _ ih

theorem Waits.pending (h : Waits H .accepting P r r') (hr : r.cache.Consistent) :
    ∃ d, P d ∧ r'.cache.pending d = true := by
  obtain ⟨before, allowed, answer, after⟩ := h
  have hmid := (before.ask allowed).deals.consistent hr
  exact ⟨_, allowed, after.pending hmid (pending_await answer)⟩

/-- A step that ends its pass waiting leaves a fetch under way that the round needs. -/
theorem needs_of_step (hr : r.cache.Consistent) (h : r.step H .accepting = (r', some .waiting)) :
    ∃ d, r'.Needs H d ∧ r'.cache.pending d = true := by
  have hgiveWay : ∀ r₁ : Reconciler, r₁.giveWay H ≠ (r', some .waiting) := by
    intro r₁ h₁
    unfold giveWay at h₁
    split at h₁ <;> cases h₁
  unfold step at h
  split at h
  · cases h
  · have hload := loaded_load (H := H) .accepting r
    generalize r.load H .accepting = loaded at hload h
    obtain ⟨r₁, progress⟩ := loaded
    cases progress with
    | through => cases h
    | stuck => exact absurd h (hgiveWay r₁)
    | waiting =>
        cases h
        cases hload with
        | @waitingRefs _ root n round found waits =>
            obtain ⟨d, hd, hpending⟩ := waits.pending ((deals_look r root).consistent hr)
            obtain ⟨deeds, hcache, -⟩ := (deals_look r root).trans waits.consults.deals
            have hround : r'.round = some root := waits.consults.fetches.round.trans round
            refine ⟨d, .child hround ?_ hd, hpending⟩
            rw [hcache]
            exact Cache.present_after found deeds
        | waitingRoot round waits =>
            obtain ⟨d, rfl, hpending⟩ := waits.pending hr
            exact ⟨d, .root (waits.consults.fetches.round.trans round), hpending⟩
  · have hs := strode_stride (H := H) .accepting r
    generalize r.stride H .accepting = strode at hs h
    obtain ⟨r₁, stride⟩ := strode
    cases stride with
    | onward => cases h
    | through => cases h
    | stuck => exact absurd h (hgiveWay r₁)
    | fault e => cases h
    | waiting =>
        cases h
        cases hs with
        | waiting waits =>
            obtain ⟨d, hd, hpending⟩ := waits.pending hr
            exact ⟨d, .position (waits.consults.fetches.traversal ▸ hd), hpending⟩
  · split at h <;> cases h

/-- Whenever a pass ends waiting, whatever came before, a node that the round needs is under way, and
every node that is under way was agreed to be fetched and no fetch of it has ended since. -/
theorem waiting_pass_awaits (attempts : Nat) (start : Origin) (firstName : Option Name)
    (es : List Event) {r' : Reconciler} :
    let r₀ := create (.ofAttempts attempts) start firstName
    (after H r₀ es).pass H .accepting = (r', some .waiting) →
      (∃ d, r'.Needs H d ∧ r'.cache.pending d = true) ∧
      ∃ n, let es' := es ++ .call :: List.replicate n (.step .accepting)
        r' = after H r₀ es' ∧ ∀ d, r'.cache.pending d = true → Outstanding H r₀ es' d := by
  intro r₀ hpass
  have hnone : ∀ d, r₀.cache.pending d = false := fun _ => rfl
  have hconsistent : ∀ es, (after H r₀ es).cache.Consistent :=
    fun es => consistent_after (Cache.consistent_ofAttempts attempts) es
  obtain ⟨n, hlast⟩ := last_of_pass hpass
  rw [← after_append] at hlast
  refine ⟨needs_of_step (hconsistent _) hlast, n + 1, ?_⟩
  have hr' : r' = after H r₀ (es ++ .call :: List.replicate (n + 1) (.step .accepting)) := by
    rw [List.replicate_succ', ← List.cons_append, ← List.append_assoc, after_concat]
    simp only [on, hlast]
  refine ⟨hr', fun d hd => outstanding_of_pending (hnone d) ?_⟩
  rwa [← hr']

end Reconciler

namespace Sample

/-- The next root is at hand; nobody has fetched the baseline yet. -/
def halfway : List Event :=
  [.announce (root (flat [1, 2])), .call] ++ stepping 2 ++ [fetched (flat [1, 2])]

end Sample

namespace Reconciler

open Sample in
/-- The pass that comes next waits for the baseline. -/
theorem waiting_pass_awaits_halfway :
    ∃ r', (after Digest.mk (create (.ofAttempts 3) (.root (root (flat [1]))) none) halfway).pass
        Digest.mk .accepting = (r', some .waiting) ∧
      ∃ d, r'.Needs Digest.mk d ∧ r'.cache.pending d = true ∧
        ∃ es, r' = after Digest.mk (create (.ofAttempts 3) (.root (root (flat [1]))) none) es ∧
          Outstanding Digest.mk (create (.ofAttempts 3) (.root (root (flat [1]))) none) es d := by
  have hpass := pass_of_last (H := Digest.mk) .accepting
    (after Digest.mk (create (.ofAttempts 3) (.root (root (flat [1]))) none) halfway)
    .waiting 2 (by decide +kernel) (by decide +kernel)
  obtain ⟨⟨d, hneeds, hpending⟩, n, hr', houtstanding⟩ :=
    waiting_pass_awaits 3 (.root (root (flat [1]))) none halfway hpass
  exact ⟨_, hpass, d, hneeds, hpending, _, hr', houtstanding d hpending⟩

end Reconciler

end Reconcile
