import Reconcile.Proofs.History.Looseness
import Reconcile.Proofs.Reconciler.Tracking

/-! # Trees in order never make a round fail

A fault blames a tree. If every tree that a reconciler has to do with is in order, none is ever found,
whatever becomes of the fetches and however the rounds are cut short: each side goes along a row that
ascends, and what is kept of a round that is given up is in order too. -/

namespace Reconcile

namespace Reconciler

variable {H : Hashing} {agent : Agent} {P : Digest → Prop} {r r' : Reconciler}

/-- Every root that a reconciler has to do with satisfies `P`. -/
structure Concerns (H : Hashing) (P : Digest → Prop) (r : Reconciler) : Prop where
  baseline : ∀ d ∈ r.baseline, P d
  round : ∀ d ∈ r.round, P d
  waiting : ∀ d, r.Waiting H d → P d

/-- Only roots that wait become baselines or get rounds, beside the stand-ins. -/
theorem Concerns.on (h : r.Concerns H P) (hr : r.Regular H)
    (hstandIn : ∀ names, ∀ d ∈ (Cache.standIn H names).map Prod.fst, P d) {e : Event}
    (he : ∀ d, e.Offers H d → P d) : (r.on H e).Concerns H P := by
  have hwaiting : ∀ d, (r.on H e).Waiting H d → P d :=
    fun d hd => (hr.waiting_on hd).elim (h.waiting d) (he d)
  have hturns := hr.turns e
  generalize r.on H e = r' at hturns hwaiting
  cases hturns with
  | stays same =>
      refine ⟨?_, ?_, hwaiting⟩
      · rw [same.baseline]
        exact h.baseline
      · rw [same.round]
        exact h.round
  | chose round =>
      have hturned := turned_choose hr.genuine round
      refine ⟨?_, fun d hd => h.waiting d (hturned.opens hd).waiting, hwaiting⟩
      intro d hd
      rcases hturned.baseline with ⟨-, hbaseline⟩ | ⟨-, -, e, hwaits, hbaseline⟩
      · exact h.baseline d (hbaseline ▸ hd)
      · obtain rfl := Option.some.inj (hbaseline.symm.trans hd)
        exact h.waiting e hwaits
  | went round goes =>
      refine ⟨?_, ?_, hwaiting⟩
      · rw [goes.continues.baseline]
        exact h.baseline
      · rw [goes.continues.round]
        exact h.round
  | @closed y round next aside =>
      refine ⟨?_, ?_, hwaiting⟩
      · intro d hd
        simp only [closeRound, round] at hd
        exact h.round d (round.trans hd)
      · intro d hd
        simp only [closeRound, round] at hd
        cases hd
  | gaveUp round abandons =>
      obtain ⟨r₁, hfetches, rfl⟩ := abandons.fetches
      refine ⟨?_, ?_, hwaiting⟩
      · intro d hd
        rcases mem_baseline_abandonRound hd with hd | ⟨names, hd⟩
        · exact h.baseline d (hfetches.baseline ▸ hd)
        · exact hstandIn names d hd
      · intro d hd
        cases hd

/-- No fault was found, and none can be: all trees are in order. -/
structure Faultless (H : Hashing) (r : Reconciler) : Prop extends r.Tracks H where
  concerns : r.Concerns H (Ordered H)
  faults : r.tally.faults = 0

namespace Faultless

theorem plan_ne_error (inj : Function.Injective H) (h : r.Faultless H) {y : Digest}
    (hround : r.round = some y) (hmeets : r.traversal.Meets) {e : Traversal.Fault} :
    (Traversal.plan H r.cache r.traversal).2 ≠ .error e :=
  (h.round y hround).plan_ne_error inj h.concerns.baseline (h.concerns.round y hround) hmeets

theorem on (inj : Function.Injective H) (h : r.Faultless H) {e : Event}
    (he : ∀ d, e.Offers H d → Ordered H d) : (r.on H e).Faultless H where
  toTracks := h.toTracks.on inj e
  concerns := by
    refine h.concerns.on h.toRegular ?_ he
    exact fun names d hd => ordered_of_honest inj (Cache.honest_standIn inj hd).1
  faults := by
    have hturns := h.turns e
    generalize r.on H e = r' at hturns
    cases hturns with
    | stays same => exact same.faults.trans h.faults
    | chose round => rw [(journal_tally_choose r).2, h.faults]
    | went round goes => exact goes.continues.faults.trans h.faults
    | closed round next aside =>
        simp only [closeRound, round]
        exact h.faults
    | gaveUp round abandons =>
        cases abandons with
        | stalled fetches faults sameRound => exact faults.trans h.faults
        | faulted plan meets =>
            exact absurd (congrArg Prod.snd plan) (h.plan_ne_error inj round meets)

theorem after (inj : Function.Injective H) (h : r.Faultless H) {es : List Event}
    (hes : ∀ e ∈ es, ∀ d, e.Offers H d → Ordered H d) : (after H r es).Faultless H :=
  after_induction h (fun _ e he h => h.on inj (hes e he))

/-- A step does not end a pass with a fault. -/
theorem step_ne (inj : Function.Injective H) (h : r.Faultless H) (agent : Agent) :
    (r.step H agent).2 ≠ some .malformed := by
  intro hmalformed
  obtain ⟨hphase, hmeets, e, hplan⟩ := step_malformed_iff.mp hmalformed
  obtain ⟨y, hround⟩ := h.exists_round (.inr hphase)
  exact h.plan_ne_error inj hround hmeets hplan

/-- Neither does any later one. -/
theorem steps_ne (inj : Function.Injective H) {r' : Reconciler} {outcome : Outcome}
    (h : r.Faultless H) (hsteps : steps H agent r = some (r', outcome)) : outcome ≠ .malformed := by
  have hresult := loop_induction
    (P := fun r result => r.Faultless H → result.2 ≠ Outcome.malformed) ?_ ?_ hsteps
  · exact hresult h
  · rintro r r' outcome hstep h rfl
    exact h.step_ne inj agent (congrArg Prod.snd hstep)
  · intro r r' result hstep ih h
    have hon : (r.on H (.step agent)).Faultless H := h.on inj (fun d hd => hd.elim)
    rw [Reconciler.on, hstep] at hon
    exact ih hon

end Faultless

theorem faultless_create {c : Cache} (hgenuine : c.Genuine H) (start : Origin)
    (hstart : ∀ d, start = .root d → Ordered H d) (firstName : Option Name) :
    (create c start firstName).Faultless H := by
  refine ⟨tracks_create hgenuine start firstName, ⟨?_, fun d hd => (nomatch hd), ?_⟩, rfl⟩
  · intro d hd
    cases start with
    | root e => exact hstart d (congrArg Origin.root (Option.some.inj hd))
    | empty => cases hd
    | current => cases hd
  · rintro d (hd | ⟨body, hbody, -⟩)
    · cases hd
    · cases hbody

/-- Over trees in order no pass ever ends with a fault, and none is counted. It does not matter how
the fetches end, what comes in between the steps, and which rounds are given up. -/
theorem never_malformed (inj : Function.Injective H) {c : Cache} (hgenuine : c.Genuine H)
    (start : Origin) (hstart : ∀ d, start = .root d → Ordered H d) (firstName : Option Name)
    (es : List Event) (hes : ∀ e ∈ es, ∀ d, e.Offers H d → Ordered H d)
    (hr : r = after H (create c start firstName) es) :
    r.tally.faults = 0 ∧ ∀ agent, (r.step H agent).2 ≠ some .malformed ∧
      (r.pass H agent).2 ≠ some .malformed := by
  have h : r.Faultless H := hr ▸ (faultless_create hgenuine start hstart firstName).after inj hes
  refine ⟨h.faults, fun agent => ⟨h.step_ne inj agent, ?_⟩⟩
  have hcall : (r.on H .call).Faultless H := h.on inj (fun d hd => hd.elim)
  simp only [pass]
  split
  · rename_i r' outcome hsteps
    intro houtcome
    exact hcall.steps_ne inj hsteps (Option.some.inj houtcome)
  · simp

end Reconciler

namespace Sample

theorem ordered_loose : Tree Digest.mk Node.Ordered (root loose) [name 2] :=
  @Tree.node _ _ _ _ (fun _ => []) (denotes_digest Digest.mk loose) (fun _ he => nomatch he)
    ⟨by decide, by decide⟩

theorem ordered_aboveLoose : Ordered Digest.mk (root aboveLoose) :=
  ⟨[name 2], @Tree.node _ _ _ _ (fun _ => [name 2]) (denotes_digest Digest.mk aboveLoose)
    (fun _ he => List.mem_singleton.mp he ▸ ordered_loose) ⟨by decide, by decide⟩⟩

theorem ordered_besideLoose : Ordered Digest.mk (root besideLoose) :=
  ⟨[name 1, name 2], @Tree.node _ _ _ _ (fun _ => [name 2]) (denotes_digest Digest.mk besideLoose)
    (fun _ he => List.mem_singleton.mp he ▸ ordered_loose) ⟨by decide, by decide⟩⟩

/-- The branch of the first root comes spoilt and is put aside. Its round is given up for another root,
which is compared with the stand-in once its nodes have come. -/
def spoiling : List Event :=
  [.announce (root besideLoose), .call] ++ stepping 2 ++ [fetched besideLoose] ++ stepping 1 ++
    [.complete (root loose) (.ok [255])] ++ stepping 6 ++ [.announce (root aboveLoose)] ++
    stepping 3 ++ [fetched aboveLoose, fetched loose] ++ stepping 12

end Sample

namespace Reconciler

open Sample in
/-- The nodes of these trees state ranges that are too wide, but the trees are in order. -/
theorem never_malformed_spoiling :
    let r := after Digest.mk (create (.ofAttempts 1) .empty none) spoiling
    r.tally.aborted = 1 ∧ r.tally.completed = 1 ∧ r.tally.faults = 0 ∧
      ∀ agent, (r.step Digest.mk agent).2 ≠ some .malformed ∧
        (r.pass Digest.mk agent).2 ≠ some .malformed := by
  refine ⟨by decide +kernel, by decide +kernel, never_malformed injective_mk
    (Cache.genuine_ofAttempts 1) .empty (by simp) none spoiling ?_ rfl⟩
  intro e he d hd
  simp only [spoiling, fetched, stepping, List.cons_append, List.nil_append, List.append_assoc,
    List.mem_cons, List.mem_append, List.mem_replicate] at he
  rcases he with rfl | rfl | ⟨-, rfl⟩ | rfl | ⟨-, rfl⟩ | rfl | ⟨-, rfl⟩ | rfl | ⟨-, rfl⟩ | rfl |
    rfl | ⟨-, rfl⟩
  · exact hd ▸ ordered_besideLoose
  all_goals first | exact hd.elim | exact hd ▸ ordered_aboveLoose

end Reconciler

end Reconcile
