import Reconcile.Proofs.Exchange.Rounds
import Reconcile.Proofs.Reconciler.Resting

/-! # Runs for nothing

A run without need does no harm: where a run waits, is stuck or has nothing to do, and all requests of
its last pass were accepted, another run has the same outcome and leaves everything as it was but the
count of runs. -/

namespace Reconcile

variable {H : Hashing}

namespace Exchange

variable {x x' : Exchange} {r : Reconciler} {o : Option Outcome}

/-- A round whose pass hands no name out is that pass. -/
theorem round_of_silent (h : x.reconciler.pass H x.agent = (r, o))
    (silent : r.journal.delivered = x.reconciler.journal.delivered) :
    x.round H =
        ({ x with
            reconciler := r
            unanswered := x.unanswered ++
              r.journal.accepted.drop x.reconciler.journal.accepted.length }, []) ∧
      (x.pass H).2.1 = o := by
  have hpass : x.pass H =
      ({ x with
          reconciler := r
          unanswered := x.unanswered ++
            r.journal.accepted.drop x.reconciler.journal.accepted.length }, o, []) := by
    simp [pass, withReconciler, h, silent]
  rw [round, hpass]
  exact ⟨rfl, rfl⟩

/-- A run whose first pass hands no name out is that pass. -/
theorem run_of_silent (free : x.turn = {}) (h : x.reconciler.pass H x.agent = (r, o))
    (silent : r.journal.delivered = x.reconciler.journal.delivered) :
    x.run H =
      ({ x with
          reconciler := r
          unanswered := x.unanswered ++
            r.journal.accepted.drop x.reconciler.journal.accepted.length }, o, []) := by
  obtain ⟨reconciler, published, unanswered, refusing, turn, hooks⟩ := x
  obtain rfl : turn = {} := free
  obtain ⟨hround, hpass⟩ := round_of_silent
    (x := ⟨reconciler, published, unanswered, refusing, { taken := true }, hooks⟩) h silent
  have hcalm : (round H ⟨reconciler, published, unanswered, refusing, { taken := true },
      hooks⟩).1.turn.again = false := by
    rw [hround]
  rw [run]
  simp only [Turn.claim, Bool.false_eq_true, if_false]
  rw [rounds_of_calm hcalm, hround, hpass]
  rfl

/-! ## The last pass of a run -/

/-- The exchange when the last of the rounds of a turn begins. -/
def lastRound (H : Hashing) : Nat → Exchange → Exchange
  | 0, x => x
  | fuel + 1, x =>
    if (x.round H).1.turn.again then
      lastRound H fuel { (x.round H).1 with turn := (x.round H).1.turn.release.1 }
    else x

/-- The exchange when the last pass of a run begins. -/
def lastPass (H : Hashing) (x : Exchange) : Exchange :=
  lastRound H (x.hooks.size + 1) { x with turn := x.turn.claim.1 }

theorem lastPass_of_silent (free : x.turn = {}) (h : x.reconciler.pass H x.agent = (r, o))
    (silent : r.journal.delivered = x.reconciler.journal.delivered) :
    x.lastPass H = { x with turn := { taken := true } } := by
  have hclaim : x.turn.claim.1 = { taken := true } := by
    rw [free]
    rfl
  obtain ⟨hround, -⟩ := round_of_silent (x := { x with turn := { taken := true } }) h silent
  rw [lastPass, lastRound, hclaim, hround]
  exact if_neg (by simp)

theorem outcome_rounds {fuel : Nat} {outcome : Outcome} (h : (rounds H fuel x).2.1 = some outcome) :
    ((lastRound H fuel x).pass H).2.1 = some outcome := by
  induction fuel generalizing x with
  | zero => cases h
  | succ fuel ih =>
      cases hagain : (x.round H).1.turn.again with
      | true =>
          rw [rounds_of_asked hagain] at h
          rw [lastRound, if_pos hagain]
          exact ih h
      | false =>
          rw [rounds_of_calm hagain] at h
          rw [lastRound, if_neg (by simp [hagain])]
          exact h

theorem outcome_run {outcome : Outcome} (free : x.turn = {}) (h : (x.run H).2.1 = some outcome) :
    (x.lastPass H).reconciler.pass H (x.lastPass H).agent =
      (((x.lastPass H).pass H).1.reconciler, some outcome) := by
  have hclaim : x.turn.claim = ({ taken := true }, true) := by
    rw [free]
    rfl
  have hrun : x.run H = rounds H (x.hooks.size + 1) { x with turn := x.turn.claim.1 } := by
    simp [run, hclaim]
  rw [hrun] at h
  exact Prod.ext rfl (outcome_rounds h)

end Exchange

namespace Reconciler

variable {agent : Agent} {r r' : Reconciler} {o : Outcome}

/-- Every request that was made between two states was accepted. -/
def AllAccepted (r r' : Reconciler) : Prop :=
  ∃ ds, r'.journal.asked = r.journal.asked ++ ds ∧ r'.journal.accepted = r.journal.accepted ++ ds

theorem AllAccepted.refusals_le (h : AllAccepted r r') : r'.refusals ≤ r.refusals := by
  obtain ⟨ds, hasked, haccepted⟩ := h
  rw [refusals, refusals, hasked, haccepted, List.length_append, List.length_append]
  omega

theorem rests_of_accepted (h : r.pass H agent = (r', some o))
    (outcome : o = .waiting ∨ o = .stuck ∨ o = .idle) (accepted : AllAccepted r r') :
    r'.AtRest H o := by
  refine rests_pass h ?_ accepted.refusals_le
  rcases outcome with rfl | rfl | rfl <;> exact fun h => nomatch h

end Reconciler

namespace Exchange

open Reconciler in
/-- Where a pass waits, is stuck or has nothing to do, and all its requests were accepted, another pass
has the same outcome and changes nothing but the count of passes, whoever is asked. So does another run
of an exchange, unless something befell its reconciler after the last pass of the run before. -/
theorem run_again (H : Hashing) :
    (∀ r agent r' o, r.pass H agent = (r', some o) → o = .waiting ∨ o = .stuck ∨ o = .idle →
      AllAccepted r r' → ∀ agent',
        r'.pass H agent' = ({ r' with tally.runs := r'.tally.runs + 1 }, some o)) ∧
    ∀ (x x' : Exchange) o replies, x.turn = {} → x.run H = (x', some o, replies) →
      o = .waiting ∨ o = .stuck ∨ o = .idle →
      AllAccepted (x.lastPass H).reconciler ((x.lastPass H).pass H).1.reconciler →
      x'.reconciler = ((x.lastPass H).pass H).1.reconciler →
        x'.run H =
          ({ x' with reconciler.tally.runs := x'.reconciler.tally.runs + 1 }, some o, []) := by
  refine ⟨?_, ?_⟩
  · intro r agent r' o hpass outcome accepted agent'
    exact (rests_of_accepted hpass outcome accepted).pass agent'
  · intro x x' o replies free hrun outcome accepted untouched
    have hlast := outcome_run free (by rw [hrun])
    have hrests : x'.reconciler.AtRest H o := untouched ▸ rests_of_accepted hlast outcome accepted
    obtain ⟨-, -, hfree, -, -⟩ := run_is_row (H := H) x free
    rw [hrun] at hfree
    rw [run_of_silent hfree (hrests.pass x'.agent) rfl]
    simp

end Exchange

namespace Sample

/-- The node of an announced root is there, but not the branch that it refers to. -/
def halfLoaded : Reconciler :=
  Reconciler.after Digest.mk (comparing (flat [3])) [.announce (root branching), fetched branching]

/-- The same after a pass. -/
def loadingBranch : Reconciler := Reconciler.after Digest.mk halfLoaded (.call :: stepping 2)

theorem pass_halfLoaded :
    halfLoaded.pass Digest.mk .accepting = (loadingBranch, some .waiting) := by
  refine Reconciler.pass_of_last .accepting halfLoaded .waiting 1 ?_ (by decide +kernel)
  intro k hk
  obtain rfl := Nat.lt_one_iff.mp hk
  decide +kernel

end Sample

namespace Exchange

open Sample in
theorem run_again_halfLoaded :
    let x : Exchange := { reconciler := halfLoaded, published := .empty }
    let x' : Exchange := { x with reconciler := loadingBranch, unanswered := [root (flat [2])] }
    loadingBranch.pass Digest.mk (.refusing refusal) =
        ({ loadingBranch with tally.runs := 2 }, some .waiting) ∧
      x.run Digest.mk = (x', some .waiting, []) ∧
      x'.run Digest.mk = ({ x' with reconciler.tally.runs := 2 }, some .waiting, []) := by
  intro x x'
  have haccepted : Reconciler.AllAccepted halfLoaded loadingBranch :=
    ⟨[root (flat [2])], by decide +kernel, by decide +kernel⟩
  have hpass : x.reconciler.pass Digest.mk x.agent = (loadingBranch, some .waiting) :=
    pass_halfLoaded
  have hsilent : loadingBranch.journal.delivered = x.reconciler.journal.delivered := by
    decide +kernel
  have hrun : x.run Digest.mk = (x', some .waiting, []) := run_of_silent rfl hpass hsilent
  have hlast := lastPass_of_silent (x := x) rfl hpass hsilent
  have hend : ((x.lastPass Digest.mk).pass Digest.mk).1.reconciler = loadingBranch := by
    rw [hlast]
    exact congrArg Prod.fst hpass
  refine ⟨?_, hrun, ?_⟩
  · exact (run_again Digest.mk).1 halfLoaded .accepting loadingBranch .waiting pass_halfLoaded
      (.inl rfl) haccepted (.refusing refusal)
  · refine (run_again Digest.mk).2 x x' .waiting [] rfl hrun (.inl rfl) ?_ hend.symm
    rw [hend, hlast]
    exact haccepted

end Exchange

end Reconcile
